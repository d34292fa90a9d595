import RankOne.Proofs.Attempts
import RankOne.Proofs.Paths
import RankOne.Proofs.Sha256.Restart

/-!
# Paths of a digest — no path is claimed twice

    Whoever holds a digest may call it as often as he likes in one namespace.
    Each name that it gives there carries an operation number, and no number is
    used for two calls, also when a call fails half way or the digest is reset.

    `Gave c c'` says this of a run from `c` to `c'`: the names are those of
    labels with numbers from the one of the first digest up to the one of the
    second.  Every operation is shown to keep it in both outcomes, so that it
    holds along whole histories.  Below the names of the digest, the names of a
    compression are distinct as well, as far as the compression gets.

    What is claimed in a history is then read off the acts that it consists of.
    The same acts, begun in a namespace without names, find no fault; so all
    paths that they claim are different.
-/

namespace RankOne.Sha256

open Build Hashing
open Naming (Label)

variable {p : Nat}

/-! ## Compression, as far as it gets -/

section Compression

variable [Modulus p]

/-- A word of the schedule gives three names, or fails and gives some. -/
theorem attempts_nextWord (i : Nat) (recent : Vector Word 16) :
    Attempts ((wordLabels i).map Label.name) (nextWord (p := p) i recent) fun _ => True := by
  refine (tidy_smallSigma₁ _).within.attempts.step fun _ _ => ?_
  refine (tidy_smallSigma₀ _).within.attempts.step fun _ _ => ?_
  exact (Bits.contained_addMany _).within

/-- By induction on the number of words. -/
theorem attempts_extend (n i : Nat) (recent : Vector Word 16) :
    Attempts (((List.range' i n).flatMap wordLabels).map Label.name) (extend (p := p) n i recent)
      fun ws => ws.length = n := by
  induction n generalizing i recent with
  | zero => exact Attempts.pure rfl
  | succ n ih =>
      rw [List.range'_succ, List.flatMap_cons, List.map_append]
      refine (attempts_nextWord i recent).bind fun w _ => ?_
      refine Attempts.map (g := fun later => w :: later) ?_
      exact (ih (i + 1) (recent.tail.push w)).mono fun _ hlater => congrArg (· + 1) hlater

/-- A round gives seven names, or fails and gives some. -/
theorem attempts_round (i : Nat) (k : BitVec 32) (w : Word) (r : Vector Word 8) :
    Attempts ((roundLabels i).map Label.name) (round (p := p) i k w r) fun _ => True := by
  refine (tidy_bigSigma₁ _).within.attempts.step fun _ _ => ?_
  refine (Bits.tidy_choose _ _ _).within.attempts.step fun _ _ => ?_
  refine (Bits.contained_addMany _).within.step fun _ _ => ?_
  refine (tidy_bigSigma₀ _).within.attempts.step fun _ _ => ?_
  refine (Bits.tidy_majority _ _ _).within.attempts.step fun _ _ => ?_
  refine (Bits.contained_addMany _).within.step fun _ _ => ?_
  exact (Bits.contained_addMany _).within.step fun _ _ => Attempts.pure trivial

/-- By induction on the rounds that are left. -/
theorem attempts_rounds (i : Nat) (kws : List (BitVec 32 × Word)) (r : Vector Word 8) :
    Attempts (((List.range' i kws.length).flatMap roundLabels).map Label.name)
      (rounds (p := p) i kws r) fun _ => True := by
  induction kws generalizing i r with
  | nil => exact Attempts.pure trivial
  | cons kw rest ih =>
      obtain ⟨k, w⟩ := kw
      rw [List.length_cons, List.range'_succ, List.flatMap_cons, List.map_append]
      exact (attempts_round i k w r).bind fun r' _ => ih (i + 1) r'

/-- Whether or not a block is finished, its names are distinct. -/
theorem contained_compress (hash : Vector Word 8) (block : Vector Byte 64) :
    Contained (compress (p := p) hash block) := by
  refine Attempts.contained (N := blockLabels.map Label.name) (Q := fun _ => True) ?_
    (Naming.distinct_of_labels nodup_blockLabels)
  rw [blockLabels, List.map_append, List.map_append, List.map_map]
  have hschedule : Attempts (((List.range' 16 48).flatMap wordLabels).map Label.name)
      (schedule (p := p) block) fun ws => ws.length = 64 := by
    have hextend := (attempts_extend (p := p) 48 16 (wordsOf block)).bind (M := [])
      (f := fun later => pure ((wordsOf block).toList ++ later)) (R := fun ws => ws.length = 64)
      fun later hlater => Attempts.pure (by rw [List.length_append, Vector.length_toList, hlater])
    rw [List.append_nil] at hextend
    exact hextend
  refine hschedule.bind fun ws hws => ?_
  -- as many words as constants, so that no round is left out
  have hlength : (roundConstants.zip ws).length = 64 := by
    rw [List.length_zip, hws]
    rfl
  have hrounds := attempts_rounds (p := p) 0 (roundConstants.zip ws) hash
  rw [hlength] at hrounds
  refine hrounds.bind fun r _ => ?_
  exact Attempts.tabulate fun i : Fin 8 => (Bits.contained_addMany _).within

end Compression

/-! ## What a digest gives its namespace -/

/-- Between two moments a digest has given names with the numbers that it has
    taken, and nothing else was named. -/
def Gave (c c' : Digest × System p) : Prop :=
  ∃ labels, Digest.Numbered c.1.ops c'.1.ops labels ∧
    c'.2.naming = c.2.naming.claimAll (labels.map Label.name)

namespace Gave

variable {c c' c'' : Digest × System p}

theorem refl (c : Digest × System p) : Gave c c := ⟨[], .nil (Nat.le_refl _), rfl⟩

/-- Calls that follow each other give names in adjacent ranges. -/
theorem trans (h : Gave c c') (h' : Gave c' c'') : Gave c c'' := by
  obtain ⟨labels, hnum, hnaming⟩ := h
  obtain ⟨labels', hnum', hnaming'⟩ := h'
  refine ⟨labels ++ labels', hnum.append hnum', ?_⟩
  rw [hnaming', hnaming, List.map_append, Naming.claimAll_append]

/-- The first few names of a call, whose numbers have all been taken. -/
theorem of_attempt {j : Nat} {labels : List Label} {given : List String}
    (h : Digest.Numbered c.1.ops j labels) (hops : j ≤ c'.1.ops)
    (hgiven : given <+: labels.map Label.name)
    (hnaming : c'.2.naming = c.2.naming.claimAll given) : Gave c c' := by
  have htake : given = (labels.take given.length).map Label.name := by
    rw [List.map_take]
    exact List.prefix_iff_eq_take.mp hgiven
  have hnum := (h.of_sublist (List.take_sublist given.length labels)).append (.nil hops)
  rw [List.append_nil] at hnum
  exact ⟨_, hnum, by rw [hnaming, ← htake]⟩

end Gave

/-- Whatever comes of a compiling run from `c`, what it leaves has `E`. -/
def Hashing.Leaves {α : Type} (c : Digest × System p) (body : Hashing p α)
    (E : Digest × System p → Prop) : Prop :=
  Leads .compiling c body (fun _ => E) fun _ => E

theorem Hashing.Leaves.mono {α : Type} {c : Digest × System p} {body : Hashing p α}
    {E E' : Digest × System p → Prop} (h : Leaves c body E) (hE : ∀ c', E c' → E' c') :
    Leaves c body E' :=
  Leads.mono h (fun _ => hE) fun _ => hE

/-- The digest has given names with the numbers that it has taken. -/
def Hashing.Spends {α : Type} (c : Digest × System p) (body : Hashing p α) : Prop :=
  Leaves c body (Gave c)

/-- What follows gives names of its own. -/
theorem Gave.bind {α β : Type} {c₀ c : Digest × System p} {x : Hashing p α} {f : α → Hashing p β}
    (hx : Leaves c x (Gave c₀)) (hf : ∀ a d s, Hashing.Spends (d, s) (f a)) :
    Leaves c (x >>= f) (Gave c₀) := by
  refine Leads.bind hx ?_
  rintro a ⟨d, s⟩ hgave
  exact (hf a d s).mono fun _ h => hgave.trans h

/-- A circuit that is not in a namespace: the digest is left alone. -/
theorem leaves_lift {α : Type} {d : Digest} {s : System p} {body : Build p SynthesisError α}
    {N : List String} (h : Attempts N body fun _ => True) :
    Leaves (d, s) (Hashing.lift body) fun c =>
      c.1 = d ∧ ∃ given, given <+: N ∧ c.2.naming = s.naming.claimAll given := by
  refine Leads.lift (fun a s' hrun => ⟨rfl, ?_⟩) fun e s' hrun => ⟨rfl, ?_⟩
  · rcases h s with ⟨a', s'', hrun', hnaming, -⟩ | ⟨e', s'', given, hrun', -⟩
    · cases hrun.symm.trans hrun'
      exact ⟨N, List.prefix_rfl, hnaming⟩
    · exact nomatch hrun.symm.trans hrun'
  · rcases h s with ⟨a', s'', hrun', -⟩ | ⟨e', s'', given, hrun', hgiven, hnaming⟩
    · exact nomatch hrun.symm.trans hrun'
    · cases hrun.symm.trans hrun'
      exact ⟨given, hgiven, hnaming⟩

/-- One name was given, whatever else a digest has done with its numbers. -/
structure Claims (c : Digest × System p) (name : String) (c' : Digest × System p) : Prop where
  ops : c.1.ops ≤ c'.1.ops
  naming : c'.2.naming = c.2.naming.claim name

/-- A circuit in a namespace gives one name. -/
theorem claims_within_lift {α : Type} {d : Digest} {s : System p}
    {body : Build p SynthesisError α} (h : Contained body) (name : String) :
    Leaves (d, s) (Hashing.within name (Hashing.lift body)) (Claims (d, s) name) := by
  obtain ⟨names, hdistinct, hnaming⟩ := h (s.enter name)
  have hleave : (stateOf (body .compiling (s.enter name))).naming.leave = s.naming.claim name := by
    rw [hnaming]
    exact Naming.leave_claimAll_enter hdistinct name s.naming
  refine Leads.within
    (.lift (fun a s' hrun => ⟨Nat.le_refl _, ?_⟩) fun e s' hrun => ⟨Nat.le_refl _, ?_⟩)
  · have hrun : body .compiling (s.enter name) = .ok a s' := hrun
    rw [hrun] at hleave
    exact hleave
  · have hrun : body .compiling (s.enter name) = .error e s' := hrun
    rw [hrun] at hleave
    exact hleave

/-- So does a digest that is used in a namespace. -/
theorem claims_within_spends {α : Type} {d : Digest} {s : System p} {body : Hashing p α}
    (h : ∀ s, Spends (d, s) body) (name : String) :
    Leaves (d, s) (Hashing.within name body) (Claims (d, s) name) := by
  have hclaims : ∀ c : Digest × System p, Gave (d, s.enter name) c →
      Claims (d, s) name (c.1, recording .compiling (·.leave) c.2) := by
    rintro c ⟨labels, hnum, hnaming⟩
    refine ⟨hnum.le, ?_⟩
    show c.2.naming.leave = s.naming.claim name
    rw [hnaming]
    exact Naming.leave_claimAll_enter (Naming.distinct_of_labels hnum.nodup) name s.naming
  exact Leads.within ((h (s.enter name)).mono hclaims)

/-! ## The operations -/

namespace Digest

variable {d : Digest} {s : System p}

/-- A name that ends in an operation number. -/
theorem numbered_counted {stem : String} (op : Nat) (h : Naming.Stem stem) (hstem : stem ∈ stems) :
    Numbered op (op + 1) [Label.counted stem h op] := by
  refine .of_index (Nat.lt_succ_self _) (List.nodup_singleton _) ?_ ?_
  · exact List.forall_mem_singleton.mpr hstem
  · exact List.forall_mem_singleton.mpr rfl

theorem spends_ensureOpen : Spends (d, s) (ensureOpen : Hashing p Unit) := by
  rw [ensureOpen]
  refine .after (a := d) (b := (d, s)) rfl ?_
  split
  · exact .throw (.refl _)
  · exact .pure (.refl _)

variable [Modulus p]

/-- The number of a block is spent before the block is hashed. -/
theorem spends_absorbFull : Spends (d, s) (absorbFull : Hashing p Unit) := by
  rw [absorbFull]
  refine .after (a := d) (b := (d, s)) rfl ?_
  split
  · next hfull =>
      let emptied : Digest := { d.numbered with pending := #[] }
      -- the name of the block is given, whether or not it can be compressed
      have hblock : ∀ c : Digest × System p, Claims (emptied, s) s!"block {d.ops}" c →
          Gave (d, s) c := fun c hclaims =>
        .of_attempt (numbered_counted d.ops (by decide) (by decide)) hclaims.ops List.prefix_rfl
          hclaims.naming
      refine .after nextOp_eq (.after (b := (emptied, s)) rfl ?_)
      exact Gave.bind ((claims_within_lift (contained_compress _ _) _).mono hblock)
        fun hash d' s' => Leads.change (.refl _)
  · exact .pure (.refl _)

/-- By induction on the bytes. -/
theorem spends_absorb (bytes : List Byte) : Spends (d, s) (absorb bytes : Hashing p Unit) := by
  induction bytes generalizing d s with
  | nil => exact .pure (.refl _)
  | cons b rest ih =>
      rw [absorb]
      refine .after (b := (d.push b, s)) rfl ?_
      exact Gave.bind (spends_absorbFull (d := d.push b)) fun _ _ _ => ih

theorem spends_write (bytes : List Byte) : Spends (d, s) (write bytes : Hashing p Nat) := by
  rw [write]
  refine Gave.bind spends_ensureOpen fun _ d' s' => ?_
  refine .after (b := (d'.expecting bytes.length, s')) rfl ?_
  exact Gave.bind (spends_absorb (d := d'.expecting bytes.length) bytes)
    fun _ _ _ => Leads.pure (.refl _)

theorem attempts_bytesOf (op : Nat) (xs : List (Num p)) :
    Attempts ((byteLabels op xs.length).map Label.name) (bytesOf op xs) fun _ => True := by
  rw [map_name_byteLabels]
  exact Attempts.listMapM xs.zipIdx fun x => (Bits.contained_fromNum x.1).within

/-- The number of a write is spent even if a byte is refused. -/
theorem spends_writeNums (xs : List (Num p)) : Spends (d, s) (writeNums xs) := by
  rw [writeNums]
  refine Gave.bind spends_ensureOpen fun _ d s => ?_
  refine .after nextOp_eq ?_
  have hgave : ∀ c : Digest × System p, (c.1 = d.numbered ∧ ∃ given,
      given <+: (byteLabels d.ops xs.length).map Label.name ∧
        c.2.naming = s.naming.claimAll given) → Gave (d, s) c := by
    rintro ⟨_, s'⟩ ⟨rfl, given, hgiven, hnaming⟩
    exact .of_attempt (numbered_byteLabels d.ops xs.length) (Nat.le_refl _) hgiven hnaming
  exact Gave.bind ((leaves_lift (attempts_bytesOf d.ops xs)).mono hgave)
    fun bytes _ _ => spends_write bytes

/-- The names of a sum, which has an operation number for them together. -/
def sumLabels (op : Nat) : List Label :=
  [.counted "padding " (by decide) op, .counted "length " (by decide) op,
    .counted "length bytes " (by decide) op]

/-- The names of a sum carry one number. -/
theorem numbered_sumLabels (op : Nat) : Numbered op (op + 1) (sumLabels op) := by
  refine .of_index (Nat.lt_succ_self _) (by simp [sumLabels, Label.counted]) ?_ ?_
  · simp [sumLabels, stems, Label.counted, Label.stem]
  · simp [sumLabels, Label.counted, Label.index?]

/-- The names that a sum has given when it is in a certain place. -/
structure Summing (d : Digest) (s : System p) (given : List String) (c : Digest × System p) :
    Prop where
  ops : d.ops + 1 ≤ c.1.ops
  naming : c.2.naming = s.naming.claimAll given

omit [Modulus p] in
/-- A part of a sum, which gives one more name.  The sum may stop in it. -/
theorem Summing.bind {α β : Type} {x : Hashing p α} {f : α → Hashing p β} {given : List String}
    {name : String} {c : Digest × System p} (hc : Summing d s given c)
    (hx : Leaves c x (Claims c name))
    (hgiven : given ++ [name] <+: (sumLabels d.ops).map Label.name)
    (hf : ∀ a d' s', Summing d s (given ++ [name]) (d', s') →
      Leaves (d', s') (f a) (Gave (d, s))) : Leaves c (x >>= f) (Gave (d, s)) := by
  have hsumming : ∀ c', Claims c name c' → Summing d s (given ++ [name]) c' := by
    intro c' hclaims
    refine ⟨hc.ops.trans hclaims.ops, ?_⟩
    rw [hclaims.naming, hc.naming, Naming.claimAll_append]
    rfl
  refine Leads.bind (Leads.mono hx (fun _ _ h => h) fun _ c' h => ?_) ?_
  · have hsum := hsumming c' h
    exact .of_attempt (numbered_sumLabels d.ops) hsum.ops hgiven hsum.naming
  · rintro a ⟨d', s'⟩ h
    exact hf a d' s' (hsumming _ h)

/-- A sum that is refused has given some of its names. -/
theorem spends_sumBytes (ignore : LinNum p) : Spends (d, s) (sumBytes ignore) := by
  rw [sumBytes]
  refine Gave.bind spends_ensureOpen fun _ d s => ?_
  refine .after nextOp_eq (.after (b := (d.numbered, s)) rfl ?_)
  have hstart : Summing d s [] (d.numbered, s) := ⟨Nat.le_refl _, rfl⟩
  refine hstart.bind (claims_within_spends (fun _ => spends_write _) _) ⟨_, rfl⟩ ?_
  intro _ d₁ s₁ h₁
  refine h₁.bind (claims_within_lift (LinNum.contained_toBits _ 64) _) ⟨_, rfl⟩ ?_
  intro bits d₂ s₂ h₂
  refine h₂.bind (claims_within_spends (fun _ => spends_write _) _) ⟨[], rfl⟩ ?_
  intro _ d₃ s₃ h₃
  -- all three names are given, and what follows gives none
  have hgave : Gave (d, s) (d₃, s₃) :=
    .of_attempt (numbered_sumLabels d.ops) h₃.ops ⟨[], rfl⟩ h₃.naming
  refine .after (b := (d₃, s₃)) rfl ?_
  by_cases hsize : d₃.pending.size = 0
  · rw [if_neg (not_not.mpr hsize)]
    exact .after (b := ({ d₃ with stage := .finalized }, s₃)) rfl (.after rfl (.pure hgave))
  · rw [if_pos hsize]
    exact .bind (Q := fun _ _ => False) (.throw hgave) fun _ _ => False.elim

theorem spends_sum (ignore : LinNum p) : Spends (d, s) (sum ignore) := by
  rw [sum]
  refine Gave.bind (spends_sumBytes ignore) fun bytes d s => ?_
  refine .after nextOp_eq ?_
  have hgave : ∀ c, Claims (d.numbered, s) s!"pack {d.ops}" c → Gave (d, s) c := fun c hclaims =>
    .of_attempt (numbered_counted d.ops (by decide) (by decide)) hclaims.ops List.prefix_rfl
      hclaims.naming
  exact (claims_within_lift (Num.tidy_ofBits _).contained _).mono hgave

end Digest

/-! ## Histories -/

variable [Modulus p]

/-- Every event spends numbers that were not spent before. -/
theorem Event.spends_perform (event : Event p) (d : Digest) (s : System p) :
    Spends (d, s) event.perform := by
  cases event with
  | reset => exact .after (b := (d.reset, s)) rfl (.pure (.refl (d, s)))
  | call call =>
      refine Gave.bind ?_ fun _ _ _ => Leads.pure (.refl _)
      cases call with
      | write bytes => exact Gave.bind (Digest.spends_write _) fun _ _ _ => Leads.pure (.refl _)
      | writeNums xs =>
          exact Gave.bind (Digest.spends_writeNums _) fun _ _ _ => Leads.pure (.refl _)
      | sumBytes ignore =>
          exact Gave.bind (Digest.spends_sumBytes _) fun _ _ _ => Leads.pure (.refl _)
      | sum ignore => exact Gave.bind (Digest.spends_sum _) fun _ _ _ => Leads.pure (.refl _)

omit [Modulus p] in
theorem Hashing.Spends.gave {α : Type} {c : Digest × System p} {body : Hashing p α}
    (h : Spends c body) : Gave c (stateOf (body .compiling c)) := by
  cases hrun : body .compiling c with
  | ok a c' => exact h.ok a c' hrun
  | error e c' => exact h.error e c' hrun

/-- A history without namespaces of the caller's. -/
theorem gave_history (events : List (Event p)) (c : Digest × System p) :
    ∀ moment ∈ history .compiling (events.map ([], ·)) c, Gave c (stateOf moment) := by
  induction events generalizing c with
  | nil => exact fun moment hmem => absurd hmem List.not_mem_nil
  | cons event rest ih =>
      have hfirst : Gave c (stateOf (event.perform .compiling c)) :=
        (event.spends_perform c.1 c.2).gave
      refine List.forall_mem_cons.mpr ⟨hfirst, fun moment hmem => ?_⟩
      exact hfirst.trans (ih _ moment hmem)

/-- The same namespaces without names and without a fault. -/
def cleared (s : System p) : System p :=
  { s with naming := ⟨⟨s.naming.inner.path, []⟩, s.naming.outer, none⟩ }

omit [Modulus p] in
/-- Names of a digest that are new are no fault. -/
theorem Gave.fault_eq {c c' : Digest × System p} (h : Gave c c')
    (hfree : ∀ l : Label, l.stem ∈ Digest.stems → l.name ∉ c.2.naming.inner.names) :
    c'.2.naming.fault = c.2.naming.fault := by
  obtain ⟨labels, hnum, hnaming⟩ := h
  rw [hnaming, Naming.claimAll_of_distinct (Naming.distinct_of_labels hnum.nodup)]
  intro name hname
  obtain ⟨l, hl, rfl⟩ := List.mem_map.mp hname
  exact hfree l (hnum.stem l hl)

/-- A digest never claims a path twice.  Take any sequence of calls and resets
    of a digest, made one after another in one namespace, whatever their
    arguments and whether they fail or not.  At each point the system is what a
    sequence of acts has made of it, which has opened and closed its namespaces
    in pairs; all paths that the acts claim are different, and no name in them
    has a separator; and the rows that were added have different paths.  If
    nothing but the constant had a name in the namespace before, and no fault
    was there, the shape is given. -/
theorem paths_distinct (d : Digest) (s : System p) (events : List (Event p)) :
    ∀ moment ∈ history .compiling (events.map ([], ·)) (d, s),
      let t := (stateOf moment).2
      (∃ acts, opened acts = some [] ∧ t = performAll acts s ∧ (claimed acts s).Nodup ∧
        ∀ act ∈ acts, ∀ name ∈ act.name?, '/' ∉ name.toList) ∧
      ((s.rowsSince t).map Row.path).Nodup ∧
      ((∀ name ∈ s.naming.inner.names, name = "ONE") → s.naming.fault = none →
        t.finish = .ok t.shape) := by
  intro moment hmoment t
  -- the same history in the same namespace, had nothing been named in it
  have hstable : System.Stable (p := p) (Renumbered 0) .compiling (Logged s (cleared s)) :=
    stable_logged Renumbered.refl (fun _ _ => Renumbered.eq_of_zero) rfl
  have hstart : Apart 0 0 (Logged s (cleared s) []) (d, s) (d, cleared s) :=
    ⟨Digest.displaced_refl _, .start _ _⟩
  obtain ⟨moment', hmoment', hmoments⟩ :=
    exists_mem_of_forall₂ (history_alongside hstable _ hstart) hmoment
  obtain ⟨acts, hopened, ht, ht'⟩ := hmoments.stateOf.system
  have hfault : (performAll acts (cleared s)).naming.fault = none := by
    rw [← ht']
    exact (gave_history events _ moment' hmoment').fault_eq fun _ _ => List.not_mem_nil
  obtain ⟨hnodup, hnames⟩ := nodup_claimed hopened hfault
  have hclaimed : claimed acts (cleared s) = claimed acts s := claimed_congr hopened rfl
  rw [hclaimed] at hnodup
  have ht : t = performAll acts s := ht
  refine ⟨⟨acts, hopened, ht, hnodup, hnames⟩, ?_, fun honly hnone => ?_⟩
  · obtain ⟨new, hrows, hpaths⟩ := rows_performAll acts s
    rw [ht, System.rowsSince_append hrows]
    exact hnodup.sublist hpaths
  · have hfree : ∀ l : Label, l.stem ∈ Digest.stems → l.name ∉ s.naming.inner.names := by
      intro l hl hmem
      refine Naming.not_mem_start (l := l) (fun hone => ?_) (List.mem_singleton.mpr (honly _ hmem))
      rw [hone] at hl
      exact absurd hl (by decide)
    have hfault' : t.naming.fault = none :=
      ((gave_history events _ moment hmoment).fault_eq hfree).trans hnone
    rw [System.finish, hfault']

/-- A byte is written twice with a reset in between, and the sum is taken
    twice, the second time in vain. -/
theorem paths_distinct_twice :
    let write : Event Moduli.bn256 := .call (.writeNums [⟨.aux 0, none⟩])
    let sum : Event Moduli.bn256 := .call (.sum (.const 0))
    ∀ moment ∈ history .compiling ([write, .reset, write, sum, sum].map ([], ·)) (.new, .start),
      (stateOf moment).2.finish = .ok (stateOf moment).2.shape := by
  intro write sum moment hmoment
  obtain ⟨-, -, hfinish⟩ := paths_distinct .new .start _ moment hmoment
  exact hfinish (fun name hname => List.mem_singleton.mp hname) rfl

end RankOne.Sha256
