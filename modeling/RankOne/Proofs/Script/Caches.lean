import RankOne.Field.Moduli
import RankOne.Proofs.Script.Steps
import RankOne.Proofs.Sha256.Caches

/-!
# Caches — cached values along a sequence of calls

    A register holds integers one by one, in lists, or inside of a digest.
    `k.Every B P` says of a value of kind `k` that its truth values have `B`
    and its integers `P`, wherever in it they are.

    The invariant asks that truth values are told and integers sound.  Every
    gadget takes values that have it to values that have it, so that it holds
    of all registers after any sequence of calls, in any mode and whatever
    values the allocations ask for, unless a shift takes bits from places that
    wrap around.  Such a shift does break it (`shift_leaves_cache_behind`).
-/

namespace RankOne.Script

open Build Sha256

variable {p : Nat} {m : Mode}

/-! ## Integers in values -/

/-- The truth values in a value have `B`, and its integers have `P`. -/
def Kind.Every (B : Bit → Prop) (P : {w : Nat} → Bits w → Prop) : (k : Kind) → k.Val p → Prop
  | .unit, _ | .count, _ | .num, _ | .comb, _ | .lin, _ => True
  | .bit, b => B b
  | .bits _, x => P x
  | .digest, d => (∀ x ∈ d.hash, P x) ∧ ∀ x ∈ d.pending, P x
  | .pair k l, a => k.Every B P a.1 ∧ l.Every B P a.2
  | .list k, as => ∀ a ∈ as, k.Every B P a
  | .array k _, as => ∀ a ∈ as, k.Every B P a

theorem Kind.Every.imp {B C : Bit → Prop} {P Q : {w : Nat} → Bits w → Prop}
    (hBC : ∀ b, B b → C b) (hPQ : ∀ {w : Nat} (x : Bits w), P x → Q x) {k : Kind} {a : k.Val p}
    (h : k.Every B P a) : k.Every C Q a := by
  induction k with
  | unit | count | num | comb | lin => trivial
  | bit => exact hBC _ h
  | bits w => exact hPQ _ h
  | digest => exact ⟨fun x hx => hPQ x (h.1 x hx), fun x hx => hPQ x (h.2 x hx)⟩
  | pair k l ihk ihl => exact ⟨ihk h.1, ihl h.2⟩
  | list k ih => exact fun b hb => ih (h b hb)
  | array k n ih => exact fun b hb => ih (h b hb)

/-- The invariant.  An integer without bits is left out, for allocating it asks
    for no value. -/
abbrev Kind.Sound (m : Mode) (k : Kind) (a : k.Val p) : Prop :=
  k.Every (Bit.Told m) (fun {w} x => 0 < w → x.Sound m) a

theorem Kind.sound_digest {d : Digest} : Kind.Sound (p := p) m .digest d ↔ d.Sound m :=
  ⟨fun h => ⟨fun x hx => h.1 x hx (by decide), fun x hx => h.2 x hx (by decide)⟩,
    fun h => ⟨fun x hx _ => h.hash x hx, fun x hx _ => h.pending x hx⟩⟩

/-- All registers that are filled have the invariant. -/
def Store.Sound (m : Mode) (σ : Store p) : Prop :=
  ∀ i e, σ i = some e → e.kind.Sound m e.val

theorem Store.Sound.keep {σ : Store p} (h : σ.Sound m) (i : Nat) {e : Entry p}
    (he : e.kind.Sound m e.val) : (σ.keep i e).Sound m := by
  intro j f hf
  unfold Store.keep at hf
  by_cases hj : j = i
  · rw [hj, Function.update_self] at hf
    cases hf
    exact he
  · rw [Function.update_of_ne hj] at hf
    exact h j f hf

theorem Entry.every_as {B : Bit → Prop} {P : {w : Nat} → Bits w → Prop} {e : Entry p}
    (h : e.kind.Every B P e.val) {k : Kind} {x : k.Val p} (hx : e.as k = some x) :
    k.Every B P x := by
  unfold Entry.as at hx
  split at hx
  · next hk =>
      obtain ⟨l, a⟩ := e
      obtain rfl : l = k := hk
      cases hx
      exact h
  · exact nomatch hx

/-- Arguments are put together from what registers hold. -/
theorem Arg.sound_read {σ : Store p} (h : σ.Sound m) {k : Kind} (t : Arg k) {x : k.Val p}
    (hx : t.read σ = some x) : k.Sound m x := by
  induction t with
  | unit => trivial
  | reg k i =>
      obtain ⟨e, he, hex⟩ := Option.bind_eq_some_iff.mp hx
      exact Entry.every_as (h i e he) hex
  | pair s t ihs iht =>
      obtain ⟨a, ha, hx⟩ := Option.bind_eq_some_iff.mp hx
      obtain ⟨b, hb, hx⟩ := Option.bind_eq_some_iff.mp hx
      cases hx
      exact ⟨ihs ha, iht hb⟩
  | nil k =>
      cases hx
      exact fun a ha => absurd ha List.not_mem_nil
  | cons s t ihs iht =>
      obtain ⟨a, ha, hx⟩ := Option.bind_eq_some_iff.mp hx
      obtain ⟨as, has, hx⟩ := Option.bind_eq_some_iff.mp hx
      cases hx
      exact List.forall_mem_cons.mpr ⟨ihs ha, iht has⟩
  | item t i ih =>
      obtain ⟨as, has, hx⟩ := Option.bind_eq_some_iff.mp hx
      exact ih has x (List.mem_of_getElem? hx)
  | array n t ih =>
      obtain ⟨as, has, hx⟩ := Option.bind_eq_some_iff.mp hx
      split at hx
      · cases hx
        intro a ha
        exact ih has a (by simpa using ha)
      · exact nomatch hx
  | list t ih =>
      obtain ⟨as, has, hx⟩ := Option.bind_eq_some_iff.mp hx
      cases hx
      intro a ha
      exact ih has a (Vector.mem_toList_iff.mp ha)

/-! ## Shifts that do not wrap around -/

/-- No place that the operation takes a bit from wraps around. -/
def Free.Unwrapped {k l : Kind} : Free p k l → Prop
  | @Free.shiftRight _ w k => w + k.toNat ≤ 2 ^ 64
  | _ => True

/-- No place that the step takes a bit from wraps around. -/
def Step.Unwrapped : Step p → Prop
  | .call _ (.free f) _ _ => f.Unwrapped
  | _ => True

/-! ## Gadgets -/

section Gadgets

variable [Modulus p]

theorem Free.sound_apply {k l : Kind} (f : Free p k l) (hf : f.Unwrapped) {x : k.Val p}
    (h : k.Sound m x) : l.Sound m (f.apply x) := by
  cases f with
  | copy => exact h
  | bit b => exact ⟨b, Bit.tells_const b⟩
  | notBit => exact Bit.Told.not h
  | constant v => exact fun _ => Bits.sound_constant v
  | rotateRight k => exact fun hw => (h hw).rotateRight k
  | shiftRight k => exact fun hw => (h hw).shiftRight hf
  | not => exact fun hw => (h hw).not
  | ofBits => exact fun _ => Bits.sound_ofBits fun i hi => h _ (Vector.getElem_mem hi)
  | bitsOf =>
      refine Vector.forall_mem_iff_forall_getElem.mpr fun i hi => ?_
      exact (h (Nat.zero_lt_of_lt hi)).told i hi
  | ofBytesBE =>
      exact fun _ => Word.sound_ofBytesBE fun i hi => h _ (Vector.getElem_mem hi) (by decide)
  | toBytesBE =>
      refine Vector.forall_mem_iff_forall_getElem.mpr fun j hj _ => ?_
      exact Word.sound_toBytesBE (h (by decide)) j hj
  | lc coeff | const c | toLinNum => trivial
  | digest => exact Kind.sound_digest.mpr (Digest.sound_startAt 0)

omit [Modulus p] in
/-- What a run gives has the invariant when it has it wherever there are bits. -/
theorem givesIn_of_pos {w : Nat} {ε : Type} {body : Build p ε (Bits w)}
    (h : 0 < w → GivesIn m body (Bits.Sound m)) : GivesIn m body fun x => 0 < w → x.Sound m :=
  fun s s' x hrun hw => h hw s s' x hrun

/-- Every gadget keeps the invariant. -/
theorem Gadget.sound_circuit (given : Supply p) {k l : Kind} (g : Gadget p k l)
    (hg : ∀ f, g = .free f → f.Unwrapped) {x : k.Val p} (h : k.Sound m x) :
    GivesIn m (g.circuit given x) (l.Sound m) := by
  cases g with
  | free f => exact GivesIn.pure (f.sound_apply (hg f rfl) h)
  | allocBit leaf => exact (GivesIn.map (BitVar.told_alloc _)).mapError
  | allocBits w leaf => exact (givesIn_of_pos fun hw => Bits.sound_alloc hw _).mapError
  | toBits n =>
      refine ((LinNum.told_toBits _ n).mono fun bits hbits => ?_).mapError
      exact Vector.forall_mem_iff_forall_getElem.mpr hbits
  | isLess cmp =>
      refine ((LinNum.told_toBits _ _).bind fun digits hdigits => GivesIn.pure ?_).mapError
      exact Bit.Told.not (hdigits cmp.bits (Nat.lt_succ_self _))
  | fromNum w => exact (givesIn_of_pos fun _ => Bits.sound_fromNum _).mapError
  | fromNums w => exact (givesIn_of_pos fun _ => Bits.sound_fromNums _).mapError
  | xor => exact (givesIn_of_pos fun hw => Bits.sound_xor (h.1 hw) (h.2 hw)).mapError
  | and => exact (givesIn_of_pos fun hw => Bits.sound_and (h.1 hw) (h.2 hw)).mapError
  | choose =>
      refine (givesIn_of_pos fun hw => ?_).mapError
      exact Bits.sound_choose (h.1 hw) (h.2.1 hw) (h.2.2 hw)
  | majority =>
      refine (givesIn_of_pos fun hw => ?_).mapError
      exact Bits.sound_majority (h.1 hw) (h.2.1 hw) (h.2.2 hw)
  | addMany => exact (givesIn_of_pos fun _ => Bits.sound_addMany _).mapError
  | solve hint => exact (GivesIn.any _).mono fun xs _ x _ => trivial
  -- what the others give is numbers, or nothing
  | _ => exact GivesIn.any _

/-- A call on a digest keeps the invariant of the digest, also where it fails. -/
theorem DigestCall.sound_circuit {k l : Kind} (op : DigestCall p k l) {x : k.Val p}
    (h : k.Sound m x) : Hashing.Sound m (op.circuit x) (l.Sound m) := by
  cases op with
  | write => exact Digest.sound_write _ fun b hb => h b hb (by decide)
  | writeNums => exact Digest.sound_writeNums _
  | sumBytes => exact (Digest.sound_sumBytes _).mono fun bytes hbytes b hb _ => hbytes b hb
  | sum => exact Digest.sound_sum _
  | reset => exact .change fun d _ => Digest.sound_startAt d.ops

/-! ## Sequences of calls -/

/-- A step keeps the invariant of the registers, whatever comes of it. -/
theorem Step.sound_run (given : Supply p) {c : Config p} (step : Step p) (hstep : step.Unwrapped)
    (h : c.store.Sound m) : (step.run m given c).2.store.Sound m := by
  cases step with
  | call path g args out =>
      cases hx : args.read c.store with
      | none =>
          simp only [run, hx]
          exact h
      | some x =>
          have hg : ∀ f, g = .free f → f.Unwrapped := by
            rintro f rfl
            exact hstep
          have hcall := (g.sound_circuit given hg (args.sound_read h hx)).inside path
          simp only [run, hx]
          cases hrun : Build.inside path (g.circuit given x) m c.system with
          | ok a s => exact h.keep out (hcall _ _ a hrun)
          | error e s => exact h
  | hash path op i args out =>
      cases hx : (Arg.pair (.reg .digest i) args).read c.store with
      | none =>
          simp only [run, hx]
          exact h
      | some dx =>
          obtain ⟨d, x⟩ := dx
          obtain ⟨hd, hargs⟩ := (Arg.pair (.reg .digest i) args).sound_read h hx
          have hcall := (op.sound_circuit hargs).inside path d c.system (Kind.sound_digest.mp hd)
          simp only [run, hx]
          cases hrun : Hashing.inside path (op.circuit x) m (d, c.system) with
          | ok a left =>
              obtain ⟨ha, hleft⟩ := hcall.ok a left hrun
              exact (h.keep i (e := ⟨.digest, left.1⟩) (Kind.sound_digest.mpr hleft)).keep out ha
          | error e left =>
              have hleft := hcall.error e left hrun
              exact h.keep i (e := ⟨.digest, left.1⟩) (Kind.sound_digest.mpr hleft)

theorem sound_trace (given : Supply p) {steps : List (Step p)}
    (hsteps : ∀ step ∈ steps, step.Unwrapped) {c : Config p} (h : c.store.Sound m) :
    ∀ r ∈ trace m given steps c, r.2.store.Sound m := by
  induction steps generalizing c with
  | nil => exact fun r hr => absurd hr List.not_mem_nil
  | cons step rest ih =>
      obtain ⟨hfirst, hrest⟩ := List.forall_mem_cons.mp hsteps
      have hstep := step.sound_run given hfirst h
      exact List.forall_mem_cons.mpr ⟨hstep, ih hrest hstep⟩

/-- After any sequence of calls none of whose shifts wraps around, whatever
    comes of them and whatever values the allocations ask for: the cache of
    every integer of 1 to 64 bits in a register is below `2 ^ w`, and a bit
    that is known is the digit of the cache at its place.  In a run that
    solves, all such integers have a cache, and all of their bits are known. -/
theorem caches_agree (mode : Mode) (given : Supply p) (steps : List (Step p))
    (hsteps : ∀ step ∈ steps, step.Unwrapped) :
    ∀ r ∈ trace mode given steps .start, ∀ i e, r.2.store i = some e →
      e.kind.Every (fun b => mode.solves = true → b.value ≠ none)
        (fun {w} x => 0 < w → w ≤ 64 → x.Coherent ∧ (mode.solves = true → x.Known)) e.val := by
  intro r hr i e he
  have hstart : Store.Sound mode (Config.start : Config p).store := fun _ _ h => nomatch h
  refine (sound_trace given hsteps hstart r hr i e he).imp ?_ ?_
  · rintro b ⟨v, hv⟩ hm
    exact hv.ne_none hm
  · intro w x hx hpos hw
    exact ⟨(hx hpos).coherent hw, (hx hpos).known hw⟩

end Gadgets

/-- Two integers of four bits are allocated, and their conjunction is taken and
    shifted by one. -/
def nibbles : List (Step Moduli.bn256) :=
  [.call ["x"] (.allocBits 4 0) .unit 0, .call ["y"] (.allocBits 4 1) .unit 1,
    .call ["x and y"] .and (.pair (.reg (.bits 4) 0) (.reg (.bits 4) 1)) 2,
    .call [] (.free (.shiftRight 1)) (.reg (.bits 4) 2) 3]

/-- The values that are asked for have five digits, of which four are kept.  A
    run that does not solve knows the conjunction but none of its bits; one
    that solves knows both. -/
theorem caches_agree_nibbles :
    let given : Supply Moduli.bn256 := ⟨fun _ => none, fun _ => none,
      fun _ i => some (.ofNat (23 - 4 * i))⟩
    ∀ mode ∈ [Mode.compiling, Mode.solving], ∃ r ∈ trace mode given nibbles .start, ∃ x : Bits 4,
      (r.2.store 3).bind (Entry.as (.bits 4)) = some x ∧ x.value = some 1 ∧
        (x.bits[0].value = if mode.solves then some true else none) ∧ x.Coherent ∧
        (mode.solves = true → x.Known) := by
  intro given mode hmode
  have hsteps : ∀ step ∈ nibbles, step.Unwrapped := by
    simp [nibbles, Step.Unwrapped, Free.Unwrapped]
  have hrun : ∀ mode ∈ [Mode.compiling, Mode.solving], ∃ r ∈ trace mode given nibbles .start,
      ((r.2.store 3).bind (Entry.as (.bits 4))).map (fun x => (x.value, x.bits[0].value))
        = some (some 1, if mode.solves then some true else none) := by
    decide +kernel
  obtain ⟨r, hr, hread⟩ := hrun mode hmode
  obtain ⟨x, hx, hvalues⟩ := Option.map_eq_some_iff.mp hread
  obtain ⟨e, he, hex⟩ := Option.bind_eq_some_iff.mp hx
  obtain ⟨hvalue, hbit⟩ := Prod.mk.inj hvalues
  have hagree : 0 < 4 → 4 ≤ 64 → x.Coherent ∧ (mode.solves = true → x.Known) :=
    Entry.every_as (caches_agree mode given nibbles hsteps r hr 3 e he) hex
  obtain ⟨hcoherent, hknown⟩ := hagree (by decide) (by decide)
  exact ⟨r, hr, x, hx, hvalue, hbit, hcoherent, hknown⟩

/-- Eight ones as a constant, shifted by the largest distance that there is. -/
def shiftedOnes : List (Step Moduli.bn256) :=
  [.call [] (.free (.constant (w := 8) 255)) .unit 0,
    .call [] (.free (.shiftRight 0xffffffffffffffff)) (.reg (.bits 8) 0) 1]

/-- The shift by `2 ^ 64 - 1` leaves a cache of zero beside bits that are ones
    from the second on. -/
theorem shift_leaves_cache_behind : ∃ r ∈ trace .solving ⟨fun _ => none, fun _ => none,
      fun _ _ => none⟩ shiftedOnes .start, ∃ x : Bits 8,
    (r.2.store 1).bind (Entry.as (.bits 8)) = some x ∧ x.value = some 0 ∧
      (∀ i (hi : i < 8), x.bits[i].value = some (decide (0 < i))) ∧ ¬ x.Coherent := by
  have hrun : ∃ r ∈ trace .solving ⟨fun _ => none, fun _ => none, fun _ _ => none⟩ shiftedOnes
      .start, ((r.2.store 1).bind (Entry.as (.bits 8))).map
        (fun x => (x.value, x.bits.toList.map Bit.value))
      = some (some 0, (List.range 8).map fun i => some (decide (0 < i))) := by
    decide +kernel
  obtain ⟨r, hr, hread⟩ := hrun
  obtain ⟨x, hx, hvalues⟩ := Option.map_eq_some_iff.mp hread
  obtain ⟨hvalue, hbits⟩ := Prod.mk.inj hvalues
  have hbit : ∀ i (hi : i < 8), x.bits[i].value = some (decide (0 < i)) := by
    intro i hi
    have hget := congrArg (·[i]?) hbits
    simpa [hi] using hget
  refine ⟨r, hr, x, hx, hvalue, hbit, fun h => ?_⟩
  -- bit one of zero would have to be set
  exact absurd ((h 0 hvalue).2 1 (by decide) true (hbit 1 (by decide))) (by decide)

end RankOne.Script
