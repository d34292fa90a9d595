import RankOne.Proofs.Lockstep
import RankOne.Proofs.Primes
import RankOne.Proofs.Requests
import RankOne.Proofs.Satisfaction

/-!
# Expansion — a combination in binary, in one way only

    The digits that a combination is split into are the only variables that a
    split adds.  Its rows leave no choice of the digits, so they leave no
    choice of anything: two assignments that satisfy them and agree on what
    was there before agree on all there is.

    `body.Allocates n Q` says of a run in any mode that it numbers `n` private
    variables from where it begins, and of one that stops that it stops for
    want of a value.  So a split that is refused as unsatisfiable was asked for
    more digits than the field has room for, and has not begun.
-/

namespace RankOne

open Build

variable {p : Nat}

/-! ## Runs that number their variables -/

/-- The second system has `n` private variables more, and no public input. -/
structure System.Counted (n : Nat) (s s' : System p) : Prop where
  numAux : s'.numAux = s.numAux + n
  numInputs : s'.numInputs = s.numInputs

namespace System.Counted

variable {n m : Nat} {s s₁ s' : System p}

theorem refl (s : System p) : s.Counted 0 s := ⟨rfl, rfl⟩

theorem trans (h : s.Counted n s₁) (h' : s₁.Counted m s') : s.Counted (n + m) s' where
  numAux := by rw [h'.numAux, h.numAux, Nat.add_assoc]
  numInputs := h'.numInputs.trans h.numInputs

/-- A change of what is recorded counts nothing. -/
theorem recording (change : System p → System p) (h : ∀ s : System p, s.Counted 0 (change s))
    (mode : Mode) (s : System p) : s.Counted 0 (Build.recording mode change s) := by
  rw [Build.recording]
  split
  · exact h s
  · exact refl s

theorem growAux (mode : Mode) (v : Option (Fp p)) (s : System p) :
    s.Counted 1 (s.growAux mode v) := by
  rcases growAux_cases mode v s with h | ⟨x, h⟩
  · rw [h]
    exact ⟨rfl, rfl⟩
  · rw [h]
    exact ⟨rfl, rfl⟩

/-- A variable of the later system was there before, or is one of the new
    ones. -/
theorem allocated_or_new (h : s.Counted n s') {v : Variable} (hv : s'.Allocated v) :
    s.Allocated v ∨ ∃ i < n, v = .aux (s.numAux + i) := by
  cases v with
  | input i =>
      refine .inl ?_
      show i ≤ s.numInputs
      rw [← h.numInputs]
      exact hv
  | aux j =>
      have hj : j < s.numAux + n := h.numAux ▸ hv
      rcases lt_or_ge j s.numAux with hold | hnew
      · exact .inl hold
      · exact .inr ⟨j - s.numAux, by omega, by rw [Nat.add_sub_cancel' hnew]⟩

end System.Counted

namespace Build

variable {α β : Type}

/-- A run in any mode gives a result and adds `n` private variables, of which
    `Q` is told the first number, or it stops for want of a value. -/
def Allocates (n : Nat) (body : Build p SynthesisError α) (Q : Nat → α → Prop) : Prop :=
  ∀ (mode : Mode) (s : System p),
    (∃ a s', body mode s = .ok a s' ∧ s.Counted n s' ∧ Q s.numAux a) ∨
      ∃ s', body mode s = .error .assignmentMissing s'

namespace Allocates

variable {n m : Nat} {x : Build p SynthesisError α} {Q : Nat → α → Prop}

theorem of_ok (h : Allocates n x Q) {mode : Mode} {s s' : System p} {a : α}
    (hrun : x mode s = .ok a s') : s.Counted n s' ∧ Q s.numAux a := by
  rcases h mode s with ⟨b, t, hrun', hcount, hQ⟩ | ⟨t, hrun'⟩
  · obtain ⟨rfl, rfl⟩ := EStateM.Result.ok.inj (hrun'.symm.trans hrun)
    exact ⟨hcount, hQ⟩
  · exact nomatch hrun'.symm.trans hrun

theorem of_error (h : Allocates n x Q) {mode : Mode} {s s' : System p} {e : SynthesisError}
    (hrun : x mode s = .error e s') : e = .assignmentMissing := by
  rcases h mode s with ⟨b, t, hrun', -⟩ | ⟨t, hrun'⟩
  · exact nomatch hrun'.symm.trans hrun
  · exact (EStateM.Result.error.inj (hrun.symm.trans hrun')).1

theorem pure {a : α} (h : ∀ k, Q k a) : Allocates 0 (pure a : Build p SynthesisError α) Q :=
  fun _ s => .inl ⟨a, s, rfl, .refl s, h _⟩

/-- The second part goes on where the first one has come to. -/
theorem bind {f : α → Build p SynthesisError β} {R : Nat → β → Prop} (hx : Allocates n x Q)
    (hf : ∀ k a, Q k a → Allocates m (f a) fun k' b => k' = k + n → R k b) :
    Allocates (n + m) (x >>= f) R := by
  intro mode s
  rw [bind_apply]
  rcases hx mode s with ⟨a, s₁, hrun₁, hcount₁, hQ⟩ | ⟨s₁, hrun₁⟩
  · rw [hrun₁]
    rcases hf s.numAux a hQ mode s₁ with ⟨b, s₂, hrun₂, hcount₂, hR⟩ | herror
    · exact .inl ⟨b, s₂, hrun₂, hcount₁.trans hcount₂, hR hcount₁.numAux⟩
    · exact .inr herror
  · rw [hrun₁]
    exact .inr ⟨s₁, rfl⟩

theorem within {name : String} (hx : Allocates n x Q) : Allocates n (within name x) Q := by
  intro mode s
  have henter := System.Counted.recording (·.enter name) (fun _ => ⟨rfl, rfl⟩) mode s
  unfold Build.within
  rcases hx mode (recording mode (·.enter name) s) with ⟨a, s', hrun, hcount, hQ⟩ | ⟨s', hrun⟩
  · rw [hrun]
    rw [henter.numAux] at hQ
    refine .inl ⟨a, _, rfl, ?_, hQ⟩
    have hleave := System.Counted.recording (·.leave) (fun _ => ⟨rfl, rfl⟩) mode s'
    exact Nat.zero_add n ▸ (henter.trans hcount).trans hleave
  · rw [hrun]
    exact .inr ⟨_, rfl⟩

theorem enforce [Modulus p] (name : String) (a b c : LinComb p) :
    Allocates 0 (enforce name a b c) fun _ _ => True :=
  fun mode s =>
    .inl ⟨(), _, rfl, .recording (·.addRow name a b c) (fun _ => ⟨rfl, rfl⟩) mode s, trivial⟩

theorem aux (name : String) (v : Option (Fp p)) :
    Allocates 1 (aux name v) fun k x => x.var = .aux k := by
  intro mode s
  by_cases hv : mode.solves = true ∧ v = none
  · obtain ⟨hsolves, rfl⟩ := hv
    refine .inr ⟨s, ?_⟩
    simp only [Build.aux, hsolves]
  · have hvalue : mode.solves = true → v ≠ none := fun hsolves hnone => hv ⟨hsolves, hnone⟩
    refine .inl ⟨_, _, aux_eq_ok.mpr ⟨hvalue, rfl, rfl⟩, ?_, rfl⟩
    exact (System.Counted.growAux mode v s).trans
      (.recording (·.claim name) (fun _ => ⟨rfl, rfl⟩) mode _)

private theorem tabulateTo {k : Nat} {body : Fin k → Build p SynthesisError α}
    {Q : Fin k → Nat → α → Prop} (h : ∀ i, Allocates 1 (body i) (Q i)) (n : Nat) (le : n ≤ k) :
    Allocates n (tabulateTo body n le) fun j v =>
      ∀ i (hi : i < n), Q ⟨i, Nat.lt_of_lt_of_le hi le⟩ (j + i) v[i] := by
  induction n with
  | zero => exact pure fun _ i hi => absurd hi (Nat.not_lt_zero i)
  | succ n ih =>
      refine (ih (by omega)).bind fun j v hv => ?_
      refine (h ⟨n, le⟩).bind (m := 0) fun j' a ha => pure ?_
      rintro _ - rfl
      exact forall_push (Q := fun i a => Q i (j + i) a) le hv ha

/-- A loop whose rounds add one variable each numbers them in order. -/
theorem tabulate {n : Nat} {body : Fin n → Build p SynthesisError α} {Q : Fin n → Nat → α → Prop}
    (h : ∀ i, Allocates 1 (body i) (Q i)) :
    Allocates n (tabulate body) fun j v => ∀ i (hi : i < n), Q ⟨i, hi⟩ (j + i) v[i] :=
  tabulateTo h n (Nat.le_refl n)

end Allocates

end Build

/-! ## Combinations over the variables of a system -/

namespace LinComb

/-- Every variable of the combination has been counted. -/
def Over (s : System p) (l : LinComb p) : Prop := ∀ v ∈ l.vars, s.Allocated v

instance (s : System p) (l : LinComb p) : Decidable (l.Over s) :=
  inferInstanceAs (Decidable (∀ v ∈ l.vars, s.Allocated v))

variable [Modulus p] {s u : System p} {z z' : Variable → Fp p} {l : LinComb p}

/-- Only the variables of a combination matter to its value. -/
theorem eval_congr (h : ∀ v ∈ l.vars, z v = z' v) : l.eval z = l.eval z' := by
  refine List.foldr_ext _ _ _ fun t ht sum => ?_
  rw [h t.var (mem_vars.mpr (List.mem_map_of_mem ht))]

/-- A combination over a system is worth the same under all assignments that
    keep the variables of the system. -/
theorem Over.eval_eq (h : l.Over s) (hz : s.Agrees z z') : l.eval z' = l.eval z :=
  eval_congr fun v hv => hz v (h v hv)

/-- Its value is known in a solving run beside the system. -/
theorem Over.live (h : l.Over s) (hu : s.Paired u) (hz : u.witness.Fits z) :
    LinNum.Live u.witness ⟨some (l.eval z), l⟩ (l.eval z) :=
  ⟨rfl, fun _ hz' => h.eval_eq (hu.agrees hz hz')⟩

end LinComb

/-! ## Digits and their variables -/

variable [Modulus p]

/-- The bits are private variables in order, from number `k` on, and where the
    value is known each has its digit. -/
def Bit.DigitsFrom (k : Nat) (value : Option (Fp p)) {n : Nat} (bits : Vector Bit n) : Prop :=
  ∀ i (hi : i < n), bits[i] = .pos ⟨.aux (k + i), value.map fun v => v.val.testBit i⟩

/-- Where the new variables are the digits of one number, no choice is left of
    any variable. -/
theorem Bit.DigitsFrom.agrees {n : Nat} {s s' : System p} {value : Option (Fp p)}
    {bits : Vector Bit n} (hbits : DigitsFrom s.numAux value bits) (hcount : s.Counted n s')
    {z z' z'' : Variable → Fp p} (hz' : s.Agrees z z') (hz'' : s.Agrees z z'') {v : Nat}
    (h' : Spells z' bits v) (h'' : Spells z'' bits v) : s'.Agrees z' z'' := by
  intro var hvar
  rcases hcount.allocated_or_new hvar with hold | ⟨i, hi, rfl⟩
  · rw [hz'' var hold, hz' var hold]
  · have hsame : bits[i].val z'' = bits[i].val z' := (h'' i hi).trans (h' i hi).symm
    rwa [hbits i hi, val_pos, val_pos] at hsame

theorem BitVar.allocates_alloc (v : Option Bool) :
    Allocates 1 (alloc (p := p) v) fun k x => x = ⟨.aux k, v⟩ := by
  refine (Allocates.aux _ _).bind (m := 0) fun k x hx => ?_
  refine (Allocates.enforce _ _ _ _).bind (m := 0) fun _ _ _ => Allocates.pure fun _ _ _ => ?_
  rw [hx]

namespace LinNum

/-- The digits are the only variables that a split adds, and nothing but a
    value can be missing. -/
theorem allocates_toBits (x : LinNum p) {n : Nat} (hn : n ≤ Fp.capacity p) :
    Allocates n (x.toBits n) fun k bits => Bit.DigitsFrom k x.value bits := by
  rw [toBits, if_neg (not_lt.mpr hn)]
  have hdigits : Allocates n (BitVar.allocDigits x.value n) fun k digits =>
      ∀ i (hi : i < n), digits[i] = ⟨.aux (k + i), x.value.map fun v => v.val.testBit i⟩ :=
    Allocates.tabulate fun i => (BitVar.allocates_alloc _).within
  refine hdigits.bind (m := 0) fun k digits h => ?_
  refine (Allocates.enforce _ _ _ _).bind (m := 0) fun _ _ _ => Allocates.pure fun _ _ _ => ?_
  intro i hi
  rw [Vector.getElem_map, h i hi]

/-- A split is unsatisfiable from the start exactly where it has more digits
    than the field has room for, and then it leaves the system as it was. -/
theorem toBits_eq_unsatisfiable_iff (x : LinNum p) (n : Nat) (mode : Mode) (s s' : System p) :
    x.toBits n mode s = .error .unsatisfiable s' ↔ Fp.capacity p < n ∧ s' = s := by
  by_cases hn : Fp.capacity p < n
  · have hrefused : x.toBits n mode s = .error .unsatisfiable s := by
      rw [toBits, if_pos hn]
      rfl
    rw [hrefused]
    constructor
    · intro h
      exact ⟨hn, (EStateM.Result.error.inj h).2.symm⟩
    · rintro ⟨-, rfl⟩
      rfl
  · refine iff_of_false (fun h => ?_) fun h => hn h.1
    have hmissing := (x.allocates_toBits (not_lt.mp hn)).of_error h
    cases hmissing

omit [Modulus p] in
/-- A combination and the same one with a value of its own. -/
theorem alike_with (x : LinNum p) (v : Option (Fp p)) : x.Alike .compiling ⟨v, x.comb⟩ :=
  alike_compiling rfl

/-- The rows of a split ask for a value of so many digits, and leave no choice
    of them. -/
theorem decides_toBits (hp : p.Prime) (x : LinNum p) {n : Nat} (hn : n ≤ Fp.capacity p)
    {s : System p} (hx : x.comb.Over s) {z : Variable → Fp p} (one : z .one = 1) :
    Decides s z (x.toBits n) (toBits ⟨some (x.comb.eval z), x.comb⟩ n)
      ((x.comb.eval z).val < 2 ^ n) (fun z' bits => Bit.Spells z' bits (x.comb.eval z).val)
      fun bits bits' => ∀ i (hi : i < n), bits[i].Alike .compiling bits'[i] where
  forces z' hz' := by
    rw [← hx.eval_eq hz']
    exact x.forces_toBits hp (hz'.one one) n
  honest u hu hz hfits :=
    (honest_toBits (hx.live hu hz) hn hfits).mono fun _ _ _ _ => trivial
  shape := follows_toBits (x.alike_with _) n
  self := (follows_toBits ⟨rfl, fun _ => rfl⟩ n).mono fun _ _ _ => trivial

/-- The variables of a solving run hold the digits of the value, also where the
    value has more of them than were asked for. -/
theorem spells_solved {x : LinNum p} {v : Fp p} {n : Nat} (hx : x.value = some v)
    (hn : n ≤ Fp.capacity p) {s u u' : System p} (hu : s.Paired u) {z : Variable → Fp p}
    (hz : u.witness.Fits z) {bits : Vector Bit n} (hrun : x.toBits n .solving u = .ok bits u') :
    Bit.Spells u'.witness.value bits v.val := by
  rw [toBits, if_neg (not_lt.mpr hn), hx] at hrun
  obtain ⟨digits, u₁, hdigits, hrest⟩ := bind_eq_ok.mp hrun
  obtain ⟨_, _, henforce, hpure⟩ := bind_eq_ok.mp hrest
  cases henforce
  cases hpure
  -- the digits themselves are honest; only the row that puts them together may not hold
  obtain ⟨_, _, digits', u₂, traced, _, hsolved, _, hle, _, _, _, halike, hdisplay⟩ :=
    (BitVar.honest_allocDigits v n).paired (BitVar.follows_allocDigits (fun _ => rfl) n)
      (BitVar.follows_allocDigits (fun _ => rfl) n) hu
  obtain ⟨rfl, rfl⟩ := EStateM.Result.ok.inj (hdigits.symm.trans hsolved)
  intro i hi
  have hdigit := hdisplay.spells (hu.fits_value hz hle) i hi
  rw [Vector.getElem_map] at hdigit ⊢
  rw [Bit.Is, Bit.val_pos] at hdigit ⊢
  rw [(halike i hi).var]
  exact hdigit

/-- A combination over a system is split into binary digits exactly, and in one
    way only.  A split is unsatisfiable from the start, with nothing added,
    exactly where it has more digits than the field has room for.  Otherwise it
    adds its digits and no other variable.  Its rows can be solved exactly where
    the value of the combination is below `2 ^ n`; then the digits are those of
    the value, and nothing else can be chosen.  A solving run that is given the
    value computes its low `n` digits, which satisfy the rows wherever any
    values do. -/
theorem toBits_exact (hp : p.Prime) (x : LinNum p) (n : Nat) :
    (∀ (mode : Mode) (s s' : System p),
      x.toBits n mode s = .error .unsatisfiable s' ↔ Fp.capacity p < n ∧ s' = s) ∧
    (n ≤ Fp.capacity p → ∀ s : System p, x.comb.Over s →
      ∃ (bits : Vector Bit n) (s' : System p), x.toBits n .compiling s = .ok bits s' ∧ s ≤ s' ∧
        s.Counted n s' ∧ Bit.DigitsFrom s.numAux x.value bits ∧
        ∀ z : Variable → Fp p, z .one = 1 →
          (s'.SolvableSince s z ↔ (x.comb.eval z).val < 2 ^ n) ∧
          (∀ z', s.Agrees z z' → s'.HoldsSince s z' →
            Bit.Spells z' bits (x.comb.eval z).val ∧
            ∀ z'', s.Agrees z z'' → s'.HoldsSince s z'' → s'.Agrees z' z'') ∧
          ∀ u, s.Paired u → u.witness.Fits z →
            ∃ (bits' : Vector Bit n) (u' : System p),
              toBits ⟨some (x.comb.eval z), x.comb⟩ n .solving u = .ok bits' u' ∧
              s'.Paired u' ∧ s.Agrees z u'.witness.value ∧
              Bit.DigitsFrom s.numAux (some (x.comb.eval z)) bits' ∧
              Bit.Spells u'.witness.value bits' (x.comb.eval z).val ∧
              (s'.SolvableSince s z → s'.HoldsSince s u'.witness.value)) := by
  refine ⟨x.toBits_eq_unsatisfiable_iff n, fun hn s hx => ?_⟩
  obtain ⟨bits, s', _, hrun, -⟩ := x.tidy_toBits hn s
  obtain ⟨hcount, hbits⟩ := (x.allocates_toBits hn).of_ok hrun
  have hle : s ≤ s' := (x.forces_toBits hp (z := fun _ => 1) rfl n .compiling s s' bits rfl hrun).1
  refine ⟨bits, s', hrun, hle, hcount, hbits, fun z one => ?_⟩
  have hdecides := x.decides_toBits hp hn hx one
  have hforced : ∀ z', s.Agrees z z' → s'.HoldsSince s z' →
      Bit.Spells z' bits (x.comb.eval z).val := fun z' => hdecides.forced hrun
  have hsolvable := hdecides.solvableSince_iff hrun one
  refine ⟨hsolvable, fun z' hz' hrows => ⟨hforced z' hz' hrows, fun z'' hz'' hrows' => ?_⟩,
    fun u hu hz => ?_⟩
  · exact hbits.agrees hcount hz' hz'' (hforced z' hz' hrows) (hforced z'' hz'' hrows')
  · obtain ⟨bits', u', hrun', hpaired, hvalues, hholds, -⟩ :=
      hdecides.solved hrun (answers_toBits rfl hn) hu hz
    have hdigits := (allocates_toBits _ hn).of_ok hrun'
    rw [hu.numAux] at hdigits
    refine ⟨bits', u', hrun', hpaired, hvalues, hdigits.2, ?_, fun h => ?_⟩
    · exact spells_solved rfl hn hu hz hrun'
    · exact hholds.mpr (hsolvable.mp h)

/-- Three times one number and twice another. -/
def threeAndTwo : LinNum Moduli.bn256 :=
  ⟨none, .single (.ofNat 3) (.aux 0) + .single (.ofNat 2) (.aux 1)⟩

/-- In four digits eleven fits and sixteen does not, and the field has no room
    for 254 digits. -/
theorem toBits_exact_elevenSixteen :
    threeAndTwo.toBits 254 .compiling (.ofCount 2) = .error .unsatisfiable (.ofCount 2) ∧
    ∃ (bits : Vector Bit 4) (s' : System Moduli.bn256),
      threeAndTwo.toBits 4 .compiling (.ofCount 2) = .ok bits s' ∧
        ¬ s'.SolvableSince (.ofCount 2) (Variable.assign [2, 5]) ∧
        ∃ (bits' : Vector Bit 4) (u' : System Moduli.bn256),
          toBits ⟨some (.ofNat 11), threeAndTwo.comb⟩ 4 .solving
            (System.valued (.ofCount 2) (Variable.assign [1, 4])) = .ok bits' u' ∧
          Bit.DigitsFrom 2 (some (.ofNat 11 : Fp Moduli.bn256)) bits' ∧
          s'.HoldsSince (.ofCount 2) u'.witness.value := by
  have hcap : 4 ≤ Fp.capacity Moduli.bn256 := Fp.le_capacity_of_two_pow_le (by decide)
  have hover : threeAndTwo.comb.Over (.ofCount 2) := by decide
  have heleven : threeAndTwo.comb.eval (Variable.assign [1, 4]) = .ofNat 11 := by decide
  obtain ⟨bits, s', hrun, -, -, -, hexact⟩ :=
    (toBits_exact Moduli.bn256_prime threeAndTwo 4).2 hcap (.ofCount 2) hover
  obtain ⟨hsolvable, -, hsolved⟩ := hexact (Variable.assign [1, 4]) rfl
  obtain ⟨bits', u', hrun', -, -, hdigits, -, hholds⟩ :=
    hsolved _ (System.paired_valued _ _) (System.fits_valued _ rfl)
  rw [heleven] at hsolvable hrun' hdigits
  refine ⟨?_, bits, s', hrun, ?_, bits', u', hrun', hdigits, ?_⟩
  · exact ((toBits_exact Moduli.bn256_prime threeAndTwo 254).1 _ _ _).mpr ⟨by decide, rfl⟩
  · exact (hexact _ rfl).1.not.mpr (by decide)
  · exact hholds (hsolvable.mpr (by decide))

end LinNum

end RankOne
