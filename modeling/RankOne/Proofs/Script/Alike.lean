import RankOne.Proofs.FloorDivision
import RankOne.Proofs.Script.Steps
import RankOne.Proofs.Sha256.Lockstep
import RankOne.Proofs.Sha256.Streaming

/-!
# Calls alike — one gadget in two runs

    Values of one kind are alike when they have the same structure: the same
    variables, the same combinations, the same constant or variable at every
    place of an integer, and digests that hold such bits.  Only numbers are
    compared in two ways, as the two runs ask for: a compiling run beside one
    that solves knows a value at most where the other does, and two compiling
    runs have the very same numbers.

    Either way every gadget takes arguments that are alike to results that are
    alike, for any values that allocations ask for.  A gadget of numbers only
    is the same circuit in two compiling runs.
-/

namespace RankOne.Script

open Build Sha256

variable {p : Nat} {N : Num p → Num p → Prop}

/-! ## Values -/

/-- The same structure, with numbers compared by `N`. -/
def Kind.Alike (N : Num p → Num p → Prop) : (k : Kind) → k.Val p → k.Val p → Prop
  | .unit, _, _ => True
  | .count, n, n' => n = n'
  | .num, x, y => N x y
  | .comb, a, b => a = b
  | .lin, a, b => a.comb = b.comb
  | .bit, a, b => a.Alike .compiling b
  | .bits _, a, b => a.Alike .compiling b
  | .digest, d, d' => d.Alike .compiling d'
  | .pair k l, a, b => k.Alike N a.1 b.1 ∧ l.Alike N a.2 b.2
  | .list k, as, bs => List.Forall₂ (k.Alike N) as bs
  | .array k _, as, bs => Each (k.Alike N) as bs

/-- Nothing but numbers and what has no values in it. -/
def Kind.plain : Kind → Bool
  | .unit | .count | .num | .comb => true
  | .lin | .bit | .bits _ | .digest => false
  | .pair k l => k.plain && l.plain
  | .list k | .array k _ => k.plain

theorem Kind.alike_refl (hN : ∀ x, N x x) (k : Kind) (a : k.Val p) : k.Alike N a a := by
  induction k with
  | unit => trivial
  | count | comb | lin => rfl
  | num => exact hN a
  | bit => exact Bit.alike_refl _ a
  | bits w => exact Bits.alike_refl _ a
  | digest => exact Digest.alike_refl _ a
  | pair k l ihk ihl => exact ⟨ihk a.1, ihl a.2⟩
  | list k ih => exact List.forall₂_same.mpr fun b _ => ih b
  | array k n ih => exact fun i hi => ih a[i]

/-- Plain values that are alike are the same when numbers are. -/
theorem Kind.eq_of_plain {k : Kind} (hk : k.plain = true) {a b : k.Val p} (h : k.Alike Eq a b) :
    a = b := by
  induction k with
  | unit => rfl
  | count | num | comb => exact h
  | lin | bit | bits | digest => exact nomatch hk
  | pair k l ihk ihl =>
      obtain ⟨hkk, hkl⟩ := Bool.and_eq_true_iff.mp hk
      exact Prod.ext (ihk hkk h.1) (ihl hkl h.2)
  | list k ih =>
      have heq : List.Forall₂ Eq a b := List.Forall₂.imp (fun _ _ => ih hk) h
      exact List.forall₂_eq_eq_eq ▸ heq
  | array k n ih => exact Vector.ext fun i hi => ih hk (h i hi)

/-! ## Arguments -/

/-- Registers hold values of one kind that are alike. -/
inductive Entry.Alike (N : Num p → Num p → Prop) : Entry p → Entry p → Prop where
  | mk {k : Kind} {a b : k.Val p} (h : k.Alike N a b) : Entry.Alike N ⟨k, a⟩ ⟨k, b⟩

/-- Every register is empty in both runs, or holds what is alike. -/
def Store.Alike (N : Num p → Num p → Prop) (σ τ : Store p) : Prop :=
  ∀ i, Option.Rel (Entry.Alike N) (σ i) (τ i)

theorem Store.Alike.keep {σ τ : Store p} (h : σ.Alike N τ) (i : Nat) {e f : Entry p}
    (hef : e.Alike N f) : (σ.keep i e).Alike N (τ.keep i f) := by
  intro j
  unfold Store.keep
  by_cases hj : j = i
  · rw [hj, Function.update_self, Function.update_self]
    exact .some hef
  · rw [Function.update_of_ne hj, Function.update_of_ne hj]
    exact h j

theorem Entry.Alike.as {e f : Entry p} (h : e.Alike N f) (k : Kind) :
    Option.Rel (k.Alike N) (e.as k) (f.as k) := by
  obtain ⟨hab⟩ := h
  rename_i l a b
  by_cases hl : l = k
  · subst hl
    simp only [Entry.as, dif_pos]
    exact .some hab
  · simp only [Entry.as, dif_neg hl]
    exact .none

theorem rel_bind {α β α' β' : Type} {R : α → β → Prop} {R' : α' → β' → Prop} {a : Option α}
    {b : Option β} {f : α → Option α'} {g : β → Option β'} (h : Option.Rel R a b)
    (hfg : ∀ a b, R a b → Option.Rel R' (f a) (g b)) : Option.Rel R' (a.bind f) (b.bind g) := by
  cases h with
  | some hab => exact hfg _ _ hab
  | none => exact .none

theorem none_or_some {α β : Type} {R : α → β → Prop} {a : Option α} {b : Option β}
    (h : Option.Rel R a b) :
    (a = none ∧ b = none) ∨ ∃ x y, a = some x ∧ b = some y ∧ R x y := by
  cases h with
  | some hab => exact Or.inr ⟨_, _, rfl, rfl, hab⟩
  | none => exact Or.inl ⟨rfl, rfl⟩

/-- Arguments are there in both runs or in neither. -/
theorem Arg.alike_read {σ τ : Store p} (h : σ.Alike N τ) {k : Kind} (t : Arg k) :
    Option.Rel (k.Alike N) (t.read σ) (t.read τ) := by
  induction t with
  | unit => exact .some trivial
  | reg k i => exact rel_bind (h i) fun _ _ he => he.as k
  | pair s t ihs iht =>
      exact rel_bind ihs fun _ _ hs => rel_bind iht fun _ _ ht => .some ⟨hs, ht⟩
  | nil k => exact .some .nil
  | cons s t ihs iht =>
      exact rel_bind ihs fun _ _ hs => rel_bind iht fun _ _ ht => .some (.cons hs ht)
  | item t i ih =>
      refine rel_bind ih fun xs ys hxs => ?_
      have hlength : xs.length = ys.length := List.Forall₂.length_eq hxs
      by_cases hi : i < ys.length
      · rw [List.getElem?_eq_getElem hi, List.getElem?_eq_getElem (hlength.trans_gt hi)]
        exact .some (List.Forall₂.get hxs _ hi)
      · rw [List.getElem?_eq_none (not_lt.mp hi),
          List.getElem?_eq_none (hlength.trans_le (not_lt.mp hi))]
        exact .none
  | array n t ih =>
      refine rel_bind ih fun xs ys hxs => ?_
      have hlength : xs.length = ys.length := List.Forall₂.length_eq hxs
      by_cases hn : ys.length = n
      · rw [dif_pos hn, dif_pos (hlength.trans hn)]
        exact .some (Each.of_forall₂ hxs)
      · rw [dif_neg hn, dif_neg fun heq => hn (hlength.symm.trans heq)]
        exact .none
  | list t ih => exact rel_bind ih fun _ _ ht => .some ht.forall₂

/-! ## Gadgets -/

section Gadgets

variable [Modulus p]

theorem Free.alike_apply (hN : ∀ x y, N x y → x.var = y.var) {k l : Kind} (f : Free p k l)
    {x y : k.Val p} (h : k.Alike N x y) : l.Alike N (f.apply x) (f.apply y) := by
  cases f with
  | copy => exact h
  | bit b => exact .const b
  | notBit => exact Bit.Alike.not h
  | constant v => exact Bits.alike_refl _ _
  | rotateRight k => exact Bits.Alike.rotateRight h k
  | shiftRight k => exact Bits.Alike.shiftRight h k
  | not => exact Bits.Alike.not h
  | ofBits => exact Bits.alike_ofBits h
  | bitsOf => exact h.bits
  | ofBytesBE => exact (Likeness.alike (p := p) .compiling).ofBytesBE h
  | toBytesBE => exact (Likeness.alike (p := p) .compiling).toBytesBE h
  | lc coeff => exact Bits.Alike.lc h coeff
  | const c => exact rfl
  | toLinNum => exact congrArg LinComb.ofVar (hN _ _ h)
  | digest => exact Digest.alike_refl _ _

/-- A compiling run of a gadget follows any other run of it, whatever values
    the two are supplied with. -/
theorem Gadget.follows_circuit (m : Mode) (given given' : Supply p) {k l : Kind}
    (g : Gadget p k l) {x y : k.Val p} (h : k.Alike (Num.Alike .compiling) x y) :
    Follows .compiling m (g.circuit given x) (g.circuit given' y)
      (l.Alike (Num.Alike .compiling)) := by
  have hnever : ∀ {P : Prop}, Mode.compiling.solves = true → P := (absurd · Bool.false_ne_true)
  cases g with
  | free f => exact .pure (f.alike_apply (fun _ _ hxy => hxy.var) h)
  | alloc leaf => exact (Num.follows_alloc hnever).mapError
  | allocInput leaf => exact (Num.follows_allocInput hnever).mapError
  | allocBit leaf =>
      exact (Follows.map ((BitVar.follows_alloc hnever).mono fun _ _ => .pos)).mapError
  | allocBits w leaf => exact (Bits.follows_alloc hnever).mapError
  | constant c => exact (Num.follows_constant c).mapError
  | add => exact (Num.follows_add h.1 h.2).mapError
  | mul => exact (Num.follows_mul h.1 h.2).mapError
  | isZero => exact (Num.follows_isZero h).mapError
  | select => exact (Num.follows_select h.1 h.2.1 h.2.2).mapError
  | assertEqual => exact Num.follows_assertEqual h.1 h.2
  | assertNonzero => exact (Num.follows_assertNonzero h).mapError
  | toBits n => exact (Num.follows_toBits h n).mapError
  | ofBits => exact (Num.follows_ofBits h).mapError
  | assertLess n => exact (Num.follows_assertGap _ 1 n h.1 h.2).mapError
  | assertLessOrEqual n => exact (Num.follows_assertGap _ 0 n h.1 h.2).mapError
  | rangeCheck n => exact (Num.follows_rangeCheck h n).mapError
  | assertEqualIf => exact (Num.follows_assertEqualIf h.1 h.2.1 h.2.2).mapError
  | assertDifferentIf => exact (Num.follows_assertDifferentIf h.1 h.2.1 h.2.2).mapError
  | assertLessIf n => exact (Num.follows_assertGapIf h.1 h.2.1 h.2.2).mapError
  | assertLessOrEqualIf n => exact (Num.follows_assertGapIf h.1 h.2.1 h.2.2).mapError
  | isLess cmp => exact (cmp.follows_isLess h.1 h.2).mapError
  | assertIsLess cmp => exact (cmp.follows_assertIsLess h.1 h.2).mapError
  | solve hint => exact hint.follows_solve h
  | bind => exact (Division.follows_bind h.1 h.2.1 h.2.2.1 h.2.2.2).mapError
  | floorDiv => exact Division.follows_floorDiv h.1 h.2
  | enforceEqual => exact (Bit.follows_enforceEqual h.1 h.2).mapError
  | fromNum w => exact (Bits.follows_fromNum h).mapError
  | fromNums w => exact (Bits.follows_fromNums h).mapError
  | toNum => exact (Bits.follows_toNum h).mapError
  | xor => exact (Bits.follows_xor h.1 h.2).mapError
  | and => exact (Bits.follows_and h.1 h.2).mapError
  | choose => exact (Bits.follows_choose h.1 h.2.1 h.2.2).mapError
  | majority => exact (Bits.follows_majority h.1 h.2.1 h.2.2).mapError
  | addMany => exact (Bits.follows_addMany h).mapError
  | sha256 => exact follows_sha256 (LinNum.alike_compiling h.1) h.2

/-- A gadget of plain arguments that allocates nothing of its own is the same
    circuit in two compiling runs. -/
theorem Gadget.lockstep_plain {given given' : Supply p} {k l : Kind} (g : Gadget p k l)
    (hk : k.plain = true) (hg : g.circuit given = g.circuit given') {x y : k.Val p}
    (h : k.Alike Eq x y) : Lockstep Eq (g.circuit given x) (g.circuit given' y) (l.Alike Eq) := by
  obtain rfl := Kind.eq_of_plain hk h
  rw [hg]
  refine (Lockstep.same _).mono ?_
  rintro a _ rfl
  exact l.alike_refl (fun _ => rfl) a

/-- Compiling runs of a gadget differ in values only, whatever values they are
    supplied with. -/
theorem Gadget.lockstep_circuit (given given' : Supply p) {k l : Kind} (g : Gadget p k l)
    {x y : k.Val p} (h : k.Alike Eq x y) :
    Lockstep Eq (g.circuit given x) (g.circuit given' y) (l.Alike Eq) := by
  cases g with
  | free f => exact .pure (f.alike_apply (fun _ _ => congrArg Num.var) h)
  | alloc leaf => exact (Num.lockstep_alloc _ _).mapError
  | allocInput leaf => exact (Num.lockstep_allocInput _ _).mapError
  | allocBit leaf =>
      exact (Lockstep.map ((BitVar.lockstep_alloc _ _).mono fun _ _ => .pos)).mapError
  | allocBits w leaf => exact (Bits.lockstep_alloc _ _).mapError
  | ofBits => exact (Num.lockstep_ofBits h).mapError
  | enforceEqual =>
      refine Lockstep.mapError ?_
      rw [Bit.enforceEqual_alike h.1 h.2]
      exact (Lockstep.same _).mono fun _ _ _ => trivial
  | toNum => exact (Bits.lockstep_toNum h).mapError
  | xor => exact (Bits.lockstep_xor h.1 h.2).mapError
  | and => exact (Bits.lockstep_and h.1 h.2).mapError
  | choose => exact (Bits.lockstep_choose h.1 h.2.1 h.2.2).mapError
  | majority => exact (Bits.lockstep_majority h.1 h.2.1 h.2.2).mapError
  | addMany => exact (Bits.lockstep_addMany h).mapError
  | sha256 =>
      obtain ⟨hignore, hdata⟩ := h
      obtain hdata := Kind.eq_of_plain (k := .list .num) rfl hdata
      rw [circuit, hdata]
      exact lockstep_sha256 (LinNum.alike_compiling hignore) _
  | _ => exact lockstep_plain _ rfl rfl h

/-- A call on a digest is made of what circuits on digests are compared by,
    whatever the sense. -/
theorem DigestCall.compare_circuit {C : RankOne.Comparison (p := p) (.alike .compiling)}
    (H : Hashing.Comparison C) {k l : Kind} (op : DigestCall p k l) {x y : k.Val p}
    (h : k.Alike C.num x y) : H.rel (op.circuit x) (op.circuit y) (l.Alike C.num) := by
  cases op with
  | write => exact Digest.compare_write H h
  | writeNums => exact Digest.compare_writeNums H h
  | sumBytes =>
      exact Digest.compare_sumBytes H (Digest.alike_lengthField (LinNum.alike_compiling h))
  | sum => exact Digest.compare_sum H (Digest.alike_lengthField (LinNum.alike_compiling h))
  | reset =>
      refine H.change fun d d' hd => ?_
      rw [Digest.reset, Digest.reset, hd.ops]
      exact Digest.like_startAt _

end Gadgets

end RankOne.Script
