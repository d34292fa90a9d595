import RankOne.Proofs.Primes
import RankOne.Proofs.Satisfaction

/-!
# Order — what the ordering assertions accept

    An ordering assertion splits both operands and their gap into `n` digits.
    Its rows can be solved exactly when all three are below `2 ^ n` as
    elements.  Below the capacity of the field that is the order of the
    operands.  At the capacity it is not: `2 ^ n` is then more than half of
    the modulus, and the gap of operands that are far enough apart the wrong
    way round wraps to an element below `2 ^ n` again.
-/

namespace RankOne.Num

open Build

variable {p : Nat} [Modulus p]

section Gap

variable (name : String) (k : Nat) {n : Nat} {s : System p} {a b : Variable} {z : Variable → Fp p}

/-- The width is accepted up to the capacity, whatever the operands. -/
theorem assertGap_ok_iff (hname : Naming.Distinct ["a range", "b range", name]) :
    (∃ s', assertGap name k ⟨a, none⟩ ⟨b, none⟩ n .compiling s = .ok () s') ↔
      n ≤ Fp.capacity p := by
  constructor
  · rintro ⟨s', hrun⟩
    exact gives_assertGap name k n _ _ .compiling s s' () hrun
  · intro hn
    obtain ⟨_, s', _, hrun, _⟩ := tidy_assertGap k hname ⟨a, none⟩ ⟨b, none⟩ hn s
    exact ⟨s', hrun⟩

theorem decides_assertGap (hp : p.Prime) (hn : n ≤ Fp.capacity p) (ha : s.Allocated a)
    (hb : s.Allocated b) (one : z .one = 1) :
    Decides s z (assertGap name k ⟨a, none⟩ ⟨b, none⟩ n)
      (assertGap name k ⟨a, some (z a)⟩ ⟨b, some (z b)⟩ n) (Fp.Gap n k (z a) (z b))
      (fun _ _ => True) fun _ _ => True where
  forces z' hz' := by
    rw [← hz' a ha, ← hz' b hb]
    exact (forces_assertGap name k n hp (hz'.one one) _ _).mono fun _ h => ⟨h, trivial⟩
  honest u hu hz := honest_assertGap name k n (hu.live hz ha) (hu.live hz hb) hn
  shape := follows_assertGap name k n (alike_unknown a _) (alike_unknown b _)
  self := follows_assertGap name k n (alike_refl _ _) (alike_refl _ _)

/-- The rows of an ordering assertion ask for a gap of `n` digits. -/
theorem solvableSince_assertGap (hp : p.Prime) (ha : s.Allocated a) (hb : s.Allocated b)
    (one : z .one = 1) {s' : System p}
    (hrun : assertGap name k ⟨a, none⟩ ⟨b, none⟩ n .compiling s = .ok () s') :
    s'.SolvableSince s z ↔ Fp.Gap n k (z a) (z b) :=
  (decides_assertGap name k hp (gives_assertGap name k n _ _ .compiling s s' () hrun) ha hb
    one).solvableSince_iff hrun one

end Gap

/-- Both assertions accept every width up to the capacity.  Where they do,
    their rows can be solved exactly when the operands are below `2 ^ n` and
    either in order or so far out of order that the gap wraps around to less
    than `2 ^ n`.  The latter happens at the capacity only. -/
theorem ordering_exact (hp : p.Prime) (n : Nat) {s : System p} {a b : Variable}
    (ha : s.Allocated a) (hb : s.Allocated b) {z : Variable → Fp p} (one : z .one = 1) :
    ((∃ s', assertLess ⟨a, none⟩ ⟨b, none⟩ n .compiling s = .ok () s') ↔ n ≤ Fp.capacity p) ∧
    ((∃ s', assertLessOrEqual ⟨a, none⟩ ⟨b, none⟩ n .compiling s = .ok () s') ↔
      n ≤ Fp.capacity p) ∧
    (∀ s', assertLess ⟨a, none⟩ ⟨b, none⟩ n .compiling s = .ok () s' →
      (s'.SolvableSince s z ↔ (z a).val < 2 ^ n ∧ (z b).val < 2 ^ n ∧
        ((z a).val < (z b).val ∨ p + (z b).val ≤ 2 ^ n + (z a).val)) ∧
      (n < Fp.capacity p → (s'.SolvableSince s z ↔
        (z a).val < 2 ^ n ∧ (z b).val < 2 ^ n ∧ (z a).val < (z b).val))) ∧
    ∀ s', assertLessOrEqual ⟨a, none⟩ ⟨b, none⟩ n .compiling s = .ok () s' →
      (s'.SolvableSince s z ↔ (z a).val < 2 ^ n ∧ (z b).val < 2 ^ n ∧
        ((z a).val ≤ (z b).val ∨ p + (z b).val < 2 ^ n + (z a).val)) ∧
      (n < Fp.capacity p → (s'.SolvableSince s z ↔
        (z a).val < 2 ^ n ∧ (z b).val < 2 ^ n ∧ (z a).val ≤ (z b).val)) := by
  simp only [assertLess_eq, assertLessOrEqual_eq]
  refine ⟨assertGap_ok_iff _ 1 (by decide), assertGap_ok_iff _ 0 (by decide), fun s' hrun => ?_,
    fun s' hrun => ?_⟩
  · rw [solvableSince_assertGap _ 1 hp ha hb one hrun]
    constructor
    · rw [Fp.gap_iff le_rfl]
      refine and_congr_right fun _ => and_congr_right fun _ => ?_
      omega
    · intro hn
      exact Fp.gap_iff_of_two_pow_le le_rfl (Fp.two_pow_le_of_le_capacity hn) _ _
  · rw [solvableSince_assertGap _ 0 hp ha hb one hrun]
    constructor
    · exact Fp.gap_iff zero_le_one _ _
    · intro hn
      exact Fp.gap_iff_of_two_pow_le zero_le_one (Fp.two_pow_le_of_le_capacity hn) _ _

theorem ordering_exact_threeFive : ∃ s' : System Moduli.bn256,
    assertLess ⟨.aux 0, none⟩ ⟨.aux 1, none⟩ 8 .compiling (.ofCount 2) = .ok () s' ∧
      s'.SolvableSince (.ofCount 2) (Variable.assign [3, 5]) := by
  obtain ⟨⟨_, hok⟩, _, hless, _⟩ := ordering_exact Moduli.bn256_prime 8
    (s := .ofCount 2) (a := .aux 0) (b := .aux 1) (by decide) (by decide)
    (z := Variable.assign [3, 5]) rfl
  obtain ⟨s', hrun⟩ := hok (Fp.le_capacity_of_two_pow_le (by decide))
  exact ⟨s', hrun, (hless s' hrun).1.mpr (by decide)⟩

/-- At the capacity of the BN256 scalar field the largest number of 253 digits
    passes for less than zero. -/
theorem ordering_wraps_at_capacity : ∃ s' s'' : System Moduli.bn256,
    assertLess ⟨.aux 0, none⟩ ⟨.aux 1, none⟩ 253 .compiling (.ofCount 2) = .ok () s' ∧
    assertLessOrEqual ⟨.aux 0, none⟩ ⟨.aux 1, none⟩ 253 .compiling (.ofCount 2) = .ok () s'' ∧
      s'.SolvableSince (.ofCount 2) (Variable.assign [2 ^ 253 - 1, 0]) ∧
      s''.SolvableSince (.ofCount 2) (Variable.assign [2 ^ 253 - 1, 0]) ∧
      (Variable.assign [2 ^ 253 - 1, 0] (.aux 1) : Fp Moduli.bn256).val
        < (Variable.assign [2 ^ 253 - 1, 0] (.aux 0) : Fp Moduli.bn256).val := by
  have hcap : 253 ≤ Fp.capacity Moduli.bn256 := Fp.le_capacity_of_two_pow_le (by decide)
  have h0 : (System.ofCount 2 : System Moduli.bn256).Allocated (.aux 0) := by decide
  have h1 : (System.ofCount 2 : System Moduli.bn256).Allocated (.aux 1) := by decide
  obtain ⟨s', hrun⟩ := (assertGap_ok_iff "b - a - 1" 1 (by decide)).mpr hcap
  obtain ⟨s'', hrun'⟩ := (assertGap_ok_iff "b - a" 0 (by decide)).mpr hcap
  refine ⟨s', s'', hrun, hrun', ?_, ?_, by decide⟩
  · exact (solvableSince_assertGap _ 1 Moduli.bn256_prime h0 h1 rfl hrun).mpr (by decide)
  · exact (solvableSince_assertGap _ 0 Moduli.bn256_prime h0 h1 rfl hrun').mpr (by decide)

end RankOne.Num
