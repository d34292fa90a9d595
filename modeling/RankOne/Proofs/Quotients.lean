import RankOne.Proofs.FloorDivision

/-!
# Quotients — floor division from its operands to its result

    A division looks at its operands twice.  The hint looks at their values,
    and refuses a divisor of more than 64 digits before anything is allocated.
    The rows look at the variables, and leave no quotient at all where the
    divisor has more than 64 digits or the quotient 160.  So a run that solves
    may end in one of three ways: it is refused, it satisfies the rows, or it
    gives the quotient although nothing satisfies them.
-/

namespace RankOne

open Build

variable {p : Nat} [Modulus p]

namespace Hint

/-! ## Runs of a hint -/

variable (h : Hint) {xs : List (Num p)} {vs : List (Fp p)}

/-- A hint that computes values allocates them. -/
theorem answers_solve {ws : List (Fp p)} (hvs : Known xs vs) (hws : h.outputs vs = .ok ws) :
    Answers (h.solve xs) fun ys => List.Forall₂ (fun w y => y.value = some w) ws ys := by
  rw [h.solve_eq xs (outputValues_of_outputs hvs hws)]
  have hmap : Answers ((ws.map some).zipIdx.mapM (h.allocate (p := p))) fun ys =>
      List.Forall₂ (fun x (y : Num p) => y.value = x.1) (ws.map some).zipIdx ys := by
    refine Answers.listMapM _ ?_
    rintro ⟨w, i⟩ hmem
    obtain ⟨v, _, rfl⟩ := List.mem_map.mp (List.fst_mem_of_mem_zipIdx hmem)
    exact (Answers.mapError (Num.answers_alloc v)).within
  refine hmap.mono fun ys hys => ?_
  rw [List.zipIdx_map, List.forall₂_map_left_iff] at hys
  exact forall₂_zipIdx.mp hys

/-- One that refuses its inputs stops the run. -/
theorem refuses_solve {e : HintError} (hvs : Known xs vs) (he : h.outputs vs = .error e) :
    Refuses (h.solve xs) (.hint e) := by
  rw [solve, outputValues_of_known hvs, he]
  exact Refuses.throw _

end Hint

namespace Division

/-- The hint refuses a divisor that is out of range, whatever the dividend. -/
theorem hint_outputs_of_le {u v : Fp p} (hv : 2 ^ 64 ≤ v.val) :
    hint.outputs [u, v] = .error (.divisorOutOfRange (toString v.val)) := by
  have hcompute : hint.compute [(u.val : Int), (v.val : Int)]
      = .error (.divisorOutOfRange (toString v.val)) := by
    have hsigns : ¬((u.val : Int) < 0 ∨ (v.val : Int) < 0) := by omega
    have hrange : 1 <<< divisorBits ≤ ((v.val : Int)).toNat := by
      rw [Int.toNat_natCast, Nat.one_shiftLeft]
      exact hv
    simp only [hint]
    rw [if_neg hsigns, if_pos hrange]
    rfl
  rw [Hint.outputs, List.map_cons, List.map_cons, List.map_nil, hcompute]
  rfl

/-- With a divisor in range and not zero, a quotient is in range where the
    dividend is below its multiple. -/
theorem divides_iff {n d : Nat} :
    Divides n d ↔ d < 2 ^ 64 ∧ (d = 0 ∨ n < 2 ^ 160 * d) := by
  rw [Divides]
  refine and_congr_right fun _ => ?_
  rcases Nat.eq_zero_or_pos d with rfl | hpos
  · exact iff_of_true (Or.inl rfl) (Or.inl rfl)
  · exact or_congr_right (Nat.div_lt_iff_lt_mul hpos)

section Runs

variable {x y : Num p} {u v : Fp p} (hx : x.value = some u) (hy : y.value = some v)

include hx hy

/-- A divisor in range is divided by, also where no quotient satisfies the
    rows. -/
theorem answers_floorDiv (hp : p.Prime) (hbig : 2 ^ 224 < p) (hv : v.val < 2 ^ 64) :
    Answers (floorDiv x y) fun q => q.value = some (Fp.ofNat (u.val / v.val)) := by
  have hvs : Hint.Known [x, y] [u, v] := .cons hx (.cons hy .nil)
  refine (hint.answers_solve hvs (hint_outputs hv)).within.bind fun outputs houts => ?_
  obtain ⟨q, rest, hq, hrest, rfl⟩ := List.forall₂_cons_left_iff.mp houts
  obtain ⟨r, rest', hr, hnil, rfl⟩ := List.forall₂_cons_left_iff.mp hrest
  obtain rfl := List.forall₂_nil_left_iff.mp hnil
  have hbind := answers_bind hp hbig ⟨u, hx⟩ ⟨v, hy⟩ ⟨_, hq⟩ ⟨_, hr⟩
  exact hbind.mapError.within.bind fun _ _ => Answers.pure hq

/-- A divisor out of range is refused before anything is allocated. -/
theorem refuses_floorDiv (hv : 2 ^ 64 ≤ v.val) :
    Refuses (floorDiv x y) (.hint (.divisorOutOfRange (toString v.val))) :=
  (hint.refuses_solve (.cons hx (.cons hy .nil)) (hint_outputs_of_le hv)).within.bind

end Runs

/-! ## Divisions in a circuit -/

/-- The gadget on two variables is decided by its rows. -/
theorem decides_floorDiv (hp : p.Prime) (hbig : 2 ^ 224 < p) {s : System p} {x y : Variable}
    (hx : s.Allocated x) (hy : s.Allocated y) {z : Variable → Fp p} (one : z .one = 1) :
    Decides s z (floorDiv ⟨x, none⟩ ⟨y, none⟩) (floorDiv ⟨x, some (z x)⟩ ⟨y, some (z y)⟩)
      (Divides (z x).val (z y).val) (fun _ _ => True) (Num.Alike .compiling) where
  forces z' hz' := by
    rw [← hz' x hx, ← hz' y hy]
    exact (forces_floorDiv hp hbig (hz'.one one) _ _).mono fun _ h => ⟨h, trivial⟩
  honest u hu hz := honest_floorDiv hp hbig (hu.live hz hx) (hu.live hz hy)
  shape := follows_floorDiv (Num.alike_unknown _ _) (Num.alike_unknown _ _)
  self := (follows_floorDiv (Num.alike_refl _ _) (Num.alike_refl _ _)).mono fun _ _ _ => trivial

/-- The rows of a division can be solved exactly where the divisor is zero, or
    has at most 64 digits and leaves a quotient of at most 160.  A solving run
    is refused, with nothing allocated, where the divisor has more digits.
    Otherwise it gives the quotient, and its values satisfy the rows wherever
    any do. -/
theorem floorDiv_exact (hp : p.Prime) (hbig : 2 ^ 224 < p) {s : System p} {x y : Variable}
    (hx : s.Allocated x) (hy : s.Allocated y) :
    ∃ q s', floorDiv ⟨x, none⟩ ⟨y, none⟩ .compiling s = .ok q s' ∧
      ∀ z : Variable → Fp p, z .one = 1 →
        (s'.SolvableSince s z ↔
          (z y).val = 0 ∨ (z y).val < 2 ^ 64 ∧ (z x).val < 2 ^ 160 * (z y).val) ∧
        ∀ u, s.Paired u → u.witness.Fits z →
          (2 ^ 64 ≤ (z y).val → floorDiv ⟨x, some (z x)⟩ ⟨y, some (z y)⟩ .solving u
            = .error (.hint (.divisorOutOfRange (toString (z y).val))) u) ∧
          ((z y).val < 2 ^ 64 → ∃ v u',
            floorDiv ⟨x, some (z x)⟩ ⟨y, some (z y)⟩ .solving u = .ok ⟨q.var, some v⟩ u' ∧
              v.val = (if (z y).val = 0 then 0 else (z x).val / (z y).val) ∧
              s'.Paired u' ∧ s.Agrees z u'.witness.value ∧
              (s'.HoldsSince s u'.witness.value ↔
                (z y).val = 0 ∨ (z x).val < 2 ^ 160 * (z y).val)) := by
  obtain ⟨q, s', _, hrun, _⟩ := tidy_floorDiv (x := ⟨x, none⟩) (y := ⟨y, none⟩) hbig rfl s
  refine ⟨q, s', hrun, fun z one => ?_⟩
  have hdecides := decides_floorDiv hp hbig hx hy one
  refine ⟨?_, fun u hu hz => ⟨fun hlarge => refuses_floorDiv rfl rfl hlarge u, fun hsmall => ?_⟩⟩
  · rw [hdecides.solvableSince_iff hrun one, divides_iff]
    omega
  · obtain ⟨r, u', hrun', hpaired, hvalues, hholds, hqr, hr⟩ :=
      hdecides.solved hrun (answers_floorDiv rfl rfl hp hbig hsmall) hu hz
    obtain ⟨_, _⟩ := r
    obtain rfl := hqr.var
    obtain rfl := hr
    refine ⟨_, u', hrun', ?_, hpaired, hvalues, hholds.trans ?_⟩
    · have hquot : (Fp.ofNat ((z x).val / (z y).val) : Fp p).val = (z x).val / (z y).val :=
        Nat.mod_eq_of_lt ((Nat.div_le_self _ _).trans_lt (z x).isLt)
      rw [hquot]
      split
      · next hzero => rw [hzero, Nat.div_zero]
      · rfl
    · rw [divides_iff]
      exact and_iff_right hsmall

/-- Both bounds are met by one and missed by the next number: five times
    `2 ^ 160` is too much to be divided by five, and `2 ^ 64` is too much to
    divide by. -/
theorem floorDiv_exact_bounds : ∃ (q : Num Moduli.bn256) (s' : System Moduli.bn256),
    floorDiv ⟨.aux 0, none⟩ ⟨.aux 1, none⟩ .compiling (.ofCount 2) = .ok q s' ∧
      s'.SolvableSince (.ofCount 2) (Variable.assign [2 ^ 160 * 5 - 1, 5]) ∧
      ¬ s'.SolvableSince (.ofCount 2) (Variable.assign [2 ^ 160 * 5, 5]) ∧
      s'.SolvableSince (.ofCount 2) (Variable.assign [17, 2 ^ 64 - 1]) ∧
      ¬ s'.SolvableSince (.ofCount 2) (Variable.assign [17, 2 ^ 64]) := by
  obtain ⟨q, s', hrun, hvalues⟩ := floorDiv_exact Moduli.bn256_prime (by decide)
    (s := .ofCount 2) (x := .aux 0) (y := .aux 1) (by decide) (by decide)
  refine ⟨q, s', hrun, ?_, ?_, ?_, ?_⟩
  · exact (hvalues _ rfl).1.mpr (by decide)
  · exact (hvalues _ rfl).1.not.mpr (by decide)
  · exact (hvalues _ rfl).1.mpr (by decide)
  · exact (hvalues _ rfl).1.not.mpr (by decide)

end Division

end RankOne
