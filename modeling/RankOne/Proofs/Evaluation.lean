import RankOne.Proofs.Residue

/-!
# Evaluation — what a linear combination is worth

    Under an assignment a combination is the sum of its terms, however they
    are stored: merging a term into a list adds its value to the sum.  Each
    operation of `LinComb` has one equation here, and nothing later opens the
    lists.
-/

namespace RankOne.LinComb

variable {p : Nat} [Modulus p] (z : Variable → Fp p)

/-- The value of a list of terms. -/
def sumOf (ts : List (Term p)) : Fp p :=
  ts.foldr (fun t acc => t.coeff * z t.var + acc) 0

/-- A sum is its first term and the sum of the others. -/
theorem sumOf_cons (t : Term p) (ts : List (Term p)) :
    sumOf z (t :: ts) = t.coeff * z t.var + sumOf z ts := rfl

/-- To insert a term adds it, whether or not the variable was there before. -/
theorem sumOf_insert (t : Term p) (ts : List (Term p)) :
    sumOf z (insert t ts) = t.coeff * z t.var + sumOf z ts := by
  induction ts with
  | nil => rfl
  | cons u rest ih =>
      rw [insert]
      split
      · next h =>
          show (u.coeff + t.coeff) * z u.var + sumOf z rest = _
          rw [sumOf_cons, h]
          ring
      · split
        · rfl
        · rw [sumOf_cons, sumOf_cons, ih]
          ring

/-- So it does for a list of terms. -/
private theorem sumOf_foldr_insert (ts us : List (Term p)) :
    sumOf z (ts.foldr insert us) = sumOf z us + sumOf z ts := by
  induction ts with
  | nil => exact (add_zero _).symm
  | cons t rest ih =>
      rw [List.foldr_cons, sumOf_insert, ih, sumOf_cons]
      ring

/-- A change of all coefficients by one factor changes the sum by it. -/
private theorem sumOf_map_coeff (f : Fp p → Fp p) (c : Fp p) (hf : ∀ a, f a = a * c)
    (ts : List (Term p)) :
    sumOf z (ts.map fun t => ⟨t.var, f t.coeff⟩) = sumOf z ts * c := by
  induction ts with
  | nil => exact (zero_mul c).symm
  | cons t rest ih =>
      rw [List.map_cons, sumOf_cons, sumOf_cons, ih, hf]
      ring

@[simp] theorem eval_zero : (0 : LinComb p).eval z = 0 := rfl

/-- Combinations are merged term by term, and so are worth the sum. -/
@[simp] theorem eval_add (l m : LinComb p) : (l + m).eval z = l.eval z + m.eval z :=
  sumOf_foldr_insert z m.latestFirst l.latestFirst

@[simp] theorem eval_neg (l : LinComb p) : (-l).eval z = -l.eval z := by
  have h := sumOf_map_coeff z (fun a => -a) (-1) (fun a => by ring) l.latestFirst
  rw [mul_neg_one] at h
  exact h

@[simp] theorem eval_sub (l m : LinComb p) : (l - m).eval z = l.eval z - m.eval z := by
  show (l + -m).eval z = _
  rw [eval_add, eval_neg, sub_eq_add_neg]

/-- A combination that is scaled is worth a multiple. -/
@[simp] theorem eval_scale (c : Fp p) (l : LinComb p) : (l.scale c).eval z = l.eval z * c :=
  sumOf_map_coeff z (fun a => a * c) c (fun _ => rfl) l.latestFirst

@[simp] theorem eval_single (c : Fp p) (v : Variable) : (single c v).eval z = c * z v :=
  add_zero _

@[simp] theorem eval_ofVar (v : Variable) : (ofVar v : LinComb p).eval z = z v :=
  (eval_single z 1 v).trans (one_mul _)

/-- A constant is a multiple of the variable that is always one. -/
@[simp] theorem eval_const (c : Fp p) : (const c).eval z = c * z .one :=
  eval_single z c .one

@[simp] theorem eval_one : (1 : LinComb p).eval z = z .one :=
  (eval_const z 1).trans (one_mul _)

/-- A term that is added is worth its coefficient times its variable. -/
@[simp] theorem eval_addTerm (l : LinComb p) (c : Fp p) (v : Variable) :
    (l.addTerm c v).eval z = l.eval z + c * z v :=
  (sumOf_insert z ⟨v, c⟩ l.latestFirst).trans (add_comm _ _)

/-- A weighted sum with doubling coefficients is the sum of the items' values
    at their powers of two. -/
theorem eval_addDoubling {α : Type} (term : Fp p → α → LinComb p) (val : α → Fp p)
    (hterm : ∀ c x, (term c x).eval z = c * val x) (acc : LinComb p) (c : Fp p) (xs : List α) :
    (addDoubling term acc c xs).eval z
      = acc.eval z + c * xs.foldr (fun x sum => val x + 2 * sum) 0 := by
  induction xs generalizing acc c with
  | nil =>
      show acc.eval z = acc.eval z + c * 0
      ring
  | cons x rest ih =>
      rw [addDoubling, ih, eval_add, hterm, Fp.double_eq, List.foldr_cons]
      ring

omit z in
/-- Items that are zero or one are worth the number that they write. -/
theorem foldr_digits {α : Type} {val : α → Fp p} {xs : List α} {bs : List Bool}
    (h : List.Forall₂ (fun x b => val x = Fp.ofBool b) xs bs) :
    xs.foldr (fun x sum => val x + 2 * sum) 0 = (natOfBits bs : Fp p) := by
  induction h with
  | nil => exact Nat.cast_zero.symm
  | @cons x b xs bs hx _ ih =>
      show val x + 2 * _ = ((b.toNat + 2 * natOfBits bs : Nat) : Fp p)
      rw [ih, hx, Fp.ofBool_eq_cast, Nat.cast_add, Nat.cast_mul, Nat.cast_two]

end RankOne.LinComb
