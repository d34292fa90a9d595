import Mathlib.Data.BitVec
import RankOne.Proofs.Vectors

/-!
# Words — sums, numbers and bytes

    `addMany` adds its operands as one combination and keeps the low digits.
    The combination is worth the sum of the operands in the field; it is the
    sum of natural numbers because as many digits as the largest sum needs
    still fit below the modulus.

    Bytes come from numbers and are put together to words, and words are taken
    apart into bytes, without any row but those of the decomposition.
-/

namespace RankOne.Bits

open Build

variable {p : Nat} [Modulus p] {w : Nat}

/-! ## Sums -/

/-- The sum of integers, not reduced. -/
def total (vs : List (BitVec w)) : Nat := vs.foldl (fun n v => n + v.toNat) 0

/-- What a sum begins with is added at the end as well. -/
private theorem foldl_toNat_add (vs : List (BitVec w)) (n : Nat) :
    vs.foldl (fun n v => n + v.toNat) n = n + total vs := by
  induction vs generalizing n with
  | nil => rfl
  | cons v rest ih =>
      show rest.foldl _ (n + v.toNat) = n + rest.foldl _ (0 + v.toNat)
      rw [ih, ih, Nat.zero_add, Nat.add_assoc]

/-- A total is its first number and the total of the others. -/
theorem total_cons (v : BitVec w) (vs : List (BitVec w)) :
    total (v :: vs) = v.toNat + total vs := by
  show vs.foldl _ (0 + v.toNat) = _
  rw [foldl_toNat_add, Nat.zero_add]

/-- As many digits as are taken hold every sum of so many integers. -/
theorem total_lt (hw : w ≤ 64) (vs : List (BitVec w)) : total vs < 2 ^ sumWidth w vs.length := by
  have hle : total vs ≤ vs.length * (mask w).toNat := by
    induction vs with
    | nil => exact Nat.zero_le _
    | cons v rest ih =>
        have hv : v.toNat ≤ (mask w).toNat := by
          rw [toNat_mask hw]
          exact Nat.le_pred_of_lt v.isLt
        rw [total_cons, List.length_cons, Nat.succ_mul]
        omega
  unfold sumWidth
  split
  · next hzero => exact (hle.trans_eq hzero).trans_lt Nat.one_pos
  · exact hle.trans_lt Nat.lt_log2_self

/-- The sum of the caches is the sum of the integers. -/
theorem foldl_cells (hw : w ≤ 64) (vs : List (BitVec w)) :
    (vs.map cell).foldl (fun n v => n + v.toNat) 0 = total vs := by
  rw [List.foldl_map, total]
  simp only [toNat_cell hw]

/-- The low digits of the sum are the sum of the integers. -/
theorem ofNat_total (vs : List (BitVec w)) :
    BitVec.ofNat w (total vs) = vs.foldl (· + ·) 0 := by
  have h : ∀ (vs : List (BitVec w)) (v : BitVec w),
      vs.foldl (· + ·) v = v + BitVec.ofNat w (total vs) := by
    intro vs
    induction vs with
    | nil => exact fun v => (BitVec.add_zero v).symm
    | cons u rest ih =>
        intro v
        rw [List.foldl_cons, ih, total_cons, BitVec.ofNat_add, BitVec.ofNat_toNat,
          BitVec.setWidth_eq, BitVec.add_assoc]
  rw [h vs 0]
  exact (BitVec.zero_add _).symm

/-- A word is worth its number, times the coefficient. -/
theorem Is.eval_lc {z : Variable → Fp p} {x : Bits w} {v : BitVec w} (h : x.Is z v) (c : Fp p) :
    (x.lc c).eval z = c * (v.toNat : Fp p) :=
  h.spells.eval_weighted v.isLt c

/-- The combination of a sum is worth the total of the words. -/
theorem eval_sum {z : Variable → Fp p} {xs : List (Bits w)} {vs : List (BitVec w)}
    (h : List.Forall₂ (Is z) xs vs) : (sum (p := p) xs).comb.eval z = (total vs : Fp p) := by
  have hfold : ∀ acc : LinComb p, (xs.foldl (fun acc x => acc + x.lc 1) acc).eval z
      = acc.eval z + (total vs : Fp p) := by
    induction h with
    | nil =>
        intro acc
        exact (add_zero _).symm.trans (congrArg _ Nat.cast_zero.symm)
    | @cons x v xs vs hx _ ih =>
        intro acc
        rw [List.foldl_cons, ih, LinComb.eval_add, hx.eval_lc, one_mul, total_cons, Nat.cast_add,
          add_assoc]
  exact (hfold 0).trans (zero_add _)

/-- A sum that was built had room for its digits. -/
theorem gives_addMany (xs : List (Bits w)) :
    Gives (addMany (p := p) xs) fun _ => sumWidth w xs.length ≤ Fp.capacity p := by
  rw [addMany]
  split
  · next hempty =>
      obtain rfl := List.isEmpty_iff.mp hempty
      have hdigits : sumWidth w 0 = 0 := by rw [sumWidth, if_pos (Nat.zero_mul _)]
      rw [List.length_nil, hdigits]
      exact Gives.pure (Nat.zero_le _)
  · exact (LinNum.gives_toBits _ _).within.bind fun _ hroom => Gives.pure hroom

/-- The sum is split with enough digits for the total, so that its low digits
    are the words' sum modulo the word size. -/
theorem forces_addMany {z : Variable → Fp p} (hp : p.Prime) (one : z .one = 1) (xs : List (Bits w))
    (hcap : sumWidth w xs.length ≤ Fp.capacity p) (hw : w ≤ 64 := by decide) :
    Forces z (addMany (p := p) xs) fun r =>
      ∀ vs, List.Forall₂ (Is z) xs vs → r.Is z (vs.foldl (· + ·) 0) := by
  have hfalse : (Bit.const false).Is z false := Bit.val_const one false
  rw [addMany]
  split
  · next hempty =>
      obtain rfl := List.isEmpty_iff.mp hempty
      refine Forces.pure fun vs hvs => ?_
      obtain rfl := List.forall₂_nil_left_iff.mp hvs
      have hzero : (constant (cell 0#w)).Is z 0#w := reads_constant (Bit.val_const one) 0 hw
      rwa [cell_zero] at hzero
  · refine (LinNum.forces_toBits hp one _ _).within.bind fun digits => Forces.pure ?_
    intro hdigits vs hvs
    -- the combination is worth the sum itself, since the sum is below the modulus
    have hlt : total vs < 2 ^ sumWidth w xs.length := by
      rw [hvs.length_eq]
      exact total_lt hw vs
    have hval : ((sum xs).comb.eval z).val = total vs :=
      Fp.val_eq_of_eq_cast (eval_sum hvs) (hlt.trans_le (Fp.two_pow_le_of_le_capacity hcap))
    -- the digits kept are those of the sum, and the carries past them fall away
    rw [hval] at hdigits
    rw [← ofNat_total]
    exact reads_low hfalse hdigits.2 hlt

/-- The integers that are cached add up to the total. -/
theorem live_sum {t : Witness p} {xs : List (Bits w)} {vs : List (BitVec w)} (hw : w ≤ 64)
    (h : List.Forall₂ (Live t) xs vs) : (sum xs).Live t (total vs : Fp p) := by
  refine ⟨?_, fun z hz => eval_sum (h.imp fun _ _ hx => hx.is hz)⟩
  have hvalues : xs.mapM Bits.value = some (vs.map cell) := by
    induction h with
    | nil => rfl
    | cons hx _ ih =>
        rw [List.mapM_cons, hx.1, ih]
        rfl
  rw [sum, hvalues, ← foldl_cells hw]
  rfl

/-- The digits of the total satisfy the rows of the sum. -/
theorem honest_addMany {t : Witness p} {xs : List (Bits w)} {vs : List (BitVec w)}
    (h : List.Forall₂ (Live t) xs vs) (hcap : sumWidth w xs.length ≤ Fp.capacity p)
    (hw : w ≤ 64 := by decide) :
    Honest t (addMany (p := p) xs) fun t' r => r.Live t' (vs.foldl (· + ·) 0) := by
  rw [addMany]
  split
  · next hempty =>
      obtain rfl := List.isEmpty_iff.mp hempty
      obtain rfl := List.forall₂_nil_left_iff.mp h
      refine Honest.pure fun t' _ => ?_
      have hzero := live_constant t' 0#w hw
      rwa [cell_zero] at hzero
  · have hlt : total vs < 2 ^ sumWidth w xs.length := by
      rw [h.length_eq]
      exact total_lt hw vs
    have hval : (total vs : Fp p).val = total vs :=
      Fp.val_cast_of_lt (hlt.trans_le (Fp.two_pow_le_of_le_capacity hcap))
    refine (LinNum.honest_toBits (live_sum hw h) hcap (hval.trans_lt hlt)).within.bind
      fun t₁ digits _ hdigits => Honest.pure fun t₂ hle => live_ofBits ?_
    rw [← ofNat_total]
    refine reads_low (Bit.Live.const t₂ false) (fun i hi => ?_) hlt
    rw [← hval]
    exact (hdigits i hi).mono hle

/-- Words alike have one sum. -/
theorem sum_alike {m : Mode} {xs xs' : List (Bits w)} (h : List.Forall₂ (Alike m) xs xs') :
    (sum (p := p) xs).Alike m (sum xs') := by
  refine ⟨?_, fun hm => ?_⟩
  · show xs.foldl (fun acc x => acc + x.lc 1) (0 : LinComb p) = xs'.foldl _ 0
    generalize (0 : LinComb p) = acc
    induction h generalizing acc with
    | nil => rfl
    | cons hx _ ih => rw [List.foldl_cons, List.foldl_cons, hx.lc, ih]
  · have hvalues : xs.mapM Bits.value = xs'.mapM Bits.value := by
      induction h with
      | nil => rfl
      | cons hx _ ih => rw [List.mapM_cons, List.mapM_cons, hx.solved hm, ih]
    rw [sum, sum, hvalues]

omit [Modulus p] in
/-- The low digits of numbers alike. -/
theorem alike_low {m : Mode} {n : Nat} {digits digits' : Vector Bit n}
    (h : ∀ i (hi : i < n), digits[i].Alike m digits'[i]) :
    Alike m (ofBits (w := w) (.ofFn fun i => digits[i.val]?.getD (.const false)))
      (ofBits (.ofFn fun i => digits'[i.val]?.getD (.const false))) :=
  alike_ofBits (rel_low (.const false) h)

omit [Modulus p] in
theorem isEmpty_congr {xs xs' : List (Bits w)} (h : xs.length = xs'.length) :
    xs.isEmpty = xs'.isEmpty := by
  rw [Bool.eq_iff_iff, List.isEmpty_iff_length_eq_zero, List.isEmpty_iff_length_eq_zero, h]

/-- Sums of words alike run alike. -/
theorem follows_addMany {m m' : Mode} [Mode.AsksLess m m'] {xs xs' : List (Bits w)}
    (h : List.Forall₂ (Alike m) xs xs') :
    Follows m m' (addMany (p := p) xs) (addMany xs') (Alike m) := by
  rw [addMany, isEmpty_congr h.length_eq, h.length_eq]
  refine Follows.ite (fun _ => Follows.pure (alike_refl m _)) fun _ => ?_
  refine (LinNum.follows_toBits (sum_alike h) _).within.bind fun digits digits' hdigits => ?_
  exact Follows.pure (alike_low hdigits)

/-- A sum compiles wherever the field has room for the total's digits. -/
theorem tidy_addMany (xs : List (Bits w)) (hcap : sumWidth w xs.length ≤ Fp.capacity p) :
    Tidy (addMany (p := p) xs) fun _ => True := by
  rw [addMany]
  split
  · exact Tidy.pure trivial
  · exact ((LinNum.tidy_toBits _ hcap).within.mono fun _ _ => trivial).tidy (by decide) |>.map

/-! ## Numbers -/

/-- The bits of a number that is split are its digits. -/
theorem forces_fromNum {z : Variable → Fp p} (hp : p.Prime) (one : z .one = 1) (x : Num p) :
    Forces z (fromNum (w := w) x) fun r =>
      (z x.var).val < 2 ^ w ∧ r.Is z (BitVec.ofNat w (z x.var).val) := by
  refine Forces.map ((Num.forces_toBits hp one x w).mono fun bits h => ⟨h.1, fun i hi => ?_⟩)
  rw [BitVec.getLsbD_ofNat, decide_eq_true hi, Bool.true_and]
  exact h.2 i hi

/-- A value in range is split into its digits. -/
theorem honest_fromNum {t : Witness p} {x : Num p} {v : Fp p} (hx : x.Live t v)
    (hw : w ≤ Fp.capacity p) (hv : v.val < 2 ^ w) :
    Honest t (fromNum (w := w) x) fun t' r => r.Live t' (BitVec.ofNat w v.val) := by
  refine Honest.map ((Num.honest_toBits hx hw hv).mono fun t' bits _ h => ?_)
  refine live_ofBits fun i hi => ?_
  rw [BitVec.getLsbD_ofNat, decide_eq_true hi, Bool.true_and]
  exact h i hi

theorem follows_fromNum {m m' : Mode} [Mode.AsksLess m m'] {x x' : Num p} (hx : x.Alike m x') :
    Follows m m' (fromNum (w := w) x) (fromNum x') (Alike m) :=
  Follows.map ((Num.follows_toBits hx w).mono fun _ _ h => alike_ofBits h)

/-- Numbers alike are digits of numbers alike. -/
theorem digitSum_alike {m : Mode} {xs xs' : List (Num p)}
    (h : List.Forall₂ (Num.Alike m) xs xs') : (digitSum xs).Alike m (digitSum xs') := by
  constructor
  · unfold digitSum
    generalize (0 : LinComb p) = acc
    generalize (1 : Fp p) = c
    induction h generalizing acc c with
    | nil => rfl
    | cons hx _ ih =>
        simp only [LinComb.addDoubling] at ih ⊢
        rw [hx.var]
        exact ih _ _
  · intro hm
    rw [digitSum, digitSum, Num.values_alike h hm]

theorem follows_fromNums {m m' : Mode} [Mode.AsksLess m m'] {xs xs' : List (Num p)}
    (h : List.Forall₂ (Num.Alike m) xs xs') :
    Follows m m' (fromNums (w := w) xs) (fromNums xs') (Alike m) :=
  Follows.map ((LinNum.follows_toBits (digitSum_alike h) w).within.mono
    fun _ _ hbits => alike_ofBits hbits)

theorem follows_toNum {m m' : Mode} [Mode.AsksLess m m'] {x x' : Bits w} (h : x.Alike m x') :
    Follows m m' (toNum (p := p) x) (toNum x') (Num.Alike m) :=
  Num.follows_ofBits (Bit.forall₂_alike h.bits)

theorem tidy_fromNum (x : Num p) (hw : w ≤ Fp.capacity p) :
    Tidy (fromNum (w := w) x) fun _ => True :=
  (x.tidy_toBits hw).map

end RankOne.Bits

namespace RankOne

/-! ## Vectors of integers -/

/-- The entries of two vectors are related place by place. -/
def Each {α β : Type} {n : Nat} (R : α → β → Prop) (xs : Vector α n) (ys : Vector β n) : Prop :=
  ∀ i (hi : i < n), R xs[i] ys[i]

namespace Each

variable {α β : Type} {n : Nat} {R : α → β → Prop} {xs : Vector α n} {ys : Vector β n}

/-- The entries at one place, where it can be seen to lie within. -/
theorem entry (h : Each R xs ys) (i : Nat) (hi : i < n := by decide) : R xs[i] ys[i] := h i hi

theorem imp {S : α → β → Prop} (h : Each R xs ys) (hRS : ∀ a b, R a b → S a b) : Each S xs ys :=
  fun i hi => hRS _ _ (h i hi)

/-- Entry by entry, as lists. -/
theorem forall₂ (h : Each R xs ys) : List.Forall₂ R xs.toList ys.toList := by
  rw [List.forall₂_iff_get]
  refine ⟨by simp, fun i hi _ => ?_⟩
  rw [Vector.length_toList] at hi
  simpa using h i hi

/-- And back. -/
theorem of_forall₂ (h : List.Forall₂ R xs.toList ys.toList) : Each R xs ys := by
  intro i hi
  have hget := (List.forall₂_iff_get.mp h).2 i (by simpa using hi) (by simpa using hi)
  simpa using hget

/-- The window of a schedule moves on by one word. -/
theorem shift {xs : Vector α (n + 1)} {ys : Vector β (n + 1)} (h : Each R xs ys) {a : α} {b : β}
    (hab : R a b) : Each R (xs.tail.push a) (ys.tail.push b) := by
  intro i hi
  rw [Vector.getElem_push, Vector.getElem_push]
  split
  · next hin => simpa [Nat.add_comm] using h (i + 1) (by omega)
  · exact hab

/-- One more entry on either side. -/
theorem push {xs : Vector α n} {ys : Vector β n} (h : Each R xs ys) {a : α} {b : β}
    (hab : R a b) : Each R (xs.push a) (ys.push b) := by
  intro i hi
  rw [Vector.getElem_push, Vector.getElem_push]
  split
  · next hin => exact h i hin
  · exact hab

theorem four {a₀ a₁ a₂ a₃ : α} {b₀ b₁ b₂ b₃ : β} (h₀ : R a₀ b₀) (h₁ : R a₁ b₁) (h₂ : R a₂ b₂)
    (h₃ : R a₃ b₃) : Each R #v[a₀, a₁, a₂, a₃] #v[b₀, b₁, b₂, b₃]
  | 0, _ => h₀
  | 1, _ => h₁
  | 2, _ => h₂
  | 3, _ => h₃

theorem eight {a₀ a₁ a₂ a₃ a₄ a₅ a₆ a₇ : α} {b₀ b₁ b₂ b₃ b₄ b₅ b₆ b₇ : β} (h₀ : R a₀ b₀)
    (h₁ : R a₁ b₁) (h₂ : R a₂ b₂) (h₃ : R a₃ b₃) (h₄ : R a₄ b₄) (h₅ : R a₅ b₅) (h₆ : R a₆ b₆)
    (h₇ : R a₇ b₇) :
    Each R #v[a₀, a₁, a₂, a₃, a₄, a₅, a₆, a₇] #v[b₀, b₁, b₂, b₃, b₄, b₅, b₆, b₇]
  | 0, _ => h₀
  | 1, _ => h₁
  | 2, _ => h₂
  | 3, _ => h₃
  | 4, _ => h₄
  | 5, _ => h₅
  | 6, _ => h₆
  | 7, _ => h₇

end Each

namespace Word

/-! ## Bytes of a word -/

variable {p : Nat} [Modulus p] {P : Bit → Bool → Prop}

/-- Four bytes joined, most significant first. -/
def joined (vs : Vector (BitVec 8) 4) : BitVec 32 := vs.get 0 ++ vs.get 1 ++ vs.get 2 ++ vs.get 3

/-- Four bytes make a word, the first with the highest digits. -/
theorem reads_ofBytesBE {bytes : Vector Byte 4} {vs : Vector (BitVec 8) 4}
    (h : Each (Bits.Reads P) bytes vs) : (ofBytesBE bytes).Reads P (joined vs) := by
  intro i hi
  have hget : (ofBytesBE bytes).bits[i] = (bytes[3 - i / 8]).bits[i % 8] := by
    show (Vector.ofFn fun i : Fin 32 => _)[i] = _
    rw [Vector.getElem_ofFn]
  have hspec : (joined vs).getLsbD i = (vs[3 - i / 8]).getLsbD (i % 8) := by
    simp only [joined, BitVec.getLsbD_append]
    -- digit `i` lies in byte `i / 8` from the end
    have hj : i / 8 = 0 ∨ i / 8 = 1 ∨ i / 8 = 2 ∨ i / 8 = 3 := by omega
    rcases hj with hj | hj | hj | hj
    · rw [if_pos (by omega)]
      simp only [hj, show i % 8 = i by omega]
      rfl
    · rw [if_neg (by omega), if_pos (by omega)]
      simp only [hj, show i % 8 = i - 8 by omega]
      rfl
    · rw [if_neg (by omega), if_neg (by omega), if_pos (by omega)]
      simp only [hj, show i % 8 = i - 8 - 8 by omega]
      rfl
    · rw [if_neg (by omega), if_neg (by omega), if_neg (by omega)]
      simp only [hj, show i % 8 = i - 8 - 8 - 8 by omega]
      rfl
  rw [hget, hspec]
  exact h _ _ _ _

/-- The integer that is cached is put together likewise. -/
theorem live_ofBytesBE {t : Witness p} {bytes : Vector Byte 4} {vs : Vector (BitVec 8) 4}
    (h : Each (Bits.Live t) bytes vs) : (ofBytesBE bytes).Live t (joined vs) :=
  Bits.live_ofBits (reads_ofBytesBE (h.imp fun _ _ hx => hx.2))

/-- A word is cut into its bytes, the highest first. -/
theorem reads_toBytesBE {x : Word} {v : BitVec 32} (h : x.Reads P v) :
    Each (Bits.Reads P) x.toBytesBE (.ofFn fun j : Fin 4 => v.extractLsb' (8 * (3 - j.val)) 8) := by
  intro j hj i hi
  have hget : (x.toBytesBE[j]).bits[i] = x.bits[(3 - j) * 8 + i] := by
    simp [toBytesBE, Bits.ofBits]
  rw [hget, Vector.getElem_ofFn, BitVec.getLsbD_extractLsb', decide_eq_true hi, Bool.true_and,
    Nat.mul_comm 8]
  exact h _ _

/-- The integer that is cached is cut likewise. -/
theorem live_toBytesBE {t : Witness p} {x : Word} {v : BitVec 32} (h : x.Live t v) :
    Each (Bits.Live t) x.toBytesBE (.ofFn fun j : Fin 4 => v.extractLsb' (8 * (3 - j.val)) 8) := by
  intro j hj
  have hbits := reads_toBytesBE h.2 j hj
  have hget : x.toBytesBE[j] = .ofBits (.ofFn fun i => x.bits[(3 - j) * 8 + i.val]) := by
    simp [toBytesBE]
  rw [hget] at hbits ⊢
  exact Bits.live_ofBits hbits

end Word

end RankOne
