import Mathlib.Data.BitVec
import RankOne.Bits

/-!
# Cells — integers of a width in machine words of 64 bits

    The cache of an integer is a machine word, and is computed by the
    arithmetic of machine words whatever the width.  Its digits at and past the
    width have to be zero, or the digits of the next result would be wrong;
    the masks see to that.

    `cell v` is the machine word that holds the integer `v` and nothing else.
    Each operation on caches takes cells to the cell of the result.  Only
    rotations and shifts ask for the width to be at most 64, for past that a
    cell has no room for the integer.
-/

namespace RankOne.Bits

variable {w : Nat}

/-! ## Digits of machine words -/

/-- Machine words with the same digits are the same. -/
theorem word_ext {a b : UInt64}
    (h : ∀ i, i < 64 → a.toBitVec.getLsbD i = b.toBitVec.getLsbD i) : a = b :=
  UInt64.toBitVec_inj.mp (BitVec.eq_of_getLsbD_eq h)

/-- A shift by less than 64 is by as much as it says. -/
theorem toNat_amount {k : Nat} (hk : k < 64) :
    ((UInt64.ofNat k).toBitVec % 64).toNat = k := by
  rw [UInt64.toBitVec_ofNat', BitVec.toNat_umod, BitVec.toNat_ofNat,
    Nat.mod_eq_of_lt (hk.trans (by decide))]
  exact Nat.mod_eq_of_lt hk

theorem getLsbD_shiftRight (v : UInt64) {k : Nat} (hk : k < 64) (i : Nat) :
    (v >>> .ofNat k).toBitVec.getLsbD i = v.toBitVec.getLsbD (i + k) := by
  rw [UInt64.toBitVec_shiftRight, BitVec.ushiftRight_eq', toNat_amount hk,
    BitVec.getLsbD_ushiftRight, Nat.add_comm]

theorem getLsbD_shiftLeft (v : UInt64) {k : Nat} (hk : k < 64) (i : Nat) :
    (v <<< .ofNat k).toBitVec.getLsbD i
      = (decide (i < 64) && !decide (i < k) && v.toBitVec.getLsbD (i - k)) := by
  rw [UInt64.toBitVec_shiftLeft, BitVec.shiftLeft_eq', toNat_amount hk, BitVec.getLsbD_shiftLeft]

theorem isSet_eq (v : UInt64) {i : Nat} (hi : i < 64) : isSet v i = v.toBitVec.getLsbD i := by
  have hlow : ∀ u : UInt64, (u &&& 1 == 1) = u.toBitVec.getLsbD 0 := by
    intro u
    rw [Bool.eq_iff_iff, beq_iff_eq, ← UInt64.toNat_inj, UInt64.toNat_and, ← BitVec.testBit_toNat,
      Nat.testBit_zero, decide_eq_true_iff, UInt64.toNat_toBitVec]
    show u.toNat &&& 1 = 1 ↔ _
    rw [Nat.and_one_is_mod]
  rw [isSet, hlow, getLsbD_shiftRight v hi, Nat.zero_add]

/-- The mask of a width keeps the digits below the width. -/
theorem getLsbD_mask (w i : Nat) :
    (mask w).toBitVec.getLsbD i = (decide (i < 64) && decide (i < w)) := by
  rw [mask]
  split
  · next hw =>
      have hones : (0xffffffffffffffff : UInt64).toBitVec = BitVec.allOnes 64 := by decide
      rw [hones, BitVec.getLsbD_allOnes]
      by_cases hi : i < 64
      · rw [decide_eq_true hi, decide_eq_true (hi.trans_le hw), Bool.and_true]
      · rw [decide_eq_false hi, Bool.false_and]
  · next hw =>
      have hpow : (1 <<< UInt64.ofNat w : UInt64).toNat = 2 ^ w := by
        have hlt : 2 ^ w < 2 ^ 64 := Nat.pow_lt_pow_right (by decide) (not_le.mp hw)
        have hw' : (UInt64.ofNat w).toNat % 64 = w := toNat_amount (not_le.mp hw)
        rw [UInt64.toNat_shiftLeft, hw', Nat.shiftLeft_eq]
        exact (Nat.mod_eq_of_lt (by rwa [UInt64.toNat_one, one_mul])).trans (one_mul _)
      have hle : (1 : UInt64) ≤ 1 <<< UInt64.ofNat w := by
        rw [UInt64.le_iff_toNat_le, hpow]
        exact Nat.one_le_two_pow
      rw [← BitVec.testBit_toNat, UInt64.toNat_toBitVec, UInt64.toNat_sub_of_le _ _ hle, hpow]
      show (2 ^ w - 1).testBit i = _
      rw [Nat.testBit_two_pow_sub_one]
      by_cases hi : i < 64
      · rw [decide_eq_true hi, Bool.true_and]
      · rw [decide_eq_false hi, Bool.false_and, decide_eq_false (by omega)]

/-- As many digits as the width, all of them ones. -/
theorem toNat_mask (hw : w ≤ 64) : (mask w).toNat = 2 ^ w - 1 := by
  apply Nat.eq_of_testBit_eq
  intro i
  rw [Nat.testBit_two_pow_sub_one, ← UInt64.toNat_toBitVec, BitVec.testBit_toNat, getLsbD_mask]
  by_cases hi : i < w
  · rw [decide_eq_true (hi.trans_le hw), Bool.true_and]
  · rw [decide_eq_false hi, Bool.and_false]

/-! ## Integers as machine words -/

theorem toBitVec_cell (v : BitVec w) : (cell v).toBitVec = v.setWidth 64 := by
  rw [cell, UInt64.toBitVec_ofNat', BitVec.ofNat_toNat]

theorem getLsbD_cell (v : BitVec w) (i : Nat) :
    (cell v).toBitVec.getLsbD i = (decide (i < 64) && v.getLsbD i) := by
  rw [toBitVec_cell, BitVec.getLsbD_setWidth]

/-- An integer of at most 64 bits fits a cell. -/
theorem toNat_cell (hw : w ≤ 64) (v : BitVec w) : (cell v).toNat = v.toNat := by
  rw [cell, UInt64.toNat_ofNat', Nat.mod_eq_of_lt]
  exact v.isLt.trans_le (Nat.pow_le_pow_right Nat.two_pos hw)

/-- Masking a machine word leaves the integer of its low digits. -/
theorem and_mask (v : UInt64) : v &&& mask w = cell (BitVec.ofNat w v.toNat) := by
  refine word_ext fun i hi => ?_
  rw [UInt64.toBitVec_and, BitVec.getLsbD_and, getLsbD_mask, getLsbD_cell, BitVec.getLsbD_ofNat,
    ← UInt64.toNat_toBitVec, BitVec.testBit_toNat, decide_eq_true hi, Bool.true_and,
    Bool.true_and, Bool.and_comm]

/-- The bits of a machine word below the width are those of the integer. -/
theorem isSet_ofNat (v : UInt64) {i : Nat} (hi : i < w) (hw : w ≤ 64) :
    isSet v i = (BitVec.ofNat w v.toNat).getLsbD i := by
  rw [isSet_eq v (hi.trans_le hw), BitVec.getLsbD_ofNat, decide_eq_true hi, Bool.true_and,
    ← BitVec.testBit_toNat, UInt64.toNat_toBitVec]

/-- A mask takes nothing from a cell. -/
theorem cell_and_mask (v : BitVec w) : cell v &&& mask w = cell v := by
  refine word_ext fun i hi => ?_
  rw [UInt64.toBitVec_and, BitVec.getLsbD_and, getLsbD_mask, getLsbD_cell, decide_eq_true hi,
    Bool.true_and, Bool.true_and]
  by_cases hw : i < w
  · rw [decide_eq_true hw, Bool.and_true]
  · rw [decide_eq_false hw, Bool.and_false, BitVec.getLsbD_of_ge v i (not_lt.mp hw)]

theorem cell_zero : cell (0#w) = 0 := by
  rw [cell, BitVec.toNat_ofNat, Nat.zero_mod]
  rfl

/-! ## Arithmetic of cells -/

section Arithmetic

variable (a b c : BitVec w)

theorem cell_xor : cell a ^^^ cell b = cell (a ^^^ b) := by
  refine word_ext fun i _ => ?_
  rw [UInt64.toBitVec_xor, toBitVec_cell, toBitVec_cell, toBitVec_cell, BitVec.setWidth_xor]

theorem cell_and : cell a &&& cell b = cell (a &&& b) := by
  refine word_ext fun i _ => ?_
  rw [UInt64.toBitVec_and, toBitVec_cell, toBitVec_cell, toBitVec_cell, BitVec.setWidth_and]

/-- A complement has ones past the width, which the mask takes away. -/
theorem cell_not : ~~~cell a &&& mask w = cell (~~~a) := by
  refine word_ext fun i hi => ?_
  rw [UInt64.toBitVec_and, BitVec.getLsbD_and, UInt64.toBitVec_not, BitVec.getLsbD_not,
    getLsbD_mask, getLsbD_cell, getLsbD_cell, BitVec.getLsbD_not, decide_eq_true hi,
    Bool.true_and, Bool.true_and, Bool.true_and, Bool.true_and, Bool.and_comm]

theorem cell_choose :
    (cell a &&& cell b) ^^^ (~~~cell a &&& cell c &&& mask w)
      = cell ((a &&& b) ^^^ (~~~a &&& c)) := by
  have hmask : ~~~cell a &&& cell c &&& mask w = ~~~cell a &&& mask w &&& cell c := by
    rw [UInt64.and_assoc, UInt64.and_comm (cell c), ← UInt64.and_assoc]
  rw [hmask, cell_not, cell_and, cell_and, cell_xor]

theorem cell_majority :
    (cell a &&& cell b) ^^^ (cell a &&& cell c) ^^^ (cell b &&& cell c)
      = cell ((a &&& b) ^^^ (a &&& c) ^^^ (b &&& c)) := by
  rw [cell_and, cell_and, cell_and, cell_xor, cell_xor]

end Arithmetic

/-- Rotation moves a digit by the distance, round the width. -/
theorem getLsbD_rotateRight' (v : BitVec w) (k i : Nat) (hi : i < w) :
    (v.rotateRight k).getLsbD i = v.getLsbD ((i + k) % w) := by
  have hk : k % w < w := Nat.mod_lt _ (by omega)
  rw [BitVec.getLsbD_rotateRight, ← Nat.add_mod_mod]
  by_cases h : i < w - k % w
  · have hmod : (i + k % w) % w = i + k % w := Nat.mod_eq_of_lt (by omega)
    rw [decide_eq_true h, cond_true, hmod, Nat.add_comm]
  · have hmod : (i + k % w) % w = i - (w - k % w) := by
      have hsub : (i + k % w) % w = (i + k % w - w) % w := Nat.mod_eq_sub_mod (by omega)
      rw [hsub, Nat.mod_eq_of_lt (by omega)]
      omega
    rw [decide_eq_false h, cond_false, decide_eq_true hi, Bool.true_and, hmod]

/-- The two halves of a rotation overlap only where it rotates by nothing. -/
theorem cell_rotateRight (hw : w ≤ 64) (v : BitVec w) (k : Nat) :
    (cell v >>> .ofNat (k % w) ||| cell v <<< .ofNat ((w - k % w) % w)) &&& mask w
      = cell (v.rotateRight k) := by
  refine word_ext fun i hi => ?_
  rw [UInt64.toBitVec_and, BitVec.getLsbD_and, UInt64.toBitVec_or, BitVec.getLsbD_or,
    getLsbD_mask, getLsbD_cell, decide_eq_true hi, Bool.true_and, Bool.true_and]
  by_cases hiw : i < w
  · have hk : k % w < w := Nat.mod_lt _ (Nat.zero_lt_of_lt hiw)
    have hleft : (w - k % w) % w < w := Nat.mod_lt _ (Nat.zero_lt_of_lt hiw)
    rw [getLsbD_shiftRight _ (hk.trans_le hw), getLsbD_shiftLeft _ (hleft.trans_le hw),
      getLsbD_cell, getLsbD_cell, decide_eq_true hiw, decide_eq_true hi, Bool.and_true,
      Bool.true_and, getLsbD_rotateRight' v k i hiw, ← Nat.add_mod_mod]
    generalize k % w = j at hk hleft
    rcases Nat.eq_zero_or_pos j with rfl | hj
    -- by nothing: both halves are the integer itself
    · have hself : (w - 0) % w = 0 := Nat.mod_self w
      rw [hself, Nat.add_zero, Nat.sub_zero, Nat.mod_eq_of_lt hiw, decide_eq_true hi,
        decide_eq_false (Nat.not_lt_zero i), Bool.not_false, Bool.true_and, Bool.true_and,
        Bool.or_self]
    · have hrest : (w - j) % w = w - j := Nat.mod_eq_of_lt (by omega)
      rw [hrest]
      by_cases hin : i + j < w
      · rw [Nat.mod_eq_of_lt hin, decide_eq_true (hin.trans_le hw), Bool.true_and,
          decide_eq_true (show i < w - j by omega), Bool.not_true, Bool.false_and, Bool.or_false]
      · have hmod : (i + j) % w = i - (w - j) := by
          rw [Nat.mod_eq_sub_mod (not_lt.mp hin), Nat.mod_eq_of_lt (by omega)]
          omega
        rw [hmod, BitVec.getLsbD_of_ge v (i + j) (not_lt.mp hin), Bool.and_false, Bool.false_or,
          decide_eq_false (show ¬ i < w - j by omega), Bool.not_false, Bool.true_and,
          decide_eq_true (show i - (w - j) < 64 by omega), Bool.true_and]
  · rw [decide_eq_false hiw, Bool.and_false, BitVec.getLsbD_of_ge _ i (not_lt.mp hiw)]

theorem cell_shiftRight (hw : w ≤ 64) (v : BitVec w) (k : UInt64) :
    (if w ≤ k.toNat then 0 else cell v >>> k) = cell (v >>> k.toNat) := by
  split
  · next hk => rw [BitVec.ushiftRight_eq_zero hk, cell_zero]
  · next hk =>
      have hlt : k.toNat < 64 := (not_le.mp hk).trans_le hw
      apply UInt64.toNat_inj.mp
      rw [UInt64.toNat_shiftRight, Nat.mod_eq_of_lt hlt, toNat_cell hw, toNat_cell hw,
        BitVec.toNat_ushiftRight]

/-! ## Digits shifted in -/

/-- The digit that is shifted in comes first, and the others move up. -/
private theorem getLsbD_shiftedIn (b : Bool) (acc : UInt64) {i : Nat} (hi : i < 64) :
    (if b then acc <<< 1 ||| 1 else acc <<< 1).toBitVec.getLsbD i
      = ((!decide (i < 1) && acc.toBitVec.getLsbD (i - 1)) || (b && decide (i = 0))) := by
  have hone : (1 : UInt64).toBitVec.getLsbD i = decide (i = 0) :=
    BitVec.getLsbD_one.trans (Bool.true_and _)
  have hshift : (acc <<< 1).toBitVec.getLsbD i
      = (!decide (i < 1) && acc.toBitVec.getLsbD (i - 1)) := by
    have h := getLsbD_shiftLeft acc (k := 1) (by decide) i
    rw [decide_eq_true hi, Bool.true_and] at h
    exact h
  cases b with
  | false => exact hshift.trans (Bool.or_false _).symm
  | true => rw [if_pos rfl, UInt64.toBitVec_or, BitVec.getLsbD_or, hshift, hone, Bool.true_and]

/-- Digits shifted in one after the other stand at their places, as far as
    there are places. -/
theorem getLsbD_wordOfBits (bs : List Bool) {i : Nat} (hi : i < 64) :
    (wordOfBits bs).toBitVec.getLsbD i = bs.getD i false := by
  induction bs generalizing i with
  | nil => exact BitVec.getLsbD_zero
  | cons b bs ih =>
      refine (getLsbD_shiftedIn b (wordOfBits bs) hi).trans ?_
      cases i with
      | zero => exact Bool.and_true b
      | succ i =>
          rw [Nat.add_sub_cancel, ih (Nat.lt_of_succ_lt hi)]
          simp

/-- The digits of an integer, shifted in, leave its cell. -/
theorem wordOfBits_digits (v : BitVec w) :
    wordOfBits ((List.range w).map v.getLsbD) = cell v := by
  refine word_ext fun i hi => ?_
  rw [getLsbD_wordOfBits _ hi, getLsbD_cell, decide_eq_true hi, Bool.true_and,
    List.getD_eq_getElem?_getD]
  by_cases hiw : i < w
  · rw [List.getElem?_eq_getElem (by simpa using hiw)]
    simp
  · rw [List.getElem?_eq_none (by simpa using hiw), Option.getD_none,
      BitVec.getLsbD_of_ge v i (not_lt.mp hiw)]

end RankOne.Bits
