import Mathlib.Algebra.Field.ZMod
import Mathlib.FieldTheory.Finite.Basic
import Mathlib.Tactic.Ring
import Mathlib.Tactic.LinearCombination
import RankOne.Digits

/-!
# Residues — the ring that circuits compute in

    `Fp p` is a commutative ring: its operations are those of `ZMod p`, read
    along the canonical representative.  Over a prime modulus it has no zero
    divisors, and `Fp.inv` is the inverse.

    The bridge between the field and `Nat` is the cast: `(n : Fp p)` has value
    `n % p`, so two numbers below `p` with equal casts are equal.  Every
    argument that a sum did not wrap around the modulus ends there.
-/

namespace RankOne

namespace Fp

variable {p : Nat} [Modulus p]

instance : NatCast (Fp p) := ⟨ofNat⟩

instance : IntCast (Fp p) := ⟨fun z => ofNat (z % (p : Int)).toNat⟩

instance : SMul Nat (Fp p) := ⟨fun n a => ofNat (n * a.val)⟩

instance : SMul Int (Fp p) := ⟨fun z a => ofNat ((z % (p : Int)).toNat * a.val)⟩

instance : Pow (Fp p) Nat := ⟨fun a n => ofNat (a.val ^ n)⟩

/-- The residue class of an element. -/
def toZMod (a : Fp p) : ZMod p := (a.val : ZMod p)

/-- Numbers are read alike in both rings. -/
private theorem toZMod_ofNat (n : Nat) : toZMod (ofNat n : Fp p) = (n : ZMod p) := by
  show ((n % p : Nat) : ZMod p) = n
  exact ZMod.natCast_mod n p

/-- So are integers, which are reduced before they are read. -/
private theorem toZMod_val_emod (z : Int) :
    (((z % (p : Int)).toNat : Nat) : ZMod p) = (z : ZMod p) := by
  have hp : (0 : Int) < p := Int.natCast_pos.mpr (Modulus.pos p)
  have h : (((z % (p : Int)).toNat : Nat) : Int) = z % (p : Int) :=
    Int.toNat_of_nonneg (Int.emod_nonneg _ hp.ne')
  rw [← Int.cast_natCast, h]
  exact ZMod.intCast_mod z p

omit [Modulus p] in
/-- An element is its residue, so nothing is lost. -/
theorem toZMod_injective : Function.Injective (toZMod : Fp p → ZMod p) := by
  intro a b h
  have h' := (ZMod.natCast_eq_natCast_iff' a.val b.val p).mp h
  rw [Nat.mod_eq_of_lt a.isLt, Nat.mod_eq_of_lt b.isLt] at h'
  exact ext_val h'

/-- The negation of zero is kept below the modulus. -/
private theorem toZMod_neg (a : Fp p) : toZMod (-a) = -toZMod a := by
  show toZMod (ofNat (p - a.val) : Fp p) = _
  rw [toZMod_ofNat, Nat.cast_sub (Nat.le_of_lt a.isLt), ZMod.natCast_self, zero_sub]
  rfl

/-- Subtraction adds the modulus first, so that nothing is cut off. -/
private theorem toZMod_sub (a b : Fp p) : toZMod (a - b) = toZMod a - toZMod b := by
  show toZMod (ofNat (a.val + (p - b.val)) : Fp p) = _
  rw [toZMod_ofNat, Nat.cast_add, Nat.cast_sub (Nat.le_of_lt b.isLt), ZMod.natCast_self,
    zero_sub, ← sub_eq_add_neg]
  rfl

/-- Powers are taken of the representative. -/
theorem toZMod_pow (a : Fp p) (n : Nat) :
    toZMod (ofNat (a.val ^ n) : Fp p) = toZMod a ^ n :=
  (toZMod_ofNat _).trans (Nat.cast_pow a.val n)

theorem toZMod_one : toZMod (1 : Fp p) = 1 := (toZMod_ofNat 1).trans Nat.cast_one

/-- The residues form a commutative ring. -/
instance : CommRing (Fp p) :=
  toZMod_injective.commRing toZMod
    ((toZMod_ofNat 0).trans Nat.cast_zero)
    toZMod_one
    (fun a b => (toZMod_ofNat _).trans (Nat.cast_add a.val b.val))
    (fun a b => (toZMod_ofNat _).trans (Nat.cast_mul a.val b.val))
    toZMod_neg
    toZMod_sub
    (fun n a => by
      show toZMod (ofNat (n * a.val) : Fp p) = n • toZMod a
      rw [toZMod_ofNat, Nat.cast_mul, nsmul_eq_mul]
      rfl)
    (fun z a => by
      show toZMod (ofNat ((z % (p : Int)).toNat * a.val) : Fp p) = z • toZMod a
      rw [toZMod_ofNat, Nat.cast_mul, toZMod_val_emod, zsmul_eq_mul]
      rfl)
    toZMod_pow
    toZMod_ofNat
    (fun z => (toZMod_ofNat _).trans (toZMod_val_emod z))

/-! ## The cast from the natural numbers -/

@[simp] theorem ofNat_eq_cast (n : Nat) : (ofNat n : Fp p) = (n : Fp p) := rfl

@[simp] theorem val_natCast (n : Nat) : (n : Fp p).val = n % p := rfl

/-- An element is the number that represents it. -/
theorem cast_val (a : Fp p) : ((a.val : Nat) : Fp p) = a := ofNat_val a

/-- Below the modulus, a number is the value of its cast. -/
theorem val_cast_of_lt {n : Nat} (h : n < p) : (n : Fp p).val = n :=
  Nat.mod_eq_of_lt h

/-- An element that is the cast of a number below the modulus has that number
    as its value. -/
theorem val_eq_of_eq_cast {a : Fp p} {n : Nat} (h : a = (n : Fp p)) (hn : n < p) :
    a.val = n := by
  rw [h]
  exact val_cast_of_lt hn

omit [Modulus p] in
/-- Elements with one representative are equal. -/
theorem val_injective : Function.Injective (val : Fp p → Nat) :=
  fun _ _ h => ext_val h

@[simp] theorem ofBool_true : (ofBool true : Fp p) = 1 := rfl

@[simp] theorem ofBool_false : (ofBool false : Fp p) = 0 := rfl

/-- A truth value is worth zero or one. -/
theorem ofBool_eq_cast (b : Bool) : (ofBool b : Fp p) = (b.toNat : Fp p) := by
  cases b
  · exact Nat.cast_zero.symm
  · exact Nat.cast_one.symm

/-- The doubling that coefficients use is multiplication by two. -/
theorem double_eq (a : Fp p) : a.double = 2 * a := by
  show a + a = 2 * a
  ring

/-! ## Powers -/

/-- By induction on the digits of the exponent, the least significant first. -/
private theorem powBits_eq (a : Fp p) (bits : List Bool) :
    powBits a bits = a ^ natOfBits bits := by
  induction bits with
  | nil => exact (pow_zero a).symm
  | cons b higher ih =>
      have hsq : powBits a higher * powBits a higher = a ^ (2 * natOfBits higher) := by
        rw [ih, ← pow_add, two_mul]
      cases b with
      | false =>
          show powBits a higher * powBits a higher = a ^ (0 + 2 * natOfBits higher)
          rw [hsq, Nat.zero_add]
      | true =>
          show powBits a higher * powBits a higher * a = a ^ (1 + 2 * natOfBits higher)
          rw [hsq, Nat.add_comm, pow_succ]

end Fp

/-! ## Digits of a number -/

/-- The low `n` digits of a number add up to its remainder. -/
theorem natOfBits_testBit (v n : Nat) :
    natOfBits ((List.range n).map v.testBit) = v % 2 ^ n := by
  induction n generalizing v with
  | zero => exact (Nat.mod_one v).symm
  | succ n ih =>
      have htail : (List.range n).map (v.testBit ∘ Nat.succ) = (List.range n).map (v / 2).testBit :=
        List.map_congr_left fun i _ => Nat.testBit_succ v i
      rw [List.range_succ_eq_map, List.map_cons, List.map_map, htail]
      show (v.testBit 0).toNat + 2 * natOfBits ((List.range n).map (v / 2).testBit)
        = v % 2 ^ (n + 1)
      rw [ih, Nat.testBit_zero, Nat.pow_succ, Nat.mul_comm (2 ^ n) 2, Nat.mod_mul]
      congr 1
      rcases Nat.mod_two_eq_zero_or_one v with h | h <;> simp [h]

/-- A number has no more digits than the list that spells it. -/
theorem natOfBits_lt (bits : List Bool) : natOfBits bits < 2 ^ bits.length := by
  induction bits with
  | nil => exact Nat.one_pos
  | cons b bits ih =>
      show b.toNat + 2 * natOfBits bits < 2 ^ (bits.length + 1)
      have hb : b.toNat ≤ 1 := Bool.toNat_le b
      rw [Nat.pow_succ]
      omega

/-- Digits that come later count for more. -/
theorem natOfBits_append (bits bits' : List Bool) :
    natOfBits (bits ++ bits') = natOfBits bits + 2 ^ bits.length * natOfBits bits' := by
  induction bits with
  | nil => rw [List.nil_append, List.length_nil, pow_zero, one_mul, natOfBits, zero_add]
  | cons b bits ih =>
      show b.toNat + 2 * natOfBits (bits ++ bits') = b.toNat + 2 * natOfBits bits + _
      rw [ih, List.length_cons, pow_succ]
      ring

/-- The digits of a number that is spelt are those of the list. -/
theorem testBit_natOfBits (bits : List Bool) (i : Nat) :
    (natOfBits bits).testBit i = bits.getD i false := by
  induction bits generalizing i with
  | nil => exact Nat.zero_testBit i
  | cons b bits ih =>
      cases i with
      | zero =>
          show (b.toNat + 2 * natOfBits bits).testBit 0 = b
          rw [Nat.testBit_zero, Nat.add_mul_mod_self_left]
          cases b <;> rfl
      | succ i =>
          -- the other digits are those of the half
          have hdiv : (b.toNat + 2 * natOfBits bits) / 2 = natOfBits bits := by
            have hb : b.toNat ≤ 1 := Bool.toNat_le b
            omega
          show (b.toNat + 2 * natOfBits bits).testBit (i + 1) = bits.getD i false
          rw [Nat.testBit_succ, hdiv, ih]

namespace Fp

variable {p : Nat} [Modulus p]

/-- Exponentiation by squaring gives the power. -/
theorem pow_eq (a : Fp p) (n : Nat) : pow a n = a ^ n := by
  show powBits a ((List.range (n.log2 + 1)).map n.testBit) = a ^ n
  rw [powBits_eq, natOfBits_testBit, Nat.mod_eq_of_lt Nat.lt_log2_self]

/-- The weight of a digit is the power of two that it stands for. -/
theorem pow2_eq_cast (n : Nat) : (pow2 n : Fp p) = ((2 ^ n : Nat) : Fp p) := by
  show pow ((2 : Nat) : Fp p) n = _
  rw [pow_eq, Nat.cast_pow]

/-! ## Prime moduli -/

/-- A number of at most as many digits as the capacity is below the modulus. -/
theorem two_pow_le_of_le_capacity {n : Nat} (h : n ≤ capacity p) : 2 ^ n ≤ p :=
  (Nat.pow_le_pow_right Nat.two_pos h).trans (Nat.log2_self_le (Modulus.pos p).ne')

/-- The capacity is the largest number of digits that every number below the
    modulus allows. -/
theorem le_capacity_of_two_pow_le {n : Nat} (h : 2 ^ n ≤ p) : n ≤ capacity p :=
  (Nat.le_log2 (Modulus.pos p).ne').mpr h

section Prime

variable (hp : p.Prime)

include hp

/-- For a prime modulus a product is zero where a factor is. -/
theorem mul_eq_zero_iff {a b : Fp p} : a * b = 0 ↔ a = 0 ∨ b = 0 := by
  have : Fact p.Prime := ⟨hp⟩
  have hmul : toZMod (a * b) = toZMod a * toZMod b :=
    (toZMod_ofNat _).trans (Nat.cast_mul a.val b.val)
  have hzero : toZMod (0 : Fp p) = 0 := (toZMod_ofNat 0).trans Nat.cast_zero
  rw [← toZMod_injective.eq_iff, hmul, hzero, mul_eq_zero, ← hzero,
    toZMod_injective.eq_iff, toZMod_injective.eq_iff]

/-- An element that is its own square is zero or one. -/
theorem eq_zero_or_one_of_mul_self {a : Fp p} (h : (1 - a) * a = 0) : a = 0 ∨ a = 1 := by
  rcases (mul_eq_zero_iff hp).mp h with h | h
  · exact Or.inr (sub_eq_zero.mp h).symm
  · exact Or.inl h

/-- A prime is at least two. -/
theorem one_ne_zero : (1 : Fp p) ≠ 0 := by
  intro h
  have hv := congrArg val h
  rw [val_one, val_zero, Nat.mod_eq_of_lt hp.one_lt] at hv
  exact Nat.one_ne_zero hv

/-- The inverse of a nonzero element. -/
theorem mul_inv_cancel {a : Fp p} (ha : a ≠ 0) : a * inv a = 1 := by
  have : Fact p.Prime := ⟨hp⟩
  have hz : toZMod a ≠ 0 := by
    intro h
    exact ha (toZMod_injective (h.trans ((toZMod_ofNat 0).trans Nat.cast_zero).symm))
  rw [inv, if_neg ha, pow_eq, ← pow_succ', show p - 2 + 1 = p - 1 by have := hp.two_le; omega]
  apply toZMod_injective
  calc toZMod (a ^ (p - 1)) = toZMod a ^ (p - 1) := toZMod_pow a (p - 1)
    _ = 1 := ZMod.pow_card_sub_one_eq_one hz
    _ = toZMod 1 := toZMod_one.symm

end Prime

end Fp

end RankOne
