/-!
# Prime fields — residues below a fixed modulus

    An element of `Fp p` is a natural number below `p`.  Addition and
    multiplication reduce modulo `p`; the inverse is the power `p - 2`, which is
    the multiplicative inverse when `p` is prime.  Nothing here asks `p` to be
    prime: that is a hypothesis of the laws which need it, never of the
    definitions.

    Each operation has one lemma which reads its value in `Nat`; the laws above
    this module speak of those values.
-/

namespace RankOne

/-- A number that residues can be taken modulo. -/
class Modulus (p : Nat) : Prop where
  pos (p) : 0 < p

/-- A residue modulo `p`, kept in its canonical range. -/
structure Fp (p : Nat) where
  val : Nat
  isLt : val < p
deriving DecidableEq

namespace Fp

variable {p : Nat}

theorem ext_val {a b : Fp p} (h : a.val = b.val) : a = b := by
  cases a; cases b; cases h; rfl

/-- The number of binary digits that every element below it can hold: one less
    than the length of the modulus. -/
def capacity (p : Nat) : Nat := p.log2

variable [Modulus p]

/-- The residue of a natural number. -/
def ofNat (n : Nat) : Fp p := ⟨n % p, Nat.mod_lt n (Modulus.pos p)⟩

/-- The residue of an integer, refused when it is negative. -/
def ofInt? (z : Int) : Option (Fp p) := if z < 0 then none else some (ofNat z.toNat)

instance : Zero (Fp p) := ⟨ofNat 0⟩

instance : One (Fp p) := ⟨ofNat 1⟩

instance : Inhabited (Fp p) := ⟨0⟩

instance : Add (Fp p) := ⟨fun a b => ofNat (a.val + b.val)⟩

instance : Mul (Fp p) := ⟨fun a b => ofNat (a.val * b.val)⟩

instance : Neg (Fp p) := ⟨fun a => ofNat (p - a.val)⟩

instance : Sub (Fp p) := ⟨fun a b => ofNat (a.val + (p - b.val))⟩

/-- The sum of an element with itself. -/
def double (a : Fp p) : Fp p := a + a

/-- The element that stands for a truth value. -/
def ofBool (b : Bool) : Fp p := if b then 1 else 0

/-- The power of `a` whose exponent has, from the top down, the binary digits
    listed from the bottom up. -/
def powBits (a : Fp p) : List Bool → Fp p
  | [] => 1
  | b :: higher =>
    let root := powBits a higher
    if b then root * root * a else root * root

/-- The binary digits of `n`, least significant first, with none after the
    leading one. -/
def digits (n : Nat) : List Bool := (List.range (n.log2 + 1)).map n.testBit

/-- Exponentiation by repeated squaring. -/
def pow (a : Fp p) (n : Nat) : Fp p := powBits a (digits n)

/-- The power of two with exponent `n`. -/
def pow2 (n : Nat) : Fp p := pow (ofNat 2) n

/-- The inverse of a nonzero element of a prime field; zero goes to zero. -/
def inv (a : Fp p) : Fp p := if a = 0 then 0 else pow a (p - 2)

/-! ## Values -/

@[simp] theorem val_ofNat (n : Nat) : (ofNat n : Fp p).val = n % p := rfl

@[simp] theorem val_zero : (0 : Fp p).val = 0 := Nat.zero_mod p

theorem val_one : (1 : Fp p).val = 1 % p := rfl

@[simp] theorem ofNat_val (a : Fp p) : ofNat a.val = a :=
  ext_val (Nat.mod_eq_of_lt a.isLt)

end Fp

end RankOne
