import Mathlib.Data.List.Prime
import Mathlib.NumberTheory.LucasPrimality
import Mathlib.Tactic.NormNum.Prime
import RankOne.Field.Moduli
import RankOne.Proofs.Residue

/-!
# Primes — the modulus of a scalar field

    A number `p` is prime when the powers of some residue run through all of
    the `p - 1` residues but zero.  The field's own exponentiation checks that
    a residue does, for the modulus and for the large primes that divide the
    number before it.
-/

namespace RankOne

/-- The powers of `a` run through `p - 1` residues, as far as the given factors
    of `p - 1` tell. -/
def Generates (p : Nat) [Modulus p] (a : Nat) (factors : List Nat) : Prop :=
  factors.prod = p - 1 ∧ (Fp.pow (Fp.ofNat a : Fp p) (p - 1)) = 1 ∧
    ∀ q ∈ factors, Fp.pow (Fp.ofNat a : Fp p) ((p - 1) / q) ≠ 1

instance (p : Nat) [Modulus p] (a : Nat) (factors : List Nat) :
    Decidable (Generates p a factors) :=
  inferInstanceAs (Decidable (_ ∧ _ ∧ _))

/-- A modulus with a generator is prime, if the factors that were tried are. -/
theorem prime_of_generates {p : Nat} [Modulus p] {a : Nat} {factors : List Nat}
    (h : Generates p a factors) (hprime : ∀ q ∈ factors, q.Prime) : p.Prime := by
  obtain ⟨hprod, hfull, hpart⟩ := h
  have hpow : ∀ n, Fp.pow (Fp.ofNat a : Fp p) n = 1 ↔ (Fp.ofNat a : Fp p).toZMod ^ n = 1 := by
    intro n
    rw [Fp.pow_eq, ← Fp.toZMod_injective.eq_iff, Fp.toZMod_one]
    exact (Fp.toZMod_pow _ n).congr_left
  refine lucas_primality p (Fp.ofNat a : Fp p).toZMod ((hpow _).mp hfull) fun q hq hdvd => ?_
  rw [← hprod] at hdvd
  obtain ⟨q', hmem, hdvd'⟩ := (Prime.dvd_prod_iff hq.prime).mp hdvd
  obtain rfl := (Nat.prime_dvd_prime_iff_eq hq (hprime q' hmem)).mp hdvd'
  exact fun h => hpart q hmem ((hpow _).mpr h)

namespace Moduli

/-! ## The scalar field of BN256 -/

private instance : Modulus 405928799 := ⟨by decide⟩

private instance : Modulus 12048837557 := ⟨by decide⟩

private instance : Modulus 5156902474397 := ⟨by decide⟩

private instance : Modulus 1670836401704629 := ⟨by decide⟩

private instance : Modulus 639533339 := ⟨by decide⟩

private instance : Modulus 65865678001877903 := ⟨by decide⟩

private instance : Modulus 13818364434197438864469338081 := ⟨by decide⟩

/-- The number before 405928799 is a product of small primes, and 22 generates
    the residues. -/
private theorem prime_405928799 : Nat.Prime 405928799 := by
  have h : Generates 405928799 22 [2, 11, 3691, 4999] := by decide +kernel
  exact prime_of_generates h (by norm_num)

/-- Two generates the residues modulo 12048837557. -/
private theorem prime_12048837557 : Nat.Prime 12048837557 := by
  have h : Generates 12048837557 2 [2, 2, 7, 7, 661, 93001] := by decide +kernel
  exact prime_of_generates h (by norm_num)

/-- The largest factor of its predecessor is the prime before. -/
private theorem prime_5156902474397 : Nat.Prime 5156902474397 := by
  have h : Generates 5156902474397 2 [2, 2, 107, 12048837557] := by decide +kernel
  refine prime_of_generates h ?_
  simp only [List.forall_mem_cons, prime_12048837557]
  norm_num

/-- Here too, so that the chain has three links. -/
private theorem prime_1670836401704629 : Nat.Prime 1670836401704629 := by
  have h : Generates 1670836401704629 2 [2, 2, 3, 3, 3, 3, 5156902474397] := by decide +kernel
  refine prime_of_generates h ?_
  simp only [List.forall_mem_cons, prime_5156902474397]
  norm_num

/-- A second chain begins with a product of small primes. -/
private theorem prime_639533339 : Nat.Prime 639533339 := by
  have h : Generates 639533339 2 [2, 229, 853, 1637] := by decide +kernel
  exact prime_of_generates h (by norm_num)

/-- Five generates the residues, and the largest factor of the predecessor is
    the prime before. -/
private theorem prime_65865678001877903 : Nat.Prime 65865678001877903 := by
  have h : Generates 65865678001877903 5 [2, 83, 379, 1637, 639533339] := by decide +kernel
  refine prime_of_generates h ?_
  simp only [List.forall_mem_cons, prime_639533339]
  norm_num

/-- The last link of the second chain. -/
private theorem prime_13818364434197438864469338081 :
    Nat.Prime 13818364434197438864469338081 := by
  have h : Generates 13818364434197438864469338081 3
      [2, 2, 2, 2, 2, 5, 823, 1593227, 65865678001877903] := by decide +kernel
  refine prime_of_generates h ?_
  simp only [List.forall_mem_cons, prime_65865678001877903]
  norm_num

/-- The modulus of BN256's scalar field is prime: five generates its residues,
    and the factors of its predecessor are small or among the above. -/
theorem bn256_prime : bn256.Prime := by
  have h : Generates bn256 5 (List.replicate 28 2 ++ [3, 3, 13, 29, 983, 11003, 237073, 405928799,
      1670836401704629, 13818364434197438864469338081]) := by decide +kernel
  refine prime_of_generates h (List.forall_mem_append.mpr ⟨fun q hq => ?_, ?_⟩)
  · rw [List.eq_of_mem_replicate hq]
    exact Nat.prime_two
  · simp only [List.forall_mem_cons, prime_405928799, prime_1670836401704629,
      prime_13818364434197438864469338081]
    norm_num

end Moduli

end RankOne
