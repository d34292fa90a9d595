import RankOne.Field

/-!
# Moduli — the prime fields that circuits are built over

    Two large fields of elliptic curves, one of 64 bits and one of 17 bits.  The
    small two are there because every gadget has widths which only a large field
    can hold.
-/

namespace RankOne.Moduli

/-- The scalar field of the curve BN256. -/
def bn256 : Nat := 0x30644e72e131a029b85045b68181585d2833e84879b9709143e1f593f0000001

/-- The base field of the curve Pluto. -/
def pluto : Nat :=
  0x24000000000024000130e0000d7f70e4a803ca76f439266f443f9a5cda8a6c7be4a7a5fe8fadffd6a2a7e8c30006b9459ffffcd300000001

/-- The prime just below two to the 64th. -/
def goldilocks : Nat := 18446744069414584321

/-- The fifth Fermat prime. -/
def fermat : Nat := 65537

instance : Modulus bn256 := ⟨by decide⟩

instance : Modulus pluto := ⟨by decide⟩

instance : Modulus goldilocks := ⟨by decide⟩

instance : Modulus fermat := ⟨by decide⟩

end RankOne.Moduli
