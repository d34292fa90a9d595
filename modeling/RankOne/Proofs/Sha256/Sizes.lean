import RankOne.Proofs.Abreast
import RankOne.Proofs.Sha256.Lockstep
import RankOne.Proofs.Sha256.Operations

/-!
# Sizes of hashes — what a hash adds depends on its length only

    The padding of a message and the first hash are constants, and gates on
    them are folded away, so the blocks of a message do not all cost the same.
    Which bits are constants depends on nothing but the number of bytes: two
    hashes of equally many numbers are made of the same gates, wherever they
    are built and whatever bytes are ignored.
-/

namespace RankOne.Sha256

open Build

variable {p : Nat}

namespace Hashing

/-- Compiling runs on digests of similar bits add the same. -/
def abreast [Modulus p] : Hashing.Comparison (.abreast (p := p)) where
  rel x y R := ∀ s₀ t₀ ρ,
    InStep .compiling (Together (Digest.Like (p := p) .similar) (System.Abreast s₀ t₀ ρ)) x y R
  pure h _ _ _ := .pure h
  throw e R _ _ _ := .throw e R
  bind hx hfg s₀ t₀ ρ := (hx s₀ t₀ ρ).bind fun a b hab => hfg a b hab s₀ t₀ ρ
  within hx s₀ t₀ _ := inStep_within (fun _ _ => .enter) (fun _ _ => .leave) (hx s₀ t₀ _)
  lift hx s₀ t₀ ρ := inStep_lift (hx s₀ t₀ ρ)
  digest _ _ _ := inStep_digest
  change h _ _ _ := inStep_change h

end Hashing

variable [Modulus p]

theorem abreast_sha256 (ignore ignore' : LinNum p) {data data' : List (Num p)}
    (h : data.length = data'.length) :
    Abreast (sha256 ignore data) (sha256 ignore' data') fun _ _ => True := by
  have hdata : List.Forall₂ (fun _ _ : Num p => True) data data' :=
    List.forall₂_iff_get.mpr ⟨h, fun _ _ _ => trivial⟩
  intro s₀ t₀ ρ
  apply Hashing.inStep_run (Digest.like_startAt 0)
  apply InStep.bind (Hashing.abreast.within (Digest.compare_writeNums Hashing.abreast hdata)
    s₀ t₀ ρ)
  intro _ _ _
  exact Hashing.abreast.within (Digest.compare_sum Hashing.abreast fun _ => trivial) s₀ t₀ ρ

/-- Where there is room for the digits of a length, a hash of `count` numbers
    compiles, and always adds the same. -/
theorem exists_adds_sha256 (hcap : 64 ≤ Fp.capacity p) (count : Nat) :
    ∃ n, ∀ (ignore : LinNum p) (data : List (Num p)), data.length = count →
      Adds n (sha256 ignore data) fun _ => True := by
  -- any hash of so many numbers shows what all of them add
  let probe := List.replicate count (⟨.one, none⟩ : Num p)
  have hcompletes : Completes (sha256 (.const 0) probe) :=
    ((compiles_sha256 hcap (.const 0) probe).tidy (by decide)).completes
  obtain ⟨n, hn⟩ := Abreast.exists_adds hcompletes (abreast_sha256 _ _ rfl)
  refine ⟨n, fun ignore data hlength => hn _ (abreast_sha256 _ _ ?_)⟩
  rw [hlength, List.length_replicate]

end RankOne.Sha256
