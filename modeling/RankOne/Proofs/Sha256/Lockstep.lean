import RankOne.Proofs.Sha256.Comparison

/-!
# Digests in lockstep

    Digests that hold the same kinds of bits, in compiling runs, are taken to
    such digests by every operation, also by one that fails half way: what is
    left then is alike as well.
-/

namespace RankOne.Sha256

open Build

variable {p : Nat} {α β : Type}

namespace Hashing

/-- Digests and systems that are related, each in its own way. -/
structure Together (D : Digest → Digest → Prop) (T : System p → System p → Prop)
    (c c' : Digest × System p) : Prop where
  digest : D c.1 c'.1
  system : T c.2 c'.2

/-! ## Runs in step -/

section InStep

variable {mode : Mode} {D : Digest → Digest → Prop} {T : System p → System p → Prop}
  {R : α → β → Prop}

/-- A circuit without a digest leaves both digests as they were. -/
theorem inStep_lift {x : Build p SynthesisError α} {y : Build p SynthesisError β}
    (h : InStep mode T x y R) : InStep mode (Together D T) (lift x) (lift y) R := by
  rintro ⟨d, s⟩ ⟨d', s'⟩ ⟨hd, hs⟩
  unfold lift
  rcases (h s s' hs).ok_or_error with ⟨a, t, b, t', hx, hy, ht, hab⟩ | ⟨e, t, t', hx, hy, ht⟩
  · simp only [hx, hy]
    exact .ok ⟨hd, ht⟩ hab
  · simp only [hx, hy]
    exact .error ⟨hd, ht⟩

/-- A namespace is opened and closed in the systems only. -/
theorem inStep_within {name : String} {T' : System p → System p → Prop} {x : Hashing p α}
    {y : Hashing p β} (henter : ∀ s s', T s s' →
      T' (recording mode (·.enter name) s) (recording mode (·.enter name) s'))
    (hleave : ∀ s s', T' s s' → T (recording mode (·.leave) s) (recording mode (·.leave) s'))
    (h : InStep mode (Together D T') x y R) :
    InStep mode (Together D T) (within name x) (within name y) R := by
  rintro ⟨d, s⟩ ⟨d', s'⟩ ⟨hd, hs⟩
  have hbody := h (d, recording mode (·.enter name) s)
    (d', recording mode (·.enter name) s') ⟨hd, henter s s' hs⟩
  unfold within
  rcases hbody.ok_or_error with ⟨a, t, b, t', hx, hy, ht, hab⟩ | ⟨e, t, t', hx, hy, ht⟩
  · simp only [hx, hy]
    exact .ok ⟨ht.digest, hleave _ _ ht.system⟩ hab
  · simp only [hx, hy]
    exact .error ⟨ht.digest, hleave _ _ ht.system⟩

/-- Both runs read their digests. -/
theorem inStep_digest : InStep mode (Together D T) digest digest D :=
  fun _ _ h => .ok h h.digest

/-- A change has to keep digests related. -/
theorem inStep_change {f g : Digest → Digest} (h : ∀ d d' : Digest, D d d' → D (f d) (g d')) :
    InStep mode (Together D T) (change f) (change g) fun _ _ => True :=
  fun _ _ hc => .ok ⟨h _ _ hc.digest, hc.system⟩ trivial

/-- A digest that is given up afterwards. -/
theorem inStep_run {d d' : Digest} (hd : D d d') {x : Hashing p α} {y : Hashing p β}
    (h : InStep mode (Together D T) x y R) : InStep mode T (run d x) (run d' y) R := by
  intro s s' hs
  unfold run
  rcases (h (d, s) (d', s') ⟨hd, hs⟩).ok_or_error with
    ⟨a, t, b, t', hx, hy, ht, hab⟩ | ⟨e, t, t', hx, hy, ht⟩
  · simp only [hx, hy]
    exact .ok ht.system hab
  · simp only [hx, hy]
    exact .error ht.system

end InStep

/-! ## Compiling runs -/

/-- Compiling runs on digests that are alike, in one system. -/
abbrev Lockstep (x : Hashing p α) (y : Hashing p β) (R : α → β → Prop) : Prop :=
  Build.Lockstep (Together (Digest.Alike .compiling) Eq) x y R

theorem lockstep_within {name : String} {x : Hashing p α} {y : Hashing p β} {R : α → β → Prop}
    (h : Lockstep x y R) : Lockstep (within name x) (within name y) R :=
  inStep_within (fun _ _ => congrArg _) (fun _ _ => congrArg _) h

theorem lockstep_inside {x : Hashing p α} {y : Hashing p β} {R : α → β → Prop}
    (h : Lockstep x y R) : (path : List String) → Lockstep (inside path x) (inside path y) R
  | [] => h
  | _ :: path => lockstep_within (lockstep_inside h path)

/-- Compiling runs on digests come to one outcome. -/
def lockstep [Modulus p] : Hashing.Comparison (.lockstep (p := p)) where
  rel := Lockstep
  pure := Build.Lockstep.pure
  throw := Build.Lockstep.throw
  bind := Build.Lockstep.bind
  within := lockstep_within
  lift := inStep_lift
  digest := InStep.mono inStep_digest fun _ _ => Digest.like_alike.mpr
  change h := inStep_change fun d d' hd =>
    Digest.like_alike.mp (h d d' (Digest.like_alike.mpr hd))

end Hashing

/-- Hashes of the same data come to one outcome. -/
theorem lockstep_sha256 [Modulus p] {ignore ignore' : LinNum p}
    (h : ignore.Alike .compiling ignore') (data : List (Num p)) :
    Build.Lockstep Eq (sha256 ignore data) (sha256 ignore' data) Eq := by
  have hdata : List.Forall₂ Eq data data := List.forall₂_same.mpr fun _ _ => rfl
  apply Hashing.inStep_run (Digest.alike_refl .compiling .new)
  apply (Hashing.lockstep_within (Digest.compare_writeNums Hashing.lockstep hdata)).bind
  intro _ _ _
  exact Hashing.lockstep_within (Digest.compare_sum Hashing.lockstep (Digest.alike_lengthField h))

end RankOne.Sha256
