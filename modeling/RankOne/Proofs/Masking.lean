import RankOne.Masked
import RankOne.Proofs.Answers
import RankOne.Proofs.Lockstep
import RankOne.Proofs.Order

/-!
# Masking — assertions that bind where they are enabled

    A masked assertion is the plain one on operands that were selected: the
    given ones where it is enabled, and two defaults that satisfy it where it
    is not.  So its rows ask for what the plain assertion asks for, on the
    condition that it is enabled, and for nothing else.

    `Masks body P` collects what is shown of one gadget.  What follows for a
    gadget in a circuit, `BindsWhenEnabled`, is derived from that once for all
    of them.
-/

namespace RankOne.Num

open Build

variable {p : Nat} [Modulus p]

/-! ## Masked operands -/

section Forces

variable {z : Variable → Fp p} (one : z .one = 1) (enabled a b : Num p)

include one

/-- The two rows replace both operands where the condition is zero. -/
theorem forces_mask (u v : Fp p) :
    Forces z (mask enabled a b u v) fun ab =>
      (z enabled.var = 1 → z ab.1.var = z a.var ∧ z ab.2.var = z b.var) ∧
        (z enabled.var = 0 → z ab.1.var = u ∧ z ab.2.var = v) := by
  refine (forces_constant one u).within.bind fun aDefault => ?_
  refine (forces_constant one v).within.bind fun bDefault => ?_
  refine (forces_select enabled a aDefault).within.bind fun a' => ?_
  refine (forces_select enabled b bDefault).within.bind fun b' => Forces.pure ?_
  intro hb ha hv hu
  refine ⟨fun h => ⟨ha.1 h, hb.1 h⟩, fun h => ⟨?_, ?_⟩⟩
  · rw [ha.2 h, hu]
  · rw [hb.2 h, hv]

theorem forces_assertEqualIf :
    Forces z (assertEqualIf enabled a b) fun _ => z enabled.var = 1 → z a.var = z b.var := by
  refine (forces_mask one enabled a b 0 0).within.bind fun ab => ?_
  refine (forces_assertEqual one ab.1 ab.2).within.mono fun _ heq hmask h => ?_
  rw [← (hmask.1 h).1, ← (hmask.1 h).2, heq]

end Forces

section Honest

variable {w : Witness p} (hp : p.Prime) {enabled a b : Num p} {c : Bool} {u v : Fp p}
  (hc : enabled.Live w (Fp.ofBool c)) (ha : a.Live w u) (hb : b.Live w v)

include hp hc ha hb

/-- On a condition that is a truth value both selections are satisfied. -/
theorem honest_mask (u' v' : Fp p) : Honest w (mask enabled a b u' v') fun w' ab =>
    ab.1.Live w' (if c then u else u') ∧ ab.2.Live w' (if c then v else v') := by
  refine (honest_constant u').within.bind fun w₁ aDefault hle₁ hu' => ?_
  refine (honest_constant v').within.bind fun w₂ bDefault hle₂ hv' => ?_
  have hle := hle₁.trans hle₂
  refine (honest_select hp (hc.mono hle) (ha.mono hle) (hu'.mono hle₂)).within.bind
    fun w₃ a' hle₃ ha' => ?_
  have hle' := hle.trans hle₃
  refine (honest_select hp (hc.mono hle') (hb.mono hle') (hv'.mono hle₃)).within.bind
    fun w₄ b' hle₄ hb' => Honest.pure fun w₅ hle₅ => ?_
  exact ⟨ha'.mono (hle₄.trans hle₅), hb'.mono hle₅⟩

/-- Values that are equal where it matters satisfy the rows. -/
theorem honest_assertEqualIf (h : c = true → u = v) :
    Honest w (assertEqualIf enabled a b) fun _ _ => True := by
  refine (honest_mask hp hc ha hb 0 0).within.bind fun w₁ ab _ hab => ?_
  refine (honest_assertEqual hab.1 ?_).within
  cases c with
  | false => exact hab.2
  | true =>
      rw [if_pos rfl, h rfl]
      exact hab.2

end Honest

section Follows

variable {m m' : Mode} [Mode.AsksLess m m'] {enabled enabled' a a' b b' : Num p}
  (hc : enabled.Alike m enabled') (ha : a.Alike m a') (hb : b.Alike m b')

include hc ha hb

/-- Masks of numbers alike run alike. -/
theorem follows_mask (u v : Fp p) :
    Follows m m' (mask enabled a b u v) (mask enabled' a' b' u v) fun ab ab' =>
      ab.1.Alike m ab'.1 ∧ ab.2.Alike m ab'.2 := by
  refine (follows_constant u).within.bind fun _ _ hu => ?_
  refine (follows_constant v).within.bind fun _ _ hv => ?_
  refine (follows_select hc ha hu).within.bind fun _ _ hau => ?_
  exact (follows_select hc hb hv).within.bind fun _ _ hbv => Follows.pure ⟨hau, hbv⟩

theorem follows_assertEqualIf :
    Follows m m' (assertEqualIf enabled a b) (assertEqualIf enabled' a' b') fun _ _ => True :=
  (follows_mask hc ha hb 0 0).within.bind fun _ _ h => (follows_assertEqual h.1 h.2).within

theorem follows_assertDifferentIf :
    Follows m m' (assertDifferentIf enabled a b) (assertDifferentIf enabled' a' b')
      fun _ _ => True := by
  refine (follows_mask hc ha hb 0 1).within.bind fun ab ab' h => ?_
  refine (follows_alloc fun hm => ?_).within.bind fun diff diff' hdiff => ?_
  · rw [h.1.solved hm, h.2.solved hm]
  refine (Follows.enforce ?_ rfl hdiff.lc).bind fun _ _ _ => (follows_assertNonzero hdiff).within
  rw [h.1.lc, h.2.lc]

end Follows

section Compiling

variable (enabled a b : Num p)

/-- The two selections have a namespace each. -/
theorem tidy_mask (u v : Fp p) : Tidy (mask enabled a b u v) fun _ => True := by
  refine Compiles.tidy (N := ["a default", "b default", "a", "b"]) ?_ (by decide)
  refine (tidy_constant _).within.step fun _ _ => (tidy_constant _).within.step fun _ _ => ?_
  refine (tidy_select _ _ _).within.step fun _ _ => (tidy_select _ _ _).within.step fun _ _ => ?_
  exact Compiles.pure trivial

theorem tidy_assertEqualIf : Tidy (assertEqualIf enabled a b) fun _ => True := by
  refine Compiles.tidy (N := ["mask", "eq"]) ?_ (by decide)
  exact (tidy_mask _ _ _ _ _).within.step fun _ _ => (tidy_assertEqual _ _).within

end Compiling

/-- The condition may have any value. -/
theorem answers_mask {enabled a b : Num p} (u v : Fp p) (he : enabled.Known) (ha : a.Known)
    (hb : b.Known) : Answers (mask enabled a b u v) fun ab => ab.1.Known ∧ ab.2.Known := by
  refine (answers_constant u).within.bind fun _ hu => ?_
  refine (answers_constant v).within.bind fun _ hv => ?_
  refine (answers_select he ha hu).within.bind fun _ ha' => ?_
  exact (answers_select he hb hv).within.bind fun _ hb' => Answers.pure ⟨ha', hb'⟩

/-! ## The assertions -/

/-- What one masked gadget is worth: its rows force `P` of two numbers where a
    third one is one, values satisfy them on that condition, and neither its
    variables nor its rows depend on any value. -/
structure Masks (body : Num p → Num p → Num p → Build p SynthesisError Unit)
    (P : Fp p → Fp p → Prop) : Prop where
  forces : ∀ {z : Variable → Fp p}, z .one = 1 → ∀ enabled a b,
    Forces z (body enabled a b) fun _ => z enabled.var = 1 → P (z a.var) (z b.var)
  honest : ∀ {w : Witness p} {enabled a b : Num p} {c : Bool} {u v : Fp p},
    enabled.Live w (Fp.ofBool c) → a.Live w u → b.Live w v → (c = true → P u v) →
      Honest w (body enabled a b) fun _ _ => True
  follows : ∀ {m m' : Mode} [Mode.AsksLess m m'] {enabled enabled' a a' b b' : Num p},
    enabled.Alike m enabled' → a.Alike m a' → b.Alike m b' →
      Follows m m' (body enabled a b) (body enabled' a' b') fun _ _ => True
  tidy : ∀ enabled a b, Tidy (body enabled a b) fun _ => True
  answers : ∀ {enabled a b : Num p}, enabled.Known → a.Known → b.Known →
    Answers (body enabled a b) fun _ => True

section Gadgets

variable (hp : p.Prime)

include hp

/-- Masked equality asks for equality where it is enabled. -/
theorem masks_assertEqualIf : Masks (p := p) assertEqualIf (· = ·) where
  forces one := forces_assertEqualIf one
  honest := honest_assertEqualIf hp
  follows := follows_assertEqualIf
  tidy := tidy_assertEqualIf
  answers he ha hb :=
    (answers_mask 0 0 he ha hb).within.bind fun _ _ => (answers_assertEqual _ _).within

/-- Masked difference asks for difference where it is enabled. -/
theorem masks_assertDifferentIf : Masks (p := p) assertDifferentIf (· ≠ ·) where
  forces {z} one enabled a b := by
    refine (forces_mask one enabled a b 0 1).within.bind fun ab => ?_
    refine (Forces.aux _ _).within.bind fun diff => (Forces.enforce _ _ _ _).bind fun _ => ?_
    refine (forces_assertNonzero one hp diff).within.mono fun _ => ?_
    intro hnonzero hrow _ hmask henabled heq
    simp only [eval_lc, LinComb.eval_sub, LinComb.eval_one, one, mul_one] at hrow
    rw [(hmask.1 henabled).1, (hmask.1 henabled).2, heq, sub_self] at hrow
    exact hnonzero hrow.symm
  honest {w enabled a b c u v} he ha hb h := by
    refine (honest_mask hp he ha hb 0 1).within.bind fun w₁ ab _ hab => ?_
    obtain ⟨a', b'⟩ := ab
    obtain ⟨ha', hb'⟩ := hab
    dsimp only at ha' hb' ⊢
    rw [ha'.1, hb'.1]
    refine (honest_alloc _).within.bind fun w₂ diff hle hdiff => ?_
    refine (Honest.enforce fun z hz => ?_).bind fun w₃ _ hle' _ => ?_
    · simp [hdiff.eval hz, (ha'.mono hle).eval hz, (hb'.mono hle).eval hz, hz.one]
    refine (honest_assertNonzero hp (hdiff.mono hle') fun hzero => ?_).within
    cases c with
    -- the defaults are zero and one
    | false => exact Fp.one_ne_zero hp (sub_eq_zero.mp hzero).symm
    | true => exact h rfl (sub_eq_zero.mp hzero)
  follows := follows_assertDifferentIf
  tidy enabled a b := by
    refine Compiles.tidy (N := ["mask", "diff", "diff = a - b", "ne"]) ?_ (by decide)
    refine (tidy_mask _ _ _ _ _).within.step fun _ _ => (tidy_alloc _).within.step fun _ _ => ?_
    exact (Compiles.enforce _ _ _ _).step fun _ _ => (tidy_assertNonzero _).within
  answers he ha hb := by
    refine (answers_mask 0 1 he ha hb).within.bind fun ab hab => ?_
    obtain ⟨a', b'⟩ := ab
    obtain ⟨⟨u, hu⟩, v, hv⟩ := hab
    dsimp only at hu hv ⊢
    rw [hu, hv]
    refine (answers_alloc (u - v)).within.bind fun _ hdiff => ?_
    exact (Answers.enforce _ _ _ _).bind fun _ _ => (answers_assertNonzero ⟨_, hdiff⟩).within

end Gadgets

/-- An ordering assertion on masked operands.  The defaults are zero and the
    least number that is not too small beside it. -/
def assertGapIf (outer name : String) (k : Nat) (enabled a b : Num p) (n : Nat) :
    Build p SynthesisError Unit := do
  let (a, b) ← Build.within "mask" <| mask enabled a b 0 (k : Fp p)
  Build.within outer <| assertGap name k a b n

/-- The masked comparison is a mask around the plain one. -/
theorem assertLessIf_eq (enabled a b : Num p) (n : Nat) :
    assertLessIf enabled a b n = assertGapIf "lt" "b - a - 1" 1 enabled a b n := rfl

theorem assertLessOrEqualIf_eq (enabled a b : Num p) (n : Nat) :
    assertLessOrEqualIf enabled a b n = assertGapIf "le" "b - a" 0 enabled a b n := rfl

/-- The defaults of an ordering assertion are in order. -/
theorem gap_defaults (hp : p.Prime) {k n : Nat} (hk : k ≤ 1) (hn : 0 < n) :
    Fp.Gap n k (0 : Fp p) (k : Fp p) := by
  have hval : (k : Fp p).val = k := Fp.val_cast_of_lt (hk.trans_lt hp.one_lt)
  have hone : 1 < 2 ^ n := Nat.one_lt_two_pow hn.ne'
  refine (Fp.gap_iff hk _ _).mpr ?_
  rw [hval, Fp.val_zero]
  omega

section Ordering

variable {outer name : String} {k n : Nat}

theorem follows_assertGapIf {m m' : Mode} [Mode.AsksLess m m'] {enabled enabled' a a' b b' : Num p}
    (he : enabled.Alike m enabled') (ha : a.Alike m a') (hb : b.Alike m b') :
    Follows m m' (assertGapIf outer name k enabled a b n)
      (assertGapIf outer name k enabled' a' b' n) fun _ _ => True :=
  (follows_mask he ha hb 0 _).within.bind fun _ _ h => (follows_assertGap name k n h.1 h.2).within

/-- The mask and the comparison have a namespace each. -/
theorem tidy_assertGapIf (houter : Naming.Distinct ["mask", outer])
    (hname : Naming.Distinct ["a range", "b range", name]) (hn : n ≤ Fp.capacity p)
    (enabled a b : Num p) : Tidy (assertGapIf outer name k enabled a b n) fun _ => True := by
  refine Compiles.tidy (N := ["mask", outer]) ?_ houter
  exact (tidy_mask _ _ _ _ _).within.step fun _ _ => (tidy_assertGap k hname _ _ hn).within

/-- A masked comparison asks for what the plain one does where it is enabled;
    the operands that stand in elsewhere pass. -/
theorem masks_assertGapIf (hp : p.Prime) (houter : Naming.Distinct ["mask", outer])
    (hname : Naming.Distinct ["a range", "b range", name]) (hk : k ≤ 1) (hpos : 0 < n)
    (hn : n ≤ Fp.capacity p) :
    Masks (p := p) (assertGapIf outer name k · · · n) (Fp.Gap n k) where
  forces one enabled a b := by
    refine (forces_mask one enabled a b 0 k).within.bind fun ab => ?_
    refine (forces_assertGap name k n hp one ab.1 ab.2).within.mono fun _ hgap hmask henabled => ?_
    rw [← (hmask.1 henabled).1, ← (hmask.1 henabled).2]
    exact hgap
  honest {w enabled a b c u v} he ha hb h := by
    refine (honest_mask hp he ha hb 0 k).within.bind fun w₁ ab _ hab => ?_
    refine (honest_assertGap name k n hab.1 hab.2 hn ?_).within
    cases c with
    | false => exact gap_defaults hp hk hpos
    | true => exact h rfl
  follows := follows_assertGapIf
  tidy := tidy_assertGapIf houter hname hn
  answers he ha hb :=
    (answers_mask 0 _ he ha hb).within.bind fun _ hab =>
      (answers_assertGap name k hn hab.1 hab.2).within

end Ordering

/-- A condition may be written otherwise. -/
theorem Masks.congr {body : Num p → Num p → Num p → Build p SynthesisError Unit}
    {P P' : Fp p → Fp p → Prop} (h : Masks body P) (hP : ∀ u v, P u v ↔ P' u v) :
    Masks body P' := by
  obtain rfl : P = P' := funext fun u => funext fun v => propext (hP u v)
  exact h

/-- Below the capacity the masked assertion is about the order of numbers. -/
theorem masks_assertLessIf (hp : p.Prime) {n : Nat} (hpos : 0 < n) (hn : 2 ^ (n + 1) ≤ p) :
    Masks (p := p) (assertLessIf · · · n) fun u v => u.val < v.val ∧ v.val < 2 ^ n := by
  have hcap : n ≤ Fp.capacity p := Nat.le_of_succ_le (Fp.le_capacity_of_two_pow_le hn)
  have hmasks : Masks (p := p) (assertLessIf · · · n) (Fp.Gap n 1) :=
    masks_assertGapIf hp (by decide) (by decide) le_rfl hpos hcap
  refine hmasks.congr fun u v => ?_
  rw [Fp.gap_iff_of_two_pow_le le_rfl hn]
  omega

/-! ## A masked assertion in a circuit -/

/-- Whatever values its operands carry, the gadget compiles to the same
    system.  The rows of that can be solved exactly under `P` where the gadget
    is enabled, and always where it is not.  A solving run gives a result for
    any values, and they satisfy the rows wherever any do. -/
def BindsWhenEnabled (body : Num p → Num p → Num p → Build p SynthesisError Unit) (s : System p)
    (enabled a b : Variable) (P : (Variable → Fp p) → Prop) : Prop :=
  ∃ s', (∀ c u v, body ⟨enabled, c⟩ ⟨a, u⟩ ⟨b, v⟩ .compiling s = .ok () s') ∧
    ∀ z : Variable → Fp p, z .one = 1 → z enabled = 0 ∨ z enabled = 1 →
      (z enabled = 1 → (s'.SolvableSince s z ↔ P z)) ∧
      (z enabled = 0 → s'.SolvableSince s z) ∧
      ∀ u, s.Paired u → u.witness.Fits z →
        ∃ u', body ⟨enabled, some (z enabled)⟩ ⟨a, some (z a)⟩ ⟨b, some (z b)⟩ .solving u
            = .ok () u' ∧ s'.Paired u' ∧ s.Agrees z u'.witness.value ∧
          (s'.HoldsSince s u'.witness.value ↔ s'.SolvableSince s z)

/-- A masked gadget on a condition that is a truth value is decided by its
    rows. -/
theorem Masks.decides {body : Num p → Num p → Num p → Build p SynthesisError Unit}
    {P : Fp p → Fp p → Prop} (h : Masks body P) {s : System p} {enabled a b : Variable}
    (he : s.Allocated enabled) (ha : s.Allocated a) (hb : s.Allocated b) {z : Variable → Fp p}
    (one : z .one = 1) (hbit : z enabled = 0 ∨ z enabled = 1) :
    Decides s z (body ⟨enabled, none⟩ ⟨a, none⟩ ⟨b, none⟩)
      (body ⟨enabled, some (z enabled)⟩ ⟨a, some (z a)⟩ ⟨b, some (z b)⟩)
      (z enabled = 1 → P (z a) (z b)) (fun _ _ => True) fun _ _ => True where
  forces z' hz' := by
    rw [← hz' enabled he, ← hz' a ha, ← hz' b hb]
    exact (h.forces (hz'.one one) _ _ _).mono fun _ hP => ⟨hP, trivial⟩
  honest u hu hz hP := by
    have hlive := hu.live hz he
    rcases hbit with hzero | hone
    · refine h.honest (c := false) ?_ (hu.live hz ha) (hu.live hz hb) nofun
      rwa [hzero] at hlive ⊢
    · refine h.honest (c := true) ?_ (hu.live hz ha) (hu.live hz hb) fun _ => hP hone
      rwa [hone] at hlive ⊢
  shape := h.follows (alike_unknown _ _) (alike_unknown _ _) (alike_unknown _ _)
  self := h.follows (alike_refl _ _) (alike_refl _ _) (alike_refl _ _)

/-- So the rows of a masked gadget can be solved exactly where it is disabled or
    its condition holds. -/
theorem Masks.binds {body : Num p → Num p → Num p → Build p SynthesisError Unit}
    {P : Fp p → Fp p → Prop} (h : Masks body P) (hp : p.Prime) {s : System p}
    {enabled a b : Variable} (he : s.Allocated enabled) (ha : s.Allocated a)
    (hb : s.Allocated b) : BindsWhenEnabled body s enabled a b fun z => P (z a) (z b) := by
  obtain ⟨_, s', _, hrun, _⟩ := h.tidy ⟨enabled, none⟩ ⟨a, none⟩ ⟨b, none⟩ s
  refine ⟨s', fun c u v => ?_, fun z one hbit => ?_⟩
  -- a run with values is followed by the one without, which leaves what it does
  · obtain ⟨_, t, _, hrun', _⟩ := h.tidy ⟨enabled, c⟩ ⟨a, u⟩ ⟨b, v⟩ s
    obtain ⟨_, t', hfollower, rfl, _⟩ := h.follows (alike_unknown enabled c) (alike_unknown a u)
      (alike_unknown b v) Eq Lockstep.kept_eq s s t () rfl hrun'
    obtain ⟨_, rfl⟩ := EStateM.Result.ok.inj (hrun.symm.trans hfollower)
    exact hrun'
  · have hdecides := h.decides he ha hb one hbit
    have hsolvable := hdecides.solvableSince_iff hrun one
    refine ⟨fun hone => ?_, fun hzero => ?_, fun u hu hz => ?_⟩
    · rw [hsolvable]
      exact forall_prop_of_true hone
    · refine hsolvable.mpr fun hone => ?_
      exact absurd (hone.symm.trans hzero) (Fp.one_ne_zero hp)
    · obtain ⟨_, u', hrun', hpaired, hvalues, hholds, _⟩ :=
        hdecides.solved hrun (h.answers ⟨_, rfl⟩ ⟨_, rfl⟩ ⟨_, rfl⟩) hu hz
      exact ⟨u', hrun', hpaired, hvalues, hholds.trans hsolvable.symm⟩

theorem BindsWhenEnabled.congr {body : Num p → Num p → Num p → Build p SynthesisError Unit}
    {s : System p} {enabled a b : Variable} {P P' : (Variable → Fp p) → Prop}
    (h : BindsWhenEnabled body s enabled a b P) (hP : ∀ z, z .one = 1 → (P z ↔ P' z)) :
    BindsWhenEnabled body s enabled a b P' := by
  obtain ⟨s', hrun, hvalues⟩ := h
  refine ⟨s', hrun, fun z one hbit => ?_⟩
  obtain ⟨henabled, hrest⟩ := hvalues z one hbit
  exact ⟨fun hone => (henabled hone).trans (hP z one), hrest⟩

/-- A masked ordering assertion asks for what the plain one asks for on the
    same operands. -/
theorem binds_assertGapIf (hp : p.Prime) {outer name : String} {k n : Nat}
    (houter : Naming.Distinct ["mask", outer])
    (hname : Naming.Distinct ["a range", "b range", name]) (hk : k ≤ 1) (hpos : 0 < n)
    (hn : n ≤ Fp.capacity p) {s : System p} {enabled a b : Variable} (he : s.Allocated enabled)
    (ha : s.Allocated a) (hb : s.Allocated b) :
    ∃ t, assertGap name k ⟨a, none⟩ ⟨b, none⟩ n .compiling s = .ok () t ∧
      BindsWhenEnabled (assertGapIf outer name k · · · n) s enabled a b (t.SolvableSince s) := by
  obtain ⟨t, hrun⟩ := (assertGap_ok_iff (s := s) (a := a) (b := b) name k hname).mpr hn
  refine ⟨t, hrun, ?_⟩
  have hmasks := masks_assertGapIf hp (n := n) houter hname hk hpos hn
  exact (hmasks.binds hp he ha hb).congr fun z one =>
    (solvableSince_assertGap name k hp ha hb one hrun).symm

/-- Where they are enabled, the masked assertions ask of their operands that
    they are equal, that they differ, and what the two ordering assertions ask
    for.  Where they are disabled they ask for nothing. -/
theorem masked_exact (hp : p.Prime) {s : System p} {enabled a b : Variable}
    (he : s.Allocated enabled) (ha : s.Allocated a) (hb : s.Allocated b) :
    BindsWhenEnabled assertEqualIf s enabled a b (fun z => z a = z b) ∧
    BindsWhenEnabled assertDifferentIf s enabled a b (fun z => z a ≠ z b) ∧
    ∀ n, 0 < n → n ≤ Fp.capacity p →
      (∃ t, assertLess ⟨a, none⟩ ⟨b, none⟩ n .compiling s = .ok () t ∧
        BindsWhenEnabled (assertLessIf · · · n) s enabled a b (t.SolvableSince s)) ∧
      ∃ t, assertLessOrEqual ⟨a, none⟩ ⟨b, none⟩ n .compiling s = .ok () t ∧
        BindsWhenEnabled (assertLessOrEqualIf · · · n) s enabled a b (t.SolvableSince s) := by
  refine ⟨(masks_assertEqualIf hp).binds hp he ha hb,
    (masks_assertDifferentIf hp).binds hp he ha hb, fun n hpos hn => ⟨?_, ?_⟩⟩
  · simp only [assertLess_eq, assertLessIf_eq]
    exact binds_assertGapIf hp (by decide) (by decide) le_rfl hpos hn he ha hb
  · simp only [assertLessOrEqual_eq, assertLessOrEqualIf_eq]
    exact binds_assertGapIf hp (by decide) (by decide) zero_le_one hpos hn he ha hb

/-- Nine is not less than four, and both are too large for a width of two. -/
theorem masked_exact_nineFour : ∃ s' : System Moduli.bn256,
    assertLessIf ⟨.aux 0, none⟩ ⟨.aux 1, none⟩ ⟨.aux 2, none⟩ 2 .compiling (.ofCount 3)
        = .ok () s' ∧
      s'.SolvableSince (.ofCount 3) (Variable.assign [0, 9, 4]) ∧
      ¬ s'.SolvableSince (.ofCount 3) (Variable.assign [1, 9, 4]) := by
  have hcap : 2 ≤ Fp.capacity Moduli.bn256 := Fp.le_capacity_of_two_pow_le (by decide)
  have h0 : (System.ofCount 3 : System Moduli.bn256).Allocated (.aux 0) := by decide
  have h1 : (System.ofCount 3 : System Moduli.bn256).Allocated (.aux 1) := by decide
  have h2 : (System.ofCount 3 : System Moduli.bn256).Allocated (.aux 2) := by decide
  obtain ⟨⟨t, hplain, s', hrun, hbinds⟩, _⟩ :=
    (masked_exact Moduli.bn256_prime h0 h1 h2).2.2 2 (by decide) hcap
  refine ⟨s', hrun none none none, ?_, ?_⟩
  · exact (hbinds _ rfl (Or.inl rfl)).2.1 rfl
  · rw [(hbinds _ rfl (Or.inr rfl)).1 rfl,
      solvableSince_assertGap "b - a - 1" 1 Moduli.bn256_prime h1 h2 rfl hplain]
    decide

end RankOne.Num
