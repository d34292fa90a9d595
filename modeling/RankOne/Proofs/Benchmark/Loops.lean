import RankOne.Benchmark.Circuit
import RankOne.Proofs.FloorDivision
import RankOne.Proofs.Sha256.Soundness
import RankOne.Proofs.Sha256.Streaming

/-!
# Loops — gadgets repeated on the two inputs

    A loop whose rounds all ask the same of the inputs asks it once, and only
    if it has a round.  For each loop: what its rows force, that it succeeds
    on inputs of which it holds, and that its names begin like no other
    loop's.
-/

namespace RankOne.Benchmark

open Build Naming

variable {p : Nat}

/-! ## Repetition -/

/-- Loops run alike where each of their rounds does. -/
theorem follows_times {m m' : Mode} {body body' : Nat → Build p GadgetError Unit}
    (h : ∀ i, Follows m m' (body i) (body' i) fun _ _ => True) (count : Nat) :
    Follows m m' (times count body) (times count body') fun _ _ => True :=
  Follows.listForM (List.range count) h

/-- Rounds that carry their number in every name. -/
theorem labelled_times {body : Nat → Build p GadgetError Unit} {L : Nat → List Label}
    {stem : String} (h : ∀ i, Compiles ((L i).map Label.name) (body i) fun _ => True)
    (hnodup : ∀ i, (L i).Nodup) (hlabel : ∀ i, ∀ l ∈ L i, l.index? = some i ∧ l.stem = stem)
    (count : Nat) : Labelled [stem] (times count body) fun _ => True := by
  refine Labelled.of_compiles (L := (List.range count).flatMap L) ?_ ?_ ?_
  · rw [List.map_flatMap]
    exact Compiles.listForM _ fun i _ => h i
  · refine nodup_flatMap_labels List.nodup_range hnodup ?_
    intro i l hl
    exact (hlabel i l hl).1
  · intro l hl
    obtain ⟨i, -, hl⟩ := List.mem_flatMap.mp hl
    obtain ⟨-, hstem⟩ := hlabel i l hl
    exact List.mem_singleton.mpr hstem

/-- Rounds of one name each, which ends in their number. -/
theorem labelled_times_counted {body : Nat → Build p GadgetError Unit} (stem : String)
    (hstem : Stem stem) (h : ∀ i, Compiles [stem ++ toString i] (body i) fun _ => True)
    (count : Nat) : Labelled [stem] (times count body) fun _ => True := by
  refine labelled_times (L := fun i => [.counted stem hstem i]) h ?_ ?_ count
  · intro i
    exact List.nodup_singleton _
  · intro i l hl
    obtain rfl := List.mem_singleton.mp hl
    exact ⟨rfl, rfl⟩

variable [Modulus p]

/-- What every round forces, a loop forces if it has a round. -/
theorem forces_times {z : Variable → Fp p} {body : Nat → Build p GadgetError Unit} {Q : Prop}
    (h : ∀ i, Forces z (body i) fun _ => Q) (count : Nat) :
    Forces z (times count body) fun _ => 0 < count → Q := by
  have hrounds := Forces.listForM (Q := fun _ => Q) (List.range count) fun i _ => h i
  refine hrounds.mono fun _ hall hpos => ?_
  exact hall 0 (List.mem_range.mpr hpos)

/-- A loop succeeds where each round does; without a round nothing is asked. -/
theorem honest_times {w : Witness p} {body : Nat → Build p GadgetError Unit} {count : Nat}
    (h : 0 < count → ∀ i w', w ≤ w' → Honest w' (body i) fun _ _ => True) :
    Honest w (times count body) fun _ _ => True := by
  refine Honest.listForM (List.range count) ?_
  intro i hi w' hle
  have hpos : 0 < count := Nat.zero_lt_of_lt (List.mem_range.mp hi)
  exact h hpos i w' hle

/-! ## What the rows force -/

section Forces

variable {z : Variable → Fp p} (hp : p.Prime) (one : z .one = 1) (x y : Num p) (count : Nat)

include hp one

/-- Comparisons that hold force the order of their operands. -/
theorem forces_comparisons (hbig : 2 ^ 160 < p) : Forces z (comparisons x y count) fun _ =>
    0 < count → Fp.Ahead 160 (z y.var) (z x.var) := by
  refine forces_times (fun i => ?_) count
  refine (Comparator.forces_isLess hp one ⟨boundBits⟩ y x hbig).mapError.within.bind fun less => ?_
  refine (Bit.forces_enforceEqual_true one less).mapError.within.mono ?_
  intro _ hless hahead
  exact hahead hless

/-- So do asserted comparisons. -/
theorem forces_assertedComparisons (hbig : 2 ^ 160 < p) :
    Forces z (assertedComparisons x y count) fun _ =>
      0 < count → Fp.Ahead 160 (z y.var) (z x.var) := by
  refine forces_times (fun i => ?_) count
  exact (Comparator.forces_assertIsLess hp one ⟨boundBits⟩ y x hbig).mapError.within

/-- Floor divisions force a quotient within its bound, or a divisor of zero. -/
theorem forces_divisions (hbig : 2 ^ 224 < p) : Forces z (divisions x y count) fun _ =>
    0 < count → Division.Divides (z x.var).val (z y.var).val := by
  refine forces_times (fun i => ?_) count
  refine (Division.forces_floorDiv hp hbig one x y).within.bind fun quotient => ?_
  refine Forces.pure ?_
  intro hdivides
  exact hdivides

/-- Range checks force the operand below the bound. -/
theorem forces_rangeChecks : Forces z (rangeChecks x count) fun _ =>
    0 < count → (z x.var).val < 2 ^ 160 := by
  refine forces_times (fun i => ?_) count
  exact (Num.forces_rangeCheck hp one x boundBits).mapError.within

/-- One decomposition is enough to bound a number by what the field has room
    for. -/
theorem forces_decompose (n i : Nat) (bits : List Bit) : Forces z (decompose x n i bits) fun _ =>
    0 < n → (z x.var).val < 2 ^ Fp.capacity p := by
  induction n generalizing i bits with
  | zero => exact Forces.pure fun h => absurd h (Nat.lt_irrefl 0)
  | succ n ih =>
      refine (Num.forces_toBits hp one x _).mapError.within.bind fun digits => ?_
      refine (ih (i + 1) digits.toList).mono ?_
      intro _ _ hdigits _
      exact hdigits.1

/-- Without bits to start from, a recomposition needs a decomposition. -/
theorem forces_bitRoundTrips (bits : List Bit) (decompositions recompositions : Nat) :
    Forces z (bitRoundTrips x bits decompositions recompositions) fun _ =>
      bits = [] → 0 < decompositions + recompositions → (z x.var).val < 2 ^ Fp.capacity p := by
  refine (forces_decompose hp one x _ 0 bits).bind fun bits' => ?_
  refine (forces_times (Q := True) (fun i => ?_) recompositions).mono fun _ _ hbits hnil hpos => ?_
  · have hpacked : Forces z (Num.ofBits bits') fun _ => True :=
      (Num.forces_ofBits one bits').mono fun _ _ => trivial
    refine hpacked.mapError.within.bind fun packed => ?_
    exact (Num.forces_assertEqual one x packed).within.mono fun _ _ _ => trivial
  -- without digits to begin with, some are taken as soon as any loop runs
  · refine hbits ?_
    rw [hnil, List.isEmpty_nil, Bool.true_and]
    by_cases hrec : 0 < recompositions
    · rw [if_pos (decide_eq_true hrec)]
      omega
    · omega

end Forces

/-! ## Inputs on which a loop succeeds -/

section Honest

variable {w : Witness p} {x y : Num p} {u v : Fp p} {count : Nat} (hx : x.Live w u)
  (hy : y.Live w v)

include hx

/-- The bits have values, which are the digits of the number. -/
def Recover (w : Witness p) (bits : List Bit) (u : Fp p) : Prop :=
  ∃ vs, List.Forall₂ (Bit.Live w) bits vs ∧ (natOfBits vs : Fp p) = u

omit hx in
/-- Bits keep their values when a witness grows. -/
theorem Recover.mono {w' : Witness p} {bits : List Bit} (hle : w ≤ w') (h : Recover w bits u) :
    Recover w' bits u := by
  obtain ⟨vs, hbits, hvs⟩ := h
  exact ⟨vs, hbits.imp fun _ _ hb => hb.mono hle, hvs⟩

omit hx in
/-- The digits of a number that there is room for give the number back. -/
theorem recover_of_display {n : Nat} {bits : Vector Bit n} (h : Bit.Display w bits u.val)
    (hu : u.val < 2 ^ n) : Recover w bits.toList u := by
  refine ⟨_, Bit.forall₂_digits h, ?_⟩
  rw [natOfBits_testBit, Nat.mod_eq_of_lt hu, Fp.cast_val]

/-- Range checks succeed on an operand below the bound. -/
theorem honest_rangeChecks (hcap : 160 ≤ Fp.capacity p) (h : 0 < count → u.val < 2 ^ 160) :
    Honest w (rangeChecks x count) fun _ _ => True := by
  refine honest_times ?_
  intro hpos i w' hle
  have hcheck := Num.honest_rangeCheck (hx.mono hle) hcap (h hpos)
  exact hcheck.mapError.within

/-- Decompositions succeed on a number that the field has room for, and leave
    its digits. -/
theorem honest_decompose {bits : List Bit} (n i : Nat) (h : 0 < n → u.val < 2 ^ Fp.capacity p) :
    Honest w (decompose x n i bits) fun w' bits' =>
      0 < n ∨ Recover w bits u → Recover w' bits' u := by
  induction n generalizing w i bits with
  | zero =>
      refine Honest.pure fun w' hle hor => ?_
      exact (hor.resolve_left (Nat.lt_irrefl 0)).mono hle
  | succ n ih =>
      have hu := h (Nat.succ_pos n)
      refine (Num.honest_toBits hx le_rfl hu).mapError.within.bind fun w₁ digits hle hdigits => ?_
      refine (ih (hx.mono hle) (i + 1) fun _ => hu).mono fun w₂ bits' _ hrec _ => ?_
      exact hrec (Or.inr (recover_of_display hdigits hu))

/-- Recompositions succeed as well, on digits that were there or were taken. -/
theorem honest_bitRoundTrips {bits : List Bit} {decompositions recompositions : Nat}
    (hbits : bits = [] ∨ Recover w bits u)
    (h : 0 < decompositions + recompositions → u.val < 2 ^ Fp.capacity p) :
    Honest w (bitRoundTrips x bits decompositions recompositions) fun _ _ => True := by
  -- digits are taken only where one of the two loops runs
  have hneeded : 0 < max decompositions (if bits.isEmpty && 0 < recompositions then 1 else 0) →
      0 < decompositions + recompositions := by
    intro hpos
    by_cases hrec : 0 < recompositions
    · omega
    · rw [decide_eq_false hrec, Bool.and_false, if_neg Bool.false_ne_true] at hpos
      omega
  refine (honest_decompose hx _ 0 fun hpos => h (hneeded hpos)).bind fun w₁ bits' hle hrec => ?_
  refine honest_times fun hpos i w₂ hle₂ => ?_
  -- a recomposition finds digits, those it began with or some that were taken for it
  have hbits' : Recover w₁ bits' u := by
    refine hrec (hbits.imp_left fun hnil => ?_)
    rw [hnil, List.isEmpty_nil, Bool.true_and, if_pos (decide_eq_true hpos)]
    omega
  obtain ⟨vs, hvs, heq⟩ := hbits'.mono hle₂
  refine (Num.honest_ofBits hvs).mapError.within.bind fun w₃ packed hle₃ hpacked => ?_
  rw [heq] at hpacked
  exact (Num.honest_assertEqual (hx.mono ((hle.trans hle₂).trans hle₃)) hpacked).within

include hy

/-- Comparisons succeed on operands in order. -/
theorem honest_comparisons (hcap : 161 ≤ Fp.capacity p) (hbig : 2 ^ 160 < p)
    (h : 0 < count → Fp.Ahead 160 v u) : Honest w (comparisons x y count) fun _ _ => True := by
  refine honest_times ?_
  intro hpos i w' hle
  have hcompare := Comparator.honest_isLess ⟨boundBits⟩ (hy.mono hle) (hx.mono hle) hcap (h hpos)
    hbig
  refine hcompare.mapError.within.bind fun w₁ less _ hless => ?_
  exact (Bit.honest_enforceEqual_true hless).mapError.within

/-- So do asserted comparisons. -/
theorem honest_assertedComparisons (hcap : 160 ≤ Fp.capacity p) (hbig : 2 ^ 160 < p)
    (h : 0 < count → Fp.Ahead 160 v u) :
    Honest w (assertedComparisons x y count) fun _ _ => True := by
  refine honest_times ?_
  intro hpos i w' hle
  have hcompare := Comparator.honest_assertIsLess ⟨boundBits⟩ (hy.mono hle) (hx.mono hle) hcap
    (h hpos) hbig
  exact hcompare.mapError.within

/-- Floor divisions succeed where there is a quotient within its bound. -/
theorem honest_divisions (hp : p.Prime) (hbig : 2 ^ 224 < p)
    (h : 0 < count → Division.Divides u.val v.val) :
    Honest w (divisions x y count) fun _ _ => True := by
  refine honest_times ?_
  intro hpos i w' hle
  have hdivision := Division.honest_floorDiv hp hbig (hx.mono hle) (hy.mono hle) (h hpos)
  refine hdivision.within.bind fun w₁ quotient _ _ => ?_
  exact Honest.pure fun _ _ => trivial

end Honest

/-! ## Runs alike -/

section Follows

variable {m m' : Mode} [Mode.AsksLess m m'] {x x' y y' : Num p} (hx : x.Alike m x')
  (hy : y.Alike m y') (count : Nat)

include hx

/-- Range checks run alike on numbers alike. -/
theorem follows_rangeChecks :
    Follows m m' (rangeChecks x count) (rangeChecks x' count) fun _ _ => True := by
  refine follows_times (fun i => ?_) count
  exact (Num.follows_rangeCheck hx boundBits).mapError.within

/-- Decompositions run alike, and leave bits alike. -/
theorem follows_decompose {bits bits' : List Bit} (n i : Nat)
    (h : List.Forall₂ (Bit.Alike m) bits bits') :
    Follows m m' (decompose x n i bits) (decompose x' n i bits') (List.Forall₂ (Bit.Alike m)) := by
  induction n generalizing i bits bits' with
  | zero => exact Follows.pure h
  | succ n ih =>
      refine (Num.follows_toBits hx _).mapError.within.bind fun digits digits' hdigits => ?_
      exact ih (i + 1) (Bit.forall₂_alike hdigits)

/-- Decompositions with recompositions run alike. -/
theorem follows_bitRoundTrips {bits bits' : List Bit} (h : List.Forall₂ (Bit.Alike m) bits bits')
    (decompositions recompositions : Nat) :
    Follows m m' (bitRoundTrips x bits decompositions recompositions)
      (bitRoundTrips x' bits' decompositions recompositions) fun _ _ => True := by
  have hempty : bits.isEmpty = bits'.isEmpty := by
    cases h with
    | nil => rfl
    | cons _ _ => rfl
  rw [bitRoundTrips, hempty]
  refine (follows_decompose hx _ 0 h).bind fun b b' hb => ?_
  refine follows_times (fun i => ?_) _
  refine (Num.follows_ofBits hb).mapError.within.bind fun packed packed' hpacked => ?_
  exact (Follows.enforce hx.lc rfl hpacked.lc).within

include hy

/-- Comparisons run alike on numbers alike. -/
theorem follows_comparisons :
    Follows m m' (comparisons x y count) (comparisons x' y' count) fun _ _ => True := by
  refine follows_times (fun i => ?_) count
  refine (Comparator.follows_isLess _ hy hx).mapError.within.bind fun less less' hless => ?_
  exact (Bit.follows_enforceEqual hless (.const true)).mapError.within

/-- So do asserted comparisons. -/
theorem follows_assertedComparisons :
    Follows m m' (assertedComparisons x y count) (assertedComparisons x' y' count)
      fun _ _ => True := by
  refine follows_times (fun i => ?_) count
  exact (Comparator.follows_assertIsLess _ hy hx).mapError.within

/-- Floor divisions run alike on numbers alike. -/
theorem follows_divisions :
    Follows m m' (divisions x y count) (divisions x' y' count) fun _ _ => True := by
  refine follows_times (fun i => ?_) count
  refine (Division.follows_floorDiv hx hy).within.bind fun quotient quotient' _ => ?_
  exact Follows.pure trivial

end Follows

/-! ## Names -/

section Names

variable {x y : Num p} (count : Nat)

/-- A comparison has two names, for its result and for the assertion of it. -/
theorem labelled_comparisons (hcap : 161 ≤ Fp.capacity p) :
    Labelled ["is_less "] (comparisons x y count) fun _ => True := by
  refine labelled_times (L := fun i => [.counted "is_less " (by decide) i,
    .numbered "is_less " (by decide) i " holds" (by decide)]) ?_ ?_ ?_ count
  · intro i
    refine (Comparator.tidy_isLess ⟨boundBits⟩ y x hcap).mapError.within.step fun less hless => ?_
    obtain ⟨b, rfl⟩ := hless
    exact (Bit.tidy_enforceEqual_neg b).mapError.within
  · intro i
    simp [Label.counted]
  · intro i l hl
    rcases List.mem_pair.mp hl with rfl | rfl
    · exact ⟨rfl, rfl⟩
    · exact ⟨rfl, rfl⟩

/-- An asserted comparison has one name. -/
theorem labelled_assertedComparisons (hcap : 160 ≤ Fp.capacity p) :
    Labelled ["assert_is_less "] (assertedComparisons x y count) fun _ => True := by
  refine labelled_times_counted _ (by decide) ?_ count
  intro i
  exact (Comparator.tidy_assertIsLess _ y x hcap).mapError.within

/-- A floor division has one name. -/
theorem labelled_divisions (hcap : 161 ≤ Fp.capacity p) (hx : x.value = none) :
    Labelled ["floor_div "] (divisions x y count) fun _ => True := by
  refine labelled_times_counted _ (by decide) ?_ count
  intro i
  exact (Division.tidy_floorDiv_of_le hcap hx).within.map

/-- A range check has one name. -/
theorem labelled_rangeChecks (hcap : 160 ≤ Fp.capacity p) :
    Labelled ["range_check "] (rangeChecks x count) fun _ => True := by
  refine labelled_times_counted _ (by decide) ?_ count
  intro i
  exact (x.tidy_rangeCheck hcap).mapError.within

/-- Decompositions have one name each, numbered from where they begin. -/
theorem compiles_decompose (n i : Nat) (bits : List Bit) :
    Compiles (((List.range' i n).map (Label.counted "to_binary " (by decide))).map Label.name)
      (decompose x n i bits) fun _ => True := by
  induction n generalizing i bits with
  | zero => exact Compiles.pure trivial
  | succ n ih =>
      rw [List.range'_succ, List.map_cons, List.map_cons]
      exact (x.tidy_toBits le_rfl).mapError.within.step fun digits _ => ih (i + 1) digits.toList

/-- Names of decompositions and of recompositions begin differently. -/
theorem labelled_bitRoundTrips (bits : List Bit) (decompositions recompositions : Nat) :
    Labelled ["to_binary ", "from_binary "] (bitRoundTrips x bits decompositions recompositions)
      fun _ => True := by
  refine Labelled.bind (S := ["to_binary "]) (T := ["from_binary "]) (Q := fun _ => True)
    ?_ ?_ (by decide)
  · refine .of_compiles (compiles_decompose _ 0 bits) (nodup_counted _ _ List.nodup_range') ?_
    intro l hl
    obtain ⟨i, -, rfl⟩ := List.mem_map.mp hl
    exact List.mem_singleton.mpr rfl
  · intro bits' _
    refine labelled_times (L := fun i => [.counted "from_binary " (by decide) i,
      .numbered "from_binary " (by decide) i " matches" (by decide)]) ?_ ?_ ?_ recompositions
    · intro i
      refine (Num.tidy_ofBits bits').mapError.within.step fun packed _ => ?_
      exact ((Compiles.enforce _ _ _ _).tidy (by decide)).within
    · intro i
      simp [Label.counted]
    · intro i l hl
      rcases List.mem_pair.mp hl with rfl | rfl
      · exact ⟨rfl, rfl⟩
      · exact ⟨rfl, rfl⟩

end Names

end RankOne.Benchmark
