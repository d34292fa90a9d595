import RankOne.Proofs.Benchmark.Pipeline
import RankOne.Proofs.Sha256.Sizes

/-!
# Sizes of benchmarks — linear in how often each gadget is repeated

    A loop adds what its body adds, as often as it runs, since a gadget has one
    size in all its uses.  So the size of a benchmark is a sum of multiples,
    with the size of one hash for the only part that is not spelled out.

    The two inputs are not looked at, and no name is given twice, so that for
    all inputs one shape is recorded and given out.
-/

namespace RankOne.Benchmark

open Build

variable {p : Nat}

/-! ## Loops -/

/-- A loop adds its body's size as often as it runs. -/
theorem adds_times {body : Nat → Build p GadgetError Unit} {n : Nat × Nat}
    (h : ∀ i, Adds n (body i) fun _ => True) (count : Nat) :
    Adds (count • n) (times count body) fun _ => True := by
  have hloop := Adds.listForM (List.range count) h
  rwa [List.length_range] at hloop

variable [Modulus p]

section Loops

variable (x y : Num p) (count : Nat)

/-- The answer is a variable, so that comparing it with one adds a row. -/
theorem adds_comparisons (hcap : 161 ≤ Fp.capacity p) :
    Adds (count • (163, 161)) (comparisons x y count) fun _ => True := by
  refine adds_times (fun i => ?_) count
  refine Adds.of_eq (m := (162, 161) + (1, 0)) ?_ rfl
  refine (Comparator.adds_isLess ⟨boundBits⟩ y x hcap).mapError.within.bind fun less hless => ?_
  -- a variable is compared with the constant one by a row
  obtain ⟨b, rfl⟩ := hless
  exact (Adds.enforce _ _ _ _).mapError.within

theorem adds_assertedComparisons (hcap : 160 ≤ Fp.capacity p) :
    Adds (count • (161, 160)) (assertedComparisons x y count) fun _ => True := by
  refine adds_times (fun i => ?_) count
  exact (Comparator.adds_assertIsLess ⟨boundBits⟩ y x hcap).mapError.within

/-- A dividend without a value keeps the hint from refusing its inputs. -/
theorem adds_divisions (hcap : 161 ≤ Fp.capacity p) (hx : x.value = none) :
    Adds (count • (707, 701)) (divisions x y count) fun _ => True := by
  refine adds_times (fun i => ?_) count
  exact (Division.adds_floorDiv hcap hx).within.map

theorem adds_rangeChecks (hcap : 160 ≤ Fp.capacity p) :
    Adds (count • (161, 160)) (rangeChecks x count) fun _ => True := by
  refine adds_times (fun i => ?_) count
  exact (x.adds_rangeCheck hcap).mapError.within

/-- By induction on the number of decompositions, of which only the last one is
    kept. -/
theorem adds_decompose (n i : Nat) (bits : List Bit) :
    Adds (n • (Fp.capacity p + 1, Fp.capacity p)) (decompose x n i bits) fun _ => True := by
  induction n generalizing i bits with
  | zero => exact (Adds.pure trivial).of_eq (zero_nsmul _).symm
  | succ n ih =>
      rw [succ_nsmul, add_comm]
      refine (x.adds_toBits le_rfl).mapError.within.bind fun digits _ => ?_
      exact ih (i + 1) digits.toList

/-- Without bits to begin with, one decomposition is made for all recompositions. -/
theorem adds_bitRoundTrips (bits : List Bit) (decompositions recompositions : Nat) :
    let taken := max decompositions (if bits.isEmpty && 0 < recompositions then 1 else 0)
    Adds (taken • (Fp.capacity p + 1, Fp.capacity p) + recompositions • (2, 1))
      (bitRoundTrips x bits decompositions recompositions) fun _ => True := by
  refine (adds_decompose x _ 0 bits).bind fun bits' _ => ?_
  refine adds_times (fun i => ?_) recompositions
  refine Adds.of_eq (m := (1, 1) + (1, 0)) ?_ rfl
  refine (Num.adds_ofBits bits').mapError.within.bind fun packed _ => ?_
  exact (Num.adds_assertEqual x packed).within

/-- Every byte of the message is a number that is packed of one bit. -/
theorem adds_messageOf (bits : List Bit) :
    Adds (hashedBytes, hashedBytes) (messageOf (p := p) bits) fun message =>
      message.length = hashedBytes := by
  have hbytes : Adds ((List.range hashedBytes).length • (1, 1)) (messageOf (p := p) bits)
      fun message => message.length = (List.range hashedBytes).length :=
    Adds.listMapM (List.range hashedBytes) fun i => (Num.adds_ofBits _).mapError.within
  rw [List.length_range, Prod.smul_mk, smul_eq_mul, mul_one] at hbytes
  exact hbytes

/-- The digits that are kept are as many as the field has room for. -/
theorem adds_hashing {n : Nat × Nat} (hhash : ∀ message : List (Num p),
    message.length = hashedBytes → Adds n (Sha256.sha256 (.const 0) message) fun _ => True) :
    Adds ((Fp.capacity p + 245, Fp.capacity p + 243) + count • n) (hashing x count) fun bits =>
      bits.length = Fp.capacity p := by
  refine Adds.of_eq (m := (Fp.capacity p + 1, Fp.capacity p) + ((1, 1) + ((1, 0) +
    ((hashedBytes, hashedBytes) + (count • n + 0))))) ?_ ?_
  · refine (x.adds_toBits le_rfl).mapError.within.bind fun bits _ => ?_
    refine (Num.adds_ofBits _).mapError.within.bind fun packed _ => ?_
    refine (Num.adds_assertEqual x packed).within.bind fun _ _ => ?_
    refine (adds_messageOf bits.toList).bind fun message hlength => ?_
    refine (adds_times (fun i => ?_) count).bind fun _ _ => .pure (Vector.length_toList)
    exact (hhash message hlength).within.map
  · rw [add_zero, ← add_assoc, ← add_assoc, ← add_assoc]
    rfl

end Loops

/-! ## Circuits -/

namespace Circuit

/-- The two inputs are variables, and have no value in a compiling run. -/
theorem adds_synthesize {c : Circuit p} {n : Nat × Nat}
    (h : ∀ x y : Num p, x.value = none → Adds n (c.gadgets x y) fun _ => True) :
    Adds ((0, 2) + n) c.synthesize fun _ => True := by
  have hinputs : Adds (0, 2) (allocInputs c.x c.y) fun a => a.1.value = none := by
    refine Adds.of_eq (m := (0, 1) + ((0, 1) + 0)) ?_ rfl
    refine (Num.adds_alloc _).mapError.within.bind fun x hx => ?_
    exact (Num.adds_alloc _).mapError.within.bind fun y _ => .pure hx
  rw [synthesize_eq]
  exact hinputs.bind fun a ha => h a.1 a.2 ha

/-- No value is looked at: circuits with the same gadgets compile alike. -/
theorem compile_congr {c c' : Circuit p} (h : c.gadgets = c'.gadgets) :
    c.compile = c'.compile := by
  have hrun : c.synthesize .compiling .start = c'.synthesize .compiling .start := by
    rw [synthesize_eq, synthesize_eq, bind_apply, bind_apply, h]
    rfl
  rw [compile, compile, Build.start, Build.start, hrun]

/-- For all inputs the circuit compiles to one shape, which has so many rows
    and private variables, no public input, and no two rows of one path. -/
def CompilesTo (c : Fp p → Fp p → Circuit p) (rows vars : Nat) : Prop :=
  ∃ shape, (∀ x y, (c x y).compile = .ok shape) ∧ shape.rows.size = rows ∧ shape.numAux = vars ∧
    shape.numInputs = 0 ∧ (shape.rows.toList.map Row.path).Nodup

/-- What the gadgets add is the size of the shape, apart from the inputs. -/
theorem compilesTo {c : Fp p → Fp p → Circuit p} {n : Nat × Nat} {rows vars : Nat}
    (hcap : 161 ≤ Fp.capacity p) (hc : ∀ x y, (c x y).gadgets = (c 0 0).gadgets)
    (h : ∀ x y : Num p, x.value = none → Adds n ((c 0 0).gadgets x y) fun _ => True)
    (hrows : n.1 = rows) (hvars : 2 + n.2 = vars) : CompilesTo c rows vars := by
  obtain ⟨s, hrun, hcompile, hfault⟩ := compile_eq_ok_of_le hcap (c 0 0)
  obtain ⟨_, s', hrun', hgrown, -⟩ := adds_synthesize h .start
  obtain rfl : s' = s := by
    rw [hrun] at hrun'
    exact (EStateM.Result.ok.inj hrun').2.symm
  refine ⟨s'.shape, fun x y => (compile_congr (hc x y)).trans hcompile, ?_, ?_, hgrown.numInputs,
    hgrown.nodup_paths hfault⟩
  · have hcount : s'.rows.size = 0 + (0 + n.1) := hgrown.rows
    rw [← hrows, ← Nat.zero_add n.1, ← Nat.zero_add (0 + n.1)]
    exact hcount
  · have hcount : s'.numAux = 0 + (2 + n.2) := hgrown.numAux
    rw [← hvars, ← Nat.zero_add (2 + n.2)]
    exact hcount

variable (x y : Num p)

/-- The sizes of the four loops. -/
theorem adds_preBlock (hcap : 161 ≤ Fp.capacity p) (c : PreBlock p) (hx : x.value = none) :
    Adds (c.isLess • (163, 161) + (c.assertIsLess • (161, 160) + (c.floorDiv • (707, 701) +
      c.rangeChecks • (161, 160)))) ((preBlock c).gadgets x y) fun _ => True := by
  have h160 : 160 ≤ Fp.capacity p := by omega
  refine (adds_comparisons x y _ hcap).bind fun _ _ => ?_
  refine (adds_assertedComparisons x y _ h160).bind fun _ _ => ?_
  refine (adds_divisions x y _ hcap hx).bind fun _ _ => ?_
  exact adds_rangeChecks x _ h160

/-- The sizes of the five loops; a decomposition is made for recompositions if
    there is none. -/
theorem adds_txLoop (hcap : 161 ≤ Fp.capacity p) (c : TxLoop p) (hx : x.value = none) :
    let taken := max c.decompositions (if 0 < c.recompositions then 1 else 0)
    Adds (c.isLess • (163, 161) + (c.assertIsLess • (161, 160) + (c.rangeChecks • (161, 160) +
      (c.floorDiv • (707, 701) + (taken • (Fp.capacity p + 1, Fp.capacity p) +
        c.recompositions • (2, 1)))))) ((txLoop c).gadgets x y) fun _ => True := by
  have h160 : 160 ≤ Fp.capacity p := by omega
  refine (adds_comparisons x y _ hcap).bind fun _ _ => ?_
  refine (adds_assertedComparisons x y _ h160).bind fun _ _ => ?_
  refine (adds_rangeChecks x _ h160).bind fun _ _ => ?_
  refine (adds_divisions x y _ hcap hx).bind fun _ _ => ?_
  refine (adds_bitRoundTrips x [] _ _).of_eq ?_
  simp only [List.isEmpty_nil, Bool.true_and, decide_eq_true_eq]

/-- There are always digits to put together. -/
theorem adds_verifyBlock (hcap : 161 ≤ Fp.capacity p) (c : VerifyBlock p) (hx : x.value = none)
    {n : Nat × Nat} (hhash : ∀ message : List (Num p),
      message.length = hashedBytes → Adds n (Sha256.sha256 (.const 0) message) fun _ => True) :
    Adds ((Fp.capacity p + 245, Fp.capacity p + 243) + c.hashes • n +
      (c.decompositions • (Fp.capacity p + 1, Fp.capacity p) + c.recompositions • (2, 1) +
        (c.isLess • (163, 161) + (c.assertIsLess • (161, 160) + c.floorDiv • (707, 701)))))
      ((verifyBlock c).gadgets x y) fun _ => True := by
  have h160 : 160 ≤ Fp.capacity p := by omega
  refine (adds_hashing x _ hhash).bind fun bits hlength => ?_
  have hempty : bits.isEmpty = false := by
    rw [List.isEmpty_eq_false_iff, ← List.length_pos_iff, hlength]
    omega
  have htrips := adds_bitRoundTrips x bits c.decompositions c.recompositions
  rw [hempty, Bool.false_and, if_neg Bool.false_ne_true, Nat.max_zero] at htrips
  refine htrips.bind fun _ _ => ?_
  refine (adds_comparisons x y _ hcap).bind fun _ _ => ?_
  refine (adds_assertedComparisons x y _ h160).bind fun _ _ => ?_
  exact adds_divisions x y _ hcap hx

/-- Where the field has room for 161 digits, a benchmark compiles for all
    inputs and counts, to one shape for all inputs.  It has no public input and
    no path twice, and its rows and private variables are as many as the counts
    say, with those of one hash for what a hash adds: a hash of so many numbers
    adds the same wherever it is built. -/
theorem sizes_exact (hcap : 161 ≤ Fp.capacity p) : ∃ hashRows hashVars : Nat,
    (∀ (s : System p) (data : List (Num p)), data.length = hashedBytes →
      ∃ out s', Sha256.sha256 (.const 0) data .compiling s = .ok out s' ∧
        s'.rows.size = s.rows.size + hashRows ∧ s'.numAux = s.numAux + hashVars) ∧
    (∀ c : PreBlock p, CompilesTo (p := p) (fun x y => .preBlock { c with x := x, y := y })
      (163 * c.isLess + 161 * c.assertIsLess + 707 * c.floorDiv + 161 * c.rangeChecks)
      (2 + 161 * c.isLess + 160 * c.assertIsLess + 701 * c.floorDiv + 160 * c.rangeChecks)) ∧
    (∀ c : TxLoop p,
      let taken := max c.decompositions (if 0 < c.recompositions then 1 else 0)
      CompilesTo (p := p) (fun x y => .txLoop { c with x := x, y := y })
        (163 * c.isLess + 161 * c.assertIsLess + 161 * c.rangeChecks + 707 * c.floorDiv +
          (Fp.capacity p + 1) * taken + 2 * c.recompositions)
        (2 + 161 * c.isLess + 160 * c.assertIsLess + 160 * c.rangeChecks + 701 * c.floorDiv +
          Fp.capacity p * taken + c.recompositions)) ∧
    ∀ c : VerifyBlock p, CompilesTo (p := p) (fun x y => .verifyBlock { c with x := x, y := y })
      (Fp.capacity p + 245 + c.hashes * hashRows + (Fp.capacity p + 1) * c.decompositions +
        2 * c.recompositions + 163 * c.isLess + 161 * c.assertIsLess + 707 * c.floorDiv)
      (Fp.capacity p + 245 + c.hashes * hashVars + Fp.capacity p * c.decompositions +
        c.recompositions + 161 * c.isLess + 160 * c.assertIsLess + 701 * c.floorDiv) := by
  obtain ⟨n, hn⟩ := Sha256.exists_adds_sha256 (p := p) (by omega) hashedBytes
  refine ⟨n.1, n.2, fun s data hlength => ?_, fun c => ?_, fun c => ?_, fun c => ?_⟩
  · obtain ⟨out, s', hrun, hgrown, -⟩ := hn (.const 0) data hlength s
    exact ⟨out, s', hrun, hgrown.rows, hgrown.numAux⟩
  · refine compilesTo hcap (fun _ _ => rfl) (fun x y hx => adds_preBlock x y hcap _ hx) ?_ ?_
    · simp only [Prod.fst_add, Prod.smul_mk, smul_eq_mul]
      ring
    · simp only [Prod.snd_add, Prod.smul_mk, smul_eq_mul]
      ring
  · refine compilesTo hcap (fun _ _ => rfl) (fun x y hx => adds_txLoop x y hcap _ hx) ?_ ?_
    · simp only [Prod.fst_add, Prod.smul_mk, smul_eq_mul]
      ring
    · simp only [Prod.snd_add, Prod.smul_mk, smul_eq_mul]
      ring
  · refine compilesTo hcap (fun _ _ => rfl)
      (fun x y hx => adds_verifyBlock x y hcap _ hx (hn (.const 0))) ?_ ?_
    · simp only [Prod.fst_add, Prod.smul_fst, smul_eq_mul]
      ring
    · simp only [Prod.snd_add, Prod.smul_snd, smul_eq_mul]
      ring

/-- The first benchmark at full scale. -/
theorem sizes_exact_preBlock :
    161 ≤ Fp.capacity Moduli.bn256 ∧ CompilesTo (p := Moduli.bn256)
      (fun x y => .preBlock { x := x, y := y }) 595712 590338 := by
  have hcap : 161 ≤ Fp.capacity Moduli.bn256 := by decide
  obtain ⟨_, _, -, hpreBlock, -, -⟩ := sizes_exact hcap
  exact ⟨hcap, hpreBlock { x := 0, y := 0 }⟩

end Circuit

end RankOne.Benchmark
