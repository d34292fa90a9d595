import RankOne.Proofs.Benchmark.Loops

/-!
# Validity — what a benchmark circuit asks of its inputs

    `c.Accepts x y` says of two field elements, without a circuit, what the
    gadgets of `c` ask of them together.  The rows of a circuit force it of the
    values of the two inputs, and on inputs of which it holds the circuit can
    be solved.
-/

namespace RankOne.Benchmark

open Build Naming

variable {p : Nat} [Modulus p]

/-! ## The hashes -/

/-- A byte of the message may be worth anything, as far as the rows are
    concerned here. -/
theorem forces_messageOf (z : Variable → Fp p) (bits : List Bit) :
    Forces z (messageOf bits) fun _ => True := by
  have hbyte : ∀ bs : List Bit, Forces z (Num.ofBits (p := p) bs) fun _ => True := by
    intro bs
    exact (Forces.aux _ _).within.row fun _ _ _ => trivial
  have hbytes : Forces z (messageOf bits) fun message =>
      List.Forall₂ (fun _ _ => True) (List.range hashedBytes) message :=
    Forces.listMapM (List.range hashedBytes) fun i _ => (hbyte _).mapError.within
  exact hbytes.mono fun _ _ => trivial

/-- The bytes of the message that is hashed. -/
def messageBytes (vs : List Bool) : List (BitVec 8) :=
  (List.range hashedBytes).map fun i => BitVec.ofNat 8 (vs.getD i false).toNat

/-- Every byte of the message is one digit, and so holds a byte. -/
theorem honest_messageOf {w : Witness p} {bits : List Bit} {vs : List Bool}
    (h : List.Forall₂ (Bit.Live w) bits vs) :
    Honest w (messageOf bits) fun w' xs => Sha256.Digest.Hold w' xs (messageBytes vs) := by
  have hbytes : Honest w (messageOf bits) fun w' xs =>
      List.Forall₂ (fun i (x : Num p) => x.Live w' ((vs.getD i false).toNat : Fp p))
        (List.range hashedBytes) xs := by
    refine Honest.listMapM (Q := fun i w' (x : Num p) => x.Live w' ((vs.getD i false).toNat : Fp p))
      (List.range hashedBytes) (fun _ _ _ _ hle hx => hx.mono hle) fun i _ w' hle => ?_
    have hbit := (forall₂_getD h (Bit.Live.const w false) i).mono hle
    have hdigit : natOfBits [vs.getD i false] = (vs.getD i false).toNat := Nat.add_zero _
    have hbyte := Num.honest_ofBits (.cons hbit .nil)
    rw [hdigit] at hbyte
    exact hbyte.mapError.within
  refine hbytes.mono fun w' xs _ hxs => ?_
  refine List.forall₂_map_right_iff.mpr (hxs.flip.imp fun x i hx => ?_)
  have hbyte : (BitVec.ofNat 8 (vs.getD i false).toNat).toNat = (vs.getD i false).toNat := by
    cases vs.getD i false <;> rfl
  rw [hbyte]
  exact hx

/-- A round of hashing, on a message of bytes. -/
theorem honest_commitment {w : Witness p} {message : List (Num p)} {vs : List Bool}
    (hcap : 64 ≤ Fp.capacity p) (i : Nat)
    (h : Sha256.Digest.Hold w message (messageBytes vs)) :
    Honest w (do
      let _ ← Build.within s!"commitment {i}" <| Sha256.sha256 (.const 0) message
      return () : Build p GadgetError Unit) fun _ _ => True := by
  have hlength : (messageBytes vs).length = hashedBytes := by
    rw [messageBytes, List.length_map, List.length_range]
  have hbound : (messageBytes vs).length < 2 ^ 61 := by
    rw [hlength]
    decide
  have hhash := Sha256.honest_sha256 (k := 0) hcap h (LinNum.live_const 0) (Nat.zero_le _) hbound
  refine hhash.within.bind fun w₁ out _ _ => ?_
  exact Honest.pure fun _ _ => trivial

theorem follows_messageOf {m m' : Mode} [Mode.AsksLess m m'] {bits bits' : List Bit}
    (h : List.Forall₂ (Bit.Alike m) bits bits') :
    Follows m m' (messageOf (p := p) bits) (messageOf bits') (List.Forall₂ (Num.Alike m)) := by
  refine Follows.listMapM (R := (· = ·)) ?_ (List.forall₂_same.mpr fun _ _ => rfl)
  rintro i _ rfl
  have hbit := forall₂_getD h (Bit.Alike.const (m := m) false) i
  exact (Num.follows_ofBits (.cons hbit .nil)).mapError.within

/-- The bytes of the message are told apart by their numbers. -/
theorem labelled_messageOf (bits : List Bit) :
    Labelled ["message byte "] (messageOf (p := p) bits) fun _ => True := by
  refine .of_compiles (L := (List.range hashedBytes).map (.counted "message byte " (by decide)))
    ?_ (nodup_counted _ _ List.nodup_range) fun l hl => ?_
  · rw [List.map_map]
    have hbyte : ∀ bs : List Bit, Tidy (Num.ofBits (p := p) bs) fun _ => True := by
      intro bs
      exact (Num.tidy_ofBits bs).mono fun _ _ => trivial
    have hbytes : Compiles ((List.range hashedBytes).map fun i => s!"message byte {i}")
        (messageOf (p := p) bits) (List.Forall₂ (fun _ _ => True) (List.range hashedBytes)) :=
      Compiles.listMapM (List.range hashedBytes) fun i _ => (hbyte _).mapError.within
    exact hbytes.mono fun _ _ => trivial
  · obtain ⟨i, _, rfl⟩ := List.mem_map.mp hl
    exact List.mem_singleton.mpr rfl

/-- The hashes of a message that the digits of `x` make, and these digits. -/
def hashing (x : Num p) (count : Nat) : Build p GadgetError (List Bit) := do
  let bits ← Build.within "x bits" <| x.toBits (Fp.capacity p)
  let bits := bits.toList
  let packed ← Build.within "x packed" <| Num.ofBits (p := p) bits
  Build.within "x packed matches" <| x.assertEqual packed
  let message ← messageOf bits
  times count fun i => do
    let _ ← Build.within s!"commitment {i}" <| Sha256.sha256 (.const 0) message
  return bits

/-- Of the hashes only the digits are asked; the hash of a message is not
    compared with anything. -/
theorem forces_hashing {z : Variable → Fp p} (hp : p.Prime) (one : z .one = 1)
    (hcap : 64 ≤ Fp.capacity p) (x : Num p) (count : Nat) :
    Forces z (hashing x count) fun _ => (z x.var).val < 2 ^ Fp.capacity p := by
  refine (Num.forces_toBits hp one x _).mapError.within.bind fun bits => ?_
  refine (Num.forces_ofBits one _).mapError.within.bind fun packed => ?_
  refine (Num.forces_assertEqual one x packed).within.bind fun _ => ?_
  refine (forces_messageOf z _).bind fun message => ?_
  have hhash : ∀ i : Nat, Forces z (do
      let _ ← Build.within s!"commitment {i}" <| Sha256.sha256 (.const 0) message
      return () : Build p GadgetError Unit) fun _ => True := by
    intro i
    refine (Sha256.forces_sha256 hp one hcap _ message).within.bind fun out => ?_
    exact Forces.pure fun _ => trivial
  refine (forces_times hhash count).bind fun _ => Forces.pure ?_
  intro _ _ _ _ hbits
  exact hbits.1

/-- The digits that are kept are those of the value. -/
theorem honest_hashing {w : Witness p} {x : Num p} {u : Fp p} (hcap : 64 ≤ Fp.capacity p)
    (hx : x.Live w u) (h : u.val < 2 ^ Fp.capacity p) (count : Nat) :
    Honest w (hashing x count) fun w' bits => Recover w' bits u := by
  refine (Num.honest_toBits hx le_rfl h).mapError.within.bind fun w₁ bits h₁ hbits => ?_
  obtain ⟨vs, hvs, heq⟩ := recover_of_display hbits h
  refine (Num.honest_ofBits hvs).mapError.within.bind fun w₂ packed h₂ hpacked => ?_
  rw [heq] at hpacked
  refine (Num.honest_assertEqual (hx.mono (h₁.trans h₂)) hpacked).within.bind fun w₃ _ h₃ _ => ?_
  have hvs₃ := hvs.imp fun _ _ hb => hb.mono (h₂.trans h₃)
  refine (honest_messageOf hvs₃).bind fun w₄ message h₄ hmessage => ?_
  refine Honest.bind (honest_times ?_) ?_
  · intro _ i w' hle
    exact honest_commitment hcap i (hmessage.imp fun _ _ hb => hb.mono hle)
  · intro w₅ _ h₅ _
    refine Honest.pure fun w₆ h₆ => ?_
    exact ⟨vs, hvs₃.imp fun _ _ hb => hb.mono ((h₄.trans h₅).trans h₆), heq⟩

theorem follows_hashing {m m' : Mode} [Mode.AsksLess m m'] {x x' : Num p} (hx : x.Alike m x')
    (count : Nat) : Follows m m' (hashing x count) (hashing x' count)
      (List.Forall₂ (Bit.Alike m)) := by
  refine (Num.follows_toBits hx _).mapError.within.bind fun bits bits' hbits => ?_
  have hlist := Bit.forall₂_alike hbits
  refine (Num.follows_ofBits hlist).mapError.within.bind fun packed packed' hpacked => ?_
  refine (Follows.enforce hx.lc rfl hpacked.lc).within.bind fun _ _ _ => ?_
  refine (follows_messageOf hlist).bind fun message message' hmessage => ?_
  refine (follows_times (fun i => ?_) _).bind fun _ _ _ => Follows.pure hlist
  refine (Sha256.follows_sha256 ⟨rfl, fun _ => rfl⟩ hmessage).within.bind fun out out' _ => ?_
  exact Follows.pure trivial

/-- The names of the hashes, and of what comes before them, begin
    differently. -/
theorem labelled_hashing (hcap : 64 ≤ Fp.capacity p) (x : Num p) (count : Nat) :
    Labelled ["x bits", "x packed", "x packed matches", "message byte ", "commitment "]
      (hashing x count) fun _ => True := by
  refine (Labelled.plain (x.tidy_toBits le_rfl).mapError.within (by decide)).bind
    (fun bits _ => ?_) (by decide)
  refine (Labelled.plain (Num.tidy_ofBits _).mapError.within (by decide)).bind
    (fun packed _ => ?_) (by decide)
  refine (Labelled.plain ((Compiles.enforce _ _ _ _).tidy (by decide)).within (by decide)).bind
    (fun _ _ => ?_) (by decide)
  refine (labelled_messageOf _).bind (fun message _ => ?_) (by decide)
  refine (labelled_times_counted "commitment " (by decide) (fun i => ?_) _).bind
    (fun _ _ => Labelled.pure trivial) (by decide)
  exact ((Sha256.compiles_sha256 hcap _ message).tidy (by decide)).within.map

namespace Circuit

/-! ## The inputs apart from the gadgets -/

/-- The dividend and the greater operand. -/
def x : Circuit p → Fp p
  | .preBlock c => c.x
  | .txLoop c => c.x
  | .verifyBlock c => c.x

/-- The divisor and the lesser operand. -/
def y : Circuit p → Fp p
  | .preBlock c => c.y
  | .txLoop c => c.y
  | .verifyBlock c => c.y

/-- The gadgets on the two inputs. -/
def gadgets : Circuit p → Num p → Num p → Build p GadgetError Unit
  | .preBlock c, x, y => do
    comparisons x y c.isLess
    assertedComparisons x y c.assertIsLess
    divisions x y c.floorDiv
    Benchmark.rangeChecks x c.rangeChecks
  | .txLoop c, x, y => do
    comparisons x y c.isLess
    assertedComparisons x y c.assertIsLess
    Benchmark.rangeChecks x c.rangeChecks
    divisions x y c.floorDiv
    bitRoundTrips x [] c.decompositions c.recompositions
  | .verifyBlock c, x, y => do
    let bits ← hashing x c.hashes
    bitRoundTrips x bits c.decompositions c.recompositions
    comparisons x y c.isLess
    assertedComparisons x y c.assertIsLess
    divisions x y c.floorDiv

/-- The circuits allocate two inputs and differ in the gadgets. -/
theorem synthesize_eq (c : Circuit p) :
    c.synthesize = allocInputs c.x c.y >>= fun (x, y) => c.gadgets x y := by
  cases c with
  | preBlock c => rfl
  | txLoop c => rfl
  | verifyBlock c =>
      unfold gadgets hashing
      simp only [bind_assoc, pure_bind]
      rfl

/-- What the gadgets ask of the inputs: that `y` is ahead of `x` by no more than
    the bound, that `x` can be divided by `y`, and that `x` has so many digits.
    What no gadget asks is not asked. -/
def Accepts : Circuit p → Fp p → Fp p → Prop
  | .preBlock c, x, y =>
    (0 < c.isLess + c.assertIsLess → Fp.Ahead 160 y x) ∧
    (0 < c.floorDiv → Division.Divides x.val y.val) ∧
    (0 < c.rangeChecks → x.val < 2 ^ 160)
  | .txLoop c, x, y =>
    (0 < c.isLess + c.assertIsLess → Fp.Ahead 160 y x) ∧
    (0 < c.floorDiv → Division.Divides x.val y.val) ∧
    (0 < c.rangeChecks → x.val < 2 ^ 160) ∧
    (0 < c.decompositions + c.recompositions → x.val < 2 ^ Fp.capacity p)
  | .verifyBlock c, x, y =>
    (0 < c.isLess + c.assertIsLess → Fp.Ahead 160 y x) ∧
    (0 < c.floorDiv → Division.Divides x.val y.val) ∧
    x.val < 2 ^ Fp.capacity p

/-! ## Soundness -/

/-- By cases on the circuit; every loop forces its part of what is accepted. -/
theorem forces_gadgets {z : Variable → Fp p} (hp : p.Prime) (hbig : 2 ^ 224 < p) (one : z .one = 1)
    (c : Circuit p) (x y : Num p) :
    Forces z (c.gadgets x y) fun _ => c.Accepts (z x.var) (z y.var) := by
  have hbound : 2 ^ 160 < p := (Nat.pow_lt_pow_right Nat.one_lt_two (by decide)).trans hbig
  have hcap : 64 ≤ Fp.capacity p := Fp.le_capacity_of_two_pow_le
    ((Nat.pow_le_pow_right Nat.two_pos (by decide)).trans hbig.le)
  -- the loops that two or more of the circuits share
  have hless := fun count => forces_comparisons hp one x y count hbound
  have hassert := fun count => forces_assertedComparisons hp one x y count hbound
  have hdiv := fun count => forces_divisions hp one x y count hbig
  cases c with
  | preBlock c =>
      refine (hless _).bind fun _ => (hassert _).bind fun _ => (hdiv _).bind fun _ => ?_
      refine (forces_rangeChecks hp one x _).mono fun _ h₄ h₃ h₂ h₁ => ⟨fun hpos => ?_, h₃, h₄⟩
      exact (Nat.add_pos_iff_pos_or_pos.mp hpos).elim h₁ h₂
  | txLoop c =>
      refine (hless _).bind fun _ => (hassert _).bind fun _ => ?_
      refine (forces_rangeChecks hp one x _).bind fun _ => (hdiv _).bind fun _ => ?_
      refine (forces_bitRoundTrips hp one x [] _ _).mono fun _ h₅ h₄ h₃ h₂ h₁ =>
        ⟨fun hpos => ?_, h₄, h₃, h₅ rfl⟩
      exact (Nat.add_pos_iff_pos_or_pos.mp hpos).elim h₁ h₂
  | verifyBlock c =>
      refine (forces_hashing hp one hcap x _).bind fun bits => ?_
      refine (forces_bitRoundTrips hp one x bits _ _).bind fun _ => ?_
      refine (hless _).bind fun _ => (hassert _).bind fun _ => (hdiv _).mono ?_
      intro _ h₄ h₃ h₂ _ hdigits
      exact ⟨fun hpos => (Nat.add_pos_iff_pos_or_pos.mp hpos).elim h₂ h₃, h₄, hdigits⟩

/-! ## Completeness -/

/-- By cases on the circuit; a loop that runs asks for its part of what is
    accepted. -/
theorem honest_gadgets {w : Witness p} {x y : Num p} {u v : Fp p} (hp : p.Prime)
    (hbig : 2 ^ 224 < p) (c : Circuit p) (hx : x.Live w u) (hy : y.Live w v) (h : c.Accepts u v) :
    Honest w (c.gadgets x y) fun _ _ => True := by
  have hbound : 2 ^ 160 < p := (Nat.pow_lt_pow_right Nat.one_lt_two (by decide)).trans hbig
  have hcap : 224 ≤ Fp.capacity p := Fp.le_capacity_of_two_pow_le hbig.le
  have hless : ∀ {w' count}, w ≤ w' → (0 < count → Fp.Ahead 160 v u) →
      Honest w' (comparisons x y count) fun _ _ => True := fun hle =>
    honest_comparisons (hx.mono hle) (hy.mono hle) (by omega) hbound
  have hassert : ∀ {w' count}, w ≤ w' → (0 < count → Fp.Ahead 160 v u) →
      Honest w' (assertedComparisons x y count) fun _ _ => True := fun hle =>
    honest_assertedComparisons (hx.mono hle) (hy.mono hle) (by omega) hbound
  have hdiv : ∀ {w' count}, w ≤ w' → (0 < count → Division.Divides u.val v.val) →
      Honest w' (divisions x y count) fun _ _ => True := fun hle =>
    honest_divisions (hx.mono hle) (hy.mono hle) hp hbig
  cases c with
  | preBlock c =>
      obtain ⟨hahead, hdivides, hrange⟩ := h
      refine (hless le_rfl fun hpos => hahead (by omega)).bind fun w₁ _ h₁ _ => ?_
      refine (hassert h₁ fun hpos => hahead (by omega)).bind fun w₂ _ h₂ _ => ?_
      refine (hdiv (h₁.trans h₂) hdivides).bind fun w₃ _ h₃ _ => ?_
      exact honest_rangeChecks (hx.mono ((h₁.trans h₂).trans h₃)) (by omega) hrange
  | txLoop c =>
      obtain ⟨hahead, hdivides, hrange, hdigits⟩ := h
      refine (hless le_rfl fun hpos => hahead (by omega)).bind fun w₁ _ h₁ _ => ?_
      refine (hassert h₁ fun hpos => hahead (by omega)).bind fun w₂ _ h₂ _ => ?_
      have hx₂ := hx.mono (h₁.trans h₂)
      refine (honest_rangeChecks hx₂ (by omega) hrange).bind fun w₃ _ h₃ _ => ?_
      refine (hdiv ((h₁.trans h₂).trans h₃) hdivides).bind fun w₄ _ h₄ _ => ?_
      exact honest_bitRoundTrips (hx.mono (((h₁.trans h₂).trans h₃).trans h₄)) (Or.inl rfl) hdigits
  | verifyBlock c =>
      obtain ⟨hahead, hdivides, hdigits⟩ := h
      -- the digits of the hash are kept for the recompositions
      refine (honest_hashing (by omega) hx hdigits _).bind fun w₁ bits h₁ hbits => ?_
      refine (honest_bitRoundTrips (hx.mono h₁) (Or.inr hbits) fun _ => hdigits).bind
        fun w₂ _ h₂ _ => ?_
      have hle₂ := h₁.trans h₂
      refine (hless hle₂ fun hpos => hahead (by omega)).bind fun w₃ _ h₃ _ => ?_
      refine (hassert (hle₂.trans h₃) fun hpos => hahead (by omega)).bind fun w₄ _ h₄ _ => ?_
      exact hdiv ((hle₂.trans h₃).trans h₄) hdivides

/-! ## Runs alike -/

/-- Gadgets on inputs alike run alike. -/
theorem follows_gadgets {m m' : Mode} [Mode.AsksLess m m'] {x x' y y' : Num p} (c : Circuit p)
    (hx : x.Alike m x') (hy : y.Alike m y') :
    Follows m m' (c.gadgets x y) (c.gadgets x' y') fun _ _ => True := by
  cases c with
  | preBlock c =>
      refine (follows_comparisons hx hy _).bind fun _ _ _ => ?_
      refine (follows_assertedComparisons hx hy _).bind fun _ _ _ => ?_
      exact (follows_divisions hx hy _).bind fun _ _ _ => follows_rangeChecks hx _
  | txLoop c =>
      refine (follows_comparisons hx hy _).bind fun _ _ _ => ?_
      refine (follows_assertedComparisons hx hy _).bind fun _ _ _ => ?_
      refine (follows_rangeChecks hx _).bind fun _ _ _ => ?_
      exact (follows_divisions hx hy _).bind fun _ _ _ => follows_bitRoundTrips hx .nil _ _
  | verifyBlock c =>
      refine (follows_hashing hx _).bind fun bits bits' hlist => ?_
      refine (follows_bitRoundTrips hx hlist _ _).bind fun _ _ _ => ?_
      refine (follows_comparisons hx hy _).bind fun _ _ _ => ?_
      exact (follows_assertedComparisons hx hy _).bind fun _ _ _ => follows_divisions hx hy _

/-! ## Names -/

/-- What the names of a circuit begin with, after those of the inputs. -/
def stems : Circuit p → List String
  | .preBlock _ => ["is_less ", "assert_is_less ", "floor_div ", "range_check "]
  | .txLoop _ => ["is_less ", "assert_is_less ", "range_check ", "floor_div ", "to_binary ",
      "from_binary "]
  | .verifyBlock _ => ["x bits", "x packed", "x packed matches", "message byte ", "commitment ",
      "to_binary ", "from_binary ", "is_less ", "assert_is_less ", "floor_div "]

/-- The loops of a circuit begin their names differently. -/
theorem labelled_gadgets {x y : Num p} (hcap : 161 ≤ Fp.capacity p) (c : Circuit p)
    (hx : x.value = none) : Labelled c.stems (c.gadgets x y) fun _ => True := by
  have hless : ∀ count, Labelled ["is_less "] (comparisons x y count) fun _ => True :=
    fun count => labelled_comparisons count (by omega)
  have hassert : ∀ count, Labelled ["assert_is_less "] (assertedComparisons x y count)
      fun _ => True := fun count => labelled_assertedComparisons count (by omega)
  have hdiv : ∀ count, Labelled ["floor_div "] (divisions x y count) fun _ => True :=
    fun count => labelled_divisions count hcap hx
  have hrange : ∀ count, Labelled ["range_check "] (Benchmark.rangeChecks x count) fun _ => True :=
    fun count => labelled_rangeChecks count (by omega)
  cases c with
  | preBlock c =>
      refine (hless _).bind (fun _ _ => ?_) (by decide)
      refine (hassert _).bind (fun _ _ => ?_) (by decide)
      exact (hdiv _).bind (fun _ _ => hrange _) (by decide)
  | txLoop c =>
      refine (hless _).bind (fun _ _ => ?_) (by decide)
      refine (hassert _).bind (fun _ _ => ?_) (by decide)
      refine (hrange _).bind (fun _ _ => ?_) (by decide)
      exact (hdiv _).bind (fun _ _ => labelled_bitRoundTrips [] _ _) (by decide)
  | verifyBlock c =>
      refine (labelled_hashing (by omega) x _).bind (fun bits _ => ?_) (by decide)
      refine (labelled_bitRoundTrips bits _ _).bind (fun _ _ => ?_) (by decide)
      refine (hless _).bind (fun _ _ => ?_) (by decide)
      exact (hassert _).bind (fun _ _ => hdiv _) (by decide)

end Circuit

end RankOne.Benchmark
