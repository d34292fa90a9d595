import RankOne.Proofs.Pairing
import RankOne.Proofs.Primes
import RankOne.Proofs.Words

/-!
# Computations — integers computed from integers, in a circuit and natively

    A computation is a list of operations, each of which takes its operands
    from the results before it, so that a result may be used any number of
    times.  `Computation.build` is the circuit, `Computation.eval` the
    arithmetic of machine words modulo `2 ^ w`.

    The two semantics are compared twice, by induction over the list: what
    satisfied rows force (`forces_build`), and what values do to the rows
    (`honest_build`).  Operation by operation both come from the lemmas on the
    gates; the list adds that a later operation does not change what an
    earlier result reads as.

    A shift is one only as long as the places that it takes bits from do not
    wrap around (`Unwrapped`).  One that wraps around takes bits that a shift
    would have dropped, and its cache does not know of them
    (`shift_wraps_around`).
-/

namespace RankOne.Bits

open Build

variable {p : Nat} [Modulus p] {w n : Nat}

/-! ## Reading an integer off an assignment -/

/-- The integer whose digits are the bits that are worth one. -/
def read (z : Variable → Fp p) (x : Bits w) : BitVec w :=
  BitVec.ofNat w (natOfBits (List.ofFn fun i : Fin w => decide ((x.bits.get i).val z = 1)))

theorem Is.read_eq (hp : p.Prime) {z : Variable → Fp p} {x : Bits w} {v : BitVec w}
    (h : x.Is z v) : x.read z = v := by
  apply BitVec.eq_of_getLsbD_eq
  intro i hi
  have hbit : (x.bits.get ⟨i, hi⟩).val z = Fp.ofBool (v.getLsbD i) := h i hi
  have hdigit : ∀ b : Bool, decide ((Fp.ofBool b : Fp p) = 1) = b
    | false => decide_eq_false (Fp.one_ne_zero hp).symm
    | true => decide_eq_true rfl
  rw [read, BitVec.getLsbD_ofNat, testBit_natOfBits, List.getD_eq_getElem?_getD,
    List.getElem?_ofFn, dif_pos hi, Option.getD_some, hbit, hdigit,
    decide_eq_true hi, Bool.true_and]

/-- What the integers read as, by position. -/
def readAt (z : Variable → Fp p) (xs : Vector (Bits w) n) (i : Nat) : BitVec w :=
  if h : i < n then xs[i].read z else 0

/-! ## Operations -/

/-- An operation on integers, whose operands are named by position. -/
inductive Op (w n : Nat) where
  | constant (v : UInt64)
  | alloc
  | rotateRight (x : Fin n) (k : Nat)
  | shiftRight (x : Fin n) (k : UInt64)
  | not (x : Fin n)
  | xor (x y : Fin n)
  | and (x y : Fin n)
  | choose (x y o : Fin n)
  | majority (x y o : Fin n)
  | addMany (xs : List (Fin n))
deriving DecidableEq

namespace Op

/-- The circuit of an operation; `leaf` is the value to allocate. -/
def build (leaf : Option UInt64) (xs : Vector (Bits w) n) :
    Op w n → Build p SynthesisError (Bits w)
  | .constant v => return .constant v
  | .alloc => Bits.alloc leaf
  | .rotateRight x k => return (xs.get x).rotateRight k
  | .shiftRight x k => return (xs.get x).shiftRight k
  | .not x => return (xs.get x).not
  | .xor x y => (xs.get x).xor (xs.get y)
  | .and x y => (xs.get x).and (xs.get y)
  | .choose x y o => (xs.get x).choose (xs.get y) (xs.get o)
  | .majority x y o => (xs.get x).majority (xs.get y) (xs.get o)
  | .addMany is => Bits.addMany (is.map xs.get)

/-- The operation on integers modulo `2 ^ w`; `leaf` is the one that was
    allocated. -/
def eval (leaf : BitVec w) (vs : Vector (BitVec w) n) : Op w n → BitVec w
  | .constant v => BitVec.ofNat w v.toNat
  | .alloc => leaf
  | .rotateRight x k => (vs.get x).rotateRight k
  | .shiftRight x k => vs.get x >>> k.toNat
  | .not x => ~~~vs.get x
  | .xor x y => vs.get x ^^^ vs.get y
  | .and x y => vs.get x &&& vs.get y
  | .choose x y o => (vs.get x &&& vs.get y) ^^^ (~~~vs.get x &&& vs.get o)
  | .majority x y o =>
    (vs.get x &&& vs.get y) ^^^ (vs.get x &&& vs.get o) ^^^ (vs.get y &&& vs.get o)
  | .addMany is => (is.map vs.get).foldl (· + ·) 0

/-- The field has room for the sums of the operation. -/
def Fits (p : Nat) : Op w n → Prop
  | .addMany is => sumWidth w is.length ≤ Fp.capacity p
  | _ => True

/-- No place that the operation takes a bit from wraps around. -/
def Unwrapped : Op w n → Prop
  | .shiftRight _ k => w + k.toNat ≤ 2 ^ 64
  | _ => True

/-- The operands of a sum, entry by entry. -/
private theorem forall₂_operands {α β : Type} {R : α → β → Prop} {xs : Vector α n}
    {ys : Vector β n} (h : Each R xs ys) (is : List (Fin n)) :
    List.Forall₂ R (is.map xs.get) (is.map ys.get) := by
  rw [List.forall₂_map_left_iff, List.forall₂_map_right_iff, List.forall₂_same]
  intro i _
  exact h i i.isLt

/-- A sum that was built had room: its decomposition refuses any other. -/
theorem gives_build (leaf : Option UInt64) (xs : Vector (Bits w) n) (op : Op w n) :
    Gives (op.build (p := p) leaf xs) fun _ => op.Fits p := by
  cases op with
  | addMany is =>
      have hlength : (is.map xs.get).length = is.length := List.length_map ..
      refine (gives_addMany _).mono fun _ hroom => ?_
      rw [hlength] at hroom
      exact hroom
  | _ => exact (Gives.any _).mono fun _ _ => trivial

theorem forces_build (hp : p.Prime) (hw : w ≤ 64) {z : Variable → Fp p} (one : z .one = 1)
    {op : Op w n} (hfits : op.Fits p) (hop : op.Unwrapped) (leaf : Option UInt64)
    (xs : Vector (Bits w) n) : Forces z (op.build leaf xs) fun r =>
      ∀ vs, Each (Is z) xs vs → r.Is z (op.eval (r.read z) vs) := by
  have hconst := Bit.val_const one
  cases op with
  | constant v =>
      refine Forces.pure fun _ _ => ?_
      rw [constant_eq]
      exact reads_constant hconst _ hw
  | alloc =>
      refine (forces_alloc hp one leaf).mono fun r hr _ _ => ?_
      obtain ⟨v, hv⟩ := hr
      show r.Is z (r.read z)
      rw [hv.read_eq hp]
      exact hv
  | rotateRight x k => exact Forces.pure fun _ h => (h x x.isLt).rotateRight k
  | shiftRight x k => exact Forces.pure fun _ h => (h x x.isLt).shiftRight (hconst false) k hop
  | not x => exact Forces.pure fun _ h => (h x x.isLt).not fun _ _ => Bit.Is.not one
  | xor x y =>
      exact (forces_xor one _ _).mono fun _ hr _ h => hr _ _ (h x x.isLt) (h y y.isLt)
  | and x y =>
      exact (forces_and one _ _).mono fun _ hr _ h => hr _ _ (h x x.isLt) (h y y.isLt)
  | choose x y o =>
      exact (forces_choose one _ _ _).mono fun _ hr _ h =>
        hr _ _ _ (h x x.isLt) (h y y.isLt) (h o o.isLt)
  | majority x y o =>
      exact (forces_majority one _ _ _).mono fun _ hr _ h =>
        hr _ _ _ (h x x.isLt) (h y y.isLt) (h o o.isLt)
  | addMany is =>
      have hcap : sumWidth w (is.map xs.get).length ≤ Fp.capacity p := by
        rw [List.length_map]
        exact hfits
      exact (forces_addMany hp one _ hcap hw).mono fun _ hr _ h => hr _ (forall₂_operands h is)

theorem honest_build (hw : w ≤ 64) {t : Witness p} {op : Op w n} (hfits : op.Fits p)
    (hop : op.Unwrapped) (leaf : UInt64) {xs : Vector (Bits w) n} {vs : Vector (BitVec w) n}
    (h : Each (Live t) xs vs) : Honest t (op.build (some leaf) xs) fun t' r =>
      r.Live t' (op.eval (BitVec.ofNat w leaf.toNat) vs) := by
  cases op with
  | constant v =>
      refine Honest.pure fun t' _ => ?_
      rw [constant_eq]
      exact live_constant t' _ hw
  | alloc => exact honest_alloc leaf hw
  | rotateRight x k => exact Honest.pure fun _ hle => ((h x x.isLt).mono hle).rotateRight k hw
  | shiftRight x k => exact Honest.pure fun _ hle => ((h x x.isLt).mono hle).shiftRight k hw hop
  | not x => exact Honest.pure fun _ hle => ((h x x.isLt).mono hle).not
  | xor x y => exact honest_xor (h x x.isLt) (h y y.isLt)
  | and x y => exact honest_and (h x x.isLt) (h y y.isLt)
  | choose x y o => exact honest_choose (h x x.isLt) (h y y.isLt) (h o o.isLt)
  | majority x y o => exact honest_majority (h x x.isLt) (h y y.isLt) (h o o.isLt)
  | addMany is =>
      have hcap : sumWidth w (is.map xs.get).length ≤ Fp.capacity p := by
        rw [List.length_map]
        exact hfits
      exact honest_addMany (forall₂_operands h is) hcap hw

theorem follows_build {m m' : Mode} [Mode.AsksLess m m'] (op : Op w n)
    {leaf leaf' : Option UInt64} (hleaf : m.solves = true → leaf = leaf')
    {xs xs' : Vector (Bits w) n} (h : Each (Alike m) xs xs') :
    Follows m m' (op.build (p := p) leaf xs) (op.build leaf' xs') (Alike m) := by
  cases op with
  | constant v => exact Follows.pure (alike_refl m _)
  | alloc => exact follows_alloc hleaf
  | rotateRight x k => exact Follows.pure ((h x x.isLt).rotateRight k)
  | shiftRight x k => exact Follows.pure ((h x x.isLt).shiftRight k)
  | not x => exact Follows.pure (h x x.isLt).not
  | xor x y => exact follows_xor (h x x.isLt) (h y y.isLt)
  | and x y => exact follows_and (h x x.isLt) (h y y.isLt)
  | choose x y o => exact follows_choose (h x x.isLt) (h y y.isLt) (h o o.isLt)
  | majority x y o => exact follows_majority (h x x.isLt) (h y y.isLt) (h o o.isLt)
  | addMany is => exact follows_addMany (forall₂_operands h is)

end Op

/-! ## Lists of operations -/

/-- Operations in a row, each in namespaces of its own; the results of the ones
    before are the operands of the ones after. -/
inductive Computation (w : Nat) : Nat → Type where
  | nil : Computation w 0
  | snoc {n : Nat} (first : Computation w n) (path : List String) (op : Op w n) :
      Computation w (n + 1)

namespace Computation

/-- The circuit of a computation, where `leaves` are the values to allocate by
    position. -/
def build (leaves : Nat → Option UInt64) {n : Nat} :
    Computation w n → Build p SynthesisError (Vector (Bits w) n)
  | .nil => return #v[]
  | .snoc (n := n) first path op => do
    let xs ← first.build leaves
    return xs.push (← Build.inside path (op.build (leaves n) xs))

/-- The computation on integers modulo `2 ^ w`. -/
def eval (leaves : Nat → BitVec w) {n : Nat} : Computation w n → Vector (BitVec w) n
  | .nil => #v[]
  | .snoc (n := n) first _ op => (first.eval leaves).push (op.eval (leaves n) (first.eval leaves))

/-- The field has room for every sum. -/
def Fits (p : Nat) {n : Nat} : Computation w n → Prop
  | .nil => True
  | .snoc first _ op => first.Fits p ∧ op.Fits p

/-- No place that a shift takes a bit from wraps around. -/
def Unwrapped {n : Nat} : Computation w n → Prop
  | .nil => True
  | .snoc first _ op => first.Unwrapped ∧ op.Unwrapped

/-- Only the leaves at positions of the computation matter. -/
theorem eval_congr {leaves leaves' : Nat → BitVec w} {n : Nat} (c : Computation w n)
    (h : ∀ i < n, leaves i = leaves' i) : c.eval leaves = c.eval leaves' := by
  induction c with
  | nil => rfl
  | @snoc n first path op ih =>
      have hfirst : first.eval leaves = first.eval leaves' := ih fun i hi => h i (by omega)
      rw [eval, eval, hfirst, h n (by omega)]

theorem gives_build (leaves : Nat → Option UInt64) {n : Nat}
    (c : Computation w n) : Gives (c.build (p := p) leaves) fun _ => c.Fits p := by
  induction c with
  | nil => exact Gives.pure trivial
  | @snoc n first path op ih =>
      refine ih.bind fun xs hfirst => ?_
      refine ((op.gives_build (leaves n) xs).inside path).bind fun _ hop => ?_
      exact Gives.pure ⟨hfirst, hop⟩

/-- In any assignment that satisfies the rows, every result is what the
    computation makes of what the allocated integers read as. -/
theorem forces_build (hp : p.Prime) (hw : w ≤ 64) {z : Variable → Fp p} (one : z .one = 1)
    {n : Nat} {c : Computation w n} (hfits : c.Fits p) (hc : c.Unwrapped)
    (leaves : Nat → Option UInt64) :
    Forces z (c.build leaves) fun xs => Each (Is z) xs (c.eval (readAt z xs)) := by
  induction c with
  | nil => exact Forces.pure fun i hi => absurd hi (Nat.not_lt_zero i)
  | @snoc n first path op ih =>
      refine (ih hfits.1 hc.1).bind fun xs => ?_
      refine ((Op.forces_build hp hw one hfits.2 hc.2 (leaves n) xs).inside path).bind fun r =>
        Forces.pure fun hr hxs => ?_
      -- the results before read as they did
      have hbefore : first.eval (readAt z (xs.push r)) = first.eval (readAt z xs) := by
        refine first.eval_congr fun i hi => ?_
        simp [readAt, hi, Nat.lt_succ_of_lt hi, Vector.getElem_push_lt]
      have hlast : readAt z (xs.push r) n = r.read z := by simp [readAt]
      rw [eval, hbefore, hlast]
      exact hxs.push (hr _ hxs)

/-- A run with values computes what the computation makes of the leaves, and
    its values satisfy the rows. -/
theorem honest_build (hw : w ≤ 64) (t : Witness p) {n : Nat} {c : Computation w n}
    (hfits : c.Fits p) (hc : c.Unwrapped) (leaves : Nat → UInt64) :
    Honest t (c.build fun i => some (leaves i)) fun t' xs =>
      Each (Live t') xs (c.eval fun i => BitVec.ofNat w (leaves i).toNat) := by
  induction c with
  | nil => exact Honest.pure fun _ _ i hi => absurd hi (Nat.not_lt_zero i)
  | @snoc n first path op ih =>
      refine (ih hfits.1 hc.1).bind fun t₁ xs _ hxs => ?_
      refine ((Op.honest_build hw hfits.2 hc.2 (leaves n) hxs).inside path).bind fun t₂ r hle hr =>
        Honest.pure fun t₃ hle' => ?_
      exact (hxs.imp fun _ _ hx => hx.mono (hle.trans hle')).push (hr.mono hle')

theorem follows_build {m m' : Mode} [Mode.AsksLess m m']
    {leaves leaves' : Nat → Option UInt64} (hleaves : m.solves = true → leaves = leaves')
    {n : Nat} (c : Computation w n) :
    Follows m m' (c.build (p := p) leaves) (c.build leaves') (Each (Alike m)) := by
  induction c with
  | nil => exact Follows.pure fun i hi => absurd hi (Nat.not_lt_zero i)
  | @snoc n first path op ih =>
      refine ih.bind fun xs xs' hxs => ?_
      refine ((op.follows_build (fun hm => congrFun (hleaves hm) n) hxs).inside path).bind
        fun r r' hr => Follows.pure (hxs.push hr)

/-! ## The circuit computes the computation -/

/-- A computation on integers of at most 64 bits that can be built at all, and
    none of whose shifts wraps around, is computed by its circuit.  Its shape,
    which no value of a leaf takes part in, has rows that force every result,
    in any assignment, to be what the computation makes of what the leaves read
    as there; and a witness run with values for the leaves succeeds, satisfies
    those rows, and gives the results that the computation makes of the low
    digits of the values, bits and caches alike. -/
theorem build_exact (hp : p.Prime) (hw : w ≤ 64) {n : Nat} (c : Computation w n)
    (hc : c.Unwrapped) {mode : Mode} {given : Nat → Option UInt64} {s₀ s₀' : System p}
    {xs₀ : Vector (Bits w) n} (hrun : c.build given mode s₀ = .ok xs₀ s₀')
    (blank : Nat → Option UInt64) (s : System p) :
    ∃ xs s', c.build blank .compiling s = .ok xs s' ∧
      (∀ z : Variable → Fp p, z .one = 1 → s'.HoldsSince s z →
        Each (Is z) xs (c.eval (readAt z xs))) ∧
      ∀ (leaves : Nat → UInt64) (u : System p), s.Paired u → u.inputs[0]? = some 1 →
        ∃ ys u', c.build (fun i => some (leaves i)) .solving u = .ok ys u' ∧ s'.Paired u' ∧
          s'.HoldsSince s u'.witness.value ∧
          Each (Live u'.witness) ys (c.eval fun i => BitVec.ofNat w (leaves i).toNat) ∧
          (∀ i (hi : i < n), ys[i].value.map UInt64.toNat
            = some ((c.eval fun i => BitVec.ofNat w (leaves i).toNat)[i]).toNat) ∧
          Each (Alike .compiling) xs ys := by
  have hfits : c.Fits p := c.gives_build given mode s₀ s₀' xs₀ hrun
  have hshape : ∀ leaves : Nat → UInt64, Follows .compiling .tracing (c.build (p := p) blank)
      (c.build fun i => some (leaves i)) (Each (Alike .compiling)) :=
    fun _ => c.follows_build Bool.false_ne_true.elim
  have hself : ∀ leaves : Nat → UInt64, Follows .solving .tracing
      (c.build (p := p) fun i => some (leaves i)) (c.build fun i => some (leaves i))
      (Each (Alike .solving)) := fun _ => c.follows_build fun _ => rfl
  -- the shape is that of a run with any values, say with zeros
  obtain ⟨xs, s', _, _, _, hcompile, _⟩ :=
    (honest_build hw (s.valued fun _ => 0).witness hfits hc fun _ => 0).paired (hshape _)
      (hself _) (s.paired_valued fun _ => 0)
  refine ⟨xs, s', hcompile, fun z one hz => ?_, fun leaves u hpaired hone => ?_⟩
  · exact (forces_build hp hw one hfits hc blank .compiling s s' xs rfl hcompile).2 hz
  · obtain ⟨xs', s'', ys, u', zs, hcompile', hsolve, hpaired', hle, _, hrows, halike, hys,
        hlive⟩ :=
      (honest_build hw u.witness hfits hc leaves).paired (hshape leaves) (hself leaves) hpaired
    obtain ⟨rfl, rfl⟩ := EStateM.Result.ok.inj (hcompile.symm.trans hcompile')
    obtain rfl : ys = zs := Vector.ext fun i hi => (hys i hi).eq rfl
    have hfit : u'.witness.Fits u'.witness.value :=
      Witness.fits_value (Witness.getElem?_mono hle.inputs hone)
    refine ⟨ys, u', hsolve, hpaired', hrows _ hfit, hlive, fun i hi => ?_, halike⟩
    rw [(hlive i hi).1, Option.map_some, toNat_cell hw]

/-- An integer and twice its rotation by one place. -/
def rotatedSum : Computation 4 3 :=
  ((nil.snoc ["x"] .alloc).snoc [] (.rotateRight 0 1)).snoc ["sum"] (.addMany [0, 1, 1])

theorem build_exact_rotatedSum : ∃ (xs ys : Vector (Bits 4) 3) (s' u' : System Moduli.bn256),
    rotatedSum.build (fun _ => none) .compiling .start = .ok xs s' ∧
      (∀ z : Variable → Fp Moduli.bn256, z .one = 1 → s'.HoldsSince .start z →
        Each (Is z) xs (rotatedSum.eval (readAt z xs))) ∧
      rotatedSum.build (fun _ => some 25) .solving .start = .ok ys u' ∧
      ys[2].value = some 1 := by
  have hroom : sumWidth 4 3 ≤ Fp.capacity Moduli.bn256 := by decide +kernel
  have hfits : rotatedSum.Fits Moduli.bn256 := ⟨⟨⟨trivial, trivial⟩, trivial⟩, hroom⟩
  have hc : rotatedSum.Unwrapped := ⟨⟨⟨trivial, trivial⟩, trivial⟩, trivial⟩
  obtain ⟨xs₀, s₀, hrun, _⟩ := honest_build (by decide) System.start.witness hfits hc
    (fun _ => 25) .start le_rfl System.paired_start.balanced
  obtain ⟨xs, s', hcompile, hforces, hsolves⟩ :=
    build_exact Moduli.bn256_prime (by decide) rotatedSum hc hrun (fun _ => none) .start
  obtain ⟨ys, u', hsolve, _, _, hlive, _⟩ := hsolves (fun _ => 25) .start System.paired_start rfl
  exact ⟨xs, ys, s', u', hcompile, hforces, hsolve, (hlive.entry 2).1⟩

/-- All ones, and their shift by the largest distance that there is. -/
def wrappedShift : Computation 8 2 :=
  (nil.snoc [] (.constant 255)).snoc [] (.shiftRight 0 0xffffffffffffffff)

/-- Shifting eight ones by `2 ^ 64 - 1` leaves zero natively, and that is what
    the cache says.  The bits from the second on are ones all the same. -/
theorem shift_wraps_around : ∃ ys, wrappedShift.build (p := Moduli.bn256) (fun _ => none)
      .solving .start = .ok ys .start ∧ ys[1].value = some 0 ∧
    (wrappedShift.eval fun _ => 0)[1] = 0#8 ∧
    (∀ i (hi : i < 8), ys[1].bits[i] = .const (decide (0 < i))) ∧
    ¬ Each (Is fun _ => (1 : Fp Moduli.bn256)) ys (wrappedShift.eval fun _ => 0) := by
  refine ⟨_, rfl, rfl, rfl, by decide, fun h => ?_⟩
  have hbit : (Bit.const true).Is (fun _ => (1 : Fp Moduli.bn256)) false :=
    h 1 (by decide) 1 (by decide)
  have hone := (Bit.val_const (z := fun _ => (1 : Fp Moduli.bn256)) rfl true).symm.trans hbit
  exact Bool.true_eq_false_eq_False (Fp.ofBool_injective Moduli.bn256_prime hone)

end Computation

end RankOne.Bits
