import RankOne.Proofs.Vectors

/-!
# Caches — the value of an integer beside the values of its bits

    An integer carries its value twice: once as a whole, and once bit by bit.
    The two are computed apart, the one by arithmetic on words and the other by
    gates, and in a run that does not solve each of them may be missing where
    the other is there.

    `m.Tells o v` says that `o` is what a run in mode `m` knows of the value
    `v`: `v` itself, or nothing, where the run does not solve.  An integer is
    sound when its bits tell a bit vector and its cache, if there is room for
    it there, the cell of it, so that the cache has nothing past the width.
    Every operation keeps that, whatever is known of its operands, as long as
    no shift takes bits from places that wrap around.
-/

namespace RankOne

open Build

variable {p : Nat} [Modulus p]

/-! ## What is known of a value -/

/-- The value is `v` where it is known, and a run that solves knows it. -/
inductive Mode.Tells {α : Type} (m : Mode) : Option α → α → Prop where
  | known (v : α) : m.Tells (some v) v
  | unknown (h : m.solves = false) (v : α) : m.Tells none v

namespace Mode.Tells

variable {α β : Type} {m : Mode} {o : Option α} {v : α}

/-- What is known of a value is the value. -/
theorem eq (h : m.Tells o v) {u : α} (hu : o = some u) : u = v := by
  subst hu
  cases h
  rfl

/-- A run that solves knows every value. -/
theorem ne_none (h : m.Tells o v) (hm : m.solves = true) : o ≠ none := by
  cases h with
  | known v => nofun
  | unknown h v => exact absurd (hm.symm.trans h) Bool.noConfusion

/-- What is computed of known values is known. -/
theorem bind {f : α → Option β} {u : β} (h : m.Tells o v) (hf : m.Tells (f v) u) :
    m.Tells (o.bind f) u := by
  cases h with
  | known v => exact hf
  | unknown h v => exact .unknown h u

theorem map (h : m.Tells o v) (f : α → β) : m.Tells (o.map f) (f v) := by
  cases h with
  | known v => exact .known (f v)
  | unknown h v => exact .unknown h (f v)

/-- A list is known where all of its entries are. -/
theorem mapM {f : β → Option α} {xs : List β} {vs : List α}
    (h : List.Forall₂ (fun x v => m.Tells (f x) v) xs vs) : m.Tells (xs.mapM f) vs := by
  induction h with
  | nil => exact .known []
  | cons hx _ ih =>
      rw [List.mapM_cons]
      exact hx.bind (ih.bind (.known _))

end Mode.Tells

namespace Bit

variable {m : Mode}

/-- A run that solves knows the bit. -/
def Told (m : Mode) (b : Bit) : Prop := ∃ v, m.Tells b.value v

/-- A bit that has a value wherever the run solves is told. -/
theorem told_of_ne_none {b : Bit} (h : m.solves = true → b.value ≠ none) : b.Told m := by
  unfold Told
  cases hb : b.value with
  | none =>
      have hm : m.solves = false := Bool.eq_false_iff.mpr fun hm => h hm hb
      exact ⟨false, .unknown hm false⟩
  | some v => exact ⟨v, .known v⟩

theorem tells_const (b : Bool) : m.Tells (const b).value b := .known b

/-- A negation tells the other value. -/
theorem tells_not {b : Bit} {v : Bool} (h : m.Tells b.value v) : m.Tells b.not.value !v := by
  rw [not_value]
  exact h.map (!·)

theorem Told.not {b : Bit} (h : b.Told m) : b.not.Told m := by
  obtain ⟨v, hv⟩ := h
  exact ⟨!v, tells_not hv⟩

end Bit

/-! ## Gates -/

namespace BitVar

variable {m : Mode} {a b : BitVar} {x y : Bool}

/-- An allocated bit has the value that was asked for. -/
theorem givesIn_alloc (value : Option Bool) :
    GivesIn m (alloc (p := p) value) fun r =>
      r.value = value ∧ (m.solves = true → value ≠ none) := by
  refine (GivesIn.aux _ _).bind fun x hx => (GivesIn.any _).bind fun _ _ => GivesIn.pure ?_
  refine ⟨rfl, fun hm hnone => ?_⟩
  rcases hx with ⟨hm', _⟩ | ⟨_, hvalue⟩
  · exact absurd (hm.symm.trans hm') Bool.noConfusion
  · exact hvalue (congrArg (Option.map Fp.ofBool) hnone)

/-- A bit that was given a value keeps it, also where no witness is kept. -/
theorem told_alloc (value : Option Bool) :
    GivesIn m (alloc (p := p) value) fun r => (Bit.pos r).Told m := by
  refine (givesIn_alloc value).mono fun r hr => Bit.told_of_ne_none fun hm hnone => ?_
  exact hr.2 hm (hr.1.symm.trans hnone)

/-- The result of a gate has the gate's value, where the run has computed it. -/
theorem tells_row {name row : String} {value : Option Bool} {l r : LinComb p}
    {c : BitVar → LinComb p} {v : Bool} (h : m.Tells value v) :
    GivesIn m (do let o ← result name value; enforce row l r (c o); return o)
      fun o => m.Tells o.value v := by
  have hresult : GivesIn m (result (p := p) name value) fun o => m.Tells o.value v := by
    refine (GivesIn.aux _ _).bind fun x hx => GivesIn.pure ?_
    show m.Tells (x.value.bind fun _ => value) v
    rcases hx with ⟨hm, hnone⟩ | ⟨hx, hvalue⟩
    · rw [hnone]
      exact .unknown hm v
    · cases h with
      | known v =>
          rw [hx]
          exact .known v
      | unknown hm v => exact absurd rfl hvalue
  exact hresult.bind fun o ho => (GivesIn.any _).bind fun _ _ => GivesIn.pure ho

/-- The value of a gate is computed where both operands are known. -/
private theorem tells_valueOf (f : Bool → Bool → Bool) (ha : m.Tells a.value x)
    (hb : m.Tells b.value y) : m.Tells (valueOf f a b) (f x y) :=
  ha.bind (hb.bind (.known _))

variable (ha : m.Tells a.value x) (hb : m.Tells b.value y)

include ha hb

/-- The result of a gate is known where the run solves. -/
theorem tells_xor : GivesIn m (xor (p := p) a b) fun r => m.Tells r.value (x ^^ y) :=
  tells_row (tells_valueOf _ ha hb)

theorem tells_and : GivesIn m (and (p := p) a b) fun r => m.Tells r.value (x && y) :=
  tells_row (tells_valueOf _ ha hb)

theorem tells_andNot : GivesIn m (andNot (p := p) a b) fun r => m.Tells r.value (x && !y) :=
  tells_row (tells_valueOf (fun a b => a && !b) ha hb)

theorem tells_nor : GivesIn m (nor (p := p) a b) fun r => m.Tells r.value (!x && !y) :=
  tells_row (tells_valueOf (fun a b => !a && !b) ha hb)

end BitVar

namespace Bit

variable {m : Mode} {a b c : Bit} {x y v : Bool}

/-- A negated variable tells the opposite. -/
theorem tells_neg {a : BitVar} : m.Tells (neg a).value x ↔ m.Tells a.value !x := by
  constructor
  · intro h
    exact tells_not h
  · intro h
    have hnot := tells_not (b := pos a) h
    rw [Bool.not_not] at hnot
    exact hnot

omit [Modulus p] in
/-- To tell a truth value is a judgement that folds. -/
theorem folds_tells : Folds (p := p) Meaning.truth (fun a x => m.Tells a.value x)
    fun body v => GivesIn m body fun r => m.Tells r.value v where
  of_const h := (h.eq rfl).symm
  const := tells_const
  not := tells_not
  give h := .pure h
  negate h := .map (h.mono fun _ hr => tells_not hr)

/-- Whichever way a gate is folded, its result tells the exclusive or. -/
theorem tells_xor (ha : m.Tells a.value x) (hb : m.Tells b.value y) :
    GivesIn m (xor (p := p) a b) fun r => m.Tells r.value (x ^^ y) := by
  refine folds_tells.xor ha hb fun ha' hb' => ?_
  -- of two variables the signs are drawn out
  cases a with
  | const u => exact absurd rfl (ha' u)
  | pos a =>
      cases b with
      | const u => exact absurd rfl (hb' u)
      | pos b => exact (BitVar.tells_xor ha hb).bind fun r hr => GivesIn.pure hr
      | neg b =>
          refine (BitVar.tells_xor ha (tells_neg.mp hb)).bind fun r hr => GivesIn.pure ?_
          rw [Bool.xor_not] at hr
          exact tells_neg.mpr hr
  | neg a =>
      cases b with
      | const u => exact absurd rfl (hb' u)
      | pos b =>
          refine (BitVar.tells_xor hb (tells_neg.mp ha)).bind fun r hr => GivesIn.pure ?_
          rw [Bool.xor_not, Bool.xor_comm] at hr
          exact tells_neg.mpr hr
      | neg b =>
          refine (BitVar.tells_xor (tells_neg.mp ha) (tells_neg.mp hb)).bind fun r hr =>
            GivesIn.pure ?_
          rw [Bool.not_xor_not] at hr
          exact hr

/-- And the conjunction. -/
theorem tells_and (ha : m.Tells a.value x) (hb : m.Tells b.value y) :
    GivesIn m (and (p := p) a b) fun r => m.Tells r.value (x && y) := by
  refine folds_tells.and ha hb fun ha' hb' => ?_
  -- each pair of signs has a gate of its own
  cases a with
  | const u => exact absurd rfl (ha' u)
  | pos a =>
      cases b with
      | const u => exact absurd rfl (hb' u)
      | pos b => exact (BitVar.tells_and ha hb).bind fun r hr => GivesIn.pure hr
      | neg b =>
          refine (BitVar.tells_andNot ha (tells_neg.mp hb)).bind fun r hr => GivesIn.pure ?_
          rw [Bool.not_not] at hr
          exact hr
  | neg a =>
      cases b with
      | const u => exact absurd rfl (hb' u)
      | pos b =>
          refine (BitVar.tells_andNot hb (tells_neg.mp ha)).bind fun r hr => GivesIn.pure ?_
          rw [Bool.not_not, Bool.and_comm] at hr
          exact hr
      | neg b =>
          refine (BitVar.tells_nor (tells_neg.mp ha) (tells_neg.mp hb)).bind fun r hr =>
            GivesIn.pure ?_
          rw [Bool.not_not, Bool.not_not] at hr
          exact hr

/-- A gate on three bits takes the value of its result from them. -/
private theorem tells_valueOf₃ (f : Bool → Bool → Bool → Bool) (ha : m.Tells a.value x)
    (hb : m.Tells b.value y) (hc : m.Tells c.value v) : m.Tells (valueOf₃ f a b c) (f x y v) :=
  ha.bind (hb.bind (hc.bind (.known _)))

/-- The result of a choice has the value of its operands, in any run. -/
private theorem tells_chooseVar (ha : m.Tells a.value x) (hb : m.Tells b.value y)
    (hc : m.Tells c.value v) :
    GivesIn m (chooseVar (p := p) a b c) fun r => m.Tells r.value (choice x y v) := by
  refine (GivesIn.any _).bind fun _ _ => (GivesIn.any _).bind fun _ _ => GivesIn.pure ?_
  exact tells_valueOf₃ choice ha hb hc

/-- A choice tells the operand that is chosen. -/
theorem tells_choose (ha : m.Tells a.value x) (hb : m.Tells b.value y) (hc : m.Tells c.value v) :
    GivesIn m (choose (p := p) a b c) fun r => m.Tells r.value (choice x y v) :=
  folds_tells.choose ha hb hc tells_and fun _ _ _ => tells_chooseVar ha hb hc

/-- The result of a majority has a value likewise. -/
private theorem tells_majorityVar (ha : m.Tells a.value x) (hb : m.Tells b.value y)
    (hc : m.Tells c.value v) :
    GivesIn m (majorityVar (p := p) a b c) fun r => m.Tells r.value (most x y v) := by
  refine (GivesIn.any _).bind fun _ _ => (GivesIn.any _).bind fun _ _ => ?_
  exact (GivesIn.any _).bind fun _ _ => GivesIn.pure (tells_valueOf₃ most ha hb hc)

/-- A majority tells the value that two of three have. -/
theorem tells_majority (ha : m.Tells a.value x) (hb : m.Tells b.value y)
    (hc : m.Tells c.value v) :
    GivesIn m (majority (p := p) a b c) fun r => m.Tells r.value (most x y v) :=
  folds_tells.majority ha hb hc tells_and fun _ _ _ => tells_majorityVar ha hb hc

end Bit

/-! ## Digits -/

/-- The digits of a number are known to a run that solves, for it has to have
    allocated them. -/
theorem LinNum.told_toBits {m : Mode} (x : LinNum p) (n : Nat) :
    GivesIn m (x.toBits n) fun bits => ∀ i (hi : i < n), bits[i].Told m := by
  refine GivesIn.ite (fun _ => GivesIn.throw _ _) fun _ => ?_
  refine (GivesIn.tabulate fun i => (BitVar.told_alloc _).within).bind fun digits hdigits => ?_
  refine (GivesIn.any _).bind fun _ _ => GivesIn.pure fun i hi => ?_
  rw [Vector.getElem_map]
  exact hdigits i hi

namespace Bits

variable {m : Mode} {w : Nat} {x : Bits w}

/-! ## Integers -/

/-- The bits tell a bit vector, and up to a width of 64 the cache tells its
    cell. -/
def Sound (m : Mode) (x : Bits w) : Prop :=
  ∃ v, x.Reads (fun b u => m.Tells b.value u) v ∧ (w ≤ 64 → m.Tells x.value (cell v))

/-- The cache is below `2 ^ w`, and every bit that is known is the digit of the
    cache at its place. -/
def Coherent (x : Bits w) : Prop :=
  ∀ v, x.value = some v → v.toNat < 2 ^ w ∧
    ∀ i (hi : i < w) b, x.bits[i].value = some b → b = v.toNat.testBit i

/-- The cache is there, and all of the bits are known. -/
def Known (x : Bits w) : Prop :=
  x.value ≠ none ∧ ∀ i (hi : i < w), x.bits[i].value ≠ none

/-- The bits of a sound integer are told. -/
theorem Sound.told (h : x.Sound m) (i : Nat) (hi : i < w) : x.bits[i].Told m := by
  obtain ⟨v, hbits, _⟩ := h
  exact ⟨_, hbits i hi⟩

/-- A sound integer has its cache in step with its bits. -/
theorem Sound.coherent (h : x.Sound m) (hw : w ≤ 64) : x.Coherent := by
  obtain ⟨v, hbits, hvalue⟩ := h
  intro u hu
  obtain rfl := (hvalue hw).eq hu
  rw [toNat_cell hw]
  exact ⟨v.isLt, fun i hi b hb => (hbits i hi).eq hb⟩

/-- In a run that solves a sound integer is known. -/
theorem Sound.known (h : x.Sound m) (hw : w ≤ 64) (hm : m.solves = true) : x.Known := by
  obtain ⟨v, hbits, hvalue⟩ := h
  exact ⟨(hvalue hw).ne_none hm, fun i hi => (hbits i hi).ne_none hm⟩

/-- Bits that are told tell a bit vector. -/
theorem exists_reads (h : ∀ i (hi : i < w), x.bits[i].Told m) :
    ∃ v, x.Reads (fun b u => m.Tells b.value u) v := by
  choose f hf using h
  refine ⟨BitVec.ofNat w (natOfBits (List.ofFn fun i : Fin w => f i i.isLt)), fun i hi => ?_⟩
  have hdigit : (BitVec.ofNat w (natOfBits (List.ofFn fun i : Fin w => f i i.isLt))).getLsbD i
      = f i hi := by
    rw [BitVec.getLsbD_ofNat, testBit_natOfBits]
    simp [hi]
  rw [hdigit]
  exact hf i hi

/-- Past a width of 64 nothing is asked of the cache. -/
theorem sound_of_told (hw : ¬ w ≤ 64) (h : ∀ i (hi : i < w), x.bits[i].Told m) : x.Sound m := by
  obtain ⟨v, hv⟩ := exists_reads h
  exact ⟨v, hv, fun hw' => absurd hw' hw⟩

/-- An integer that is put together from bits takes its value from them. -/
theorem sound_ofBits {bits : Vector Bit w} (h : ∀ i (hi : i < w), bits[i].Told m) :
    (ofBits bits).Sound m := by
  obtain ⟨v, hbits⟩ := exists_reads (x := ofBits bits) h
  refine ⟨v, hbits, fun _ => ?_⟩
  have hvalues : m.Tells (bits.toList.mapM Bit.value) ((List.range w).map v.getLsbD) :=
    Mode.Tells.mapM (Bit.forall₂_digits (R := fun b c => m.Tells b.value c) (v := v.toNat) hbits)
  rw [← wordOfBits_digits v]
  exact hvalues.map wordOfBits

/-- A constant is cut to its width. -/
theorem sound_constant (v : UInt64) : (constant v : Bits w).Sound m := by
  by_cases hw : w ≤ 64
  · rw [constant_eq]
    refine ⟨BitVec.ofNat w v.toNat, reads_constant Bit.tells_const _ hw, fun _ => ?_⟩
    show m.Tells (some (cell _ &&& mask w)) _
    rw [cell_and_mask]
    exact .known _
  · refine sound_of_told hw fun i hi => ?_
    rw [bits_constant]
    exact ⟨_, Bit.tells_const _⟩

/-- An allocated integer of at least one bit.  One without bits would have
    nothing to ask for its value. -/
theorem sound_alloc (hpos : 0 < w) (value : Option UInt64) :
    GivesIn m (alloc (w := w) (p := p) value) (Sound m) := by
  refine (GivesIn.tabulate fun i => (BitVar.givesIn_alloc _).within).bind
    fun bits hbits => GivesIn.pure ?_
  have hget : ∀ i (hi : i < w), (bits.map Bit.pos)[i].value = value.map (isSet · i) := by
    intro i hi
    rw [Vector.getElem_map]
    exact (hbits i hi).1
  have hnone : value = none → m.solves = false := fun hvalue =>
    Bool.eq_false_iff.mpr fun hm => (hbits 0 hpos).2 hm (congrArg (Option.map _) hvalue)
  by_cases hw : w ≤ 64
  · cases value with
    | some v =>
        refine ⟨BitVec.ofNat w v.toNat, fun i hi => ?_, fun _ => ?_⟩
        · show m.Tells (bits.map Bit.pos)[i].value _
          rw [hget i hi, ← isSet_ofNat v hi hw]
          exact .known _
        · rw [← and_mask]
          exact .known _
    | none =>
        refine ⟨0, fun i hi => ?_, fun _ => .unknown (hnone rfl) _⟩
        show m.Tells (bits.map Bit.pos)[i].value _
        rw [hget i hi]
        exact .unknown (hnone rfl) _
  · refine sound_of_told hw fun i hi => Bit.told_of_ne_none fun hm => ?_
    show (bits.map Bit.pos)[i].value ≠ none
    rw [hget i hi]
    intro hvalue
    exact absurd (hm.symm.trans (hnone (Option.map_eq_none_iff.mp hvalue))) Bool.noConfusion

/-- Bits and cache are rotated alike. -/
theorem Sound.rotateRight (h : x.Sound m) (k : Nat) : (x.rotateRight k).Sound m := by
  obtain ⟨v, hbits, hvalue⟩ := h
  refine ⟨v.rotateRight k, hbits.rotateRight k, fun hw => ?_⟩
  rw [← cell_rotateRight hw]
  exact (hvalue hw).map _

/-- Bits and cache are shifted alike as long as no place wraps around. -/
theorem Sound.shiftRight (h : x.Sound m) {k : UInt64} (hk : w + k.toNat ≤ 2 ^ 64) :
    (x.shiftRight k).Sound m := by
  obtain ⟨v, hbits, hvalue⟩ := h
  refine ⟨v >>> k.toNat, hbits.shiftRight (Bit.tells_const false) k hk, fun hw => ?_⟩
  rw [← cell_shiftRight hw]
  exact (hvalue hw).map _

/-- The complement is taken below the width. -/
theorem Sound.not (h : x.Sound m) : x.not.Sound m := by
  obtain ⟨v, hbits, hvalue⟩ := h
  refine ⟨~~~v, hbits.not fun _ _ => Bit.tells_not, fun hw => ?_⟩
  rw [← cell_not]
  exact (hvalue hw).map _

section Bitwise

variable {a b c : Bits w}

omit [Modulus p] in
/-- A gate that tells its truth function makes a word that is sound. -/
private theorem sound_bitwise {gate : Bit → Bit → Build p SynthesisError Bit}
    {op : BitVec w → BitVec w → BitVec w} {onValues : UInt64 → UInt64 → UInt64}
    (f : Bool → Bool → Bool)
    (hgate : ∀ {a b x y}, m.Tells a.value x → m.Tells b.value y →
      GivesIn m (gate a b) fun r => m.Tells r.value (f x y))
    (hop : ∀ v u i, i < w → (op v u).getLsbD i = f (v.getLsbD i) (u.getLsbD i))
    (hvalues : ∀ v u, onValues (cell v) (cell u) = cell (op v u))
    (ha : a.Sound m) (hb : b.Sound m) : GivesIn m (bitwise gate onValues a b) (Sound m) := by
  obtain ⟨v, hvbits, hv⟩ := ha
  obtain ⟨u, hubits, hu⟩ := hb
  refine (GivesIn.tabulate (Q := fun i r => m.Tells r.value ((op v u).getLsbD i))
    fun i => ?_).bind fun bits hbits => GivesIn.pure ?_
  · rw [hop v u i i.isLt]
    exact (hgate (hvbits i i.isLt) (hubits i i.isLt)).within
  · refine ⟨op v u, hbits, fun hw => ?_⟩
    rw [← hvalues]
    exact (hv hw).bind ((hu hw).bind (.known _))

omit [Modulus p] in
private theorem sound_bitwise₃ {gate : Bit → Bit → Bit → Build p SynthesisError Bit}
    {op : BitVec w → BitVec w → BitVec w → BitVec w}
    {onValues : UInt64 → UInt64 → UInt64 → UInt64} (f : Bool → Bool → Bool → Bool)
    (hgate : ∀ {a b c x y o}, m.Tells a.value x → m.Tells b.value y → m.Tells c.value o →
      GivesIn m (gate a b c) fun r => m.Tells r.value (f x y o))
    (hop : ∀ v u o i, i < w →
      (op v u o).getLsbD i = f (v.getLsbD i) (u.getLsbD i) (o.getLsbD i))
    (hvalues : ∀ v u o, onValues (cell v) (cell u) (cell o) = cell (op v u o))
    (ha : a.Sound m) (hb : b.Sound m) (hc : c.Sound m) :
    GivesIn m (bitwise₃ gate onValues a b c) (Sound m) := by
  obtain ⟨v, hvbits, hv⟩ := ha
  obtain ⟨u, hubits, hu⟩ := hb
  obtain ⟨o, hobits, ho⟩ := hc
  refine (GivesIn.tabulate (Q := fun i r => m.Tells r.value ((op v u o).getLsbD i))
    fun i => ?_).bind fun bits hbits => GivesIn.pure ?_
  · rw [hop v u o i i.isLt]
    exact (hgate (hvbits i i.isLt) (hubits i i.isLt) (hobits i i.isLt)).within
  · refine ⟨op v u o, hbits, fun hw => ?_⟩
    rw [← hvalues]
    exact (hv hw).bind ((hu hw).bind ((ho hw).bind (.known _)))

/-- The exclusive or of sound integers is sound. -/
theorem sound_xor (ha : a.Sound m) (hb : b.Sound m) :
    GivesIn m (xor (p := p) a b) (Sound m) :=
  sound_bitwise Bool.xor Bit.tells_xor (fun _ _ _ _ => BitVec.getLsbD_xor) cell_xor ha hb

theorem sound_and (ha : a.Sound m) (hb : b.Sound m) :
    GivesIn m (and (p := p) a b) (Sound m) :=
  sound_bitwise Bool.and Bit.tells_and (fun _ _ _ _ => BitVec.getLsbD_and) cell_and ha hb

/-- A choice between sound integers is sound. -/
theorem sound_choose (ha : a.Sound m) (hb : b.Sound m) (hc : c.Sound m) :
    GivesIn m (choose (p := p) a b c) (Sound m) :=
  sound_bitwise₃ Bit.choice Bit.tells_choose getLsbD_choose cell_choose ha hb hc

/-- The majority of sound integers is sound. -/
theorem sound_majority (ha : a.Sound m) (hb : b.Sound m) (hc : c.Sound m) :
    GivesIn m (majority (p := p) a b c) (Sound m) :=
  sound_bitwise₃ Bit.most Bit.tells_majority getLsbD_majority cell_majority ha hb hc

end Bitwise

/-! ## Integers from digits -/

/-- An integer that is split off a number has its cache read off its bits. -/
theorem sound_fromNum (x : Num p) : GivesIn m (fromNum (w := w) x) (Sound m) :=
  GivesIn.map ((x.toLinNum.told_toBits w).mono fun _ => sound_ofBits)

theorem sound_fromNums (xs : List (Num p)) : GivesIn m (fromNums (w := w) xs) (Sound m) :=
  GivesIn.map (((digitSum xs).told_toBits w).within.mono fun _ => sound_ofBits)

/-- The cache of a sum is read off its digits, so it takes nothing from the
    caches of the operands. -/
theorem sound_addMany (xs : List (Bits w)) : GivesIn m (addMany (p := p) xs) (Sound m) := by
  refine GivesIn.ite (fun _ => GivesIn.pure (sound_constant 0)) fun _ => ?_
  refine (LinNum.told_toBits _ _).within.bind fun digits hdigits => GivesIn.pure ?_
  refine sound_ofBits fun i hi => ?_
  rw [Vector.getElem_ofFn]
  show (digits[i]?.getD (.const false)).Told m
  by_cases hin : i < sumWidth w xs.length
  · rw [Vector.getElem?_eq_getElem hin]
    exact hdigits i hin
  · rw [Vector.getElem?_eq_none (not_lt.mp hin)]
    exact ⟨false, Bit.tells_const false⟩

end Bits

namespace Word

variable {m : Mode}

/-- Four sound bytes make a sound word. -/
theorem sound_ofBytesBE {bytes : Vector Byte 4} (h : ∀ i (hi : i < 4), bytes[i].Sound m) :
    (ofBytesBE bytes).Sound m := by
  refine Bits.sound_ofBits fun i hi => ?_
  rw [Vector.getElem_ofFn]
  exact (h _ _).told _ _

/-- A sound word is cut into sound bytes. -/
theorem sound_toBytesBE {x : Word} (h : x.Sound m) (j : Nat) (hj : j < 4) :
    (toBytesBE x)[j].Sound m := by
  rw [toBytesBE, Vector.getElem_ofFn]
  refine Bits.sound_ofBits fun i hi => ?_
  rw [Vector.getElem_ofFn]
  exact h.told _ _

end Word

end RankOne
