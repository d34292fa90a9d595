import RankOne.Proofs.Satisfaction
import RankOne.Proofs.Sha256.Calls
import RankOne.Proofs.Sha256.Soundness

/-!
# Ignored length — what the length bits of a sum encode

    A sum ends its padding in the length of the message in bits, less the
    bytes to ignore.  The subtraction is one of field elements, and all that
    the rows ask for is that eight times the difference is below `2 ^ 64`: the
    length bits encode that number, whatever it is.

    It is the number of bits that are left exactly when it is eight times a
    number of at most the length.  No other outcome is possible as long as the
    count to ignore is below an eighth of the modulus, but beyond that there
    are elements past the length for which the difference comes out small.
-/

namespace RankOne

variable {p : Nat} [Modulus p]

/-! ## Lengths in the field -/

namespace Fp

variable {length n : Nat} {v : Fp p}

/-- The number encoded is that of the bits left over where it is eight times a
    number of bytes that the message has. -/
theorem octuple_sub_iff (hp : p.Prime) (hlarge : 8 < p)
    (hn : (n : Fp p) = 8 * ((length : Fp p) - v)) :
    v.val ≤ length ∧ n = 8 * (length - v.val) ↔
      ∃ k ≤ length, n = 8 * k ∧ length - k < p := by
  constructor
  · rintro ⟨hle, heq⟩
    refine ⟨length - v.val, Nat.sub_le _ _, heq, ?_⟩
    rw [Nat.sub_sub_self hle]
    exact v.isLt
  · rintro ⟨k, hk, rfl, hlt⟩
    -- eight is invertible, so the difference in the field is the number of bytes left
    have height : (8 : Fp p) ≠ 0 := by
      intro h
      have hval := congrArg val (show ((8 : Nat) : Fp p) = 0 from h)
      rw [val_cast_of_lt hlarge, val_zero] at hval
      exact nomatch hval
    have hzero : (8 : Fp p) * ((length : Fp p) - v - k) = 0 := by
      rw [Nat.cast_mul] at hn
      linear_combination -hn
    have hdiff := ((mul_eq_zero_iff hp).mp hzero).resolve_left height
    have hcast : v = ((length - k : Nat) : Fp p) := by
      rw [Nat.cast_sub hk]
      linear_combination -hdiff
    rw [val_eq_of_eq_cast hcast hlt]
    omega

/-- Counts below an eighth of the modulus, with room for the eight bytes of
    the length, do not wrap around. -/
theorem octuple_sub_of_small (hn : (n : Fp p) = 8 * ((length : Fp p) - v)) (hlt : n < 2 ^ 64)
    (hlength : 8 * length < p) (hv : 8 * v.val + 2 ^ 64 ≤ p) :
    v.val ≤ length ∧ n = 8 * (length - v.val) := by
  have hsum : ((n + 8 * v.val : Nat) : Fp p) = ((8 * length : Nat) : Fp p) := by
    push_cast
    rw [hn, cast_val]
    ring
  have heq := val_eq_of_eq_cast hsum hlength
  rw [val_cast_of_lt (by omega)] at heq
  omega

end Fp

namespace Sha256

open Build Hashing

/-! ## The rows of the length -/

namespace Digest

variable {mode : Mode} {d : Digest} {ignore : LinNum p} {s s' : System p}

/-- A sum pads the message, splits its length, and writes the bits of it. -/
theorem sumBytes_parts {a : Vector Byte 32 × Digest} (hopen : d.stage ≠ .finalized)
    (hrun : on d (sumBytes ignore) mode s = .ok a s') :
    ∃ a₁ s₁ bits s₂ a₂ s₃,
      Build.within s!"padding {d.ops}" (on d.numbered (write (padding d.length))) mode s
        = .ok a₁ s₁ ∧
      Build.within s!"length {d.ops}" (mapError SynthesisError.toGadgetError
        ((lengthField d.length ignore).toBits 64)) mode s₁ = .ok bits s₂ ∧
      Build.within s!"length bytes {d.ops}" (on a₁.2 (write (lengthBytes bits))) mode s₂
        = .ok a₂ s₃ ∧ close a₂.2 mode s₃ = .ok a s' := by
  rw [on_sumBytes hopen] at hrun
  obtain ⟨a₁, s₁, hpad, hrun⟩ := bind_eq_ok.mp hrun
  obtain ⟨bits, s₂, hbits, hrun⟩ := bind_eq_ok.mp hrun
  obtain ⟨a₂, s₃, hlast, hclose⟩ := bind_eq_ok.mp hrun
  exact ⟨a₁, s₁, bits, s₂, a₂, s₃, hpad, hbits, hlast, hclose⟩

omit [Modulus p] in
theorem gives_close (d : Digest) :
    Gives (close d : Build p GadgetError _) fun a => a.2 = { d with stage := .finalized } := by
  rw [close]
  exact Gives.ite (fun _ => Gives.throw _ _) fun _ => Gives.pure rfl

theorem forces_close (z : Variable → Fp p) (d : Digest) : Forces z (close d) fun _ => True := by
  rw [close]
  exact Forces.ite (fun _ => Forces.throw _ _) fun _ => Forces.pure trivial

/-- What a write in a namespace leaves holds the bytes written. -/
theorem holds_of_write {m bytes : List Byte} {name : String} {a : Nat × Digest}
    (hopen : d.stage ≠ .finalized) (hd : d.Holds p mode m)
    (hrun : Build.within name (on d (write bytes : Hashing p Nat)) mode s = .ok a s') :
    a.2.Holds p mode (m ++ bytes) ∧ a.2.stage ≠ .finalized := by
  obtain ⟨s₁, hwrite, _⟩ := within_eq_ok.mp hrun
  have hwrote := (leads_write hopen bytes).ok a.1 (a.2, s₁) (on_eq_ok.mp hwrite)
  refine ⟨hwrote.took.holds m (hd.congr rfl rfl), ?_⟩
  rw [hwrote.took.stage]
  nofun

/-- The bits that end what goes into a digest encode the length that is left,
    as an element of the field. -/
theorem sumBytes_encodes (hp : p.Prime) (hcap : 64 ≤ Fp.capacity p) (hrec : mode.records = true)
    {m : List Byte} (hopen : d.stage ≠ .finalized) (hd : d.Holds p mode m)
    {a : Vector Byte 32 × Digest} (hrun : on d (sumBytes ignore) mode s = .ok a s') :
    ∃ bits, a.2.Holds p mode (m ++ padding d.length ++ lengthBytes bits) ∧
      ∀ z : Variable → Fp p, z .one = 1 → s ≤ s' ∧ (s'.HoldsSince s z →
        ∃ n < 2 ^ 64, Bit.Spells z bits n ∧
          (n : Fp p) = 8 * ((d.length : Fp p) - ignore.comb.eval z)) := by
  obtain ⟨a₁, s₁, bits, s₂, a₂, s₃, hpad, hbits, hlast, hclose⟩ := sumBytes_parts hopen hrun
  refine ⟨bits, ?_, fun z one => ?_⟩
  · obtain ⟨hfirst, hopen₁⟩ := holds_of_write (d := d.numbered) hopen (hd.congr rfl rfl) hpad
    obtain ⟨hsecond, _⟩ := holds_of_write hopen₁ hfirst hlast
    rw [gives_close _ mode s₃ s' a hclose]
    exact hsecond.congr rfl rfl
  · have hle₁ := ((forces_write hp one hcap _ _).within mode s s₁ a₁ hrec hpad).1
    obtain ⟨hle₂, hforced⟩ :=
      ((LinNum.forces_toBits hp one _ 64).mapError.within mode s₁ s₂ bits hrec hbits)
    have hle₃ := ((forces_write hp one hcap _ _).within mode s₂ s₃ a₂ hrec hlast).1.trans
      (forces_close z a₂.2 mode s₃ s' a hrec hclose).1
    refine ⟨(hle₁.trans hle₂).trans hle₃, fun hrows => ?_⟩
    -- the rows of the length are among those of the sum
    obtain ⟨hrows, _⟩ := (System.holdsSince_trans (hle₁.trans hle₂) hle₃).mp hrows
    obtain ⟨_, hrows⟩ := (System.holdsSince_trans hle₁ hle₂).mp hrows
    obtain ⟨hlt, hspells⟩ := hforced hrows
    rw [eval_lengthField one] at hlt hspells
    exact ⟨_, hlt, hspells, Fp.cast_val _⟩

/-- Packing the hash into one number changes nothing about the length. -/
theorem sum_encodes (hp : p.Prime) (hcap : 64 ≤ Fp.capacity p) (hrec : mode.records = true)
    {m : List Byte} (hopen : d.stage ≠ .finalized) (hd : d.Holds p mode m)
    {a : Num p × Digest} (hrun : on d (sum ignore) mode s = .ok a s') :
    ∃ bits, a.2.Holds p mode (m ++ padding d.length ++ lengthBytes bits) ∧
      ∀ z : Variable → Fp p, z .one = 1 → s'.HoldsSince s z →
        ∃ n < 2 ^ 64, Bit.Spells z bits n ∧
          (n : Fp p) = 8 * ((d.length : Fp p) - ignore.comb.eval z) := by
  rw [on_sum] at hrun
  obtain ⟨a₁, s₁, hsum, hpack⟩ := bind_eq_ok.mp hrun
  rw [map_eq_bind] at hpack
  obtain ⟨x, s₂, hpack, hresult⟩ := bind_eq_ok.mp hpack
  cases hresult
  obtain ⟨bits, hholds, hencodes⟩ := sumBytes_encodes hp hcap hrec hopen hd hsum
  refine ⟨bits, hholds.congr rfl rfl, fun z one hrows => ?_⟩
  obtain ⟨hle, hforced⟩ := hencodes z one
  have hle' := ((Num.forces_ofBits one _).mapError.within mode s₁ s' x hrec hpack).1
  exact hforced ((System.holdsSince_trans hle hle').mp hrows).1

/-! ## When the rows can be solved -/

/-- What a sum is taken of, in a compiling run and in a solving run beside it:
    the digest has the bytes `vs` there, and the count to ignore the value
    `v`. -/
structure Operands (s u : System p) (z : Variable → Fp p) (d d' : Digest)
    (ignore ignore' : LinNum p) (vs : List (BitVec 8)) (v : Fp p) : Prop where
  paired : s.Paired u
  fits : u.witness.Fits z
  digest : d.Alike .compiling d'
  bytes : d'.Live u.witness vs
  length : d.length = vs.length
  count : ignore.Alike .compiling ignore'
  value : ignore'.Live u.witness v

section Solvable

variable {s u : System p} {z : Variable → Fp p} {d d' : Digest} {ignore ignore' : LinNum p}
  {vs : List (BitVec 8)} {v : Fp p}

theorem Operands.aligned (h : Operands s u z d d' ignore ignore' vs v) (halign : d.Aligned) :
    d'.Aligned := by
  have hsize := h.digest.pending.length_eq
  rw [Array.length_toList, Array.length_toList] at hsize
  rw [Aligned, ← hsize, ← h.digest.length]
  exact halign

/-- The count has its value under every assignment that keeps the values of
    the solving run. -/
theorem Operands.eval_eq (h : Operands s u z d d' ignore ignore' vs v) {z' : Variable → Fp p}
    (hz' : s.Agrees z z') : ignore.comb.eval z' = v := by
  rw [h.count.comb]
  exact h.value.2 z' (h.paired.fits_of_agrees h.fits hz')

/-- A new digest has no bytes, whatever there is to ignore. -/
theorem operands_new (one : z .one = 1) (hcount : ignore.Alike .compiling ignore')
    (hvalue : ignore'.Live (s.valued z).witness v) :
    Operands s (s.valued z) z .new .new ignore ignore' [] v where
  paired := s.paired_valued z
  fits := s.fits_valued one
  digest := alike_refl _ _
  bytes := live_new _
  length := rfl
  count := hcount
  value := hvalue

variable (hp : p.Prime) (hcap : 64 ≤ Fp.capacity p) (hopen : d.stage ≠ .finalized)
  (halign : d.Aligned) (h : Operands s u z d d' ignore ignore' vs v)

include hcap hopen halign h

/-- A write beside one of the same bytes with values leaves longer operands,
    and values that satisfy its rows. -/
theorem Operands.write {bytes bytes' : List Byte} {ws : List (BitVec 8)}
    (hbytes : List.Forall₂ (Bits.Alike .compiling) bytes bytes')
    (hws : List.Forall₂ (Bits.Live u.witness) bytes' ws) {a : Nat × Digest}
    (hrun : on d (Digest.write bytes : Hashing p Nat) .compiling s = .ok a s') :
    ∃ u' d'' z', Operands s' u' z' a.2 d'' ignore ignore' (vs ++ ws) v ∧ s.Agrees z z' ∧
      s'.HoldsSince s z' := by
  have hself : List.Forall₂ (Bits.Alike .solving) bytes' bytes' :=
    List.forall₂_same.mpr fun _ _ => Bits.alike_refl _ _
  obtain ⟨a', s'', _, u', c, hcompile, _, hpaired, hle, _, hrows, halike, _, hlive⟩ :=
    (honest_write hcap (h.digest.stage ▸ hopen) h.bytes hws).paired
      (follows_write h.digest hbytes) (follows_write (alike_refl _ _) hself) h.paired
  obtain ⟨rfl, rfl⟩ := EStateM.Result.ok.inj (hrun.symm.trans hcompile)
  have hgrown := gives_write bytes halign.lt .compiling s s' a hrun
  have hfits := h.paired.fits_value h.fits hle
  refine ⟨u', c.2, u'.witness.value, ?_, fun x hx => h.paired.later_value_eq h.fits hle hx,
    hrows _ hfits⟩
  exact {
    paired := hpaired
    fits := hfits
    digest := halike.2
    bytes := hlive
    length := by
      rw [List.length_append, ← h.length, ← hws.length_eq, ← hbytes.length_eq]
      exact hgrown.length
    count := h.count
    value := h.value.mono hle }

include hp

/-- The rows of a sum can be solved exactly when eight times the difference
    fits in the eight bytes of the length. -/
theorem solvableSince_sumBytes {a : Vector Byte 32 × Digest}
    (hrun : on d (sumBytes ignore) .compiling s = .ok a s') :
    s'.SolvableSince s z ↔ (8 * ((d.length : Fp p) - v)).val < 2 ^ 64 := by
  have hlength : d'.length = vs.length := h.digest.length.symm.trans h.length
  rw [h.length]
  refine solvableSince_iff hrun h.paired h.fits (fun z' hz' => ?_)
    (honest_sumBytes_of_lt hcap (h.digest.stage ▸ hopen) (h.aligned halign) h.bytes hlength h.value)
    (follows_sumBytes h.digest h.count) (follows_sumBytes (alike_refl _ _) ⟨rfl, fun _ => rfl⟩)
  rw [← h.eval_eq hz', ← h.length]
  exact (forces_sumBytes hp (hz'.one h.fits.one) hcap ignore d).mono fun _ h => h.1

theorem solvableSince_sum {a : Num p × Digest} (hrun : on d (sum ignore) .compiling s = .ok a s') :
    s'.SolvableSince s z ↔ (8 * ((d.length : Fp p) - v)).val < 2 ^ 64 := by
  have hlength : d'.length = vs.length := h.digest.length.symm.trans h.length
  rw [h.length]
  refine solvableSince_iff hrun h.paired h.fits (fun z' hz' => ?_)
    (honest_sum_of_lt hcap (h.digest.stage ▸ hopen) (h.aligned halign) h.bytes hlength h.value)
    (follows_sum h.digest h.count) (follows_sum (alike_refl _ _) ⟨rfl, fun _ => rfl⟩)
  rw [← h.eval_eq hz', ← h.length]
  exact (forces_sum hp (hz'.one h.fits.one) hcap ignore d).mono fun _ h => h.1

end Solvable

end Digest

/-! ## What a sum encodes -/

/-- A sum of an open digest always compiles, and the bits that end what goes
    into its hash encode, in every assignment that satisfies its rows, a number
    below `2 ^ 64` which is eight times the length less the bytes to ignore as
    an element of the field.  The count to ignore is at most the length and the
    number that of the bits left over exactly when it is eight times a number
    of bytes that there are; and for counts below an eighth of the modulus it
    always is.  Where the bytes and the count have values, the rows can be
    solved exactly when the element is below `2 ^ 64`. -/
theorem sum_length_exact (hp : p.Prime) (hcap : 64 ≤ Fp.capacity p) {d : Digest} {m : List Byte}
    (h : Received p .compiling d m) (hopen : d.stage ≠ .finalized) {ignore : LinNum p}
    {call : Call p} (hcall : call = .sumBytes ignore ∨ call = .sum ignore) (s : System p) :
    ∃ r d' s' bits, call.perform .compiling (d, s) = .ok r (d', s') ∧
      d'.Holds p .compiling (m ++ Digest.padding m.length ++ Digest.lengthBytes bits) ∧
      (∀ z : Variable → Fp p, z .one = 1 → s'.HoldsSince s z →
        ∃ n < 2 ^ 64, Bit.Spells z bits n ∧
          (n : Fp p) = 8 * ((m.length : Fp p) - ignore.comb.eval z) ∧
          ((ignore.comb.eval z).val ≤ m.length ∧
              n = 8 * (m.length - (ignore.comb.eval z).val) ↔
            ∃ k ≤ m.length, n = 8 * k ∧ m.length - k < p) ∧
          (8 * m.length < p → 8 * (ignore.comb.eval z).val + 2 ^ 64 ≤ p →
            (ignore.comb.eval z).val ≤ m.length ∧
              n = 8 * (m.length - (ignore.comb.eval z).val))) ∧
      ∀ u z d₁ ignore₁ vs v, Digest.Operands s u z d d₁ ignore ignore₁ vs v →
        (s'.SolvableSince s z ↔ (8 * ((m.length : Fp p) - v)).val < 2 ^ 64) := by
  obtain ⟨hd, hholds⟩ := h.regular.opened hopen
  have hlarge : 8 < p :=
    lt_of_lt_of_le (by decide) (Fp.two_pow_le_of_le_capacity hcap)
  have hrun : ∃ r d' s' bits, call.perform .compiling (d, s) = .ok r (d', s') ∧
      d'.Holds p .compiling (m ++ Digest.padding d.length ++ Digest.lengthBytes bits) ∧
      (∀ z : Variable → Fp p, z .one = 1 → s'.HoldsSince s z →
        ∃ n < 2 ^ 64, Bit.Spells z bits n ∧
          (n : Fp p) = 8 * ((d.length : Fp p) - ignore.comb.eval z)) ∧
      ∀ u z d₁ ignore₁ vs v, Digest.Operands s u z d d₁ ignore ignore₁ vs v →
        (s'.SolvableSince s z ↔ (8 * ((d.length : Fp p) - v)).val < 2 ^ 64) := by
    rcases hcall with rfl | rfl
    · obtain ⟨⟨bs, d'⟩, s', _, hrun, _⟩ := Digest.takes_sumBytes hcap ignore hopen hd.aligned s
      obtain ⟨bits, hbits, hencodes⟩ := Digest.sumBytes_encodes hp hcap rfl hopen hholds hrun
      exact ⟨_, d', s', bits, Call.perform_of_ok (on_eq_ok.mp hrun), hbits,
        fun z one => (hencodes z one).2, fun u z d₁ ignore₁ vs v hops =>
          Digest.solvableSince_sumBytes hp hcap hopen hd.aligned hops hrun⟩
    · obtain ⟨⟨x, d'⟩, s', _, hrun, _⟩ := Digest.takes_sum hcap ignore hopen hd.aligned s
      obtain ⟨bits, hbits, hencodes⟩ := Digest.sum_encodes hp hcap rfl hopen hholds hrun
      exact ⟨_, d', s', bits, Call.perform_of_ok (on_eq_ok.mp hrun), hbits, hencodes,
        fun u z d₁ ignore₁ vs v hops =>
          Digest.solvableSince_sum hp hcap hopen hd.aligned hops hrun⟩
  rw [hd.length] at hrun
  obtain ⟨r, d', s', bits, hrun, hbits, hencodes, hsolvable⟩ := hrun
  refine ⟨r, d', s', bits, hrun, hbits, fun z one hrows => ?_, hsolvable⟩
  obtain ⟨n, hlt, hspells, hn⟩ := hencodes z one hrows
  exact ⟨n, hlt, hspells, hn, Fp.octuple_sub_iff hp hlarge hn, Fp.octuple_sub_of_small hn hlt⟩

/-- The letters `abc`, as constants. -/
def constantLetters : List Byte := [.constant 0x61, .constant 0x62, .constant 0x63]

/-- Two letters of three are left when one is ignored. -/
theorem sum_length_exact_abc : ∃ (n : Nat) (r : Reply Moduli.bn256) (d d' : Digest)
    (s s' : System Moduli.bn256) (bits : Vector Bit 64),
    (Call.write constantLetters).perform .compiling (Digest.new, .start) = .ok (.count n) (d, s) ∧
      (Call.sumBytes (.const 1)).perform .compiling (d, s) = .ok r (d', s') ∧
      (∃ z, s'.SolvableSince s z) ∧
      ∀ z : Variable → Fp Moduli.bn256, z .one = 1 → s'.HoldsSince s z →
        Bit.Spells z bits 16 := by
  have hcap : 64 ≤ Fp.capacity Moduli.bn256 := by decide
  have halign := Digest.aligned_startAt 0
  obtain ⟨⟨n, d⟩, s, _, hwrite, _, _, hgrown⟩ := Digest.takes_write (p := Moduli.bn256)
    (d := .new) hcap constantLetters (by decide) (by decide) .start
  have hwritten : (Call.write constantLetters).perform .compiling (.new, System.start)
      = .ok (.count n) (d, s) := Call.perform_of_ok (on_eq_ok.mp hwrite)
  have hopen : d.stage ≠ .finalized := by
    rw [hgrown.stage]
    nofun
  have hcall : (Call.sumBytes (.const 1) : Call Moduli.bn256) = .sumBytes (.const 1) ∨
      (Call.sumBytes (.const 1) : Call Moduli.bn256) = .sum (.const 1) := .inl rfl
  obtain ⟨r, d', s', bits, hrun, _, hencodes, hsolvable⟩ :=
    sum_length_exact Moduli.bn256_prime hcap (.done .new hwritten rfl) hopen hcall s
  -- a solving run has the letters, too
  have hops := Digest.operands_new (s := System.start) (z := Variable.assign []) rfl
    (LinNum.alike_compiling rfl) (LinNum.live_const (1 : Fp Moduli.bn256))
  have hletters : ∀ w : Witness Moduli.bn256,
      List.Forall₂ (Bits.Live w) constantLetters [0x61, 0x62, 0x63] := fun w =>
    .cons (Bits.live_constant w 0x61#8) (.cons (Bits.live_constant w 0x62#8)
      (.cons (Bits.live_constant w 0x63#8) .nil))
  obtain ⟨_, _, z', hops', _⟩ := hops.write hcap (by decide) halign
    (List.forall₂_same.mpr fun _ _ => Bits.alike_refl _ _) (hletters _) hwrite
  refine ⟨n, r, d, d', s, s', bits, hwritten, hrun,
    ⟨z', (hsolvable _ _ _ _ _ _ hops').mpr (by decide)⟩, fun z one hrows => ?_⟩
  obtain ⟨n, _, hspells, _, _, hsmall⟩ := hencodes z one hrows
  have hone : ((LinNum.const 1).comb.eval z).val = 1 := by
    show ((LinComb.const 1).eval z).val = 1
    rw [LinComb.eval_const, one, mul_one]
    decide
  rw [hone] at hsmall
  obtain ⟨_, rfl⟩ := hsmall (by decide) (by decide)
  exact hspells

/-- With the greatest element as the count to ignore the empty message has
    eight bits. -/
theorem sum_takes_count_past_length : ∃ (r : Reply Moduli.bn256) (d' : Digest)
    (s' : System Moduli.bn256),
    (Call.sumBytes unknownIgnore).perform .compiling (Digest.new, .ofCount 1)
        = .ok r (d', s') ∧
      s'.SolvableSince (.ofCount 1) (Variable.assign [Moduli.bn256 - 1]) ∧
      0 < (unknownIgnore.comb.eval (Variable.assign [Moduli.bn256 - 1])).val := by
  have hcap : 64 ≤ Fp.capacity Moduli.bn256 := by decide
  have halign := Digest.aligned_startAt 0
  obtain ⟨⟨bs, d'⟩, s', _, hrun, _⟩ := Digest.takes_sumBytes hcap (d := .new) unknownIgnore
    (by decide) halign (.ofCount 1)
  obtain ⟨z, hz⟩ : ∃ z : Variable → Fp Moduli.bn256, z = Variable.assign [Moduli.bn256 - 1] :=
    ⟨_, rfl⟩
  have one : z .one = 1 := by rw [hz]; rfl
  have hignore : (System.ofCount 1 : System Moduli.bn256).Allocated (.aux 0) := by decide
  have hvalue := (System.paired_valued _ z).live (System.fits_valued _ one) hignore
  have hcount : unknownIgnore.Alike .compiling (Num.toLinNum ⟨.aux 0, some (z (.aux 0))⟩) :=
    LinNum.alike_compiling rfl
  have hops := Digest.operands_new one hcount hvalue.toLinNum
  have hsolvable := (Digest.solvableSince_sumBytes Moduli.bn256_prime hcap (by decide) halign hops
    hrun).mpr (by rw [hz]; decide)
  rw [hz] at hsolvable
  exact ⟨_, d', s', Call.perform_of_ok (on_eq_ok.mp hrun), hsolvable, by decide⟩

end Sha256

end RankOne
