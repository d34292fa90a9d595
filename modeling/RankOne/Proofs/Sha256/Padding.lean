import RankOne.Proofs.Sha256.Hashing

/-!
# Padding — the bytes around a message

    The bytes that a sum writes after a message, and those that it gives, read
    as the standard's.  None of them costs a row: the padding is constant, the
    length's bits are grouped, and a hash is taken apart into its bytes.
-/

namespace RankOne.Sha256

variable {p : Nat} [Modulus p]

namespace Digest

/-! ## Before the length -/

/-- The padding is one set bit and as many zeros as the standard asks for. -/
theorem padding_eq (length : Nat) :
    padding length = .constant 0x80 :: List.replicate (Standard.zeros length) (.constant 0) := by
  have hzeros : (if length % blockSize < 56 then 56 - length % blockSize
      else blockSize + 56 - length % blockSize) - 1 = Standard.zeros length := by
    rw [Standard.zeros, blockSize]
    split <;> omega
  exact congrArg (fun n => _ :: List.replicate n _) hzeros

/-- So it is as long as the standard's. -/
theorem length_padding (length : Nat) : (padding length).length = 1 + Standard.zeros length := by
  rw [padding_eq, List.length_cons, List.length_replicate, Nat.add_comm]

/-- What a constant stands for, the padding stands for. -/
theorem forall₂_padding {R : Byte → BitVec 8 → Prop}
    (hconst : ∀ v, R (.constant (Bits.cell v)) v) (length : Nat) :
    List.Forall₂ R (padding length) (0x80 :: List.replicate (Standard.zeros length) 0) := by
  have hzero : R (.constant 0) 0 := by
    rw [← Bits.cell_zero]
    exact hconst 0
  rw [padding_eq]
  refine List.Forall₂.cons (hconst 0x80) ?_
  induction Standard.zeros length with
  | zero => exact List.Forall₂.nil
  | succ n ih => exact List.Forall₂.cons hzero ih

/-! ## The length -/

/-- The combination that is split is worth eight times the bytes that count. -/
theorem eval_lengthField {z : Variable → Fp p} (one : z .one = 1) (length : Nat)
    (ignore : LinNum p) : (lengthField length ignore).comb.eval z
      = 8 * ((length : Fp p) - ignore.comb.eval z) := by
  rw [lengthField, LinNum.lc]
  rw [LinComb.eval_add, LinComb.eval_const, LinComb.eval_scale, one, Fp.ofNat_eq_cast,
    Fp.ofNat_eq_cast]
  push_cast
  ring

/-- Where no more is ignored than there is, the length is that of natural
    numbers. -/
theorem cast_lengthField {length k : Nat} (hle : k ≤ length) :
    8 * ((length : Fp p) - (k : Fp p)) = ((8 * (length - k) : Nat) : Fp p) := by
  rw [Nat.cast_mul, Nat.cast_sub hle]
  norm_num

/-- The length in bits, where it fits in the eight bytes for it. -/
theorem val_lengthField (hcap : 64 ≤ Fp.capacity p) {length k : Nat} (hle : k ≤ length)
    (hlt : length < 2 ^ 61) :
    (8 * ((length : Fp p) - (k : Fp p))).val = 8 * (length - k) := by
  have hfield : 8 * (length - k) < 2 ^ 64 := by omega
  rw [cast_lengthField hle]
  exact Fp.val_cast_of_lt (hfield.trans_le (Fp.two_pow_le_of_le_capacity hcap))

/-- Its value is computed where that of the ignored bytes is. -/
theorem live_lengthField {t : Witness p} {ignore : LinNum p} {v : Fp p} (hv : ignore.Live t v)
    (length : Nat) : (lengthField length ignore).Live t (8 * ((length : Fp p) - v)) := by
  refine ⟨?_, fun z hz => ?_⟩
  · show ignore.value.map _ = _
    rw [hv.1, Option.map_some, Fp.ofNat_eq_cast, Fp.ofNat_eq_cast, mul_comm]
    push_cast
    rfl
  · rw [eval_lengthField hz.one, hv.2 z hz]

theorem alike_lengthField {m : Mode} {ignore ignore' : LinNum p} (h : ignore.Alike m ignore')
    (length : Nat) : (lengthField length ignore).Alike m (lengthField length ignore') := by
  refine ⟨?_, fun hm => ?_⟩
  · show _ + ignore.comb.scale _ = _ + ignore'.comb.scale _
    rw [h.comb]
  · show ignore.value.map _ = ignore'.value.map _
    rw [h.solved hm]

theorem length_lengthBytes (bits : Vector Bit 64) : (lengthBytes bits).length = 8 :=
  List.length_ofFn

theorem forall₂_ofFn {α β : Type} {R : α → β → Prop} {n : Nat} {f : Fin n → α}
    {g : Fin n → β} (h : ∀ i, R (f i) (g i)) : List.Forall₂ R (List.ofFn f) (List.ofFn g) := by
  rw [List.forall₂_iff_get]
  refine ⟨by simp, fun i hi hi' => ?_⟩
  simpa using h ⟨i, by simpa using hi⟩

/-- Each byte of the length is put together from the digits that it stands for. -/
private theorem forall₂_lengthBytes {P : Bit → Bool → Prop} {Q : Byte → BitVec 8 → Prop}
    (hQ : ∀ (digits : Vector Bit 8) v, (Bits.ofBits digits).Reads P v → Q (.ofBits digits) v)
    {bits : Vector Bit 64} {n : Nat} (h : ∀ i (hi : i < 64), P bits[i] (n.testBit i)) :
    List.Forall₂ Q (lengthBytes bits) (Standard.lengthBytes n) := by
  refine forall₂_ofFn fun j => hQ _ _ fun i hi => ?_
  show P ((Vector.ofFn fun i : Fin 8 => bits[(7 - j.val) * 8 + i.val])[i]) _
  have hpow : 256 ^ (7 - j.val) = 2 ^ (8 * (7 - j.val)) := Nat.pow_mul 2 8 _ ▸ rfl
  have hindex : i + 8 * (7 - j.val) = (7 - j.val) * 8 + i := by omega
  rw [Vector.getElem_ofFn, BitVec.getLsbD_ofNat, decide_eq_true hi, Bool.true_and, hpow,
    Nat.testBit_div_two_pow, hindex]
  exact h _ _

/-- The bytes of the length are the standard's, the highest first. -/
theorem is_lengthBytes {z : Variable → Fp p} {bits : Vector Bit 64} {n : Nat}
    (h : Bit.Spells z bits n) :
    List.Forall₂ (Bits.Is z) (lengthBytes bits) (Standard.lengthBytes n) :=
  forall₂_lengthBytes (fun _ _ hbyte => hbyte) h

/-- So are their integers. -/
theorem live_lengthBytes {t : Witness p} {bits : Vector Bit 64} {n : Nat}
    (h : Bit.Display t bits n) :
    List.Forall₂ (Bits.Live t) (lengthBytes bits) (Standard.lengthBytes n) :=
  forall₂_lengthBytes (fun _ _ hbyte => Bits.live_ofBits hbyte) h

/-! ## The hash -/

/-- The bytes of the hash are the standard's. -/
theorem is_hashBytes {z : Variable → Fp p} {hash : Vector Word 8} {hs : Vector (BitVec 32) 8}
    (h : Each (Bits.Is z) hash hs) : Each (Bits.Is z) (hashBytes hash) (Standard.hashBytes hs) := by
  intro i (hi : i < 32)
  have hword : i / 4 < 8 := by omega
  have hbyte := Word.reads_toBytesBE (h (i / 4) hword) (i % 4) (by omega)
  simpa [hashBytes, Standard.hashBytes, Bits.Is, Vector.getElem?_eq_getElem hword] using hbyte

/-- So are their integers. -/
theorem live_hashBytes {t : Witness p} {hash : Vector Word 8} {hs : Vector (BitVec 32) 8}
    (h : Each (Bits.Live t) hash hs) :
    Each (Bits.Live t) (hashBytes hash) (Standard.hashBytes hs) := by
  intro i (hi : i < 32)
  have hword : i / 4 < 8 := by omega
  have hbyte := Word.live_toBytesBE (h (i / 4) hword) (i % 4) (by omega)
  simpa [hashBytes, Standard.hashBytes, Vector.getElem?_eq_getElem hword] using hbyte

end Digest

/-! ## One number -/

/-- The binary digits of bytes, the last byte first. -/
def digitsOf (bytes : List (BitVec 8)) : List Bool :=
  bytes.reverse.flatMap fun v => (List.range 8).map v.getLsbD

/-- The digits of the last byte first are those of the number that the bytes
    write. -/
theorem natOfBits_digitsOf (bytes : List (BitVec 8)) :
    natOfBits (digitsOf bytes) = Standard.bigEndian bytes := by
  induction bytes using List.reverseRecOn with
  | nil => rfl
  | append_singleton bytes v ih =>
      have hbyte : natOfBits ((List.range 8).map v.getLsbD) = v.toNat :=
        (natOfBits_testBit v.toNat 8).trans (Nat.mod_eq_of_lt v.isLt)
      have hlength : ((List.range 8).map v.getLsbD).length = 8 := by
        rw [List.length_map, List.length_range]
      -- the last byte has the lowest digits, so the list is taken apart from its end
      have hdigits : digitsOf (bytes ++ [v])
          = (List.range 8).map v.getLsbD ++ digitsOf bytes := by
        unfold digitsOf
        rw [List.reverse_append, List.reverse_singleton, List.singleton_append, List.flatMap_cons]
      rw [hdigits, natOfBits_append, hbyte, hlength, ih]
      unfold Standard.bigEndian
      rw [List.foldl_append]
      exact Nat.add_comm _ _

/-- The bits of bytes that stand for integers stand for their digits. -/
theorem forall₂_digitsOf {P : Bit → Bool → Prop} {bytes : Vector Byte 32}
    {vs : Vector (BitVec 8) 32} (h : Each (Bits.Reads P) bytes vs) :
    List.Forall₂ P (bytes.toList.reverse.flatMap (·.bits.toList)) (digitsOf vs.toList) := by
  refine List.rel_flatMap (List.rel_reverse h.forall₂) fun x v hx => ?_
  rw [List.forall₂_iff_get]
  refine ⟨by simp, fun i hi hi' => ?_⟩
  have hi8 : i < 8 := by simpa using hi
  simpa using hx i hi8

end RankOne.Sha256
