import RankOne.Proofs.Labels
import RankOne.Proofs.Sha256.Padding

/-!
# Operations — the names that a digest gives

    Whoever holds a digest calls it any number of times in one namespace.  The
    names that it gives there carry operation numbers, and a number is given
    once in the life of a digest: the names of one call carry numbers that no
    other call has.

    `Takes i body j Q` says that a compiling run gives a result `a` with `Q`
    and names that carry numbers from `i` up to, and without, `j a`.  Calls
    that follow each other take adjacent ranges of numbers.
-/

namespace RankOne

open Naming

namespace Sha256.Digest

/-- What the names of a digest begin with. -/
def stems : List String := ["block ", "bytes ", "padding ", "length ", "length bytes ", "pack "]

/-- Different names of a digest, with numbers in a range. -/
structure Numbered (i j : Nat) (labels : List Label) : Prop where
  le : i ≤ j
  nodup : labels.Nodup
  stem : ∀ l ∈ labels, l.stem ∈ stems
  index : ∀ l ∈ labels, ∃ k, l.index? = some k ∧ i ≤ k ∧ k < j

namespace Numbered

variable {i j k : Nat} {labels labels' : List Label}

theorem nil (h : i ≤ j) : Numbered i j [] := ⟨h, List.nodup_nil, nofun, nofun⟩

/-- Names of different calls differ in their numbers. -/
theorem append (h : Numbered i j labels) (h' : Numbered j k labels') :
    Numbered i k (labels ++ labels') := by
  refine ⟨h.le.trans h'.le, List.nodup_append.mpr ⟨h.nodup, h'.nodup, ?_⟩, ?_, ?_⟩
  · intro l hl l' hl' heq
    -- a label of both would have its number on both sides of the middle one
    obtain ⟨n, hn, _, hlt⟩ := h.index l hl
    obtain ⟨n', hn', hle, _⟩ := h'.index l' hl'
    rw [heq, hn'] at hn
    obtain rfl := Option.some.inj hn
    omega
  · exact List.forall_mem_append.mpr ⟨h.stem, h'.stem⟩
  · refine List.forall_mem_append.mpr ⟨fun l hl => ?_, fun l hl => ?_⟩
    · obtain ⟨n, hn, hle, hlt⟩ := h.index l hl
      exact ⟨n, hn, hle, hlt.trans_le h'.le⟩
    · obtain ⟨n, hn, hle, hlt⟩ := h'.index l hl
      exact ⟨n, hn, h.le.trans hle, hlt⟩

/-- Some of the names. -/
theorem of_sublist (h : Numbered i j labels) (h' : labels'.Sublist labels) : Numbered i j labels' :=
  ⟨h.le, h.nodup.sublist h', fun l hl => h.stem l (h'.subset hl),
    fun l hl => h.index l (h'.subset hl)⟩

/-- Names that all carry the number `i`. -/
theorem of_index (hij : i < j) (hnodup : labels.Nodup) (hstem : ∀ l ∈ labels, l.stem ∈ stems)
    (hindex : ∀ l ∈ labels, l.index? = some i) : Numbered i j labels :=
  ⟨hij.le, hnodup, hstem, fun l hl => ⟨i, hindex l hl, le_rfl, hij⟩⟩

end Numbered

end Sha256.Digest

namespace Build

open Sha256.Digest

variable {p : Nat} {ε ε' α β : Type}

/-- A compiling run gives a result `a` with `Q`, and names of a digest with
    numbers from `i` up to `j a`. -/
def Takes (i : Nat) (body : Build p ε α) (j : α → Nat) (Q : α → Prop) : Prop :=
  ∀ s : System p, ∃ a s' labels, body .compiling s = .ok a s' ∧ Numbered i (j a) labels ∧
    s'.naming = s.naming.claimAll (labels.map Label.name) ∧ Q a

namespace Takes

variable {i : Nat} {j : α → Nat}

theorem pure {a : α} {Q : α → Prop} (hij : i ≤ j a) (h : Q a) :
    Takes i (pure a : Build p ε α) j Q :=
  fun s => ⟨a, s, [], rfl, .nil hij, rfl, h⟩

/-- Calls that follow each other take adjacent ranges. -/
theorem bind {x : Build p ε α} {f : α → Build p ε β} {k : β → Nat} {Q : α → Prop} {R : β → Prop}
    (hx : Takes i x j Q) (hf : ∀ a, Q a → Takes (j a) (f a) k R) : Takes i (x >>= f) k R := by
  intro s
  obtain ⟨a, s₁, labels₁, hrun₁, hnum₁, hnaming₁, hQ⟩ := hx s
  obtain ⟨b, s₂, labels₂, hrun₂, hnum₂, hnaming₂, hR⟩ := hf a hQ s₁
  refine ⟨b, s₂, labels₁ ++ labels₂, bind_eq_ok.mpr ⟨a, s₁, hrun₁, hrun₂⟩, hnum₁.append hnum₂,
    ?_, hR⟩
  rw [hnaming₂, hnaming₁, List.map_append, claimAll_append]

theorem map {x : Build p ε α} {g : α → β} {k : β → Nat} {Q : β → Prop}
    (hx : Takes i x (fun a => k (g a)) fun a => Q (g a)) : Takes i (g <$> x) k Q :=
  hx.bind fun _ hQ => pure le_rfl hQ

theorem mono {body : Build p ε α} {Q R : α → Prop} (h : Takes i body j Q)
    (hQR : ∀ a, Q a → R a) : Takes i body j R := by
  intro s
  obtain ⟨a, s', labels, hrun, hnum, hnaming, hQ⟩ := h s
  exact ⟨a, s', labels, hrun, hnum, hnaming, hQR a hQ⟩

theorem and_gives {body : Build p ε α} {Q R : α → Prop} (h : Takes i body j Q)
    (hR : Gives body R) : Takes i body j fun a => Q a ∧ R a := by
  intro s
  obtain ⟨a, s', labels, hrun, hnum, hnaming, hQ⟩ := h s
  exact ⟨a, s', labels, hrun, hnum, hnaming, hQ, hR _ _ _ a hrun⟩

/-- Names that are known beforehand, once the numbers that they carry are known
    to be taken. -/
theorem of_compiles {L : List Label} {body : Build p ε α} {Q : α → Prop}
    (h : Compiles (L.map Label.name) body Q) (hnum : ∀ a, Q a → Numbered i (j a) L) :
    Takes i body j Q := by
  intro s
  obtain ⟨a, s', hrun, hnaming, hQ⟩ := h s
  exact ⟨a, s', L, hrun, hnum a hQ, hnaming, hQ⟩

/-- Names with different numbers are distinct. -/
theorem tidy {body : Build p ε α} {Q : α → Prop} (h : Takes i body j Q) : Tidy body Q := by
  intro s
  obtain ⟨a, s', labels, hrun, hnum, hnaming, hQ⟩ := h s
  exact ⟨a, s', _, hrun, distinct_of_labels hnum.nodup, hnaming, hQ⟩

/-- What is done with the result gives no names. -/
theorem labelled {x : Build p ε α} {g : α → β} {Q : α → Prop} (h : Takes i x j Q) :
    Labelled stems (g <$> x) fun _ => True := by
  intro s
  obtain ⟨a, s', labels, hrun, hnum, hnaming, _⟩ := h s
  have hmap : (g <$> x) .compiling s = .ok (g a) s' :=
    (bind_eq_ok (f := fun a => Pure.pure (g a))).mpr ⟨a, s', hrun, rfl⟩
  exact ⟨g a, s', labels, hmap, hnum.nodup, hnum.stem, hnaming, trivial⟩

end Takes

end Build

namespace Sha256

open Build Hashing

variable {p : Nat} [Modulus p]

namespace Digest

/-- What is pending is what the length leaves over. -/
def Aligned (d : Digest) : Prop := d.pending.size = d.length % 64

/-- Where what is pending is what the length leaves of a block, no block is
    full. -/
theorem Aligned.lt {d : Digest} (h : d.Aligned) : d.pending.size < 64 := by
  rw [Aligned] at h
  omega

omit [Modulus p] in
theorem aligned_startAt (ops : Nat) : (startAt ops).Aligned := rfl

omit [Modulus p] in
/-- A write keeps that. -/
theorem Aligned.grown {d d' : Digest} {n : Nat} (h : d.Aligned)
    (h' : (d.expecting n).Grown n d') : d'.Aligned := by
  have hsize : d'.pending.size = (d.pending.size + n) % 64 := h'.size
  have hlength : d'.length = d.length + n := h'.length
  unfold Aligned at h ⊢
  omega

/-- After the padding and the length nothing is pending. -/
theorem size_of_grown {d d₁ d₂ : Digest} {bits : Vector Bit 64} (h : d.Aligned)
    (h₁ : (d.expecting (padding d.length).length).Grown (padding d.length).length d₁)
    (h₂ : (d₁.expecting (lengthBytes bits).length).Grown (lengthBytes bits).length d₂) :
    d₂.pending.size = 0 := by
  have hsize₁ : d₁.pending.size = (d.pending.size + (padding d.length).length) % 64 := h₁.size
  have hsize₂ : d₂.pending.size = (d₁.pending.size + (lengthBytes bits).length) % 64 := h₂.size
  have hzeros := (Standard.zeros_spec d.length).1
  rw [length_padding] at hsize₁
  rw [length_lengthBytes] at hsize₂
  rw [Aligned] at h
  omega

/-- The names of the numbers that one call writes. -/
def byteLabels (op n : Nat) : List Label := (List.range n).map (Label.twice "bytes " (by decide) op)

/-- One name for each of the numbers. -/
theorem map_name_byteLabels {α : Type} (op : Nat) (xs : List α) :
    (byteLabels op xs.length).map Label.name = xs.zipIdx.map fun x => s!"bytes {op} {x.2}" := by
  have hindex : xs.zipIdx.map (fun x => s!"bytes {op} {x.2}")
      = (xs.zipIdx.map Prod.snd).map fun i => s!"bytes {op} {i}" := by
    rw [List.map_map]
    rfl
  rw [hindex, List.zipIdx_map_snd, byteLabels, List.map_map, List.range_eq_range']
  exact List.map_congr_left fun i _ => Label.name_twice _ _ _ _

/-- The bytes of one call are told apart by a second number. -/
theorem numbered_byteLabels (op n : Nat) : Numbered op (op + 1) (byteLabels op n) := by
  refine .of_index (Nat.lt_succ_self _) (nodup_twice _ _ _ List.nodup_range) ?_ ?_
  · intro l hl
    obtain ⟨i, _, rfl⟩ := List.mem_map.mp hl
    simp [stems, Label.twice, Label.stem]
  · intro l hl
    obtain ⟨i, _, rfl⟩ := List.mem_map.mp hl
    rfl

section Takes

variable (hcap : 64 ≤ Fp.capacity p) {d : Digest}

include hcap

/-- A block takes one number, and only where it is full. -/
theorem takes_absorbFull (h : d.pending.size ≤ 64) :
    Takes d.ops (on d (absorbFull : Hashing p Unit)) (·.2.ops) fun a => d.Grown 0 a.2 := by
  refine Takes.mono (Takes.and_gives (Q := fun _ => True) ?_ (gives_absorbFull h)) fun _ h => h.2
  by_cases hfull : d.pending.size = 64
  · rw [on_absorbFull hfull]
    refine Takes.map (Takes.of_compiles (L := [Label.counted "block " (by decide) d.ops]) ?_ ?_)
    · exact (tidy_compress hcap _ _).mapError.within
    · intro hash _
      exact .of_index (Nat.lt_succ_self _) (List.nodup_singleton _)
        (by simp [stems, Label.counted, Label.stem]) (by simp [Label.counted, Label.index?])
  · rw [on_absorbFull_of_ne hfull]
    exact Takes.pure le_rfl trivial

/-- By induction on the bytes. -/
theorem takes_absorb (bytes : List Byte) (h : d.pending.size < 64) :
    Takes d.ops (on d (absorb bytes : Hashing p Unit)) (·.2.ops) fun _ => True := by
  induction bytes generalizing d with
  | nil => exact Takes.pure le_rfl trivial
  | cons b rest ih =>
      have hpush : (d.push b).pending.size = d.pending.size + 1 := Array.size_push _
      rw [on_absorb_cons]
      refine (takes_absorbFull hcap (d := d.push b) (by omega)).bind fun a ha => ih ?_
      have hsize := ha.size
      omega

/-- A write takes a number for each block that it fills. -/
theorem takes_write (bytes : List Byte) (hopen : d.stage ≠ .finalized) (h : d.pending.size < 64) :
    Takes d.ops (on d (write bytes : Hashing p Nat)) (·.2.ops) fun a =>
      (d.expecting bytes.length).Grown bytes.length a.2 := by
  refine Takes.mono (Takes.and_gives (Q := fun _ => True) ?_ (gives_write bytes h)) fun _ h => h.2
  rw [on_write hopen]
  exact (takes_absorb hcap (d := d.expecting bytes.length) bytes h).map

theorem compiles_bytesOf (op : Nat) (xs : List (Num p)) :
    Compiles ((byteLabels op xs.length).map Label.name) (bytesOf op xs) fun _ => True := by
  rw [map_name_byteLabels]
  exact (Compiles.listMapM (Q := fun _ _ => True) xs.zipIdx
    fun x _ => (Bits.tidy_fromNum x.1 (by omega)).within).mono fun _ _ => trivial

/-- A write of numbers takes one more. -/
theorem takes_writeNums (xs : List (Num p)) (hopen : d.stage ≠ .finalized)
    (h : d.pending.size < 64) :
    Takes d.ops (on d (writeNums xs)) (·.2.ops) fun a =>
      (d.numbered.expecting xs.length).Grown xs.length a.2 := by
  refine Takes.mono (Takes.and_gives (Q := fun _ => True) ?_ (gives_writeNums xs h)) fun _ h => h.2
  rw [on_writeNums hopen]
  refine Takes.bind (j := fun _ => d.numbered.ops) (Q := fun _ => True) ?_ fun bytes _ => ?_
  · exact .of_compiles (compiles_bytesOf hcap d.ops xs).mapError
      fun _ _ => numbered_byteLabels d.ops xs.length
  · exact (takes_write hcap (d := d.numbered) bytes hopen h).mono fun _ _ => trivial

/-- A sum gives three names of its own, apart from those of its blocks. -/
theorem compiles_sumBytes (ignore : LinNum p) (hopen : d.stage ≠ .finalized) (h : d.Aligned) :
    Compiles [s!"padding {d.ops}", s!"length {d.ops}", s!"length bytes {d.ops}"]
      (on d (sumBytes ignore)) fun a => d.ops < a.2.ops := by
  rw [on_sumBytes hopen]
  refine (takes_write hcap (d := d.numbered) _ hopen h.lt).tidy.within.step fun a ha => ?_
  have halign : a.2.Aligned := Aligned.grown (d := d.numbered) h ha
  have hopen' : a.2.stage ≠ .finalized := by
    rw [ha.stage]
    nofun
  refine (LinNum.tidy_toBits _ hcap).mapError.within.step fun bits _ => ?_
  refine (takes_write hcap _ hopen' halign.lt).tidy.within.step fun a' ha' => ?_
  -- padding and length fill the last block, so closing finds nothing left over
  have hsize : a'.2.pending.size = 0 := size_of_grown (d := d.numbered) h ha ha'
  have hops : a.2.ops = d.ops + 1 + _ := ha.ops
  have hops' : a'.2.ops = a.2.ops + _ := ha'.ops
  rw [close, if_neg (not_not.mpr hsize)]
  refine Compiles.pure ?_
  show d.ops < a'.2.ops
  omega

/-- All of them carry numbers that were not taken. -/
theorem takes_sumBytes (ignore : LinNum p) (hopen : d.stage ≠ .finalized) (h : d.Aligned) :
    Takes d.ops (on d (sumBytes ignore)) (·.2.ops) fun _ => True := by
  let labels := [Label.counted "padding " (by decide) d.ops,
    Label.counted "length " (by decide) d.ops, Label.counted "length bytes " (by decide) d.ops]
  refine Takes.mono (Takes.of_compiles (L := labels)
    (compiles_sumBytes hcap ignore hopen h) fun a ha => ?_) fun _ _ => trivial
  exact .of_index ha (by simp [labels, Label.counted])
    (by simp [labels, stems, Label.counted, Label.stem])
    (by simp [labels, Label.counted, Label.index?])

/-- The packing takes one number more. -/
theorem takes_sum (ignore : LinNum p) (hopen : d.stage ≠ .finalized) (h : d.Aligned) :
    Takes d.ops (on d (sum ignore)) (·.2.ops) fun _ => True := by
  rw [on_sum]
  refine (takes_sumBytes hcap ignore hopen h).bind fun a _ => Takes.map ?_
  refine Takes.of_compiles (L := [Label.counted "pack " (by decide) a.2.ops])
    ((Num.tidy_ofBits _).mono fun _ _ => trivial).mapError.within fun _ _ => ?_
  exact .of_index (Nat.lt_succ_self _) (by simp) (by simp [stems, Label.counted, Label.stem])
    (by simp [Label.counted, Label.index?])

end Takes

end Digest

/-- A hash writes and sums, in two namespaces. -/
theorem compiles_sha256 (hcap : 64 ≤ Fp.capacity p) (ignore : LinNum p) (data : List (Num p)) :
    Compiles ["write", "sum"] (sha256 ignore data) fun _ => True := by
  rw [sha256_eq]
  refine Compiles.map ?_
  refine (Digest.takes_writeNums hcap data (by decide) (by decide)).tidy.within.step fun a ha => ?_
  have hopen : a.2.stage ≠ .finalized := by
    rw [ha.stage]
    nofun
  have halign : a.2.Aligned := Digest.Aligned.grown (Digest.aligned_startAt 1) ha
  exact (Digest.takes_sum hcap ignore hopen halign).tidy.within

end Sha256

end RankOne
