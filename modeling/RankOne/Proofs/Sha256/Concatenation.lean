import RankOne.Field.Moduli
import RankOne.Proofs.Sha256.Displacement

/-!
# Concatenation — bytes written in one call or in two

    Bytes are absorbed one by one, and nothing happens between two calls that
    write them.  So it makes no difference where a message is cut: the blocks
    are compressed at the same bytes, under the same operation numbers, and the
    systems are equal down to the names in them.

    The one thing that a write does at once for all of its bytes is to count
    them.  While the first part of a message is absorbed, the digest that was
    given the whole of it is already further by the length of the second part;
    absorption does not look at the length, so both stay displaced by that much
    until the second write catches up.
-/

namespace RankOne.Sha256

open Build Hashing

variable {p : Nat} [Modulus p]

namespace Digest

variable {mode : Mode} {d : Digest} {s : System p}

/-- What is absorbed in two parts is absorbed in one. -/
theorem absorb_append (u v : List Byte) :
    (absorb (u ++ v) : Hashing p Unit) = absorb u >>= fun _ => absorb v := by
  induction u with
  | nil => rfl
  | cons b rest ih =>
      rw [List.cons_append, absorb, absorb, ih, bind_assoc]
      refine congrArg (_ >>= ·) (funext fun _ => ?_)
      rw [bind_assoc]

omit [Modulus p] in
/-- Equality is kept by runs that give the same names. -/
theorem stable_eq (mode : Mode) :
    System.Stable (p := p) (Renumbered 0) mode fun _ => Eq where
  same := Renumbered.refl
  numAux hs := congrArg System.numAux hs
  enter hs name name' hname := by rw [hs, hname.eq_of_zero]
  leave hs := congrArg _ hs
  addRow hs _ _ _ _ := congrArg _ hs
  aux hs _ _ _ := by rw [hs]

/-- A write to an open digest counts its bytes and absorbs them. -/
theorem write_open (hopen : d.stage ≠ .finalized) (bytes : List Byte) :
    (write bytes : Hashing p Nat) mode (d, s)
      = match (absorb bytes : Hashing p Unit) mode (d.expecting bytes.length, s) with
        | .ok _ c => .ok bytes.length c
        | .error e c => .error e c := by
  rw [write, Leads.bind_apply, ensureOpen_of_open hopen]
  show (Hashing.change _ >>= _) mode (d, s) = _
  rw [Leads.bind_apply]
  show (absorb bytes >>= fun _ => pure bytes.length) mode (d.expecting bytes.length, s) = _
  rw [Leads.bind_apply]
  cases (absorb bytes : Hashing p Unit) mode (d.expecting bytes.length, s) with
  | ok _ c => rfl
  | error e c => rfl

/-- A digest that takes bytes is open. -/
theorem open_of_write {bytes : List Byte} {n : Nat} {c : Digest × System p}
    (hrun : write bytes mode (d, s) = .ok n c) : d.stage ≠ .finalized := by
  intro hstage
  rw [write, Leads.bind_apply, ensureOpen_of_finalized hstage] at hrun
  cases hrun

/-- A write that succeeds gives the number of its bytes. -/
theorem length_of_write {bytes : List Byte} {n : Nat} {c : Digest × System p}
    (hrun : write bytes mode (d, s) = .ok n c) : bytes.length = n := by
  rw [write_open (open_of_write hrun)] at hrun
  split at hrun
  · cases hrun
    rfl
  · exact nomatch hrun

/-- The digest that is given the whole message absorbs the first part of it
    like the one that is given this part alone. -/
theorem absorb_alongside (mode : Mode) (u v : List Byte) :
    Alongside (Apart v.length 0 Eq) (fun _ _ => True)
      ((absorb u : Hashing p Unit) mode (d.expecting (u ++ v).length, s))
      ((absorb u : Hashing p Unit) mode (d.expecting u.length, s)) := by
  refine moves_absorb u mode (fun _ => Eq) (stable_eq mode) [] _ _ ⟨?_, rfl⟩
  refine ⟨rfl, rfl, ?_, rfl, rfl⟩
  show d.length + (u ++ v).length = d.length + u.length + v.length
  rw [List.length_append, Nat.add_assoc]

/-- After a first part that was written, the whole message is written as the
    second part of it is. -/
theorem write_append_of_ok (hopen : d.stage ≠ .finalized) {u : List Byte} {n : Nat}
    {c : Digest × System p} (hrun : write u mode (d, s) = .ok n c) (v : List Byte) :
    (write (u ++ v) : Hashing p Nat) mode (d, s)
      = match (write v : Hashing p Nat) mode c with
        | .ok m c' => .ok (n + m) c'
        | .error e c' => .error e c' := by
  rw [write_open hopen] at hrun ⊢
  rw [absorb_append, Leads.bind_apply]
  rcases (absorb_alongside (d := d) (s := s) mode u v).ok_or_error with
    ⟨_, ⟨d₂, s₂⟩, _, ⟨d₁, s₁⟩, hwhole, hpart, happart, -⟩ | ⟨e, c₂, c₁, hwhole, hpart, -⟩
  · rw [hpart] at hrun
    cases hrun
    obtain rfl : s₂ = s₁ := happart.system
    have htook := (leads_absorb u).ok _ _ hpart
    have hstage : d₁.stage = .streaming := htook.stage
    -- counting the second part closes the gap
    have hcaught : d₁.expecting v.length = d₂ := by
      refine Displaced.eq ⟨happart.digest.hash.symm, happart.digest.pending.symm,
        happart.digest.length.symm, ?_, happart.digest.ops.symm⟩
      rw [happart.digest.stage, hstage]
      rfl
    rw [hwhole, write_open (by rw [hstage]; exact nofun), hcaught, List.length_append]
    dsimp only
    cases (absorb v : Hashing p Unit) mode (d₂, s₂) with
    | ok _ c => rfl
    | error e c => rfl
  · rw [hpart] at hrun
    exact nomatch hrun

/-- Where the first part cannot be written, the whole message cannot be, for
    the same reason and at the same place. -/
theorem write_append_of_error (hopen : d.stage ≠ .finalized) {u : List Byte} {e : GadgetError}
    {d₁ : Digest} {s₁ : System p} (hrun : write u mode (d, s) = .error e (d₁, s₁))
    (v : List Byte) :
    ∃ d₂ : Digest, d₂.Displaced v.length 0 d₁ ∧
      write (u ++ v) mode (d, s) = .error e (d₂, s₁) := by
  rw [write_open hopen] at hrun ⊢
  rw [absorb_append, Leads.bind_apply]
  rcases (absorb_alongside (d := d) (s := s) mode u v).ok_or_error with
    ⟨_, c₂, _, c₁, hwhole, hpart, -⟩ | ⟨e', ⟨d₂, s₂⟩, c₁, hwhole, hpart, happart⟩
  · rw [hpart] at hrun
    exact nomatch hrun
  · rw [hpart] at hrun
    cases hrun
    obtain rfl : s₂ = s₁ := happart.system
    rw [hwhole]
    exact ⟨d₂, happart.digest, rfl⟩

/-- A message is written in two calls exactly where it is written in one, in
    every mode.  Both ways leave the same digest, with its counters, and the
    same system: the variables, their values, the rows and all names.  The
    numbers of bytes that the calls give add up.

    Where the whole message cannot be written, one of the two calls fails with
    the same error.  They stop in the same system, and if it is the first that
    fails, the digest has not counted the second part. -/
theorem write_append (mode : Mode) (d : Digest) (s : System p) (u v : List Byte) :
    (∀ n c, write (u ++ v) mode (d, s) = .ok n c ↔
      ∃ n₁ n₂ c₁, write u mode (d, s) = .ok n₁ c₁ ∧ write v mode c₁ = .ok n₂ c ∧ n = n₁ + n₂) ∧
    (d.stage ≠ .finalized → ∀ e c, write (u ++ v) mode (d, s) = .error e c →
      (∃ d₁, c.1.Displaced v.length 0 d₁ ∧ write u mode (d, s) = .error e (d₁, c.2)) ∨
        ∃ n₁ c₁, write u mode (d, s) = .ok n₁ c₁ ∧ write v mode c₁ = .error e c) := by
  constructor
  · intro n c
    constructor
    · intro hwhole
      have hopen := open_of_write hwhole
      cases hu : write u mode (d, s) with
      | ok n₁ c₁ =>
          rw [write_append_of_ok hopen hu v] at hwhole
          cases hv : write v mode c₁ with
          | ok n₂ c₂ =>
              rw [hv] at hwhole
              cases hwhole
              exact ⟨n₁, n₂, c₁, rfl, hv, rfl⟩
          | error e c₂ =>
              rw [hv] at hwhole
              exact nomatch hwhole
      | error e c₁ =>
          obtain ⟨d₂, -, hfails⟩ := write_append_of_error hopen hu v
          exact nomatch hfails.symm.trans hwhole
    · rintro ⟨n₁, n₂, c₁, hu, hv, rfl⟩
      rw [write_append_of_ok (open_of_write hu) hu v, hv]
  · intro hopen e c hwhole
    cases hu : write u mode (d, s) with
    | ok n₁ c₁ =>
        rw [write_append_of_ok hopen hu v] at hwhole
        cases hv : write v mode c₁ with
        | ok n₂ c₂ =>
            rw [hv] at hwhole
            exact nomatch hwhole
        | error e' c₂ =>
            rw [hv] at hwhole
            cases hwhole
            exact .inr ⟨n₁, c₁, rfl, hv⟩
    | error e' c₁ =>
        obtain ⟨d₂, hd₂, hfails⟩ := write_append_of_error hopen hu v
        cases hfails.symm.trans hwhole
        exact .inl ⟨c₁.1, hd₂, rfl⟩

/-- A byte of which nothing is known. -/
def unknownByte : Byte := ⟨.replicate 8 (.pos ⟨.aux 0, none⟩), none⟩

set_option maxRecDepth 10000 in
/-- A cut just before the end of a block; and a block that cannot be compressed,
    with one byte after it. -/
theorem write_append_sixtyFive :
    (∃ c₁ c : Digest × System Moduli.bn256,
      write (List.replicate 63 (.constant 0)) .compiling (.new, .start) = .ok 63 c₁ ∧
        write [.constant 0, .constant 0] .compiling c₁ = .ok 2 c ∧
        write (List.replicate 63 (.constant 0) ++ [.constant 0, .constant 0]) .compiling
          (.new, .start) = .ok 65 c) ∧
      ∃ (d₁ d₂ : Digest) (s : System Moduli.bn256),
        let e := GadgetError.synthesis SynthesisError.assignmentMissing.message
        d₂.Displaced 1 0 d₁ ∧
          write (List.replicate 64 unknownByte) .solving (.new, .start) = .error e (d₁, s) ∧
          write (List.replicate 64 unknownByte ++ [.constant 0]) .solving (.new, .start)
            = .error e (d₂, s) := by
  constructor
  · obtain ⟨zeros, hzeros⟩ : ∃ u : List Byte, u = List.replicate 63 (.constant 0) := ⟨_, rfl⟩
    have hcount : zeros.length = 63 := by rw [hzeros, List.length_replicate]
    rw [← hzeros]
    obtain ⟨⟨n, d⟩, s, _, hwrite, _⟩ := takes_write (p := Moduli.bn256) (d := .new) (by decide)
      (zeros ++ [.constant 0, .constant 0]) nofun (by decide) .start
    have hrun := on_eq_ok.mp hwrite
    obtain ⟨n₁, n₂, c₁, hu, hv, hn⟩ := ((write_append _ _ _ _ _).1 n (d, s)).mp hrun
    have hn₁ : zeros.length = n₁ := length_of_write hu
    have hn₂ : 2 = n₂ := length_of_write hv
    rw [← hn₁, hcount] at hu
    rw [← hn₂] at hv
    rw [hn, ← hn₁, ← hn₂, hcount] at hrun
    exact ⟨c₁, (d, s), hu, hv, hrun⟩
  · obtain ⟨c, hwhole⟩ : ∃ c, write (p := Moduli.bn256)
        (List.replicate 64 unknownByte ++ [.constant 0]) .solving (.new, .start)
          = .error (.synthesis SynthesisError.assignmentMissing.message) c := ⟨_, rfl⟩
    have hopen : Digest.new.stage ≠ .finalized := nofun
    rcases (write_append _ _ _ _ _).2 hopen _ c hwhole with ⟨d₁, happart, hu⟩ | ⟨n, c₁, hu, -⟩
    · exact ⟨d₁, c.1, c.2, happart, hu, hwhole⟩
    -- the block is complete without the last byte
    · have hfails : ∃ c, write (p := Moduli.bn256) (List.replicate 64 unknownByte) .solving
          (.new, .start) = .error (.synthesis SynthesisError.assignmentMissing.message) c :=
        ⟨_, rfl⟩
      obtain ⟨_, hfails⟩ := hfails
      exact nomatch hfails.symm.trans hu

end Digest

end RankOne.Sha256
