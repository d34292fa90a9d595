import RankOne.Proofs.Compiling

/-!
# Labels — names with a number in them

    Loops number the names that they give.  A label is a name that can be read
    back: a stem without digits, alone or before a number, and what stands
    after the number.  Labels that differ have names that differ, so that the
    names of a namespace are distinct when its labels are.

    `Labelled S body Q` keeps of a circuit's names only what they begin with.
    Parts of a circuit whose names begin differently may stand side by side,
    and nothing has to be said about the numbers in them.
-/

namespace RankOne

namespace Naming

/-- Text without digits and without the separator. -/
def Stem (s : String) : Prop := ∀ c ∈ s.toList, c.isDigit = false ∧ c ≠ '/'

/-- Text without the separator that does not begin with a digit. -/
def Tail (s : String) : Prop :=
  (∀ c ∈ s.toList, c ≠ '/') ∧ ∀ c ∈ s.toList.head?, c.isDigit = false

-- the text is gone through; an instance found by search would go through all characters
instance (s : String) : Decidable (Stem s) :=
  List.decidableBAll _ s.toList

instance (s : String) : Decidable (Tail s) :=
  @instDecidableAnd _ _ (List.decidableBAll _ s.toList) (Option.decidableForallMem s.toList.head?)

/-- A name that can be read back: a stem, and maybe a number and a tail after it. -/
inductive Label where
  | plain (stem : String) (h : Stem stem)
  | numbered (stem : String) (h : Stem stem) (i : Nat) (tail : String) (h' : Tail tail)
deriving DecidableEq

namespace Label

/-- The name itself; nothing is put after the number where the tail is empty. -/
def name : Label → String
  | .plain stem _ => stem
  | .numbered stem _ i tail _ =>
      if tail = "" then stem ++ toString i else stem ++ toString i ++ tail

private theorem isDigit_of_mem_toString {i : Nat} {c : Char} (h : c ∈ (toString i).toList) :
    c.isDigit = true := by
  rw [Nat.toString_eq_repr, Nat.toList_repr] at h
  exact Nat.isDigit_of_mem_toDigits (by decide) (by decide) h

private theorem toString_injective {i j : Nat} (h : (toString i).toList = (toString j).toList) :
    i = j := by
  rw [Nat.toString_eq_repr, Nat.toString_eq_repr, Nat.toList_repr, Nat.toList_repr] at h
  have hi : Nat.ofDigitChars 10 (Nat.toDigits 10 i) 0 = i := Nat.ofDigitChars_ten_toDigits
  have hj : Nat.ofDigitChars 10 (Nat.toDigits 10 j) 0 = j := Nat.ofDigitChars_ten_toDigits
  rw [← hi, ← hj, h]

/-- A name that ends in its number. -/
def counted (stem : String) (h : Stem stem) (i : Nat) : Label :=
  .numbered stem h i "" (by decide)

private theorem tail_number (j : Nat) : Tail (" " ++ toString j) := by
  rw [Tail, String.toList_append]
  constructor
  · intro c hc
    rcases List.mem_append.mp hc with hc | hc
    · obtain rfl := List.mem_singleton.mp hc
      decide
    · rintro rfl
      exact nomatch isDigit_of_mem_toString hc
  · intro c hc
    obtain rfl : ' ' = c := Option.some.inj hc
    rfl

/-- A name that ends in two numbers. -/
def twice (stem : String) (h : Stem stem) (i j : Nat) : Label :=
  .numbered stem h i (" " ++ toString j) (tail_number j)

theorem name_twice (stem : String) (h : Stem stem) (i j : Nat) :
    (twice stem h i j).name = stem ++ toString i ++ " " ++ toString j := by
  have hne : " " ++ toString j ≠ "" := by
    intro hempty
    have hlist := congrArg String.toList hempty
    rw [String.toList_append] at hlist
    exact nomatch hlist
  show (if " " ++ toString j = "" then stem ++ toString i
    else stem ++ toString i ++ (" " ++ toString j)) = _
  rw [if_neg hne, ← String.append_assoc]

/-- The number in the name. -/
def index? : Label → Option Nat
  | .plain _ _ => none
  | .numbered _ _ i _ _ => some i

/-- What a name begins with, up to its first digit. -/
def stem : Label → String
  | .plain stem _ => stem
  | .numbered stem _ _ _ _ => stem

private theorem toString_ne_nil (i : Nat) : (toString i).toList ≠ [] := by
  rw [Nat.toString_eq_repr, Nat.toList_repr]
  exact Nat.toDigits_ne_nil

/-- The longest part of a text with a property, and the rest: both are
    determined by the whole. -/
theorem append_inj_of_forall {f : Char → Bool} {xs xs' ys ys' : List Char}
    (hx : ∀ c ∈ xs, f c = true) (hx' : ∀ c ∈ xs', f c = true) (hy : ∀ c ∈ ys.head?, f c = false)
    (hy' : ∀ c ∈ ys'.head?, f c = false) (h : xs ++ ys = xs' ++ ys') : xs = xs' ∧ ys = ys' := by
  induction xs generalizing xs' with
  | nil =>
      cases xs' with
      | nil => exact ⟨rfl, h⟩
      | cons c rest =>
          have hc : c ∈ ys.head? := by
            rw [← List.nil_append ys, h]
            rfl
          exact nomatch (hy c hc).symm.trans (hx' c List.mem_cons_self)
  | cons c rest ih =>
      cases xs' with
      | nil =>
          have hc : c ∈ ys'.head? := by
            rw [← List.nil_append ys', ← h]
            rfl
          exact nomatch (hy' c hc).symm.trans (hx c List.mem_cons_self)
      | cons c' rest' =>
          obtain ⟨rfl, h'⟩ := List.cons.inj h
          obtain ⟨rfl, rfl⟩ := ih (fun x hmem => hx x (List.mem_cons_of_mem _ hmem))
            (fun x hmem => hx' x (List.mem_cons_of_mem _ hmem)) h'
          exact ⟨rfl, rfl⟩

/-- A name after its stem: nothing, or a number and its tail. -/
private def rest : Label → List Char
  | .plain _ _ => []
  | .numbered _ _ i tail _ => (toString i).toList ++ tail.toList

private theorem toList_name (l : Label) : l.name.toList = l.stem.toList ++ l.rest := by
  cases l with
  | plain stem h => exact (List.append_nil _).symm
  | numbered stem h i tail h' =>
      show (if tail = "" then stem ++ toString i else stem ++ toString i ++ tail).toList
        = stem.toList ++ ((toString i).toList ++ tail.toList)
      split
      · next hempty =>
          rw [hempty, String.toList_append]
          exact congrArg (stem.toList ++ ·) (List.append_nil _).symm
      · rw [String.toList_append, String.toList_append, List.append_assoc]

private theorem isDigit_of_mem_stem (l : Label) : ∀ c ∈ l.stem.toList, (!c.isDigit) = true := by
  intro c hc
  cases l with
  | plain stem h => rw [(h c hc).1, Bool.not_false]
  | numbered stem h i tail h' => rw [(h c hc).1, Bool.not_false]

private theorem isDigit_of_mem_head_rest (l : Label) :
    ∀ c ∈ l.rest.head?, (!c.isDigit) = false := by
  intro c hc
  cases l with
  | plain stem h => exact nomatch hc
  | numbered stem h i tail h' =>
      have hmem : c ∈ (toString i).toList := by
        obtain ⟨d, ds, hds⟩ := List.exists_cons_of_ne_nil (toString_ne_nil i)
        rw [rest, hds] at hc
        obtain rfl := Option.some.inj hc
        rw [hds]
        exact List.mem_cons_self
      rw [isDigit_of_mem_toString hmem, Bool.not_true]

/-- Labels that differ have names that differ. -/
theorem name_injective : Function.Injective name := by
  intro l l' h
  have hlist := congrArg String.toList h
  rw [toList_name, toList_name] at hlist
  -- a name is cut where its first digit stands, and the number after its last one
  obtain ⟨hstem, hrest⟩ := append_inj_of_forall (isDigit_of_mem_stem l) (isDigit_of_mem_stem l')
    (isDigit_of_mem_head_rest l) (isDigit_of_mem_head_rest l') hlist
  have hstem' := String.toList_inj.mp hstem
  cases l with
  | plain s hs =>
      cases l' with
      | plain s' hs' =>
          obtain rfl : s = s' := hstem'
          rfl
      | numbered s' hs' i' t' ht' =>
          exact absurd (List.append_eq_nil_iff.mp hrest.symm).1 (toString_ne_nil i')
  | numbered s hs i t ht =>
      cases l' with
      | plain s' hs' => exact absurd (List.append_eq_nil_iff.mp hrest).1 (toString_ne_nil i)
      | numbered s' hs' i' t' ht' =>
          obtain ⟨hi, ht''⟩ := append_inj_of_forall (f := Char.isDigit)
            (fun _ => isDigit_of_mem_toString) (fun _ => isDigit_of_mem_toString) ht.2 ht'.2 hrest
          obtain rfl : s = s' := hstem'
          obtain rfl := toString_injective hi
          obtain rfl := String.toList_inj.mp ht''
          rfl

theorem not_mem_name (l : Label) : '/' ∉ l.name.toList := by
  rw [toList_name, List.mem_append]
  cases l with
  | plain s hs =>
      rintro (h | h)
      · exact (hs _ h).2 rfl
      · exact nomatch h
  | numbered s hs i t ht =>
      rintro (h | h)
      · exact (hs _ h).2 rfl
      · rcases List.mem_append.mp h with h | h
        · exact nomatch isDigit_of_mem_toString h
        · exact ht.1 _ h rfl

end Label

/-! ## Distinct names from distinct labels -/

/-- The names of different labels can be given in one namespace. -/
theorem distinct_of_labels {labels : List Label} (h : labels.Nodup) :
    Distinct (labels.map Label.name) := by
  refine ⟨h.map Label.name_injective, fun name hname => ?_⟩
  obtain ⟨l, _, rfl⟩ := List.mem_map.mp hname
  exact l.not_mem_name

/-- Labels that carry the number of their round do not meet those of another
    round. -/
theorem nodup_flatMap_labels {is : List Nat} (his : is.Nodup) {labels : Nat → List Label}
    (h : ∀ i, (labels i).Nodup) (hindex : ∀ i, ∀ l ∈ labels i, l.index? = some i) :
    (is.flatMap labels).Nodup := by
  refine List.nodup_flatMap.mpr ⟨fun i _ => h i, ?_⟩
  refine his.imp fun {i j} hij l hi hj => ?_
  exact hij (Option.some.inj ((hindex i l hi).symm.trans (hindex j l hj)))

/-- Labels that begin differently differ. -/
theorem nodup_append_labels {ls ls' : List Label} (h : ls.Nodup) (h' : ls'.Nodup)
    (hstem : ∀ l ∈ ls, ∀ l' ∈ ls', l.stem ≠ l'.stem) : (ls ++ ls').Nodup := by
  refine List.nodup_append.mpr ⟨h, h', fun l hl l' hl' heq => ?_⟩
  exact hstem l hl l' hl' (congrArg Label.stem heq)

theorem nodup_counted (stem : String) (h : Stem stem) {is : List Nat} (his : is.Nodup) :
    (is.map (Label.counted stem h)).Nodup := by
  refine his.map fun i j hij => ?_
  cases hij
  rfl

theorem nodup_twice (stem : String) (h : Stem stem) (i : Nat) {js : List Nat} (hjs : js.Nodup) :
    (js.map (Label.twice stem h i)).Nodup := by
  refine hjs.map fun j k hjk => ?_
  injection hjk with _ _ htail
  have hlist := congrArg String.toList htail
  rw [String.toList_append, String.toList_append] at hlist
  exact Label.toString_injective (List.append_cancel_left hlist)

/-- Names that end in a number. -/
theorem distinct_counted (stem : String) (h : Stem stem) {is : List Nat} (his : is.Nodup) :
    Distinct (is.map fun i => stem ++ toString i) := by
  have hdistinct := distinct_of_labels (nodup_counted stem h his)
  rw [List.map_map] at hdistinct
  exact hdistinct

/-- At the start only the constant has a name. -/
theorem not_mem_start {l : Label} (h : l.stem ≠ "ONE") : l.name ∉ start.inner.names := by
  intro hmem
  obtain rfl : l = .plain "ONE" (by decide) := Label.name_injective (List.mem_singleton.mp hmem)
  exact h rfl

end Naming

namespace Build

open Naming

variable {p : Nat} {ε α β : Type}

/-- A compiling run gives a result with `Q`, and the names of different labels
    whose stems are among `S`. -/
def Labelled (S : List String) (body : Build p ε α) (Q : α → Prop) : Prop :=
  ∀ s : System p, ∃ a s', ∃ labels : List Label, body .compiling s = .ok a s' ∧ labels.Nodup ∧
    (∀ l ∈ labels, l.stem ∈ S) ∧ s'.naming = s.naming.claimAll (labels.map Label.name) ∧ Q a

namespace Labelled

variable {S T : List String}

theorem pure {a : α} {Q : α → Prop} (h : Q a) : Labelled [] (pure a : Build p ε α) Q :=
  fun s => ⟨a, s, [], rfl, List.nodup_nil, nofun, rfl, h⟩

theorem of_compiles {L : List Label} {body : Build p ε α} {Q : α → Prop}
    (h : Compiles (L.map Label.name) body Q) (hnodup : L.Nodup) (hstem : ∀ l ∈ L, l.stem ∈ S) :
    Labelled S body Q := by
  intro s
  obtain ⟨a, s', hrun, hnaming, hQ⟩ := h s
  exact ⟨a, s', L, hrun, hnodup, hstem, hnaming, hQ⟩

/-- A part with one name that has no number. -/
theorem plain {name : String} {body : Build p ε α} {Q : α → Prop} (h : Compiles [name] body Q)
    (hname : Stem name) : Labelled [name] body Q :=
  of_compiles (L := [.plain name hname]) h (List.nodup_singleton _) fun l hl => by
    obtain rfl := List.mem_singleton.mp hl
    exact List.mem_singleton_self name

/-- Parts whose names begin differently. -/
theorem bind {x : Build p ε α} {f : α → Build p ε β} {Q : α → Prop} {R : β → Prop}
    (hx : Labelled S x Q) (hf : ∀ a, Q a → Labelled T (f a) R) (hST : ∀ stem ∈ S, stem ∉ T) :
    Labelled (S ++ T) (x >>= f) R := by
  intro s
  obtain ⟨a, s₁, labels₁, hrun₁, hnodup₁, hstem₁, hnaming₁, hQ⟩ := hx s
  obtain ⟨b, s₂, labels₂, hrun₂, hnodup₂, hstem₂, hnaming₂, hR⟩ := hf a hQ s₁
  refine ⟨b, s₂, labels₁ ++ labels₂, bind_eq_ok.mpr ⟨a, s₁, hrun₁, hrun₂⟩, ?_, ?_, ?_, hR⟩
  · refine nodup_append_labels hnodup₁ hnodup₂ fun l hl l' hl' heq => ?_
    exact hST _ (hstem₁ l hl) (heq ▸ hstem₂ l' hl')
  · refine List.forall_mem_append.mpr ⟨fun l hl => ?_, fun l hl => ?_⟩
    · exact List.mem_append_left _ (hstem₁ l hl)
    · exact List.mem_append_right _ (hstem₂ l hl)
  · rw [hnaming₂, hnaming₁, List.map_append, claimAll_append]

/-- Where no name in the way begins like one of the stems, there is no fault. -/
theorem fault_eq {body : Build p ε α} {Q : α → Prop} (h : Labelled S body Q) {s : System p}
    (hfree : ∀ l : Label, l.stem ∈ S → l.name ∉ s.naming.inner.names) :
    ∃ a s', body .compiling s = .ok a s' ∧ s'.naming.fault = s.naming.fault ∧ Q a := by
  obtain ⟨a, s', labels, hrun, hnodup, hstem, hnaming, hQ⟩ := h s
  refine ⟨a, s', hrun, ?_, hQ⟩
  rw [hnaming, claimAll_of_distinct (distinct_of_labels hnodup)]
  intro name hname
  obtain ⟨l, hl, rfl⟩ := List.mem_map.mp hname
  exact hfree l (hstem l hl)

end Labelled

end Build

end RankOne
