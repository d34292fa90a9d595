import RankOne.Proofs.Run

/-!
# Honest runs — values that satisfy their own rows

    A *tracing* run records rows and computes values at once.  An assignment
    fits a witness when it gives every variable the value that was computed
    for it.  A witness that grows is fitted by fewer assignments, so whatever
    all of them agree on stays agreed.

    `body.Honest w Q` is the completeness judgement: from any system whose
    values extend `w`, a tracing run of `body` gives a result, every
    assignment that fits the values it leaves satisfies the rows it added, and
    `Q` holds of the result, then and in every later witness.
-/

namespace RankOne

variable {p : Nat}

/-- Rows, paths and values at once. -/
def Mode.tracing : Mode := ⟨true, true⟩

namespace Witness

/-- The second witness has all the values of the first, and perhaps more. -/
structure Le (w w' : Witness p) : Prop where
  aux : w.aux.toList <+: w'.aux.toList
  inputs : w.inputs.toList <+: w'.inputs.toList

instance : LE (Witness p) := ⟨Le⟩

instance : Preorder (Witness p) where
  le_refl _ := ⟨List.prefix_rfl, List.prefix_rfl⟩
  le_trans _ _ _ h h' := ⟨h.aux.trans h'.aux, h.inputs.trans h'.inputs⟩

variable [Modulus p]

/-- The assignment gives each variable the value that was computed for it. -/
structure Fits (w : Witness p) (z : Variable → Fp p) : Prop where
  one : z .one = 1
  aux : ∀ i v, w.aux[i]? = some v → z (.aux i) = v
  input : ∀ i v, w.inputs[i]? = some v → z (.input i) = v

omit [Modulus p] in
/-- A longer array has the entries of the shorter one. -/
theorem getElem?_mono {xs ys : Array (Fp p)} (h : xs.toList <+: ys.toList) {i : Nat}
    {v : Fp p} (hv : xs[i]? = some v) : ys[i]? = some v := by
  obtain ⟨rest, hrest⟩ := h
  rw [← Array.getElem?_toList] at hv ⊢
  rw [← hrest]
  exact List.getElem?_append_left (List.getElem?_eq_some_iff.mp hv).1 ▸ hv

/-- An assignment that fits later values fits the earlier ones. -/
theorem Fits.mono {w w' : Witness p} {z : Variable → Fp p} (h : w ≤ w') (hz : w'.Fits z) :
    w.Fits z where
  one := hz.one
  aux i v hv := hz.aux i v (getElem?_mono h.aux hv)
  input i v hv := hz.input i v (getElem?_mono h.inputs hv)

/-- The values that were computed fit themselves. -/
theorem fits_value {w : Witness p} (h : w.inputs[0]? = some 1) : w.Fits w.value where
  one := by
    show w.inputs.getD 0 0 = 1
    rw [Array.getD_eq_getD_getElem?, h]
    rfl
  aux i v hv := by
    show w.aux.getD i 0 = v
    rw [Array.getD_eq_getD_getElem?, hv]
    rfl
  input i v hv := by
    show w.inputs.getD i 0 = v
    rw [Array.getD_eq_getD_getElem?, hv]
    rfl

/-- The assignments that fit agree on the value of the combination. -/
def Knows (w : Witness p) (l : LinComb p) (v : Fp p) : Prop :=
  ∀ z, w.Fits z → l.eval z = v

/-- What is known of a combination stays known. -/
theorem Knows.mono {w w' : Witness p} {l : LinComb p} {v : Fp p} (h : w ≤ w')
    (hl : w.Knows l v) : w'.Knows l v :=
  fun z hz => hl z (hz.mono h)

end Witness

namespace System

/-- Every variable that was counted has a value. -/
structure Balanced (t : System p) : Prop where
  aux : t.aux.size = t.numAux
  inputs : t.inputs.size = t.numInputs + 1

/-- A later system has computed more values. -/
theorem witness_mono {t t' : System p} (h : t ≤ t') : t.witness ≤ t'.witness :=
  ⟨h.aux, h.inputs⟩

end System

/-- The number has a value, and its variable has the same one. -/
def Num.Live [Modulus p] (w : Witness p) (x : Num p) (v : Fp p) : Prop :=
  x.value = some v ∧ w.Knows x.lc v

/-- A number keeps the value that it was given. -/
theorem Num.Live.mono [Modulus p] {w w' : Witness p} {x : Num p} {v : Fp p} (h : w ≤ w')
    (hx : x.Live w v) : x.Live w' v :=
  ⟨hx.1, hx.2.mono h⟩

namespace Build

variable [Modulus p] {ε ε' α β : Type}

/-- A tracing run gives a result of which `Q` holds, and its values satisfy its
    rows. -/
def Honest (w : Witness p) (body : Build p ε α) (Q : Witness p → α → Prop) : Prop :=
  ∀ t : System p, w ≤ t.witness → t.Balanced →
    ∃ a t', body .tracing t = .ok a t' ∧ t ≤ t' ∧ t'.Balanced ∧
      (∀ z, t'.witness.Fits z → t'.HoldsSince t z) ∧ ∀ w', t'.witness ≤ w' → Q w' a

namespace Honest

variable {w : Witness p}

/-- Of a result less may be said, with the later values at hand. -/
theorem mono {body : Build p ε α} {Q R : Witness p → α → Prop} (h : Honest w body Q)
    (hQR : ∀ w' a, w ≤ w' → Q w' a → R w' a) : Honest w body R := by
  intro t hw hbal
  obtain ⟨a, t', hrun, hle, hbal', hz, hQ⟩ := h t hw hbal
  refine ⟨a, t', hrun, hle, hbal', hz, fun w' hw' => hQR w' a ?_ (hQ w' hw')⟩
  exact (hw.trans (System.witness_mono hle)).trans hw'

/-- What every result has may be added. -/
theorem and_gives {body : Build p ε α} {Q : Witness p → α → Prop} {R : α → Prop}
    (h : Honest w body Q) (hR : Gives body R) : Honest w body fun w' a => Q w' a ∧ R a := by
  intro t hw hbal
  obtain ⟨a, t', hrun, hle, hbal', hz, hQ⟩ := h t hw hbal
  exact ⟨a, t', hrun, hle, hbal', hz, fun w' hw' => ⟨hQ w' hw', hR _ _ _ a hrun⟩⟩

/-- Nothing is computed, so that the values are those that were there before. -/
theorem pure {a : α} {Q : Witness p → α → Prop} (h : ∀ w', w ≤ w' → Q w' a) :
    Honest w (pure a : Build p ε α) Q := by
  intro t hw hbal
  refine ⟨a, t, rfl, le_rfl, hbal, fun z _ => System.holdsSince_of_rows_eq rfl z, ?_⟩
  exact fun w' hw' => h w' (hw.trans hw')

/-- The second circuit is asked for with the values that the first one has
    computed. -/
theorem bind {x : Build p ε α} {f : α → Build p ε β} {Q : Witness p → α → Prop}
    {R : Witness p → β → Prop} (hx : Honest w x Q)
    (hf : ∀ w' a, w ≤ w' → Q w' a → Honest w' (f a) R) : Honest w (x >>= f) R := by
  intro t hw hbal
  obtain ⟨a, t₁, hrun₁, hle₁, hbal₁, hz₁, hQ⟩ := hx t hw hbal
  have hw₁ : w ≤ t₁.witness := hw.trans (System.witness_mono hle₁)
  obtain ⟨b, t₂, hrun₂, hle₂, hbal₂, hz₂, hR⟩ := hf t₁.witness a hw₁ (hQ _ le_rfl) t₁ le_rfl hbal₁
  refine ⟨b, t₂, bind_eq_ok.mpr ⟨a, t₁, hrun₁, hrun₂⟩, hle₁.trans hle₂, hbal₂, ?_, hR⟩
  intro z hz
  have hz' : t₁.witness.Fits z := hz.mono (System.witness_mono hle₂)
  exact (System.holdsSince_trans hle₁ hle₂).mpr ⟨hz₁ z hz', hz₂ z hz⟩

theorem map {x : Build p ε α} {g : α → β} {Q : Witness p → β → Prop}
    (hx : Honest w x fun w' a => Q w' (g a)) : Honest w (g <$> x) Q := by
  intro t hw hbal
  obtain ⟨a, t', hrun, hrest⟩ := hx t hw hbal
  have hmap : (g <$> x) .tracing t = .ok (g a) t' :=
    (bind_eq_ok (f := fun a => Pure.pure (g a))).mpr ⟨a, t', hrun, rfl⟩
  exact ⟨g a, t', hmap, hrest⟩

theorem mapError {f : ε → ε'} {x : Build p ε α} {Q : Witness p → α → Prop} (hx : Honest w x Q) :
    Honest w (mapError f x) Q := by
  intro t hw hbal
  obtain ⟨a, t', hrun, hrest⟩ := hx t hw hbal
  exact ⟨a, t', mapError_eq_ok.mpr hrun, hrest⟩

/-- Opening and closing a namespace touches neither rows nor values. -/
theorem within {name : String} {x : Build p ε α} {Q : Witness p → α → Prop} (hx : Honest w x Q) :
    Honest w (within name x) Q := by
  intro t hw hbal
  obtain ⟨a, t', hrun, hle, hbal', hz, hQ⟩ := hx (t.enter name) hw ⟨hbal.aux, hbal.inputs⟩
  refine ⟨a, t'.leave, within_eq_ok.mpr ⟨t', hrun, rfl⟩, ?_, ⟨hbal'.aux, hbal'.inputs⟩, ?_, hQ⟩
  · exact ((t.le_naming _).trans hle).trans (t'.le_naming _)
  · exact fun z hfits => (System.holdsSince_congr rfl rfl z).mp (hz z hfits)

theorem inside {x : Build p ε α} {Q : Witness p → α → Prop} (hx : Honest w x Q) :
    (path : List String) → Honest w (inside path x) Q
  | [] => hx
  | _ :: path => (Honest.inside hx path).within

/-- A row is honest where all assignments that fit satisfy it. -/
theorem enforce {name : String} {a b c : LinComb p}
    (h : ∀ z, w.Fits z → a.eval z * b.eval z = c.eval z) :
    Honest w (enforce name a b c : Build p ε Unit) fun _ _ => True := by
  intro t hw hbal
  have hle : t ≤ t.addRow name a b c := t.le_addRow name a b c
  refine ⟨(), t.addRow name a b c, rfl, hle, ⟨hbal.aux, hbal.inputs⟩, ?_, fun _ _ => trivial⟩
  exact fun z hz => System.holdsSince_addRow.mpr (h z (hz.mono hw))

/-- A circuit, one row that its values satisfy, and what is made of the
    result. -/
theorem row {name : String} {x : Build p ε α} {a b c : α → LinComb p} {g : α → β}
    {Q : Witness p → α → Prop} {R : Witness p → β → Prop} (hx : Honest w x Q)
    (hrow : ∀ w' r z, w ≤ w' → Q w' r → w'.Fits z →
      (a r).eval z * (b r).eval z = (c r).eval z)
    (hR : ∀ w' w'' r, w' ≤ w'' → Q w' r → R w'' (g r)) :
    Honest w (do let r ← x; Build.enforce name (a r) (b r) (c r); return g r) R := by
  refine hx.bind fun w₁ r hle₁ hr => ?_
  refine (Honest.enforce fun z hz => hrow w₁ r z hle₁ hr hz).bind fun w₂ _ hle₂ _ => pure ?_
  intro w₃ hle₃
  exact hR w₁ w₃ r (hle₂.trans hle₃) hr

/-- A fresh variable is worth the value that it was given, and keeps it. -/
theorem aux {name : String} {v : Fp p} :
    Honest w (aux name (some v)) fun w' x => x.Live w' v := by
  intro t _ hbal
  have hle : t ≤ (t.countAux.pushAux v).claim name :=
    (t.le_countAux.trans (System.le_pushAux _ _)).trans (System.le_naming _ _)
  refine ⟨⟨.aux t.numAux, some v⟩, (t.countAux.pushAux v).claim name, rfl, hle, ?_, ?_, ?_⟩
  · refine ⟨?_, hbal.inputs⟩
    show (t.aux.push v).size = t.numAux + 1
    rw [Array.size_push, hbal.aux]
  · exact fun z _ => System.holdsSince_of_rows_eq rfl z
  · intro w' hw'
    refine ⟨rfl, fun z hz => ?_⟩
    -- as many values are there as variables, so the new one is the last
    have hget : (t.aux.push v)[t.numAux]? = some v := by
      rw [← hbal.aux]
      exact Array.getElem?_push_size
    rw [Num.lc, LinComb.eval_ofVar]
    exact (hz.mono hw').aux t.numAux v hget

/-- The branch that is taken is the one that has to be honest. -/
theorem ite {c : Prop} [Decidable c] {x y : Build p ε α} {Q : Witness p → α → Prop}
    (hx : c → Honest w x Q) (hy : ¬c → Honest w y Q) : Honest w (if c then x else y) Q := by
  split
  · next h => exact hx h
  · next h => exact hy h

private theorem tabulateTo {m : Nat} {body : Fin m → Build p ε α}
    {Q : Fin m → Witness p → α → Prop} (hmono : ∀ i w w' a, w ≤ w' → Q i w a → Q i w' a)
    (h : ∀ i w', w ≤ w' → Honest w' (body i) (Q i)) (n : Nat) (le : n ≤ m) :
    Honest w (tabulateTo body n le) fun w' v =>
      ∀ i (hi : i < n), Q ⟨i, Nat.lt_of_lt_of_le hi le⟩ w' v[i] := by
  induction n with
  | zero => exact pure fun _ _ i hi => absurd hi (Nat.not_lt_zero i)
  | succ n ih =>
      refine (ih (by omega)).bind fun w₁ v hle₁ hv => ?_
      refine (h ⟨n, le⟩ w₁ hle₁).bind fun w₂ a hle₂ ha => pure ?_
      intro w₃ hle₃
      have hv₃ : ∀ i (hi : i < n), Q ⟨i, hi.trans le⟩ w₃ v[i] := fun i hi =>
        hmono _ w₁ w₃ _ (hle₂.trans hle₃) (hv i hi)
      exact forall_push (Q := fun i a => Q i w₃ a) le hv₃ (hmono _ w₂ w₃ _ hle₃ ha)

/-- Each round of a loop meets the values of the rounds before it, so it is
    asked for in every later witness. -/
theorem tabulate {n : Nat} {body : Fin n → Build p ε α} {Q : Fin n → Witness p → α → Prop}
    (hmono : ∀ i w w' a, w ≤ w' → Q i w a → Q i w' a)
    (h : ∀ i w', w ≤ w' → Honest w' (body i) (Q i)) :
    Honest w (tabulate body) fun w' v => ∀ i (hi : i < n), Q ⟨i, hi⟩ w' v[i] :=
  tabulateTo hmono h n (Nat.le_refl n)

/-- Elements are met in order, each with the values computed before it. -/
theorem listMapM {body : α → Build p ε β} {Q : α → Witness p → β → Prop} (xs : List α)
    (hmono : ∀ x w w' b, w ≤ w' → Q x w b → Q x w' b)
    (h : ∀ x ∈ xs, ∀ w', w ≤ w' → Honest w' (body x) (Q x)) :
    Honest w (xs.mapM body) fun w' ys => List.Forall₂ (fun x y => Q x w' y) xs ys := by
  induction xs generalizing w with
  | nil => exact pure fun _ _ => List.Forall₂.nil
  | cons x rest ih =>
      rw [List.mapM_cons]
      refine (h x List.mem_cons_self w le_rfl).bind fun w₁ y hle₁ hy => ?_
      have hrest : ∀ x' ∈ rest, ∀ w', w₁ ≤ w' → Honest w' (body x') (Q x') :=
        fun x' hx' w' hle => h x' (List.mem_cons_of_mem _ hx') w' (hle₁.trans hle)
      refine (ih hrest).bind fun w₂ ys hle₂ hys => pure fun w₃ hle₃ => ?_
      refine List.Forall₂.cons (hmono x w₁ w₃ y (hle₂.trans hle₃) hy) ?_
      exact hys.imp fun x' y' => hmono x' w₂ w₃ y' hle₃

/-- So they are where there are no results. -/
theorem listForM {body : α → Build p ε Unit} (xs : List α)
    (h : ∀ x ∈ xs, ∀ w', w ≤ w' → Honest w' (body x) fun _ _ => True) :
    Honest w (xs.forM body) fun _ _ => True := by
  induction xs generalizing w with
  | nil => exact pure fun _ _ => trivial
  | cons x rest ih =>
      refine (h x List.mem_cons_self w le_rfl).bind fun w₁ _ hle₁ _ => ih ?_
      exact fun x' hx' w' hle => h x' (List.mem_cons_of_mem _ hx') w' (hle₁.trans hle)

end Honest

end Build

end RankOne
