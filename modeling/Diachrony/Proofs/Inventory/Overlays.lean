import Diachrony.Proofs.Inventory.Building
import Diachrony.Proofs.Inventory.Clusters

/-!
# Values added in any order

A value that is added to a matrix replaces the other values of its feature, so the order in which
matrices are laid over each other counts. But if at the end every value that was added is there, no
value has replaced another one: then laying the matrices over each other is taking them together, in
whatever order it is done.
-/

namespace Diachrony.Inventory

variable {inv : Inventory}

/-- Whether adding one value to a matrix removes another. -/
def Replaces (inv : Inventory) (value other : String) : Prop :=
  ∃ f, inv.featureOf? value = some f ∧ f.hasValue other

/-- Whether the values of a matrix replace none of the values of another except themselves. -/
def Settled (inv : Inventory) (target m : Matrix) : Prop :=
  ∀ value other, .simple value ∈ m → .simple other ∈ target → inv.Replaces value other →
    other = value

/-- Whether a matrix has one value of a feature at most. -/
def Single (f : Feature) (m : Matrix) : Prop :=
  ∀ value other, .simple value ∈ m → .simple other ∈ m → f.hasValue value → f.hasValue other →
    value = other

instance (f : Feature) (m : Matrix) : Decidable (Single f m) :=
  decidable_of_iff (∀ value ∈ f.values, ∀ other ∈ f.values, .simple value ∈ m →
      .simple other ∈ m → value = other) <| by
    simp only [Single, Feature.hasValue, List.contains_iff_mem]
    grind

/-- Dropping a feature leaves what is none of its values. -/
theorem mem_dropFeature {f : Feature} {m : Matrix} {a : Assertion} :
    a ∈ dropFeature f m ↔ a ∈ m ∧ ∀ value, a = .simple value → ¬f.hasValue value := by
  rw [dropFeature, SortedSet.mem_filter]
  cases a <;> simp [Assertion.simpleValue?]

/-- Adding a declared value keeps what it does not replace. -/
theorem exists_of_change {value : String} {f : Feature} (hf : inv.featureOf? value = some f)
    (hnull : f.nullValue ≠ some value) (m : Matrix) :
    ∃ m', inv.change m (.simple value) = .ok m' ∧ ∀ a, a ∈ m' ↔
      a = .simple value ∨ a ∈ m ∧ ∀ other, a = .simple other → ¬f.hasValue other := by
  refine ⟨(dropFeature f m).insert (.simple value), ?_, fun a ↦ ?_⟩
  · rw [change, hf]
    simp [hnull]
  · rw [SortedSet.mem_insert, mem_dropFeature]

/-- A declared value that is not null is one of the values of its feature. -/
theorem hasValue_of_featureOf? {value : String} {f : Feature} (hf : inv.featureOf? value = some f)
    (hnull : f.nullValue ≠ some value) : f.hasValue value := by
  have howns := List.find?_some hf
  rw [Feature.owns, Bool.or_eq_true] at howns
  exact howns.resolve_right fun h ↦ hnull (by simpa using h)

/-- Adding declared values never fails. -/
theorem changeAll_eq_overlay {changes : Matrix} (h : inv.Declares changes) (m : Matrix) :
    inv.changeAll m changes = .ok (inv.overlay m changes) := by
  have hall {l : List Assertion} (hl : ∀ a ∈ l, ∃ value f, a = .simple value ∧
      inv.featureOf? value = some f ∧ f.nullValue ≠ some value) (m : Matrix) :
      ∃ m', l.foldlM inv.change m = .ok m' := by
    induction l generalizing m with
    | nil => exact ⟨m, rfl⟩
    | cons first rest ih =>
      obtain ⟨⟨value, f, rfl, hf, hnull⟩, hrest⟩ := List.forall_mem_cons.mp hl
      obtain ⟨next, hnext, -⟩ := exists_of_change hf hnull m
      obtain ⟨m', hm'⟩ := ih hrest next
      exact ⟨m', bind_eq_ok hnext hm'⟩
  obtain ⟨m', hm'⟩ := hall h m
  rw [overlay, changeAll, hm']

/-! ### Matrices that fit together -/

section Together

variable {target : Matrix}

private theorem exists_of_foldlM_change {l : List Assertion} {m : Matrix}
    (hdeclares : ∀ a ∈ l, ∃ value f, a = .simple value ∧ inv.featureOf? value = some f ∧
      f.nullValue ≠ some value)
    (hm : ∀ a ∈ m, a ∈ target) (hl : ∀ a ∈ l, a ∈ target)
    (hsettled : ∀ value other, .simple value ∈ l → .simple other ∈ target →
      inv.Replaces value other → other = value) :
    ∃ m', l.foldlM inv.change m = .ok m' ∧ ∀ a, a ∈ m' ↔ a ∈ m ∨ a ∈ l := by
  induction l generalizing m with
  | nil => exact ⟨m, rfl, fun a ↦ by simp⟩
  | cons first rest ih =>
    obtain ⟨⟨value, f, rfl, hf, hnull⟩, hrest⟩ := List.forall_mem_cons.mp hdeclares
    obtain ⟨hfirst, hl⟩ := List.forall_mem_cons.mp hl
    obtain ⟨m', hm', hmem⟩ := exists_of_change hf hnull m
    have hmem (a : Assertion) : a ∈ m' ↔ a = .simple value ∨ a ∈ m := by
      rw [hmem]
      refine or_congr_right' fun hne ↦ and_iff_left_of_imp fun ha other hother hvalue ↦ ?_
      subst hother
      exact hne (congrArg _
        (hsettled value other List.mem_cons_self (hm _ ha) ⟨f, hf, hvalue⟩))
    obtain ⟨m'', hm'', hall⟩ := ih hrest
      (fun a ha ↦ ((hmem a).mp ha).elim (fun h ↦ h ▸ hfirst) (hm a)) hl
      (fun v u hv ↦ hsettled v u (List.mem_cons_of_mem _ hv))
    refine ⟨m'', ?_, fun a ↦ ?_⟩
    · rw [List.foldlM_cons, hm']
      exact hm''
    · rw [hall, hmem, List.mem_cons]
      tauto

/-- Where nothing is replaced, laying a matrix over another is taking them together. -/
theorem mem_overlay {m changes : Matrix} (hdeclares : inv.Declares changes)
    (hm : ∀ a ∈ m, a ∈ target) (hchanges : ∀ a ∈ changes, a ∈ target)
    (hsettled : inv.Settled target changes) {a : Assertion} :
    a ∈ inv.overlay m changes ↔ a ∈ m ∨ a ∈ changes := by
  obtain ⟨m', hm', hmem⟩ := exists_of_foldlM_change hdeclares hm hchanges hsettled
  rw [overlay, changeAll, hm']
  exact hmem a

/-- Where nothing is replaced, laying matrices over another one is taking them together. -/
theorem mem_overlayAll {m : Matrix} {ds : List Diacritic}
    (hdeclares : ∀ d ∈ ds, inv.Declares d.matrix) (hm : ∀ a ∈ m, a ∈ target)
    (hds : ∀ d ∈ ds, ∀ a ∈ d.matrix, a ∈ target)
    (hsettled : ∀ d ∈ ds, inv.Settled target d.matrix) {a : Assertion} :
    a ∈ inv.overlayAll m ds ↔ a ∈ m ∨ ∃ d ∈ ds, a ∈ d.matrix := by
  induction ds generalizing m with
  | nil => simp [overlayAll]
  | cons d rest ih =>
    rw [List.forall_mem_cons] at hdeclares hds hsettled
    have hmem {b : Assertion} := mem_overlay hdeclares.1 hm hds.1 hsettled.1 (a := b)
    have := ih hdeclares.2 (fun b hb ↦ (hmem.mp hb).elim (hm b) (hds.1 b)) hds.2 hsettled.2
    rw [overlayAll, List.foldl_cons, ← overlayAll, this, hmem]
    simp [or_assoc]

/-- Where nothing is replaced, the matrix that is read for a cluster takes those of its pieces
together. -/
theorem mem_matrix_segment {c : Cluster} (hcore : ∀ a ∈ c.core.matrix, a ∈ target)
    (hdeclares : ∀ d ∈ c.before ++ c.after, inv.Declares d.matrix)
    (hds : ∀ d ∈ c.before ++ c.after, ∀ a ∈ d.matrix, a ∈ target)
    (hsettled : ∀ d ∈ c.before ++ c.after, inv.Settled target d.matrix) {a : Assertion} :
    a ∈ (c.segment inv).matrix ↔
      a ∈ c.core.matrix ∨ ∃ d ∈ c.before ++ c.after, a ∈ d.matrix := by
  rw [List.forall_mem_append] at hdeclares hds hsettled
  have hbefore {b : Assertion} : b ∈ inv.overlayAll ∅ c.before ↔ ∃ d ∈ c.before, b ∈ d.matrix := by
    have hnone : ∀ b ∈ (∅ : Matrix), b ∈ target := fun b hb ↦ (SortedSet.not_mem_empty b hb).elim
    rw [mem_overlayAll hdeclares.1 hnone hds.1 hsettled.1]
    exact or_iff_right (SortedSet.not_mem_empty b)
  have hcombined {b : Assertion} : b ∈ inv.overlay c.core.matrix (inv.overlayAll ∅ c.before) ↔
      b ∈ c.core.matrix ∨ ∃ d ∈ c.before, b ∈ d.matrix := by
    rw [mem_overlay ?_ hcore ?_ ?_, hbefore]
    · intro b hb
      obtain ⟨d, hd, hb⟩ := hbefore.mp hb
      exact hdeclares.1 d hd b hb
    · intro b hb
      obtain ⟨d, hd, hb⟩ := hbefore.mp hb
      exact hds.1 d hd b hb
    · intro value other hvalue
      obtain ⟨d, hd, hvalue⟩ := hbefore.mp hvalue
      exact hsettled.1 d hd value other hvalue
  have hthere : ∀ b ∈ inv.overlay c.core.matrix (inv.overlayAll ∅ c.before), b ∈ target := by
    intro b hb
    rcases hcombined.mp hb with hb | ⟨d, hd, hb⟩
    · exact hcore b hb
    · exact hds.1 d hd b hb
  rw [Cluster.segment, mem_overlayAll hdeclares.2 hthere hds.2 hsettled.2, hcombined]
  simp only [List.mem_append, or_and_right, exists_or, or_assoc]

end Together

/-! ### What the last value of a feature leaves -/

/-- A declared value that is added is the only one of its feature, and no other feature gets a
second one. -/
theorem single_of_change (hbuilt : inv.IsBuilt) {value : String} {f g : Feature} {m m' : Matrix}
    (hf : inv.featureOf? value = some f) (hnull : f.nullValue ≠ some value)
    (h : inv.change m (.simple value) = .ok m') (hg : g ∈ inv.features)
    (hsingle : g = f ∨ Single g m) : Single g m' := by
  obtain ⟨next, hnext, hmem⟩ := exists_of_change hf hnull m
  obtain rfl : m' = next := Except.ok.inj (h.symm.trans hnext)
  have hown {w : String} (hw : g.hasValue w) : inv.featureOf? w = some g :=
    hbuilt.owner g hg w (by simp [Feature.owns, hw])
  have hcases {w : String} (hw : .simple w ∈ m') (hgw : g.hasValue w) :
      w = value ∧ g = f ∨ .simple w ∈ m ∧ g ≠ f := by
    rcases (hmem _).mp hw with hw | ⟨hw, hkept⟩
    · obtain rfl : w = value := Assertion.simple.inj hw
      exact .inl ⟨rfl, Option.some.inj ((hown hgw).symm.trans hf)⟩
    · exact .inr ⟨hw, fun heq ↦ hkept w rfl (heq ▸ hgw)⟩
  intro v u hv hu hgv hgu
  rcases hcases hv hgv with ⟨rfl, heq⟩ | ⟨hv, hne⟩ <;>
    rcases hcases hu hgu with ⟨rfl, heq'⟩ | ⟨hu, hne'⟩
  · rfl
  · exact (hne' heq).elim
  · exact (hne heq').elim
  · exact hsingle.resolve_left hne v u hv hu hgv hgu

private theorem single_of_foldlM_change (hbuilt : inv.IsBuilt) {l : List Assertion} {g : Feature}
    {m m' : Matrix} (hdeclares : ∀ a ∈ l, ∃ value f, a = .simple value ∧
      inv.featureOf? value = some f ∧ f.nullValue ≠ some value)
    (h : l.foldlM inv.change m = .ok m') (hg : g ∈ inv.features)
    (hsingle : (∃ value, .simple value ∈ l ∧ inv.featureOf? value = some g) ∨ Single g m) :
    Single g m' := by
  induction l generalizing m with
  | nil =>
    obtain rfl : m = m' := Except.ok.inj h
    exact hsingle.resolve_left fun ⟨_, hmem, _⟩ ↦ List.not_mem_nil hmem
  | cons first rest ih =>
    obtain ⟨⟨value, f, rfl, hf, hnull⟩, hrest⟩ := List.forall_mem_cons.mp hdeclares
    obtain ⟨next, hnext, h⟩ := exists_of_bind_eq_ok h
    refine ih hrest h ?_
    rcases hsingle with ⟨v, hv, hgv⟩ | hsingle
    · rcases List.mem_cons.mp hv with hv | hv
      · obtain rfl : v = value := Assertion.simple.inj hv
        exact .inr (single_of_change hbuilt hf hnull hnext hg
          (.inl (Option.some.inj (hgv.symm.trans hf))))
      · exact .inl ⟨v, hv, hgv⟩
    · exact .inr (single_of_change hbuilt hf hnull hnext hg (.inr hsingle))

/-- Where diacritics are laid over a matrix, one value is left of each feature that they touch. -/
theorem single_overlayAll (hbuilt : inv.IsBuilt) {ds : List Diacritic} {m : Matrix} {g : Feature}
    (hdeclares : ∀ d ∈ ds, inv.Declares d.matrix) (hg : g ∈ inv.features)
    (hsingle : (∃ d ∈ ds, ∃ value, .simple value ∈ d.matrix ∧ inv.featureOf? value = some g) ∨
      Single g m) : Single g (inv.overlayAll m ds) := by
  induction ds generalizing m with
  | nil => exact hsingle.resolve_left fun ⟨_, hmem, _⟩ ↦ List.not_mem_nil hmem
  | cons d rest ih =>
    obtain ⟨hd, hrest⟩ := List.forall_mem_cons.mp hdeclares
    have hfirst (h : (∃ value, .simple value ∈ d.matrix ∧ inv.featureOf? value = some g) ∨
        Single g m) : Single g (inv.overlay m d.matrix) :=
      single_of_foldlM_change hbuilt hd (changeAll_eq_overlay hd m) hg h
    refine ih hrest ?_
    rcases hsingle with ⟨e, he, hvalue⟩ | hsingle
    · rcases List.mem_cons.mp he with rfl | he
      · exact .inr (hfirst (.inl hvalue))
      · exact .inl ⟨e, he, hvalue⟩
    · exact .inr (hfirst (.inr hsingle))

/-- If all values of diacritics are there after they have been laid over a matrix, none of them has
replaced another. -/
theorem settled_overlayAll (hbuilt : inv.IsBuilt) {ds : List Diacritic} {m : Matrix}
    (hdeclares : ∀ d ∈ ds, inv.Declares d.matrix)
    (hthere : ∀ d ∈ ds, ∀ a ∈ d.matrix, a ∈ inv.overlayAll m ds) :
    ∀ d ∈ ds, inv.Settled (inv.overlayAll m ds) d.matrix := by
  intro d hd value other hvalue hother ⟨f, hf, hown⟩
  obtain ⟨_, _, heq, hf', hnull⟩ := hdeclares d hd _ hvalue
  cases heq
  obtain rfl := Option.some.inj (hf.symm.trans hf')
  have hsingle := single_overlayAll hbuilt (m := m) hdeclares (List.mem_of_find?_eq_some hf)
    (.inl ⟨d, hd, value, hvalue, hf⟩)
  exact hsingle other value hother (hthere d hd _ hvalue) hown (hasValue_of_featureOf? hf hnull)

end Diachrony.Inventory
