import Mathlib.Data.List.Nodup
import Diachrony.Pattern.Finder
import Diachrony.Proofs.Inventory.Overlays

/-!
# Updates

An update says of some features which value they have, or that they have none, and of no feature
twice. It may say that a feature has none in two ways: by the absence of the feature or by its null
value. In an inventory that was built each value belongs to one feature, so what an update says of
one feature leaves the others alone. Hence an update applies whatever the matrix is, what it says
holds afterwards, a second time it changes nothing, and updates of different features commute.

A pattern reads the same assertions as questions. The pattern made of an update accepts every matrix
that the update was applied to.
-/

namespace Diachrony

/-- The values of a feature that a matrix has, in the order of declaration. -/
def Feature.valuesIn (f : Feature) (m : Matrix) : List String := f.values.filter m.has

/-- Whether an assertion says which value a feature has, or that it has none. -/
def Assertion.isSetting : Assertion → Bool
  | simple _ | absent _ => true
  | negated _ | binds _ => false

namespace Inventory

/-- The feature that an assertion is about. -/
def subject? (inv : Inventory) : Assertion → Option Feature
  | .simple value | .negated value => inv.featureOf? value
  | .absent feature | .binds feature => inv.feature? feature

/-- Whether a matrix says of declared features, of each of them once, which value they have or that
they have none. -/
structure IsUpdate (inv : Inventory) (c : Matrix) : Prop where
  /-- Every assertion names a value or the absence of a feature. -/
  sets : ∀ a ∈ c, a.isSetting
  /-- Every assertion is about a declared feature. -/
  declared : ∀ a ∈ c, ∃ f, inv.subject? a = some f
  /-- No two assertions are about one feature. -/
  once : ∀ a ∈ c, ∀ b ∈ c, inv.subject? a = inv.subject? b → a = b

instance (inv : Inventory) (c : Matrix) : Decidable (inv.IsUpdate c) :=
  decidable_of_iff ((∀ a ∈ c.toList, a.isSetting) ∧ (∀ a ∈ c.toList, (inv.subject? a).isSome) ∧
      ∀ a ∈ c.toList, ∀ b ∈ c.toList, inv.subject? a = inv.subject? b → a = b)
    ⟨fun ⟨hsets, hdeclared, honce⟩ ↦
        ⟨hsets, fun a ha ↦ Option.isSome_iff_exists.mp (hdeclared a ha), honce⟩,
      fun ⟨hsets, hdeclared, honce⟩ ↦
        ⟨hsets, fun a ha ↦ Option.isSome_iff_exists.mpr (hdeclared a ha), honce⟩⟩

/-- Whether an assertion gives a declared feature one of the values that it lists. -/
def Gives (inv : Inventory) (a : Assertion) : Prop :=
  ∃ value, a = .simple value ∧ ∃ f ∈ inv.features, f.hasValue value

variable {inv : Inventory} {m base c : Matrix} {a b : Assertion} {f : Feature} {value : String}

namespace IsBuilt

/-- A value that a feature lists is about this feature. -/
theorem subject?_simple (hbuilt : inv.IsBuilt) (hf : f ∈ inv.features) (hvalue : f.hasValue value) :
    inv.subject? (.simple value) = some f :=
  hbuilt.owner f hf value (by simp [Feature.owns, hvalue])

/-- A null value is none of the values that its feature lists. -/
theorem not_hasValue_null (hbuilt : inv.IsBuilt) (hf : f ∈ inv.features)
    (hnull : f.nullValue = some value) : ¬f.hasValue value := by
  intro hvalue
  rw [Feature.hasValue, List.contains_iff_mem] at hvalue
  have hnodup := hbuilt.nodup_values f hf
  rw [hnull] at hnodup
  exact (List.nodup_append.mp hnodup).2.2 value hvalue value (by simp) rfl

end IsBuilt

/-! ### One assertion after the other -/

/-- Dropping a feature drops what gives it a value. -/
theorem mem_dropFeature_iff_subject? (hbuilt : inv.IsBuilt) (hf : f ∈ inv.features) :
    b ∈ dropFeature f m ↔ b ∈ m ∧ ¬(inv.Gives b ∧ inv.subject? b = some f) := by
  rw [mem_dropFeature]
  refine and_congr_right' ⟨fun hkept ⟨⟨value, hb, g, hg, hvalue⟩, hsubject⟩ ↦ ?_,
    fun hother value hb hvalue ↦ hother ⟨⟨value, hb, f, hf, hvalue⟩, ?_⟩⟩
  · rw [hb, hbuilt.subject?_simple hg hvalue] at hsubject
    obtain rfl := Option.some.inj hsubject
    exact hkept value hb hvalue
  · rw [hb]
    exact hbuilt.subject?_simple hf hvalue

/-- An assertion of an update replaces the values of the feature that it is about. -/
theorem exists_of_change_setting (hbuilt : inv.IsBuilt) (hsets : a.isSetting)
    (hdeclared : inv.subject? a = some f) (m : Matrix) :
    ∃ m', inv.change m a = .ok m' ∧ ∀ b, b ∈ m' ↔
      b = a ∧ inv.Gives a ∨ b ∈ m ∧ ¬(inv.Gives b ∧ inv.subject? b = inv.subject? a) := by
  have hf : f ∈ inv.features := by cases a <;> exact List.mem_of_find?_eq_some hdeclared
  simp only [hdeclared, ← mem_dropFeature_iff_subject? hbuilt hf]
  cases a with
  | simple value =>
    have hfeature : inv.featureOf? value = some f := hdeclared
    rw [change, hfeature]
    dsimp only
    by_cases hnull : f.nullValue = some value
    · -- a null value only removes
      have hnone : ¬inv.Gives (.simple value) := by
        rintro ⟨other, heq, g, hg, hvalue⟩
        cases heq
        obtain rfl := Option.some.inj
          ((hbuilt.subject?_simple hg hvalue).symm.trans hfeature)
        exact hbuilt.not_hasValue_null hg hnull hvalue
      exact ⟨_, rfl, fun b ↦ by simp [hnull, hnone]⟩
    · have hgives : inv.Gives (.simple value) :=
        ⟨value, rfl, f, hf, hasValue_of_featureOf? hfeature hnull⟩
      exact ⟨_, rfl, fun b ↦ by simp [hnull, hgives]⟩
  | absent feature =>
    have hfeature : inv.feature? feature = some f := hdeclared
    have hnone : ¬inv.Gives (.absent feature) := by
      rintro ⟨_, heq, _⟩
      cases heq
    rw [change, hfeature]
    exact ⟨_, rfl, fun b ↦ by simp [hnone]⟩
  | negated value => cases hsets
  | binds feature => cases hsets

private theorem exists_of_foldlM_change_setting (hbuilt : inv.IsBuilt) {l : List Assertion}
    (hsets : ∀ a ∈ l, a.isSetting) (hdeclared : ∀ a ∈ l, ∃ f, inv.subject? a = some f)
    (honce : l.Pairwise fun a b ↦ inv.subject? a ≠ inv.subject? b) (m : Matrix) :
    ∃ m', l.foldlM inv.change m = .ok m' ∧ ∀ b, b ∈ m' ↔ b ∈ l ∧ inv.Gives b ∨
      b ∈ m ∧ ¬(inv.Gives b ∧ ∃ a ∈ l, inv.subject? b = inv.subject? a) := by
  induction honce generalizing m with
  | nil => exact ⟨m, rfl, fun b ↦ by simp⟩
  | @cons first rest hfirst _ ih =>
    rw [List.forall_mem_cons] at hsets hdeclared
    obtain ⟨f, hf⟩ := hdeclared.1
    obtain ⟨next, hnext, hmem⟩ := exists_of_change_setting hbuilt hsets.1 hf m
    obtain ⟨m', hm', hall⟩ := ih hsets.2 hdeclared.2 next
    refine ⟨m', bind_eq_ok hnext hm', fun b ↦ ?_⟩
    rw [hall, hmem]
    grind

/-- What an update gives is there afterwards, and what was there stays unless it gives a value to a
feature that the update is about. -/
theorem exists_of_isUpdate (hbuilt : inv.IsBuilt) (hc : inv.IsUpdate c) (base : Matrix) :
    ∃ m, inv.changeAll base c = .ok m ∧ ∀ b, b ∈ m ↔ b ∈ c ∧ inv.Gives b ∨
      b ∈ base ∧ ¬(inv.Gives b ∧ ∃ a ∈ c, inv.subject? b = inv.subject? a) := by
  refine exists_of_foldlM_change_setting hbuilt hc.sets hc.declared ?_ base
  exact c.nodup_toList.imp_of_mem fun ha hb hne heq ↦ hne (hc.once _ ha _ hb heq)

/-! ### What an update comes to -/

/-- A feature has one value exactly if the matrix has the value and no other of the feature. -/
theorem valuesIn_eq_singleton (hbuilt : inv.IsBuilt) (hf : f ∈ inv.features)
    (hvalue : f.hasValue value)
    (hm : ∀ other, f.hasValue other → (.simple other ∈ m ↔ other = value)) :
    f.valuesIn m = [value] := by
  have hnodup := (List.nodup_append.mp (hbuilt.nodup_values f hf)).1
  have hsame : ∀ other ∈ f.values, m.has other = (other == value) := by
    intro other hother
    rw [Bool.eq_iff_iff, beq_iff_eq, ← hm other (List.contains_iff_mem.mpr hother)]
    exact decide_eq_true_iff
  rw [Feature.valuesIn, List.filter_congr hsame, List.filter_beq,
    List.count_eq_one_of_mem hnodup (List.contains_iff_mem.mp hvalue)]
  rfl

/-- A feature has no value if the matrix has none of those that it lists. -/
theorem valuesIn_eq_nil_iff :
    f.valuesIn m = [] ↔ ∀ other, f.hasValue other → .simple other ∉ m := by
  rw [Feature.valuesIn, List.filter_eq_nil_iff]
  simp [Feature.hasValue, Matrix.has]

/-- An update that is applied to what it came to changes nothing. -/
theorem changeAll_self (hbuilt : inv.IsBuilt) (hc : inv.IsUpdate c)
    (hm : inv.changeAll base c = .ok m) : inv.changeAll m c = .ok m := by
  obtain ⟨once, honce, hmem⟩ := exists_of_isUpdate hbuilt hc base
  obtain rfl := Except.ok.inj (hm.symm.trans honce)
  obtain ⟨twice, htwice, hmem'⟩ := exists_of_isUpdate hbuilt hc m
  rw [htwice]
  refine congrArg Except.ok (SortedSet.ext fun b ↦ ?_)
  rw [hmem', hmem]
  grind

/-- Updates of different features come to the same in either order. -/
theorem changeAll_comm (hbuilt : inv.IsBuilt) {c' : Matrix} (hc : inv.IsUpdate c)
    (hc' : inv.IsUpdate c') (hapart : ∀ a ∈ c, ∀ b ∈ c', inv.subject? a ≠ inv.subject? b)
    (base : Matrix) :
    ∃ m, (inv.changeAll base c >>= (inv.changeAll · c')) = .ok m ∧
      (inv.changeAll base c' >>= (inv.changeAll · c)) = .ok m := by
  obtain ⟨first, hfirst, hmem⟩ := exists_of_isUpdate hbuilt hc base
  obtain ⟨both, hboth, hmemboth⟩ := exists_of_isUpdate hbuilt hc' first
  obtain ⟨first', hfirst', hmem'⟩ := exists_of_isUpdate hbuilt hc' base
  obtain ⟨both', hboth', hmemboth'⟩ := exists_of_isUpdate hbuilt hc first'
  have hsame : both = both' := by
    ext b
    rw [hmemboth, hmem, hmemboth', hmem']
    grind
  exact ⟨both, bind_eq_ok hfirst hboth, hsame ▸ bind_eq_ok hfirst' hboth'⟩

/-- The value that an update gives to a feature is the only one that the feature has afterwards, and
after a null value or an absence it has none. -/
theorem valuesIn_of_isUpdate (hbuilt : inv.IsBuilt) (hc : inv.IsUpdate c)
    (hm : inv.changeAll base c = .ok m) :
    (∀ value f, .simple value ∈ c → inv.featureOf? value = some f →
      f.valuesIn m = if f.nullValue = some value then [] else [value]) ∧
    ∀ name f, .absent name ∈ c → inv.feature? name = some f → f.valuesIn m = [] := by
  obtain ⟨_, honce, hmem⟩ := exists_of_isUpdate hbuilt hc base
  obtain rfl := Except.ok.inj (hm.symm.trans honce)
  -- of the feature that `a` is about the matrix has what `a` gives
  have hown {a : Assertion} {f : Feature} (ha : a ∈ c) (hsubject : inv.subject? a = some f)
      (hf : f ∈ inv.features) {other : String} (hother : f.hasValue other) :
      .simple other ∈ m ↔ a = .simple other := by
    have hsame := (hbuilt.subject?_simple hf hother).trans hsubject.symm
    have hgives : inv.Gives (.simple other) := ⟨other, rfl, f, hf, hother⟩
    rw [hmem]
    constructor
    · intro h
      rcases h with ⟨hother, -⟩ | ⟨-, hkept⟩
      · exact hc.once a ha _ hother hsame.symm
      · exact (hkept ⟨hgives, a, ha, hsame⟩).elim
    · exact fun h ↦ .inl ⟨h ▸ ha, hgives⟩
  constructor
  · intro value f hvalue hf
    have hmemf := List.mem_of_find?_eq_some hf
    split
    · next hnull =>
      rw [valuesIn_eq_nil_iff]
      intro other hother hthere
      cases (hown hvalue hf hmemf hother).mp hthere
      exact hbuilt.not_hasValue_null hmemf hnull hother
    · next hnull =>
      apply valuesIn_eq_singleton hbuilt hmemf (hasValue_of_featureOf? hf hnull)
      intro other hother
      rw [hown hvalue hf hmemf hother, Assertion.simple.injEq, eq_comm]
  · intro name f hname hf
    rw [valuesIn_eq_nil_iff]
    intro other hother hthere
    cases (hown hname hf (List.mem_of_find?_eq_some hf) hother).mp hthere

/-- What gives no value to a feature that an update is about is there afterwards if it was there
before. -/
theorem mem_iff_of_isUpdate (hbuilt : inv.IsBuilt) (hc : inv.IsUpdate c)
    (hm : inv.changeAll base c = .ok m) (hother : ∀ b ∈ c, ∀ f, inv.subject? b = some f →
      ∀ value, f.hasValue value → a ≠ .simple value) : a ∈ m ↔ a ∈ base := by
  obtain ⟨_, honce, hmem⟩ := exists_of_isUpdate hbuilt hc base
  obtain rfl := Except.ok.inj (hm.symm.trans honce)
  have hnone {b : Assertion} (hb : b ∈ c) (hsubject : inv.subject? a = inv.subject? b) :
      ¬inv.Gives a := by
    intro ⟨value, ha, f, hf, hvalue⟩
    refine hother b hb f ?_ value hvalue ha
    rw [← hsubject, ha]
    exact hbuilt.subject?_simple hf hvalue
  rw [hmem]
  constructor
  · intro h
    rcases h with ⟨hac, hgives⟩ | ⟨ha, -⟩
    · exact (hnone hac rfl hgives).elim
    · exact ha
  · exact fun ha ↦ .inr ⟨ha, fun ⟨hgives, b, hb, hsubject⟩ ↦ hnone hb hsubject hgives⟩

/-! ### The pattern made of an update -/

/-- A pattern accepts a matrix if each of its assertions does and binds nothing. -/
theorem test_eq_some {pattern : Matrix} {b : Bindings}
    (h : ∀ a ∈ pattern, Assertion.test inv m b a = some b) : pattern.test inv m b = some b := by
  have hall {l : List Assertion} (hl : ∀ a ∈ l, Assertion.test inv m b a = some b) :
      l.foldlM (Assertion.test inv m) b = some b := by
    induction l with
    | nil => rfl
    | cons first rest ih =>
      obtain ⟨hfirst, hrest⟩ := List.forall_mem_cons.mp hl
      rw [List.foldlM_cons, hfirst]
      exact ih hrest
  exact hall h

/-- The absence of a feature is accepted where the matrix has none of its values. -/
theorem test_absent {name : String} {b : Bindings} (hf : inv.feature? name = some f)
    (hnone : f.valuesIn m = []) : Assertion.test inv m b (.absent name) = some b := by
  have hany : f.values.any m.has = false := by
    rw [List.any_eq_false]
    exact List.filter_eq_nil_iff.mp hnone
  simp [Assertion.test, hf, hany]

/-- Declared assertions of an update are accepted as a pattern. -/
theorem checkMatrix_of_isUpdate (hc : inv.IsUpdate c) : inv.checkMatrix c = .ok () := by
  refine forM_eq_ok_of_forall fun a ha ↦ ?_
  obtain ⟨f, hf⟩ := hc.declared a ha
  cases a with
  | simple value | negated value =>
    have hfeature : inv.featureOf? value = some f := hf
    simp [checkAssertion, hfeature]
  | absent name | binds name =>
    have hfeature : inv.feature? name = some f := hf
    simp [checkAssertion, hfeature]

/-- The pattern made of an update accepts what the update comes to. -/
theorem test_of_isUpdate (hbuilt : inv.IsBuilt) (hc : inv.IsUpdate c)
    (hm : inv.changeAll base c = .ok m) :
    ∃ pattern, inv.patternMatrix c = .ok pattern ∧ ∀ b, pattern.test inv m b = some b := by
  obtain ⟨hvalues, habsences⟩ := valuesIn_of_isUpdate hbuilt hc hm
  refine ⟨_, bind_eq_ok (checkMatrix_of_isUpdate hc) rfl, fun b ↦ test_eq_some fun _ hmem ↦ ?_⟩
  obtain ⟨a, ha, rfl⟩ := List.mem_map.mp (SortedSet.mem_ofList.mp hmem)
  obtain ⟨f, hf⟩ := hc.declared a ha
  have hsets := hc.sets a ha
  cases a with
  | simple value =>
    have hfeature : inv.featureOf? value = some f := hf
    have hown := hvalues value f ha hfeature
    by_cases hnull : f.nullValue = some value
    · -- a null value asks for the absence of its feature
      have hnamed := hbuilt.named f (List.mem_of_find?_eq_some hfeature)
      rw [if_pos hnull] at hown
      simpa [patternAssertion, meansAbsence, hfeature, hnull] using test_absent hnamed hown
    · have hthere : m.has value := by
        have hmem : value ∈ f.valuesIn m := by simp [hown, hnull]
        exact (List.mem_filter.mp hmem).2
      simp [patternAssertion, meansAbsence, hfeature, hnull, Assertion.test, hthere]
  | absent name => exact test_absent hf (habsences name f ha hf)
  | negated value => cases hsets
  | binds feature => cases hsets

/-! ### What can not be applied -/

/-- An assertion that binds no feature can be applied to every matrix. -/
theorem exists_of_change_of_ne (h : ∀ feature, a ≠ .binds feature) (m : Matrix) :
    ∃ m', inv.change m a = .ok m' := by
  cases a with
  | simple value => cases hf : inv.featureOf? value <;> simp [change, hf]
  | negated value => exact ⟨_, rfl⟩
  | absent feature => cases hf : inv.feature? feature <;> simp [change, hf]
  | binds feature => exact (h feature rfl).elim

/-- Changes fail exactly if one of them binds a feature. -/
theorem changeAll_eq_error_iff :
    (∃ fault, inv.changeAll base c = .error fault) ↔ ∃ feature, .binds feature ∈ c := by
  have hall {l : List Assertion} (m : Matrix) :
      (∃ fault, l.foldlM inv.change m = .error fault) ↔ ∃ feature, .binds feature ∈ l := by
    induction l generalizing m with
    | nil =>
      constructor
      · intro ⟨_, h⟩
        cases h
      · intro ⟨_, h⟩
        cases h
    | cons first rest ih =>
      rw [List.foldlM_cons]
      by_cases hbinds : ∃ feature, first = .binds feature
      · obtain ⟨feature, rfl⟩ := hbinds
        exact iff_of_true ⟨_, rfl⟩ ⟨feature, List.mem_cons_self⟩
      · have hne (feature : String) : first ≠ .binds feature := fun h ↦ hbinds ⟨feature, h⟩
        obtain ⟨next, hnext⟩ := exists_of_change_of_ne hne m
        rw [hnext]
        simp only [List.mem_cons, (hne _).symm, false_or]
        exact ih next
  exact hall base

/-- Updates keep one value for each feature that they are about. An update of a matrix succeeds;
each feature that it is about has the given value alone, or no value after a null value or an
absence; and everything else stays as it was. A second time it changes nothing, the pattern made of
it accepts the result whatever is bound, and updates of different features commute. Changes of any
kind fail exactly if they bind a feature. -/
theorem changeAll_updates {features : List Feature} {symbols : List Symbol}
    {diacritics : List Diacritic} {inv : Inventory}
    (hbuild : build features symbols diacritics = .ok inv) :
    (∀ base c, inv.IsUpdate c → ∃ m, inv.changeAll base c = .ok m ∧
      (∀ value f, .simple value ∈ c → inv.featureOf? value = some f →
        f.valuesIn m = if f.nullValue = some value then [] else [value]) ∧
      (∀ name f, .absent name ∈ c → inv.feature? name = some f → f.valuesIn m = []) ∧
      (∀ a, (∀ b ∈ c, ∀ f, inv.subject? b = some f → ∀ value, f.hasValue value →
        a ≠ .simple value) → (a ∈ m ↔ a ∈ base)) ∧
      inv.changeAll m c = .ok m ∧
      ∃ pattern, inv.patternMatrix c = .ok pattern ∧ ∀ b, pattern.test inv m b = some b) ∧
    (∀ base c c', inv.IsUpdate c → inv.IsUpdate c' →
      (∀ a ∈ c, ∀ b ∈ c', inv.subject? a ≠ inv.subject? b) →
      ∃ m, (inv.changeAll base c >>= (inv.changeAll · c')) = .ok m ∧
        (inv.changeAll base c' >>= (inv.changeAll · c)) = .ok m) ∧
    ∀ base c, (∃ fault, inv.changeAll base c = .error fault) ↔ ∃ feature, .binds feature ∈ c := by
  have hbuilt := isBuilt_of_build hbuild
  refine ⟨fun base c hc ↦ ?_,
    fun base c c' hc hc' hapart ↦ changeAll_comm hbuilt hc hc' hapart base,
    fun base c ↦ changeAll_eq_error_iff⟩
  obtain ⟨m, hm, -⟩ := exists_of_isUpdate hbuilt hc base
  obtain ⟨hvalues, habsences⟩ := valuesIn_of_isUpdate hbuilt hc hm
  exact ⟨m, hm, hvalues, habsences, fun a ↦ mem_iff_of_isUpdate hbuilt hc hm,
    changeAll_self hbuilt hc hm, test_of_isUpdate hbuilt hc hm⟩

/-- A long voiced labial stop made voiceless, fricative and without a place, in one update, keeps
its length. -/
theorem changeAll_updates_b :
    let c : Matrix := .ofList [.simple "voiceless", .simple "fricative", .absent "Place"]
    let c' : Matrix := .ofList [.absent "Length"]
    let base := Matrix.ofValues ["voiced", "stop", "labial", "long"]
    ∃ inv, build
        [⟨"Voice", ["voiced"], some "voiceless", .segment⟩,
          ⟨"Manner", ["stop", "fricative"], none, .segment⟩,
          ⟨"Place", ["labial", "velar"], none, .segment⟩, ⟨"Length", ["long"], none, .segment⟩]
        [⟨['b'], .ofValues ["voiced", "stop", "labial"]⟩] [] = .ok inv ∧
      inv.IsUpdate c ∧ inv.IsUpdate c' ∧
      (∀ a ∈ c, ∀ b ∈ c', inv.subject? a ≠ inv.subject? b) ∧
      (∃ m, inv.changeAll base c = .ok m ∧ m = .ofValues ["fricative", "long"] ∧
        inv.changeAll m c = .ok m) ∧
      ∃ m, (inv.changeAll base c >>= (inv.changeAll · c')) = .ok m ∧
        (inv.changeAll base c' >>= (inv.changeAll · c)) = .ok m := by
  intro c c' base
  let b : Symbol := ⟨['b'], .ofValues ["voiced", "stop", "labial"]⟩
  let inv : Inventory := {
    features := [⟨"Voice", ["voiced"], some "voiceless", .segment⟩,
      ⟨"Manner", ["stop", "fricative"], none, .segment⟩,
      ⟨"Place", ["labial", "velar"], none, .segment⟩, ⟨"Length", ["long"], none, .segment⟩]
    symbols := [b]
    parseOrder := [b]
    parseOrder_eq := by cbv }
  have hbuild : build inv.features [b] [] = .ok inv := by cbv
  have hc : inv.IsUpdate c := by decide +kernel
  have hc' : inv.IsUpdate c' := by decide +kernel
  have hapart : ∀ a ∈ c, ∀ b ∈ c', inv.subject? a ≠ inv.subject? b := by
    have : ∀ a ∈ c.toList, ∀ b ∈ c'.toList, inv.subject? a ≠ inv.subject? b := by decide +kernel
    exact this
  have hresult : inv.changeAll base c = .ok (.ofValues ["fricative", "long"]) :=
    eq_ok_of_toOption (by decide +kernel)
  obtain ⟨hupdate, hcomm, -⟩ := changeAll_updates hbuild
  obtain ⟨m, hm, -, -, -, hself, -⟩ := hupdate base c hc
  obtain rfl := Except.ok.inj (hm.symm.trans hresult)
  exact ⟨inv, hbuild, hc, hc', hapart, ⟨_, hresult, rfl, hself⟩, hcomm base c c' hc hc' hapart⟩

end Inventory

end Diachrony
