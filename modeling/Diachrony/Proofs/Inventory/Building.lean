import Diachrony.Inventory.Build
import Diachrony.Proofs.Ensures
import Diachrony.Proofs.Unicode.Stability

/-!
# What a built inventory holds

An inventory that is built from declarations gives every value to one feature, in one place of it,
and every name to one feature. Its symbols and diacritics are in canonical decomposition, have
declared values that are not null, and are told apart by their texts; symbols with features are told
apart by these, too.
-/

namespace Diachrony.Inventory

/-- Whether a matrix says of declared values, none of them a null value, that they are present. -/
def Declares (inv : Inventory) (m : Matrix) : Prop :=
  ∀ a ∈ m, ∃ value f, a = .simple value ∧ inv.featureOf? value = some f ∧
    f.nullValue ≠ some value

/-- What the declarations of an inventory are checked for. -/
structure IsBuilt (inv : Inventory) : Prop where
  /-- A value belongs to one feature. -/
  owner : ∀ f ∈ inv.features, ∀ value, f.owns value → inv.featureOf? value = some f
  /-- A name belongs to one feature. -/
  named : ∀ f ∈ inv.features, inv.feature? f.name = some f
  /-- A feature lists no value twice, and its null value is none of those that it lists. -/
  nodup_values : ∀ f ∈ inv.features, (f.values ++ f.nullValue.toList).Nodup
  /-- The values of a diacritic are declared. -/
  diacritic_declares : ∀ d ∈ inv.diacritics, inv.Declares d.matrix
  /-- No two diacritics are written alike. -/
  diacritic_nodup : (inv.diacritics.map Diacritic.text).Nodup
  /-- The values of a symbol are declared. -/
  symbol_declares : ∀ s ∈ inv.symbols, inv.Declares s.matrix
  /-- Symbols are in canonical decomposition. -/
  nfd_text : ∀ s ∈ inv.symbols, Unicode.nfd s.text = s.text
  /-- No two symbols are written alike. -/
  text_inj : ∀ s ∈ inv.symbols, ∀ t ∈ inv.symbols, s.text = t.text → s = t
  /-- No two symbols have the same features, unless they have none. -/
  matrix_inj : ∀ s ∈ inv.symbols, ∀ t ∈ inv.symbols, s.matrix = t.matrix ∧ s.matrix ≠ ∅ → s = t

section Features

/-- A value belongs to a feature that lists it or that has it for its null value. -/
theorem owns_iff {f : Feature} {value : String} :
    f.owns value ↔ value ∈ f.values ++ f.nullValue.toList := by
  rw [Feature.owns, Feature.hasValue, Bool.or_eq_true, List.contains_iff_mem, beq_iff_eq,
    List.mem_append, Option.mem_toList]

/-- Accepted values are new, none is listed twice, and they are seen afterwards. -/
theorem checkValues_ensures (seen values : List String) :
    Ensures (fun seen' ↦ (∀ value ∈ values, value ∉ seen) ∧ values.Nodup ∧ seen ⊆ seen' ∧
      values ⊆ seen') (fun _ ↦ True) (checkValues seen values) := by
  induction values generalizing seen with
  | nil => exact .ok ⟨List.forall_mem_nil _, .nil, List.Subset.refl _, List.nil_subset _⟩
  | cons value rest ih =>
    rw [checkValues]
    split
    · trivial
    · next hnew =>
      have hnew : value ∉ seen := by simpa using hnew
      refine (ih (value :: seen)).mono fun seen' _ ⟨hrest, hnodup, hseen, hvalues⟩ ↦ ?_
      obtain ⟨hvalue, hseen⟩ := List.cons_subset.mp hseen
      refine ⟨List.forall_mem_cons.mpr ⟨hnew, fun v hv hmem ↦ ?_⟩,
        List.nodup_cons.mpr ⟨fun hmem ↦ hrest value hmem List.mem_cons_self, hnodup⟩, hseen,
        List.cons_subset.mpr ⟨hvalue, hvalues⟩⟩
      exact hrest v hv (List.mem_cons_of_mem value hmem)

/-- Accepted features share no value. -/
theorem checkFeatures_ensures (names values : List String) (features : List Feature) :
    Ensures (fun _ ↦ (∀ f ∈ features, ∀ value, f.owns value → value ∉ values) ∧
        features.Pairwise fun f g ↦ ∀ value, f.owns value → ¬g.owns value)
      (fun _ ↦ True) (checkFeatures names values features) := by
  induction features generalizing names values with
  | nil => exact .ok ⟨List.forall_mem_nil _, .nil⟩
  | cons f rest ih =>
    rw [checkFeatures]
    split
    · trivial
    · refine (checkValues_ensures values (f.values ++ f.nullValue.toList)).bind
        fun seen ⟨hnew, _, hseen, hvalues⟩ ↦ (ih (f.name :: names) seen).mono
          fun _ _ ⟨hrest, hpairwise⟩ ↦ ⟨?_, .cons ?_ hpairwise⟩
      · refine List.forall_mem_cons.mpr ⟨fun value hf ↦ hnew value (owns_iff.mp hf), ?_⟩
        exact fun g hg value hvalue hmem ↦ hrest g hg value hvalue (hseen hmem)
      · exact fun g hg value hf hvalue ↦ hrest g hg value hvalue (hvalues (owns_iff.mp hf))

/-- Accepted features have different names, and none of them lists a value twice. -/
theorem checkFeatures_ensures_nodup (names values : List String) (features : List Feature) :
    Ensures (fun _ ↦ (∀ f ∈ features, f.name ∉ names) ∧
        features.Pairwise (fun f g ↦ f.name ≠ g.name) ∧
        ∀ f ∈ features, (f.values ++ f.nullValue.toList).Nodup)
      (fun _ ↦ True) (checkFeatures names values features) := by
  induction features generalizing names values with
  | nil => exact .ok ⟨List.forall_mem_nil _, .nil, List.forall_mem_nil _⟩
  | cons f rest ih =>
    rw [checkFeatures]
    split
    · trivial
    · next hname =>
      have hname : f.name ∉ names := by simpa using hname
      refine (checkValues_ensures values (f.values ++ f.nullValue.toList)).bind
        fun seen ⟨_, hnodup, _⟩ ↦ (ih (f.name :: names) seen).mono
          fun _ _ ⟨hnew, hpairwise, hrest⟩ ↦
            ⟨?_, .cons ?_ hpairwise, List.forall_mem_cons.mpr ⟨hnodup, hrest⟩⟩
      · refine List.forall_mem_cons.mpr ⟨hname, fun g hg hmem ↦ ?_⟩
        exact hnew g hg (List.mem_cons_of_mem _ hmem)
      · exact fun g hg heq ↦ hnew g hg (heq ▸ List.mem_cons_self)

/-- Where no key fits two features, each of them is found by its keys. -/
theorem find?_of_pairwise (fits : Feature → String → Bool) {features : List Feature}
    (h : features.Pairwise fun f g ↦ ∀ key, fits f key → ¬fits g key) :
    ∀ f ∈ features, ∀ key, fits f key → features.find? (fits · key) = some f := by
  induction h with
  | nil => exact List.forall_mem_nil _
  | cons hfirst _ ih =>
    refine List.forall_mem_cons.mpr ⟨fun key hf ↦ List.find?_cons_of_pos hf, ?_⟩
    intro f hf key hkey
    rw [← ih f hf key hkey]
    exact List.find?_cons_of_neg fun hother ↦ hfirst f hf key hother hkey

end Features

/-- A matrix that is accepted for a symbol or diacritic has declared values, null values aside. -/
theorem declares_of_checkSimple {inv : Inventory} {m : Matrix} (h : inv.checkSimple m = .ok ()) :
    inv.Declares (inv.dropNulls m) := by
  obtain ⟨⟨⟩, hnames, hsimple⟩ := exists_of_bind_eq_ok h
  intro a ha
  obtain ⟨ha, hnull⟩ := SortedSet.mem_filter.mp ha
  have hkind : a.isSimple := by
    split at hsimple
    · cases hsimple
    · next hnone => simpa using List.find?_eq_none.mp hnone a ha
  cases a with
  | simple value =>
    have hdeclared := forall_of_forM_eq_ok hnames _ ha
    rw [checkAssertion] at hdeclared
    split at hdeclared
    · next hf =>
      obtain ⟨f, hf⟩ := Option.isSome_iff_exists.mp hf
      refine ⟨value, f, rfl, hf, ?_⟩
      simpa [assertsNull, meansAbsence, Assertion.simpleValue?, hf] using hnull
    · cases hdeclared
  | _ => cases hkind

/-- What is new beside all elements of a list is told apart from them. -/
theorem eq_of_mem_concat {same : Symbol → Symbol → Prop} {l : List Symbol} {new : Symbol}
    (hl : ∀ s ∈ l, ∀ t ∈ l, same s t → s = t) (hnew : ∀ s ∈ l, ¬same s new ∧ ¬same new s) :
    ∀ s ∈ l ++ [new], ∀ t ∈ l ++ [new], same s t → s = t := by
  simp only [List.mem_append, List.mem_singleton]
  rintro s (hs | rfl) t (ht | rfl) hst
  · exact hl s hs t ht hst
  · exact ((hnew s hs).1 hst).elim
  · exact ((hnew t ht).2 hst).elim
  · rfl

namespace IsBuilt

/-- Adding a diacritic keeps what is checked. -/
theorem addDiacritic {inv inv' : Inventory} (h : inv.IsBuilt) {d : Diacritic}
    (hadd : inv.addDiacritic d = .ok inv') : inv'.IsBuilt := by
  rw [Inventory.addDiacritic] at hadd
  split at hadd
  · cases hadd
  · next htext =>
    obtain ⟨⟨⟩, hcheck, hadd⟩ := exists_of_bind_eq_ok hadd
    cases hadd
    have htext : ∀ e ∈ inv.diacritics, e.text ≠ Unicode.nfd d.text := by simpa using htext
    refine { h with
      diacritic_declares := List.forall_mem_append.mpr ⟨h.diacritic_declares,
        List.forall_mem_singleton.mpr (declares_of_checkSimple hcheck)⟩
      diacritic_nodup := ?_ }
    rw [List.map_append, List.map_singleton, List.nodup_append]
    refine ⟨h.diacritic_nodup, List.pairwise_singleton _ _, fun text hmem new hnew heq ↦ ?_⟩
    obtain ⟨e, he, rfl⟩ := List.mem_map.mp hmem
    exact htext e he (heq.trans (List.mem_singleton.mp hnew))

/-- Adding a symbol keeps what is checked. -/
theorem addSymbol {inv inv' : Inventory} (h : inv.IsBuilt) {s : Symbol}
    (hadd : inv.addSymbol s = .ok inv') : inv'.IsBuilt := by
  rw [Inventory.addSymbol] at hadd
  split at hadd
  · cases hadd
  · next htext =>
    obtain ⟨⟨⟩, hcheck, hadd⟩ := exists_of_bind_eq_ok hadd
    dsimp only at hadd
    split at hadd
    · cases hadd
    · next hmatrix =>
      cases hadd
      have htext : ∀ t ∈ inv.symbols, t.text ≠ Unicode.nfd s.text := by simpa using htext
      have hmatrix : ∀ t ∈ inv.symbols, inv.dropNulls s.matrix ≠ ∅ →
          t.matrix ≠ inv.dropNulls s.matrix := by
        intro t ht hne heq
        have hempty : (inv.dropNulls s.matrix).isEmpty = false := by
          simpa [← SortedSet.isEmpty_iff] using hne
        simpa [heq, hempty] using List.find?_eq_none.mp hmatrix t ht
      refine ⟨h.owner, h.named, h.nodup_values, h.diacritic_declares, h.diacritic_nodup,
        ?_, ?_, ?_, ?_⟩
      · exact List.forall_mem_append.mpr ⟨h.symbol_declares,
          List.forall_mem_singleton.mpr (declares_of_checkSimple hcheck)⟩
      · exact List.forall_mem_append.mpr ⟨h.nfd_text,
          List.forall_mem_singleton.mpr (Unicode.nfd_nfd _)⟩
      · exact eq_of_mem_concat h.text_inj fun t ht ↦ ⟨htext t ht, (htext t ht).symm⟩
      · refine eq_of_mem_concat h.matrix_inj fun t ht ↦ ⟨?_, ?_⟩
        · exact fun ⟨heq, hne⟩ ↦ hmatrix t ht (fun hempty ↦ hne (heq.trans hempty)) heq
        · exact fun ⟨heq, hne⟩ ↦ hmatrix t ht hne heq.symm

/-- What every step of a list keeps is kept by all of them. -/
theorem foldlM {α : Type} {add : Inventory → α → Except Fault Inventory} {l : List α}
    {inv inv' : Inventory} (h : inv.IsBuilt)
    (hadd : ∀ inv inv' a, inv.IsBuilt → add inv a = .ok inv' → inv'.IsBuilt)
    (hl : l.foldlM add inv = .ok inv') : inv'.IsBuilt :=
  (Ensures.foldlM h fun a _ inv hinv ↦
    Ensures.intro (fun inv' h ↦ hadd inv inv' a hinv h) fun _ _ ↦ trivial).of_ok hl

end IsBuilt

/-- An inventory that was built is as its declarations were checked. -/
theorem isBuilt_of_build {features : List Feature} {symbols : List Symbol}
    {diacritics : List Diacritic} {inv : Inventory}
    (h : build features symbols diacritics = .ok inv) : inv.IsBuilt := by
  obtain ⟨⟨⟩, hfeatures, h⟩ := exists_of_bind_eq_ok h
  obtain ⟨marked, hdiacritics, hsymbols⟩ := exists_of_bind_eq_ok h
  obtain ⟨-, hpairwise⟩ := (checkFeatures_ensures [] [] features).of_ok hfeatures
  obtain ⟨-, hnames, hnodup⟩ := (checkFeatures_ensures_nodup [] [] features).of_ok hfeatures
  have hnamed := find?_of_pairwise (fun f name ↦ f.name == name)
    (hnames.imp fun hne name ↦ by simpa using fun hf hg ↦ hne (hf.trans hg.symm))
  have hfirst : IsBuilt { empty with features } := {
    owner := find?_of_pairwise Feature.owns hpairwise
    named := fun f hf ↦ hnamed f hf f.name (beq_self_eq_true f.name)
    nodup_values := hnodup
    diacritic_declares := List.forall_mem_nil _
    diacritic_nodup := .nil
    symbol_declares := List.forall_mem_nil _
    nfd_text := List.forall_mem_nil _
    text_inj := List.forall_mem_nil _
    matrix_inj := List.forall_mem_nil _ }
  have hmarked := hfirst.foldlM (fun _ _ _ h ↦ h.addDiacritic) hdiacritics
  exact hmarked.foldlM (fun _ _ _ h ↦ h.addSymbol) hsymbols

end Diachrony.Inventory
