import Diachrony.Proofs.Inventory.Turns

/-!
# Which combinations are found

A symbol and diacritics that are laid over it may have exactly the values of a matrix. The speller
looks at few such combinations: it starts from the symbol with most features inside the matrix,
takes diacritics inside the matrix alone, and never takes one back. Where the matrix has one value
of each feature, this finds a combination whenever the start and the diacritics inside the matrix
have one.

A combination that needs another start is missed, and so is one in which a later diacritic replaces
a value of the symbol or of an earlier diacritic. If the matrix has two values of a feature, a
diacritic that touches the feature may be taken first, and then no turn brings the lost value back.
-/

namespace Diachrony.Inventory

/-- A symbol with features and some diacritics of segments, each of them used once, that have
exactly the values of a matrix when they are laid over the symbol in their order. -/
structure Combines (inv : Inventory) (s : Symbol) (ds : List Diacritic) (target : Matrix) :
    Prop where
  /-- The symbol is declared. -/
  symbol : s ∈ inv.symbols
  /-- The symbol has features. -/
  features : s.matrix ≠ ∅
  /-- The diacritics are declared, and each of them is used once. -/
  once : ds.Subperm inv.diacritics
  /-- No diacritic marks syllables. -/
  segmental : ∀ d ∈ ds, inv.marksSyllables d = false
  /-- Together they have the values of the matrix. -/
  matrix_eq : inv.overlayAll s.matrix ds = target

instance (inv : Inventory) (s : Symbol) (ds : List Diacritic) (target : Matrix) :
    Decidable (inv.Combines s ds target) :=
  decidable_of_iff (s ∈ inv.symbols ∧ s.matrix ≠ ∅ ∧ ds.Subperm inv.diacritics ∧
      (∀ d ∈ ds, inv.marksSyllables d = false) ∧ inv.overlayAll s.matrix ds = target)
    ⟨fun ⟨hs, hne, honce, hsegmental, heq⟩ ↦ ⟨hs, hne, honce, hsegmental, heq⟩,
      fun ⟨hs, hne, honce, hsegmental, heq⟩ ↦ ⟨hs, hne, honce, hsegmental, heq⟩⟩

/-- Whether no turn from a base takes a diacritic that loses a value of the target. -/
def KeepsValues (inv : Inventory) (target : Matrix) (base : Symbol) : Prop :=
  ∀ taken left last, inv.Turns target inv.diacritics base.matrix taken left last →
    ∀ d ∈ taken, inv.Settled target d.matrix

variable {inv : Inventory} {target m last : Matrix} {ds left : List Diacritic} {base : Symbol}
  {a : Assertion}

section Overlays

private theorem mem_or_mem_of_foldlM_change {l : List Assertion} {m m' : Matrix}
    (hdeclares : ∀ a ∈ l, ∃ value f, a = .simple value ∧ inv.featureOf? value = some f ∧
      f.nullValue ≠ some value)
    (h : l.foldlM inv.change m = .ok m') (ha : a ∈ m') : a ∈ m ∨ a ∈ l := by
  induction l generalizing m with
  | nil =>
    obtain rfl : m = m' := Except.ok.inj h
    exact .inl ha
  | cons first rest ih =>
    obtain ⟨⟨value, f, rfl, hf, hnull⟩, hrest⟩ := List.forall_mem_cons.mp hdeclares
    obtain ⟨next, hnext, hmem⟩ := exists_of_change hf hnull m
    rw [List.foldlM_cons, hnext] at h
    rcases ih hrest h with ha | ha
    · rcases (hmem a).mp ha with rfl | ⟨ha, -⟩
      · exact .inr List.mem_cons_self
      · exact .inl ha
    · exact .inr (List.mem_cons_of_mem _ ha)

/-- What a matrix has after another was laid over it comes from one of the two. -/
theorem mem_or_mem_of_mem_overlay {changes : Matrix} (hdeclares : inv.Declares changes)
    (ha : a ∈ inv.overlay m changes) : a ∈ m ∨ a ∈ changes :=
  mem_or_mem_of_foldlM_change hdeclares (changeAll_eq_overlay hdeclares m) ha

/-- What a matrix has after diacritics were laid over it comes from it or from one of them. -/
theorem mem_or_exists_of_mem_overlayAll (hdeclares : ∀ d ∈ ds, inv.Declares d.matrix)
    (ha : a ∈ inv.overlayAll m ds) : a ∈ m ∨ ∃ d ∈ ds, a ∈ d.matrix := by
  induction ds generalizing m with
  | nil => exact .inl ha
  | cons d rest ih =>
    obtain ⟨hd, hrest⟩ := List.forall_mem_cons.mp hdeclares
    rcases ih hrest ha with ha | ⟨e, he, ha⟩
    · rcases mem_or_mem_of_mem_overlay hd ha with ha | ha
      · exact .inl ha
      · exact .inr ⟨d, List.mem_cons_self, ha⟩
    · exact .inr ⟨e, List.mem_cons_of_mem _ he, ha⟩

end Overlays

/-- A diacritic inside a matrix with one value of each feature replaces none of its values. -/
theorem settled_of_single (hbuilt : inv.IsBuilt) (hsingle : ∀ f ∈ inv.features, Single f target)
    {d : Diacritic} (hd : d ∈ inv.diacritics) (hinside : d.matrix.isSubset target) :
    inv.Settled target d.matrix := by
  intro value other hvalue hother ⟨f, hf, hown⟩
  obtain ⟨_, _, heq, hf', hnull⟩ := hbuilt.diacritic_declares d hd _ hvalue
  cases heq
  obtain rfl := Option.some.inj (hf.symm.trans hf')
  exact hsingle f (List.mem_of_find?_eq_some hf) other value hother
    (SortedSet.isSubset_iff.mp hinside _ hvalue) hown (hasValue_of_featureOf? hf hnull)

/-- Null values are simple, so dropping them leaves what else a matrix says. -/
theorem allSimple_dropNulls (inv : Inventory) (m : Matrix) :
    (inv.dropNulls m).allSimple = m.allSimple := by
  rw [Bool.eq_iff_iff, Matrix.allSimple, Matrix.allSimple, List.all_eq_true, List.all_eq_true]
  constructor
  · intro h a ha
    by_cases hnull : inv.assertsNull a
    · cases a with
      | simple value => rfl
      | _ => cases hnull
    · exact h a (SortedSet.mem_filter.mpr ⟨ha, by simpa using hnull⟩)
  · exact fun h a ha ↦ h a (SortedSet.mem_filter.mp ha).1

/-! ### Where the turns lead -/

/-- A diacritic of a combination that lies inside the target and has values may be taken. -/
theorem Combines.fits (h : inv.Combines base ds target) {d : Diacritic} (hd : d ∈ ds)
    (ha : a ∈ d.matrix) (hinside : d.matrix.isSubset target) : inv.fits target d := by
  have hvalues : d.matrix.isEmpty = false := by
    rw [← Bool.not_eq_true, SortedSet.isEmpty_iff]
    rintro hempty
    rw [hempty] at ha
    exact SortedSet.not_mem_empty a ha
  exact fits_iff.mpr ⟨hvalues, h.segmental d hd, hinside⟩

/-- Turns that lose no value of the target come to it if the base and the diacritics inside the
target have a combination for it. -/
theorem Turns.reaches (hbuilt : inv.IsBuilt) {taken : List Diacritic}
    (hturns : inv.Turns target inv.diacritics base.matrix taken left last)
    (hended : inv.Ended target left last) (hbase : base.matrix.isSubset target)
    (hsettled : ∀ d ∈ taken, inv.Settled target d.matrix) (hcombines : inv.Combines base ds target)
    (hinside : ∀ d ∈ ds, d.matrix.isSubset target) : last = target := by
  have htaken : ∀ d ∈ taken, d ∈ inv.diacritics := fun d hd ↦
    hturns.perm.subset (List.mem_append_left _ hd)
  have hfits : ∀ d ∈ taken, ∀ a ∈ d.matrix, a ∈ target := fun d hd ↦
    SortedSet.isSubset_iff.mp (fits_iff.mp (hturns.fits d hd)).2.2
  have hmem {a : Assertion} : a ∈ last ↔ a ∈ base.matrix ∨ ∃ d ∈ taken, a ∈ d.matrix := by
    rw [← hturns.overlayAll_eq]
    exact mem_overlayAll (fun d hd ↦ hbuilt.diacritic_declares d (htaken d hd))
      (SortedSet.isSubset_iff.mp hbase) hfits hsettled
  rcases hended with hreached | hnone
  · exact hreached
  · -- what is missing at the end would come from a diacritic that is left
    ext a
    constructor
    · intro ha
      rcases hmem.mp ha with ha | ⟨d, hd, ha⟩
      · exact SortedSet.isSubset_iff.mp hbase a ha
      · exact hfits d hd a ha
    · intro ha
      by_contra hmissing
      have hsource := ha
      rw [← hcombines.matrix_eq] at hsource
      rcases mem_or_exists_of_mem_overlayAll (fun d hd ↦ hbuilt.diacritic_declares d
        (hcombines.once.subset hd)) hsource with hsource | ⟨d, hd, hsource⟩
      · exact hmissing (hmem.mpr (.inl hsource))
      · have hdeclared := hturns.perm.mem_iff.mpr (hcombines.once.subset hd)
        rcases List.mem_append.mp hdeclared with hd' | hd'
        · exact hmissing (hmem.mpr (.inr ⟨d, hd', hsource⟩))
        · exact not_mem_diff_of_best?_eq_none hnone d hd'
            (hcombines.fits hd hsource (hinside d hd)) a hsource
            (SortedSet.mem_diff.mpr ⟨ha, hmissing⟩)

/-- Diacritics that complete a base are a combination with it, lie inside the target, and lose none
of its values. -/
theorem Completes.combines (hbuilt : inv.IsBuilt) (hbase : inv.baseOf? target = some base)
    (h : inv.Completes target inv.diacritics base.matrix ds) :
    inv.Combines base ds target ∧ (∀ d ∈ ds, d.matrix.isSubset target) ∧
      inv.KeepsValues target base := by
  obtain ⟨hsymbol, hfeatures, -⟩ := baseOf?_eq_some hbase
  have hfits (d : Diacritic) (hd : d ∈ ds) := fits_iff.mp (h.mem_and_fits d hd).2
  refine ⟨⟨hsymbol, hfeatures, (h.once hbuilt).1, fun d hd ↦ (hfits d hd).2.1, h.overlayAll_eq⟩,
    fun d hd ↦ (hfits d hd).2.2, ?_⟩
  -- other turns take no diacritic that the turns to the target do not take
  intro taken left last hturns d hd
  obtain ⟨_, hwhole⟩ := Turns.of_completes h
  exact h.settled hbuilt d ((hwhole.prefix_of_ended (.inl rfl) hturns).subset hd)

/-- A base that loses no value is completed if it has a combination inside the target. -/
theorem Combines.exists_completes (hbuilt : inv.IsBuilt) (hbase : inv.baseOf? target = some base)
    (hcombines : inv.Combines base ds target) (hinside : ∀ d ∈ ds, d.matrix.isSubset target)
    (hkeeps : inv.KeepsValues target base) :
    ∃ taken, inv.Completes target inv.diacritics base.matrix taken := by
  obtain ⟨taken, left, last, hturns, hended⟩ := exists_turns inv target inv.diacritics base.matrix
  have hreached : last = target := hturns.reaches hbuilt hended (baseOf?_eq_some hbase).2.2
    (hkeeps taken left last hturns) hcombines hinside
  exact ⟨taken, hturns.completes hreached⟩

/-- A segment is spelled only for a matrix of simple values inside which some base lies. -/
theorem exists_of_segmentOf_eq_ok {seg : Segment} (h : inv.segmentOf m = .ok seg) :
    m.allSimple ∧ ∃ base, inv.baseOf? (inv.dropNulls m) = some base := by
  rw [segmentOf] at h
  dsimp only at h
  split at h
  · cases h
  · next hsimple =>
    rw [← allSimple_dropNulls inv m]
    split at h
    · cases h
    · next base hbase => exact ⟨by simpa using hsimple, base, hbase⟩

/-- A matrix is not spelled for no other reason than that it is no valid one. -/
theorem eq_of_segmentOf_eq_error {fault : Fault} (h : inv.segmentOf m = .error fault) :
    fault = .of (.invalidMatrix (inv.dropNulls m).toText) := by
  rw [segmentOf] at h
  dsimp only at h
  split at h
  · exact (Except.error.inj h).symm
  · split at h
    · exact (Except.error.inj h).symm
    · cases hs : inv.complete (inv.dropNulls m) inv.diacritics.length inv.diacritics
          { matrix := ‹Symbol›.matrix } with
      | ok s =>
        rw [hs] at h
        cases h
      | error other =>
        rw [hs] at h
        cases h
        exact eq_of_complete_eq_error hs

/-- A combination is found exactly if it starts from the symbol with most features inside the
matrix, its diacritics lie inside the matrix, and no diacritic that the speller takes loses a value.
No value can be lost where the matrix has one value of each feature. Without such a combination the
matrix is refused as invalid, null values aside, and there is no other fault. -/
theorem segmentOf_finds {features : List Feature} {symbols : List Symbol}
    {diacritics : List Diacritic} {inv : Inventory}
    (hbuild : build features symbols diacritics = .ok inv) (m : Matrix) :
    let target := inv.dropNulls m
    (∀ fault, inv.segmentOf m = .error fault → fault = .of (.invalidMatrix target.toText)) ∧
    ((∃ seg, inv.segmentOf m = .ok seg) ↔ m.allSimple ∧
      ∃ base ds, inv.baseOf? target = some base ∧ inv.Combines base ds target ∧
        (∀ d ∈ ds, d.matrix.isSubset target) ∧ inv.KeepsValues target base) ∧
    ((∀ f ∈ inv.features, Single f target) →
      ((∃ seg, inv.segmentOf m = .ok seg) ↔ m.allSimple ∧
        ∃ base ds, inv.baseOf? target = some base ∧ inv.Combines base ds target ∧
          ∀ d ∈ ds, d.matrix.isSubset target)) := by
  intro target
  have hbuilt := isBuilt_of_build hbuild
  have hfinds : (∃ seg, inv.segmentOf m = .ok seg) ↔ m.allSimple ∧
      ∃ base ds, inv.baseOf? target = some base ∧ inv.Combines base ds target ∧
        (∀ d ∈ ds, d.matrix.isSubset target) ∧ inv.KeepsValues target base := by
    constructor
    · intro ⟨seg, hseg⟩
      obtain ⟨hsimple, base, hbase⟩ := exists_of_segmentOf_eq_ok hseg
      obtain ⟨ds, hds⟩ := (segmentOf_eq_ok_iff
        ((allSimple_dropNulls inv m).trans hsimple) hbase).mp ⟨seg, hseg⟩
      exact ⟨hsimple, base, ds, hbase, hds.combines hbuilt hbase⟩
    · intro ⟨hsimple, base, ds, hbase, hcombines, hinside, hkeeps⟩
      rw [segmentOf_eq_ok_iff ((allSimple_dropNulls inv m).trans hsimple) hbase]
      exact hcombines.exists_completes hbuilt hbase hinside hkeeps
  refine ⟨fun fault ↦ eq_of_segmentOf_eq_error, hfinds, fun hsingle ↦ ?_⟩
  rw [hfinds]
  constructor
  · intro ⟨hsimple, base, ds, hbase, hcombines, hinside, _⟩
    exact ⟨hsimple, base, ds, hbase, hcombines, hinside⟩
  · intro ⟨hsimple, base, ds, hbase, hcombines, hinside⟩
    refine ⟨hsimple, base, ds, hbase, hcombines, hinside, fun taken left last hturns d hd ↦ ?_⟩
    exact settled_of_single hbuilt hsingle (hturns.perm.subset (List.mem_append_left _ hd))
      (fits_iff.mp (hturns.fits d hd)).2.2

/-- An aspirated labialized `k` is spelled, since `k` and its diacritics have a combination for it.
That it is voiceless is a null value and needs no diacritic. -/
theorem segmentOf_finds_k :
    let k : Symbol := ⟨['k'], .ofValues ["velar", "stop"]⟩
    let rounded : Diacritic := ⟨['w'], .ofValues ["labialized"], .after, false⟩
    let breathy : Diacritic := ⟨['h'], .ofValues ["aspirated", "labialized"], .after, false⟩
    let m := Matrix.ofValues ["velar", "stop", "voiceless", "aspirated", "labialized"]
    ∃ inv, build
        [⟨"Place", ["velar"], none, .segment⟩, ⟨"Manner", ["stop", "nasal"], none, .segment⟩,
          ⟨"Voice", ["voiced"], some "voiceless", .segment⟩,
          ⟨"Release", ["aspirated"], none, .segment⟩, ⟨"Lips", ["labialized"], none, .segment⟩]
        [k] [rounded, breathy] = .ok inv ∧
      (∀ f ∈ inv.features, Single f (inv.dropNulls m)) ∧
      inv.baseOf? (inv.dropNulls m) = some k ∧
      inv.Combines k [rounded, breathy] (inv.dropNulls m) ∧
      ∃ seg, inv.segmentOf m = .ok seg := by
  intro k rounded breathy m
  let inv : Inventory := {
    features := [⟨"Place", ["velar"], none, .segment⟩,
      ⟨"Manner", ["stop", "nasal"], none, .segment⟩,
      ⟨"Voice", ["voiced"], some "voiceless", .segment⟩,
      ⟨"Release", ["aspirated"], none, .segment⟩, ⟨"Lips", ["labialized"], none, .segment⟩]
    symbols := [k]
    diacritics := [rounded, breathy]
    parseOrder := [k]
    parseOrder_eq := by cbv }
  have hbuild : build inv.features [k] [rounded, breathy] = .ok inv := by cbv
  have hsingle : ∀ f ∈ inv.features, Single f (inv.dropNulls m) := by decide +kernel
  have hbase : inv.baseOf? (inv.dropNulls m) = some k := by decide +kernel
  have hcombines : inv.Combines k [rounded, breathy] (inv.dropNulls m) := by decide +kernel
  have hinside : ∀ d ∈ [rounded, breathy], d.matrix.isSubset (inv.dropNulls m) := by decide +kernel
  exact ⟨inv, hbuild, hsingle, hbase, hcombines, ((segmentOf_finds hbuild m).2.2 hsingle).mpr
    ⟨by decide +kernel, k, [rounded, breathy], hbase, hcombines, hinside⟩⟩

/-- Combinations that are missed: `b` with `h`, because `a` has more features inside the matrix; `c`
with `j`, which replaces a value of `c`; `b` with `k` and `j`, which replaces a value of `k`; and
`d` with `m`, because `l` is taken before `m` and loses a value of `d`. -/
theorem segmentOf_misses :
    ∃ inv, build
        [⟨"X", ["x1", "x2", "x3"], none, .segment⟩, ⟨"Y", ["y1", "y2"], none, .segment⟩,
          ⟨"Z", ["z"], none, .segment⟩, ⟨"W", ["w"], none, .segment⟩,
          ⟨"V", ["v1", "v2"], none, .segment⟩, ⟨"U", ["u"], none, .segment⟩]
        [⟨['a'], .ofValues ["x1", "y1"]⟩, ⟨['b'], .ofValues ["z"]⟩,
          ⟨['c'], .ofValues ["w", "x2"]⟩, ⟨['d'], .ofValues ["v1", "v2"]⟩]
        [⟨['h'], .ofValues ["x1", "y1"], .after, false⟩, ⟨['j'], .ofValues ["x3"], .after, false⟩,
          ⟨['k'], .ofValues ["x2", "y2"], .after, false⟩,
          ⟨['l'], .ofValues ["u", "v1"], .after, false⟩, ⟨['m'], .ofValues ["u"], .after, false⟩] =
        .ok inv ∧
      ∀ m ∈ [Matrix.ofValues ["x1", "y1", "z"], .ofValues ["w", "x3"], .ofValues ["x3", "y2", "z"],
          .ofValues ["u", "v1", "v2"]],
        (∃ s ds, inv.Combines s ds (inv.dropNulls m)) ∧
          inv.segmentOf m = .error (.of (.invalidMatrix (inv.dropNulls m).toText)) := by
  let a : Symbol := ⟨['a'], .ofValues ["x1", "y1"]⟩
  let b : Symbol := ⟨['b'], .ofValues ["z"]⟩
  let c : Symbol := ⟨['c'], .ofValues ["w", "x2"]⟩
  let d : Symbol := ⟨['d'], .ofValues ["v1", "v2"]⟩
  let h : Diacritic := ⟨['h'], .ofValues ["x1", "y1"], .after, false⟩
  let j : Diacritic := ⟨['j'], .ofValues ["x3"], .after, false⟩
  let k : Diacritic := ⟨['k'], .ofValues ["x2", "y2"], .after, false⟩
  let l : Diacritic := ⟨['l'], .ofValues ["u", "v1"], .after, false⟩
  let m : Diacritic := ⟨['m'], .ofValues ["u"], .after, false⟩
  let inv : Inventory := {
    features := [⟨"X", ["x1", "x2", "x3"], none, .segment⟩, ⟨"Y", ["y1", "y2"], none, .segment⟩,
      ⟨"Z", ["z"], none, .segment⟩, ⟨"W", ["w"], none, .segment⟩,
      ⟨"V", ["v1", "v2"], none, .segment⟩, ⟨"U", ["u"], none, .segment⟩]
    symbols := [a, b, c, d]
    diacritics := [h, j, k, l, m]
    parseOrder := [a, b, c, d]
    parseOrder_eq := by cbv }
  refine ⟨inv, by cbv, ?_⟩
  have hmissed (m : Matrix) (h : (inv.segmentOf m).toOption = none) :
      inv.segmentOf m = .error (.of (.invalidMatrix (inv.dropNulls m).toText)) := by
    cases hm : inv.segmentOf m with
    | ok seg =>
      rw [hm] at h
      cases h
    | error fault => rw [eq_of_segmentOf_eq_error hm]
  refine List.forall_mem_cons.mpr ⟨⟨⟨b, [h], by decide +kernel⟩, hmissed _ (by decide +kernel)⟩, ?_⟩
  refine List.forall_mem_cons.mpr ⟨⟨⟨c, [j], by decide +kernel⟩, hmissed _ (by decide +kernel)⟩, ?_⟩
  refine List.forall_mem_cons.mpr
    ⟨⟨⟨b, [k, j], by decide +kernel⟩, hmissed _ (by decide +kernel)⟩, ?_⟩
  exact List.forall_mem_singleton.mpr
    ⟨⟨d, [m], by decide +kernel⟩, hmissed _ (by decide +kernel)⟩

end Diachrony.Inventory
