import Mathlib.Data.List.Permutation
import Diachrony.Inventory.Spelling
import Diachrony.Proofs.Inventory.Overlays
import Diachrony.Proofs.Inventory.Rounds

/-!
# Spelled segments are read back

The segment that is spelled for a matrix is a declared symbol with diacritics around it. If the
reader finds the same pieces in its text, it reads the same segment: the reader adds the values of
the pieces in another order, but this makes no difference.

Pieces may also look alike: where `a` and `h` are spelled next to each other and there is a symbol
`ah`, the reader finds this symbol.
-/

namespace Diachrony.Inventory

/-- The diacritics that complete a matrix to a target, in the order in which they are taken: each is
the best one of those that are left. -/
inductive Completes (inv : Inventory) (target : Matrix) :
    List Diacritic → Matrix → List Diacritic → Prop
  /-- The target is reached. -/
  | done {unused : List Diacritic} : Completes inv target unused target []
  /-- The best diacritic is taken, and then those that complete what it makes of the matrix. -/
  | take {unused : List Diacritic} {m : Matrix} {d : Diacritic} {i : Nat} {ds : List Diacritic}
      (missing : m ≠ target)
      (best : firstBest? (fun (d, _) ↦ gain (target.diff m) d) (unused.zipIdx.filter fun (d, _) ↦
        inv.fits target d && 0 < gain (target.diff m) d) = some (d, i))
      (others : Completes inv target (unused.eraseIdx i) (inv.overlay m d.matrix) ds) :
      Completes inv target unused m (d :: ds)

/-- The pieces that are taken for a matrix: the symbol with most of its features, and around it the
diacritics that complete it. -/
def Spells (inv : Inventory) (m : Matrix) (c : Cluster) : Prop :=
  ∃ base ds, inv.baseOf? (inv.dropNulls m) = some base ∧
    inv.Completes (inv.dropNulls m) inv.diacritics base.matrix ds ∧
    c = ⟨ds.filter (·.placement = .before), ⟨base.text, base.matrix⟩,
      ds.filter (·.placement = .after)⟩

variable {inv : Inventory} {target : Matrix}

/-- A diacritic fits a matrix if it is one of segments and has values, all of them in the matrix. -/
theorem fits_iff {d : Diacritic} : inv.fits target d ↔
    d.matrix.isEmpty = false ∧ inv.marksSyllables d = false ∧ d.matrix.isSubset target := by
  simp [fits, and_assoc]

/-- The base for a matrix is a declared symbol with features, all of them in the matrix. -/
theorem baseOf?_eq_some {base : Symbol} (h : inv.baseOf? target = some base) :
    base ∈ inv.symbols ∧ base.matrix ≠ ∅ ∧ base.matrix.isSubset target := by
  have hmem := (firstBest?_eq_some h).1
  rw [List.mem_filter, Bool.and_eq_true, Bool.not_eq_true', ← Bool.not_eq_true,
    SortedSet.isEmpty_iff] at hmem
  exact hmem

namespace Completes

variable {unused ds : List Diacritic} {m : Matrix}

/-- The diacritics complete the matrix. -/
theorem overlayAll_eq (h : inv.Completes target unused m ds) : inv.overlayAll m ds = target := by
  induction h with
  | done => rfl
  | take _ _ _ ih => exact ih

/-- Every diacritic is one of the unused ones and has values of the target alone. -/
theorem mem_and_fits (h : inv.Completes target unused m ds) :
    ∀ d ∈ ds, d ∈ unused ∧ inv.fits target d := by
  induction h with
  | done => exact List.forall_mem_nil _
  | @take unused m d i ds _ best _ ih =>
    obtain ⟨hmem, hfits⟩ := List.mem_filter.mp (firstBest?_eq_some best).1
    refine List.forall_mem_cons.mpr ⟨⟨?_, ?_⟩, fun e he ↦ ?_⟩
    · exact List.mem_of_getElem? (List.mem_zipIdx_iff_getElem?.mp hmem)
    · exact (Bool.and_eq_true_iff.mp hfits).1
    · exact (ih e he).imp_left (List.mem_of_mem_eraseIdx ·)

/-- The diacritics are fixed by the matrix. -/
theorem unique {ds' : List Diacritic} (h : inv.Completes target unused m ds)
    (h' : inv.Completes target unused m ds') : ds = ds' := by
  induction h generalizing ds' with
  | done =>
    cases h' with
    | done => rfl
    | take missing => exact (missing rfl).elim
  | take missing best _ ih =>
    cases h' with
    | done => exact (missing rfl).elim
    | take _ best' others =>
      obtain ⟨rfl, rfl⟩ := Prod.mk.inj (Option.some.inj (best.symm.trans best'))
      rw [ih others]

end Completes

/-- A completed spelling is the first one with the diacritics added that complete it. -/
theorem exists_completes_of_complete {n : Nat} {unused : List Diacritic} {s s' : Spelled}
    (h : inv.complete target n unused s = .ok s') :
    ∃ ds, inv.Completes target unused s.matrix ds ∧
      s' = ds.foldl (fun s d ↦ s.add inv d) s := by
  induction n generalizing unused s with
  | zero =>
    rw [complete] at h
    split at h
    · next heq =>
      cases h
      exact ⟨[], heq ▸ .done, rfl⟩
    · cases h
  | succ n ih =>
    rw [complete] at h
    split at h
    · next heq =>
      cases h
      exact ⟨[], heq ▸ .done, rfl⟩
    · next hne =>
      dsimp only at h
      split at h
      · next d i hn best =>
        obtain rfl := Nat.succ.inj hn
        obtain ⟨ds, hds, rfl⟩ := ih h
        have hmatrix : (s.add inv d).matrix = inv.overlay s.matrix d.matrix := by
          rw [Spelled.add]
          split <;> rfl
        rw [hmatrix] at hds
        exact ⟨d :: ds, .take hne best hds, rfl⟩
      · cases h

/-- What diacritics make of a spelling. -/
theorem foldl_add_eq (ds : List Diacritic) (s : Spelled) :
    ds.foldl (fun s d ↦ s.add inv d) s =
      ⟨s.before ++ (ds.filter (·.placement = .before)).flatMap Diacritic.text,
        s.after ++ (ds.filter (·.placement = .after)).flatMap Diacritic.text,
        inv.overlayAll s.matrix ds⟩ := by
  induction ds generalizing s with
  | nil => simp [overlayAll]
  | cons d rest ih =>
    rw [List.foldl_cons, ih, Spelled.add]
    cases h : d.placement <;> simp [h, overlayAll]

/-- Diacritics that complete a matrix replace no value of the target except by itself. -/
theorem Completes.settled (hbuilt : inv.IsBuilt) {m : Matrix} {ds : List Diacritic}
    (h : inv.Completes target inv.diacritics m ds) : ∀ d ∈ ds, inv.Settled target d.matrix := by
  have hsettled := settled_overlayAll hbuilt (m := m) fun d hd ↦
    hbuilt.diacritic_declares d (h.mem_and_fits d hd).1
  rw [h.overlayAll_eq] at hsettled
  exact hsettled fun d hd ↦ SortedSet.isSubset_iff.mp (fits_iff.mp (h.mem_and_fits d hd).2).2.2

/-- The matrix of a spelled cluster is the target: in a built inventory the reader, who adds the
values of the diacritics in front to the base first, comes to the same features as the speller. -/
theorem Completes.segment_eq (hbuilt : inv.IsBuilt) {base : Symbol}
    (hsub : base.matrix.isSubset target) {ds : List Diacritic}
    (h : inv.Completes target inv.diacritics base.matrix ds) :
    (Cluster.mk (ds.filter (·.placement = .before)) ⟨base.text, base.matrix⟩
      (ds.filter (·.placement = .after))).segment inv =
    ⟨(ds.filter (·.placement = .before)).flatMap Diacritic.text ++ base.text ++
      (ds.filter (·.placement = .after)).flatMap Diacritic.text, target⟩ := by
  have hdeclares : ∀ d ∈ ds, inv.Declares d.matrix := fun d hd ↦
    hbuilt.diacritic_declares d (h.mem_and_fits d hd).1
  have hds : ∀ d ∈ ds, ∀ a ∈ d.matrix, a ∈ target := fun d hd ↦
    SortedSet.isSubset_iff.mp (fits_iff.mp (h.mem_and_fits d hd).2).2.2
  have hsettled := h.settled hbuilt
  have hbase := SortedSet.isSubset_iff.mp hsub
  have hmem (d : Diacritic) : d ∈ ds.filter (·.placement = .before) ++
      ds.filter (·.placement = .after) ↔ d ∈ ds := by
    cases hd : d.placement <;> simp [hd]
  simp only [Cluster.segment, Cluster.text, Segment.mk.injEq, true_and]
  ext a
  have hunion := mem_overlayAll hdeclares hbase hds hsettled (a := a)
  rw [h.overlayAll_eq] at hunion
  have hread := mem_matrix_segment (c := ⟨ds.filter (·.placement = .before),
    ⟨base.text, base.matrix⟩, ds.filter (·.placement = .after)⟩) hbase
    (fun d hd ↦ hdeclares d ((hmem d).mp hd)) (fun d hd ↦ hds d ((hmem d).mp hd))
    (fun d hd ↦ hsettled d ((hmem d).mp hd)) (a := a)
  rw [hunion]
  refine hread.trans ?_
  simp only [hmem]

/-- What `segmentOf` gives for a matrix is spelled from pieces, which are fixed by the matrix, and
has the features of the matrix, null values aside. -/
theorem segment_of_segmentOf (hbuilt : inv.IsBuilt) {m : Matrix} {seg : Segment}
    (h : inv.segmentOf m = .ok seg) :
    seg.matrix = inv.dropNulls m ∧ ∃ c, inv.Spells m c ∧ c.segment inv = seg ∧
      ∀ c', inv.Spells m c' → c' = c := by
  rw [segmentOf] at h
  dsimp only at h
  split at h
  · cases h
  · split at h
    · cases h
    · next base hbase =>
      obtain ⟨s, hs, h⟩ := exists_of_bind_eq_ok h
      cases h
      obtain ⟨ds, hds, rfl⟩ := exists_completes_of_complete hs
      have hread := hds.segment_eq hbuilt (baseOf?_eq_some hbase).2.2
      rw [foldl_add_eq, hds.overlayAll_eq]
      refine ⟨rfl, _, ⟨base, ds, hbase, hds, rfl⟩, hread, ?_⟩
      rintro _ ⟨base', ds', hbase', hds', rfl⟩
      obtain rfl := Option.some.inj (hbase'.symm.trans hbase)
      rw [hds.unique hds']

/-- No piece of a spelled segment marks syllables. -/
theorem Spells.marksSyllables_eq {m : Matrix} {c : Cluster} (h : inv.Spells m c) :
    ∀ d ∈ c.before ++ c.after, inv.marksSyllables d = false := by
  obtain ⟨base, ds, -, hds, rfl⟩ := h
  intro d hd
  have hmem : d ∈ ds := (List.mem_append.mp hd).elim (List.mem_of_mem_filter ·)
    (List.mem_of_mem_filter ·)
  exact (fits_iff.mp (hds.mem_and_fits d hmem).2).2.1

/-- A subset that is not smaller is the whole set. -/
theorem eq_of_isSubset {m : Matrix} (h : m.isSubset target) (hsize : target.size ≤ m.size) :
    m = target := by
  have hsub : m.toList ⊆ target.toList := fun a ha ↦ SortedSet.isSubset_iff.mp h a ha
  have hperm := (List.subperm_of_subset m.nodup_toList hsub).perm_of_length_le hsize
  ext a
  exact hperm.mem_iff

/-- A declared symbol with features is the base for them. -/
theorem baseOf?_matrix (hbuilt : inv.IsBuilt) {s : Symbol} (hs : s ∈ inv.symbols)
    (hne : s.matrix ≠ ∅) : inv.baseOf? s.matrix = some s := by
  have hself : s ∈ inv.symbols.filter fun t ↦ !t.matrix.isEmpty && t.matrix.isSubset s.matrix := by
    have hsome : s.matrix.isEmpty = false := by simpa [← SortedSet.isEmpty_iff] using hne
    have hsub : s.matrix.isSubset s.matrix := SortedSet.isSubset_iff.mpr fun _ ha ↦ ha
    simp [hs, hsome, hsub]
  cases h : inv.baseOf? s.matrix with
  | none =>
    rw [baseOf?, firstBest?_eq_none] at h
    rw [h] at hself
    exact absurd hself List.not_mem_nil
  | some t =>
    obtain ⟨ht, -, hsub⟩ := baseOf?_eq_some h
    have heq := eq_of_isSubset hsub ((firstBest?_eq_some h).2 s hself)
    rw [hbuilt.matrix_inj s hs t ht ⟨heq.symm, hne⟩]

/-- A declared symbol with features is spelled as itself. -/
theorem segmentOf_matrix (hbuilt : inv.IsBuilt) {s : Symbol} (hs : s ∈ inv.symbols)
    (hne : s.matrix ≠ ∅) : inv.segmentOf s.matrix = .ok ⟨s.text, s.matrix⟩ := by
  have hdeclares := hbuilt.symbol_declares s hs
  have hnulls : inv.dropNulls s.matrix = s.matrix := by
    ext a
    refine SortedSet.mem_filter.trans (and_iff_left_of_imp fun ha ↦ ?_)
    obtain ⟨value, f, rfl, hf, hnull⟩ := hdeclares a ha
    simp [assertsNull, meansAbsence, Assertion.simpleValue?, hf, hnull]
  have hsimple : s.matrix.allSimple := by
    refine List.all_eq_true.mpr fun a ha ↦ ?_
    obtain ⟨value, _, rfl, _⟩ := hdeclares a ha
    rfl
  rw [segmentOf]
  dsimp only
  rw [hnulls, hsimple, baseOf?_matrix hbuilt hs hne]
  have hcomplete : inv.complete s.matrix inv.diacritics.length inv.diacritics
      { matrix := s.matrix } = .ok { matrix := s.matrix } := by
    rw [complete.eq_def]
    exact if_pos rfl
  refine bind_eq_ok hcomplete ?_
  simp only [List.nil_append, List.append_nil]
  rfl

/-- A declared symbol that no diacritic leads into is the only cluster of its text. -/
theorem reads_symbol (hbuilt : inv.IsBuilt) {s : Symbol} (hs : s ∈ inv.symbols)
    (hne : s.text ≠ []) (hlead : inv.leading? s.text = none) :
    inv.Reads [⟨[], ⟨s.text, s.matrix⟩, []⟩] s.text := by
  have hcore : inv.coreAt s.text = ⟨s.text, s.matrix⟩ := by
    rcases inv.coreAt_cases s.text with ⟨t, ht, hcore, hstarts, hlongest⟩ | ⟨hnone, -⟩
    · have htext := hstarts.eq_of_length_le (hlongest s hs (List.prefix_refl _))
      rw [hcore, hbuilt.text_inj t ht s hs htext]
    · exact (hnone s hs (List.prefix_refl _)).elim
  have hwhole : s.text ++ [] = s.text := List.append_nil _
  have hbefore : Leads inv [] s.text (s.text ++ []) := hwhole.symm ▸ .base hlead
  exact .cons hbefore (hwhole.symm ▸ hcore) hne (.done fun _ ↦ trailing?_nil) .nil

/-- What is spelled is read back. The segment for a matrix has the features of the matrix, null
values aside, and is made of pieces that the matrix fixes. Where its text is in canonical
decomposition and the reader finds these pieces in it, the text is read as this one segment. A
declared symbol with features is spelled as itself and is in canonical decomposition, and unless it
is empty or a diacritic leads into it, it is read as itself. -/
theorem readWord_segmentOf {features : List Feature} {symbols : List Symbol}
    {diacritics : List Diacritic} {inv : Inventory}
    (hbuild : build features symbols diacritics = .ok inv) :
    (∀ m seg, inv.segmentOf m = .ok seg →
      seg.matrix = inv.dropNulls m ∧
      ∃ c, inv.Spells m c ∧ (∀ c', inv.Spells m c' → c' = c) ∧ c.segment inv = seg ∧
        (inv.Reads [c] seg.symbol → Unicode.nfd seg.symbol = seg.symbol →
          inv.readWord seg.symbol false = ⟨[seg], none⟩)) ∧
    ∀ s ∈ inv.symbols, s.matrix ≠ ∅ →
      inv.segmentOf s.matrix = .ok ⟨s.text, s.matrix⟩ ∧ Unicode.nfd s.text = s.text ∧
      (s.text ≠ [] → inv.leading? s.text = none →
        inv.readWord s.text false = ⟨[⟨s.text, s.matrix⟩], none⟩) := by
  have hbuilt := isBuilt_of_build hbuild
  refine ⟨fun m seg hseg ↦ ?_, fun s hs hne ↦ ?_⟩
  · obtain ⟨hmatrix, c, hspells, hsegment, hunique⟩ := segment_of_segmentOf hbuilt hseg
    refine ⟨hmatrix, c, hspells, hunique, hsegment, fun hreads hnfd ↦ ?_⟩
    have hmarks : ∀ c' ∈ [c], ∀ d ∈ c'.before ++ c'.after, inv.marksSyllables d = false :=
      List.forall_mem_singleton.mpr hspells.marksSyllables_eq
    rw [readWord_of_reads (hnfd.symm ▸ hreads) hmarks, List.map_singleton, hsegment]
  · have hnfd := hbuilt.nfd_text s hs
    refine ⟨segmentOf_matrix hbuilt hs hne, hnfd, fun htext hlead ↦ ?_⟩
    have hreads := reads_symbol hbuilt hs htext hlead
    rw [← hnfd] at hreads
    rw [readWord_of_reads hreads (by simp), List.map_singleton, Cluster.segment_bare, hnfd]

/-- An aspirated `t` with a nasal in front is spelled `~th` and read back. -/
theorem readWord_segmentOf_th :
    let nasal : Diacritic := ⟨['~'], .ofValues ["prenasal"], .before, false⟩
    let breath : Diacritic := ⟨['h'], .ofValues ["aspirated"], .after, false⟩
    let target := Matrix.ofValues ["stop", "aspirated", "prenasal"]
    let seg : Segment := ⟨['~', 't', 'h'], target⟩
    ∃ inv, build
        [⟨"Manner", ["stop"], none, .segment⟩, ⟨"Onset", ["prenasal"], none, .segment⟩,
          ⟨"Release", ["aspirated"], none, .segment⟩]
        [⟨['t'], .ofValues ["stop"]⟩] [nasal, breath] = .ok inv ∧
      inv.segmentOf target = .ok seg ∧ Unicode.nfd seg.symbol = seg.symbol ∧
      inv.readWord seg.symbol false = ⟨[seg], none⟩ ∧
      ∃ s ∈ inv.symbols, s.matrix ≠ ∅ ∧ s.text ≠ [] ∧ inv.leading? s.text = none ∧
        inv.readWord s.text false = ⟨[⟨s.text, s.matrix⟩], none⟩ := by
  intro nasal breath target seg
  let t : Symbol := ⟨['t'], .ofValues ["stop"]⟩
  let inv : Inventory := {
    features := [⟨"Manner", ["stop"], none, .segment⟩, ⟨"Onset", ["prenasal"], none, .segment⟩,
      ⟨"Release", ["aspirated"], none, .segment⟩]
    symbols := [t]
    diacritics := [nasal, breath]
    parseOrder := [t]
    parseOrder_eq := by cbv }
  have hbuild : build inv.features [⟨['t'], .ofValues ["stop"]⟩] [nasal, breath] = .ok inv := by
    cbv
  have hseg : inv.segmentOf target = .ok seg := eq_ok_of_toOption (by decide +kernel)
  have hnfd : Unicode.nfd seg.symbol = seg.symbol := by decide +kernel
  obtain ⟨hspelled, hsymbols⟩ := readWord_segmentOf hbuild
  obtain ⟨-, c, -, hunique, -, hread⟩ := hspelled target seg hseg
  have hspells : inv.Spells target ⟨[nasal], ⟨t.text, t.matrix⟩, [breath]⟩ := by
    refine ⟨t, [nasal, breath], by decide +kernel, ?_, rfl⟩
    refine .take (i := 0) (by decide +kernel) (by decide +kernel) ?_
    refine .take (i := 0) (by decide +kernel) (by decide +kernel) ?_
    have hreached : inv.overlay (inv.overlay t.matrix nasal.matrix) breath.matrix =
        inv.dropNulls target := by decide +kernel
    rw [hreached]
    exact .done
  have hreads : inv.Reads [⟨[nasal], ⟨t.text, t.matrix⟩, [breath]⟩] seg.symbol :=
    .cons (@Leads.cons inv nasal [] ['t', 'h'] _ (by decide +kernel) (.base (by decide +kernel)))
      (by decide +kernel) (by decide)
      (@Trails.cons inv breath [] [] _ (by decide +kernel) (by decide +kernel)
        (.done fun _ ↦ trailing?_nil)) .nil
  have hne : t.matrix ≠ ∅ := by decide +kernel
  have hlead : inv.leading? t.text = none := by decide +kernel
  refine ⟨inv, hbuild, hseg, hnfd, hread (hunique _ hspells ▸ hreads) hnfd, t,
    List.mem_singleton_self t, hne, List.cons_ne_nil _ _, hlead, ?_⟩
  exact (hsymbols t (List.mem_singleton_self t) hne).2.2 (List.cons_ne_nil _ _) hlead

/-- With the symbols `a` and `ah` and the diacritic `h`, the base `a` with the values of `h` is
spelled `ah`, which is read as the symbol `ah`. -/
theorem readWord_segmentOf_ah :
    ∃ inv seg, build [⟨"F", ["x"], none, .segment⟩, ⟨"G", ["y"], none, .segment⟩,
        ⟨"H", ["z"], none, .segment⟩]
        [⟨['a'], .ofValues ["x"]⟩, ⟨['a', 'h'], .ofValues ["z"]⟩]
        [⟨['h'], .ofValues ["y"], .after, false⟩] = .ok inv ∧
      inv.segmentOf (.ofValues ["x", "y"]) = .ok seg ∧
      inv.readWord seg.symbol false ≠ ⟨[seg], none⟩ := by
  let inv : Inventory := {
    features := [⟨"F", ["x"], none, .segment⟩, ⟨"G", ["y"], none, .segment⟩,
      ⟨"H", ["z"], none, .segment⟩]
    symbols := [⟨['a'], .ofValues ["x"]⟩, ⟨['a', 'h'], .ofValues ["z"]⟩]
    diacritics := [⟨['h'], .ofValues ["y"], .after, false⟩]
    parseOrder := [⟨['a', 'h'], .ofValues ["z"]⟩, ⟨['a'], .ofValues ["x"]⟩]
    parseOrder_eq := by cbv }
  refine ⟨inv, ⟨['a', 'h'], .ofValues ["x", "y"]⟩, by cbv, ?_, by decide +kernel⟩
  exact eq_ok_of_toOption (by decide +kernel)

end Diachrony.Inventory
