import Diachrony.Proofs.Inventory.Spelling

/-!
# The turns of spelling

A spelling is completed in turns, and a turn takes the best of the diacritics that are left. Every
turn uses one of them up, so the turns end: at the target, or at a matrix that no diacritic left
brings nearer to it. Nothing is chosen on the way, so there is one run of turns to its end, and any
other run stops short of it.

What comes out at the target is spelled exactly: it has the values of the target, and it is written
as one declared symbol with unlike diacritics around it.
-/

namespace Diachrony.Inventory

/-- The best of the unused diacritics, with its place among them: the first of those that make most
of the assertions that a matrix lacks. -/
def best? (inv : Inventory) (target : Matrix) (unused : List Diacritic) (m : Matrix) :
    Option (Diacritic × Nat) :=
  firstBest? (fun (d, _) ↦ gain (target.diff m) d) (unused.zipIdx.filter fun (d, _) ↦
    inv.fits target d && 0 < gain (target.diff m) d)

/-- A number of turns: from the unused diacritics and the matrix at the start to the diacritics that
are taken, those that are left, and the matrix that is reached. -/
inductive Turns (inv : Inventory) (target : Matrix) :
    List Diacritic → Matrix → List Diacritic → List Diacritic → Matrix → Prop
  /-- No turn. -/
  | stay {unused : List Diacritic} {m : Matrix} : Turns inv target unused m [] unused m
  /-- The target is missed and the best diacritic is taken, and then other turns follow. -/
  | turn {unused left ds : List Diacritic} {m last : Matrix} {d : Diacritic} {i : Nat}
      (missing : m ≠ target) (best : inv.best? target unused m = some (d, i))
      (others : Turns inv target (unused.eraseIdx i) (inv.overlay m d.matrix) ds left last) :
      Turns inv target unused m (d :: ds) left last

/-- Whether no turn can follow. -/
def Ended (inv : Inventory) (target : Matrix) (left : List Diacritic) (last : Matrix) : Prop :=
  last = target ∨ inv.best? target left last = none

variable {inv : Inventory} {target m last : Matrix} {unused left ds : List Diacritic}

/-- A diacritic gains what it asserts of the missing. -/
theorem gain_pos_iff {missing : Matrix} {d : Diacritic} :
    0 < gain missing d ↔ ∃ a ∈ d.matrix, a ∈ missing := by
  rw [gain, List.length_pos_iff_exists_mem]
  simp [SortedSet.mem_iff]

/-- The best diacritic is unused, has values of the target alone, and brings some that are
missing. -/
theorem best?_eq_some {d : Diacritic} {i : Nat} (h : inv.best? target unused m = some (d, i)) :
    unused[i]? = some d ∧ inv.fits target d ∧ ∃ a ∈ d.matrix, a ∈ target.diff m := by
  have hmem := (firstBest?_eq_some h).1
  simp only [List.mem_filter, Bool.and_eq_true, decide_eq_true_eq, gain_pos_iff] at hmem
  exact ⟨List.mem_zipIdx_iff_getElem?.mp hmem.1, hmem.2⟩

/-- If there is no best diacritic, none of the unused ones brings what is missing. -/
theorem not_mem_diff_of_best?_eq_none (h : inv.best? target unused m = none) :
    ∀ d ∈ unused, inv.fits target d → ∀ a ∈ d.matrix, a ∉ target.diff m := by
  intro d hd hfits a ha hmissing
  obtain ⟨i, hi⟩ := List.mem_iff_getElem?.mp hd
  have hmem : (d, i) ∈ unused.zipIdx.filter fun (d, _) ↦
      inv.fits target d && 0 < gain (target.diff m) d := by
    simp only [List.mem_filter, Bool.and_eq_true, decide_eq_true_eq, gain_pos_iff]
    exact ⟨List.mem_zipIdx_iff_getElem?.mpr hi, hfits, a, ha, hmissing⟩
  rw [best?, firstBest?_eq_none] at h
  rw [h] at hmem
  exact List.not_mem_nil hmem

/-- The best diacritic and the others are the unused ones. -/
theorem perm_of_best? {d : Diacritic} {i : Nat} (h : inv.best? target unused m = some (d, i)) :
    (d :: unused.eraseIdx i).Perm unused := by
  obtain ⟨hi, rfl⟩ := List.getElem?_eq_some_iff.mp (best?_eq_some h).1
  exact List.getElem_cons_eraseIdx_perm hi

/-- A turn leaves one diacritic less. -/
theorem length_eraseIdx_of_best? {best : Diacritic × Nat}
    (h : inv.best? target unused m = some best) :
    (unused.eraseIdx best.2).length + 1 = unused.length :=
  (perm_of_best? h).length_eq

namespace Turns

/-- The turns lay the taken diacritics over the matrix. -/
theorem overlayAll_eq (h : inv.Turns target unused m ds left last) :
    inv.overlayAll m ds = last := by
  induction h with
  | stay => rfl
  | turn _ _ _ ih => exact ih

/-- Every unused diacritic is taken once or left. -/
theorem perm (h : inv.Turns target unused m ds left last) : (ds ++ left).Perm unused := by
  induction h with
  | stay => exact .refl _
  | turn _ best _ ih => exact (ih.cons _).trans (perm_of_best? best)

/-- Every diacritic that is taken has values of the target alone. -/
theorem fits (h : inv.Turns target unused m ds left last) : ∀ d ∈ ds, inv.fits target d := by
  induction h with
  | stay => exact List.forall_mem_nil _
  | turn _ best _ ih => exact List.forall_mem_cons.mpr ⟨(best?_eq_some best).2.1, ih⟩

/-- The diacritics that are taken complete the matrix if the target is reached. -/
theorem completes (h : inv.Turns target unused m ds left last) (hlast : last = target) :
    inv.Completes target unused m ds := by
  induction h with
  | stay =>
    subst hlast
    exact .done
  | turn missing best _ ih => exact .take missing best (ih hlast)

/-- Diacritics that complete a matrix are taken in turns. -/
theorem of_completes (h : inv.Completes target unused m ds) :
    ∃ left, inv.Turns target unused m ds left target := by
  induction h with
  | done => exact ⟨_, .stay⟩
  | take missing best _ ih =>
    obtain ⟨left, others⟩ := ih
    exact ⟨left, .turn missing best others⟩

/-- No run of turns is longer than one that has ended, and all of them take the same diacritics as
far as they go. -/
theorem prefix_of_ended {ds' left' : List Diacritic} {last' : Matrix}
    (h : inv.Turns target unused m ds left last) (hended : inv.Ended target left last)
    (h' : inv.Turns target unused m ds' left' last') : ds' <+: ds := by
  induction h generalizing ds' with
  | stay =>
    cases h' with
    | stay => exact List.prefix_refl _
    | turn missing best =>
      rcases hended with hreached | hnone
      · exact (missing hreached).elim
      · rw [best] at hnone
        cases hnone
  | turn missing best _ ih =>
    cases h' with
    | stay => exact List.nil_prefix
    | turn _ best' others' =>
      obtain ⟨rfl, rfl⟩ := Prod.mk.inj (Option.some.inj (best.symm.trans best'))
      exact (List.prefix_cons_inj _).mpr (ih hended others')

end Turns

/-- From every start there is a run of turns that ends. -/
theorem exists_turns (inv : Inventory) (target : Matrix) (unused : List Diacritic) (m : Matrix) :
    ∃ ds left last, inv.Turns target unused m ds left last ∧ inv.Ended target left last := by
  by_cases hreached : m = target
  · exact ⟨[], unused, m, .stay, .inl hreached⟩
  · cases hbest : inv.best? target unused m with
    | none => exact ⟨[], unused, m, .stay, .inr hbest⟩
    | some best =>
      have hlength := length_eraseIdx_of_best? hbest
      obtain ⟨ds, left, last, hturns, hended⟩ :=
        exists_turns inv target (unused.eraseIdx best.2) (inv.overlay m best.1.matrix)
      exact ⟨best.1 :: ds, left, last, .turn hreached hbest hturns, hended⟩
termination_by unused.length

/-! ### What the turns come to -/

/-- With a bound for each diacritic a spelling that diacritics complete is completed. -/
theorem complete_of_completes {n : Nat} {s : Spelled}
    (h : inv.Completes target unused s.matrix ds) (hn : unused.length ≤ n) :
    inv.complete target n unused s = .ok (ds.foldl (fun s d ↦ s.add inv d) s) := by
  generalize hm : s.matrix = m at h
  induction h generalizing n s with
  | done =>
    rw [complete.eq_def]
    exact if_pos hm
  | @take unused m d i ds missing best _ ih =>
    have hlength : (unused.eraseIdx i).length + 1 = unused.length := length_eraseIdx_of_best? best
    obtain ⟨n, rfl⟩ := Nat.exists_eq_succ_of_ne_zero (by omega : n ≠ 0)
    subst hm
    have hadd : (s.add inv d).matrix = inv.overlay s.matrix d.matrix := by
      rw [Spelled.add]
      split <;> rfl
    rw [complete, if_neg missing]
    dsimp only
    rw [best]
    exact ih (by omega) hadd

/-- A spelling fails for no other reason than that the matrix can not be spelled. -/
theorem eq_of_complete_eq_error {n : Nat} {s : Spelled} {fault : Fault}
    (h : inv.complete target n unused s = .error fault) :
    fault = .of (.invalidMatrix target.toText) := by
  induction n generalizing unused s with
  | zero =>
    rw [complete] at h
    split at h
    · cases h
    · exact (Except.error.inj h).symm
  | succ n ih =>
    rw [complete] at h
    split at h
    · cases h
    · dsimp only at h
      split at h
      · next hn _ =>
        obtain rfl := Nat.succ.inj hn
        exact ih h
      · exact (Except.error.inj h).symm

/-- A matrix of simple values with a base is spelled exactly if the turns come to the target. -/
theorem segmentOf_eq_ok_iff {base : Symbol} (hsimple : (inv.dropNulls m).allSimple)
    (hbase : inv.baseOf? (inv.dropNulls m) = some base) :
    (∃ seg, inv.segmentOf m = .ok seg) ↔
      ∃ ds, inv.Completes (inv.dropNulls m) inv.diacritics base.matrix ds := by
  rw [segmentOf]
  dsimp only
  rw [hsimple, hbase]
  constructor
  · rintro ⟨seg, h⟩
    obtain ⟨s, hs, -⟩ := exists_of_bind_eq_ok h
    obtain ⟨ds, hds, -⟩ := exists_completes_of_complete hs
    exact ⟨ds, hds⟩
  · rintro ⟨ds, hds⟩
    exact ⟨_, bind_eq_ok (complete_of_completes (s := { matrix := base.matrix }) hds
      (Nat.le_refl _)) rfl⟩

/-! ### What is spelled -/

/-- Diacritics are written in front of the base or behind it. -/
theorem perm_placements (ds : List Diacritic) :
    (ds.filter (·.placement = .before) ++ ds.filter (·.placement = .after)).Perm ds := by
  induction ds with
  | nil => exact .refl _
  | cons d rest ih =>
    cases hd : d.placement with
    | before => simpa [hd] using ih
    | after => simpa [hd] using List.perm_middle.trans (ih.cons d)

/-- No diacritic of an inventory that was built is listed twice. -/
theorem IsBuilt.nodup_diacritics (hbuilt : inv.IsBuilt) : inv.diacritics.Nodup :=
  .of_map _ hbuilt.diacritic_nodup

/-- Diacritics that complete a matrix are declared, and none of them is used twice. -/
theorem Completes.once (hbuilt : inv.IsBuilt) (h : inv.Completes target inv.diacritics m ds) :
    ds.Subperm inv.diacritics ∧ ds.Nodup := by
  obtain ⟨left, hturns⟩ := Turns.of_completes h
  have hnodup := hturns.perm.nodup_iff.mpr hbuilt.nodup_diacritics
  constructor
  · exact (List.sublist_append_left ds left).subperm.trans hturns.perm.subperm
  · exact (List.nodup_append.mp hnodup).1

/-- Spelling is exact. The turns of a spelling end, after one for each diacritic at most, and there
is a segment if they end at the target. A segment that is spelled has the values of the matrix, null
values aside, and is written as one declared symbol with diacritics in front and behind, all of them
different and none a mark of syllables. A declared symbol with features is spelled as itself. -/
theorem segmentOf_exact {features : List Feature} {symbols : List Symbol}
    {diacritics : List Diacritic} {inv : Inventory}
    (hbuild : build features symbols diacritics = .ok inv) :
    (∀ m base, inv.baseOf? (inv.dropNulls m) = some base →
      ∃ ds left last, inv.Turns (inv.dropNulls m) inv.diacritics base.matrix ds left last ∧
        inv.Ended (inv.dropNulls m) left last ∧ ds.length ≤ inv.diacritics.length ∧
        (∀ ds' left' last', inv.Turns (inv.dropNulls m) inv.diacritics base.matrix ds' left' last' →
          ds' <+: ds) ∧
        ((inv.dropNulls m).allSimple →
          ((∃ seg, inv.segmentOf m = .ok seg) ↔ last = inv.dropNulls m))) ∧
    (∀ m seg, inv.segmentOf m = .ok seg →
      seg.matrix = inv.dropNulls m ∧
      ∃ s ∈ inv.symbols, ∃ before after : List Diacritic,
        seg.symbol =
          before.flatMap Diacritic.text ++ s.text ++ after.flatMap Diacritic.text ∧
        (∀ d ∈ before, d.placement = .before) ∧ (∀ d ∈ after, d.placement = .after) ∧
        (before ++ after).Nodup ∧
        ∀ d ∈ before ++ after, d ∈ inv.diacritics ∧ inv.marksSyllables d = false) ∧
    ∀ s ∈ inv.symbols, s.matrix ≠ ∅ → inv.segmentOf s.matrix = .ok ⟨s.text, s.matrix⟩ := by
  have hbuilt := isBuilt_of_build hbuild
  refine ⟨fun m base hbase ↦ ?_, fun m seg hseg ↦ ?_, fun s ↦ segmentOf_matrix hbuilt⟩
  · obtain ⟨ds, left, last, hturns, hended⟩ :=
      exists_turns inv (inv.dropNulls m) inv.diacritics base.matrix
    refine ⟨ds, left, last, hturns, hended, ?_, fun ds' left' last' ↦
      hturns.prefix_of_ended hended, fun hsimple ↦ ?_⟩
    · have hlength := hturns.perm.length_eq
      rw [List.length_append] at hlength
      omega
    · rw [segmentOf_eq_ok_iff hsimple hbase]
      constructor
      · intro ⟨ds', hcompletes⟩
        -- the run that completes the matrix has ended, so it is this one
        obtain ⟨left', hturns'⟩ := Turns.of_completes hcompletes
        have hsame : ds = ds' := (hturns'.prefix_of_ended (.inl rfl) hturns).eq_of_length_le
          (hturns.prefix_of_ended hended hturns').length_le
        rw [← hturns.overlayAll_eq, hsame, hturns'.overlayAll_eq]
      · exact fun hlast ↦ ⟨ds, hturns.completes hlast⟩
  · obtain ⟨hmatrix, c, hspells, rfl, -⟩ := segment_of_segmentOf hbuilt hseg
    have hmarks := hspells.marksSyllables_eq
    obtain ⟨base, ds, hbase, hcompletes, rfl⟩ := hspells
    obtain ⟨hsubperm, hnodup⟩ := hcompletes.once hbuilt
    have hperm := perm_placements ds
    refine ⟨hmatrix, base, ?_, ds.filter (·.placement = .before), ds.filter (·.placement = .after),
      rfl, ?_, ?_, hperm.nodup_iff.mpr hnodup, fun d hd ↦ ⟨?_, hmarks d hd⟩⟩
    · exact (baseOf?_eq_some hbase).1
    · exact fun d hd ↦ by simpa using (List.mem_filter.mp hd).2
    · exact fun d hd ↦ by simpa using (List.mem_filter.mp hd).2
    · exact hsubperm.subset (hperm.subset hd)

/-- A voiceless aspirated `t` with a nasal in front is spelled `~th`, and `t` is spelled as
itself. -/
theorem segmentOf_exact_th :
    let t : Symbol := ⟨['t'], .ofValues ["stop"]⟩
    let nasal : Diacritic := ⟨['~'], .ofValues ["prenasal"], .before, false⟩
    let breath : Diacritic := ⟨['h'], .ofValues ["aspirated"], .after, false⟩
    let m := Matrix.ofValues ["stop", "voiceless", "aspirated", "prenasal"]
    ∃ inv, build
        [⟨"Manner", ["stop"], none, .segment⟩, ⟨"Voice", ["voiced"], some "voiceless", .segment⟩,
          ⟨"Onset", ["prenasal"], none, .segment⟩, ⟨"Release", ["aspirated"], none, .segment⟩]
        [t] [nasal, breath] = .ok inv ∧
      inv.baseOf? (inv.dropNulls m) = some t ∧
      (∃ ds left, inv.Turns (inv.dropNulls m) inv.diacritics t.matrix ds left (inv.dropNulls m)) ∧
      (∃ seg, inv.segmentOf m = .ok seg ∧ seg.matrix = inv.dropNulls m ∧
        ∃ s ∈ inv.symbols, ∃ before after : List Diacritic, seg.symbol =
          before.flatMap Diacritic.text ++ s.text ++ after.flatMap Diacritic.text) ∧
      inv.segmentOf t.matrix = .ok ⟨t.text, t.matrix⟩ := by
  intro t nasal breath m
  let inv : Inventory := {
    features := [⟨"Manner", ["stop"], none, .segment⟩,
      ⟨"Voice", ["voiced"], some "voiceless", .segment⟩,
      ⟨"Onset", ["prenasal"], none, .segment⟩, ⟨"Release", ["aspirated"], none, .segment⟩]
    symbols := [t]
    diacritics := [nasal, breath]
    parseOrder := [t]
    parseOrder_eq := by cbv }
  have hbuild : build inv.features [t] [nasal, breath] = .ok inv := by cbv
  have hbase : inv.baseOf? (inv.dropNulls m) = some t := by decide +kernel
  have hseg : inv.segmentOf m = .ok ⟨['~', 't', 'h'], inv.dropNulls m⟩ :=
    eq_ok_of_toOption (by decide +kernel)
  obtain ⟨hends, hspelled, hself⟩ := segmentOf_exact hbuild
  obtain ⟨ds, left, last, hturns, -, -, -, hreached⟩ := hends m t hbase
  obtain rfl := (hreached (by decide +kernel)).mp ⟨_, hseg⟩
  obtain ⟨hmatrix, s, hs, before, after, hsymbol, -⟩ := hspelled m _ hseg
  exact ⟨inv, hbuild, hbase, ⟨ds, left, hturns⟩, ⟨_, hseg, hmatrix, s, hs, before, after, hsymbol⟩,
    hself t (List.mem_singleton_self t) (by decide +kernel)⟩

end Diachrony.Inventory
