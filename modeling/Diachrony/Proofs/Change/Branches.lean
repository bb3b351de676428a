import Diachrony.Proofs.Change.Alike
import Diachrony.Proofs.Ensures
import Diachrony.Proofs.Inventory.Floating

/-!
# One output for every branch

An output that does not depend on its span is paired with an alternative as a whole; others are
paired with every branch. The output repeated for every branch is paired with each of them anyhow.
Both ways act alike unless an output that is paired with a branch by itself sees the branch: a
symbol carries floating diacritics over, and a sequence is paired item by item.
-/

namespace Diachrony

namespace Output

/-- Whether an output does something else with a branch than with an alternative. Symbols carry
floating diacritics over from symbols and from single segments, and sequences of one length are
paired item by item. -/
def sees (inv : Inventory) : Output → Pattern → Bool
  | symbol literal, .symbol spelled => inv.hasFloating &&
    (spelled.length == literal.length || literal.length == 1 || spelled.length == 1)
  | symbol _, .matrix _ => inv.hasFloating
  | sequence os, .sequence ps => ps.length == os.length
  | _, _ => false

variable {inv : Inventory}

/-- Without floating diacritics segments are written as they are. -/
private theorem inheritSegments_of_hasFloating (h : inv.hasFloating = false)
    (patterns replaced outputs : List Segment) :
    inheritSegments inv patterns replaced outputs = outputs := by
  simp only [inheritSegments, Inventory.inheritFloating_eq h]
  split
  · next hlengths =>
    change ((outputs.zip replaced).zip patterns).map (Prod.fst ∘ Prod.fst) = outputs
    rw [← List.map_map, List.map_fst_zip, List.map_fst_zip]
    · exact Nat.le_of_eq hlengths.2.symm
    · rw [List.length_zip]
      omega
  · simp only [List.foldl_fixed, List.map_id']
    split
    · rfl
    · split <;> rfl

/-- For lengths that do not fit segments are written as they are. -/
private theorem inheritSegments_of_lengths {patterns outputs : List Segment}
    (hsame : patterns.length ≠ outputs.length) (houtput : outputs.length ≠ 1)
    (hpattern : patterns.length ≠ 1) (replaced : List Segment) :
    inheritSegments inv patterns replaced outputs = outputs := by
  rw [inheritSegments.eq_def, if_neg fun hlengths ↦ hsame hlengths.1,
    if_neg fun hlengths ↦ houtput hlengths.2]
  split
  · exact (hpattern rfl).elim
  · rfl

/-- A literal that does not see a branch takes nothing from it. -/
private theorem inheritWord_eq {pattern : Pattern} {literal : Word}
    (h : (symbol literal).sees inv pattern = false) (options : List Pattern) (replaced : Word) :
    inheritWord inv pattern replaced literal =
      inheritWord inv (.alternative options) replaced literal := by
  cases pattern with
  | symbol spelled =>
    have hsegments : inheritSegments inv spelled.segments replaced.segments literal.segments =
        literal.segments := by
      rcases Bool.and_eq_false_iff.mp h with hfloating | hlengths
      · exact inheritSegments_of_hasFloating hfloating _ _ _
      · simp only [Bool.or_eq_false_iff, beq_eq_false_iff_ne] at hlengths
        exact inheritSegments_of_lengths hlengths.1.1 hlengths.1.2 hlengths.2 _
    simp only [inheritWord, hsegments]
  | matrix values =>
    simp only [inheritWord, Inventory.inheritFloating_eq h]
    cases replaced.segments with
    | nil => rfl
    | cons first rest => rw [List.map_id']
  | _ => rfl

/-- An output that neither depends on its span nor sees a branch gives the same for the branch as
for the alternative. -/
theorem produce_eq_of_sees_eq_false {o : Output} {m : Pattern} (hspan : o.ignoresSpan)
    (h : o.sees inv m = false) (options : List Pattern) (b : Bindings) (span : Phrase) :
    o.produce inv b m span = o.produce inv b (.alternative options) span := by
  cases o with
  | symbol literal => simp only [produce, produceSymbol, inheritWord_eq h options]
  | matrix _ | syllableMatrix _ | inTurn _ | alternative _ => cases hspan
  | _ => simp only [produce]

end Output

namespace Pattern

variable {o : Output} (source target : String)

/-- Pairing every pattern with a copy of an output. -/
theorem pairEach_replicate (o : Output) (ps : List Pattern) :
    pairEach source target ps (List.replicate ps.length o) = pairAll source target o ps := by
  induction ps with
  | nil => rfl
  | cons p rest ih => rw [List.length_cons, List.replicate_succ, pairEach, pairAll, ih]

/-- An alternative is paired with a copy of an output for every branch. -/
theorem pair_alternative_replicate (o : Output) (ms : List Pattern) :
    (Pattern.alternative ms).pair source target (.alternative (List.replicate ms.length o)) =
      Pairing.alternative <$> pairAll source target o ms := by
  rw [pair, if_pos List.length_replicate.symm, pairEach_replicate]
  rfl

/-- An output that does not depend on its span is paired as a whole, apart from sequences of one
length. -/
theorem pair_eq_single (hspan : o.ignoresSpan) {p : Pattern}
    (h : ∀ ps os, p = .sequence ps → o = .sequence os → ps.length ≠ os.length) :
    p.pair source target o = .ok (.single p o) := by
  rw [pair.eq_def]
  split
  · next ps os =>
    rw [if_neg (h ps os rfl rfl)]
    exact if_pos hspan
  · cases hspan
  · cases hspan
  · exact if_pos hspan
  · exact if_pos hspan
  · rfl

/-- An output that depends on its span is paired with every branch. -/
theorem pair_alternative_of_not_ignoresSpan (hspan : ¬ o.ignoresSpan)
    (h : ∀ os, o ≠ .alternative os) (ms : List Pattern) :
    (Pattern.alternative ms).pair source target o =
      Pairing.alternative <$> pairAll source target o ms := by
  rw [pair]
  · rw [if_neg hspan]
    rfl
  · exact h

/-- An output that sees no branch is paired with every branch as a whole. -/
theorem pairAll_eq (inv : Inventory) (hspan : o.ignoresSpan) {ms : List Pattern}
    (h : ∀ m ∈ ms, o.sees inv m = false) :
    pairAll source target o ms = .ok (ms.map (Pairing.single · o)) := by
  induction ms with
  | nil => rfl
  | cons m rest ih =>
    rw [List.forall_mem_cons] at h
    have hfirst : m.pair source target o = .ok (.single m o) := by
      refine pair_eq_single source target hspan fun ps os hps hos hlength ↦ ?_
      rw [hps, hos, Output.sees, hlength, beq_self_eq_true] at h
      cases h.1
    rw [pairAll, hfirst, ih h.2]
    rfl

end Pattern

namespace Pairing

variable {inv : Inventory} {o : Output}

/-- The patterns of single pairings. -/
theorem patterns_map_single (o : Output) (ms : List Pattern) :
    patterns (ms.map (single · o)) = ms := by
  induction ms with
  | nil => rfl
  | cons m rest ih => rw [List.map_cons, patterns, pattern, ih]

/-- A piece that is paired with a branch has the effect of one that is paired with the whole
alternative, if the output does not see the branch. -/
private theorem effect_eq (hspan : o.ignoresSpan) {m : Pattern} (h : o.sees inv m = false)
    (options : List Pattern) (start : Position) (found : Match) :
    TiledMatch.effect inv ⟨found, [⟨start, found.stop, .alternative options, o⟩]⟩ =
      TiledMatch.effect inv ⟨found, [⟨start, found.stop, m, o⟩]⟩ := by
  simp only [TiledMatch.effect, List.map_cons, List.map_nil, Piece.resolve,
    Output.produce_eq_of_sees_eq_false hspan h options]

private theorem map_effect_alternative {whole : Pattern} {ms : List Pattern} {start : Position}
    (h : ∀ m ∈ ms, ∀ found : Match,
      TiledMatch.effect inv ⟨found, [⟨start, found.stop, whole, o⟩]⟩ =
        TiledMatch.effect inv ⟨found, [⟨start, found.stop, m, o⟩]⟩) (scan : Scan) (b : Bindings) :
    (Finder.alternative (Pattern.finders inv ms) none scan start b).map
        (fun found ↦ TiledMatch.effect inv ⟨found, [⟨start, found.stop, whole, o⟩]⟩) =
      (Tiling.alternative (tilings inv (ms.map (single · o))) none scan start b []).map
        (TiledMatch.effect inv) := by
  induction ms with
  | nil => rfl
  | cons m rest ih =>
    rw [List.forall_mem_cons] at h
    rw [Pattern.finders, Finder.alternative, List.map_cons, tilings, Tiling.alternative,
      Candidates.map, Candidates.map, Candidates.map_append, Candidates.map_append, tiling,
      Tiling.single, Candidates.map_map, ih h.2, funext h.1]
    rfl

/-- One output for an alternative has the effects of the output for every branch, if it sees none
of them. -/
theorem actsLike_branches (hspan : o.ignoresSpan) {ms : List Pattern}
    (h : ∀ m ∈ ms, o.sees inv m = false) :
    (single (.alternative ms) o).ActsLike inv (.alternative (ms.map (single · o))) where
  pattern_eq := by rw [pattern, pattern, patterns_map_single]
  tiling_eq scan start b := by
    rw [tiling, tiling, Pattern.finder, Tiling.single, Candidates.map_map]
    exact map_effect_alternative (fun m hm found ↦ effect_eq hspan (h m hm) ms start found) scan b

/-- Two pairings of an alternative, with one output and with a copy of it for every branch, act
alike if the output is paired with the branches or sees none of them. -/
theorem actsLike_of_pair {source target : String} {ms : List Pattern} {one each : Pairing}
    (halternative : ∀ os, o ≠ .alternative os)
    (hone : (Pattern.alternative ms).pair source target o = .ok one)
    (heach : (Pattern.alternative ms).pair source target
      (.alternative (List.replicate ms.length o)) = .ok each)
    (hsees : o.ignoresSpan → ∀ m ∈ ms, o.sees inv m = false) : one.ActsLike inv each := by
  rw [Pattern.pair_alternative_replicate] at heach
  by_cases hspan : o.ignoresSpan = true
  · have hwhole := Pattern.pair_eq_single source target hspan (p := .alternative ms)
      fun _ _ h ↦ nomatch h
    rw [Pattern.pairAll_eq source target inv hspan (hsees hspan)] at heach
    rw [hwhole] at hone
    cases hone
    cases heach
    exact actsLike_branches hspan (hsees hspan)
  · rw [Pattern.pair_alternative_of_not_ignoresSpan source target hspan halternative] at hone
    rw [hone] at heach
    cases heach
    exact ⟨rfl, fun _ _ _ ↦ rfl⟩

end Pairing

namespace SimpleRule

/-- A rule with one output for an alternative changes every phrase like the rule with a copy of the
output for every branch, whatever else both rules say, unless the output is paired as a whole and
sees a branch. -/
theorem apply_branches {lang : Language} {source target : String} {ms : List Pattern} {o : Output}
    {one each : Pairing} (halternative : ∀ os, o ≠ .alternative os)
    (hone : (Pattern.alternative ms).pair source target o = .ok one)
    (heach : (Pattern.alternative ms).pair source target
      (.alternative (List.replicate ms.length o)) = .ok each)
    (hsees : o.ignoresSpan → ∀ m ∈ ms, o.sees lang.inventory m = false)
    (r : SimpleRule) (e : Expression) (before after : List Expression) (p : Phrase) :
    { r with expressions := before ++ { e with pairing := one } :: after }.apply lang p =
      { r with expressions := before ++ { e with pairing := each } :: after }.apply lang p := by
  have hlike := Pairing.actsLike_of_pair halternative hone heach hsees
  have hsame : ∀ es, List.Forall₂ (Expression.ActsLike lang) es es := fun es ↦
    List.forall₂_same.mpr fun x _ ↦ .refl lang x
  exact apply_eq_of_actsLike
    (List.rel_append (hsame before) (.cons (Expression.actsLike_of_pairing hlike e) (hsame after)))
    r p

/-- Without floating diacritics `{a, o} => e` does with `ao` what `{a, o} => {e, e}` does. -/
theorem apply_branches_ao :
    let seen (c : Char) : Pattern := .symbol ⟨[.literal [c]], none⟩
    let e : Output := .symbol ⟨[.literal ['e']], none⟩
    let lang : Language := { inventory := .empty }
    let p : Phrase := .ofWord ⟨[.literal ['a'], .literal ['o']], none⟩
    let q : Phrase := .ofWord ⟨[.literal ['e'], .literal ['e']], none⟩
    let rule (pairing : Pairing) : SimpleRule :=
      { expressions := [{ pairing, text := "" }], mode := .leftToRight }
    ∃ one each, Pattern.pair "" "" (.alternative [seen 'a', seen 'o']) e = .ok one ∧
      Pattern.pair "" "" (.alternative [seen 'a', seen 'o']) (.alternative [e, e]) = .ok each ∧
      (∀ m ∈ [seen 'a', seen 'o'], e.sees lang.inventory m = false) ∧
      (rule one).apply lang p = .ok (some q) ∧ (rule each).apply lang p = .ok (some q) := by
  intro seen e lang p q rule
  have hone : Pattern.pair "" "" (.alternative [seen 'a', seen 'o']) e =
      .ok (.single (.alternative [seen 'a', seen 'o']) e) := rfl
  have heach : Pattern.pair "" "" (.alternative [seen 'a', seen 'o']) (.alternative [e, e]) =
      .ok (.alternative [.single (seen 'a') e, .single (seen 'o') e]) := rfl
  have hsees : ∀ m ∈ [seen 'a', seen 'o'], e.sees lang.inventory m = false := by decide
  have happly : (rule (.single (.alternative [seen 'a', seen 'o']) e)).apply lang p =
      .ok (some q) := eq_ok_of_toOption (by decide +kernel)
  have hsame : (rule (.single (.alternative [seen 'a', seen 'o']) e)).apply lang p =
      (rule (.alternative [.single (seen 'a') e, .single (seen 'o') e])).apply lang p :=
    apply_branches (by simp [e]) hone heach (fun _ ↦ hsees) (rule default)
      { pairing := default, text := "" } [] [] p
  exact ⟨_, _, hone, heach, hsees, happly, hsame.symm.trans happly⟩

/-- With a floating acute `{a, o} => e` takes it from `á`, and `{a, o} => {e, e}` leaves it. -/
theorem apply_branches_acute :
    let seen (c : Char) : Pattern := .symbol ⟨[.literal [c]], none⟩
    let e : Output := .symbol ⟨[.literal ['e']], none⟩
    let acute : Diacritic := { text := ['\u0301'], matrix := ∅, floating := true }
    let lang : Language := { inventory := { diacritics := [acute] } }
    let p : Phrase := .ofWord ⟨[.literal ['a', '\u0301']], none⟩
    let rule (pairing : Pairing) : SimpleRule := { expressions := [{ pairing, text := "" }] }
    ∃ one each, Pattern.pair "" "" (.alternative [seen 'a', seen 'o']) e = .ok one ∧
      Pattern.pair "" "" (.alternative [seen 'a', seen 'o']) (.alternative [e, e]) = .ok each ∧
      (rule one).apply lang p = .ok (some (.ofWord ⟨[.literal ['e']], none⟩)) ∧
      (rule each).apply lang p = .ok (some (.ofWord ⟨[.literal ['e', '\u0301']], none⟩)) := by
  intro seen e acute lang p rule
  exact ⟨.single (.alternative [seen 'a', seen 'o']) e,
    .alternative [.single (seen 'a') e, .single (seen 'o') e], rfl, rfl,
    eq_ok_of_toOption (by decide +kernel), eq_ok_of_toOption (by decide +kernel)⟩

end SimpleRule

end Diachrony
