import Diachrony.Proofs.Inventory.Ending
import Diachrony.Proofs.Inventory.Overlays
import Diachrony.Proofs.Word.Kept

/-!
# What diacritics leave in a word

Every diacritic that is read marks a place of the word. One in front of a base marks the next
segment, or the syllable that would start with it. One behind a base marks the last segment, or the
start of the current syllable. The segment at a marked place is written with the diacritics of
segments that mark it, and the matrix of a syllable is made by the diacritics of syllables that mark
its start, in the order in which they are read.

A mark can miss its place. A text that ends with a break has no segment for what waits for a base,
and none behind its last break. And no syllable needs to start with a segment that has a diacritic
of syllables in front of it.
-/

namespace Diachrony.Inventory

/-- A diacritic that was read, and the place that it marks. -/
structure Mark where
  /-- The index of a segment, or of the segment with which a syllable starts. -/
  place : Nat
  /-- What was read. -/
  diacritic : Diacritic
deriving DecidableEq

/-- Whether the place of a mark is in a word: a segment, or the start of a syllable. -/
def Mark.HasPlace (inv : Inventory) (m : Mark) (w : Word) : Prop :=
  m.place < w.length ∧ (inv.marksSyllables m.diacritic → w.isSyllableStart m.place)

/-- The diacritics of syllables that mark a place, in order. -/
def onSyllable (inv : Inventory) (marks : List Mark) (place : Nat) : List Diacritic :=
  (marks.filter fun m ↦ m.place = place && inv.marksSyllables m.diacritic).map Mark.diacritic

namespace Reading

/-- The mark that the next round reads. -/
def mark? (inv : Inventory) (syllabify : Bool) (r : Reading) : Option Mark :=
  if r.atBreak syllabify then none
  else match r.before? inv with
    | some d => some ⟨r.segments.length, d⟩
    | none => (r.after? inv).map fun (_, d) ↦
      ⟨if inv.marksSyllables d then r.syllableStart else r.segments.length - 1, d⟩

/-- The marks that are read in a number of rounds. -/
def marks (inv : Inventory) (syllabify : Bool) : Nat → Reading → List Mark
  | 0, _ => []
  | n + 1, r =>
    if r.rest.isEmpty then []
    else (r.mark? inv syllabify).toList ++ marks inv syllabify n (r.round inv syllabify)

/-- The marks that still wait for a base. -/
def waiting (r : Reading) : List Mark := r.pending.map (Mark.mk r.segments.length)

end Reading

/-- The marks that are read from a text. -/
def readMarks (inv : Inventory) (text : List Char) (syllabify : Bool) : List Mark :=
  let text := Unicode.nfd text
  Reading.marks inv syllabify (2 * text.length) { rest := text }

variable {inv : Inventory} {syllabify : Bool}

/-! ### Values that stay -/

section Values

variable {value : String}

private theorem mem_of_foldlM_change {l : List Assertion} {m m' : Matrix}
    (hdeclares : ∀ a ∈ l, ∃ value f, a = .simple value ∧ inv.featureOf? value = some f ∧
      f.nullValue ≠ some value)
    (hkept : ∀ other, .simple other ∈ l → other ≠ value → ¬inv.Replaces other value)
    (h : .simple value ∈ m ∨ .simple value ∈ l) (hm' : l.foldlM inv.change m = .ok m') :
    .simple value ∈ m' := by
  induction l generalizing m with
  | nil =>
    obtain rfl : m = m' := Except.ok.inj hm'
    exact h.resolve_right List.not_mem_nil
  | cons first rest ih =>
    obtain ⟨⟨other, f, rfl, hf, hnull⟩, hrest⟩ := List.forall_mem_cons.mp hdeclares
    obtain ⟨next, hnext, hmem⟩ := exists_of_change hf hnull m
    rw [List.foldlM_cons, hnext] at hm'
    refine ih hrest (fun o ho ↦ hkept o (List.mem_cons_of_mem _ ho)) ?_ hm'
    rw [hmem]
    by_cases hother : other = value
    · exact .inl (.inl (hother ▸ rfl))
    · rcases h with h | h
      · refine .inl (.inr ⟨h, fun v hv hown ↦ ?_⟩)
        cases hv
        exact hkept other List.mem_cons_self hother ⟨f, hf, hown⟩
      · exact .inr ((List.mem_cons.mp h).resolve_left fun heq ↦ hother (by cases heq; rfl))

/-- A value that is there or added stays unless another one of its feature is added. -/
theorem mem_overlay_of_kept {m changes : Matrix} (hdeclares : inv.Declares changes)
    (h : .simple value ∈ m ∨ .simple value ∈ changes)
    (hkept : ∀ other, .simple other ∈ changes → other ≠ value → ¬inv.Replaces other value) :
    .simple value ∈ inv.overlay m changes :=
  mem_of_foldlM_change hdeclares hkept h (changeAll_eq_overlay hdeclares m)

/-- A value that is there or added by one of several diacritics stays unless another one of its
feature is added. -/
theorem mem_overlayAll_of_kept {m : Matrix} {ds : List Diacritic}
    (hdeclares : ∀ d ∈ ds, inv.Declares d.matrix)
    (h : .simple value ∈ m ∨ ∃ d ∈ ds, .simple value ∈ d.matrix)
    (hkept : ∀ d ∈ ds, ∀ other, .simple other ∈ d.matrix → other ≠ value →
      ¬inv.Replaces other value) :
    .simple value ∈ inv.overlayAll m ds := by
  induction ds generalizing m with
  | nil => exact h.resolve_right fun ⟨_, hd, _⟩ ↦ List.not_mem_nil hd
  | cons d rest ih =>
    rw [List.forall_mem_cons] at hdeclares hkept
    refine ih hdeclares.2 ?_ hkept.2
    rcases h with h | ⟨e, he, hvalue⟩
    · exact .inl (mem_overlay_of_kept hdeclares.1 (.inl h) hkept.1)
    · rcases List.mem_cons.mp he with rfl | he
      · exact .inl (mem_overlay_of_kept hdeclares.1 (.inr hvalue) hkept.1)
      · exact .inr ⟨e, he, hvalue⟩

/-- A value that a diacritic adds is there at the end unless another one of its feature is added
with it or later. -/
theorem mem_overlayAll_or_replaced {front behind : List Diacritic} {d : Diacritic}
    (hdeclares : ∀ e ∈ d :: behind, inv.Declares e.matrix) (hvalue : .simple value ∈ d.matrix) :
    .simple value ∈ inv.overlayAll ∅ (front ++ d :: behind) ∨
      ∃ e ∈ d :: behind, ∃ other, .simple other ∈ e.matrix ∧ other ≠ value ∧
        inv.Replaces other value := by
  by_contra! hlost
  obtain ⟨hnone, hkept⟩ := hlost
  rw [overlayAll, List.foldl_append] at hnone
  exact hnone (mem_overlayAll_of_kept hdeclares (.inr ⟨d, List.mem_cons_self, hvalue⟩) hkept)

end Values

/-! ### Marks on syllables -/

theorem onSyllable_append (front behind : List Mark) (i : Nat) :
    onSyllable inv (front ++ behind) i = onSyllable inv front i ++ onSyllable inv behind i := by
  simp only [onSyllable, List.filter_append, List.map_append]

theorem onSyllable_cons {m : Mark} (h : inv.marksSyllables m.diacritic) (behind : List Mark) :
    onSyllable inv (m :: behind) m.place = m.diacritic :: onSyllable inv behind m.place := by
  rw [onSyllable, List.filter_cons_of_pos (by simp [h]), List.map_cons]
  rfl

theorem onSyllable_eq_nil {marks : List Mark} {i : Nat}
    (h : ∀ m ∈ marks, m.place = i → inv.marksSyllables m.diacritic = false) :
    onSyllable inv marks i = [] := by
  rw [onSyllable, List.map_eq_nil_iff, List.filter_eq_nil_iff]
  intro m hm hmark
  rw [Bool.and_eq_true, decide_eq_true_eq] at hmark
  exact Bool.false_ne_true ((h m hm hmark.1).symm.trans hmark.2)

/-- What waits for a base marks the place of the base only. -/
theorem onSyllable_waiting (r : Reading) (i : Nat) : onSyllable inv r.waiting i =
    if i = r.segments.length then r.pending.filter inv.marksSyllables else [] := by
  rw [onSyllable, Reading.waiting]
  induction r.pending with
  | nil => simp
  | cons d rest ih => grind

/-- Adding diacritics to one syllable after the other leaves what they make together. -/
theorem getD_get?_foldl_insert (ds : List Diacritic) (start i : Nat) (ms : SortedMap Nat Matrix) :
    ((ds.foldl (fun ms d ↦ ms.insert start
        (inv.overlay ((ms.get? start).getD ∅) d.matrix)) ms).get? i).getD ∅ =
      inv.overlayAll ((ms.get? i).getD ∅) (if i = start then ds else []) := by
  induction ds generalizing ms with
  | nil => simp [overlayAll]
  | cons d rest ih =>
    rw [List.foldl_cons, ih, SortedMap.get?_insert]
    by_cases h : i = start
    · simp only [h, if_true, Option.getD_some]
      rfl
    · simp only [h, if_false]

/-! ### What marks leave in a reading -/

namespace Reading

variable {r : Reading} {done : List Mark}

/-- Whether a reading keeps its breaks in order. -/
structure Divides (syllabify : Bool) (r : Reading) : Prop where
  /-- The current syllable starts at the start or at a break. -/
  started : r.syllableStart = 0 ∨ r.syllableStart ∈ r.breaks
  /-- Every break stands behind a segment. -/
  behind : ∀ b ∈ r.breaks, 0 < b ∧ b ≤ r.segments.length
  /-- A point is a break only with `syllabify`. -/
  unbroken : syllabify = false → r.breaks = []

/-- A round keeps the breaks in order. -/
theorem Divides.round (h : r.Divides syllabify) : (r.round inv syllabify).Divides syllabify := by
  have hstep := r.steps_round inv syllabify
  generalize r.round inv syllabify = r' at hstep ⊢
  cases hstep with
  | point starts =>
    rw [readBreak]
    dsimp only
    split
    · exact ⟨h.started, h.behind, h.unbroken⟩
    · next hne =>
      have hpos : 0 < r.segments.length := List.length_pos_iff.mpr (by simpa using hne)
      refine ⟨.inr (List.mem_append_right _ List.mem_cons_self), ?_, fun hoff ↦ ?_⟩
      · exact List.forall_mem_append.mpr
          ⟨h.behind, List.forall_mem_singleton.mpr ⟨hpos, Nat.le_refl _⟩⟩
      · rw [atBreak, hoff] at starts
        cases starts
  | before => exact ⟨h.started, h.behind, h.unbroken⟩
  | after _ _ found =>
    refine ⟨?_, ?_, ?_⟩
    · rw [syllableStart_readAfter, breaks_readAfter]
      exact h.started
    · rw [breaks_readAfter, length_segments_readAfter found]
      exact h.behind
    · rw [breaks_readAfter]
      exact h.unbroken
  | core =>
    refine ⟨?_, ?_, ?_⟩
    · rw [syllableStart_readCore, breaks_readCore]
      exact h.started
    · rw [breaks_readCore, length_segments_readCore]
      exact fun b hb ↦ ⟨(h.behind b hb).1, Nat.le_succ_of_le (h.behind b hb).2⟩
    · rw [breaks_readCore]
      exact h.unbroken

/-- Whether what was read stays: the segments with their text, and the breaks. -/
structure Grows (r r' : Reading) : Prop where
  /-- A segment stays, with more text at its end perhaps. -/
  segments : ∀ (i : Nat) (s : Segment), r.segments[i]? = some s →
    ∃ s' : Segment, r'.segments[i]? = some s' ∧ s.symbol <+: s'.symbol
  /-- There are no fewer segments. -/
  length_le : r.segments.length ≤ r'.segments.length
  /-- Breaks stay. -/
  breaks : r.breaks ⊆ r'.breaks

/-- What was read stays where the segments are the same or more. -/
theorem Grows.of_append {r r' : Reading} (more : List Segment)
    (hsegments : r'.segments = r.segments ++ more) (hbreaks : r.breaks ⊆ r'.breaks) :
    r.Grows r' where
  segments i s hs := by
    refine ⟨s, ?_, List.prefix_refl _⟩
    rw [hsegments, List.getElem?_append_left (List.getElem?_eq_some_iff.mp hs).1, hs]
  length_le := by
    rw [hsegments, List.length_append]
    exact Nat.le_add_right _ _
  breaks := hbreaks

/-- A diacritic behind the last segment is written at its end, or leaves the segments. -/
theorem grows_readAfter {last : Segment} {d : Diacritic} (h : r.after? inv = some (last, d)) :
    r.Grows (r.readAfter inv d last) := by
  obtain ⟨init, hsegments⟩ := List.getLast?_eq_some_iff.mp (diacriticAt?_of_after? h).2.1
  rw [readAfter]
  dsimp only
  split
  · exact .of_append [] (List.append_nil _).symm (List.Subset.refl _)
  · refine ⟨fun i s hs ↦ ?_, ?_, List.Subset.refl _⟩
    · rw [hsegments, List.getElem?_append] at hs
      simp only [hsegments, List.dropLast_concat, List.getElem?_append]
      split at hs
      · next hlt => exact ⟨s, by rw [if_pos hlt, hs], List.prefix_refl _⟩
      · next hge =>
        rw [List.getElem?_singleton, Option.ite_none_right_eq_some] at hs
        obtain ⟨hzero, hs⟩ := hs
        cases hs
        exact ⟨_, by rw [if_neg hge, hzero]; rfl, List.prefix_append _ _⟩
    · simp [hsegments]

/-- A base is read behind the segments. -/
theorem grows_readCore (r : Reading) : r.Grows (r.readCore inv) := by
  simp only [readCore, foldl_markSyllable]
  exact .of_append _ rfl (List.Subset.refl _)

/-- A round keeps what was read. -/
theorem grows_round (inv : Inventory) (syllabify : Bool) (r : Reading) :
    r.Grows (r.round inv syllabify) := by
  have hstep := r.steps_round inv syllabify
  generalize r.round inv syllabify = r' at hstep ⊢
  cases hstep with
  | point =>
    refine .of_append [] (by rw [segments_readBreak, List.append_nil]) ?_
    rw [readBreak]
    dsimp only
    split
    · exact List.Subset.refl _
    · exact List.subset_append_left _ _
  | before => exact .of_append [] (List.append_nil _).symm (List.Subset.refl _)
  | after _ _ found => exact grows_readAfter found
  | core => exact grows_readCore r

end Reading

/-- Whether a mark is to be seen in a reading, the matrix of its syllable apart. -/
structure Mark.Lands (inv : Inventory) (r : Reading) (m : Mark) : Prop where
  /-- There is a base. -/
  based : 0 < r.segments.length
  /-- A diacritic of segments is written in the segment that it marks. -/
  written : inv.marksSyllables m.diacritic = false →
    ∃ s, r.segments[m.place]? = some s ∧ m.diacritic.text <:+: s.symbol
  /-- What stands in front of a base marks the base. -/
  led : m.diacritic.placement = .before → m.place < r.segments.length
  /-- A diacritic of syllables behind a base marks the start of a syllable. -/
  trailed : m.diacritic.placement = .after → inv.marksSyllables m.diacritic →
    m.place = 0 ∨ m.place ∈ r.breaks

/-- A mark that is to be seen stays so. -/
theorem Mark.Lands.grow {r r' : Reading} {m : Mark} (h : m.Lands inv r) (hgrows : r.Grows r') :
    m.Lands inv r' where
  based := Nat.lt_of_lt_of_le h.based hgrows.length_le
  written hsegment := by
    obtain ⟨s, hs, htext⟩ := h.written hsegment
    obtain ⟨s', hs', hprefix⟩ := hgrows.segments _ s hs
    exact ⟨s', hs', htext.trans hprefix.isInfix⟩
  led hplaced := Nat.lt_of_lt_of_le (h.led hplaced) hgrows.length_le
  trailed hplaced hmarks := (h.trailed hplaced hmarks).imp_right (hgrows.breaks ·)

namespace Reading

variable {r : Reading} {done : List Mark}

/-- What marks whose base was read leave in a reading. -/
structure Shows (inv : Inventory) (done : List Mark) (r : Reading) : Prop where
  /-- All are to be seen. -/
  lands : ∀ m ∈ done, m.Lands inv r
  /-- The matrix of a syllable is made by the diacritics that mark its start. -/
  matrices : ∀ i, (r.modifiers.get? i).getD ∅ = inv.overlayAll ∅ (onSyllable inv done i)

/-- More marks are shown where they are to be seen and their values were added. -/
theorem Shows.append {r' : Reading} {more : List Mark} (h : r.Shows inv done)
    (hgrows : r.Grows r') (hlands : ∀ m ∈ more, m.Lands inv r')
    (hmatrices : ∀ i, (r'.modifiers.get? i).getD ∅ =
      inv.overlayAll ((r.modifiers.get? i).getD ∅) (onSyllable inv more i)) :
    r'.Shows inv (done ++ more) where
  lands := List.forall_mem_append.mpr ⟨fun m hm ↦ (h.lands m hm).grow hgrows, hlands⟩
  matrices i := by
    rw [hmatrices, h.matrices, onSyllable_append, overlayAll, overlayAll, overlayAll,
      List.foldl_append]

/-- What is shown stays so where the matrices are the same. -/
theorem Shows.of_eq {r' : Reading} (h : r.Shows inv done) (hgrows : r.Grows r')
    (hmodifiers : r'.modifiers = r.modifiers) : r'.Shows inv done where
  lands m hm := (h.lands m hm).grow hgrows
  matrices := hmodifiers ▸ h.matrices

/-- A diacritic behind the last segment leaves its mark on this segment or its syllable. -/
theorem Shows.readAfter (h : r.Shows inv done) (hdivides : r.Divides syllabify) {last : Segment}
    {d : Diacritic} (found : r.after? inv = some (last, d)) :
    (r.readAfter inv d last).Shows inv (done ++
      [⟨if inv.marksSyllables d then r.syllableStart else r.segments.length - 1, d⟩]) := by
  obtain ⟨-, hlast, hd⟩ := diacriticAt?_of_after? found
  have hplaced : d.placement = .after := (diacriticAt?_eq_some hd).2.1
  refine h.append (grows_readAfter found) (List.forall_mem_singleton.mpr ⟨?_, fun hsegment ↦ ?_,
    fun hbefore ↦ ?_, fun _ hmarks ↦ ?_⟩) fun i ↦ ?_
  · rw [length_segments_readAfter found, List.length_pos_iff]
    rintro hnil
    rw [hnil] at hlast
    cases hlast
  · refine ⟨⟨last.symbol ++ d.text, inv.overlay last.matrix d.matrix⟩, ?_,
      (List.suffix_append _ _).isInfix⟩
    rw [Reading.readAfter]
    simp only [hsegment, Bool.false_eq_true, if_false]
    rw [← List.length_dropLast]
    exact List.getElem?_concat_length
  · rw [hplaced] at hbefore
    cases hbefore
  · rw [Reading.readAfter]
    simp only [hmarks, if_true]
    exact hdivides.started
  · rw [Reading.readAfter]
    dsimp only
    split
    · next hmarks =>
      rw [markSyllable, SortedMap.get?_insert]
      by_cases hi : i = r.syllableStart
      · subst hi
        rw [if_pos rfl, onSyllable_cons hmarks]
        rfl
      · rw [if_neg hi,
          onSyllable_eq_nil (List.forall_mem_singleton.mpr fun heq ↦ (hi heq.symm).elim)]
        rfl
    · next hmarks =>
      rw [onSyllable_eq_nil (List.forall_mem_singleton.mpr fun _ ↦ Bool.eq_false_iff.mpr hmarks)]
      rfl

/-- A base leaves the marks of all that waited for it. -/
theorem Shows.readCore (h : r.Shows inv done) (hwaits : ∀ d ∈ r.pending, d.placement = .before) :
    (r.readCore inv).Shows inv (done ++ r.waiting) := by
  have hlt : r.segments.length < (r.readCore inv).segments.length := by
    rw [length_segments_readCore]
    exact Nat.lt_succ_self _
  refine h.append (grows_readCore r) (fun m hm ↦ ?_) fun i ↦ ?_
  · obtain ⟨d, hd, rfl⟩ := List.mem_map.mp hm
    refine ⟨Nat.zero_lt_of_lt hlt, fun hsegment ↦ ?_, fun _ ↦ hlt, fun hafter ↦ ?_⟩
    · simp only [Reading.readCore, foldl_markSyllable, List.partition_eq_filter_filter]
      refine ⟨_, List.getElem?_concat_length, ?_⟩
      have hmem : d ∈ r.pending.filter (not ∘ inv.marksSyllables) := by simp [hd, hsegment]
      have htext := List.infix_of_mem_flatten (List.mem_map_of_mem (f := Diacritic.text) hmem)
      exact htext.trans (List.prefix_append _ _).isInfix
    · rw [hwaits d hd] at hafter
      cases hafter
  · simp only [Reading.readCore, foldl_markSyllable, List.partition_eq_filter_filter]
    rw [getD_get?_foldl_insert, onSyllable_waiting]

/-- What the marks that were read leave in a reading: the last ones may wait for a base, the others
are shown. -/
structure Tells (inv : Inventory) (marks : List Mark) (r : Reading) : Prop where
  /-- Only diacritics in front of a base wait for it. -/
  waits : ∀ d ∈ r.pending, d.placement = .before
  /-- All others are shown. -/
  shown : ∃ done, marks = done ++ r.waiting ∧ r.Shows inv done

/-- A round reads a mark at most. -/
theorem Tells.round {marks : List Mark} (h : r.Tells inv marks) (hdivides : r.Divides syllabify) :
    (r.round inv syllabify).Tells inv (marks ++ (r.mark? inv syllabify).toList) := by
  obtain ⟨hwaits, done, rfl, hshows⟩ := h
  have hgrows := r.grows_round inv syllabify
  have hstep := r.steps_round inv syllabify
  generalize r.round inv syllabify = r' at hgrows hstep ⊢
  cases hstep with
  | point starts =>
    have hnone : r.mark? inv syllabify = none := by rw [mark?, if_pos starts]
    refine ⟨r.pending_readBreak ▸ hwaits, done, ?_, hshows.of_eq hgrows r.modifiers_readBreak⟩
    rw [hnone, Option.toList_none, List.append_nil, waiting, waiting, segments_readBreak,
      pending_readBreak]
  | @before d clear found =>
    have hmark : r.mark? inv syllabify = some ⟨r.segments.length, d⟩ := by
      simp only [mark?, clear, found, Bool.false_eq_true, if_false]
    have hplaced := (diacriticAt?_eq_some (Option.filter_eq_some_iff.mp found).1).2.1
    refine ⟨List.forall_mem_append.mpr ⟨hwaits, List.forall_mem_singleton.mpr hplaced⟩, done, ?_,
      hshows.of_eq hgrows rfl⟩
    rw [hmark, waiting, waiting, List.map_append, List.append_assoc]
    rfl
  | @after last d clear unled found =>
    have hmark : r.mark? inv syllabify = some
        ⟨if inv.marksSyllables d then r.syllableStart else r.segments.length - 1, d⟩ := by
      simp only [mark?, clear, unled, found, Bool.false_eq_true, if_false, Option.map_some]
    have hempty := (diacriticAt?_of_after? found).1
    have hpending : (r.readAfter inv d last).pending = [] :=
      (pending_readAfter d last r).trans hempty
    refine ⟨hpending ▸ List.forall_mem_nil _, _, ?_, hshows.readAfter hdivides found⟩
    simp only [hmark, waiting, hempty, hpending, List.map_nil, List.append_nil, Option.toList_some]
  | core clear unled bare =>
    have hnone : r.mark? inv syllabify = none := by
      simp only [mark?, clear, unled, bare, Bool.false_eq_true, if_false, Option.map_none]
    refine ⟨List.forall_mem_nil _, _, ?_, hshows.readCore hwaits⟩
    simp only [hnone, waiting, pending_readCore, List.map_nil, List.append_nil, Option.toList_none]

/-- Rounds read marks one after the other. -/
theorem Tells.rounds {marks : List Mark} (h : r.Tells inv marks) (hdivides : r.Divides syllabify)
    (n : Nat) : (rounds inv syllabify n r).Tells inv (marks ++ Reading.marks inv syllabify n r) ∧
      (rounds inv syllabify n r).Divides syllabify := by
  induction n generalizing r marks with
  | zero =>
    rw [Reading.marks, List.append_nil]
    exact ⟨h, hdivides⟩
  | succ n ih =>
    rw [Reading.rounds, Reading.marks]
    split
    · rw [List.append_nil]
      exact ⟨h, hdivides⟩
    · rw [← List.append_assoc]
      exact ih (h.round hdivides) hdivides.round

/-- Reading starts with nothing. -/
theorem tells_start (inv : Inventory) (text : List Char) : Tells inv [] { rest := text } where
  waits := List.forall_mem_nil _
  shown := ⟨[], rfl, List.forall_mem_nil _, fun _ ↦ rfl⟩

theorem divides_start (syllabify : Bool) (text : List Char) : Divides syllabify { rest := text } :=
  ⟨.inl rfl, List.forall_mem_nil _, fun _ ↦ rfl⟩

/-- A round that reads a mark reads the text of a declared diacritic. -/
theorem mark?_eq_some {m : Mark} (h : r.mark? inv syllabify = some m) :
    m.diacritic ∈ inv.diacritics ∧
      m.diacritic.text ++ (r.round inv syllabify).rest = r.rest := by
  have htext {placement : Placement} {d : Diacritic}
      (hd : inv.diacriticAt? placement r.rest = some d) :
      d ∈ inv.diacritics ∧ d.text ++ r.rest.drop d.text.length = r.rest := by
    obtain ⟨hmem, -, -, rest, hrest⟩ := diacriticAt?_eq_some hd
    exact ⟨hmem, by rw [← hrest, List.drop_left]⟩
  have hstep := r.steps_round inv syllabify
  generalize r.round inv syllabify = r' at hstep ⊢
  cases hstep with
  | point starts =>
    rw [mark?, if_pos starts] at h
    cases h
  | before clear found =>
    simp only [mark?, clear, found, Bool.false_eq_true, if_false] at h
    cases h
    exact htext (Option.filter_eq_some_iff.mp found).1
  | after clear unled found =>
    simp only [mark?, clear, unled, found, Bool.false_eq_true, if_false, Option.map_some] at h
    cases h
    rw [rest_readAfter]
    exact htext (diacriticAt?_of_after? found).2.2
  | core clear unled bare =>
    simp only [mark?, clear, unled, bare, Bool.false_eq_true, if_false, Option.map_none] at h
    cases h

/-- Only declared diacritics are read. -/
theorem mem_diacritics_of_mem_marks {n : Nat} {m : Mark} (h : m ∈ marks inv syllabify n r) :
    m.diacritic ∈ inv.diacritics := by
  induction n generalizing r with
  | zero => cases h
  | succ n ih =>
    rw [marks] at h
    split at h
    · cases h
    · exact (List.mem_append.mp h).elim
        (fun h ↦ (mark?_eq_some (Option.mem_toList.mp h)).1) ih

/-! ### The end of a text -/

/-- A round leaves a part of the rest. -/
theorem exists_rest_round (inv : Inventory) (syllabify : Bool) (r : Reading) :
    ∃ k, (r.round inv syllabify).rest = r.rest.drop k := by
  have hstep := r.steps_round inv syllabify
  generalize r.round inv syllabify = r' at hstep ⊢
  cases hstep with
  | point => exact ⟨_, rest_readBreak r⟩
  | before => exact ⟨_, rfl⟩
  | after => exact ⟨_, rest_readAfter _ _ r⟩
  | core => exact ⟨_, rest_readCore r⟩

/-- After a round only a break can be what ends the text behind a diacritic that waits. -/
theorem pending_round (hpending : (r.round inv syllabify).pending ≠ []) :
    (r.round inv syllabify).rest ≠ [] ∨ syllabify ∧ r.rest.getLast? = some '.' := by
  have hstep := r.steps_round inv syllabify
  generalize r.round inv syllabify = r' at hstep hpending ⊢
  cases hstep with
  | point starts =>
    obtain ⟨hon, hhead⟩ := (Bool.and_eq_true _ _).mp starts
    obtain ⟨rest, hrest⟩ : ∃ rest, r.rest = '.' :: rest := by
      cases hr : r.rest with
      | nil => simp [hr] at hhead
      | cons c rest => simpa [hr] using hhead
    rw [rest_readBreak, hrest]
    cases rest with
    | nil => exact .inr ⟨hon, rfl⟩
    | cons c rest => exact .inl (List.cons_ne_nil _ _)
  | before _ found =>
    have hlt : _ < _ := of_decide_eq_true (Option.filter_eq_some_iff.mp found).2
    refine .inl fun hnil ↦ ?_
    have := List.drop_eq_nil_iff.mp hnil
    omega
  | @after last d _ _ found =>
    rw [pending_readAfter] at hpending
    exact (hpending (diacriticAt?_of_after? found).1).elim
  | core => exact (hpending (pending_readCore r)).elim

/-- What waits for a base at the end of a text has a break behind it that ends the text. -/
theorem pending_rounds (h : r.pending ≠ [] → r.rest ≠ []) {n : Nat}
    (hend : (rounds inv syllabify n r).rest = [])
    (hpending : (rounds inv syllabify n r).pending ≠ []) :
    syllabify ∧ r.rest.getLast? = some '.' := by
  induction n generalizing r with
  | zero => exact (h hpending hend).elim
  | succ n ih =>
    by_cases hne : r.rest = []
    · rw [rounds_of_rest_eq_nil hne] at hpending
      exact (h hpending hne).elim
    rw [rounds_succ hne] at hend hpending
    by_cases hnext : (r.round inv syllabify).pending ≠ [] →
        (r.round inv syllabify).rest ≠ []
    · obtain ⟨hon, hlast⟩ := ih hnext hend hpending
      obtain ⟨k, hk⟩ := r.exists_rest_round inv syllabify
      rw [hk, List.getLast?_drop] at hlast
      split at hlast
      · cases hlast
      · exact ⟨hon, hlast⟩
    · rw [Classical.not_imp, not_not] at hnext
      exact (pending_round hnext.1).resolve_left fun hne ↦ hne hnext.2

/-! ### The word -/

private theorem toWord_eq (syllabify : Bool) (r : Reading) :
    r.toWord syllabify = ((⟨r.segments, none⟩ : Word).divided
        (.ofBreaks r.breaks r.modifiers)).normalized ∨
      syllabify = false ∧ (∀ i, r.modifiers.get? i = none) ∧
        r.toWord syllabify = ⟨r.segments, none⟩ := by
  rw [toWord]
  split
  · exact .inl rfl
  · next h =>
    obtain ⟨hoff, hempty⟩ : syllabify = false ∧ r.modifiers.isEmpty := by simpa using h
    refine .inr ⟨hoff, fun i ↦ ?_, rfl⟩
    rw [SortedMap.get?, List.isEmpty_iff.mp hempty]
    rfl

/-- A break of the word is one that was read inside of it. -/
theorem isBreak_toWord (h : r.Divides syllabify) {i : Nat} :
    (r.toWord syllabify).isBreak i ↔ i < r.segments.length ∧ i ∈ r.breaks := by
  rcases r.toWord_eq syllabify with heq | ⟨hoff, -, heq⟩
  · rw [heq, Word.isBreak_normalized, Word.isBreak_iff]
    have hmem : i ∈ SortedSet.ofList r.breaks ↔ i ∈ r.breaks := SortedSet.mem_ofList
    exact ⟨fun ⟨_, hlt, hi⟩ ↦ ⟨hlt, hmem.mp hi⟩,
      fun ⟨hlt, hi⟩ ↦ ⟨(h.behind i hi).1, hlt, hmem.mpr hi⟩⟩
  · rw [heq, Word.isBreak_iff, h.unbroken hoff]
    simp [Word.division, Division.empty]

/-- The matrix of a syllable of the word is the one that was read for its start. -/
theorem syllableMatrix_toWord {i : Nat} (hlt : i < r.segments.length)
    (hstart : (r.toWord syllabify).isSyllableStart i) :
    (r.toWord syllabify).syllableMatrix i = (r.modifiers.get? i).getD ∅ := by
  rcases r.toWord_eq syllabify with heq | ⟨-, hnone, heq⟩
  · rw [heq] at hstart ⊢
    have hstart : ((⟨r.segments, none⟩ : Word).divided
        (.ofBreaks r.breaks r.modifiers)).isSyllableStart i := by
      rw [Word.isSyllableStart_iff] at hstart ⊢
      rwa [Word.isBreak_normalized] at hstart
    exact Word.syllableMatrix_normalized_of_isSyllableStart hlt hstart
  · rw [heq, hnone]
    rfl

/-- The word notes a matrix only where a syllable starts that has one. -/
theorem get?_modifiers_toWord {i : Nat}
    (h : (r.toWord syllabify).isSyllableStart i → (r.modifiers.get? i).getD ∅ = ∅) :
    (r.toWord syllabify).division.modifiers.get? i = none := by
  rcases r.toWord_eq syllabify with heq | ⟨-, -, heq⟩
  · rw [heq] at h ⊢
    rw [Option.eq_none_iff_forall_ne_some]
    intro m hm
    obtain ⟨hnoted, hne, hstart⟩ := Word.get?_modifiers_normalized.mp hm
    have hnoted : r.modifiers.get? i = some m := hnoted
    rw [← Word.isBreak_normalized, ← Word.isSyllableStart_iff] at hstart
    have hempty := h hstart
    rw [hnoted] at hempty
    exact hne hempty
  · rw [heq]
    rfl

/-- A mark is to be seen, or stands behind the last segment and waits for a base. -/
theorem Tells.lands_or_waits {marks : List Mark} (h : r.Tells inv marks) {m : Mark}
    (hm : m ∈ marks) : m.Lands inv r ∨ m.place = r.segments.length ∧ r.pending ≠ [] ∧
      m.diacritic.placement = .before := by
  obtain ⟨done, rfl, hshows⟩ := h.shown
  refine (List.mem_append.mp hm).imp (hshows.lands m) fun hm ↦ ?_
  obtain ⟨d, hd, rfl⟩ := List.mem_map.mp hm
  exact ⟨rfl, List.ne_nil_of_mem hd, h.waits d hd⟩

/-- The matrix of a syllable is made by all that marks its start if it has a segment. -/
theorem Tells.matrices {marks : List Mark} (h : r.Tells inv marks) {i : Nat}
    (hlt : i < r.segments.length) :
    (r.modifiers.get? i).getD ∅ = inv.overlayAll ∅ (onSyllable inv marks i) := by
  obtain ⟨done, rfl, hshows⟩ := h.shown
  rw [hshows.matrices, onSyllable_append, onSyllable_waiting, if_neg (Nat.ne_of_lt hlt),
    List.append_nil]

/-- Without segments there are no matrices. -/
theorem Tells.matrices_of_nil {marks : List Mark} (h : r.Tells inv marks)
    (hnil : r.segments.length = 0) (i : Nat) : (r.modifiers.get? i).getD ∅ = ∅ := by
  obtain ⟨done, -, hshows⟩ := h.shown
  cases done with
  | nil => exact hshows.matrices i
  | cons m rest =>
    have := (hshows.lands m List.mem_cons_self).based
    omega

end Reading

/-- What stands behind a base has its place unless it is a diacritic of syllables behind a break
that ends the word. -/
theorem Mark.Lands.hasPlace_of_after {r : Reading} {m : Mark} (h : m.Lands inv r)
    (hdivides : r.Divides syllabify) (hplaced : m.diacritic.placement = .after) :
    m.HasPlace inv (r.toWord syllabify) ∨
      m.place = r.segments.length ∧ syllabify ∧ inv.marksSyllables m.diacritic := by
  rw [HasPlace, Word.length, Reading.segments_toWord]
  cases hmarks : inv.marksSyllables m.diacritic with
  | false =>
    obtain ⟨s, hs, -⟩ := h.written hmarks
    exact .inl ⟨(List.getElem?_eq_some_iff.mp hs).1, fun h ↦ (Bool.false_ne_true h).elim⟩
  | true =>
    rcases h.trailed hplaced hmarks with hzero | hbreak
    · exact .inl ⟨hzero ▸ h.based, fun _ ↦ Word.isSyllableStart_iff.mpr (.inl hzero)⟩
    · rcases Nat.lt_or_eq_of_le (hdivides.behind _ hbreak).2 with hlt | hend
      · refine .inl ⟨hlt, fun _ ↦ Word.isSyllableStart_iff.mpr (.inr ?_)⟩
        exact (Reading.isBreak_toWord hdivides).mpr ⟨hlt, hbreak⟩
      · refine .inr ⟨hend, ?_, rfl⟩
        by_contra hoff
        rw [hdivides.unbroken (Bool.eq_false_iff.mpr hoff)] at hbreak
        cases hbreak

/-- A mark without a place in the word stands in front of a segment or behind the last one. There it
waits for a base, or it stands behind a break. -/
theorem Reading.Tells.misplaced {r : Reading} {marks : List Mark} (h : r.Tells inv marks)
    (hdivides : r.Divides syllabify) {m : Mark} (hm : m ∈ marks)
    (hnot : ¬m.HasPlace inv (r.toWord syllabify)) :
    m.place < r.segments.length ∧ m.diacritic.placement = .before ∨
      m.place = r.segments.length ∧ (r.pending ≠ [] ∧ m.diacritic.placement = .before ∨
        syllabify ∧ m.diacritic.placement = .after ∧ inv.marksSyllables m.diacritic) := by
  rcases h.lands_or_waits hm with hlands | ⟨hend, hwaits⟩
  · cases hplaced : m.diacritic.placement with
    | before => exact .inl ⟨hlands.led hplaced, rfl⟩
    | after =>
      obtain ⟨hend, hon, hmarks⟩ := (hlands.hasPlace_of_after hdivides hplaced).resolve_left hnot
      exact .inr ⟨hend, .inr ⟨hon, rfl, hmarks⟩⟩
  · exact .inr ⟨hend, .inl hwaits⟩

/-- Nothing is noted for a mark without a place. -/
theorem Reading.Tells.get?_modifiers_eq_none {r : Reading} {marks : List Mark}
    (h : r.Tells inv marks) {m : Mark}
    (hnot : ¬m.HasPlace inv (r.toWord syllabify)) :
    (r.toWord syllabify).division.modifiers.get? m.place = none := by
  refine get?_modifiers_toWord fun hstart ↦ h.matrices_of_nil ?_ _
  have hlength : (r.toWord syllabify).length = r.segments.length := by
    rw [Word.length, segments_toWord]
  have hge : (r.toWord syllabify).length ≤ m.place :=
    Nat.le_of_not_lt fun hlt ↦ hnot ⟨hlt, fun _ ↦ hstart⟩
  rcases Word.isSyllableStart_iff.mp hstart with hzero | hbreak
  · omega
  · have := (Word.lt_length_of_isBreak hbreak).2
    omega

/-- A text is read to its end where every symbol has text. What waits for a base there has a break
behind it that ends the text. -/
theorem exists_reading (htext : ∀ s ∈ inv.symbols, s.text ≠ []) (text : List Char)
    (syllabify : Bool) : ∃ r : Reading,
      inv.readWord text syllabify = r.toWord syllabify ∧
      r.Tells inv (inv.readMarks text syllabify) ∧ r.Divides syllabify ∧
      (r.pending ≠ [] → syllabify ∧ (Unicode.nfd text).getLast? = some '.') := by
  have hbusy (r : Reading) : ¬r.IsIdle inv syllabify := by
    intro hidle
    obtain ⟨s, hs, hempty⟩ := hidle.declared.1
    exact htext s hs hempty
  let start : Reading := { rest := Unicode.nfd text }
  obtain ⟨n, hn, hend⟩ := Reading.exists_rounds_of_busy hbusy start
  have hlast := Reading.rounds_of_le hend (by omega : n ≤ 2 * start.rest.length)
  rw [← hlast] at hend
  obtain ⟨htells, hdivides⟩ := (Reading.tells_start inv start.rest).rounds
    (Reading.divides_start syllabify start.rest) (2 * start.rest.length)
  exact ⟨_, readWord_of_ends hend, htells, hdivides,
    Reading.pending_rounds (fun h ↦ (h rfl).elim) hend⟩

/-- Every diacritic that is read marks a place of the word. If the word has this place, a diacritic
of segments is written in the segment there, and the values of a diacritic of syllables are in the
matrix of the syllable there, unless another value of the same feature was added with it or later:
the matrix is what the diacritics that mark its start make, one after the other. If the word does
not have the place, nothing is noted there. This happens with a diacritic of syllables in front of a
segment at which no syllable starts, with one in front of a base that is missing because a break
ends the text, and with one of syllables behind such a break. -/
theorem readWord_marked {features : List Feature} {symbols : List Symbol}
    {diacritics : List Diacritic} {inv : Inventory}
    (hbuild : build features symbols diacritics = .ok inv)
    (htext : ∀ s ∈ inv.symbols, s.text ≠ []) (text : List Char) (syllabify : Bool) :
    let word := inv.readWord text syllabify
    let marks := inv.readMarks text syllabify
    (∀ m ∈ marks, m.HasPlace inv word → inv.marksSyllables m.diacritic = false →
      ∃ s, word.get? m.place = some s ∧ m.diacritic.text <:+: s.symbol) ∧
    (∀ i < word.length, word.isSyllableStart i →
      word.syllableMatrix i = inv.overlayAll ∅ (onSyllable inv marks i)) ∧
    (∀ front m behind, marks = front ++ m :: behind → m.HasPlace inv word →
      inv.marksSyllables m.diacritic → ∀ value, .simple value ∈ m.diacritic.matrix →
        .simple value ∈ word.syllableMatrix m.place ∨
          ∃ d ∈ m.diacritic :: onSyllable inv behind m.place, ∃ other,
            .simple other ∈ d.matrix ∧ other ≠ value ∧ inv.Replaces other value) ∧
    ∀ m ∈ marks, ¬m.HasPlace inv word →
      word.division.modifiers.get? m.place = none ∧
      (m.place < word.length ∧ m.diacritic.placement = .before ∨
        m.place = word.length ∧ syllabify ∧
          (m.diacritic.placement = .before ∧ (Unicode.nfd text).getLast? = some '.' ∨
            m.diacritic.placement = .after ∧ inv.marksSyllables m.diacritic)) := by
  intro word marks
  obtain ⟨r, hword, htells, hdivides, hpending⟩ := exists_reading htext text syllabify
  have hword : word = r.toWord syllabify := hword
  have hlength : word.length = r.segments.length := by
    rw [hword, Word.length, Reading.segments_toWord]
  have hmatrix : ∀ i < word.length, word.isSyllableStart i →
      word.syllableMatrix i = inv.overlayAll ∅ (onSyllable inv marks i) := by
    intro i hi hstart
    rw [hword] at hstart ⊢
    rw [hlength] at hi
    rw [Reading.syllableMatrix_toWord hi hstart, htells.matrices hi]
  refine ⟨fun m hm hplace hsegment ↦ ?_, hmatrix,
    fun front m behind hsplit hplace hmarks value hvalue ↦ ?_, fun m hm hnot ↦ ⟨?_, ?_⟩⟩
  · rcases htells.lands_or_waits hm with hlands | ⟨hend, -⟩
    · rw [hword, Word.get?, Reading.segments_toWord]
      exact hlands.written hsegment
    · exact (Nat.ne_of_lt (hlength ▸ hplace.1) hend).elim
  · rw [hmatrix _ hplace.1 (hplace.2 hmarks), hsplit, onSyllable_append, onSyllable_cons hmarks]
    refine mem_overlayAll_or_replaced (fun d hd ↦ ?_) hvalue
    rw [← onSyllable_cons hmarks] at hd
    obtain ⟨e, he, rfl⟩ := List.mem_map.mp hd
    have hread : e ∈ marks :=
      hsplit ▸ List.mem_append_right front (List.mem_of_mem_filter he)
    exact (isBuilt_of_build hbuild).diacritic_declares _
      (Reading.mem_diacritics_of_mem_marks hread)
  · rw [hword] at hnot ⊢
    exact htells.get?_modifiers_eq_none hnot
  · rw [hword] at hnot
    rw [hlength]
    refine (htells.misplaced hdivides hm hnot).imp_right (And.imp_right fun hcause ↦ ?_)
    rcases hcause with ⟨hwaits, hbefore⟩ | ⟨hon, hafter, hmarks⟩
    · obtain ⟨hon, hlast⟩ := hpending hwaits
      exact ⟨hon, .inl ⟨hbefore, hlast⟩⟩
    · exact ⟨hon, .inr ⟨hafter, hmarks⟩⟩

/-- An inventory is what it declares. -/
private theorem eq_declared (inv : Inventory) : inv =
    { features := inv.features, symbols := inv.symbols, diacritics := inv.diacritics } := by
  obtain ⟨_, _, _, _, rfl⟩ := inv
  rfl

/-- In `pa.ˈta` the stress marks the second syllable and is in the matrix of it. -/
theorem readWord_marked_stress :
    let stress : Diacritic := ⟨['ˈ'], .ofValues ["stressed"], .before, false⟩
    let text := ['p', 'a', '.', 'ˈ', 't', 'a']
    ∃ inv, build [⟨"Stress", ["stressed"], none, .syllable⟩]
        [⟨['p'], ∅⟩, ⟨['t'], ∅⟩, ⟨['a'], ∅⟩] [stress] = .ok inv ∧
      (∀ s ∈ inv.symbols, s.text ≠ []) ∧ inv.readMarks text true = [⟨2, stress⟩] ∧
      Mark.HasPlace inv ⟨2, stress⟩ (inv.readWord text true) ∧
      .simple "stressed" ∈ (inv.readWord text true).syllableMatrix 2 := by
  intro stress text
  let inv : Inventory := {
    features := [⟨"Stress", ["stressed"], none, .syllable⟩]
    symbols := [⟨['p'], ∅⟩, ⟨['t'], ∅⟩, ⟨['a'], ∅⟩]
    diacritics := [stress]
    parseOrder := [⟨['p'], ∅⟩, ⟨['t'], ∅⟩, ⟨['a'], ∅⟩]
    parseOrder_eq := (List.mergeSort_of_pairwise (by decide)).symm }
  have hbuild : build inv.features inv.symbols inv.diacritics = .ok inv := by
    rw [eq_declared inv]
    rfl
  have htext : ∀ s ∈ inv.symbols, s.text ≠ [] := by decide
  have hmarks : inv.readMarks text true = [⟨2, stress⟩] := by decide +kernel
  have hplace : Mark.HasPlace inv ⟨2, stress⟩ (inv.readWord text true) :=
    ⟨by decide +kernel, fun _ ↦ by decide +kernel⟩
  obtain ⟨-, -, hkept, -⟩ := readWord_marked hbuild htext text true
  refine ⟨inv, hbuild, htext, hmarks, hplace, ?_⟩
  refine (hkept [] ⟨2, stress⟩ [] hmarks hplace (by decide +kernel) "stressed"
    (by decide +kernel)).resolve_right ?_
  rintro ⟨d, hd, other, hother, hne, -⟩
  obtain rfl : d = stress := List.mem_singleton.mp hd
  have hvalues : stress.matrix.toList = [.simple "stressed"] := by decide +kernel
  rw [SortedSet.mem_iff, hvalues, List.mem_singleton] at hother
  exact hne (Assertion.simple.inj hother)

end Diachrony.Inventory
