import Diachrony.Proofs.Change.Products
import Diachrony.Proofs.Change.Splice
import Diachrony.Proofs.Phrase.Joining
import Diachrony.Proofs.Phrase.Segments

/-!
# Where an edit leaves its traces

A single edit is spliced into a phrase. The text in front of it stays as long as it was, and so does
the text behind it, so counted from its start or from its end the phrase has as many positions
before and after. This is what bounds rules that make one edit after another.
-/

namespace Diachrony

namespace Phrase

variable {p q : Phrase}

/-- Phrases whose words have the same lengths have as many positions. -/
theorem size_congr (h : p.lengths = q.lengths) : p.size = q.size := by
  rw [size, h, size]

/-- Phrases whose words have the same lengths have as many positions before a position. -/
theorem offset_congr (h : p.lengths = q.lengths) (i : Position) : p.offset i = q.offset i := by
  rw [offset, h, offset]

/-- A word without segments leaves the end of a phrase. -/
theorem stop_append_ofWord (p : Phrase) {w : Word} (hw : w.length = 0) :
    (p ++ ofWord w).stop = p.stop := by
  obtain ⟨front, v, hp⟩ := p.exists_words_eq_concat
  have hlength : (v ++ w).length = v.length + w.length := Word.length_append v w
  rw [stop_of_words hp, stop_of_words (words_append hp rfl), hlength, hw, Nat.add_zero]

section Changing

variable {allowed : Fault → Prop} (hmistake : ∀ fault : Fault, fault.isMistake → allowed fault)
include hmistake

private theorem changeSyllablesM_ensures (inv : Inventory) (w : Word) (start stop : Nat)
    (changes : Matrix) : Ensures (fun v ↦ v.segments = w.segments) allowed
      (w.changeSyllablesM start stop (inv.changeAll · changes)) := by
  rw [Word.changeSyllablesM]
  have hmodifiers : Ensures (fun _ ↦ True) allowed
      ((w.syllableStarts.filter (w.syllableOverlaps start stop)).foldlM (fun modifiers syllable ↦ do
        return modifiers.insert syllable
          (← inv.changeAll ((modifiers.get? syllable).getD ∅) changes)) w.division.modifiers) :=
    .foldlM trivial fun syllable _ modifiers _ ↦
      (inv.changeAll_ensures hmistake _ changes).bind fun _ _ ↦ .ok trivial
  exact hmodifiers.bind fun modifiers _ ↦ .ok rfl

/-- Changing syllables leaves the segments of words. -/
theorem changeSyllablesIn_ensures (inv : Inventory) (p : Phrase) (start stop : Position)
    (changes : Matrix) : Ensures (fun q ↦ q.spelling = p.spelling) allowed
      (p.changeSyllablesIn inv start stop changes) := by
  rw [changeSyllablesIn]
  have hword : ∀ a ∈ p.words.zipIdx, Ensures (fun v ↦ v.segments = a.1.segments) allowed
      (if start.word ≤ a.2 ∧ a.2 ≤ stop.word then
        a.1.changeSyllablesM (if a.2 = start.word then start.segment else 0)
          (if a.2 = stop.word then stop.segment else a.1.length) (inv.changeAll · changes)
      else .ok a.1) := by
    intro a _
    split
    · exact changeSyllablesM_ensures hmistake inv _ _ _ changes
    · exact .ok rfl
  refine (Ensures.mapM hword).bind fun words hwords ↦ .ok ?_
  have hspelling : words.map Word.segments = (p.words.zipIdx.map Prod.fst).map Word.segments := by
    rw [List.map_map]
    exact List.forall₂_eq_eq_eq ▸
      List.forall₂_map_left_iff.mpr (List.forall₂_map_right_iff.mpr hwords.flip)
  have hne : words ≠ [] := by
    rw [← List.length_pos_iff, ← hwords.length_eq, List.length_zipIdx]
    exact p.wordCount_pos
  rw [spelling, words_ofWords hne, hspelling, List.zipIdx_map_fst, spelling]

end Changing

end Phrase

/-- A marker opens the syllable with which a replaced span starts. -/
theorem Replacement.of_marker? {p marker : Phrase} {r : Replacement}
    (h : r.marker? p = some marker) :
    r.start ≠ r.stop ∧ (p.wordAt r.start.word).isDivided ∧
      r.start.segment < p.wordLength r.start.word ∧
      (p.wordAt r.start.word).isSyllableStart r.start.segment ∧
      marker = .ofWord (.syllableOpening ((p.wordAt r.start.word).syllableMatrix r.start.segment))
    := by
  rw [marker?] at h
  split at h
  · cases h
  · next hne =>
    obtain ⟨word, hword, h⟩ := Option.bind_eq_some_iff.mp h
    have hat : p.wordAt r.start.word = word := by rw [Phrase.wordAt, hword, Option.getD_some]
    dsimp only at h
    split at h
    · next hstarts =>
      cases h
      simp only [Bool.and_eq_true, decide_eq_true_eq] at hstarts
      rw [Phrase.wordLength, hat]
      exact ⟨hne, hstarts.1.1, hstarts.1.2, hstarts.2, rfl⟩
    · cases h

namespace Splicing

variable {p : Phrase} {s : Splicing} {r : Replacement}

/-- The text in front of a replacement goes up to its start. -/
theorem size_textBefore (hcursor : p.isPosition s.cursor) (hstart : p.isPosition r.start)
    (hle : s.cursor ≤ r.start) :
    (s.textBefore p r).size + p.offset s.cursor = s.output.size + p.offset r.start := by
  have hslice := Phrase.size_slice hcursor hstart hle
  have hkept := Phrase.size_append s.output (p.slice s.cursor r.start)
  rw [textBefore]
  split
  · next marker hmarker =>
    obtain ⟨-, -, -, -, rfl⟩ := Replacement.of_marker? hmarker
    generalize Word.syllableMatrix _ _ = matrix
    have hsize : (Phrase.ofWord (.syllableOpening matrix)).size = 1 := rfl
    have hwhole := Phrase.size_append (s.output ++ p.slice s.cursor r.start)
      (.ofWord (.syllableOpening matrix))
    omega
  · omega

/-- A replacement is written behind the text and what is kept of the phrase. -/
theorem exists_output_written (s : Splicing) (r : Replacement) :
    ∃ next, (s.written p r).output = s.output ++ p.slice s.cursor r.start ++ next := by
  show ∃ next, s.textBefore p r ++ r.result = s.output ++ p.slice s.cursor r.start ++ next
  rw [textBefore]
  split
  · rw [Phrase.append_assoc]
    exact ⟨_, rfl⟩
  · exact ⟨_, rfl⟩

/-- Text is only ever added to what is written. -/
theorem exists_output_foldl_written (rs : List Replacement) (s : Splicing) :
    ∃ more, (rs.foldl (written p) s).output = s.output ++ more := by
  induction rs generalizing s with
  | nil => exact ⟨.empty, (Phrase.append_empty s.output).symm⟩
  | cons r rest ih =>
    obtain ⟨more, hmore⟩ := ih (s.written p r)
    obtain ⟨next, hnext⟩ := s.exists_output_written r
    refine ⟨p.slice s.cursor r.start ++ next ++ more, ?_⟩
    rw [List.foldl_cons, hmore, hnext]
    simp only [Phrase.append_assoc]

/-- The text in front of a replacement ends where what is kept of the phrase ends. -/
theorem stop_textBefore (s : Splicing) (r : Replacement) :
    (s.textBefore p r).stop = (s.output ++ p.slice s.cursor r.start).stop := by
  rw [textBefore]
  split
  · next marker hmarker =>
    obtain ⟨-, -, -, -, rfl⟩ := Replacement.of_marker? hmarker
    exact Phrase.stop_append_ofWord _ rfl
  · rfl

/-- A place in the text stays where it is when more is written. -/
theorem isPosition_textBefore {i : Position} (hi : s.output.isPosition i) :
    (s.textBefore p r).isPosition i ∧ (s.textBefore p r).offset i = s.output.offset i := by
  have hkept := Phrase.isPosition_append (p.slice s.cursor r.start) hi
  rw [textBefore]
  split
  · rw [Phrase.offset_append _ hkept, Phrase.offset_append _ hi]
    exact ⟨Phrase.isPosition_append _ hkept, rfl⟩
  · exact ⟨hkept, Phrase.offset_append _ hi⟩

/-- A place in the text stays where it is when a replacement is written. -/
theorem isPosition_written {i : Position} (hi : s.output.isPosition i) :
    (s.written p r).output.isPosition i ∧ (s.written p r).output.offset i = s.output.offset i := by
  obtain ⟨hbefore, hoffset⟩ := @isPosition_textBefore p s r i hi
  rw [← hoffset]
  exact ⟨Phrase.isPosition_append _ hbefore, Phrase.offset_append _ hbefore⟩

/-- The first place that an edit writes at is remembered. -/
theorem first_foldl_written {i : Position} (hfirst : s.first = some i)
    (hi : s.output.isPosition i) (rs : List Replacement) :
    (rs.foldl (written p) s).first = some i ∧ (rs.foldl (written p) s).output.isPosition i ∧
      (rs.foldl (written p) s).output.offset i = s.output.offset i := by
  induction rs generalizing s with
  | nil => exact ⟨hfirst, hi, rfl⟩
  | cons r rest ih =>
    obtain ⟨hwritten, hoffset⟩ := @isPosition_written p s r i hi
    have hkept : (s.written p r).first = some i := by
      simp only [written, hfirst, Option.some_or]
    rw [← hoffset]
    exact ih hkept hwritten

/-- The cursor stands behind the last replacement. -/
theorem cursor_foldl_written (rs : List Replacement) :
    (rs.foldl (written p) s).cursor = (rs.getLast?.map Replacement.stop).getD s.cursor := by
  rw [← List.foldr_reverse, ← List.head?_reverse]
  cases rs.reverse <;> rfl

/-- Finishing a text adds what is left of the phrase. -/
theorem finish_ensures {allowed : Fault → Prop}
    (hmistake : ∀ fault : Fault, fault.isMistake → allowed fault) (inv : Inventory)
    (hcursor : p.isPosition s.cursor) :
    Ensures (fun q ↦ q.spelling = (s.output ++ p.slice s.cursor p.stop).spelling) allowed
      (s.finish inv p) := by
  have hslice : p.slice? s.cursor p.stop = some (p.slice s.cursor p.stop) :=
    if_pos ⟨hcursor, Phrase.isPosition_stop, Phrase.le_stop hcursor⟩
  rw [finish, hslice]
  refine Ensures.map
    (?_ : Ensures (fun q ↦ q.spelling = (s.output ++ p.slice s.cursor p.stop).spelling) allowed _)
    fun q hq ↦ (Phrase.spelling_normalized q).trans hq
  refine Ensures.foldlM rfl fun change _ q hq ↦ ?_
  obtain ⟨start, stop, changes⟩ := change
  exact (Phrase.changeSyllablesIn_ensures hmistake inv q start stop changes).mono
    fun q' _ hq' ↦ hq'.trans hq

end Splicing

/-- Where an edit wrote in a phrase: the places lie in the new phrase, as many positions stand
before the start as before, and as many behind the end as there were behind the last
replacement. -/
structure Edit.Lands (e : Edit) (p q : Phrase) (start stop : Position) : Prop where
  /-- The start lies in the new phrase. -/
  isPosition_start : q.isPosition start
  /-- The end lies in the new phrase. -/
  isPosition_stop : q.isPosition stop
  /-- Nothing moves in front of the edit. -/
  offset_start : q.offset start ≤ p.offset e.start
  /-- Nothing moves behind the edit. -/
  offset_stop : ∀ r ∈ e.replacements.getLast?,
    q.size + p.offset r.stop = p.size + q.offset stop

namespace Splicing

variable {p : Phrase}

/-- The first place that is written at stands no further from the start than the first
replacement, if the text so far is no longer than what it stands for. -/
theorem offset_first {s : Splicing} (hnone : s.first = none) (hcursor : p.isPosition s.cursor)
    (hsize : s.output.size ≤ p.offset s.cursor + 1) {rs : List Replacement} {start stop : Position}
    (hle : s.cursor ≤ start) (h : Follows p start (rs.map Replacement.span) stop)
    (hfirst : ∀ r ∈ rs.head?, r.start = start) :
    (rs.foldl (written p) s).output.isPosition
        ((rs.foldl (written p) s).first.getD (rs.foldl (written p) s).output.stop) ∧
      (rs.foldl (written p) s).output.offset
        ((rs.foldl (written p) s).first.getD (rs.foldl (written p) s).output.stop) ≤
          p.offset start := by
  have hoffset := Phrase.offset_le_offset hcursor hle
  cases rs with
  | nil =>
    have hend := s.output.offset_stop
    simp only [List.foldl_nil, hnone, Option.getD_none]
    exact ⟨Phrase.isPosition_stop, by omega⟩
  | cons r rest =>
    have hstart : r.start = start := hfirst r rfl
    subst hstart
    have hbefore := size_textBefore hcursor h.2.2.1 hle
    have hend := (s.textBefore p r).offset_stop
    have hmark : (s.written p r).first = some (s.textBefore p r).stop := by
      simp only [written, hnone, Option.none_or]
    have hend : (s.textBefore p r).isPosition (s.textBefore p r).stop := Phrase.isPosition_stop
    have hplace := Phrase.isPosition_append r.result hend
    have hwritten := Phrase.offset_append r.result hend
    obtain ⟨hkept, hposition, hfinal⟩ := first_foldl_written hmark hplace rest
    rw [List.foldl_cons, hkept, Option.getD_some, hfinal]
    refine ⟨hposition, ?_⟩
    show (s.textBefore p r ++ r.result).offset _ ≤ _
    omega

end Splicing

/-- Splicing one edit tells where it wrote. -/
theorem Phrase.spliceOne_eq (inv : Inventory) {p : Phrase} {e : Edit} {stop : Position}
    (h : Follows p e.start (e.replacements.map Replacement.span) stop) :
    p.spliceOne inv e = do
      let t := e.replacements.foldl (Splicing.written p) { cursor := p.start }
      return (← t.finish inv p, t.first.getD t.output.stop, t.output.stop) := by
  have horder : InOrder p p.start [e] stop := ⟨start_le e.start, stop, h, le_refl stop⟩
  have hspans := Splicing.spans_foldl_written (p := p) e.replacements { cursor := p.start }
  rw [spliceOne, splice_eq inv horder]
  simp only [List.foldl_cons, List.foldl_nil, Splicing.edited, hspans, List.nil_append]
  generalize e.replacements.foldl (Splicing.written p) { cursor := p.start } = t
  have hfinish (spans : List (Position × Position)) :
      Splicing.finish inv p { t with spans } = t.finish inv p := rfl
  rw [hfinish]
  cases t.finish inv p <;> rfl

/-- An edit whose replacements lie in order from its start lands in the phrase. -/
theorem Phrase.spliceOne_ensures {allowed : Fault → Prop}
    (hmistake : ∀ fault : Fault, fault.isMistake → allowed fault) (inv : Inventory) {p : Phrase}
    {e : Edit} {stop : Position}
    (h : Follows p e.start (e.replacements.map Replacement.span) stop)
    (hfirst : ∀ r ∈ e.replacements.head?, r.start = e.start) :
    Ensures (fun (q, start, stop) ↦ e.Lands p q start stop) allowed (p.spliceOne inv e) := by
  have hbegin : p.start ≤ e.start := start_le e.start
  obtain ⟨-, hcursor, -⟩ := @Splicing.foldlM_replace_eq p { cursor := p.start } _ _
    isPosition_start (h.of_le hbegin)
  have hlast := Splicing.cursor_foldl_written (p := p) (s := { cursor := p.start }) e.replacements
  obtain ⟨hstart, hoffset⟩ := @Splicing.offset_first p { cursor := p.start } rfl isPosition_start
    (Nat.le_add_left _ _) _ _ _ hbegin h hfirst
  rw [spliceOne_eq inv h]
  generalize e.replacements.foldl (Splicing.written p) { cursor := p.start } = t at *
  refine (Splicing.finish_ensures hmistake inv hcursor).bind fun q hspelling ↦ .ok ?_
  have hq := lengths_eq_of_spelling_eq hspelling
  have hstop : t.output.isPosition t.output.stop := isPosition_stop
  constructor
  · rw [isPosition_congr hq]
    exact isPosition_append _ hstart
  · rw [isPosition_congr hq]
    exact isPosition_append _ hstop
  · rw [offset_congr hq, offset_append _ hstart]
    exact hoffset
  · intro r hr
    rw [hr, Option.map_some, Option.getD_some] at hlast
    have hrest := size_slice hcursor isPosition_stop (le_stop hcursor)
    have hwhole := size_append t.output (p.slice t.cursor p.stop)
    have hend := t.output.offset_stop
    have hpend := p.offset_stop
    rw [size_congr hq, offset_congr hq, offset_append _ hstop, ← hlast]
    omega

end Diachrony
