import Diachrony.Pattern.Finder
import Diachrony.Proofs.Phrase.Retelling
import Diachrony.Proofs.Word.Kept

/-!
# Words that a fragment goes on with

When a fragment goes on with a piece of a phrase that reaches into a word, the text of the word
comes behind what the fragment had at its end, or at the start of a word of its own. However far the
piece goes on, that part of the text stays where it is.
-/

namespace Diachrony.Phrase

variable {p q : Phrase} {before : List Word} {u : Word} {c j : Position} {w a start stop : Nat}

/-- Whether the last word of a fragment notes nothing behind its end. -/
def EndsClosed (p : Phrase) : Prop := ∃ front v, p.words = front ++ [v] ∧ v.IsClosed

/-- Joined fragments end closed if both do. -/
theorem EndsClosed.append (hp : p.EndsClosed) (hq : q.EndsClosed) : (p ++ q).EndsClosed := by
  obtain ⟨front, v, hp, hv⟩ := hp
  obtain ⟨front', v', hq, hv'⟩ := hq
  cases front' with
  | nil => exact ⟨front, v ++ v', words_append hp hq, hv.append hv'⟩
  | cons u middle =>
    refine ⟨front ++ (v ++ u) :: middle, v', ?_, hv'⟩
    rw [words_append hp hq]
    simp

/-- The last word of a piece of a phrase is a piece of a word. -/
theorem exists_words_slice (p : Phrase) (c j : Position) :
    ∃ front a, (p.slice c j).words = front ++ [(p.wordAt j.word).slice a j.segment] := by
  rw [slice]
  split
  · next hword => exact ⟨[], c.segment, congrArg (fun w ↦ [(p.wordAt w).slice _ _]) hword⟩
  · exact ⟨_ :: p.words.extract (c.word + 1) j.word, 0, rfl⟩

/-- A piece of a phrase ends closed. -/
theorem endsClosed_slice (c : Position) (hj : p.isPosition j) : (p.slice c j).EndsClosed := by
  obtain ⟨front, a, hwords⟩ := p.exists_words_slice c j
  exact ⟨front, _, hwords, .slice _ (isPosition_iff.mp hj).2⟩

/-- How a fragment goes on with a word of a phrase when a piece of the phrase is added to it: behind
some words and some text, from an index on. -/
structure GoesOn (q p : Phrase) (c : Position) (w : Nat) (before : List Word) (u : Word)
    (a : Nat) : Prop where
  /-- The text of the word comes last. -/
  words : ∀ i, (q ++ p.slice c ⟨w, i⟩).words = before ++ [u ++ (p.wordAt w).slice a i]
  /-- It comes behind the last word of the fragment or is a word of its own. -/
  place : c.word = w ∧ a = c.segment ∧ q.words = before ++ [u] ∨
    c.word < w ∧ a = 0 ∧ u = .empty
  /-- The word is in the phrase. -/
  lt_wordCount : w < p.wordCount

/-- A fragment goes on with every word that comes next. -/
theorem exists_goesOn (q : Phrase) (hle : c ≤ ⟨w, start⟩) (hw : w < p.wordCount) :
    ∃ before u a, GoesOn q p c w before u a := by
  obtain ⟨front, v, hq⟩ := q.exists_words_eq_concat
  rcases Position.le_iff.mp hle with hlt | ⟨heq, -⟩
  · refine ⟨front ++ (v ++ (p.wordAt c.word).slice c.segment (p.wordLength c.word)) ::
      p.words.extract (c.word + 1) w, .empty, 0, fun i ↦ ?_, .inr ⟨hlt, rfl, rfl⟩, hw⟩
    rw [Word.empty_append]
    exact words_append_slice_of_lt hq p hlt
  · obtain rfl : c.word = w := heq
    exact ⟨front, v, c.segment, fun i ↦ words_append_slice_of_eq hq p rfl, .inl ⟨rfl, rfl, hq⟩, hw⟩

namespace GoesOn

variable (h : GoesOn q p c w before u a)
include h

/-- What stands in front of the text of the word notes nothing behind its end. -/
theorem isClosed (hq : q.EndsClosed) : u.IsClosed := by
  rcases h.place with ⟨-, -, hwords⟩ | ⟨-, -, rfl⟩
  · obtain ⟨front, v, hwords', hv⟩ := hq
    rw [hwords] at hwords'
    obtain ⟨-, hlast⟩ := List.append_inj' hwords' rfl
    cases hlast
    exact hv
  · exact .of_undivided rfl

/-- The word is not before the cursor. -/
theorem word_le : c.word ≤ w := by
  rcases h.place with ⟨hword, -⟩ | ⟨hlt, -⟩
  · exact Nat.le_of_eq hword
  · exact Nat.le_of_lt hlt

/-- The text of the word is taken from no later than a position behind the cursor. -/
theorem le (hle : c ≤ ⟨w, start⟩) : a ≤ start := by
  rcases h.place with ⟨hword, rfl, -⟩ | ⟨-, rfl, -⟩
  · rcases Position.le_iff.mp hle with hlt | ⟨-, hle⟩
    · exact absurd hword (Nat.ne_of_lt hlt)
    · exact hle
  · exact Nat.zero_le start

/-- The end of the text up to an index of the word. -/
theorem stop_eq (ha : a ≤ start) (hle : start ≤ stop) (hstop : stop ≤ p.wordLength w) :
    (q ++ p.slice c ⟨w, stop⟩).stop =
      ⟨before.length, (u ++ (p.wordAt w).slice a start).length + (stop - start)⟩ := by
  rw [stop_of_words (h.words stop), Word.length_append, Word.length_append,
    Word.length_slice _ hstop, Word.length_slice _ (Nat.le_trans hle hstop)]
  congr 1
  omega

/-- Whatever comes behind a part of the word, that part stays where it is. -/
theorem word?_normalized (ha : a ≤ stop) (hpos : 0 < stop) (hstop : stop ≤ p.wordLength w)
    (hle : ⟨w, stop⟩ ≤ j) (r : Phrase) :
    ∃ rest, (q ++ p.slice c j ++ r).normalized.word? before.length =
      some (u ++ (p.wordAt w).slice a stop ++ rest).normalized := by
  obtain ⟨x, more, hr⟩ := r.exists_words_eq_cons
  have hword {y : Word} {ws : List Word} (hws : (q ++ p.slice c j ++ r).words = before ++ y :: ws) :
      (q ++ p.slice c j ++ r).normalized.word? before.length = some y.normalized := by
    show ((q ++ p.slice c j ++ r).words.map Word.normalized)[before.length]? = _
    rw [hws, List.getElem?_map, List.getElem?_append_right (Nat.le_refl _), Nat.sub_self]
    rfl
  rcases Position.le_iff.mp hle with hlt | ⟨heq, hle⟩
  · -- The piece goes on behind the word.
    refine ⟨(p.wordAt w).slice stop (p.wordLength w), ?_⟩
    rw [Word.append_assoc u, Word.slice_append_slice _ ha hstop hstop]
    obtain ⟨front, v, hq⟩ := q.exists_words_eq_concat
    have hjoined := words_append
      (words_append_slice_of_lt hq p (Nat.lt_of_le_of_lt h.word_le hlt)) hr
    rcases h.place with ⟨rfl, rfl, hlast⟩ | ⟨hcw, rfl, rfl⟩
    · rw [hlast] at hq
      obtain ⟨rfl, hlast⟩ := List.append_inj' hq rfl
      cases hlast
      rw [List.append_assoc, List.cons_append] at hjoined
      exact hword hjoined
    · -- The word is copied as it is.
      obtain ⟨rfl, -⟩ := List.append_inj'
        ((h.words 0).symm.trans (words_append_slice_of_lt hq p hcw)) rfl
      rw [extract_words_eq hcw hlt h.lt_wordCount, ← List.cons_append, ← List.append_assoc,
        List.append_assoc _ (_ :: _), List.cons_append] at hjoined
      have hwhole : ((p.wordAt w).slice 0 (p.wordLength w)).normalized = (p.wordAt w).normalized :=
        Word.normalized_slice (Nat.lt_of_lt_of_le hpos hstop)
      rw [Word.empty_append, hwhole]
      exact hword hjoined
  · -- The piece ends in the word.
    obtain rfl : w = j.word := heq
    replace hle : stop ≤ j.segment := hle
    refine ⟨(p.wordAt j.word).slice stop j.segment ++ x, @hword _ more ?_⟩
    rw [words_append (h.words j.segment) hr, Word.append_assoc u, Word.append_assoc u,
      ← Word.append_assoc (Word.slice _ _ _), Word.slice_append_slice _ ha hle hstop]

end GoesOn

/-- The matrix that a fragment notes at its end, for a syllable that is to come. -/
def pendingMatrix? (p : Phrase) : Option Matrix :=
  (p.wordAt p.stop.word).division.modifiers.get? p.stop.segment

/-- What a fragment notes at its end is what its last word notes there. -/
theorem pendingMatrix?_of_words (h : p.words = before ++ [u]) :
    p.pendingMatrix? = u.division.modifiers.get? u.length := by
  rw [pendingMatrix?, stop_of_words h, wordAt, word?, h, List.getElem?_concat_length,
    Option.getD_some]

/-- A piece of a phrase notes no matrix at its end. -/
theorem pendingMatrix?_slice (c : Position) (hj : p.isPosition j) :
    (p.slice c j).pendingMatrix? = none := by
  obtain ⟨front, a, hwords⟩ := p.exists_words_slice c j
  rw [pendingMatrix?_of_words hwords, Word.get?_modifiers_slice_length _ a (isPosition_iff.mp hj).2]

/-- What joined fragments note at the end is from the second one, or from the first if the second
has one position only. -/
theorem pendingMatrix?_append {m : Matrix} (hp : p.EndsClosed)
    (h : (p ++ q).pendingMatrix? = some m) :
    q.pendingMatrix? = some m ∨ q.size = 1 ∧ p.pendingMatrix? = some m := by
  obtain ⟨front, v, hwords, hclosed⟩ := hp
  obtain ⟨t, rest, hq⟩ := q.exists_words_eq_cons
  rcases List.eq_nil_or_concat rest with rfl | ⟨middle, last, rfl⟩
  · rw [pendingMatrix?_of_words (words_append hwords hq), Word.get?_modifiers_append,
      Word.length_append, if_pos (Nat.le_add_right _ _), Nat.add_sub_cancel_left,
      Option.or_eq_some_iff] at h
    rcases h with hfirst | ⟨-, hsecond⟩
    · have hle := hclosed.modifiers _ (Option.isSome_of_eq_some hfirst)
      have hempty : t.length = 0 := by omega
      rw [hempty, Nat.add_zero] at hfirst
      refine .inr ⟨?_, (pendingMatrix?_of_words hwords).trans hfirst⟩
      rw [size, lengths, hq, List.map_singleton, hempty]
      rfl
    · exact .inl ((pendingMatrix?_of_words (hq.trans (List.nil_append _).symm)).trans hsecond)
  · have hjoined : (p ++ q).words = (front ++ (v ++ t) :: middle) ++ [last] := by
      rw [words_append hwords hq]
      simp
    rw [pendingMatrix?_of_words hjoined] at h
    have hlast : q.words = (t :: middle) ++ [last] := hq.trans (by simp)
    exact .inl ((pendingMatrix?_of_words hlast).trans h)

private theorem syllableMatrix?_of_word? {i : Position} (hword : p.word? i.word = some u)
    (hlt : i.segment < u.length) :
    Finder.syllableMatrix? p i = some (u.syllableMatrix i.segment) := by
  rw [Finder.syllableMatrix?, hword]
  exact if_pos hlt

namespace GoesOn

/-! A syllable of a phrase is in the text that a fragment goes on with. -/

variable (h : GoesOn q p c w before u a) (hq : q.EndsClosed)
  (hsyllable : (p.wordAt w).IsSyllable start stop) (hle : c ≤ ⟨w, start⟩)
include h hsyllable hle

/-- The part of the word up to the end of the syllable, in front of all that comes behind. -/
private theorem exists_word (hstop : ⟨w, stop⟩ ≤ j) (r : Phrase) :
    ∃ rest, (q ++ p.slice c j ++ r).normalized.word? before.length =
      some (u ++ (p.wordAt w).slice a start ++ (p.wordAt w).slice start stop ++
        rest).normalized := by
  have hstart : start ≤ stop := Nat.le_of_lt hsyllable.lt
  have hlength : start ≤ (p.wordAt w).length := Nat.le_trans hstart hsyllable.le_length
  obtain ⟨rest, hword⟩ := h.word?_normalized (Nat.le_trans (h.le hle) hstart)
    (Nat.zero_lt_of_lt hsyllable.lt) hsyllable.le_length hstop r
  refine ⟨rest, hword.trans ?_⟩
  rw [Word.append_assoc u ((p.wordAt w).slice a start),
    Word.slice_append_slice _ (h.le hle) hstart hlength]

variable {index : Nat} (hstart : start ≤ index) (hstop : index < stop) (hend : ⟨w, stop⟩ ≤ j)
  (r : Phrase)
include hstart hstop hend

/-- Every segment of the syllable stands where the text up to it ends. -/
theorem segmentAt?_kept :
    (q ++ p.slice c j ++ r).normalized.segmentAt? (q ++ p.slice c ⟨w, index⟩).stop =
      p.segmentAt? ⟨w, index⟩ := by
  obtain ⟨rest, hword⟩ := h.exists_word hsyllable hle hend r
  have hindex := Nat.le_trans (Nat.le_of_lt hstop) hsyllable.le_length
  obtain ⟨v, hv⟩ := Option.isSome_iff_exists.mp (word?_isSome.mpr h.lt_wordCount)
  have hat : p.wordAt w = v := by rw [wordAt, hv, Option.getD_some]
  rw [h.stop_eq (h.le hle) hstart hindex, segmentAt?, segmentAt?, hword, hv]
  exact hat ▸ hsyllable.segments_kept _ rest hstart hstop

include hq

/-- The segments of the syllable belong to the syllable that starts with them, which has the matrix
that the syllable has in the phrase, or to the one of the text in front. -/
theorem syllableMatrix?_kept (hpending : (q ++ p.slice c ⟨w, start⟩).pendingMatrix? = none) :
    let joined := (q ++ p.slice c j ++ r).normalized
    let place := (q ++ p.slice c ⟨w, start⟩).stop
    Finder.syllableMatrix? joined (q ++ p.slice c ⟨w, index⟩).stop =
      if (joined.wordAt place.word).isSyllableStart place.segment then
        Finder.syllableMatrix? p ⟨w, index⟩
      else Finder.syllableMatrix? joined ⟨place.word, place.segment - 1⟩ := by
  intro joined place
  obtain ⟨rest, hword⟩ := h.exists_word hsyllable hle hend r
  have hplace : place = ⟨before.length, _⟩ := stop_of_words (h.words start)
  have hindex := Nat.lt_of_lt_of_le hstop hsyllable.le_length
  rw [pendingMatrix?_of_words (h.words start)] at hpending
  rw [h.stop_eq (h.le hle) hstart (Nat.le_of_lt hindex), hplace]
  have hlength := Word.length_slice _ hsyllable.le_length (a := start)
  have hclosed : (u ++ (p.wordAt w).slice a start).IsClosed :=
    (h.isClosed hq).append (.slice _ (Nat.le_trans (Nat.le_of_lt hsyllable.lt) hsyllable.le_length))
  generalize u ++ (p.wordAt w).slice a start = front at *
  have hat : joined.wordAt before.length =
      (front ++ (p.wordAt w).slice start stop ++ rest).normalized := by
    rw [wordAt, hword, Option.getD_some]
  have hlt : front.length + (index - start) <
      (front ++ (p.wordAt w).slice start stop ++ rest).normalized.length := by
    show _ < (front ++ (p.wordAt w).slice start stop ++ rest).length
    rw [Word.length_append, Word.length_append]
    omega
  have hkept := hsyllable.syllableMatrix_kept hclosed hpending rest hstart hstop
  obtain ⟨v, hv⟩ := Option.isSome_iff_exists.mp (word?_isSome.mpr h.lt_wordCount)
  have hwordAt : p.wordAt w = v := by rw [wordAt, hv, Option.getD_some]
  rw [syllableMatrix?_of_word? hword hlt, syllableMatrix?_of_word? hv (hwordAt ▸ hindex),
    syllableMatrix?_of_word? hword (by simp only; omega), hat, hkept]
  simp only [hwordAt]
  split <;> rfl

/-- If nothing was written right in front of the syllable, a syllable starts with it. -/
theorem syllableMatrix?_kept_of_lt (hfresh : c < ⟨w, start⟩ ∨ q = .empty ∧ c = p.start) :
    Finder.syllableMatrix? (q ++ p.slice c j ++ r).normalized (q ++ p.slice c ⟨w, index⟩).stop =
      Finder.syllableMatrix? p ⟨w, index⟩ := by
  -- The text of the word starts before the syllable, or with it and behind nothing.
  have htaken : a < start ∨ u = .empty ∧ a = 0 := by
    rcases h.place with ⟨hword, rfl, hwords⟩ | ⟨-, hzero, hempty⟩
    · rcases hfresh with hlt | ⟨rfl, rfl⟩
      · rcases Position.lt_iff.mp hlt with hlt | ⟨-, hlt⟩
        · exact absurd hword (Nat.ne_of_lt hlt)
        · exact .inl hlt
      · replace hwords : [] ++ [Word.empty] = before ++ [u] := hwords
        obtain ⟨-, hlast⟩ := List.append_inj' hwords rfl
        exact .inr ⟨(List.singleton_inj.mp hlast).symm, rfl⟩
    · exact .inr ⟨hempty, hzero⟩
  have ha := h.le hle
  have hwithin := Nat.le_trans (Nat.le_of_lt hsyllable.lt) hsyllable.le_length
  have hlength : ((p.wordAt w).slice a start).length = start - a := Word.length_slice _ hwithin
  have hpending : (q ++ p.slice c ⟨w, start⟩).pendingMatrix? = none := by
    have hfront : u.division.modifiers.get? (u.length + (start - a)) = none := by
      rcases htaken with hlt | ⟨rfl, -⟩
      · rw [← Option.not_isSome_iff_eq_none]
        intro hsome
        have := (h.isClosed hq).modifiers _ hsome
        omega
      · rfl
    rw [pendingMatrix?_of_words (h.words start), Word.get?_modifiers_append, Word.length_append,
      Nat.add_sub_cancel_left, Word.get?_modifiers_slice_length _ _ hwithin, hlength, hfront,
      Option.none_or, ite_self]
  rw [h.syllableMatrix?_kept hq hsyllable hle hstart hstop hend r hpending, if_pos]
  obtain ⟨rest, hword⟩ := h.exists_word hsyllable hle hend r
  rw [stop_of_words (h.words start), wordAt, hword, Option.getD_some, Word.isSyllableStart_iff]
  by_cases hpos : 0 < (u ++ (p.wordAt w).slice a start).length
  · refine .inr (hsyllable.isBreak_kept (hsyllable.starts.resolve_left ?_) hpos rest)
    rw [Word.length_append, hlength] at hpos
    rcases htaken with hlt | ⟨rfl, rfl⟩
    · exact Nat.ne_of_gt (Nat.zero_lt_of_lt hlt)
    · exact Nat.ne_of_gt (Nat.lt_of_lt_of_eq hpos (Nat.zero_add _))
  · exact .inl (Nat.eq_zero_of_not_pos hpos)

end GoesOn

end Diachrony.Phrase
