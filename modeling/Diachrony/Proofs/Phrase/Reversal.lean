import Diachrony.Proofs.Pattern.Bounds
import Diachrony.Proofs.Phrase.Joining

/-!
# Reversed phrases

What stands at a position of a phrase stands at the turned position of the reversed phrase, with
everything that follows a position before it and the other way round.

A phrase that is reversed twice is normalized. If no syllable has a matrix the same holds for
fragments: one that is cut from the reversed phrase and reversed is the normalized fragment of the
phrase. So a capture of a search that goes backwards holds the text as it is read forwards.
-/

namespace Diachrony

namespace Phrase

variable {p : Phrase} {a b i j : Position} {word : Word}

/-- A position lies in a word. -/
theorem exists_word (h : p.isPosition i) :
    ∃ word, p.word? i.word = some word ∧ i.segment ≤ word.length := by
  rw [isPosition_iff] at h
  obtain ⟨word, hword⟩ := Option.isSome_iff_exists.mp (word?_isSome.mpr h.1)
  rw [wordLength_of_word? hword] at h
  exact ⟨word, hword, h.2⟩

/-- A reversed phrase has as many words. -/
@[simp] theorem wordCount_reversed (p : Phrase) : p.reversed.wordCount = p.wordCount := by
  simp [wordCount, reversed]

/-- A word lands in the reversed phrase, reversed. -/
theorem word?_reversed (h : p.word? i.word = some word) :
    p.reversed.word? (p.turn i).word = some word.reversed := by
  have hlt := lt_wordCount_of_word? h
  rw [word?] at h ⊢
  rw [wordCount] at hlt
  simp only [reversed, turn, wordCount]
  rw [List.getElem?_reverse (by simp; omega), List.length_map,
    show p.words.length - 1 - (p.words.length - 1 - i.word) = i.word by omega, List.getElem?_map,
    h, Option.map_some]

/-- A position lands as far from the end of its word. -/
theorem segment_turn (h : p.word? i.word = some word) :
    (p.turn i).segment = word.length - i.segment := by
  rw [turn, wordLength_of_word? h]

/-- Positions of one word land in one word. -/
theorem word_turn_eq (hi : p.isPosition i) (hj : p.isPosition j) :
    (p.turn i).word = (p.turn j).word ↔ i.word = j.word := by
  rw [isPosition_iff] at hi hj
  simp only [turn]
  omega

/-- One step from a turned position is where the step before it lands. -/
theorem turn_eq_step (hi : p.isPosition i) (hj : p.isPosition j) :
    p.turn i = (p.turn j).step ↔ j = i.step := by
  rw [isPosition_iff] at hi hj
  simp only [Position.ext_iff, Position.step, turn]
  by_cases hw : i.word = j.word
  · rw [hw] at hi ⊢
    omega
  · omega

/-- A position after which there is a step has a segment. -/
theorem segmentAt?_of_step (h : p.isPosition i.step) :
    ∃ segment, p.segmentAt? i = some segment := by
  obtain ⟨word, hword, hle⟩ := exists_word h
  rw [segmentAt?, show p.word? i.word = some word from hword, Option.bind_some, Word.get?]
  exact ⟨_, List.getElem?_eq_getElem hle⟩

/-- The segment before a turned position is the one after the position. -/
theorem segmentAt?_turn (h : p.isPosition i.step) :
    p.reversed.segmentAt? (p.turn i.step) = p.segmentAt? i := by
  obtain ⟨word, hword, hle⟩ := exists_word h
  have hlt : i.segment < word.length := hle
  rw [segmentAt?, word?_reversed hword, segment_turn hword, segmentAt?,
    show p.word? i.word = some word from hword, Option.bind_some, Option.bind_some,
    ← Word.get?_reversed hlt]
  congr 1
  simp only [Position.step]
  omega

/-- A word starts where its reversal ends. -/
theorem isWordEnd_turn (h : p.isPosition i) :
    p.reversed.isWordEnd (p.turn i) ↔ p.isWordStart i := by
  obtain ⟨word, hword, hle⟩ := exists_word h
  rw [isWordEnd, wordLength_of_word? (word?_reversed hword), segment_turn hword, isWordStart,
    Word.length_reversed, decide_eq_true_eq, decide_eq_true_eq]
  omega

/-- A word ends where its reversal starts. -/
theorem isWordStart_turn (h : p.isPosition i) :
    p.reversed.isWordStart (p.turn i) ↔ p.isWordEnd i := by
  obtain ⟨word, hword, hle⟩ := exists_word h
  rw [isWordEnd, wordLength_of_word? hword, isWordStart, segment_turn hword, decide_eq_true_eq,
    decide_eq_true_eq]
  omega

/-- Every position of the reversed phrase is a turned position. -/
theorem exists_turn (h : p.reversed.isPosition i) : ∃ j, p.isPosition j ∧ p.turn j = i := by
  have hback : p.lengths = p.reversed.lengths.reverse := by
    rw [lengths_reversed, List.reverse_reverse]
  exact ⟨p.reversed.turn i, isPosition_turn hback h, turn_turn hback h⟩

/-- The word of a turned position is that of the position, reversed. -/
theorem wordAt_reversed (h : i.word < p.wordCount) :
    p.reversed.wordAt (p.turn i).word = (p.wordAt i.word).reversed := by
  obtain ⟨word, hword⟩ := Option.isSome_iff_exists.mp (word?_isSome.mpr h)
  rw [wordAt, word?_reversed hword, wordAt, hword, Option.getD_some, Option.getD_some]

/-- A break stands at a turned position where one stands at the position. -/
theorem isBreak_turn (h : p.isPosition i) :
    (p.reversed.wordAt (p.turn i).word).isBreak (p.turn i).segment ↔
      (p.wordAt i.word).isBreak i.segment := by
  obtain ⟨hword, hsegment⟩ := isPosition_iff.mp h
  rw [wordAt_reversed hword]
  exact Word.isBreak_reversed hsegment

/-- The segment before a turned position has the matrix of its syllable from the phrase. -/
theorem syllableMatrix_turn (h : p.isPosition i.step) :
    (p.reversed.wordAt (p.turn i.step).word).syllableMatrix (p.turn i.step).segment =
      (p.wordAt i.word).syllableMatrix i.segment := by
  obtain ⟨hword, hsegment⟩ := isPosition_iff.mp h
  have hlt : i.segment < (p.wordAt i.word).length := hsegment
  rw [wordAt_reversed hword, ← Word.syllableMatrix_reversed hlt]
  congr 1
  simp only [turn, Position.step, wordLength]
  omega

/-- Words that are reversed twice are normalized. -/
private theorem map_reversed_reversed (words : List Word) :
    (words.map Word.reversed).map Word.reversed = words.map Word.normalized := by
  rw [List.map_map]
  exact List.map_congr_left fun w _ ↦ w.reversed_reversed

/-- A phrase that is reversed twice is normalized. -/
theorem reversed_reversed (p : Phrase) : p.reversed.reversed = p.normalized := by
  refine eq_of_words_eq ?_
  show (((p.words.map Word.reversed).reverse).map Word.reversed).reverse =
    p.words.map Word.normalized
  rw [List.map_reverse, List.reverse_reverse, map_reversed_reversed]

/-- The words between turned positions are those between the positions, from last to first. -/
theorem extract_words_reversed (hab : a.word < b.word) (hb : b.word < p.wordCount) :
    p.reversed.words.extract ((p.turn b).word + 1) (p.turn a).word =
      ((p.words.extract (a.word + 1) b.word).map Word.reversed).reverse := by
  have hmap : (p.words.extract (a.word + 1) b.word).map Word.reversed =
      (p.words.map Word.reversed).extract (a.word + 1) b.word := by
    simp only [List.extract_eq_take_drop, List.map_take, List.map_drop]
  have hlength : (p.words.map Word.reversed).length = p.wordCount := List.length_map _
  have hle : b.word ≤ (p.words.map Word.reversed).length := hlength ▸ Nat.le_of_lt hb
  rw [hmap, ← Word.extract_reverse _ hab hle, hlength]
  simp only [reversed, turn]
  congr 1 <;> omega

section Unmarked

/-- Whether no syllable of a phrase has a matrix. -/
def IsUnmarked (p : Phrase) : Prop := ∀ w ∈ p.words, w.IsUnmarked

variable (h : p.IsUnmarked)
include h

/-- A piece of a word of the reversed phrase mirrors a piece of the word of the phrase. -/
theorem reversed_slice_wordAt (hi : i.word < p.wordCount) {start stop : Nat} (hle : start ≤ stop)
    (hstop : stop ≤ p.wordLength i.word) :
    ((p.reversed.wordAt (p.turn i).word).slice (p.wordLength i.word - stop)
      (p.wordLength i.word - start)).reversed = ((p.wordAt i.word).slice start stop).normalized := by
  have hword : p.wordAt i.word = p.words[i.word] := by
    unfold wordAt word?
    rw [List.getElem?_eq_getElem hi, Option.getD_some]
  have hunmarked : (p.wordAt i.word).IsUnmarked := hword ▸ h _ (List.getElem_mem hi)
  rw [wordAt_reversed hi]
  exact Word.reversed_slice_reversed hunmarked hle hstop

/-- A fragment of a reversed phrase without matrices is the reversal of the one that it mirrors. -/
theorem reversed_slice_turn (ha : p.isPosition a) (hb : p.isPosition b) (hab : a ≤ b) :
    (p.reversed.slice (p.turn b) (p.turn a)).reversed = (p.slice a b).normalized := by
  obtain ⟨hawords, halength⟩ := isPosition_iff.mp ha
  obtain ⟨hbwords, hblength⟩ := isPosition_iff.mp hb
  refine eq_of_words_eq ?_
  show ((p.reversed.slice (p.turn b) (p.turn a)).words.map Word.reversed).reverse =
    (p.slice a b).words.map Word.normalized
  rcases Position.le_iff.mp hab with hlt | ⟨hword, hle⟩
  · have hlt' : (p.turn b).word < (p.turn a).word := by
      simp only [turn]
      omega
    have hlength : p.reversed.wordLength (p.turn b).word = p.wordLength b.word := by
      rw [wordLength, wordAt_reversed hbwords, Word.length_reversed, wordLength]
    have hfirst := reversed_slice_wordAt h hawords halength (Nat.le_refl _)
    have hlast := reversed_slice_wordAt h hbwords (Nat.zero_le _) hblength
    rw [Nat.sub_self] at hfirst
    rw [Nat.sub_zero] at hlast
    rw [words_slice_of_lt hlt, words_slice_of_lt hlt', hlength,
      extract_words_reversed hlt hbwords]
    simp only [List.map_append, List.map_cons, List.map_nil, List.map_reverse, List.reverse_append,
      List.reverse_cons, List.reverse_nil, List.reverse_reverse, List.nil_append,
      map_reversed_reversed]
    rw [List.cons_append, List.cons_append, List.nil_append, ← hfirst, ← hlast]
    rfl
  · have hword' : (p.turn b).word = (p.turn a).word := by simp only [turn, hword]
    have hpiece := reversed_slice_wordAt h hawords hle (hword ▸ hblength)
    rw [words_slice_of_eq p hword, words_slice_of_eq p.reversed hword', hword', List.map_singleton,
      List.map_singleton, List.reverse_singleton, ← hpiece]
    simp only [turn, hword]

/-- A capture of a search that goes backwards holds the fragment as it is read forwards. -/
theorem capture_turned (hb : p.isPosition b) (inv : Inventory) (inner : Pattern) (number : Nat)
    (bindings : Bindings) :
    ∀ m ∈ ((Pattern.capture inner number false).reversed.candidates inv (Scan.of p).turned
      (p.turn b) bindings).offers, ∃ a, p.isPosition a ∧ a ≤ b ∧ m.stop = p.turn a ∧
        m.bindings.capture? number = some (p.slice a b).normalized := by
  intro m hm
  obtain ⟨n, -, hm⟩ := Candidates.exists_of_mem_offers_bind hm
  have hback : (Scan.of p).turned.phrase = p.reversed := rfl
  rw [hback, slice?] at hm
  split at hm
  · cases hm
  · next span hspan =>
    obtain ⟨⟨-, hstop, hle⟩, rfl⟩ := Option.ite_some_none_eq_some.mp hspan
    obtain ⟨a, ha, hturn⟩ := exists_turn hstop
    rw [← hturn, turn_le_turn ha hb] at hle
    cases List.mem_singleton.mp hm
    refine ⟨a, ha, hle, hturn.symm, ?_⟩
    rw [Bindings.capture?, Bindings.bindCapture, SortedMap.get?_insert, if_pos rfl, ← hturn,
      ← reversed_slice_turn h ha hb hle]
    rfl

end Unmarked

/-- The reversal of a phrase is faithful. Reversed twice it is the normalized phrase; positions turn
to positions, in the reversed order, and back; segments, the matrices of their syllables, breaks and
the edges of words stand where they turn to. If no syllable has a matrix, fragments are mirrored as
well, and what a search that goes backwards captures is the text as it is read forwards. -/
theorem reversed_is_faithful (p : Phrase) :
    p.reversed.reversed = p.normalized ∧
    (∀ i, p.isPosition i →
      p.reversed.isPosition (p.turn i) ∧ p.reversed.turn (p.turn i) = i) ∧
    (∀ i, p.reversed.isPosition i →
      p.isPosition (p.reversed.turn i) ∧ p.turn (p.reversed.turn i) = i) ∧
    (∀ i j, p.isPosition i → p.isPosition j → (p.turn j ≤ p.turn i ↔ i ≤ j)) ∧
    (∀ i segment, p.segmentAt? i = some segment →
      p.reversed.segmentAt? (p.turn i.step) = some segment ∧
        (p.reversed.wordAt (p.turn i.step).word).syllableMatrix (p.turn i.step).segment =
          (p.wordAt i.word).syllableMatrix i.segment) ∧
    (∀ i, p.isPosition i →
      ((p.reversed.wordAt (p.turn i).word).isBreak (p.turn i).segment ↔
        (p.wordAt i.word).isBreak i.segment) ∧
      (p.reversed.isWordStart (p.turn i) ↔ p.isWordEnd i) ∧
      (p.reversed.isWordEnd (p.turn i) ↔ p.isWordStart i)) ∧
    (p.IsUnmarked → ∀ a b, p.isPosition a → p.isPosition b → a ≤ b →
      (p.reversed.slice (p.turn b) (p.turn a)).reversed = (p.slice a b).normalized) ∧
    (p.IsUnmarked → ∀ b, p.isPosition b →
      ∀ (inv : Inventory) (inner : Pattern) (number : Nat) (bindings : Bindings),
        ∀ m ∈ ((Pattern.capture inner number false).reversed.candidates inv (Scan.of p).turned
          (p.turn b) bindings).offers, ∃ a, p.isPosition a ∧ a ≤ b ∧ m.stop = p.turn a ∧
            m.bindings.capture? number = some (p.slice a b).normalized) := by
  have hforth := p.lengths_reversed
  have hback : p.lengths = p.reversed.lengths.reverse := by rw [hforth, List.reverse_reverse]
  refine ⟨p.reversed_reversed, ?_, ?_, ?_, ?_, ?_, ?_, ?_⟩
  · intro i hi
    exact ⟨isPosition_turn hforth hi, turn_turn hforth hi⟩
  · intro i hi
    exact ⟨isPosition_turn hback hi, turn_turn hback hi⟩
  · intro i j hi hj
    exact turn_le_turn hi hj
  · intro i segment hsegment
    obtain ⟨word, hword, hlt⟩ := exists_word_of_segmentAt? hsegment
    have hstep := isPosition_step hword hlt
    exact ⟨(segmentAt?_turn hstep).trans hsegment, syllableMatrix_turn hstep⟩
  · intro i hi
    exact ⟨isBreak_turn hi, isWordStart_turn hi, isWordEnd_turn hi⟩
  · intro hunmarked a b ha hb hab
    exact reversed_slice_turn hunmarked ha hb hab
  · intro hunmarked b hb
    exact capture_turned hunmarked hb

end Phrase

end Diachrony
