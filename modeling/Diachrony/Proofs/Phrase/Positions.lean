import Mathlib.Order.Basic
import Diachrony.Phrase.Basic

/-!
# Positions of a phrase

Positions are linearly ordered. Which positions a phrase has depends on the lengths of its words
alone, and so does the number of positions that stand before a position. That number grows with the
position and stays below the number of all positions, which bounds every search that moves on.
-/

namespace Diachrony

namespace Position

/-- Positions are equal when both coordinates are. -/
theorem ext_iff {a b : Position} : a = b ↔ a.word = b.word ∧ a.segment = b.segment := by
  cases a
  cases b
  simp

instance : LinearOrder Position where
  le_refl a := .inr ⟨rfl, Nat.le_refl _⟩
  le_trans a b c := by simp only [le_iff]; omega
  lt_iff_le_not_ge a b := by simp only [le_iff, lt_iff]; omega
  le_antisymm a b := by simp only [le_iff, ext_iff]; omega
  le_total a b := by simp only [le_iff]; omega
  toDecidableLE := inferInstance
  toDecidableEq := inferInstance
  toDecidableLT := inferInstance

end Position

namespace Phrase

variable {p q : Phrase} {i j : Position}

/-- Number of segments of each word. -/
def lengths (p : Phrase) : List Nat := p.words.map Word.length

/-- The words of a phrase that is made of words. -/
theorem words_ofWords {words : List Word} (h : words ≠ []) : (ofWords words).words = words := by
  cases words with
  | nil => exact absurd rfl h
  | cons => rfl

/-- There are as many lengths as words. -/
@[simp] theorem length_lengths (p : Phrase) : p.lengths.length = p.wordCount := by
  simp [lengths, wordCount]

/-- Phrases whose words have the same lengths have as many words. -/
theorem wordCount_eq_of_lengths_eq (h : p.lengths = q.lengths) : p.wordCount = q.wordCount := by
  rw [← length_lengths, h, length_lengths]

/-- A phrase has a word. -/
theorem wordCount_pos (p : Phrase) : 0 < p.wordCount := List.length_pos_iff.mpr p.words_ne_nil

/-- The length of a word is found among the lengths. -/
theorem wordLength_eq (p : Phrase) (w : Nat) : p.wordLength w = (p.lengths[w]?).getD 0 := by
  rw [wordLength, wordAt, word?, lengths, List.getElem?_map]
  cases p.words[w]? <;> rfl

/-- The length of a word that is there. -/
theorem wordLength_of_word? {w : Nat} {word : Word} (h : p.word? w = some word) :
    p.wordLength w = word.length := by
  rw [wordLength, wordAt, h, Option.getD_some]

/-- A phrase has the words whose index is below their number. -/
theorem word?_isSome {w : Nat} : (p.word? w).isSome ↔ w < p.wordCount := by
  simp [word?, wordCount]

/-- A word that is there has an index below the number of words. -/
theorem lt_wordCount_of_word? {w : Nat} {word : Word} (h : p.word? w = some word) :
    w < p.wordCount := word?_isSome.mp (Option.isSome_of_eq_some h)

/-- Positions of a phrase lie in its words, both ends included. -/
theorem isPosition_iff : p.isPosition i ↔
    i.word < p.wordCount ∧ i.segment ≤ p.wordLength i.word := by
  simp [isPosition]

/-- Phrases whose words have the same lengths have the same positions. -/
theorem isPosition_congr (h : p.lengths = q.lengths) : p.isPosition i = q.isPosition i := by
  rw [Bool.eq_iff_iff, isPosition_iff, isPosition_iff, wordLength_eq, wordLength_eq, h,
    wordCount_eq_of_lengths_eq h]

/-- The start of a phrase is a position. -/
theorem isPosition_start : p.isPosition p.start :=
  isPosition_iff.mpr ⟨p.wordCount_pos, Nat.zero_le _⟩

/-- The end of a phrase is a position. -/
theorem isPosition_stop : p.isPosition p.stop :=
  isPosition_iff.mpr ⟨Nat.sub_one_lt_of_lt p.wordCount_pos, Nat.le_refl _⟩

/-- Every position stands at the end of the phrase or before it. -/
theorem le_stop (h : p.isPosition i) : i ≤ p.stop := by
  rw [isPosition_iff] at h
  rw [Position.le_iff, stop]
  by_cases hw : i.word = p.wordCount - 1
  · exact .inr ⟨hw, hw ▸ h.2⟩
  · exact .inl (by simp only; omega)

/-- Nothing stands before the start. -/
theorem start_le (i : Position) : p.start ≤ i := by
  rw [Position.le_iff, start]
  simp only
  omega

/-- The next position lies in the phrase, behind the position. -/
theorem isPosition_of_next? (h : p.isPosition i) (hnext : p.next? i = some j) :
    p.isPosition j ∧ i < j := by
  rw [isPosition_iff] at h ⊢
  rw [Position.lt_iff]
  rw [next?] at hnext
  split at hnext
  · next hinside =>
    cases hnext
    exact ⟨⟨h.1, hinside⟩, .inr ⟨rfl, Nat.lt_succ_self _⟩⟩
  · split at hnext
    · next hlast =>
      cases hnext
      exact ⟨⟨hlast, Nat.zero_le _⟩, .inl (Nat.lt_succ_self _)⟩
    · cases hnext

/-- The positions of a phrase are those that lie in it. -/
theorem mem_positions : i ∈ p.positions ↔ p.isPosition i := by
  rw [positions, List.mem_flatMap, isPosition_iff]
  simp only [List.mem_zipIdx_iff_getElem?, List.mem_map, List.mem_range, Prod.exists]
  constructor
  · rintro ⟨word, w, hword, s, hs, rfl⟩
    refine ⟨lt_wordCount_of_word? hword, ?_⟩
    rw [wordLength_of_word? hword]
    exact Nat.lt_succ_iff.mp hs
  · rintro ⟨hw, hs⟩
    obtain ⟨word, hword⟩ := Option.isSome_iff_exists.mp (word?_isSome.mpr hw)
    rw [wordLength_of_word? hword] at hs
    exact ⟨word, i.word, hword, i.segment, Nat.lt_succ_of_le hs, rfl⟩

/-- Positions are listed in order. -/
theorem pairwise_positions (p : Phrase) : p.positions.Pairwise (· < ·) := by
  rw [positions, List.pairwise_flatMap]
  constructor
  · rintro ⟨word, w⟩ -
    rw [List.pairwise_map]
    exact List.pairwise_lt_range.imp fun h ↦ .inr ⟨rfl, h⟩
  · have hindices : (p.words.zipIdx.map Prod.snd).Pairwise (· < ·) := by
      rw [List.zipIdx_map_snd]
      exact List.pairwise_lt_range'
    refine (List.pairwise_map.mp hindices).imp fun {a b} hlt i hi j hj ↦ ?_
    obtain ⟨s, -, rfl⟩ := List.mem_map.mp hi
    obtain ⟨t, -, rfl⟩ := List.mem_map.mp hj
    exact .inl hlt

section Offsets

/-- Number of positions of words with some lengths. -/
def span : List Nat → Nat
  | [] => 0
  | length :: rest => length + 1 + span rest

/-- Number of positions of a phrase. -/
def size (p : Phrase) : Nat := span p.lengths

/-- Number of positions before a position. -/
def offset (p : Phrase) (i : Position) : Nat := span (p.lengths.take i.word) + i.segment

/-- The positions of words one after the other add up. -/
theorem span_append (l m : List Nat) : span (l ++ m) = span l + span m := by
  induction l with
  | nil => simp [span]
  | cons length rest ih =>
    rw [List.cons_append, span, span, ih]
    omega

/-- The positions of a phrase are as many as its size. -/
theorem length_positions : p.positions.length = p.size := by
  rw [positions, size, lengths]
  generalize 0 = k
  induction p.words generalizing k with
  | nil => rfl
  | cons w rest ih =>
    rw [List.zipIdx_cons, List.flatMap_cons, List.length_append, ih, List.map_cons, span]
    simp

private theorem foldl_length (words : List Word) (count : Nat) :
    words.foldl (fun count w ↦ count + w.length) count + words.length =
      count + span (words.map Word.length) := by
  induction words generalizing count with
  | nil => simp [span]
  | cons w rest ih =>
    have hrest := ih (count + w.length)
    rw [List.foldl_cons, List.length_cons, List.map_cons, span]
    omega

/-- Every segment has a position before it, and every word one at its end. -/
theorem segmentCount_add_wordCount : p.segmentCount + p.wordCount = p.size := by
  have := foldl_length p.words 0
  rw [segmentCount, wordCount, this, Nat.zero_add, size, lengths]

/-- One more word has the positions of that word. -/
theorem span_take_succ (lengths : List Nat) {w : Nat} (h : w < lengths.length) :
    span (lengths.take (w + 1)) = span (lengths.take w) + (lengths[w]?.getD 0 + 1) := by
  rw [List.take_succ_eq_append_getElem h, span_append, List.getElem?_eq_getElem h]
  simp [span]

private theorem span_take_le (lengths : List Nat) {w v : Nat} (h : w ≤ v) :
    span (lengths.take w) ≤ span (lengths.take v) := by
  have htake : lengths.take w = (lengths.take v).take w := by
    rw [List.take_take, Nat.min_eq_left h]
  have hsplit := congrArg span (List.take_append_drop w (lengths.take v))
  rw [span_append] at hsplit
  rw [htake]
  omega

/-- More positions stand before a later position. -/
theorem offset_lt_offset (h : p.isPosition i) (hij : i < j) : p.offset i < p.offset j := by
  rw [isPosition_iff, wordLength_eq] at h
  rw [Position.lt_iff] at hij
  rw [offset, offset]
  rcases hij with hij | ⟨hw, hs⟩
  · have hstep := span_take_succ p.lengths (w := i.word) (by simpa using h.1)
    have hle := span_take_le p.lengths (Nat.succ_le_of_lt hij)
    rw [Nat.succ_eq_add_one] at hle
    omega
  · rw [hw]
    omega

/-- At most as many positions stand before an earlier position. -/
theorem offset_le_offset (h : p.isPosition i) (hij : i ≤ j) : p.offset i ≤ p.offset j := by
  rcases hij.lt_or_eq with hlt | rfl
  · exact Nat.le_of_lt (offset_lt_offset h hlt)
  · exact Nat.le_refl _

/-- As many positions stand before no other position. -/
theorem offset_inj (hi : p.isPosition i) (hj : p.isPosition j) (h : p.offset i = p.offset j) :
    i = j := by
  rcases lt_trichotomy i j with hlt | heq | hgt
  · exact absurd h (Nat.ne_of_lt (offset_lt_offset hi hlt))
  · exact heq
  · exact absurd h.symm (Nat.ne_of_lt (offset_lt_offset hj hgt))

/-- Not all positions stand before one of them. -/
theorem offset_lt_size (h : p.isPosition i) : p.offset i < p.size := by
  rw [isPosition_iff, wordLength_eq] at h
  rw [offset, size]
  have hstep := span_take_succ p.lengths (w := i.word) (by simpa using h.1)
  have hsplit := congrArg span (List.take_append_drop (i.word + 1) p.lengths)
  rw [span_append] at hsplit
  omega

end Offsets

section Turning

private theorem length_reversed_word (w : Word) : w.reversed.length = w.length := by
  simp [Word.reversed, Word.normalized, Word.length]

/-- Reversing a phrase reverses the lengths of its words. -/
theorem lengths_reversed (p : Phrase) : p.reversed.lengths = p.lengths.reverse := by
  simp [lengths, reversed, List.map_reverse, Function.comp_def, length_reversed_word]

private theorem wordCount_turned (hlengths : q.lengths = p.lengths.reverse) :
    q.wordCount = p.wordCount := by
  rw [← length_lengths, hlengths, List.length_reverse, length_lengths]

private theorem wordLength_turned (hlengths : q.lengths = p.lengths.reverse) {w : Nat}
    (h : w < p.wordCount) : q.wordLength (p.wordCount - 1 - w) = p.wordLength w := by
  rw [wordLength_eq, wordLength_eq, hlengths, List.getElem?_reverse (by simp; omega)]
  simp only [length_lengths]
  rw [show p.wordCount - 1 - (p.wordCount - 1 - w) = w by omega]

/-- A position lands at a position of every phrase with the reversed lengths. -/
theorem isPosition_turn (hlengths : q.lengths = p.lengths.reverse) (h : p.isPosition i) :
    q.isPosition (p.turn i) := by
  rw [isPosition_iff] at h ⊢
  simp only [turn, wordCount_turned hlengths, wordLength_turned hlengths h.1]
  omega

/-- A position that is turned twice is where it was. -/
theorem turn_turn (hlengths : q.lengths = p.lengths.reverse) (h : p.isPosition i) :
    q.turn (p.turn i) = i := by
  rw [isPosition_iff] at h
  simp only [Position.ext_iff, turn, wordCount_turned hlengths, wordLength_turned hlengths h.1]
  omega

/-- Turning reverses the order of positions. -/
theorem turn_le_turn (hi : p.isPosition i) (hj : p.isPosition j) :
    p.turn j ≤ p.turn i ↔ i ≤ j := by
  rw [isPosition_iff] at hi hj
  simp only [Position.le_iff, turn]
  by_cases hw : i.word = j.word
  · rw [hw] at hi ⊢
    omega
  · omega

/-- Different positions land at different positions. -/
theorem turn_inj (hi : p.isPosition i) (hj : p.isPosition j) : p.turn i = p.turn j ↔ i = j := by
  rw [le_antisymm_iff, turn_le_turn hj hi, turn_le_turn hi hj, and_comm, ← le_antisymm_iff]

end Turning

end Phrase

end Diachrony
