import Mathlib.Data.List.Sort
import Diachrony.Proofs.Phrase.Steps
import Diachrony.Proofs.Phrase.Undivided

/-!
# Behind a fragment

A phrase that is joined behind a fragment stands there as it is: its first word goes on where the
last word of the fragment ends, and what lies ahead of a position is what lay ahead of it before. So
a position is taken along by the fragment, and the order of positions, their words, the next
position and, if nothing is divided, every fragment between two positions come along with it.
-/

namespace Diachrony.Phrase

/-- What a fragment has in front of the word with some index of a phrase that is joined behind it:
its last word, in front of the first one. -/
def lead (t : Phrase) (k : Nat) : Word := if k = 0 then t.wordAt (t.wordCount - 1) else .empty

/-- Where a position of a phrase stands when the phrase is joined behind a fragment. -/
def behind (t : Phrase) (i : Position) : Position :=
  ⟨t.wordCount - 1 + i.word, (t.lead i.word).length + i.segment⟩

variable {t p q : Phrase} {i j a b : Position}

/-- The word in which a position stands behind a fragment. -/
@[simp] theorem word_behind (t : Phrase) (i : Position) :
    (t.behind i).word = t.wordCount - 1 + i.word := rfl

/-- The place in its word at which a position stands behind a fragment. -/
@[simp] theorem segment_behind (t : Phrase) (i : Position) :
    (t.behind i).segment = (t.lead i.word).length + i.segment := rfl

/-- The start of a phrase stands at the end of the fragment. -/
theorem behind_start (t p : Phrase) : t.behind p.start = t.stop := rfl

section Order

/-- Positions keep their order behind a fragment. -/
theorem behind_lt_behind : t.behind i < t.behind j ↔ i < j := by
  simp only [Position.lt_iff, behind]
  by_cases hword : i.word = j.word
  · rw [hword]
    omega
  · omega

/-- Positions keep their order behind a fragment. -/
theorem behind_le_behind : t.behind i ≤ t.behind j ↔ i ≤ j := by
  rw [← not_lt, behind_lt_behind, not_lt]

/-- Different positions stand at different positions behind a fragment. -/
theorem behind_inj : t.behind i = t.behind j ↔ i = j := by
  rw [le_antisymm_iff, behind_le_behind, behind_le_behind, ← le_antisymm_iff]

end Order

section Words

/-- The words of a phrase come after those of the fragment, the first one joined to the last. -/
theorem word?_append (t p : Phrase) (k : Nat) :
    (t ++ p).word? (t.wordCount - 1 + k) = (p.word? k).map fun w ↦ t.lead k ++ w := by
  obtain ⟨front, v, ht⟩ := t.exists_words_eq_concat
  obtain ⟨w, rest, hp⟩ := p.exists_words_eq_cons
  have hcount := wordCount_sub_one ht
  rw [word?, word?, words_append ht hp, hp, hcount,
    List.getElem?_append_right (Nat.le_add_right _ _), Nat.add_sub_cancel_left, lead, hcount]
  cases k with
  | zero =>
    rw [if_pos rfl, wordAt, word?, ht, List.getElem?_concat_length, Option.getD_some]
    rfl
  | succ k =>
    rw [if_neg (Nat.succ_ne_zero k), List.getElem?_cons_succ, List.getElem?_cons_succ]
    simp

/-- Behind the first word a phrase has its own words behind a fragment. -/
theorem drop_words_append (t p : Phrase) (k : Nat) :
    (t ++ p).words.drop (t.wordCount - 1 + k + 1) = p.words.drop (k + 1) := by
  obtain ⟨front, v, ht⟩ := t.exists_words_eq_concat
  obtain ⟨w, rest, hp⟩ := p.exists_words_eq_cons
  have hcount := wordCount_sub_one ht
  rw [words_append ht hp, hp, hcount, Nat.add_assoc, List.drop_length_add_append,
    List.drop_succ_cons, List.drop_succ_cons]

/-- A word of a phrase behind a fragment. -/
theorem wordAt_append (t p : Phrase) (k : Nat) :
    (t ++ p).wordAt (t.wordCount - 1 + k) = t.lead k ++ p.wordAt k := by
  rw [wordAt, word?_append, wordAt]
  cases hword : p.word? k with
  | some w => rfl
  | none =>
    have hk : k ≠ 0 := by
      rintro rfl
      exact absurd (word?_isSome.mpr p.wordCount_pos) (by simp [hword])
    rw [lead, if_neg hk]
    exact (Word.empty_append _).symm

/-- The length of a word of a phrase behind a fragment. -/
theorem wordLength_append (t p : Phrase) (k : Nat) :
    (t ++ p).wordLength (t.wordCount - 1 + k) = (t.lead k).length + p.wordLength k := by
  rw [wordLength, wordAt_append, Word.length_append, wordLength]

/-- Joining a phrase behind a fragment makes one word of two. -/
theorem wordCount_append (t p : Phrase) : (t ++ p).wordCount = t.wordCount - 1 + p.wordCount := by
  obtain ⟨front, v, ht⟩ := t.exists_words_eq_concat
  obtain ⟨w, rest, hp⟩ := p.exists_words_eq_cons
  simp [wordCount, words_append ht hp, ht, hp]

end Words

section Places

/-- Positions of a phrase are positions behind a fragment. -/
theorem isPosition_behind (t p : Phrase) (i : Position) :
    (t ++ p).isPosition (t.behind i) = p.isPosition i := by
  rw [Bool.eq_iff_iff, isPosition_iff, isPosition_iff, wordCount_append, word_behind,
    wordLength_append, segment_behind]
  omega

/-- A position that does not stand before the end of the fragment is one of the phrase behind it. -/
theorem exists_behind (hj : (t ++ p).isPosition j) (hle : t.stop ≤ j) :
    ∃ i, p.isPosition i ∧ t.behind i = j := by
  rw [← behind_start t p, Position.le_iff, word_behind, segment_behind, start] at hle
  simp only [Nat.add_zero] at hle
  have hword : t.wordCount - 1 ≤ j.word := by omega
  have hlead : (t.lead (j.word - (t.wordCount - 1))).length ≤ j.segment := by
    rcases hle with hlt | ⟨heq, hle⟩
    · rw [lead, if_neg (by omega)]
      exact Nat.zero_le _
    · rwa [← heq, Nat.sub_self]
  have hplace : t.behind ⟨j.word - (t.wordCount - 1),
      j.segment - (t.lead (j.word - (t.wordCount - 1))).length⟩ = j :=
    Position.ext_iff.mpr ⟨Nat.add_sub_cancel' hword, Nat.add_sub_cancel' hlead⟩
  exact ⟨_, by rw [← isPosition_behind t p, hplace, hj], hplace⟩

/-- The end of a phrase is the end behind a fragment. -/
theorem stop_append (t p : Phrase) : (t ++ p).stop = t.behind p.stop := by
  have hpos := p.wordCount_pos
  have hlast : t.wordCount - 1 + p.wordCount - 1 = t.wordCount - 1 + (p.wordCount - 1) := by omega
  rw [stop, wordCount_append, hlast, wordLength_append]
  rfl

/-- A position is taken along by one fragment after the other. -/
theorem behind_append (t q : Phrase) (i : Position) :
    (t ++ q).behind i = t.behind (q.behind i) := by
  have hpos := q.wordCount_pos
  rw [Position.ext_iff]
  refine ⟨?_, ?_⟩
  · simp only [behind, wordCount_append]
    omega
  · simp only [behind]
    by_cases hword : i.word = 0
    · have hlast : t.wordCount - 1 + q.wordCount - 1 = t.wordCount - 1 + (q.wordCount - 1) := by
        omega
      rw [hword, Nat.add_zero, lead, if_pos rfl, wordCount_append, hlast, wordAt_append,
        Word.length_append, Nat.add_assoc]
      rfl
    · rw [lead, if_neg hword, lead, if_neg (by omega), lead, if_neg hword]
      exact (Nat.zero_add _).symm

/-- The next position behind a fragment. -/
theorem next?_behind (t p : Phrase) (i : Position) :
    (t ++ p).next? (t.behind i) = (p.next? i).map t.behind := by
  have hinside : (t.behind i).segment < (t.lead i.word).length + p.wordLength i.word ↔
      i.segment < p.wordLength i.word := by
    rw [segment_behind]
    omega
  have hlast : t.wordCount - 1 + i.word + 1 < t.wordCount - 1 + p.wordCount ↔
      i.word + 1 < p.wordCount := by omega
  rw [next?, next?, wordCount_append, word_behind, wordLength_append]
  simp only [hinside, hlast]
  split
  · rfl
  · split
    · rw [Option.map_some, behind, lead, if_neg (Nat.succ_ne_zero _)]
      rfl
    · rfl

/-- From the end of the fragment on there are the positions of the phrase behind it. -/
theorem filter_positions_append (t p : Phrase) :
    (t ++ p).positions.filter (fun i ↦ t.stop ≤ i) = p.positions.map t.behind := by
  have hfilter : ((t ++ p).positions.filter fun i ↦ t.stop ≤ i).Pairwise (· < ·) :=
    (t ++ p).pairwise_positions.filter _
  have hmap : (p.positions.map t.behind).Pairwise (· < ·) :=
    List.pairwise_map.mpr (p.pairwise_positions.imp behind_lt_behind.mpr)
  refine hfilter.eq_of_mem_iff hmap fun j ↦ ?_
  rw [List.mem_filter, decide_eq_true_eq, mem_positions, List.mem_map]
  constructor
  · rintro ⟨hj, hle⟩
    obtain ⟨i, hi, rfl⟩ := exists_behind hj hle
    exact ⟨i, mem_positions.mpr hi, rfl⟩
  · rintro ⟨i, hi, rfl⟩
    rw [isPosition_behind, ← behind_start t p, behind_le_behind]
    exact ⟨mem_positions.mp hi, start_le i⟩

end Places

section Ahead

/-- A step behind a fragment. -/
theorem step_behind (t : Phrase) (i : Position) : (t.behind i).step = t.behind i.step := rfl

/-- The segment at a position behind a fragment. -/
theorem segmentAt?_behind (t p : Phrase) (i : Position) :
    (t ++ p).segmentAt? (t.behind i) = p.segmentAt? i := by
  rw [segmentAt?, segmentAt?, word_behind, word?_append]
  cases p.word? i.word with
  | none => rfl
  | some w =>
    simp only [Option.map_some, Option.bind_some, Word.get?, Word.segments_append, segment_behind,
      Word.length]
    rw [List.getElem?_append_right (Nat.le_add_right _ _), Nat.add_sub_cancel_left]

/-- Words end behind a fragment where they end. -/
theorem isWordEnd_behind (t p : Phrase) (i : Position) :
    (t ++ p).isWordEnd (t.behind i) = p.isWordEnd i := by
  rw [isWordEnd, isWordEnd, word_behind, wordLength_append, segment_behind, decide_eq_decide]
  exact Nat.add_left_cancel_iff

/-- The start of the next word behind a fragment. -/
theorem nextWord?_behind (t p : Phrase) (i : Position) :
    (t ++ p).nextWord? (t.behind i) = (p.nextWord? i).map t.behind := by
  have hlast : t.wordCount - 1 + i.word + 1 < t.wordCount - 1 + p.wordCount ↔
      i.word + 1 < p.wordCount := by omega
  rw [nextWord?, nextWord?, isWordEnd_behind, wordCount_append, word_behind]
  simp only [hlast]
  split
  · rw [Option.map_some, behind, lead, if_neg (Nat.succ_ne_zero _)]
    rfl
  · rfl

/-- The end of a literal behind a fragment. -/
theorem afterLiteral?_behind (same : Segment → Segment → Bool) (literal : Word) (t p : Phrase)
    (i : Position) : (t ++ p).afterLiteral? same literal (t.behind i) =
      (p.afterLiteral? same literal i).map t.behind := by
  rw [afterLiteral?, afterLiteral?, word_behind, word?_append]
  cases p.word? i.word with
  | none => rfl
  | some w =>
    simp only [Option.map_some, Option.bind_eq_bind, Option.bind_some, segment_behind,
      Word.length_append, Nat.add_assoc, Nat.add_le_add_iff_left, Word.extract_append_right]
    split
    · rfl
    · rfl

/-- The end of words that follow one another behind a fragment. -/
theorem afterWords?_behind (same : Segment → Segment → Bool) (words : List Word) (t p : Phrase)
    (i : Position) : (t ++ p).afterWords? same words (t.behind i) =
      (p.afterWords? same words i).map t.behind := by
  fun_induction afterWords? same p words i with
  | case1 => rfl
  | case2 w i => exact afterLiteral?_behind same w t p i
  | case3 w rest i hne ih =>
    rw [afterWords?, afterLiteral?_behind]
    · cases p.afterLiteral? same w i with
      | none => rfl
      | some stop =>
        simp only [Option.map_some, Option.bind_eq_bind, Option.bind_some, nextWord?_behind]
        cases p.nextWord? stop with
        | none => rfl
        | some next => exact ih next
    · exact hne

end Ahead

section Cutting

variable (ht : t.IsUndivided) (hp : p.IsUndivided)
include ht hp

/-- What stands between two positions of a phrase stands between them behind a fragment. -/
theorem slice_behind (hab : a ≤ b) : (t ++ p).slice (t.behind a) (t.behind b) = p.slice a b := by
  have hlead (k : Nat) : (t.lead k).syllables = none := by
    rw [lead]
    split
    · exact ht.wordAt _
    · rfl
  have hpiece (k m n : Nat) : ((t ++ p).wordAt (t.wordCount - 1 + k)).slice
      ((t.lead k).length + m) ((t.lead k).length + n) = (p.wordAt k).slice m n := by
    rw [wordAt_append, Word.slice_append_right (hlead k) (hp.wordAt k)]
  have hrun : (t ++ p).words.extract (t.wordCount - 1 + a.word + 1) (t.wordCount - 1 + b.word) =
      p.words.extract (a.word + 1) b.word := by
    rw [List.extract_eq_take_drop, List.extract_eq_take_drop, drop_words_append, Nat.add_assoc,
      Nat.add_sub_add_left]
  refine eq_of_words_eq ?_
  by_cases hword : a.word = b.word
  · have hsame : (t.behind a).word = (t.behind b).word := congrArg (t.wordCount - 1 + ·) hword
    rw [slice, slice, if_pos hword, if_pos hsame]
    refine congrArg (· :: []) ?_
    rw [word_behind, segment_behind, segment_behind, ← hword, hpiece]
  · have hlt : a.word < b.word := by
      rw [Position.le_iff] at hab
      omega
    have hlast : t.lead b.word = .empty := if_neg (Nat.ne_zero_of_lt hlt)
    rw [words_slice_of_lt hlt, words_slice_of_lt (Nat.add_lt_add_left hlt _)]
    simp only [word_behind, segment_behind, wordLength_append, hpiece, hrun]
    refine congrArg (_ :: _ ++ [·]) ?_
    rw [← hpiece b.word 0 b.segment, hlast]
    rfl

/-- A fragment between two positions of a phrase is found behind a fragment. -/
theorem slice?_behind (a b : Position) :
    (t ++ p).slice? (t.behind a) (t.behind b) = p.slice? a b := by
  rw [slice?, slice?, isPosition_behind, isPosition_behind]
  simp only [behind_le_behind]
  split
  · next h => rw [slice_behind ht hp h.2.2]
  · rfl

/-- The fragment in front of a phrase. -/
theorem slice_front : (t ++ p).slice (t ++ p).start t.stop = t := by
  obtain ⟨front, v, hwords⟩ := t.exists_words_eq_concat
  obtain ⟨w, rest, hwords'⟩ := p.exists_words_eq_cons
  have hjoined := words_append hwords hwords'
  rw [IsUndivided, hwords, List.forall_mem_append, List.forall_mem_singleton] at ht
  rw [IsUndivided, hwords', List.forall_mem_cons] at hp
  rw [stop_of_words hwords]
  refine eq_of_words_eq ?_
  cases front with
  | nil =>
    show [((t ++ p).wordAt 0).slice 0 v.length] = t.words
    rw [wordAt, word?, hjoined, hwords]
    exact congrArg (· :: []) (Word.slice_append_left ht.2 hp.1)
  | cons u front =>
    rw [List.forall_mem_cons] at ht
    have hfirst : (t ++ p).wordAt 0 = u := by
      rw [wordAt, word?, hjoined]
      rfl
    have hlast : (t ++ p).wordAt (u :: front).length = v ++ w := by
      rw [wordAt, word?, hjoined, List.getElem?_append_right (Nat.le_refl _), Nat.sub_self]
      rfl
    have hrun : (t ++ p).words.extract 1 (u :: front).length = front := by
      rw [hjoined, List.extract_eq_take_drop]
      simp
    rw [words_slice_of_lt (Nat.succ_pos _), hwords]
    show ((t ++ p).wordAt 0).slice 0 ((t ++ p).wordAt 0).length :: _ ++ _ = _
    rw [hfirst, hlast, Word.slice_append_left ht.2 hp.1, Word.slice_all ht.1.1]
    exact congrArg (_ :: · ++ _) hrun

/-- Up to a position of a phrase behind a fragment stand the fragment and what comes before the
position. -/
theorem slice_append_front (hi : p.isPosition i) :
    (t ++ p).slice (t ++ p).start (t.behind i) = t ++ p.slice p.start i := by
  obtain ⟨u, q, hu, hq, rfl, rfl⟩ := exists_eq_append hp hi
  rw [slice_front hu hq, ← append_assoc, ← stop_append]
  exact slice_front (ht.append hu) hq

omit ht in
/-- All of an undivided phrase. -/
theorem slice_all : p.slice p.start p.stop = p := by
  have hall := slice_front hp .empty
  rwa [append_empty] at hall

/-- The phrase behind a fragment. -/
theorem slice_back : (t ++ p).slice t.stop (t ++ p).stop = p := by
  rw [stop_append, ← behind_start t p, slice_behind ht hp (start_le _), slice_all hp]

end Cutting

end Diachrony.Phrase
