import Diachrony.Proofs.Phrase.Joining

/-!
# Undivided phrases

Without breaks between syllables a phrase is nothing but its segments: pieces that are cut from it
are undivided, and joined again they are the phrase.
-/

namespace Diachrony

namespace Word

variable {u v w : Word}

/-- Undivided words are equal if their segments are. -/
theorem eq_of_segments_eq (hv : v.syllables = none) (hw : w.syllables = none)
    (h : v.segments = w.segments) : v = w := by
  cases v
  cases w
  simp only at hv hw h
  rw [hv, hw, h]

/-- Undivided words are joined to an undivided word. -/
theorem syllables_append (hv : v.syllables = none) (hw : w.syllables = none) :
    (v ++ w).syllables = none := by
  have hdivided : (v ++ w).isDivided = false := by
    rw [isDivided_append, isDivided, isDivided, hv, hw]
    rfl
  exact Option.isNone_iff_eq_none.mp (by simpa [isDivided] using hdivided)

/-- A piece of an undivided word is undivided. -/
theorem syllables_slice (hw : w.syllables = none) (a b : Nat) : (w.slice a b).syllables = none := by
  rw [slice, hw]
  rfl

/-- An undivided word is normalized. -/
theorem normalized_eq_self (hw : w.syllables = none) : w.normalized = w :=
  eq_of_segments_eq (by rw [normalized, hw]; rfl) hw rfl

/-- All of an undivided word. -/
theorem slice_all (hw : w.syllables = none) : w.slice 0 w.length = w :=
  eq_of_segments_eq (syllables_slice hw _ _) hw (by simp [length, List.extract_eq_take_drop])

/-- The front of joined words is the first of them. -/
theorem slice_append_left (hv : v.syllables = none) (hw : w.syllables = none) :
    (v ++ w).slice 0 v.length = v :=
  eq_of_segments_eq (syllables_slice (syllables_append hv hw) _ _) hv
    (by simp [length, List.extract_eq_take_drop])

/-- Segments of the second of joined words. -/
theorem extract_append_right (v w : Word) (a b : Nat) :
    (v ++ w).segments.extract (v.length + a) (v.length + b) = w.segments.extract a b := by
  rw [segments_append, List.extract_eq_take_drop, List.extract_eq_take_drop, length,
    List.drop_append, List.drop_eq_nil_of_le (Nat.le_add_right _ _), List.nil_append,
    Nat.add_sub_cancel_left, Nat.add_sub_add_left]

/-- A piece of the second of joined words. -/
theorem slice_append_right (hv : v.syllables = none) (hw : w.syllables = none) (a b : Nat) :
    (v ++ w).slice (v.length + a) (v.length + b) = w.slice a b :=
  eq_of_segments_eq (syllables_slice (syllables_append hv hw) _ _) (syllables_slice hw _ _)
    (by rw [segments_slice, segments_slice, extract_append_right])

end Word

namespace Phrase

variable {p q : Phrase} {i : Position}

/-- Whether no word of a phrase is divided into syllables. -/
def IsUndivided (p : Phrase) : Prop := ∀ w ∈ p.words, w.syllables = none

instance (p : Phrase) : Decidable p.IsUndivided :=
  inferInstanceAs (Decidable (∀ w ∈ p.words, w.syllables = none))

namespace IsUndivided

/-- The empty phrase is undivided. -/
theorem empty : Phrase.empty.IsUndivided := List.forall_mem_singleton.mpr rfl

/-- A word of an undivided phrase is undivided. -/
theorem wordAt (h : p.IsUndivided) (k : Nat) : (p.wordAt k).syllables = none := by
  rw [Phrase.wordAt, word?]
  cases hword : p.words[k]? with
  | none => rfl
  | some w => exact h w (List.mem_of_getElem? hword)

/-- Undivided fragments are joined to an undivided fragment. -/
theorem append (hp : p.IsUndivided) (hq : q.IsUndivided) : (p ++ q).IsUndivided := by
  obtain ⟨front, v, hwords⟩ := p.exists_words_eq_concat
  obtain ⟨w, rest, hwords'⟩ := q.exists_words_eq_cons
  rw [IsUndivided, hwords, List.forall_mem_append, List.forall_mem_singleton] at hp
  rw [IsUndivided, hwords', List.forall_mem_cons] at hq
  rw [IsUndivided, words_append hwords hwords', List.forall_mem_append, List.forall_mem_cons]
  exact ⟨hp.1, Word.syllables_append hp.2 hq.1, hq.2⟩

/-- Any number of undivided fragments is joined to an undivided fragment. -/
theorem join {parts : List Phrase} (h : ∀ part ∈ parts, part.IsUndivided) :
    (Phrase.join parts).IsUndivided := by
  induction parts with
  | nil => exact .empty
  | cons first rest ih =>
    rw [List.forall_mem_cons] at h
    rw [join_cons]
    exact h.1.append (ih h.2)

/-- A fragment of an undivided phrase is undivided. -/
theorem slice (h : p.IsUndivided) (a b : Position) : (p.slice a b).IsUndivided := by
  have hpiece (k m n : Nat) := Word.syllables_slice (h.wordAt k) m n
  rw [Phrase.slice]
  split
  · exact List.forall_mem_singleton.mpr (hpiece _ _ _)
  · rw [IsUndivided, List.forall_mem_cons, List.forall_mem_append, List.forall_mem_singleton]
    refine ⟨hpiece _ _ _, fun w hw ↦ ?_, hpiece _ _ _⟩
    rw [List.extract_eq_take_drop] at hw
    exact h w (List.mem_of_mem_drop (List.mem_of_mem_take hw))

/-- Nothing stands between a position and itself. -/
theorem slice_self (h : p.IsUndivided) (i : Position) : p.slice i i = .empty := by
  refine eq_of_words_eq ?_
  rw [Phrase.slice, if_pos rfl]
  refine congrArg (· :: []) (Word.eq_of_segments_eq (Word.syllables_slice (h.wordAt _) _ _) rfl ?_)
  rw [Word.segments_slice, List.extract_eq_take_drop, Nat.sub_self]
  rfl

/-- An undivided phrase is normalized. -/
theorem normalized_eq (h : p.IsUndivided) : p.normalized = p := by
  refine eq_of_words_eq ?_
  calc p.words.map Word.normalized = p.words.map id :=
        List.map_congr_left fun w hw ↦ Word.normalized_eq_self (h w hw)
    _ = p.words := List.map_id _

/-- The reversal of an undivided phrase is undivided. -/
theorem reversed (h : p.IsUndivided) : p.reversed.IsUndivided := by
  intro w hw
  obtain ⟨v, hv, rfl⟩ := List.mem_map.mp (List.mem_reverse.mp hw)
  rw [Word.reversed, Word.normalized, h v hv]
  rfl

end IsUndivided

/-- An undivided phrase may be cut in two at any position. -/
theorem exists_eq_append (h : p.IsUndivided) (hi : p.isPosition i) :
    ∃ t q : Phrase, t.IsUndivided ∧ q.IsUndivided ∧ p = t ++ q ∧ t.stop = i := by
  obtain ⟨hword, hsegment⟩ := isPosition_iff.mp hi
  rw [wordCount] at hword
  obtain ⟨front, w, rest, hwords, hfront⟩ : ∃ front w rest, p.words = front ++ w :: rest ∧
      front.length = i.word :=
    ⟨p.words.take i.word, p.words[i.word], p.words.drop (i.word + 1), by simp,
      List.length_take_of_le (Nat.le_of_lt hword)⟩
  have hat : p.wordAt i.word = w := by
    rw [wordAt, word?, hwords, ← hfront, List.getElem?_append_right (Nat.le_refl _), Nat.sub_self]
    rfl
  rw [wordLength, hat] at hsegment
  rw [IsUndivided, hwords, List.forall_mem_append, List.forall_mem_cons] at h
  obtain ⟨hbefore, hw, hafter⟩ := h
  have hpiece := Word.syllables_slice hw
  let t : Phrase := ⟨front ++ [w.slice 0 i.segment], by simp⟩
  let q : Phrase := ⟨w.slice i.segment w.length :: rest, by simp⟩
  refine ⟨t, q, ?_, List.forall_mem_cons.mpr ⟨hpiece _ _, hafter⟩, eq_of_words_eq ?_, ?_⟩
  · exact List.forall_mem_append.mpr ⟨hbefore, List.forall_mem_singleton.mpr (hpiece _ _)⟩
  · rw [words_append (p := t) (q := q) rfl rfl, hwords,
      w.slice_append_slice (Nat.zero_le _) hsegment hsegment, Word.slice_all hw]
  · rw [stop_of_words (p := t) rfl, Word.length_slice _ hsegment, hfront, Nat.sub_zero]

end Phrase

end Diachrony
