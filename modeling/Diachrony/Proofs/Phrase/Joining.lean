import Diachrony.Proofs.Phrase.Positions
import Diachrony.Proofs.Word.Likeness

/-!
# Joining and cutting fragments

How many positions a phrase has that is joined from fragments, and a fragment that is cut from a
phrase. Joining fragments takes one position away, the one where they touch, and leaves the
positions of the first fragment where they are.

Fragments that are cut next to each other are joined to the fragment between their ends. Only a word
between them that has no segment may come out otherwise, for no piece of it holds its matrix.
-/

namespace Diachrony

namespace Phrase

variable {p q : Phrase} {i a b c : Position}

/-- The phrase of one word has the length of the word. -/
@[simp] theorem lengths_ofWord (w : Word) : (ofWord w).lengths = [w.length] := rfl

section Joining

private theorem joinWords_concat (front : List Word) (v w : Word) (rest : List Word) :
    joinWords (front ++ [v]) (w :: rest) = front ++ (v ++ w) :: rest := by
  induction front with
  | nil => rfl
  | cons u front ih =>
    cases front with
    | nil => rfl
    | cons t front => exact congrArg (u :: ·) ih

/-- Phrases with the same words are equal. -/
theorem eq_of_words_eq (h : p.words = q.words) : p = q := by
  cases p
  cases q
  cases h
  rfl

/-- A phrase has a last word. -/
theorem exists_words_eq_concat (p : Phrase) : ∃ front v, p.words = front ++ [v] :=
  ⟨_, _, (List.dropLast_concat_getLast p.words_ne_nil).symm⟩

/-- A phrase has a first word. -/
theorem exists_words_eq_cons (p : Phrase) : ∃ w rest, p.words = w :: rest :=
  List.exists_cons_of_ne_nil p.words_ne_nil

/-- The index of the last word of a phrase. -/
theorem wordCount_sub_one {front : List Word} {v : Word} (h : p.words = front ++ [v]) :
    p.wordCount - 1 = front.length := by
  rw [wordCount, h, List.length_append, List.length_singleton, Nat.add_sub_cancel]

/-- The end of a phrase is the end of its last word. -/
theorem stop_of_words {front : List Word} {v : Word} (h : p.words = front ++ [v]) :
    p.stop = ⟨front.length, v.length⟩ := by
  rw [stop, wordCount_sub_one h, wordLength, wordAt, word?, h, List.getElem?_concat_length,
    Option.getD_some]

/-- Joining fragments joins the last word of the first and the first word of the second. -/
theorem words_append {front rest : List Word} {v w : Word} (hp : p.words = front ++ [v])
    (hq : q.words = w :: rest) : (p ++ q).words = front ++ (v ++ w) :: rest := by
  show joinWords p.words q.words = _
  rw [hp, hq, joinWords_concat]

/-- Joining fragments joins the last word of the first and the first word of the second. -/
theorem lengths_append (p q : Phrase) : ∃ front v w rest, p.lengths = front ++ [v] ∧
    q.lengths = w :: rest ∧ (p ++ q).lengths = front ++ (v + w) :: rest := by
  obtain ⟨front, v, hp⟩ := p.exists_words_eq_concat
  obtain ⟨w, rest, hq⟩ := q.exists_words_eq_cons
  refine ⟨front.map Word.length, v.length, w.length, rest.map Word.length, ?_, ?_, ?_⟩
  · rw [lengths, hp, List.map_append, List.map_cons, List.map_nil]
  · rw [lengths, hq, List.map_cons]
  · rw [lengths, words_append hp hq, List.map_append, List.map_cons, Word.length_append]

/-- Joining fragments takes away the position where they touch. -/
theorem size_append (p q : Phrase) : (p ++ q).size + 1 = p.size + q.size := by
  obtain ⟨front, v, w, rest, hp, hq, hjoined⟩ := lengths_append p q
  simp only [size, hp, hq, hjoined, span_append, span]
  omega

/-- A position of the first fragment is a position of the whole. -/
theorem isPosition_append (q : Phrase) (h : p.isPosition i) : (p ++ q).isPosition i := by
  obtain ⟨front, v, w, rest, hp, -, hjoined⟩ := lengths_append p q
  rw [isPosition_iff, ← length_lengths, wordLength_eq] at h ⊢
  rw [hp] at h
  rw [hjoined]
  simp only [List.length_append, List.length_cons, List.length_nil] at h ⊢
  rcases Nat.lt_or_ge i.word front.length with hlt | hge
  · rw [List.getElem?_append_left hlt] at h ⊢
    exact ⟨by omega, h.2⟩
  · have hlast : i.word = front.length := by omega
    rw [hlast, List.getElem?_append_right (Nat.le_refl _), Nat.sub_self] at h ⊢
    simp only [List.getElem?_cons_zero, Option.getD_some] at h ⊢
    omega

/-- As many positions stand before a position of the first fragment in the whole. -/
theorem offset_append (q : Phrase) (h : p.isPosition i) : (p ++ q).offset i = p.offset i := by
  obtain ⟨front, v, w, rest, hp, -, hjoined⟩ := lengths_append p q
  have hle : i.word ≤ front.length := by
    rw [isPosition_iff, ← length_lengths, hp, List.length_append] at h
    exact Nat.lt_succ_iff.mp h.1
  rw [offset, offset, hp, hjoined, List.take_append_of_le_length hle,
    List.take_append_of_le_length hle]

/-- Before the end of a phrase stand all its positions but one. -/
theorem offset_stop (p : Phrase) : p.offset p.stop + 1 = p.size := by
  have hpos := p.wordCount_pos
  have hstep := span_take_succ p.lengths (w := p.wordCount - 1) (by rw [length_lengths]; omega)
  rw [Nat.sub_add_cancel hpos, List.take_of_length_le (Nat.le_of_eq (length_lengths p))] at hstep
  rw [offset, stop, wordLength_eq, size, hstep]
  simp only
  omega

/-- Behind a fragment with more than one position a phrase makes up less than the whole. -/
theorem size_lt_size_append (q : Phrase) (h : i < p.stop) : q.size < (p ++ q).size := by
  have hlt := offset_lt_offset p.isPosition_start (lt_of_le_of_lt (start_le i) h)
  have hend := p.offset_stop
  have hwhole := size_append p q
  omega

/-- Nothing in front of a fragment leaves the fragment. -/
@[simp] theorem empty_append (p : Phrase) : empty ++ p = p := by
  obtain ⟨w, rest, hp⟩ := p.exists_words_eq_cons
  have hempty : empty.words = [] ++ [Word.empty] := rfl
  refine eq_of_words_eq ?_
  rw [words_append hempty hp, Word.empty_append, List.nil_append, hp]

/-- Nothing behind a fragment leaves the fragment. -/
@[simp] theorem append_empty (p : Phrase) : p ++ empty = p := by
  obtain ⟨front, v, hp⟩ := p.exists_words_eq_concat
  refine eq_of_words_eq ?_
  rw [words_append hp (rfl : empty.words = [Word.empty]), Word.append_empty, hp]

/-- Fragments may be joined in any order. -/
theorem append_assoc (p q r : Phrase) : p ++ q ++ r = p ++ (q ++ r) := by
  obtain ⟨front, v, hp⟩ := p.exists_words_eq_concat
  obtain ⟨w, rest, hr⟩ := r.exists_words_eq_cons
  obtain ⟨u, middle, hq⟩ := q.exists_words_eq_cons
  refine eq_of_words_eq ?_
  rcases List.eq_nil_or_concat middle with rfl | ⟨middle, t, rfl⟩
  · -- The only word of the second fragment is joined on both sides.
    have hqr : (q ++ r).words = (u ++ w) :: rest :=
      words_append (hq.trans (List.nil_append _).symm) hr
    rw [words_append (words_append hp hq) hr, words_append hp hqr, Word.append_assoc]
  · have hpq : (p ++ q).words = (front ++ (v ++ u) :: middle) ++ [t] := by
      rw [words_append hp hq]
      simp
    have hqr : (q ++ r).words = u :: (middle ++ (t ++ w) :: rest) :=
      words_append (hq.trans (by simp) : q.words = (u :: middle) ++ [t]) hr
    rw [words_append hpq hr, words_append hp hqr]
    simp

/-- Fragments are joined one after the other. -/
theorem join_cons (first : Phrase) (rest : List Phrase) :
    join (first :: rest) = first ++ join rest := by
  induction rest generalizing first with
  | nil => exact (append_empty first).symm
  | cons second rest ih =>
    show join ((first ++ second) :: rest) = _
    rw [ih, ih, append_assoc]

end Joining

section Cutting

/-- A fragment that ends in the word where it starts is a piece of that word. -/
theorem words_slice_of_eq (p : Phrase) (heq : a.word = b.word) :
    (p.slice a b).words = [(p.wordAt a.word).slice a.segment b.segment] := by
  rw [slice, if_pos heq]
  rfl

/-- A fragment that ends in a later word has a piece of the first word, whole words and a piece of
the last. -/
theorem words_slice_of_lt (hlt : a.word < b.word) : (p.slice a b).words =
    (p.wordAt a.word).slice a.segment (p.wordLength a.word) ::
      p.words.extract (a.word + 1) b.word ++ [(p.wordAt b.word).slice 0 b.segment] := by
  rw [slice, if_neg (Nat.ne_of_lt hlt)]
  rfl

/-- A fragment goes on in its last word with a piece of one word. -/
theorem words_append_slice_of_eq {front : List Word} {v : Word} (hq : q.words = front ++ [v])
    (p : Phrase) (heq : a.word = b.word) : (q ++ p.slice a b).words =
      front ++ [v ++ (p.wordAt a.word).slice a.segment b.segment] := by
  rw [slice, if_pos heq]
  exact words_append hq rfl

/-- A piece of several words ends in a word of its own. -/
theorem words_append_slice_of_lt {front : List Word} {v : Word} (hq : q.words = front ++ [v])
    (p : Phrase) (hlt : a.word < b.word) : (q ++ p.slice a b).words =
      (front ++ (v ++ (p.wordAt a.word).slice a.segment (p.wordLength a.word)) ::
        p.words.extract (a.word + 1) b.word) ++ [(p.wordAt b.word).slice 0 b.segment] := by
  rw [slice, if_neg (Nat.ne_of_lt hlt), List.append_assoc, List.cons_append]
  exact words_append hq rfl

/-- A run of words is cut at one of them. -/
theorem extract_words_eq {i k l : Nat} (hik : i ≤ k) (hkl : k < l) (hk : k < p.wordCount) :
    p.words.extract i l = p.words.extract i k ++ p.wordAt k :: p.words.extract (k + 1) l := by
  have hdrop : p.words.drop k = p.wordAt k :: p.words.drop (k + 1) := by
    rw [List.drop_eq_getElem_cons hk, wordAt, word?, List.getElem?_eq_getElem hk, Option.getD_some]
  simp only [List.extract_eq_take_drop]
  rw [show l - i = k - i + (l - (k + 1) + 1) by omega, List.take_add, List.drop_drop,
    Nat.add_sub_cancel' hik, hdrop, List.take_succ_cons]

private theorem span_take_of_le (l : List Nat) {m n : Nat} (h : m ≤ n) :
    span (l.take n) = span (l.take m) + span ((l.drop m).take (n - m)) := by
  have hsplit := List.take_append_drop m (l.take n)
  rw [List.take_take, Nat.min_eq_left h, List.drop_take] at hsplit
  rw [← hsplit, span_append]

/-- A fragment has the positions between its ends, both of them included. -/
theorem size_slice (ha : p.isPosition a) (hb : p.isPosition b) (hab : a ≤ b) :
    (p.slice a b).size + p.offset a = p.offset b + 1 := by
  rw [isPosition_iff] at ha hb
  rw [Position.le_iff] at hab
  rw [slice]
  split
  · next hword =>
    rw [← hword] at hb
    rw [size, lengths_ofWord, Word.length_slice _ hb.2, offset, offset, hword]
    simp only [span]
    omega
  · next hword =>
    have hlt : a.word + 1 ≤ b.word := by omega
    have hstep := span_take_succ p.lengths (w := a.word) (by rw [length_lengths]; exact ha.1)
    have hbetween := span_take_of_le p.lengths hlt
    have hfirst : ((p.wordAt a.word).slice a.segment (p.wordLength a.word)).length =
        p.wordLength a.word - a.segment := Word.length_slice _ (Nat.le_refl _)
    have hlast : ((p.wordAt b.word).slice 0 b.segment).length = b.segment :=
      Word.length_slice _ hb.2
    rw [size, lengths, List.map_cons, List.map_append, List.map_cons, List.map_nil, hfirst, hlast,
      List.extract_eq_take_drop, List.map_take, List.map_drop, offset, offset, hbetween, hstep,
      ← wordLength_eq]
    show span ([p.wordLength a.word - a.segment] ++ (_ ++ [b.segment])) + _ = _
    rw [span_append, span_append]
    simp only [span, lengths]
    omega

/-- Pieces that touch in the word where the first one starts or the second one ends are joined to
one piece. -/
theorem slice_append_slice (hb : p.isPosition b) (hab : a ≤ b) (hbc : b ≤ c)
    (hword : a.word = b.word ∨ b.word = c.word) : p.slice a b ++ p.slice b c = p.slice a c := by
  have hlength : b.segment ≤ (p.wordAt b.word).length := (isPosition_iff.mp hb).2
  refine eq_of_words_eq ?_
  rw [Position.le_iff] at hab hbc
  by_cases hfirst : a.word = b.word
  · have hle : a.segment ≤ b.segment := by omega
    have hpiece : (p.slice a b).words = [] ++ [(p.wordAt a.word).slice a.segment b.segment] :=
      words_slice_of_eq p hfirst
    by_cases hlast : b.word = c.word
    · have hle' : b.segment ≤ c.segment := by omega
      rw [words_append_slice_of_eq hpiece p hlast,
        words_slice_of_eq p (hfirst.trans hlast), hfirst, List.nil_append,
        Word.slice_append_slice _ hle hle' hlength]
    · have hlt : b.word < c.word := by omega
      rw [words_append_slice_of_lt hpiece p hlt, words_slice_of_lt (hfirst ▸ hlt),
        hfirst, List.nil_append, wordLength, Word.slice_append_slice _ hle hlength hlength]
  · have hlt : a.word < b.word := by omega
    have hlast := hword.resolve_left hfirst
    have hle : b.segment ≤ c.segment := by omega
    rw [words_append_slice_of_eq (words_slice_of_lt hlt) p hlast, words_slice_of_lt (hlast ▸ hlt),
      Word.slice_append_slice _ (Nat.zero_le _) hle hlength, hlast]

/-- Pieces that touch in a word between are joined to one piece with that word cut to all of it. -/
private theorem words_slice_append_slice (hb : p.isPosition b) (hab : a.word < b.word)
    (hbc : b.word < c.word) : ∃ front rest,
    (p.slice a b ++ p.slice b c).words =
      front ++ (p.wordAt b.word).slice 0 (p.wordAt b.word).length :: rest ∧
    (p.slice a c).words = front ++ p.wordAt b.word :: rest := by
  have hlength : b.segment ≤ (p.wordAt b.word).length := (isPosition_iff.mp hb).2
  have hwhole : (p.wordAt b.word).slice 0 b.segment ++
      (p.wordAt b.word).slice b.segment (p.wordLength b.word) =
        (p.wordAt b.word).slice 0 (p.wordAt b.word).length :=
    Word.slice_append_slice _ (Nat.zero_le _) hlength hlength
  refine ⟨(p.wordAt a.word).slice a.segment (p.wordLength a.word) ::
      p.words.extract (a.word + 1) b.word,
    p.words.extract (b.word + 1) c.word ++ [(p.wordAt c.word).slice 0 c.segment], ?_, ?_⟩
  · rw [words_append_slice_of_lt (words_slice_of_lt hab) p hbc, hwhole, List.append_assoc,
      List.cons_append, List.cons_append, List.cons_append]
  · rw [words_slice_of_lt (Nat.lt_trans hab hbc), extract_words_eq hab hbc (isPosition_iff.mp hb).1]
    simp

/-- Pieces that are cut next to each other come out joined as one piece, unless they touch in a word
between that has no segment and a matrix at its start. -/
theorem normalized_slice_append_slice_iff (hb : p.isPosition b) (hab : a ≤ b) (hbc : b ≤ c) :
    (p.slice a b ++ p.slice b c).normalized = (p.slice a c).normalized ↔
      (a.word < b.word → b.word < c.word → (p.wordAt b.word).isEmpty →
        (p.wordAt b.word).syllableMatrix 0 = ∅) := by
  by_cases hbetween : a.word < b.word ∧ b.word < c.word
  · obtain ⟨hlt, hlt'⟩ := hbetween
    obtain ⟨front, rest, hjoined, hpiece⟩ := words_slice_append_slice hb hlt hlt'
    have hmap (w : Word) : (front ++ w :: rest).map Word.normalized =
        front.map Word.normalized ++ w.normalized :: rest.map Word.normalized := by
      rw [List.map_append, List.map_cons]
    have hwords : (p.slice a b ++ p.slice b c).normalized = (p.slice a c).normalized ↔
        (p.slice a b ++ p.slice b c).words.map Word.normalized =
          (p.slice a c).words.map Word.normalized := 
      ⟨fun h ↦ congrArg words h, fun h ↦ eq_of_words_eq h⟩
    rw [hwords, hjoined, hpiece, hmap, hmap, List.append_cancel_left_eq, List.cons.injEq,
      and_iff_left rfl, Word.normalized_slice_iff]
    exact ⟨fun h _ _ ↦ h, fun h ↦ h hlt hlt'⟩
  · have hword : a.word = b.word ∨ b.word = c.word := by
      rw [Position.le_iff] at hab hbc
      omega
    rw [slice_append_slice hb hab hbc hword]
    exact iff_of_true rfl fun hlt hlt' ↦ (hbetween ⟨hlt, hlt'⟩).elim

/-- Words and fragments are joined in any order, and nothing joined to them leaves them as they are.
Pieces of a word that are cut next to each other are joined to one piece, and so do pieces of a
phrase come out, unless they touch in a word between that has no segment and a matrix at its
start. -/
theorem joining_undoes_cutting (u v w : Word) (p q r : Phrase) {a b c : Position}
    (hb : p.isPosition b) (hab : a ≤ b) (hbc : b ≤ c) :
    (u ++ v ++ w = u ++ (v ++ w) ∧ Word.empty ++ w = w ∧ w ++ Word.empty = w) ∧
    (p ++ q ++ r = p ++ (q ++ r) ∧ empty ++ p = p ∧ p ++ empty = p) ∧
    (∀ i j k, i ≤ j → j ≤ k → k ≤ w.length → w.slice i j ++ w.slice j k = w.slice i k) ∧
    ((p.slice a b ++ p.slice b c).normalized = (p.slice a c).normalized ↔
      (a.word < b.word → b.word < c.word → (p.wordAt b.word).isEmpty →
        (p.wordAt b.word).syllableMatrix 0 = ∅)) := by
  refine ⟨⟨Word.append_assoc u v w, w.empty_append, w.append_empty⟩,
    ⟨append_assoc p q r, p.empty_append, p.append_empty⟩, ?_,
    normalized_slice_append_slice_iff hb hab hbc⟩
  intro i j k hij hjk hk
  exact w.slice_append_slice hij hjk (Nat.le_trans hjk hk)

/-- Between two words a stressed word without segments keeps its matrix if it is not cut, and loses
it if it is. -/
theorem joining_undoes_cutting_beside_stress :
    let p : Phrase := .ofWords [⟨[.literal ['a']], none⟩,
      .syllableOpening (.ofList [.simple "stressed"]), ⟨[.literal ['e']], none⟩]
    (p.slice ⟨0, 0⟩ ⟨0, 1⟩ ++ p.slice ⟨0, 1⟩ ⟨2, 1⟩).normalized =
        (p.slice ⟨0, 0⟩ ⟨2, 1⟩).normalized ∧
      (p.slice ⟨0, 0⟩ ⟨1, 0⟩ ++ p.slice ⟨1, 0⟩ ⟨2, 1⟩).normalized ≠
        (p.slice ⟨0, 0⟩ ⟨2, 1⟩).normalized := by
  intro p
  have hcut (b : Position) (hb : p.isPosition b) (hle : (⟨0, 0⟩ : Position) ≤ b)
      (hle' : b ≤ ⟨2, 1⟩) :=
    (joining_undoes_cutting .empty .empty .empty p p p hb hle hle').2.2.2
  constructor
  · exact (hcut ⟨0, 1⟩ (by decide) (by decide) (by decide)).mpr (by decide)
  · intro heq
    have hmatrix := (hcut ⟨1, 0⟩ (by decide) (by decide) (by decide)).mp heq (by decide)
      (by decide) (by decide)
    exact absurd hmatrix (by decide)

end Cutting

end Phrase

end Diachrony
