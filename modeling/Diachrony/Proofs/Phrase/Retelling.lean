import Mathlib.Data.List.Forall2
import Diachrony.Proofs.Phrase.Joining
import Diachrony.Proofs.Phrase.Segments
import Diachrony.Proofs.Word.Likeness

/-!
# Retelling a phrase

A fragment retells a phrase up to a position if its words come out as those of the phrase do, the
last one as the piece of its word up to there. Adding the piece up to a later position retells more,
with or without an opening in front of the piece, so a phrase that is cut at some positions and
joined again comes out as it was.
-/

namespace Diachrony.Phrase

variable {p q : Phrase} {a b i : Position}

/-- The words before a later word are those before an earlier one, that one, and those between. -/
theorem take_words_eq (hlt : a.word < b.word) (ha : p.isPosition a) :
    p.words.take b.word =
      p.words.take a.word ++ p.wordAt a.word :: p.words.extract (a.word + 1) b.word := by
  have hcut := extract_words_eq (Nat.zero_le a.word) hlt (isPosition_iff.mp ha).1
  simpa only [List.extract_eq_take_drop, List.drop_zero, Nat.sub_zero] using hcut

/-- Whether the words of a phrase come out as those of another one. -/
def ComesOut (p q : Phrase) : Prop := List.Forall₂ Word.ComesOut p.words q.words

namespace ComesOut

/-- What comes out comes out again. -/
theorem trans {r : Phrase} (hpq : p.ComesOut q) (hqr : q.ComesOut r) : p.ComesOut r := by
  have trans {us vs ws : List Word} (huv : List.Forall₂ Word.ComesOut us vs)
      (hvw : List.Forall₂ Word.ComesOut vs ws) : List.Forall₂ Word.ComesOut us ws := by
    induction huv generalizing ws with
    | nil =>
      cases hvw
      exact .nil
    | cons hfirst _ ih =>
      cases hvw with
      | cons hnext hrest => exact .cons (hfirst.trans hnext) (ih hrest)
  exact trans hpq hqr

/-- What comes out keeps the segments of its words. -/
theorem spelling_eq (h : p.ComesOut q) : q.spelling = p.spelling := by
  have segments {us vs : List Word} (huv : List.Forall₂ Word.ComesOut us vs) :
      vs.map Word.segments = us.map Word.segments := by
    induction huv with
    | nil => rfl
    | cons hfirst _ ih => rw [List.map_cons, List.map_cons, hfirst.segments_eq, ih]
  exact segments h

/-- A phrase comes out normalized if no word without segments has a matrix. -/
theorem eq_normalized (h : p.ComesOut q)
    (hmatrix : ∀ w ∈ p.words, w.isEmpty → w.syllableMatrix 0 = ∅) : q = p.normalized := by
  have normalized {us vs : List Word} (huv : List.Forall₂ Word.ComesOut us vs)
      (hmatrix : ∀ w ∈ us, w.isEmpty → w.syllableMatrix 0 = ∅) : vs = us.map Word.normalized := by
    induction huv with
    | nil => rfl
    | cons hfirst _ ih =>
      rw [List.forall_mem_cons] at hmatrix
      rw [List.map_cons, hfirst.eq_normalized hmatrix.1, ih hmatrix.2]
  exact eq_of_words_eq (normalized h hmatrix)

end ComesOut

/-- Whether a fragment comes out as a phrase does up to a position. -/
def Retells (q p : Phrase) (i : Position) : Prop :=
  ∃ front last, q.words = front ++ [last] ∧
    List.Forall₂ (fun w v ↦ w.ComesOut v.normalized) (p.words.take i.word) front ∧
    last.Like ((p.wordAt i.word).slice 0 i.segment)

/-- A fragment whose last word goes well with the next piece retells the phrase with that piece. -/
private theorem retells_append_slice {front : List Word} {v : Word} (hq : q.words = front ++ [v])
    (hfront : List.Forall₂ (fun w v ↦ w.ComesOut v.normalized) (p.words.take a.word) front)
    (ha : p.isPosition a) (hab : a ≤ b)
    (hsame : a.word = b.word → (v ++ (p.wordAt a.word).slice a.segment b.segment).Like
      ((p.wordAt a.word).slice 0 b.segment))
    (hother : (v ++ (p.wordAt a.word).slice a.segment (p.wordLength a.word)).Like
      ((p.wordAt a.word).slice 0 (p.wordLength a.word))) :
    (q ++ p.slice a b).Retells p b := by
  rcases Position.le_iff.mp hab with hlt | ⟨heq, -⟩
  · refine ⟨_, _, words_append_slice_of_lt hq p hlt, ?_, .refl _⟩
    rw [take_words_eq hlt ha]
    refine List.rel_append hfront (.cons (.of_like_slice hother) ?_)
    exact List.forall₂_same.mpr fun w _ ↦ .of_like (.refl w)
  · refine ⟨front, _, words_append_slice_of_eq hq p heq, heq ▸ hfront, ?_⟩
    rw [← heq]
    exact hsame heq

namespace Retells

/-- A phrase retells itself. -/
theorem slice_start (p : Phrase) (b : Position) : (p.slice p.start b).Retells p b := by
  have hempty : empty.words = [] ++ [Word.empty] := rfl
  rw [← empty_append (p.slice p.start b)]
  refine retells_append_slice hempty .nil isPosition_start (start_le b) (fun _ ↦ ?_) ?_
  · rw [Word.empty_append]
    exact .refl _
  · rw [Word.empty_append]
    exact .refl _

/-- With the next piece a fragment retells more of the phrase. -/
theorem append_slice (h : q.Retells p a) (ha : p.isPosition a) (hb : p.isPosition b)
    (hab : a ≤ b) : (q ++ p.slice a b).Retells p b := by
  obtain ⟨front, v, hq, hfront, hlike⟩ := h
  have hlength := (isPosition_iff.mp ha).2
  refine retells_append_slice hq hfront ha hab (fun heq ↦ ?_) ?_
  · rw [Position.le_iff] at hab
    have hle := (isPosition_iff.mp hb).2
    rw [← heq] at hle
    exact hlike.append_slice (by omega) hle
  · exact hlike.append_slice hlength (Nat.le_refl _)

/-- With an opening and the next piece a fragment retells more of the phrase, if a syllable starts
there. -/
theorem append_opening (h : q.Retells p a) (ha : p.isPosition a) (hb : p.isPosition b)
    (hab : a < b) (hdivided : (p.wordAt a.word).isDivided) (hlt : a.segment < p.wordLength a.word)
    (hstart : (p.wordAt a.word).isSyllableStart a.segment) :
    (q ++ ofWord (.syllableOpening ((p.wordAt a.word).syllableMatrix a.segment)) ++
      p.slice a b).Retells p b := by
  obtain ⟨front, v, hq, hfront, hlike⟩ := h
  have hopening := words_append hq (rfl : (ofWord (.syllableOpening
    ((p.wordAt a.word).syllableMatrix a.segment))).words = [_])
  refine retells_append_slice hopening hfront ha hab.le (fun heq ↦ ?_) ?_
  · rw [Position.lt_iff] at hab
    have hle := (isPosition_iff.mp hb).2
    rw [← heq] at hle
    exact hlike.append_syllableOpening hdivided hstart (by omega) hle
  · exact hlike.append_syllableOpening hdivided hstart hlt (Nat.le_refl _)

/-- What retells all of a phrase comes out as the phrase does. -/
theorem comesOut (h : q.Retells p p.stop) : p.ComesOut q.normalized := by
  obtain ⟨front, last, hq, hfront, hlike⟩ := h
  obtain ⟨before, w, hp⟩ := p.exists_words_eq_concat
  have hlast : p.wordAt before.length = w := by
    rw [wordAt, word?, hp, List.getElem?_concat_length, Option.getD_some]
  rw [stop_of_words hp] at hfront hlike
  simp only [hlast] at hfront hlike
  rw [hp, List.take_left] at hfront
  show List.Forall₂ Word.ComesOut p.words (q.words.map Word.normalized)
  rw [hp, hq, List.map_append]
  refine List.rel_append (List.forall₂_map_right_iff.mpr hfront) ?_
  exact .cons (.of_like_slice hlike) .nil

/-- What retells a phrase up to a position of it ends there. -/
theorem stop_eq (h : q.Retells p i) (hi : p.isPosition i) : q.stop = i := by
  obtain ⟨front, last, hq, hfront, hlike⟩ := h
  obtain ⟨hword, hsegment⟩ := isPosition_iff.mp hi
  have hlength : last.length = i.segment := by
    rw [Word.length, hlike.segments, ← Word.length, Word.length_slice _ hsegment, Nat.sub_zero]
  rw [wordCount] at hword
  rw [stop_of_words hq, hlength, ← hfront.length_eq, List.length_take,
    Nat.min_eq_left (Nat.le_of_lt hword)]

/-- What retells a phrase up to a position has the segments of the phrase in front of it, whatever
follows. -/
theorem segmentAt?_append (h : q.Retells p i) (hi : p.isPosition i) (r : Phrase) {k : Position}
    (hk : k < i) : (q ++ r).segmentAt? k = p.segmentAt? k := by
  have hstop := h.stop_eq hi
  obtain ⟨front, last, hq, hfront, hlike⟩ := h
  obtain ⟨w, rest, hr⟩ := r.exists_words_eq_cons
  rw [stop_of_words hq] at hstop
  subst hstop
  have hcount : front.length < p.words.length := (isPosition_iff.mp hi).1
  rw [segmentAt?, segmentAt?, word?, word?, words_append hq hr]
  rcases Position.lt_iff.mp hk with hword | ⟨hword, hsegment⟩
  · have hword : k.word < front.length := hword
    have hout := hfront.get (i := k.word) (by simp; omega) hword
    rw [List.get_eq_getElem, List.get_eq_getElem, List.getElem_take] at hout
    have hsame : front[k.word].normalized.segments = p.words[k.word].segments := hout.segments_eq
    rw [List.getElem?_append_left hword, List.getElem?_eq_getElem hword,
      List.getElem?_eq_getElem (Nat.lt_trans hword hcount), Option.bind_some, Option.bind_some,
      Word.get?, Word.get?, ← hsame]
    rfl
  · have hword : k.word = front.length := hword
    have hsegment : k.segment < last.segments.length := hsegment
    have hat : p.words[front.length]? = some (p.wordAt front.length) := by
      rw [wordAt, word?, List.getElem?_eq_getElem hcount, Option.getD_some]
    have hsame : last.segments[k.segment]? = (p.wordAt front.length).segments[k.segment]? := by
      rw [hlike.segments, Word.segments_slice, List.extract_eq_take_drop, List.drop_zero,
        Nat.sub_zero]
      exact List.getElem?_take_of_lt hsegment
    rw [hword, hat, List.getElem?_append_right (Nat.le_refl _), Nat.sub_self,
      List.getElem?_cons_zero, Option.bind_some, Option.bind_some, Word.get?, Word.get?, ← hsame]
    exact List.getElem?_append_left hsegment

end Retells

end Diachrony.Phrase
