import Diachrony.Proofs.Phrase.Positions

/-!
# The segments of a phrase

The segments of a phrase stand at places, in order. Joining fragments joins their segments, and a
fragment that is cut from a phrase has the segments at the places between its ends.
-/

namespace Diachrony

namespace Phrase

variable {p q : Phrase} {a b c : Position}

/-- The segments of every word. -/
def spelling (p : Phrase) : List (List Segment) := p.words.map Word.segments

/-- The segments of all words in order. -/
def segments (p : Phrase) : List Segment := p.spelling.flatten

/-- The segments of a word with some index, with the places before which they stand. -/
def placedInWord (n : Nat) (w : Word) : List (Position × Segment) :=
  w.segments.zipIdx.map fun x ↦ (⟨n, x.2⟩, x.1)

/-- The segments of words from some index on, with the places before which they stand. -/
def placedFrom : Nat → List Word → List (Position × Segment)
  | _, [] => []
  | n, w :: rest => placedInWord n w ++ placedFrom (n + 1) rest

/-- The segments of a phrase, with the places before which they stand. -/
def placed (p : Phrase) : List (Position × Segment) := placedFrom 0 p.words

/-- The segments of a list at the places that a test accepts. -/
def accepted (test : Position → Bool) (placed : List (Position × Segment)) : List Segment :=
  (placed.filter fun x ↦ test x.1).map Prod.snd

/-- The segments at the places of a phrase that a test accepts. -/
def segmentsWhere (p : Phrase) (test : Position → Bool) : List Segment := accepted test p.placed

/-- Whether a place lies between two positions. -/
def between (a b i : Position) : Bool := a ≤ i ∧ i < b

/-- Phrases with the same segments in their words have words of the same lengths. -/
theorem lengths_eq_of_spelling_eq (h : p.spelling = q.spelling) : p.lengths = q.lengths := by
  have hlengths (r : Phrase) : r.lengths = r.spelling.map List.length := by
    rw [lengths, spelling, List.map_map]
    rfl
  rw [hlengths, h, hlengths]

/-- Phrases with the same segments in their words have the same segment at every position. -/
theorem segmentAt?_eq_of_spelling_eq (h : p.spelling = q.spelling) (i : Position) :
    p.segmentAt? i = q.segmentAt? i := by
  have hat (r : Phrase) : r.segmentAt? i = r.spelling[i.word]?.bind (·[i.segment]?) := by
    rw [segmentAt?, word?, spelling, List.getElem?_map]
    cases r.words[i.word]? <;> rfl
  rw [hat, h, hat]

/-- Normalizing a phrase leaves the segments of its words. -/
@[simp] theorem spelling_normalized (p : Phrase) : p.normalized.spelling = p.spelling := by
  simp only [spelling, normalized, mapWords, List.map_map]
  rfl

section Places

private theorem mem_placedInWord {n : Nat} {w : Word} {x : Position × Segment}
    (h : x ∈ placedInWord n w) : x.1.word = n ∧ x.1.segment < w.length := by
  obtain ⟨⟨segment, s⟩, hmem, rfl⟩ := List.mem_map.mp h
  have hs := (List.mem_zipIdx hmem).2.1
  rw [Nat.zero_add] at hs
  exact ⟨rfl, hs⟩

private theorem mem_placedFrom {n : Nat} {words : List Word} {x : Position × Segment}
    (h : x ∈ placedFrom n words) : n ≤ x.1.word ∧ x.1.word < n + words.length ∧
      x.1.segment < (words[x.1.word - n]?.getD .empty).length := by
  induction words generalizing n with
  | nil => cases h
  | cons w rest ih =>
    rcases List.mem_append.mp h with h | h
    · obtain ⟨rfl, hs⟩ := mem_placedInWord h
      simpa using hs
    · obtain ⟨hle, hlt, hs⟩ := ih h
      rw [show x.1.word - n = x.1.word - (n + 1) + 1 by omega, List.getElem?_cons_succ,
        List.length_cons]
      exact ⟨by omega, by omega, hs⟩

private theorem placedFrom_append (n : Nat) (us vs : List Word) :
    placedFrom n (us ++ vs) = placedFrom n us ++ placedFrom (n + us.length) vs := by
  induction us generalizing n with
  | nil => rfl
  | cons u rest ih =>
    rw [List.cons_append, placedFrom, placedFrom, ih, List.append_assoc, List.length_cons,
      Nat.add_right_comm, Nat.add_assoc]

/-- A segment stands in a word of the phrase, before its end. -/
theorem lt_wordLength_of_mem_placed {x : Position × Segment} (h : x ∈ p.placed) :
    x.1.word < p.wordCount ∧ x.1.segment < p.wordLength x.1.word := by
  obtain ⟨-, hword, hs⟩ := mem_placedFrom h
  rw [Nat.zero_add] at hword
  exact ⟨hword, hs⟩

/-- A segment stands before the end of the phrase. -/
theorem lt_stop_of_mem_placed {x : Position × Segment} (h : x ∈ p.placed) : x.1 < p.stop := by
  obtain ⟨hword, hs⟩ := lt_wordLength_of_mem_placed h
  refine lt_of_lt_of_le (b := ⟨x.1.word, x.1.segment + 1⟩) (.inr ⟨rfl, Nat.lt_succ_self _⟩) ?_
  exact le_stop (isPosition_iff.mpr ⟨hword, hs⟩)

/-- Segments stand at places in order. -/
theorem pairwise_placed (p : Phrase) : p.placed.Pairwise fun x y ↦ x.1 < y.1 := by
  have hword (n : Nat) (w : Word) : (placedInWord n w).Pairwise fun x y ↦ x.1 < y.1 := by
    have hindices : (w.segments.zipIdx.map Prod.snd).Pairwise (· < ·) := by
      rw [List.zipIdx_map_snd]
      exact List.pairwise_lt_range'
    exact List.pairwise_map.mpr ((List.pairwise_map.mp hindices).imp fun h ↦ .inr ⟨rfl, h⟩)
  have hwords (n : Nat) (words : List Word) :
      (placedFrom n words).Pairwise fun x y ↦ x.1 < y.1 := by
    induction words generalizing n with
    | nil => exact .nil
    | cons w rest ih =>
      refine List.pairwise_append.mpr ⟨hword n w, ih (n + 1), fun x hx y hy ↦ ?_⟩
      rw [← (mem_placedInWord hx).1] at hy
      exact .inl (mem_placedFrom hy).1
  exact hwords 0 p.words

end Places

section Joining

/-- The segments of joined fragments are joined. -/
@[simp] theorem segments_append (p q : Phrase) : (p ++ q).segments = p.segments ++ q.segments := by
  have hjoin (vs ws : List Word) : ((joinWords vs ws).map Word.segments).flatten =
      (vs.map Word.segments).flatten ++ (ws.map Word.segments).flatten := by
    induction vs with
    | nil => rw [joinWords, List.map_nil, List.flatten_nil, List.nil_append]
    | cons v rest ih =>
      cases ws with
      | nil => rw [joinWords, List.map_nil, List.flatten_nil, List.append_nil]; simp
      | cons w ws =>
        cases rest with
        | nil =>
          show (v.segments ++ w.segments) ++ _ = _
          simp
        | cons u rest =>
          show v.segments ++ _ = _
          rw [ih]
          simp
  exact hjoin p.words q.words

end Joining

section Cutting

private theorem filter_zipIdx (l : List Segment) (k lo hi : Nat) :
    ((l.zipIdx k).filter fun x ↦ lo ≤ x.2 ∧ x.2 < hi).map Prod.fst =
      (l.take (hi - k)).drop (lo - k) := by
  induction l generalizing k with
  | nil => simp
  | cons x rest ih =>
    rw [List.zipIdx_cons, List.filter_cons]
    rcases Nat.lt_or_ge k hi with hhi | hhi
    · rw [show hi - k = hi - (k + 1) + 1 by omega, List.take_succ_cons]
      rcases Nat.lt_or_ge k lo with hlo | hlo
      · rw [if_neg (by simp; omega), ih, show lo - k = lo - (k + 1) + 1 by omega,
          List.drop_succ_cons]
      · rw [if_pos (by simp; omega), List.map_cons, ih, show lo - k = 0 by omega,
          show lo - (k + 1) = 0 by omega, List.drop_zero, List.drop_zero]
    · rw [if_neg (by simp; omega), ih, show hi - k = 0 by omega, show hi - (k + 1) = 0 by omega,
        List.take_zero, List.take_zero, List.drop_nil, List.drop_nil]

variable {test : Position → Bool} {n : Nat} {words : List Word}

private theorem accepted_cons (x : Position × Segment) (rest : List (Position × Segment)) :
    accepted test (x :: rest) =
      if test x.1 then x.2 :: accepted test rest else accepted test rest := by
  rw [accepted, List.filter_cons]
  split <;> rfl

@[simp] private theorem accepted_append (l m : List (Position × Segment)) :
    accepted test (l ++ m) = accepted test l ++ accepted test m := by
  rw [accepted, List.filter_append, List.map_append, accepted, accepted]

private theorem accepted_eq_nil (h : ∀ i : Position, n ≤ i.word → i.word < n + words.length →
    test i = false) : accepted test (placedFrom n words) = [] := by
  have hnone : (placedFrom n words).filter (fun x ↦ test x.1) = [] := by
    refine List.filter_eq_nil_iff.mpr fun x hx ↦ ?_
    obtain ⟨hle, hlt, -⟩ := mem_placedFrom hx
    rw [h x.1 hle hlt]
    exact Bool.false_ne_true
  rw [accepted, hnone, List.map_nil]

private theorem accepted_eq_all (h : ∀ i : Position, n ≤ i.word → i.word < n + words.length →
    test i) : accepted test (placedFrom n words) = (words.map Word.segments).flatten := by
  have hall : (placedFrom n words).filter (fun x ↦ test x.1) = placedFrom n words := by
    refine List.filter_eq_self.mpr fun x hx ↦ ?_
    obtain ⟨hle, hlt, -⟩ := mem_placedFrom hx
    exact h x.1 hle hlt
  rw [accepted, hall]
  clear h hall
  induction words generalizing n with
  | nil => rfl
  | cons w rest ih =>
    rw [placedFrom, List.map_append, ih, placedInWord, List.map_map, List.map_cons,
      List.flatten_cons]
    exact congrArg (· ++ _) (List.zipIdx_map_fst 0 w.segments)

private theorem accepted_word {w : Word} {lo hi : Nat}
    (h : ∀ s, s < w.length → test ⟨n, s⟩ = decide (lo ≤ s ∧ s < hi)) :
    accepted test (placedInWord n w) = (w.slice lo hi).segments := by
  have hfilter : (w.segments.zipIdx.filter fun x ↦ test ⟨n, x.2⟩) =
      w.segments.zipIdx.filter fun x ↦ lo ≤ x.2 ∧ x.2 < hi := by
    refine List.filter_congr fun x hx ↦ h x.2 ?_
    have hs := (List.mem_zipIdx hx).2.1
    rwa [Nat.zero_add] at hs
  rw [accepted, placedInWord, List.filter_map, List.map_map]
  show ((w.segments.zipIdx.filter fun x ↦ test ⟨n, x.2⟩).map Prod.fst) = w.segments.extract lo hi
  rw [hfilter, filter_zipIdx, List.extract_eq_take_drop, List.drop_take]
  rfl

private theorem placedFrom_split (n : Nat) {w : Nat} (h : w < words.length) :
    placedFrom n words = placedFrom n (words.take w) ++
      (placedInWord (n + w) words[w] ++ placedFrom (n + w + 1) (words.drop (w + 1))) := by
  have hsplit : words = words.take w ++ words[w] :: words.drop (w + 1) := by
    rw [← List.drop_eq_getElem_cons h, List.take_append_drop]
  have hlength : (words.take w).length = w := by
    rw [List.length_take]
    omega
  conv => lhs; rw [hsplit, placedFrom_append, hlength, placedFrom]

private theorem wordAt_eq (p : Phrase) {w : Nat} (h : w < p.words.length) :
    p.wordAt w = p.words[w] := by
  rw [wordAt, word?, List.getElem?_eq_getElem h, Option.getD_some]

private theorem accepted_before (a b : Position) (words : List Word) :
    accepted (between a b) (placedFrom 0 (words.take a.word)) = [] := by
  refine accepted_eq_nil fun i _ hi ↦ ?_
  rw [List.length_take] at hi
  simp only [between, Position.le_iff, Position.lt_iff, decide_eq_false_iff_not]
  omega

private theorem accepted_behind (a b : Position) (words : List Word) :
    accepted (between a b) (placedFrom (b.word + 1) words) = [] := by
  refine accepted_eq_nil fun i hi _ ↦ ?_
  simp only [between, Position.le_iff, Position.lt_iff, decide_eq_false_iff_not]
  omega

private theorem segments_slice_within (ha : a.word < p.words.length) (hword : a.word = b.word) :
    (p.slice a b).segments = p.segmentsWhere (between a b) := by
  have hinside : accepted (between a b) (placedInWord a.word p.words[a.word]) =
      (p.words[a.word].slice a.segment b.segment).segments := by
    refine accepted_word fun s _ ↦ decide_eq_decide.mpr ?_
    simp only [Position.le_iff, Position.lt_iff, hword, Nat.lt_irrefl, true_and, false_or]
  have hbehind := accepted_behind a b (p.words.drop (a.word + 1))
  rw [← hword] at hbehind
  rw [segmentsWhere, placed, placedFrom_split 0 ha, Nat.zero_add, accepted_append, accepted_append,
    accepted_before, hinside, hbehind, slice, if_pos hword, wordAt_eq p ha]
  simp [segments, spelling, ofWord]

private theorem segments_slice_across (hlt : a.word < b.word) (hb : b.word < p.words.length) :
    (p.slice a b).segments = p.segmentsWhere (between a b) := by
  have ha : a.word < p.words.length := Nat.lt_trans hlt hb
  have hrest : b.word - (a.word + 1) < (p.words.drop (a.word + 1)).length := by
    rw [List.length_drop]
    omega
  have hindex : a.word + 1 + (b.word - (a.word + 1)) = b.word := by omega
  have hopening : accepted (between a b) (placedInWord a.word p.words[a.word]) =
      (p.words[a.word].slice a.segment (p.wordLength a.word)).segments := by
    refine accepted_word fun s hs ↦ decide_eq_decide.mpr ?_
    rw [wordLength, wordAt_eq p ha]
    simp only [Position.le_iff, Position.lt_iff, Nat.lt_irrefl, true_and, false_or, hlt, hs,
      true_or, and_true]
  have hbetween : accepted (between a b)
      (placedFrom (a.word + 1) ((p.words.drop (a.word + 1)).take (b.word - (a.word + 1)))) =
      ((p.words.extract (a.word + 1) b.word).map Word.segments).flatten := by
    rw [List.extract_eq_take_drop]
    refine accepted_eq_all fun i hi hi' ↦ ?_
    rw [List.length_take] at hi'
    simp only [between, Position.le_iff, Position.lt_iff, decide_eq_true_eq]
    omega
  have hclosing : accepted (between a b) (placedInWord b.word p.words[b.word]) =
      (p.words[b.word].slice 0 b.segment).segments := by
    refine accepted_word fun s _ ↦ decide_eq_decide.mpr ?_
    simp only [Position.le_iff, Position.lt_iff, Nat.lt_irrefl, true_and, false_or, hlt, true_or,
      Nat.zero_le]
  have hsplit := placedFrom_split (a.word + 1) hrest
  simp only [hindex, List.getElem_drop] at hsplit
  rw [segmentsWhere, placed, placedFrom_split 0 ha, Nat.zero_add, hsplit]
  simp only [accepted_append]
  rw [accepted_before, hopening, hbetween, hclosing, accepted_behind, slice,
    if_neg (Nat.ne_of_lt hlt)]
  simp [segments, spelling, wordAt_eq p ha, wordAt_eq p hb]

/-- A fragment has the segments between its ends. -/
theorem segments_slice (ha : p.isPosition a) (hb : p.isPosition b) (hab : a ≤ b) :
    (p.slice a b).segments = p.segmentsWhere (between a b) := by
  rw [isPosition_iff] at ha hb
  rw [Position.le_iff] at hab
  rcases hab with hlt | ⟨hword, -⟩
  · exact segments_slice_across hlt hb.1
  · exact segments_slice_within ha.1 hword

end Cutting

section Choosing

variable {test first second : Position → Bool}

/-- Segments that a narrower test accepts are among those that a wider test accepts. -/
theorem segmentsWhere_sublist (h : ∀ x ∈ p.placed, first x.1 → second x.1) :
    (p.segmentsWhere first).Sublist (p.segmentsWhere second) := by
  have hnarrow : p.placed.filter (fun x ↦ first x.1) =
      (p.placed.filter fun x ↦ second x.1).filter fun x ↦ first x.1 := by
    rw [List.filter_filter]
    refine List.filter_congr fun x hx ↦ ?_
    cases hfirst : first x.1 with
    | false => rfl
    | true => rw [h x hx hfirst, Bool.and_true]
  rw [segmentsWhere, accepted, hnarrow]
  exact List.filter_sublist.map Prod.snd

/-- Segments that a test accepts are segments of the phrase. -/
theorem segmentsWhere_sublist_segments (p : Phrase) (test : Position → Bool) :
    (p.segmentsWhere test).Sublist p.segments := by
  have hall : p.segments = p.segmentsWhere fun _ ↦ true :=
    (accepted_eq_all fun _ _ _ ↦ rfl).symm
  rw [hall]
  exact segmentsWhere_sublist fun _ _ _ ↦ rfl

/-- Segments that one of two tests accepts, if what the first accepts stands before what the second
accepts. -/
theorem segmentsWhere_or (htest : ∀ i, test i = (first i || second i))
    (horder : ∀ i j, first i → second j → i < j) :
    p.segmentsWhere test = p.segmentsWhere first ++ p.segmentsWhere second := by
  have hsorted := p.pairwise_placed
  rw [segmentsWhere, segmentsWhere, segmentsWhere]
  generalize p.placed = placed at hsorted
  induction placed with
  | nil => rfl
  | cons x rest ih =>
    rw [List.pairwise_cons] at hsorted
    rw [accepted_cons, accepted_cons, accepted_cons, htest, ih hsorted.2]
    cases hfirst : first x.1 with
    | true =>
      have hsecond : second x.1 = false :=
        Bool.eq_false_iff.mpr fun hsecond ↦ lt_irrefl _ (horder _ _ hfirst hsecond)
      simp [hsecond]
    | false =>
      cases hsecond : second x.1 with
      | true =>
        have hnone : accepted first rest = [] := by
          refine List.map_eq_nil_iff.mpr (List.filter_eq_nil_iff.mpr fun y hy hfirst ↦ ?_)
          exact lt_asymm (hsorted.1 y hy) (horder _ _ hfirst hsecond)
        simp [hnone]
      | false => simp

end Choosing

end Phrase

end Diachrony
