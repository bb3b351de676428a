import Diachrony.Change.Selection
import Diachrony.Proofs.Change.Edits

/-!
# What a filter leaves

A selection holds some segments of every word of a phrase, in order. The ways between positions of
the selection and of the full phrase keep the order of positions: what lies apart in the selection
lies apart in the full phrase, and a span of the selection does not reach to the start of what
follows it.
-/

namespace Diachrony

namespace Selection

/-- Whether a selection holds segments of the words of a phrase, in order. -/
structure Within (s : Selection) (p : Phrase) : Prop where
  /-- The lengths of the full words. -/
  lengths : s.lengths = p.lengths
  /-- The words of the selection are as long as what is kept of them. -/
  counts : s.phrase.lengths = s.kept.map List.length
  /-- What is kept of a word are indices of it, in order. -/
  kept : List.Forall₂ (fun (word : Word) indices ↦ indices.Sublist (List.range word.length))
    p.words s.kept

section Building

variable {allowed : Fault → Prop} (hmistake : ∀ fault : Fault, fault.isMistake → allowed fault)
include hmistake

/-- Whether a filter accepts a segment is decided without a fault that is not allowed. -/
theorem accepts_ensures (lang : Language) (filter : Pattern) {scan : Scan}
    (hmirrors : scan.Mirrors) {start : Position} (hstart : scan.phrase.isPosition start) :
    Ensures (fun _ ↦ True) allowed (accepts lang filter scan start) := by
  have hrefs (number : Nat) : allowed (.of (.unboundCapture number)) := hmistake _ rfl
  rw [accepts]
  refine ((?_ : Candidates.Keeps (fun _ ↦ True) allowed _).first? (hmistake _ rfl)).bind
    fun _ _ ↦ .ok trivial
  refine (Pattern.keeps_candidates (fun _ ↦ hrefs) hmirrors hstart .empty).find fun found _ ↦ ?_
  cases found with
  | none => exact .done
  | some m => exact .pure trivial

omit hmistake in
private theorem length_filterMap_get? (word : Word) {indices : List Nat}
    (h : ∀ i ∈ indices, i < word.length) :
    (indices.filterMap word.get?).length = indices.length := by
  induction indices with
  | nil => rfl
  | cons i rest ih =>
    rw [List.forall_mem_cons] at h
    have hget : word.get? i = some (word.segments.get ⟨i, h.1⟩) :=
      List.getElem?_eq_getElem h.1
    rw [List.filterMap_cons_some hget, List.length_cons, List.length_cons, ih h.2]

omit hmistake in
private theorem lengths_kept {words : List Word} {kept : List (List Nat)}
    (h : List.Forall₂ (fun (word : Word) indices ↦ indices.Sublist (List.range word.length))
      words kept) :
    ((words.zip kept).map fun (word, indices) ↦
      (⟨indices.filterMap word.get?, none⟩ : Word)).map Word.length = kept.map List.length := by
  induction h with
  | nil => rfl
  | @cons word indices _ _ hsub _ ih =>
    rw [List.zip_cons_cons, List.map_cons, List.map_cons, List.map_cons, ih]
    exact congrArg (· :: _)
      (length_filterMap_get? word fun i hi ↦ List.mem_range.mp (hsub.subset hi))

/-- What a filter leaves of a phrase holds segments of its words, in order. -/
theorem of_ensures (lang : Language) (filter : Pattern) (p : Phrase) :
    Ensures (fun s ↦ s.Within p) allowed (Selection.of lang filter p) := by
  have hmirrors := Scan.mirrors_of p
  have hword : ∀ a ∈ p.words.zipIdx, Ensures
      (fun (indices : List Nat) ↦ indices.Sublist (List.range a.1.length)) allowed
      ((List.range a.1.length).filterM fun i ↦ accepts lang filter (Scan.of p) ⟨a.2, i⟩) := by
    rintro ⟨word, w⟩ hmem
    refine (Ensures.filterM fun i hi ↦ accepts_ensures hmistake lang filter hmirrors ?_).mono
      fun _ _ h ↦ h.1
    have hword : p.word? w = some word := List.mem_zipIdx_iff_getElem?.mp hmem
    refine Phrase.isPosition_iff.mpr ⟨Phrase.lt_wordCount_of_word? hword, ?_⟩
    show i ≤ p.wordLength w
    rw [Phrase.wordLength_of_word? hword]
    exact Nat.le_of_lt (List.mem_range.mp hi)
  rw [Selection.of]
  refine (Ensures.mapM hword).bind fun kept hkept ↦ .ok ?_
  have hkept : List.Forall₂ (fun (word : Word) indices ↦ indices.Sublist (List.range word.length))
      p.words kept := by
    rw [← List.zipIdx_map_fst 0 p.words]
    exact List.forall₂_map_left_iff.mpr hkept
  refine ⟨rfl, ?_, hkept⟩
  rw [Phrase.lengths, Phrase.words_ofWords, lengths_kept hkept]
  rw [← List.length_pos_iff, List.length_map, List.length_zip, ← hkept.length_eq, Nat.min_self]
  exact p.wordCount_pos

end Building

private theorem getElem?_of_lt_takeWhile {l : List Nat} {q : Nat → Bool} {k : Nat}
    (h : k < (l.takeWhile q).length) : ∃ a, l[k]? = some a ∧ q a := by
  induction l generalizing k with
  | nil => cases h
  | cons a rest ih =>
    rw [List.takeWhile_cons] at h
    split at h
    · next ha =>
      cases k with
      | zero => exact ⟨a, rfl, ha⟩
      | succ k => exact ih (Nat.lt_of_succ_lt_succ h)
    · cases h

private theorem not_of_getElem?_takeWhile {l : List Nat} {q : Nat → Bool} {a : Nat}
    (h : l[(l.takeWhile q).length]? = some a) : ¬q a := by
  induction l with
  | nil => cases h
  | cons b rest ih =>
    rw [List.takeWhile_cons] at h
    split at h
    · exact ih h
    · next hb =>
      cases h
      exact hb

namespace Within

variable {s : Selection} {p : Phrase} (h : s.Within p) {i j : Position}
include h

/-- A selection has the words of the phrase. -/
theorem wordCount_eq : s.phrase.wordCount = p.wordCount := by
  rw [← Phrase.length_lengths, h.counts, List.length_map, ← h.kept.length_eq, Phrase.wordCount]

/-- A word of the selection is as long as what is kept of the full word. -/
theorem wordLength_eq (w : Nat) : s.phrase.wordLength w = (s.keptIn w).length := by
  rw [Phrase.wordLength_eq, h.counts, List.getElem?_map, keptIn]
  cases s.kept[w]? <;> rfl

/-- What is kept of a word are indices of it, in order. -/
theorem keptIn_sublist (w : Nat) : (s.keptIn w).Sublist (List.range (p.wordLength w)) := by
  rw [keptIn]
  cases hkept : s.kept[w]? with
  | none => exact List.nil_sublist _
  | some indices =>
    obtain ⟨hw, rfl⟩ := List.getElem?_eq_some_iff.mp hkept
    have hword : w < p.words.length := h.kept.length_eq ▸ hw
    rw [Phrase.wordLength_of_word? (List.getElem?_eq_getElem hword)]
    exact h.kept.get hword hw

/-- The indices that are kept of a word grow. -/
theorem pairwise_keptIn (w : Nat) : (s.keptIn w).Pairwise (· < ·) :=
  List.pairwise_lt_range.sublist (h.keptIn_sublist w)

/-- Indices that are kept of a word lie in it. -/
theorem lt_wordLength {w k : Nat} (hk : k ∈ s.keptIn w) : k < p.wordLength w :=
  List.mem_range.mp ((h.keptIn_sublist w).subset hk)

/-- A start goes to the segment that follows it, or to the end of its word. -/
theorem fullStart_eq (i : Position) :
    s.fullStart i = ⟨i.word, (s.keptIn i.word)[i.segment]?.getD (p.wordLength i.word)⟩ := by
  rw [fullStart, h.lengths, Phrase.wordLength_eq]

/-- A start in a selection goes to a position of the full phrase. -/
theorem isPosition_fullStart (hi : s.phrase.isPosition i) : p.isPosition (s.fullStart i) := by
  rw [Phrase.isPosition_iff, h.wordCount_eq] at hi
  rw [h.fullStart_eq, Phrase.isPosition_iff]
  refine ⟨hi.1, ?_⟩
  cases hkept : (s.keptIn i.word)[i.segment]? with
  | none => exact Nat.le_refl _
  | some k => exact Nat.le_of_lt (h.lt_wordLength (List.mem_of_getElem? hkept))

/-- What is kept after an index stands behind what is kept at it. -/
theorem getElem_lt {w a b : Nat} (ha : a < (s.keptIn w).length) (hab : a < b) :
    (s.keptIn w)[a] < (s.keptIn w)[b]?.getD (p.wordLength w) := by
  by_cases hb : b < (s.keptIn w).length
  · rw [List.getElem?_eq_getElem hb, Option.getD_some]
    exact List.pairwise_iff_getElem.mp (h.pairwise_keptIn w) a b ha hb hab
  · rw [List.getElem?_eq_none (Nat.not_lt.mp hb), Option.getD_none]
    exact h.lt_wordLength (List.getElem_mem ha)

/-- What is kept at or after an index does not stand before what is kept at it. -/
theorem getD_le_getD (w : Nat) {a b : Nat} (hab : a ≤ b) :
    (s.keptIn w)[a]?.getD (p.wordLength w) ≤ (s.keptIn w)[b]?.getD (p.wordLength w) := by
  rcases Nat.lt_or_eq_of_le hab with hlt | rfl
  · by_cases ha : a < (s.keptIn w).length
    · rw [List.getElem?_eq_getElem ha]
      exact Nat.le_of_lt (h.getElem_lt ha hlt)
    · have hb : (s.keptIn w).length ≤ b := Nat.le_trans (Nat.not_lt.mp ha) hab
      exact Nat.le_of_eq
        (by rw [List.getElem?_eq_none (Nat.not_lt.mp ha), List.getElem?_eq_none hb])
  · exact Nat.le_refl _

/-- Starts keep their order. -/
theorem fullStart_le_fullStart (hij : i ≤ j) : s.fullStart i ≤ s.fullStart j := by
  rw [h.fullStart_eq, h.fullStart_eq]
  rcases Position.le_iff.mp hij with hword | ⟨hword, hsegment⟩
  · exact .inl hword
  · refine .inr ⟨hword, ?_⟩
    rw [← hword]
    exact h.getD_le_getD i.word hsegment

/-- The end of a span goes to the start of the span if it is empty, to the start of its word, or to
the segment that it follows. -/
theorem fullStop_cases (hj : s.phrase.isPosition j) (hij : i ≤ j) :
    i = j ∧ s.fullStop i j = s.fullStart i ∨
      i.word < j.word ∧ s.fullStop i j = ⟨j.word, 0⟩ ∨
      ∃ k, ∃ hk : k < (s.keptIn j.word).length, j.segment = k + 1 ∧ i < j ∧
        s.fullStop i j = ⟨j.word, (s.keptIn j.word)[k] + 1⟩ := by
  rw [Phrase.isPosition_iff, h.wordLength_eq] at hj
  rw [fullStop]
  by_cases heq : i = j
  · exact .inl ⟨heq, if_pos heq⟩
  · have hlt : i < j := lt_of_le_of_ne hij heq
    rw [if_neg heq]
    cases hsegment : j.segment with
    | zero =>
      rw [Position.lt_iff] at hlt
      exact .inr (.inl ⟨by omega, rfl⟩)
    | succ k =>
      have hk : k < (s.keptIn j.word).length := by omega
      refine .inr (.inr ⟨k, hk, rfl, hlt, ?_⟩)
      simp only [List.getElem?_eq_getElem hk, Option.getD_some]

/-- A span that is not empty stays so. -/
theorem fullStart_lt_fullStop (hj : s.phrase.isPosition j) (hij : i < j) :
    s.fullStart i < s.fullStop i j := by
  rcases h.fullStop_cases hj hij.le with ⟨heq, -⟩ | ⟨hword, heq⟩ | ⟨k, hk, hsegment, -, heq⟩
  · exact absurd heq hij.ne
  · rw [heq, h.fullStart_eq]
    exact .inl hword
  · rw [heq, h.fullStart_eq]
    rcases Position.lt_iff.mp hij with hword | ⟨hword, hless⟩
    · exact .inl hword
    · refine .inr ⟨hword, ?_⟩
      rw [hsegment] at hless
      have hle := h.getD_le_getD i.word (Nat.le_of_lt_succ hless)
      rw [hword, List.getElem?_eq_getElem hk] at hle
      rw [hword]
      exact Nat.lt_succ_of_le hle

/-- A span is not turned around. -/
theorem fullStart_le_fullStop (hj : s.phrase.isPosition j) (hij : i ≤ j) :
    s.fullStart i ≤ s.fullStop i j := by
  rcases hij.lt_or_eq with hlt | rfl
  · exact (h.fullStart_lt_fullStop hj hlt).le
  · rw [fullStop, if_pos rfl]

/-- A span does not reach over the start of what follows it. -/
theorem fullStop_le_fullStart (hj : s.phrase.isPosition j) (hij : i ≤ j) :
    s.fullStop i j ≤ s.fullStart j := by
  rcases h.fullStop_cases hj hij with ⟨rfl, heq⟩ | ⟨-, heq⟩ | ⟨k, hk, hsegment, -, heq⟩
  · rw [heq]
  · rw [heq, h.fullStart_eq]
    exact .inr ⟨rfl, Nat.zero_le _⟩
  · rw [heq, h.fullStart_eq, hsegment]
    exact .inr ⟨rfl, h.getElem_lt hk (Nat.lt_succ_self k)⟩

/-- The end of a span goes to a position of the full phrase. -/
theorem isPosition_fullStop (hj : s.phrase.isPosition j) (hij : i ≤ j) :
    p.isPosition (s.fullStop i j) := by
  have hfull := h.isPosition_fullStart hj
  have hle := h.fullStop_le_fullStart hj hij
  rw [h.fullStart_eq, Phrase.isPosition_iff] at hfull
  rcases h.fullStop_cases hj hij with ⟨rfl, heq⟩ | ⟨-, heq⟩ | ⟨k, hk, -, -, heq⟩
  · rw [heq]
    exact h.isPosition_fullStart hj
  · rw [heq]
    exact Phrase.isPosition_iff.mpr ⟨hfull.1, Nat.zero_le _⟩
  · rw [heq]
    exact Phrase.isPosition_iff.mpr ⟨hfull.1, h.lt_wordLength (List.getElem_mem hk)⟩

/-- A span ends no later if it starts earlier. -/
theorem fullStop_le_fullStop {k : Position} (hj : s.phrase.isPosition j) (hik : i ≤ k)
    (hkj : k ≤ j) : s.fullStop i j ≤ s.fullStop k j := by
  rcases hkj.lt_or_eq with hlt | rfl
  · rw [fullStop, fullStop, if_neg (lt_of_le_of_lt hik hlt).ne, if_neg hlt.ne]
  · rw [show s.fullStop k k = s.fullStart k from if_pos rfl]
    exact h.fullStop_le_fullStart hj hik

/-- What is kept from a position on does not stand before it. -/
theorem le_fullStart_of_narrow_le (hi : p.isPosition i) (hij : s.narrow i ≤ j) :
    i ≤ s.fullStart j := by
  refine le_trans ?_ (h.fullStart_le_fullStart hij)
  rw [h.fullStart_eq]
  refine .inr ⟨rfl, ?_⟩
  show i.segment ≤ (s.keptIn i.word)[(s.narrow i).segment]?.getD (p.wordLength i.word)
  cases hkept : (s.keptIn i.word)[(s.narrow i).segment]? with
  | none => exact (Phrase.isPosition_iff.mp hi).2
  | some k => exact Nat.not_lt.mp fun hk ↦ not_of_getElem?_takeWhile hkept (decide_eq_true hk)

/-- What is kept before a position stands before it. -/
theorem fullStart_lt_of_lt_narrow (hij : j < s.narrow i) : s.fullStart j < i := by
  rw [h.fullStart_eq]
  rcases Position.lt_iff.mp hij with hword | ⟨hword, hsegment⟩
  · exact .inl hword
  · refine .inr ⟨hword, ?_⟩
    obtain ⟨k, hkept, hk⟩ := getElem?_of_lt_takeWhile hsegment
    rw [hword]
    simp only [narrow] at hkept ⊢
    rw [hkept]
    exact of_decide_eq_true hk

/-- Starts of a selection that differ stay apart. -/
theorem fullStart_lt_fullStart (hj : s.phrase.isPosition j) (hij : i < j) :
    s.fullStart i < s.fullStart j := by
  rw [Phrase.isPosition_iff, h.wordLength_eq] at hj
  rw [h.fullStart_eq, h.fullStart_eq]
  rcases Position.lt_iff.mp hij with hword | ⟨hword, hsegment⟩
  · exact .inl hword
  · have hi : i.segment < (s.keptIn i.word).length := by
      rw [hword]
      omega
    refine .inr ⟨hword, ?_⟩
    rw [List.getElem?_eq_getElem hi, Option.getD_some, ← hword]
    exact h.getElem_lt hi hsegment

/-- A start stands before a position of the full phrase if it does so in the selection. -/
theorem lt_narrow_iff {l : Position} (hl : p.isPosition l) :
    j < s.narrow l ↔ s.fullStart j < l := by
  refine ⟨h.fullStart_lt_of_lt_narrow, fun hlt ↦ ?_⟩
  by_contra hle
  exact absurd (h.le_fullStart_of_narrow_le hl (not_lt.mp hle)) (not_le.mpr hlt)

/-- The way to the full phrase and back leads to where it started. -/
theorem narrow_fullStart (hi : s.phrase.isPosition i) : s.narrow (s.fullStart i) = i := by
  have hback (j : Position) : j < s.narrow (s.fullStart i) ↔ s.fullStart j < s.fullStart i :=
    h.lt_narrow_iff (h.isPosition_fullStart hi)
  rcases lt_trichotomy (s.narrow (s.fullStart i)) i with hlt | heq | hgt
  · exact absurd ((hback _).mpr (h.fullStart_lt_fullStart hi hlt)) (lt_irrefl _)
  · exact heq
  · exact absurd ((hback i).mp hgt) (lt_irrefl _)

/-- Starts of a selection go to different positions of the full phrase. -/
theorem fullStart_inj (hi : s.phrase.isPosition i) (hj : s.phrase.isPosition j) :
    s.fullStart i = s.fullStart j ↔ i = j := by
  refine ⟨fun heq ↦ ?_, congrArg s.fullStart⟩
  rw [← h.narrow_fullStart hi, heq, h.narrow_fullStart hj]

/-- A position of the full phrase goes to a position of the selection. -/
theorem isPosition_narrow (hi : p.isPosition i) : s.phrase.isPosition (s.narrow i) := by
  rw [Phrase.isPosition_iff, h.wordCount_eq, h.wordLength_eq]
  exact ⟨(Phrase.isPosition_iff.mp hi).1, (List.takeWhile_sublist _).length_le⟩

/-- Starts stand in the full phrase as they do in the selection. -/
theorem fullStart_lt_iff (hj : s.phrase.isPosition j) : s.fullStart i < s.fullStart j ↔ i < j := by
  refine ⟨fun hlt ↦ ?_, h.fullStart_lt_fullStart hj⟩
  by_contra hle
  exact absurd (h.fullStart_le_fullStart (not_lt.mp hle)) (not_le.mpr hlt)

/-- Starts stand to the end of a span that is not empty as they do in the selection. -/
theorem lt_fullStop_iff {k : Position} (hj : s.phrase.isPosition j) (hij : i < j) :
    s.fullStart k < s.fullStop i j ↔ k < j := by
  constructor
  · intro hlt
    by_contra hle
    have hback := (h.fullStop_le_fullStart hj hij.le).trans
      (h.fullStart_le_fullStart (not_lt.mp hle))
    exact absurd hback (not_le.mpr hlt)
  · intro hkj
    -- the end of a span that is not empty does not depend on its start
    have hsame : s.fullStop i j = s.fullStop k j := by
      rw [fullStop, fullStop, if_neg hij.ne, if_neg hkj.ne]
    rw [hsame]
    exact h.fullStart_lt_fullStop hj hkj

/-- A span that starts before a position of the full phrase ends in front of it if it does so in the
selection. -/
theorem fullStop_le_iff {l : Position} (hl : p.isPosition l) (hj : s.phrase.isPosition j)
    (hij : i ≤ j) (hi : i < s.narrow l) : s.fullStop i j ≤ l ↔ j ≤ s.narrow l := by
  rcases hij.lt_or_eq with hlt | rfl
  · rw [fullStop, if_neg hlt.ne]
    cases hsegment : j.segment with
    | zero =>
      simp only [Position.le_iff, narrow, hsegment]
      omega
    | succ k =>
      have hk : k < (s.keptIn j.word).length := by
        rw [Phrase.isPosition_iff, h.wordLength_eq] at hj
        omega
      have hlast := h.lt_narrow_iff (j := ⟨j.word, k⟩) hl
      rw [h.fullStart_eq] at hlast
      simp only [List.getElem?_eq_getElem hk, Option.getD_some, Position.lt_iff] at hlast
      simp only [List.getElem?_eq_getElem hk, Option.getD_some, Position.le_iff, hsegment]
      omega
  · rw [fullStop, if_pos rfl]
    exact iff_of_true (le_of_lt (h.fullStart_lt_of_lt_narrow hi)) (le_of_lt hi)

end Within

end Selection

end Diachrony
