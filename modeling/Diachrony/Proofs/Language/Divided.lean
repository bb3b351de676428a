import Mathlib.Data.List.Nodup
import Diachrony.Language.Syllabify
import Diachrony.Proofs.Word.Likeness

/-!
# Words that were divided

The starts of the syllables of a word increase, the first of them is the start of the word, and none
of them is its end. The word that is divided at such starts has its breaks at all of them but the
first, and it has the matrix of every syllable at the start of the syllable.
-/

namespace Diachrony

/-- The set of an increasing list lists it as it is. -/
theorem SortedSet.toList_ofList {l : List Nat} (h : l.Pairwise (· < ·)) :
    (SortedSet.ofList l).toList = l := by
  have heq : SortedSet.ofList l = ⟨l, h⟩ := by
    ext a
    rw [mem_ofList]
    rfl
  rw [heq]

namespace Syllabifier

variable {w : Word} {starts : List SyllableStart}

/-- Whether a list has the starts of all syllables of a word, in order. -/
structure AreStarts (w : Word) (starts : List SyllableStart) : Prop where
  /-- The first syllable starts where the word does. -/
  first : ∀ s ∈ starts.head?, s.start = 0
  /-- The syllables come one after the other. -/
  increasing : (starts.map SyllableStart.start).Pairwise (· < ·)
  /-- Every syllable starts before a segment of the word. -/
  inside : ∀ s ∈ starts, s.start < w.length

/-- The matrix that a syllable comes to have. -/
def matrixAt (w : Word) (s : SyllableStart) : Matrix := s.matrix.getD (w.syllableMatrix s.start)

@[simp] theorem segments_applyDivision (w : Word) (starts : List SyllableStart) :
    (applyDivision w starts).segments = w.segments := rfl

namespace AreStarts

variable (h : AreStarts w starts)
include h

/-- The starts that are no start of the word are all but the first. -/
theorem filter_eq_tail :
    (starts.map SyllableStart.start).filter (0 < ·) = (starts.map SyllableStart.start).tail := by
  have hincreasing := h.increasing
  cases starts with
  | nil => rfl
  | cons s rest =>
    have hzero : s.start = 0 := h.first s rfl
    rw [List.map_cons, List.pairwise_cons] at hincreasing
    rw [List.map_cons, List.tail_cons, List.filter_cons_of_neg (by simp [hzero]),
      List.filter_eq_self]
    intro b hb
    have hlt := hincreasing.1 b hb
    exact decide_eq_true (Nat.zero_lt_of_lt hlt)

/-- The breaks of a divided word are the starts of its syllables but the first. -/
theorem toList_breaks : (applyDivision w starts).division.breaks.toList =
    (starts.map SyllableStart.start).tail := by
  rw [← h.filter_eq_tail]
  exact SortedSet.toList_ofList (h.increasing.filter _)

/-- A break stands before every syllable that is not at the start of the word. -/
theorem mem_breaks {i : Nat} : i ∈ (applyDivision w starts).division.breaks ↔
    0 < i ∧ ∃ s ∈ starts, s.start = i := by
  rw [SortedSet.mem_iff, h.toList_breaks, ← h.filter_eq_tail, List.mem_filter, decide_eq_true_eq,
    List.mem_map, and_comm]

/-- A divided word has the matrices of its syllables, where they are not empty. -/
theorem get?_modifiers {i : Nat} {m : Matrix} :
    (applyDivision w starts).division.modifiers.get? i = some m ↔
      m ≠ ∅ ∧ ∃ s ∈ starts, s.start = i ∧ matrixAt w s = m := by
  let entries : List (Nat × Matrix) := starts.map fun s ↦ (s.start, matrixAt w s)
  have hkeys : ((entries.filter fun e ↦ !e.2.isEmpty).map Prod.fst).Nodup := by
    have hfirst : entries.map Prod.fst = starts.map SyllableStart.start := List.map_map
    have hsublist := List.filter_sublist (p := fun e ↦ !e.2.isEmpty) (l := entries)
    apply (hsublist.map Prod.fst).nodup
    rw [hfirst]
    exact h.increasing.imp Nat.ne_of_lt
  have hempty : (!m.isEmpty) = true ↔ m ≠ ∅ := by
    rw [Bool.not_eq_true', ← Bool.not_eq_true, SortedSet.isEmpty_iff]
  calc (applyDivision w starts).division.modifiers.get? i = some m
      ↔ (i, m) ∈ entries.filter (fun e ↦ !e.2.isEmpty) := by
          exact SortedMap.get?_ofList_eq_some hkeys
    _ ↔ m ≠ ∅ ∧ (i, m) ∈ entries := by rw [List.mem_filter, hempty, and_comm]
    _ ↔ m ≠ ∅ ∧ ∃ s ∈ starts, s.start = i ∧ matrixAt w s = m := by
      simp only [entries, List.mem_map, Prod.mk.injEq]

/-- A syllable starts in the divided word where it should. -/
theorem isSyllableStart {s : SyllableStart} (hs : s ∈ starts) :
    (applyDivision w starts).isSyllableStart s.start := by
  rw [Word.isSyllableStart_iff, Word.isBreak_iff, h.mem_breaks]
  by_cases hzero : s.start = 0
  · exact .inl hzero
  · have hpos := Nat.pos_of_ne_zero hzero
    exact .inr ⟨hpos, h.inside s hs, hpos, s, hs, rfl⟩

/-- A syllable of the divided word has the matrix that it should have. -/
theorem syllableMatrix {s : SyllableStart} (hs : s ∈ starts) :
    (applyDivision w starts).syllableMatrix s.start = matrixAt w s := by
  have hunique : ∀ t ∈ starts, t.start = s.start → t = s := by
    intro t ht heq
    exact List.inj_on_of_nodup_map (h.increasing.imp Nat.ne_of_lt) ht hs heq
  have hlt : s.start < (applyDivision w starts).length := h.inside s hs
  rw [Word.syllableMatrix_of_isSyllableStart hlt (h.isSyllableStart hs)]
  cases hnoted : (applyDivision w starts).division.modifiers.get? s.start with
  | some m =>
    obtain ⟨-, t, ht, hstart, hmatrix⟩ := h.get?_modifiers.mp hnoted
    rw [← hmatrix, hunique t ht hstart, Option.getD_some]
  | none =>
    by_contra hne
    have hsome := h.get?_modifiers.mpr ⟨Ne.symm hne, s, hs, rfl, rfl⟩
    rw [hnoted] at hsome
    cases hsome

/-- A divided word is normalized. -/
theorem normalized_applyDivision :
    (applyDivision w starts).normalized = applyDivision w starts := by
  apply Word.ext_noted
  · rfl
  · exact Word.isDivided_normalized _
  · intro i
    rw [Word.breaks_normalized, Word.mem_innerBreaks, Word.isBreak_iff, ← and_assoc,
      and_iff_right_iff_imp]
    intro hbreak
    obtain ⟨hpos, s, hs, rfl⟩ := h.mem_breaks.mp hbreak
    exact ⟨hpos, h.inside s hs⟩
  · intro i
    ext m
    rw [Word.get?_modifiers_normalized, ← Word.isSyllableStart_iff, and_iff_left_iff_imp]
    intro hnoted
    obtain ⟨hne, s, hs, rfl, -⟩ := h.get?_modifiers.mp hnoted
    exact ⟨hne, h.isSyllableStart hs⟩

/-- A divided word that is divided at the same starts stays as it is. -/
theorem applyDivision_applyDivision :
    applyDivision (applyDivision w starts) starts = applyDivision w starts := by
  have hmatrix : ∀ s ∈ starts, matrixAt (applyDivision w starts) s = matrixAt w s := by
    intro s hs
    rw [matrixAt, h.syllableMatrix hs, matrixAt]
    cases s.matrix <;> rfl
  have hentries : (starts.map fun s ↦ (s.start, matrixAt (applyDivision w starts) s)) =
      starts.map fun s ↦ (s.start, matrixAt w s) :=
    List.map_congr_left fun s hs ↦ by rw [hmatrix s hs]
  exact congrArg (fun entries : List (Nat × Matrix) ↦ w.divided
    (.ofBreaks ((starts.map SyllableStart.start).filter (0 < ·))
      (.ofList (entries.filter fun e ↦ !e.2.isEmpty)))) hentries

end AreStarts

end Syllabifier

end Diachrony
