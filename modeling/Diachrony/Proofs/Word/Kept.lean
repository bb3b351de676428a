import Diachrony.Proofs.Word.Likeness

/-!
# Syllables that are kept whole

A piece of a word that is a syllable is put between other text. What is written in front of it has
notes up to its end at most, so no break comes to stand inside the syllable, and the segments of the
syllable stay in one syllable. This has the matrix that was noted for it if a syllable starts there
and the text in front notes nothing at that place. If no syllable starts there, the segments belong
to the syllable of the text in front.
-/

namespace Diachrony.Word

variable {v w front rest : Word} {a b index start stop : Nat}

/-- Whether a word notes nothing behind its end. -/
structure IsClosed (w : Word) : Prop where
  /-- Every break is in the word or at its end. -/
  breaks : ∀ i ∈ w.division.breaks, i ≤ w.length
  /-- Every matrix is for a place in the word or at its end. -/
  modifiers : ∀ i, (w.division.modifiers.get? i).isSome → i ≤ w.length

namespace IsClosed

/-- A word without division notes nothing. -/
theorem of_undivided (h : w.syllables = none) : w.IsClosed := by
  have hdivision : w.division = .empty := by rw [division, h, Option.getD_none]
  constructor
  · intro i hi
    rw [hdivision] at hi
    cases hi
  · intro i hi
    rw [hdivision] at hi
    cases hi

/-- Joined words note nothing behind the end if neither does. -/
theorem append (hv : v.IsClosed) (hw : w.IsClosed) : (v ++ w).IsClosed := by
  constructor
  · intro i hi
    rw [length_append]
    rcases mem_breaks_append.mp hi with hi | ⟨hle, hi⟩
    · exact Nat.le_add_right_of_le (hv.breaks i hi)
    · have := hw.breaks _ hi
      omega
  · intro i hi
    rw [get?_modifiers_append, Option.isSome_or, Bool.or_eq_true] at hi
    rw [length_append]
    rcases hi with hi | hi
    · exact Nat.le_add_right_of_le (hv.modifiers i hi)
    · split at hi
      · have := hw.modifiers _ hi
        omega
      · cases hi

/-- A piece of a word notes nothing behind its end. -/
theorem slice (w : Word) (hb : b ≤ w.length) : (w.slice a b).IsClosed := by
  constructor
  · intro i hi
    have := (mem_breaks_slice.mp hi).1
    rw [length_slice w hb]
    omega
  · intro i hi
    rw [get?_modifiers_slice] at hi
    rw [length_slice w hb]
    split at hi
    · omega
    · cases hi

/-- An opening notes something at its end only. -/
theorem syllableOpening (m : Matrix) : (syllableOpening m).IsClosed := by
  constructor
  · intro i hi
    exact Nat.le_of_eq (mem_breaks_syllableOpening.mp hi)
  · intro i hi
    obtain ⟨n, hn⟩ := Option.isSome_iff_exists.mp hi
    exact Nat.le_of_eq (get?_modifiers_syllableOpening.mp hn).1

end IsClosed

/-- A piece of a word notes no matrix at its end. -/
theorem get?_modifiers_slice_length (w : Word) (a : Nat) (hb : b ≤ w.length) :
    (w.slice a b).division.modifiers.get? (w.slice a b).length = none := by
  rw [get?_modifiers_slice, length_slice w hb, if_neg (by omega)]

/-- Indices without a break between them belong to one syllable. -/
theorem syllableAt_eq_of_unbroken (hab : a ≤ b) (h : ∀ k, a < k → k ≤ b → ¬w.isBreak k) :
    w.syllableAt b = w.syllableAt a := by
  have hsame : ∀ k ∈ w.syllableStarts, decide (k ≤ b) = decide (k ≤ a) := by
    intro k hk
    rw [decide_eq_decide]
    refine ⟨fun hkb ↦ ?_, fun hka ↦ Nat.le_trans hka hab⟩
    by_contra hka
    rcases mem_syllableStarts.mp hk with hzero | hbreak
    · omega
    · exact h k (Nat.lt_of_not_le hka) hkb hbreak
  have htake (l : List Nat) (hl : ∀ k ∈ l, decide (k ≤ b) = decide (k ≤ a)) :
      l.takeWhile (· ≤ b) = l.takeWhile (· ≤ a) := by
    induction l with
    | nil => rfl
    | cons k rest ih =>
      rw [List.forall_mem_cons] at hl
      rw [List.takeWhile_cons, List.takeWhile_cons, hl.1, ih hl.2]
  rw [syllableAt, syllableAt, htake _ hsame]

/-- The matrix at a place where a syllable starts is normalized as it is. -/
theorem syllableMatrix_normalized_of_isSyllableStart (hlt : a < w.length)
    (hstart : w.isSyllableStart a) :
    w.normalized.syllableMatrix a = (w.division.modifiers.get? a).getD ∅ := by
  have hnormalized : w.normalized.isSyllableStart a := by
    rw [isSyllableStart_iff] at hstart ⊢
    rwa [isBreak_normalized]
  rw [syllableMatrix_of_isSyllableStart (w := w.normalized) hlt hnormalized]
  cases hnoted : w.division.modifiers.get? a with
  | none =>
    cases hkept : w.normalized.division.modifiers.get? a with
    | none => rfl
    | some m =>
      rw [(get?_modifiers_normalized.mp hkept).1] at hnoted
      cases hnoted
  | some m =>
    by_cases hm : m = ∅
    · cases hkept : w.normalized.division.modifiers.get? a with
      | none => exact hm.symm
      | some n =>
        rw [(get?_modifiers_normalized.mp hkept).1] at hnoted
        rw [hnoted]
    · rw [get?_modifiers_normalized.mpr ⟨hnoted, hm, isSyllableStart_iff.mp hstart⟩]

namespace IsSyllable

/-! A syllable of a word stands between a front and a rest. -/

variable (h : w.IsSyllable start stop)
include h

/-- The segments of a syllable stay what they are. -/
theorem segments_kept (front rest : Word) (hstart : start ≤ index) (hstop : index < stop) :
    (front ++ w.slice start stop ++ rest).segments[front.length + (index - start)]? =
      w.segments[index]? := by
  have hlength := w.length_slice (a := start) h.le_length
  simp only [length] at hlength ⊢
  rw [segments_append, segments_append, List.append_assoc,
    List.getElem?_append_right (Nat.le_add_right _ _), Nat.add_sub_cancel_left,
    List.getElem?_append_left (by omega), segments_slice, List.extract_eq_take_drop,
    List.getElem?_take_of_lt (by omega), List.getElem?_drop, Nat.add_sub_cancel' hstart]

/-- No break comes to stand inside a syllable. -/
theorem not_isBreak_kept (hfront : front.IsClosed) (rest : Word) {k : Nat}
    (hlt : front.length < k) (hk : k < front.length + (stop - start)) :
    ¬(front ++ w.slice start stop ++ rest).isBreak k := by
  intro hbreak
  have hlength := w.length_slice (a := start) h.le_length
  rcases mem_breaks_append.mp (isBreak_iff.mp hbreak).2.2 with hkept | ⟨hle, -⟩
  · rcases mem_breaks_append.mp hkept with hbefore | ⟨-, hinside⟩
    · exact Nat.not_le_of_lt hlt (hfront.breaks k hbefore)
    · obtain ⟨hstop, hmem⟩ := mem_breaks_slice.mp hinside
      have hle := h.le_length
      exact h.unbroken _ (by omega) hstop (isBreak_iff.mpr ⟨by omega, by omega, hmem⟩)
  · rw [length_append] at hle
    omega

/-- A break at the start of a syllable stays there. -/
theorem isBreak_kept (hbreak : w.isBreak start) {front : Word} (hpos : 0 < front.length)
    (rest : Word) : (front ++ w.slice start stop ++ rest).normalized.isBreak front.length := by
  have hlt := h.lt
  have hlength := w.length_slice (a := start) h.le_length
  rw [isBreak_normalized, isBreak_iff, length_append, length_append]
  refine ⟨hpos, by omega, mem_breaks_append.mpr (.inl (mem_breaks_append.mpr (.inr ?_)))⟩
  refine ⟨Nat.le_refl _, mem_breaks_slice.mpr ?_⟩
  rw [Nat.sub_self, Nat.add_zero]
  exact ⟨hlt, (isBreak_iff.mp hbreak).2.2⟩

/-- The segments of a syllable belong to the syllable that starts with them, which has the matrix
that the syllable had, or to the one of the text in front. -/
theorem syllableMatrix_kept (hfront : front.IsClosed)
    (hend : front.division.modifiers.get? front.length = none) (rest : Word)
    (hstart : start ≤ index) (hstop : index < stop) :
    let joined := (front ++ w.slice start stop ++ rest).normalized
    joined.syllableMatrix (front.length + (index - start)) =
      if joined.isSyllableStart front.length then w.syllableMatrix index
      else joined.syllableMatrix (front.length - 1) := by
  intro joined
  have hlength := w.length_slice (a := start) h.le_length
  have hunbroken (k : Nat) (hlt : front.length < k) (hk : k < front.length + (stop - start)) :
      ¬joined.isBreak k := by
    rw [isBreak_normalized]
    exact h.not_isBreak_kept hfront rest hlt hk
  split
  · next hstarts =>
    have hlt : front.length < (front ++ w.slice start stop ++ rest).length := by
      rw [length_append, length_append]
      omega
    have hraw : (front ++ w.slice start stop ++ rest).isSyllableStart front.length := by
      rw [isSyllableStart_iff] at hstarts ⊢
      rwa [isBreak_normalized] at hstarts
    have hfirst : joined.syllableAt (front.length + (index - start)) =
        joined.syllableAt front.length :=
      syllableAt_eq_of_unbroken (Nat.le_add_right _ _) fun k hlt hk ↦ hunbroken k hlt (by omega)
    have hnoted : (front ++ w.slice start stop ++ rest).division.modifiers.get? front.length =
        w.division.modifiers.get? start := by
      have hrest : ¬(front ++ w.slice start stop).length ≤ front.length := by
        rw [length_append]
        omega
      rw [get?_modifiers_append, get?_modifiers_append, hend, if_pos (Nat.le_refl _),
        get?_modifiers_slice, Nat.sub_self, Nat.add_zero, if_pos h.lt, if_neg hrest,
        Option.none_or, Option.or_none]
    calc joined.syllableMatrix (front.length + (index - start))
      _ = joined.syllableMatrix front.length := by rw [syllableMatrix, hfirst, syllableMatrix]
      _ = (w.division.modifiers.get? start).getD ∅ := by
        rw [syllableMatrix_normalized_of_isSyllableStart hlt hraw, hnoted]
      _ = w.syllableMatrix index := by rw [syllableMatrix, h.syllableAt_eq hstart hstop]
  · next hinside =>
    have hinside : front.length ≠ 0 ∧ ¬joined.isBreak front.length :=
      not_or.mp fun hstarts ↦ hinside (isSyllableStart_iff.mpr hstarts)
    have hfirst : joined.syllableAt (front.length + (index - start)) =
        joined.syllableAt (front.length - 1) := by
      refine syllableAt_eq_of_unbroken (by omega) fun k hlt hk ↦ ?_
      rcases Nat.lt_or_ge front.length k with hgt | hle
      · exact hunbroken k hgt (by omega)
      · rw [show k = front.length by omega]
        exact hinside.2
    rw [syllableMatrix, hfirst, syllableMatrix]

end IsSyllable

end Diachrony.Word
