import Mathlib.Data.List.Induction
import Diachrony.Proofs.Pattern.Reach

/-!
# From position to position

The positions of a phrase are one chain: from the start, each leads to the next, and no position
stands between the two. So the positions from some place on can be counted, and a walk that moves on
with every step comes to an end.
-/

namespace Diachrony.Phrase

variable {p : Phrase} {i j k : Position}

/-- The next position has one more position before it. -/
theorem offset_next? (hi : p.isPosition i) (h : p.next? i = some j) :
    p.offset j = p.offset i + 1 := by
  rw [next?] at h
  split at h
  · cases h
    exact p.offset_step i
  · next hend =>
    split at h
    · next hlast =>
      cases h
      have hle := (isPosition_iff.mp hi).2
      exact offset_nextWord? (nextWord?_eq_some.mpr ⟨decide_eq_true (by omega), hlast, rfl⟩)
    · cases h

/-- No position stands between a position and the next. -/
theorem le_of_next? (hi : p.isPosition i) (h : p.next? i = some j) (hk : p.isPosition k)
    (hlt : i < k) : j ≤ k := by
  by_contra hle
  have hik := offset_lt_offset hi hlt
  have hkj := offset_lt_offset hk (not_le.mp hle)
  rw [offset_next? hi h] at hkj
  omega

/-- Behind a position without a next one there is none. -/
theorem le_of_next?_eq_none (h : p.next? i = none) (hk : p.isPosition k) : k ≤ i := by
  rw [isPosition_iff] at hk
  rw [next?] at h
  split at h
  · cases h
  · next hend =>
    split at h
    · cases h
    · next hlast =>
      rw [Position.le_iff]
      by_cases hword : k.word = i.word
      · rw [hword] at hk
        omega
      · omega

/-- From a position on there are that position and those from the next one on. -/
theorem eq_or_next?_le (hi : p.isPosition i) (hk : p.isPosition k) (hle : i ≤ k) :
    k = i ∨ ∃ j ∈ p.next? i, j ≤ k := by
  rcases hle.lt_or_eq with hlt | rfl
  · cases hnext : p.next? i with
    | none => exact absurd (le_of_next?_eq_none hnext hk) (not_le.mpr hlt)
    | some j => exact .inr ⟨j, rfl, le_of_next? hi hnext hk hlt⟩
  · exact .inl rfl

/-- In the list of positions the next one follows. -/
theorem next?_of_positions_eq {before rest : List Position}
    (h : p.positions = before ++ i :: rest) : p.next? i = rest.head? := by
  have hsorted := p.pairwise_positions
  rw [h, List.pairwise_append, List.pairwise_cons] at hsorted
  obtain ⟨-, ⟨hbehind, hrest⟩, hbefore⟩ := hsorted
  have hposition (k : Position) : k ∈ before ++ i :: rest ↔ p.isPosition k := by
    rw [← h]
    exact mem_positions
  have hi : p.isPosition i := (hposition i).mp (by simp)
  cases hnext : p.next? i with
  | none =>
    cases rest with
    | nil => rfl
    | cons k rest =>
      have hk := le_of_next?_eq_none hnext ((hposition k).mp (by simp))
      exact absurd (hbehind k List.mem_cons_self) (not_lt.mpr hk)
  | some j =>
    obtain ⟨hj, hlt⟩ := isPosition_of_next? hi hnext
    have hmem : j ∈ rest := by
      rcases List.mem_append.mp ((hposition j).mpr hj) with hmem | hmem
      · exact absurd (hbefore j hmem i List.mem_cons_self) (lt_asymm hlt)
      · exact (List.mem_cons.mp hmem).resolve_left (ne_of_gt hlt)
    cases rest with
    | nil => cases hmem
    | cons k rest =>
      have hjk := le_of_next? hi hnext ((hposition k).mp (by simp))
        (hbehind k List.mem_cons_self)
      rcases List.mem_cons.mp hmem with rfl | hmem
      · rfl
      · exact absurd ((List.pairwise_cons.mp hrest).1 j hmem) (not_lt.mpr hjk)

/-- In the list of positions, those before a position are as many as are counted before it. -/
theorem offset_of_positions_eq {before rest : List Position}
    (h : p.positions = before ++ i :: rest) : p.offset i = before.length := by
  induction before using List.reverseRecOn generalizing i rest with
  | nil =>
    have hsorted := p.pairwise_positions
    rw [h, List.nil_append, List.pairwise_cons] at hsorted
    have hmem : p.start ∈ i :: rest := by
      rw [← List.nil_append (i :: rest), ← h]
      exact mem_positions.mpr isPosition_start
    rcases List.mem_cons.mp hmem with rfl | hmem
    · rfl
    · exact absurd (hsorted.1 p.start hmem) (not_lt.mpr (start_le i))
  | append_singleton before k ih =>
    rw [List.append_assoc, List.singleton_append] at h
    have hk : p.isPosition k := mem_positions.mp (by simp [h])
    rw [offset_next? hk (next?_of_positions_eq h), ih h, List.length_append, List.length_singleton]

/-- The positions that do not stand before a position are all but those counted before it. -/
theorem length_filter_positions (hi : p.isPosition i) :
    (p.positions.filter fun j ↦ i ≤ j).length = p.size - p.offset i := by
  obtain ⟨before, rest, h⟩ := List.append_of_mem (mem_positions.mpr hi)
  have hsorted := p.pairwise_positions
  rw [h, List.pairwise_append, List.pairwise_cons] at hsorted
  obtain ⟨-, ⟨hbehind, -⟩, hbefore⟩ := hsorted
  have hout : before.filter (fun j ↦ i ≤ j) = [] := by
    rw [List.filter_eq_nil_iff]
    exact fun j hj ↦ by simpa using hbefore j hj i List.mem_cons_self
  have hin : (i :: rest).filter (fun j ↦ i ≤ j) = i :: rest := by
    rw [List.filter_eq_self, List.forall_mem_cons]
    exact ⟨decide_eq_true (le_refl i), fun j hj ↦ decide_eq_true (le_of_lt (hbehind j hj))⟩
  have hlength := congrArg List.length h
  rw [length_positions, List.length_append] at hlength
  rw [h, List.filter_append, hout, hin, List.nil_append, offset_of_positions_eq h]
  omega

end Diachrony.Phrase
