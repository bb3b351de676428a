import Diachrony.Proofs.Word.Reversal

/-!
# Joining and cutting words

What a word notes at an index is whether there is a break and which matrix a syllable has that
starts there. Words with the same segments that note the same are equal. So joining is associative,
and pieces of a word that are cut next to each other are joined to one piece.

When words are joined, a fragment may stand for the start of a word: followed by what is left of the
word, it comes out as the word does. An opening in front of a syllable changes nothing there, for
the syllable has the same break and the same matrix.
-/

namespace Diachrony

/-- A moved division has its breaks moved. -/
theorem Division.mem_breaks_shift {s : Division} {offset i : Nat} :
    i ∈ (s.shift offset).breaks ↔ offset ≤ i ∧ i - offset ∈ s.breaks := by
  simp only [shift, ofBreaks, SortedSet.mem_ofList, List.mem_map, ← SortedSet.mem_iff]
  constructor
  · rintro ⟨b, hb, rfl⟩
    exact ⟨Nat.le_add_left _ _, (Nat.add_sub_cancel b offset).symm ▸ hb⟩
  · rintro ⟨hle, hb⟩
    exact ⟨_, hb, Nat.sub_add_cancel hle⟩

/-- A moved division has its matrices moved. -/
theorem Division.get?_modifiers_shift (s : Division) (offset i : Nat) :
    (s.shift offset).modifiers.get? i =
      if offset ≤ i then s.modifiers.get? (i - offset) else none := by
  ext m
  rw [shift, ofBreaks, SortedMap.get?_mapKeys_eq_some]
  split
  · next hle =>
    constructor
    · rintro ⟨k, hk, rfl⟩
      rwa [Nat.add_sub_cancel]
    · intro hm
      exact ⟨_, hm, Nat.sub_add_cancel hle⟩
  · next hlt =>
    constructor
    · rintro ⟨k, -, rfl⟩
      exact absurd (Nat.le_add_left _ _) hlt
    · intro hm
      cases hm

namespace Word

variable {u v w : Word} {a b c i : Nat}

/-- Words are equal when they have the same segments and note the same. -/
theorem ext_noted (hsegments : v.segments = w.segments) (hdivided : v.isDivided = w.isDivided)
    (hbreaks : ∀ i, i ∈ v.division.breaks ↔ i ∈ w.division.breaks)
    (hmatrices : ∀ i, v.division.modifiers.get? i = w.division.modifiers.get? i) : v = w := by
  obtain ⟨vs, vd⟩ := v
  obtain ⟨ws, wd⟩ := w
  obtain rfl : vs = ws := hsegments
  cases vd with
  | none =>
    cases wd with
    | none => rfl
    | some e => cases hdivided
  | some d =>
    cases wd with
    | none => cases hdivided
    | some e =>
      have hbreaks : d.breaks = e.breaks := SortedSet.ext hbreaks
      have hmatrices : d.modifiers = e.modifiers := SortedMap.ext hmatrices
      obtain ⟨_, _⟩ := d
      obtain ⟨_, _⟩ := e
      cases hbreaks
      cases hmatrices
      rfl

section Joining

@[simp] theorem segments_append (v w : Word) : (v ++ w).segments = v.segments ++ w.segments := rfl

@[simp] theorem length_append (v w : Word) : (v ++ w).length = v.length + w.length :=
  List.length_append

@[simp] theorem isDivided_append (v w : Word) :
    (v ++ w).isDivided = (v.isDivided || w.isDivided) := by
  show (append v w).isDivided = _
  rw [isDivided, append]
  cases v.isDivided || w.isDivided <;> rfl

private theorem division_append (v w : Word) : (v ++ w).division =
    ⟨v.division.breaks.union (w.division.shift v.length).breaks,
      v.division.modifiers.orElse (w.division.shift v.length).modifiers⟩ := by
  obtain ⟨vs, vd⟩ := v
  obtain ⟨ws, wd⟩ := w
  cases vd <;> cases wd <;> rfl

/-- Joined words have the breaks of both, those of the second one behind the first. -/
theorem mem_breaks_append : i ∈ (v ++ w).division.breaks ↔
    i ∈ v.division.breaks ∨ v.length ≤ i ∧ i - v.length ∈ w.division.breaks := by
  rw [division_append, SortedSet.mem_union, Division.mem_breaks_shift]

/-- Joined words have the matrices of both, and those of the first one count. -/
theorem get?_modifiers_append (v w : Word) (i : Nat) : (v ++ w).division.modifiers.get? i =
    (v.division.modifiers.get? i).or
      (if v.length ≤ i then w.division.modifiers.get? (i - v.length) else none) := by
  rw [division_append, SortedMap.get?_orElse, Division.get?_modifiers_shift]

/-- Nothing in front of a word leaves the word. -/
@[simp] theorem empty_append (w : Word) : empty ++ w = w := by
  refine ext_noted rfl (isDivided_append empty w) (fun i ↦ ?_) fun i ↦ ?_
  · rw [mem_breaks_append]
    exact ⟨fun h ↦ (h.resolve_left (List.not_mem_nil)).2, fun h ↦ .inr ⟨Nat.zero_le i, h⟩⟩
  · rw [get?_modifiers_append]
    rfl

/-- Nothing behind a word leaves the word. -/
@[simp] theorem append_empty (w : Word) : w ++ empty = w := by
  refine ext_noted (List.append_nil _) ((isDivided_append w empty).trans (Bool.or_false _))
    (fun i ↦ ?_) fun i ↦ ?_
  · rw [mem_breaks_append]
    exact ⟨fun h ↦ h.resolve_right fun h ↦ List.not_mem_nil h.2, .inl⟩
  · rw [get?_modifiers_append]
    show _ = (w.division.modifiers.get? i)
    have hnone : (if w.length ≤ i then empty.division.modifiers.get? (i - w.length) else none) =
        none := ite_self _
    rw [hnone, Option.or_none]

/-- Words may be joined in any order. -/
theorem append_assoc (u v w : Word) : u ++ v ++ w = u ++ (v ++ w) := by
  refine ext_noted (List.append_assoc _ _ _) ?_ (fun i ↦ ?_) fun i ↦ ?_
  · simp only [isDivided_append, Bool.or_assoc]
  · simp only [mem_breaks_append, length_append, Nat.sub_sub]
    constructor
    · rintro ((hu | hv) | ⟨hle, hw⟩)
      · exact .inl hu
      · exact .inr ⟨hv.1, .inl hv.2⟩
      · exact .inr ⟨by omega, .inr ⟨by omega, hw⟩⟩
    · rintro (hu | ⟨hle, hv | ⟨hle', hw⟩⟩)
      · exact .inl (.inl hu)
      · exact .inl (.inr ⟨hle, hv⟩)
      · exact .inr ⟨by omega, hw⟩
  · simp only [get?_modifiers_append, length_append, Nat.sub_sub, Option.or_assoc]
    congr 1
    by_cases hu : u.length ≤ i
    · have hboth : u.length + v.length ≤ i ↔ v.length ≤ i - u.length := by omega
      simp only [if_pos hu, hboth]
    · have hboth : ¬u.length + v.length ≤ i := by omega
      rw [if_neg hu, if_neg hu, if_neg hboth, Option.or_none]

end Joining

section Cutting

@[simp] theorem segments_slice (w : Word) (a b : Nat) :
    (w.slice a b).segments = w.segments.extract a b := rfl

@[simp] theorem isDivided_slice (w : Word) (a b : Nat) : (w.slice a b).isDivided = w.isDivided := by
  rw [isDivided, slice, isDivided, Option.isSome_map]

/-- A piece of a word is as long as the span that it is cut from. -/
theorem length_slice (w : Word) (h : b ≤ w.length) : (w.slice a b).length = b - a := by
  simp only [length, segments_slice, List.extract_eq_take_drop, List.length_take,
    List.length_drop] at h ⊢
  omega

private theorem division_slice (w : Word) (a b : Nat) : (w.slice a b).division =
    .ofBreaks ((w.division.breaks.filter fun i ↦ a ≤ i ∧ i < b).toList.map (· - a))
      (.ofList ((w.division.modifiers.filter fun i _ ↦ a ≤ i ∧ i < b).entries.map
        fun e ↦ (e.1 - a, e.2))) := by
  obtain ⟨ws, wd⟩ := w
  cases wd <;> rfl

/-- A piece of a word has the breaks of its span, apart from one at the end. -/
theorem mem_breaks_slice : i ∈ (w.slice a b).division.breaks ↔
    a + i < b ∧ a + i ∈ w.division.breaks := by
  rw [division_slice, Division.ofBreaks, SortedSet.mem_ofList, List.mem_map]
  simp only [← SortedSet.mem_iff, SortedSet.mem_filter, decide_eq_true_eq]
  constructor
  · rintro ⟨k, ⟨hk, hle, hlt⟩, rfl⟩
    rw [Nat.add_sub_cancel' hle]
    exact ⟨hlt, hk⟩
  · rintro ⟨hlt, hmem⟩
    exact ⟨a + i, ⟨hmem, Nat.le_add_right a i, hlt⟩, Nat.add_sub_cancel_left a i⟩

/-- A piece of a word has the matrices of its span, apart from one at the end. -/
theorem get?_modifiers_slice (w : Word) (a b i : Nat) : (w.slice a b).division.modifiers.get? i =
    if a + i < b then w.division.modifiers.get? (a + i) else none := by
  have hnodup : (((w.division.modifiers.filter fun i _ ↦ a ≤ i ∧ i < b).entries.map
      fun e ↦ (e.1 - a, e.2)).map Prod.fst).Nodup := by
    rw [List.Nodup, List.pairwise_map, List.pairwise_map]
    refine (SortedMap.increasing _).imp_of_mem fun {e f} he hf hlt heq ↦ ?_
    have hle := (List.mem_filter.mp he).2
    have hle' := (List.mem_filter.mp hf).2
    simp only [decide_eq_true_eq] at hle hle' heq
    omega
  ext m
  rw [division_slice, Division.ofBreaks, SortedMap.get?_ofList_eq_some hnodup, List.mem_map]
  simp only [← SortedMap.get?_eq_some_iff, Prod.exists, Prod.mk.injEq,
    SortedMap.get?_filter_eq_some, decide_eq_true_eq]
  constructor
  · rintro ⟨k, _, ⟨hk, hle, hlt⟩, rfl, rfl⟩
    rw [Nat.add_sub_cancel' hle, if_pos hlt]
    exact hk
  · intro hm
    split at hm
    · next hlt =>
      exact ⟨a + i, m, ⟨hm, Nat.le_add_right a i, hlt⟩, Nat.add_sub_cancel_left a i, rfl⟩
    · cases hm

/-- Pieces that are cut next to each other are joined to one piece. -/
theorem slice_append_slice (w : Word) (hab : a ≤ b) (hbc : b ≤ c) (hb : b ≤ w.length) :
    w.slice a b ++ w.slice b c = w.slice a c := by
  have hlength := w.length_slice (a := a) hb
  refine ext_noted ?_ ?_ (fun i ↦ ?_) fun i ↦ ?_
  · simp only [segments_append, segments_slice, List.extract_eq_take_drop]
    rw [show c - a = b - a + (c - b) by omega, List.take_add, List.drop_drop,
      Nat.add_sub_cancel' hab]
  · simp
  · rw [mem_breaks_append, hlength, mem_breaks_slice, mem_breaks_slice, mem_breaks_slice]
    by_cases hi : a + i < b
    · have hle : ¬b - a ≤ i := by omega
      have hlt : a + i < c := by omega
      simp [hi, hle, hlt]
    · have hle : b - a ≤ i := by omega
      have heq : b + (i - (b - a)) = a + i := by omega
      simp [hi, hle, heq]
  · rw [get?_modifiers_append, hlength, get?_modifiers_slice, get?_modifiers_slice,
      get?_modifiers_slice]
    by_cases hi : a + i < b
    · have hle : ¬b - a ≤ i := by omega
      have hlt : a + i < c := by omega
      simp [hi, hle, hlt]
    · have hle : b - a ≤ i := by omega
      have heq : b + (i - (b - a)) = a + i := by omega
      simp [hi, hle, heq]

end Cutting

end Word

end Diachrony
