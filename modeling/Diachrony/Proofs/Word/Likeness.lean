import Diachrony.Proofs.Word.Joining

/-!
# Words that come out alike

Normalizing drops what a word notes at its edges, so a break at the start of a word makes no
difference to what comes out. An opening in front of a syllable changes nothing else: the syllable
has the same break and the same matrix. So the pieces of a word, with openings in front of some of
its syllables, are joined to what comes out as the word.

Only a word without segments comes out otherwise. The piece that is all of it does not hold the
matrix that the word notes at its start.

A word that is reversed twice comes out normalized, and if it has no matrices so does a piece that
is cut from its reversal and reversed.
-/

namespace Diachrony.Word

variable {u v w : Word} {a b c i : Nat}

/-- A break inside a word is one that is noted there. -/
theorem isBreak_iff : w.isBreak i ↔ 0 < i ∧ i < w.length ∧ i ∈ w.division.breaks := by
  rw [isBreak, decide_eq_true_eq]

/-- Normalizing keeps the matrices that are not empty and stand where a syllable may start. -/
theorem get?_modifiers_normalized {m : Matrix} :
    w.normalized.division.modifiers.get? i = some m ↔
      w.division.modifiers.get? i = some m ∧ m ≠ ∅ ∧ (i = 0 ∨ w.isBreak i) := by
  rw [SortedMap.get?_eq_some_iff, SortedMap.get?_eq_some_iff, mem_modifiers_normalized]

@[simp] theorem isDivided_normalized (w : Word) : w.normalized.isDivided = w.isDivided := by
  rw [isDivided, normalized, isDivided, Option.isSome_map]

/-- Normalizing twice is normalizing once. -/
@[simp] theorem normalized_normalized (w : Word) : w.normalized.normalized = w.normalized := by
  refine ext_noted rfl (isDivided_normalized _) (fun i ↦ ?_) fun i ↦ ?_
  · rw [breaks_normalized, breaks_normalized, mem_innerBreaks, mem_innerBreaks, isBreak_normalized]
  · ext m
    rw [get?_modifiers_normalized, isBreak_normalized, get?_modifiers_normalized, and_assoc,
      and_self]

/-- Whether words have the same segments and note the same, apart from a break at the start. -/
structure Like (v w : Word) : Prop where
  /-- The segments are the same. -/
  segments : v.segments = w.segments
  /-- Both are divided or neither. -/
  isDivided : v.isDivided = w.isDivided
  /-- The breaks behind the start are the same. -/
  breaks : ∀ i, 0 < i → (i ∈ v.division.breaks ↔ i ∈ w.division.breaks)
  /-- The matrices are the same. -/
  modifiers : ∀ i, v.division.modifiers.get? i = w.division.modifiers.get? i

namespace Like

theorem refl (w : Word) : Like w w := ⟨rfl, rfl, fun _ _ ↦ Iff.rfl, fun _ ↦ rfl⟩

theorem trans (huv : Like u v) (hvw : Like v w) : Like u w where
  segments := huv.segments.trans hvw.segments
  isDivided := huv.isDivided.trans hvw.isDivided
  breaks i hi := (huv.breaks i hi).trans (hvw.breaks i hi)
  modifiers i := (huv.modifiers i).trans (hvw.modifiers i)

/-- Words that are alike have the same length. -/
theorem length_eq (h : Like v w) : v.length = w.length := congrArg List.length h.segments

/-- Words that are alike are normalized alike. -/
theorem normalized_eq (h : Like v w) : v.normalized = w.normalized := by
  have hbreak (i : Nat) : v.isBreak i ↔ w.isBreak i := by
    rw [isBreak_iff, isBreak_iff, h.length_eq]
    exact and_congr_right fun hpos ↦ and_congr_right fun _ ↦ h.breaks i hpos
  refine ext_noted h.segments ?_ (fun i ↦ ?_) fun i ↦ ?_
  · rw [isDivided_normalized, isDivided_normalized, h.isDivided]
  · rw [breaks_normalized, breaks_normalized, mem_innerBreaks, mem_innerBreaks, hbreak]
  · ext m
    rw [get?_modifiers_normalized, get?_modifiers_normalized, h.modifiers, hbreak]

/-- Words that are alike stay so when something is added. -/
theorem append_right (h : Like v w) (u : Word) : Like (v ++ u) (w ++ u) where
  segments := congrArg (· ++ u.segments) h.segments
  isDivided := by rw [isDivided_append, isDivided_append, h.isDivided]
  breaks i hi := by rw [mem_breaks_append, mem_breaks_append, h.breaks i hi, h.length_eq]
  modifiers i := by rw [get?_modifiers_append, get?_modifiers_append, h.modifiers, h.length_eq]

end Like

section Openings

/-- An opening notes a break. -/
theorem mem_breaks_syllableOpening {m : Matrix} :
    i ∈ (syllableOpening m).division.breaks ↔ i = 0 := by
  show i ∈ SortedSet.ofList [0] ↔ i = 0
  rw [SortedSet.mem_ofList, List.mem_singleton]

/-- An opening notes its matrix, unless this is empty. -/
theorem get?_modifiers_syllableOpening {m n : Matrix} :
    (syllableOpening m).division.modifiers.get? i = some n ↔ i = 0 ∧ m ≠ ∅ ∧ n = m := by
  show (if m.isEmpty then ∅ else SortedMap.insert 0 m ∅ : SortedMap Nat Matrix).get? i = some n ↔ _
  split
  · next hempty => simp [SortedSet.isEmpty_iff.mp hempty]
  · next hne =>
    have hne : m ≠ ∅ := fun h ↦ hne (SortedSet.isEmpty_iff.mpr h)
    rw [SortedMap.get?_insert, SortedMap.get?_empty]
    by_cases hi : i = 0
    · simp only [hi, if_true, Option.some.injEq, true_and, ne_eq, hne, not_false_eq_true]
      exact eq_comm
    · simp [hi]

/-- The first syllable of a word starts at its start. -/
theorem syllableAt_zero (w : Word) : w.syllableAt 0 = 0 := by
  have hsorted := w.pairwise_syllableStarts
  rw [syllableStarts, List.pairwise_cons] at hsorted
  rw [syllableAt, syllableStarts, List.takeWhile_cons_of_pos (by simp)]
  cases hrest : w.innerBreaks.toList with
  | nil => rfl
  | cons b rest =>
    have hpos : 0 < b := hsorted.1 b (hrest ▸ List.mem_cons_self)
    rw [List.takeWhile_cons_of_neg (by simpa using Nat.ne_of_gt hpos)]
    rfl

/-- The matrix of a syllable is the one that is noted at its start. -/
theorem syllableMatrix_of_isSyllableStart (hlt : a < w.length) (hstart : w.isSyllableStart a) :
    w.syllableMatrix a = (w.division.modifiers.get? a).getD ∅ := by
  have hsyllable := isSyllable_iff.mpr ⟨hlt, hstart, rfl⟩
  rw [syllableMatrix, hsyllable.syllableAt_eq (Nat.le_refl a) hsyllable.lt]

/-- What is like the start of a word is like more of the word with the next piece. -/
theorem Like.append_slice (h : Like v (w.slice 0 a)) (hab : a ≤ b) (hb : b ≤ w.length) :
    Like (v ++ w.slice a b) (w.slice 0 b) := by
  have ha : a ≤ w.length := Nat.le_trans hab hb
  rw [← slice_append_slice w (Nat.zero_le a) hab ha]
  exact h.append_right _

/-- An opening in front of a syllable changes nothing but the start of a word. -/
theorem like_append_syllableOpening (hdivided : w.isDivided) (hstart : w.isSyllableStart a)
    (hab : a < b) (hb : b ≤ w.length) (hv : v.length = a) :
    Like (v ++ syllableOpening (w.syllableMatrix a) ++ w.slice a b) (v ++ w.slice a b) := by
  have hlt : a < w.length := Nat.lt_of_lt_of_le hab hb
  have hempty : (syllableOpening (w.syllableMatrix a)).length = 0 := rfl
  refine ⟨?_, ?_, fun i hi ↦ ?_, fun i ↦ ?_⟩
  · show v.segments ++ [] ++ _ = _
    rw [List.append_nil]
    rfl
  · simp [hdivided]
  · simp only [mem_breaks_append, mem_breaks_syllableOpening, length_append, hempty, Nat.add_zero]
    -- The only new break is at the start of the syllable, which has one if it is inside its word.
    constructor
    · rintro ((hv' | ⟨hle, hzero⟩) | hslice)
      · exact .inl hv'
      · have hbreak : w.isBreak a := (isSyllableStart_iff.mp hstart).resolve_left (by omega)
        refine .inr ⟨hle, mem_breaks_slice.mpr ?_⟩
        rw [hzero, Nat.add_zero]
        exact ⟨hab, (isBreak_iff.mp hbreak).2.2⟩
      · exact .inr hslice
    · rintro (hv' | hslice)
      · exact .inl (.inl hv')
      · exact .inr hslice
  · simp only [get?_modifiers_append, length_append, hempty, Nat.add_zero, Option.or_assoc]
    congr 1
    by_cases hle : v.length ≤ i
    · rw [if_pos hle, if_pos hle]
      cases hopening : (syllableOpening (w.syllableMatrix a)).division.modifiers.get?
          (i - v.length) with
      | none => rfl
      | some m =>
        -- The matrix of the opening is the one that the syllable has.
        obtain ⟨hzero, hne, rfl⟩ := get?_modifiers_syllableOpening.mp hopening
        rw [syllableMatrix_of_isSyllableStart hlt hstart] at hne ⊢
        rw [hzero, get?_modifiers_slice, Nat.add_zero, if_pos hab]
        cases hnoted : w.division.modifiers.get? a with
        | none => simp [hnoted] at hne
        | some m => rfl
    · rw [if_neg hle, if_neg hle]
      rfl

/-- An opening may stand between what is like the start of a word and the next syllable. -/
theorem Like.append_syllableOpening (h : Like v (w.slice 0 a)) (hdivided : w.isDivided)
    (hstart : w.isSyllableStart a) (hab : a < b) (hb : b ≤ w.length) :
    Like (v ++ syllableOpening (w.syllableMatrix a) ++ w.slice a b) (w.slice 0 b) := by
  have ha : a ≤ w.length := Nat.le_trans (Nat.le_of_lt hab) hb
  have hlength : v.length = a := by rw [h.length_eq, length_slice w ha, Nat.sub_zero]
  exact (like_append_syllableOpening hdivided hstart hab hb hlength).trans
    (h.append_slice (Nat.le_of_lt hab) hb)

end Openings

/-- The piece that is all of a word with segments is normalized as the word. -/
theorem normalized_slice (hpos : 0 < w.length) :
    (w.slice 0 w.length).normalized = w.normalized := by
  have hlength := w.length_slice (a := 0) (Nat.le_refl w.length)
  have hbreak (i : Nat) : (w.slice 0 w.length).isBreak i ↔ w.isBreak i := by
    rw [isBreak_iff, isBreak_iff, hlength, mem_breaks_slice, Nat.zero_add, Nat.sub_zero]
    exact ⟨fun h ↦ ⟨h.1, h.2.1, h.2.2.2⟩, fun h ↦ ⟨h.1, h.2.1, h.2.1, h.2.2⟩⟩
  refine ext_noted ?_ ?_ (fun i ↦ ?_) fun i ↦ ?_
  · show w.segments.extract 0 w.segments.length = w.segments
    rw [List.extract_eq_take_drop, List.drop_zero, Nat.sub_zero, List.take_length]
  · simp
  · rw [breaks_normalized, breaks_normalized, mem_innerBreaks, mem_innerBreaks, hbreak]
  · ext m
    rw [get?_modifiers_normalized, get?_modifiers_normalized, hbreak, get?_modifiers_slice,
      Nat.zero_add]
    refine and_congr_left fun hstart ↦ ?_
    have hlt : i < w.length := by
      rcases hstart.2 with hzero | hbreak
      · rw [hzero]
        exact hpos
      · exact (lt_length_of_isBreak hbreak).2
    rw [if_pos hlt]

/-- Whether a word comes out as another one: normalized, or cut to nothing if it has no segment. -/
def ComesOut (w v : Word) : Prop :=
  v = w.normalized ∨ w.isEmpty ∧ v = ⟨[], w.syllables.map fun _ ↦ .empty⟩

namespace ComesOut

/-- What comes out has the same segments. -/
theorem segments_eq (h : ComesOut w v) : v.segments = w.segments := by
  rcases h with rfl | ⟨hempty, rfl⟩
  · rfl
  · exact (List.isEmpty_iff.mp hempty).symm

/-- What comes out comes out again. -/
theorem trans (hwv : ComesOut w v) (hvu : ComesOut v u) : ComesOut w u := by
  rcases hwv with rfl | ⟨hempty, rfl⟩
  · rcases hvu with rfl | ⟨hempty, rfl⟩
    · exact .inl w.normalized_normalized
    · refine .inr ⟨hempty, ?_⟩
      rw [normalized, Option.map_map]
      rfl
  · refine .inr ⟨hempty, ?_⟩
    rcases hvu with rfl | ⟨-, rfl⟩
    · cases w.syllables <;> rfl
    · rw [Option.map_map]
      rfl

/-- The empty piece of a word notes nothing. -/
private theorem slice_zero_zero (w : Word) :
    w.slice 0 0 = ⟨[], w.syllables.map fun _ ↦ .empty⟩ := by
  refine ext_noted ?_ ?_ (fun i ↦ ?_) fun i ↦ ?_
  · rw [segments_slice, List.extract_eq_take_drop, Nat.sub_self, List.take_zero]
  · rw [isDivided_slice, isDivided, isDivided, Option.isSome_map]
  · rw [mem_breaks_slice]
    cases hd : w.syllables <;> simp [division, Division.empty]
  · rw [get?_modifiers_slice, if_neg (Nat.not_lt_zero _)]
    cases w.syllables <;> rfl

/-- A word that is like the whole word comes out as the word does. -/
theorem of_like_slice (h : Like v (w.slice 0 w.length)) : ComesOut w v.normalized := by
  rw [h.normalized_eq]
  rcases Nat.eq_zero_or_pos w.length with hzero | hpos
  · refine .inr ⟨List.isEmpty_iff.mpr (List.length_eq_zero_iff.mp hzero), ?_⟩
    rw [hzero, slice_zero_zero]
    cases w.syllables <;> rfl
  · exact .inl (normalized_slice hpos)

/-- A word that is like another one comes out as that one does. -/
theorem of_like (h : Like v w) : ComesOut w v.normalized := .inl h.normalized_eq

/-- Where a word without segments has no matrix, words come out normalized. -/
theorem eq_normalized (h : ComesOut w v) (hmatrix : w.isEmpty → w.syllableMatrix 0 = ∅) :
    v = w.normalized := by
  rcases h with heq | ⟨hempty, rfl⟩
  · exact heq
  · have hnil : w.segments = [] := List.isEmpty_iff.mp hempty
    have hbreak (i : Nat) : ¬w.isBreak i := fun h ↦ by
      have hlt := (lt_length_of_isBreak h).2
      rw [length, hnil] at hlt
      exact Nat.not_lt_zero i hlt
    refine ext_noted hnil.symm ?_ (fun i ↦ ?_) fun i ↦ ?_
    · rw [isDivided_normalized, isDivided, isDivided, Option.isSome_map]
    · rw [breaks_normalized, mem_innerBreaks]
      refine iff_of_false ?_ (hbreak i)
      cases w.syllables <;> exact SortedSet.not_mem_empty i
    · have hnone : (⟨[], w.syllables.map fun _ ↦ .empty⟩ : Word).division.modifiers.get? i =
          none := by
        cases w.syllables <;> rfl
      rw [hnone, eq_comm, Option.eq_none_iff_forall_not_mem]
      intro m hm
      obtain ⟨hnoted, hne, hstart⟩ := get?_modifiers_normalized.mp hm
      rw [hstart.resolve_right (hbreak i)] at hnoted
      rw [syllableMatrix, syllableAt_zero, hnoted] at hmatrix
      exact hne (hmatrix hempty)

end ComesOut

/-- The piece that is all of a word is normalized as the word, unless that has no segment and a
matrix at its start. -/
theorem normalized_slice_iff : (w.slice 0 w.length).normalized = w.normalized ↔
    (w.isEmpty → w.syllableMatrix 0 = ∅) := by
  constructor
  · intro heq hempty
    have hzero : w.length = 0 := List.length_eq_zero_iff.mpr (List.isEmpty_iff.mp hempty)
    by_contra hne
    have hnoted : w.division.modifiers.get? 0 = some (w.syllableMatrix 0) := by
      rw [syllableMatrix, syllableAt_zero] at hne ⊢
      cases hget : w.division.modifiers.get? 0 with
      | none =>
        rw [hget] at hne
        exact absurd rfl hne
      | some m => rfl
    -- Normalizing keeps this matrix, and the piece never had it.
    have hkept := get?_modifiers_normalized.mpr ⟨hnoted, hne, .inl rfl⟩
    rw [← heq, get?_modifiers_normalized, get?_modifiers_slice, hzero,
      if_neg (Nat.lt_irrefl 0)] at hkept
    cases hkept.1
  · intro hmatrix
    exact (ComesOut.of_like_slice (.refl _)).eq_normalized hmatrix

section Reversal

@[simp] theorem isDivided_reversed (w : Word) : w.reversed.isDivided = w.isDivided := by
  rw [isDivided, reversed, isDivided, Option.isSome_map, normalized, Option.isSome_map]

/-- A word without segments is reversed as it is normalized. -/
private theorem reversed_of_length_eq_zero (h : w.length = 0) : w.reversed = w.normalized := by
  have hbreak (i : Nat) : ¬w.isBreak i := by
    intro hi
    have := lt_length_of_isBreak hi
    omega
  have hsegments : w.segments = [] := List.length_eq_zero_iff.mp h
  -- All that is left is at the start, where the reversed word has it too.
  have hkeys : w.normalized.division.modifiers.entries.map
      (fun e ↦ (w.length - w.normalized.syllableStop e.1, e.2)) =
        w.normalized.division.modifiers.entries := by
    refine (List.map_congr_left fun e he ↦ ?_).trans (List.map_id _)
    have hstart := (mem_modifiers_normalized.mp he).2.2.resolve_right (hbreak e.1)
    rw [h, Nat.zero_sub, id, ← hstart]
  refine ext_noted ?_ (by simp) (fun i ↦ ?_) fun i ↦ ?_
  · rw [segments_reversed, hsegments]
    exact hsegments.symm
  · rw [mem_breaks_reversed, breaks_normalized, mem_innerBreaks]
    exact iff_of_false (fun hi ↦ hbreak _ hi.2) (hbreak i)
  · have hnodup := w.normalized.division.modifiers.increasing.imp fun hlt ↦ Nat.ne_of_lt hlt
    ext m
    rw [division_reversed, Division.ofBreaks, hkeys,
      SortedMap.get?_ofList_eq_some (List.pairwise_map.mpr hnodup), SortedMap.get?_eq_some_iff]

/-- A word that is reversed twice is normalized. -/
theorem reversed_reversed (w : Word) : w.reversed.reversed = w.normalized := by
  rcases Nat.eq_zero_or_pos w.length with hzero | hpos
  · have hzero' : w.normalized.length = 0 := hzero
    rw [reversed_of_length_eq_zero hzero, reversed_of_length_eq_zero hzero', normalized_normalized]
  · have hpos' : 0 < w.reversed.length := by rwa [length_reversed]
    refine ext_noted ?_ (by simp) (fun i ↦ ?_) fun i ↦ ?_
    · rw [segments_reversed, segments_reversed, List.reverse_reverse]
      rfl
    · rw [mem_breaks_reversed, breaks_normalized, mem_innerBreaks, length_reversed]
      constructor
      · rintro ⟨hle, hi⟩
        exact (isBreak_reversed hle).mp hi
      · intro hi
        have hle := Nat.le_of_lt (lt_length_of_isBreak hi).2
        exact ⟨hle, (isBreak_reversed hle).mpr hi⟩
    · ext m
      rw [get?_modifiers_reversed hpos', get?_modifiers_normalized, length_reversed]
      constructor
      · -- A syllable of the reversed word is the reversal of one that starts at the index.
        rintro ⟨start, stop, hsyllable, rfl, hm, hne⟩
        have hstop := hsyllable.le_length
        have hlt := hsyllable.lt
        rw [length_reversed] at hstop
        rw [show start = w.length - (w.length - start) by omega] at hsyllable hm
        rw [show stop = w.length - (w.length - stop) by omega] at hsyllable
        rw [isSyllable_reversed (Nat.sub_le _ _) (Nat.sub_le _ _)] at hsyllable
        exact ⟨(hsyllable.get?_modifiers_reversed.mp hm).1, hne, hsyllable.starts⟩
      · rintro ⟨hm, hne, hstart⟩
        have hlt : i < w.length := by
          rcases hstart with rfl | hbreak
          · exact hpos
          · exact (lt_length_of_isBreak hbreak).2
        have hsyllable := isSyllable_iff.mpr ⟨hlt, isSyllableStart_iff.mpr hstart, rfl⟩
        refine ⟨_, w.length - i, (isSyllable_reversed (Nat.le_of_lt hlt) hsyllable.le_length).mpr
          hsyllable, by omega, hsyllable.get?_modifiers_reversed.mpr ⟨hm, hne⟩, hne⟩

/-- A part of a reversed list is the reversal of the part that it mirrors. -/
theorem extract_reverse {α : Type*} (l : List α) (hab : a ≤ b) (hb : b ≤ l.length) :
    l.reverse.extract (l.length - b) (l.length - a) = (l.extract a b).reverse := by
  rw [List.extract_eq_take_drop, List.extract_eq_take_drop, List.drop_reverse, List.take_reverse,
    List.length_take, List.drop_take]
  rw [show l.length - (l.length - b) = b by omega,
    show min b l.length - (l.length - a - (l.length - b)) = a by omega]

/-- A piece of a word has the breaks inside its span. -/
theorem isBreak_slice (hb : b ≤ w.length) :
    (w.slice a b).isBreak i ↔ 0 < i ∧ a + i < b ∧ w.isBreak (a + i) := by
  rw [isBreak_iff, length_slice w hb, mem_breaks_slice, isBreak_iff]
  constructor
  · rintro ⟨hpos, hlt, hinside, hbreak⟩
    exact ⟨hpos, hinside, by omega, by omega, hbreak⟩
  · rintro ⟨hpos, hinside, -, -, hbreak⟩
    exact ⟨hpos, by omega, hinside, hbreak⟩

/-- Whether no syllable of a word has a matrix. -/
def IsUnmarked (w : Word) : Prop := ∀ i m, w.division.modifiers.get? i = some m → m = ∅

namespace IsUnmarked

/-- Normalizing leaves no matrix where there was none. -/
theorem get?_modifiers_normalized (h : w.IsUnmarked) (i : Nat) :
    w.normalized.division.modifiers.get? i = none := by
  rw [Option.eq_none_iff_forall_not_mem]
  intro m hm
  obtain ⟨hnoted, hne, -⟩ := Word.get?_modifiers_normalized.mp hm
  exact hne (h i m hnoted)

/-- The reversal of a word without matrices has none. -/
theorem get?_modifiers_reversed (h : w.IsUnmarked) (i : Nat) :
    w.reversed.division.modifiers.get? i = none := by
  rcases Nat.eq_zero_or_pos w.length with hzero | hpos
  · rw [reversed_of_length_eq_zero hzero]
    exact h.get?_modifiers_normalized i
  · rw [Option.eq_none_iff_forall_not_mem]
    intro m hm
    obtain ⟨start, -, -, -, hnoted, hne⟩ := (Word.get?_modifiers_reversed hpos).mp hm
    exact hne (h start m hnoted)

/-- The reversal of a word without matrices is one. -/
theorem reversed (h : w.IsUnmarked) : w.reversed.IsUnmarked := by
  intro i m hm
  rw [h.get?_modifiers_reversed] at hm
  cases hm

/-- A piece of a word without matrices is one. -/
theorem slice (h : w.IsUnmarked) (a b : Nat) : (w.slice a b).IsUnmarked := by
  intro i m hm
  rw [get?_modifiers_slice] at hm
  split at hm
  · exact h _ m hm
  · cases hm

end IsUnmarked

/-- A piece of a reversed word without matrices is the reversal of the piece that it mirrors. -/
theorem reversed_slice_reversed (h : w.IsUnmarked) (hab : a ≤ b) (hb : b ≤ w.length) :
    (w.reversed.slice (w.length - b) (w.length - a)).reversed = (w.slice a b).normalized := by
  have hstop : w.length - a ≤ w.reversed.length := by
    rw [length_reversed]
    exact Nat.sub_le _ _
  have hlength : (w.reversed.slice (w.length - b) (w.length - a)).length = b - a := by
    rw [length_slice _ hstop]
    omega
  refine ext_noted ?_ (by simp) (fun i ↦ ?_) fun i ↦ ?_
  · rw [segments_reversed, segments_slice, segments_reversed, length,
      extract_reverse _ hab hb]
    exact List.reverse_reverse _
  · rw [mem_breaks_reversed, breaks_normalized, mem_innerBreaks, hlength, isBreak_slice hstop,
      isBreak_slice hb]
    have hmirror (hi : i < b - a) : w.length - b + (b - a - i) = w.length - (a + i) := by omega
    constructor
    · rintro ⟨hle, hpos, hlt, hbreak⟩
      rw [hmirror (by omega), isBreak_reversed (by omega)] at hbreak
      exact ⟨by omega, by omega, hbreak⟩
    · rintro ⟨hpos, hlt, hbreak⟩
      rw [hmirror (by omega), isBreak_reversed (by omega)]
      exact ⟨by omega, by omega, by omega, hbreak⟩
  · rw [(h.reversed.slice _ _).get?_modifiers_reversed, (h.slice _ _).get?_modifiers_normalized]

end Reversal

end Diachrony.Word
