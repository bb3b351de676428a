import Mathlib.Data.List.Basic
import Diachrony.Word.Basic

/-!
# Syllables of a word and of its reversal

A syllable goes from one break or edge of a word to the next. Where it stops, which syllable holds
an index and which matrix a segment has from its syllable all follow from that, and the reversal of
a word has the reversals of its syllables.
-/

namespace Diachrony.Word

variable {w : Word} {start stop index : Nat}

/-- A break lies inside the word. -/
theorem lt_length_of_isBreak (h : w.isBreak index) : 0 < index ∧ index < w.length := by
  simp only [isBreak, decide_eq_true_eq] at h
  exact ⟨h.1, h.2.1⟩

/-- The breaks inside a word are the breaks of the word. -/
theorem mem_innerBreaks : index ∈ w.innerBreaks ↔ w.isBreak index := by
  simp only [innerBreaks, SortedSet.mem_filter, isBreak, decide_eq_true_eq]
  rw [and_comm, and_assoc]

/-- A syllable starts at the start of a word and at its breaks. -/
theorem isSyllableStart_iff : w.isSyllableStart index ↔ index = 0 ∨ w.isBreak index := by
  simp [isSyllableStart]

/-- The indices at which a syllable starts are the start of the word and its breaks. -/
theorem mem_syllableStarts : index ∈ w.syllableStarts ↔ index = 0 ∨ w.isBreak index := by
  rw [syllableStarts, List.mem_cons, ← SortedSet.mem_iff, mem_innerBreaks]

/-- The starts of syllables increase. -/
theorem pairwise_syllableStarts : w.syllableStarts.Pairwise (· < ·) := by
  rw [syllableStarts, List.pairwise_cons]
  refine ⟨fun b hb ↦ ?_, w.innerBreaks.increasing⟩
  rw [← SortedSet.mem_iff, mem_innerBreaks] at hb
  exact (lt_length_of_isBreak hb).1

private theorem find?_least {l : List Nat} (hl : l.Pairwise (· < ·)) {test : Nat → Bool} {t : Nat}
    (ht : t ∈ l) (htest : test t) (hle : ∀ b ∈ l, test b → t ≤ b) : l.find? test = some t := by
  induction l with
  | nil => cases ht
  | cons b rest ih =>
    rw [List.pairwise_cons] at hl
    by_cases hb : test b = true
    · have hbt := hle b List.mem_cons_self hb
      rw [List.find?_cons_of_pos hb]
      rcases List.mem_cons.mp ht with rfl | ht
      · rfl
      · have := hl.1 t ht
        omega
    · have hne : t ≠ b := fun h ↦ hb (h ▸ htest)
      rw [List.find?_cons_of_neg hb]
      exact ih hl.2 ((List.mem_cons.mp ht).resolve_left hne)
        fun c hc ↦ hle c (List.mem_cons_of_mem b hc)

/-- Whether a syllable goes from one index to another. -/
structure IsSyllable (w : Word) (start stop : Nat) : Prop where
  /-- There is a break or an edge at the start. -/
  starts : start = 0 ∨ w.isBreak start
  /-- There is a break or an edge at the end. -/
  stops : stop = w.length ∨ w.isBreak stop
  /-- There is something in between. -/
  lt : start < stop
  /-- There is no break in between. -/
  unbroken : ∀ b, start < b → b < stop → ¬w.isBreak b

namespace IsSyllable

/-- A syllable lies in its word. -/
theorem le_length (h : w.IsSyllable start stop) : stop ≤ w.length := by
  rcases h.stops with hstop | hstop
  · exact Nat.le_of_eq hstop
  · exact Nat.le_of_lt (lt_length_of_isBreak hstop).2

/-- No syllable starts inside a syllable. -/
theorem not_mem_syllableStarts (h : w.IsSyllable start stop) {b : Nat} (hlt : start < b)
    (hb : b < stop) : b ∉ w.syllableStarts := by
  intro hmem
  rcases mem_syllableStarts.mp hmem with hzero | hbreak
  · omega
  · exact h.unbroken b hlt hb hbreak

/-- A syllable stops where its word says. -/
theorem syllableStop_eq (h : w.IsSyllable start stop) : w.syllableStop start = stop := by
  have hlt := h.lt
  rw [syllableStop]
  rcases h.stops with hstop | hstop
  · -- Up to the end of the word no other syllable starts.
    cases hfind : w.syllableStarts.find? (start < ·) with
    | none => exact hstop.symm
    | some b =>
      have hb : start < b := of_decide_eq_true (List.find?_some (p := (start < ·)) hfind)
      have hmem := List.mem_of_find?_eq_some hfind
      rcases mem_syllableStarts.mp hmem with hzero | hbreak
      · omega
      · have := (lt_length_of_isBreak hbreak).2
        exact (h.not_mem_syllableStarts hb (by omega) hmem).elim
  · have hmem := mem_syllableStarts.mpr (.inr hstop)
    have hleast : ∀ b ∈ w.syllableStarts, decide (start < b) = true → stop ≤ b := by
      intro b hb hstart
      by_contra hle
      exact h.not_mem_syllableStarts (of_decide_eq_true hstart) (by omega) hb
    rw [find?_least pairwise_syllableStarts hmem (by simpa using hlt) hleast, Option.getD_some]

/-- Every index inside a syllable belongs to it. -/
theorem syllableAt_eq (h : w.IsSyllable start stop) (hstart : start ≤ index)
    (hstop : index < stop) : w.syllableAt index = start := by
  obtain ⟨before, after, heq⟩ := List.append_of_mem (mem_syllableStarts.mpr h.starts)
  have hsorted := pairwise_syllableStarts (w := w)
  rw [heq, List.pairwise_append, List.pairwise_cons] at hsorted
  obtain ⟨-, ⟨hafter, -⟩, hbefore⟩ := hsorted
  have htake : w.syllableStarts.takeWhile (· ≤ index) = before ++ [start] := by
    have hle : ∀ b ∈ before ++ [start], decide (b ≤ index) = true := by
      intro b hb
      rw [decide_eq_true_eq]
      rcases List.mem_append.mp hb with hb | hb
      · have := hbefore b hb start List.mem_cons_self
        omega
      · rw [List.mem_singleton.mp hb]
        exact hstart
    rw [heq, List.append_cons, List.takeWhile_append_of_pos hle]
    cases after with
    | nil => simp
    | cons b rest =>
      have hb : index < b := by
        by_contra hle
        refine h.not_mem_syllableStarts (hafter b List.mem_cons_self) (by omega) ?_
        rw [heq]
        simp
      rw [List.takeWhile_cons_of_neg (by simpa using hb), List.append_nil]
  rw [syllableAt, htake, List.getLast?_concat, Option.getD_some]

/-- Syllables with one end have one start. -/
theorem start_unique {other : Nat} (h : w.IsSyllable start stop) (h' : w.IsSyllable other stop) :
    start = other := by
  have hlt := h.lt
  have hlt' := h'.lt
  by_contra hne
  rcases Nat.lt_or_gt_of_ne hne with hother | hother
  · exact h.not_mem_syllableStarts hother hlt' (mem_syllableStarts.mpr h'.starts)
  · exact h'.not_mem_syllableStarts hother hlt (mem_syllableStarts.mpr h.starts)

end IsSyllable

private theorem exists_syllable_start (w : Word) (index : Nat) :
    ∃ start ≤ index, (start = 0 ∨ w.isBreak start) ∧
      ∀ b, start < b → b ≤ index → ¬w.isBreak b := by
  induction index with
  | zero => exact ⟨0, Nat.le_refl 0, .inl rfl, fun b _ _ ↦ by omega⟩
  | succ index ih =>
    by_cases hbreak : w.isBreak (index + 1)
    · exact ⟨index + 1, Nat.le_refl _, .inr hbreak, fun b _ _ ↦ by omega⟩
    · obtain ⟨start, hle, hstart, hno⟩ := ih
      refine ⟨start, Nat.le_succ_of_le hle, hstart, fun b hlt hb ↦ ?_⟩
      rcases Nat.lt_or_eq_of_le hb with hb | rfl
      · exact hno b hlt (by omega)
      · exact hbreak

private theorem exists_syllable_stop (w : Word) (index : Nat) (h : index < w.length) :
    ∃ stop > index, (stop = w.length ∨ w.isBreak stop) ∧
      ∀ b, index < b → b < stop → ¬w.isBreak b := by
  obtain ⟨rest, hrest⟩ := Nat.exists_eq_add_of_lt h
  induction rest generalizing index with
  | zero => exact ⟨index + 1, Nat.lt_succ_self _, .inl (by omega), fun b _ _ ↦ by omega⟩
  | succ rest ih =>
    by_cases hbreak : w.isBreak (index + 1)
    · exact ⟨index + 1, Nat.lt_succ_self _, .inr hbreak, fun b _ _ ↦ by omega⟩
    · obtain ⟨stop, hlt, hstop, hno⟩ := ih (index + 1) (by omega) (by omega)
      refine ⟨stop, by omega, hstop, fun b hb hb' ↦ ?_⟩
      by_cases heq : b = index + 1
      · exact heq ▸ hbreak
      · exact hno b (by omega) hb'

/-- Every segment is in a syllable. -/
theorem exists_isSyllable (h : index < w.length) :
    ∃ start stop, w.IsSyllable start stop ∧ start ≤ index ∧ index < stop := by
  obtain ⟨start, hle, hstart, hbefore⟩ := exists_syllable_start w index
  obtain ⟨stop, hlt, hstop, hafter⟩ := exists_syllable_stop w index h
  refine ⟨start, stop, ⟨hstart, hstop, by omega, fun b hb hb' ↦ ?_⟩, hle, hlt⟩
  by_cases hindex : b ≤ index
  · exact hbefore b hb hindex
  · exact hafter b (by omega) hb'

/-- The syllables of a word are those that its starts and stops describe. -/
theorem isSyllable_iff : w.IsSyllable start stop ↔
    start < w.length ∧ w.isSyllableStart start ∧ stop = w.syllableStop start := by
  constructor
  · intro h
    exact ⟨Nat.lt_of_lt_of_le h.lt h.le_length, isSyllableStart_iff.mpr h.starts,
      h.syllableStop_eq.symm⟩
  · rintro ⟨hlt, hstart, rfl⟩
    obtain ⟨other, stop, h, hle, hother⟩ := exists_isSyllable hlt
    have heq : other = start := by
      by_contra hne
      exact h.not_mem_syllableStarts (by omega) hother
        (mem_syllableStarts.mpr (isSyllableStart_iff.mp hstart))
    rw [heq] at h
    rw [h.syllableStop_eq]
    exact h

section Reversal

/-- Reversing reverses the segments. -/
@[simp] theorem segments_reversed (w : Word) : w.reversed.segments = w.segments.reverse := rfl

/-- Reversing keeps the number of segments. -/
@[simp] theorem length_reversed (w : Word) : w.reversed.length = w.length := by
  simp [length]

/-- The segments of a reversed word stand as far from its end. -/
theorem get?_reversed (h : index < w.length) :
    w.reversed.get? (w.length - 1 - index) = w.get? index := by
  rw [length] at h ⊢
  rw [get?, get?, segments_reversed, List.getElem?_reverse (by omega)]
  congr 1
  omega

/-- Normalizing leaves the breaks inside a word. -/
theorem breaks_normalized (w : Word) : w.normalized.division.breaks = w.innerBreaks := by
  cases hd : w.syllables with
  | none => simp [division, normalized, innerBreaks, hd]; rfl
  | some d => simp [division, normalized, hd]

private theorem modifiers_normalized (w : Word) :
    w.normalized.division.modifiers = w.division.modifiers.filter fun start m ↦
      !m.isEmpty && (start = 0 || start ∈ w.innerBreaks) := by
  cases hd : w.syllables with
  | none => simp [division, normalized, hd]; rfl
  | some d => simp [division, normalized, hd]

/-- What a reversed word notes. -/
theorem division_reversed (w : Word) : w.reversed.division = .ofBreaks
    (w.normalized.division.breaks.toList.map (w.length - ·))
    (.ofList (w.normalized.division.modifiers.entries.map fun e ↦
      (w.length - w.normalized.syllableStop e.1, e.2))) := by
  cases hd : w.normalized.syllables with
  | none => simp [division, reversed, hd]; rfl
  | some d => simp [division, reversed, hd]; rfl

/-- Normalizing keeps the breaks inside a word. -/
theorem isBreak_normalized : w.normalized.isBreak index ↔ w.isBreak index := by
  rw [isBreak, decide_eq_true_eq, breaks_normalized, mem_innerBreaks]
  constructor
  · rintro ⟨-, -, h⟩
    exact h
  · intro h
    exact ⟨(lt_length_of_isBreak h).1, (lt_length_of_isBreak h).2, h⟩

/-- Normalizing keeps the syllables of a word. -/
theorem isSyllable_normalized : w.normalized.IsSyllable start stop ↔ w.IsSyllable start stop := by
  have hbreak (i : Nat) : w.normalized.isBreak i = w.isBreak i :=
    Bool.eq_iff_iff.mpr isBreak_normalized
  constructor
  · rintro ⟨hstarts, hstops, hlt, hno⟩
    simp only [hbreak] at hstarts hstops hno
    exact ⟨hstarts, hstops, hlt, hno⟩
  · rintro ⟨hstarts, hstops, hlt, hno⟩
    refine ⟨?_, ?_, hlt, ?_⟩ <;> simp only [hbreak] <;> assumption

/-- A reversed word notes the breaks inside the word, as far from its end. -/
theorem mem_breaks_reversed : index ∈ w.reversed.division.breaks ↔
    index ≤ w.length ∧ w.isBreak (w.length - index) := by
  rw [division_reversed, Division.ofBreaks, SortedSet.mem_ofList, List.mem_map]
  simp only [← SortedSet.mem_iff, breaks_normalized, mem_innerBreaks]
  constructor
  · rintro ⟨b, hb, rfl⟩
    have hlt := (lt_length_of_isBreak hb).2
    rw [show w.length - (w.length - b) = b by omega]
    exact ⟨Nat.sub_le _ _, hb⟩
  · rintro ⟨hle, hb⟩
    exact ⟨_, hb, by omega⟩

/-- Breaks of a reversed word stand as far from its end. -/
theorem isBreak_reversed (h : index ≤ w.length) :
    w.reversed.isBreak (w.length - index) ↔ w.isBreak index := by
  rw [isBreak, decide_eq_true_eq, mem_breaks_reversed, length_reversed,
    show w.length - (w.length - index) = index by omega]
  constructor
  · rintro ⟨-, -, -, hb⟩
    exact hb
  · intro hb
    obtain ⟨hpos, hlt⟩ := lt_length_of_isBreak hb
    exact ⟨by omega, by omega, Nat.sub_le _ _, hb⟩

/-- The reversal of a word has the reversals of its syllables. -/
theorem isSyllable_reversed (hstart : start ≤ w.length) (hstop : stop ≤ w.length) :
    w.reversed.IsSyllable (w.length - stop) (w.length - start) ↔ w.IsSyllable start stop := by
  constructor
  · rintro ⟨hstarts, hstops, hlt, hno⟩
    refine ⟨?_, ?_, by omega, fun b hb hb' hbreak ↦ ?_⟩
    · rw [isBreak_reversed hstart, length_reversed] at hstops
      exact hstops.imp_left fun h ↦ by omega
    · rw [isBreak_reversed hstop] at hstarts
      exact hstarts.imp_left fun h ↦ by omega
    · exact hno (w.length - b) (by omega) (by omega) ((isBreak_reversed (by omega)).mpr hbreak)
  · rintro ⟨hstarts, hstops, hlt, hno⟩
    refine ⟨?_, ?_, by omega, fun b hb hb' hbreak ↦ ?_⟩
    · rw [isBreak_reversed hstop]
      exact hstops.imp_left fun h ↦ by omega
    · rw [isBreak_reversed hstart, length_reversed]
      exact hstarts.imp_left fun h ↦ by omega
    · have hle : w.length - b ≤ w.length := Nat.sub_le _ _
      rw [show b = w.length - (w.length - b) by omega, isBreak_reversed hle] at hbreak
      exact hno _ (by omega) (by omega) hbreak

/-- Normalizing keeps the matrices that are not empty and stand where a syllable may start. -/
theorem mem_modifiers_normalized {e : Nat × Matrix} :
    e ∈ w.normalized.division.modifiers.entries ↔
      e ∈ w.division.modifiers.entries ∧ e.2 ≠ ∅ ∧ (e.1 = 0 ∨ w.isBreak e.1) := by
  rw [modifiers_normalized, SortedMap.filter, List.mem_filter]
  simp only [Bool.and_eq_true, Bool.or_eq_true, decide_eq_true_eq, mem_innerBreaks,
    Bool.not_eq_true', ← Bool.not_eq_true, SortedSet.isEmpty_iff, ne_eq]

private theorem isSyllable_of_mem_modifiers (hpos : 0 < w.length) {e : Nat × Matrix}
    (he : e ∈ w.normalized.division.modifiers.entries) :
    w.IsSyllable e.1 (w.normalized.syllableStop e.1) := by
  have hstarts := (mem_modifiers_normalized.mp he).2.2
  have hlt : e.1 < w.normalized.length := by
    rcases hstarts with hzero | hbreak
    · rw [hzero]
      exact hpos
    · exact (lt_length_of_isBreak hbreak).2
  rw [← isSyllable_normalized, isSyllable_iff, isSyllableStart_iff, isBreak_normalized]
  exact ⟨hlt, hstarts, rfl⟩

-- Every entry that is left belongs to a syllable, so different entries keep different keys.
private theorem nodup_modifiers_reversed (hpos : 0 < w.length) :
    ((w.normalized.division.modifiers.entries.map fun e ↦
      (w.length - w.normalized.syllableStop e.1, e.2)).map Prod.fst).Nodup := by
  rw [List.Nodup, List.pairwise_map, List.pairwise_map]
  refine w.normalized.division.modifiers.increasing.imp_of_mem fun {a b} ha hb hlt heq ↦ ?_
  have hfirst := isSyllable_of_mem_modifiers hpos ha
  have hsecond := isSyllable_of_mem_modifiers hpos hb
  have hle := hfirst.le_length
  have hle' := hsecond.le_length
  rw [show w.normalized.syllableStop b.1 = w.normalized.syllableStop a.1 by omega] at hsecond
  exact Nat.lt_irrefl _ (hfirst.start_unique hsecond ▸ hlt)

/-- The matrices that a reversed word notes are those of the syllables, noted where these end. -/
theorem get?_modifiers_reversed (hpos : 0 < w.length) {m : Matrix} :
    w.reversed.division.modifiers.get? index = some m ↔ ∃ start stop, w.IsSyllable start stop ∧
      w.length - stop = index ∧ w.division.modifiers.get? start = some m ∧ m ≠ ∅ := by
  simp only [division_reversed, Division.ofBreaks]
  rw [SortedMap.get?_ofList_eq_some (nodup_modifiers_reversed hpos), List.mem_map]
  simp only [SortedMap.get?_eq_some_iff]
  constructor
  · rintro ⟨e, he, heq⟩
    obtain ⟨hstop, rfl⟩ := Prod.mk.inj heq
    obtain ⟨hmem, hne, -⟩ := mem_modifiers_normalized.mp he
    exact ⟨e.1, _, isSyllable_of_mem_modifiers hpos he, hstop, hmem, hne⟩
  · rintro ⟨start, stop, hsyllable, rfl, hmem, hne⟩
    refine ⟨(start, m), mem_modifiers_normalized.mpr ⟨hmem, hne, hsyllable.starts⟩, ?_⟩
    rw [(isSyllable_normalized.mpr hsyllable).syllableStop_eq]

/-- The matrix of a syllable that is not empty belongs to the reversed syllable. -/
theorem IsSyllable.get?_modifiers_reversed (h : w.IsSyllable start stop) {m : Matrix} :
    w.reversed.division.modifiers.get? (w.length - stop) = some m ↔
      w.division.modifiers.get? start = some m ∧ m ≠ ∅ := by
  have hle := h.le_length
  have hpos : 0 < w.length := Nat.lt_of_le_of_lt (Nat.zero_le _) (Nat.lt_of_lt_of_le h.lt hle)
  rw [Word.get?_modifiers_reversed hpos]
  constructor
  · rintro ⟨other, stop', h', heq, hm⟩
    have hle' := h'.le_length
    rw [show stop' = stop by omega] at h'
    rw [h.start_unique h']
    exact hm
  · intro hm
    exact ⟨start, stop, h, rfl, hm⟩

/-- A segment keeps the matrix of its syllable when its word is reversed. -/
theorem syllableMatrix_reversed (h : index < w.length) :
    w.reversed.syllableMatrix (w.length - 1 - index) = w.syllableMatrix index := by
  obtain ⟨start, stop, hsyllable, hstart, hstop⟩ := exists_isSyllable h
  have hle := hsyllable.le_length
  have hlt := hsyllable.lt
  have hreversed := (isSyllable_reversed (by omega) hle).mpr hsyllable
  rw [syllableMatrix, syllableMatrix, hsyllable.syllableAt_eq hstart hstop,
    hreversed.syllableAt_eq (by omega) (by omega)]
  have hiff (m : Matrix) := hsyllable.get?_modifiers_reversed (m := m)
  cases hm : w.division.modifiers.get? start with
  | none =>
    cases hm' : w.reversed.division.modifiers.get? (w.length - stop) with
    | none => rfl
    | some m' =>
      have := ((hiff m').mp hm').1
      rw [hm] at this
      cases this
  | some m =>
    by_cases hne : m = ∅
    · cases hm' : w.reversed.division.modifiers.get? (w.length - stop) with
      | none => exact hne.symm
      | some m' =>
        obtain ⟨hsome, hne'⟩ := (hiff m').mp hm'
        rw [hm, hne] at hsome
        exact (hne' (Option.some.inj hsome).symm).elim
    · rw [(hiff m).mpr ⟨hm, hne⟩]

end Reversal

end Diachrony.Word
