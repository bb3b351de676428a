import Diachrony.Inventory.Reading

/-!
# What a round reads

A round of reading reads a break, a diacritic in front of a base, a diacritic behind one, or a base.
Only a base can be read without reading a character: a symbol without text. After such an idle round
either a diacritic is read that stands behind the symbol, or all rounds to come are idle. So a text
that is read to its end is read in two rounds for each character at most, and has a segment for each
character at most. A text whose rounds never end spells nothing, so no text has more segments than it
has characters in canonical decomposition.
-/

namespace Diachrony.Inventory

namespace Reading

variable {inv : Inventory} {syllabify : Bool} {r : Reading}

/-- Whether a break between syllables starts the rest. -/
def atBreak (syllabify : Bool) (r : Reading) : Bool := syllabify && r.rest.head? == some '.'

/-- What a round makes of a reading. -/
inductive Steps (inv : Inventory) (syllabify : Bool) (r : Reading) : Reading → Prop
  /-- A break is read. -/
  | point (starts : r.atBreak syllabify) : Steps inv syllabify r r.readBreak
  /-- A diacritic in front of a base is read. -/
  | before {d : Diacritic} (clear : r.atBreak syllabify = false)
      (found : r.before? inv = some d) :
      Steps inv syllabify r
        { r with pending := r.pending ++ [d], rest := r.rest.drop d.text.length }
  /-- A diacritic behind the last segment is read. -/
  | after {last : Segment} {d : Diacritic} (clear : r.atBreak syllabify = false)
      (unled : r.before? inv = none) (found : r.after? inv = some (last, d)) :
      Steps inv syllabify r (r.readAfter inv d last)
  /-- A base is read. -/
  | core (clear : r.atBreak syllabify = false) (unled : r.before? inv = none)
      (bare : r.after? inv = none) : Steps inv syllabify r (r.readCore inv)

/-- A round makes one step. -/
theorem steps_round (inv : Inventory) (syllabify : Bool) (r : Reading) :
    r.Steps inv syllabify (r.round inv syllabify) := by
  rw [round]
  split
  · next h => exact .point h
  · next h =>
    have hclear : r.atBreak syllabify = false := Bool.eq_false_iff.mpr h
    split
    · next d hd => exact .before hclear hd
    · next hbefore =>
      split
      · next last d hd => exact .after hclear hbefore hd
      · next hafter => exact .core hclear hbefore hafter

/-- Marking the syllable that starts with the next segment leaves all but the matrices. -/
theorem foldl_markSyllable (ds : List Diacritic) (r : Reading) :
    ds.foldl (fun r d ↦ r.markSyllable inv r.segments.length d) r =
      { r with modifiers := ds.foldl (fun m d ↦ m.insert r.segments.length
          (inv.overlay ((m.get? r.segments.length).getD ∅) d.matrix)) r.modifiers } := by
  induction ds generalizing r with
  | nil => rfl
  | cons d rest ih => exact ih (r.markSyllable inv r.segments.length d)

@[simp] theorem rest_readBreak (r : Reading) : r.readBreak.rest = r.rest.drop 1 := by
  rw [readBreak]
  dsimp only
  split <;> rfl

@[simp] theorem segments_readBreak (r : Reading) : r.readBreak.segments = r.segments := by
  rw [readBreak]
  dsimp only
  split <;> rfl

@[simp] theorem modifiers_readBreak (r : Reading) : r.readBreak.modifiers = r.modifiers := by
  rw [readBreak]
  dsimp only
  split <;> rfl

@[simp] theorem pending_readBreak (r : Reading) : r.readBreak.pending = r.pending := by
  rw [readBreak]
  dsimp only
  split <;> rfl

@[simp] theorem rest_readAfter (d : Diacritic) (last : Segment) (r : Reading) :
    (r.readAfter inv d last).rest = r.rest.drop d.text.length := by
  rw [readAfter]
  dsimp only
  split <;> rfl

@[simp] theorem breaks_readAfter (d : Diacritic) (last : Segment) (r : Reading) :
    (r.readAfter inv d last).breaks = r.breaks := by
  rw [readAfter]
  dsimp only
  split <;> rfl

@[simp] theorem syllableStart_readAfter (d : Diacritic) (last : Segment) (r : Reading) :
    (r.readAfter inv d last).syllableStart = r.syllableStart := by
  rw [readAfter]
  dsimp only
  split <;> rfl

@[simp] theorem pending_readAfter (d : Diacritic) (last : Segment) (r : Reading) :
    (r.readAfter inv d last).pending = r.pending := by
  rw [readAfter]
  dsimp only
  split <;> rfl

@[simp] theorem rest_readCore (r : Reading) :
    (r.readCore inv).rest = r.rest.drop (inv.coreAt r.rest).symbol.length := by
  simp only [readCore, foldl_markSyllable]

@[simp] theorem breaks_readCore (r : Reading) : (r.readCore inv).breaks = r.breaks := by
  simp only [readCore, foldl_markSyllable]

@[simp] theorem syllableStart_readCore (r : Reading) :
    (r.readCore inv).syllableStart = r.syllableStart := by
  simp only [readCore, foldl_markSyllable]

@[simp] theorem pending_readCore (r : Reading) : (r.readCore inv).pending = [] := rfl

@[simp] theorem length_segments_readCore (r : Reading) :
    (r.readCore inv).segments.length = r.segments.length + 1 := by
  simp only [readCore, foldl_markSyllable, List.length_append, List.length_singleton]

/-- A diacritic that is read behind a segment leaves the number of segments. -/
theorem length_segments_readAfter {d : Diacritic} {last : Segment}
    (h : r.after? inv = some (last, d)) :
    (r.readAfter inv d last).segments.length = r.segments.length := by
  have hne : r.segments ≠ [] := by
    rintro hnil
    rw [after?, hnil] at h
    split at h <;> cases h
  have := List.length_pos_iff.mpr hne
  rw [readAfter]
  dsimp only
  split
  · rfl
  · simp only [List.length_append, List.length_dropLast, List.length_singleton]
    omega

/-- The diacritic behind the last segment is declared and written there. -/
theorem diacriticAt?_of_after? {d : Diacritic} {last : Segment}
    (h : r.after? inv = some (last, d)) :
    r.pending = [] ∧ r.segments.getLast? = some last ∧
      inv.diacriticAt? .after r.rest = some d := by
  rw [after?] at h
  split at h
  · next hempty =>
    split at h
    · next last' d' hlast hd =>
      obtain ⟨rfl, rfl⟩ := Prod.mk.inj (Option.some.inj h)
      exact ⟨List.isEmpty_iff.mp hempty, hlast, hd⟩
    · cases h
  · cases h

/-- A step adds a segment at most. -/
theorem Steps.length_le {r' : Reading} (h : r.Steps inv syllabify r') :
    r'.segments.length ≤ r.segments.length + 1 := by
  cases h with
  | point =>
    rw [segments_readBreak]
    exact Nat.le_succ _
  | before => exact Nat.le_succ _
  | after _ _ found => exact Nat.le_succ_of_le (Nat.le_of_eq (length_segments_readAfter found))
  | core => exact Nat.le_of_eq (length_segments_readCore r)

/-! ### Idle rounds -/

/-- Whether the next round reads a base without characters. -/
structure IsIdle (inv : Inventory) (syllabify : Bool) (r : Reading) : Prop where
  /-- Something is left. -/
  ne : r.rest ≠ []
  /-- No break starts the rest. -/
  clear : r.atBreak syllabify = false
  /-- No diacritic in front of a base does. -/
  unled : r.before? inv = none
  /-- No diacritic behind the last segment does. -/
  bare : r.after? inv = none
  /-- The base there is a symbol without text. -/
  core : (inv.coreAt r.rest).symbol = []

private theorem length_drop_lt {text first : List Char} (h : text ≠ []) (hne : first ≠ []) :
    (text.drop first.length).length < text.length := by
  have := List.length_pos_iff.mpr h
  have := List.length_pos_iff.mpr hne
  rw [List.length_drop]
  omega

/-- A step reads a character at least unless it is idle. -/
theorem Steps.length_rest_lt {r' : Reading} (h : r.Steps inv syllabify r') (hne : r.rest ≠ [])
    (hidle : ¬r.IsIdle inv syllabify) : r'.rest.length < r.rest.length := by
  cases h with
  | point =>
    rw [rest_readBreak]
    exact length_drop_lt hne (List.cons_ne_nil '.' [])
  | before clear found =>
    exact length_drop_lt hne (diacriticAt?_eq_some (Option.filter_eq_some_iff.mp found).1).2.2.1
  | after _ _ found =>
    rw [rest_readAfter]
    exact length_drop_lt hne (diacriticAt?_eq_some (diacriticAt?_of_after? found).2.2).2.2.1
  | core clear unled bare =>
    rw [rest_readCore]
    exact length_drop_lt hne fun hcore ↦ hidle ⟨hne, clear, unled, bare, hcore⟩

namespace IsIdle

/-- An idle round reads a base. -/
theorem round_eq (h : r.IsIdle inv syllabify) : r.round inv syllabify = r.readCore inv := by
  have hclear : ¬(syllabify && r.rest.head? == some '.') = true := Bool.eq_false_iff.mp h.clear
  rw [round, if_neg hclear, h.unled, h.bare]

/-- An idle round leaves the rest. -/
theorem rest_round (h : r.IsIdle inv syllabify) : (r.round inv syllabify).rest = r.rest := by
  rw [h.round_eq, rest_readCore, h.core]
  rfl

/-- After an idle round nothing waits for a base, and there is a segment for diacritics behind. -/
theorem exists_after?_round (h : r.IsIdle inv syllabify) :
    ∃ last, (r.round inv syllabify).after? inv =
      (inv.diacriticAt? .after r.rest).map (Prod.mk last) := by
  have hlast : ∃ last, (r.readCore inv).segments.getLast? = some last :=
    ⟨_, List.getLast?_concat⟩
  obtain ⟨last, hlast⟩ := hlast
  refine ⟨last, ?_⟩
  rw [after?, h.rest_round, h.round_eq, pending_readCore, hlast]
  cases inv.diacriticAt? .after r.rest <;> rfl

/-- The next round is idle, too, unless a diacritic stands behind the symbol. -/
theorem round_iff (h : r.IsIdle inv syllabify) :
    (r.round inv syllabify).IsIdle inv syllabify ↔ inv.diacriticAt? .after r.rest = none := by
  obtain ⟨last, hafter⟩ := h.exists_after?_round
  constructor
  · intro hnext
    rw [hnext.bare] at hafter
    exact Option.map_eq_none_iff.mp hafter.symm
  · intro hnone
    rw [hnone] at hafter
    refine ⟨h.rest_round.symm ▸ h.ne, ?_, ?_, hafter, h.rest_round.symm ▸ h.core⟩
    · rw [atBreak, h.rest_round]
      exact h.clear
    · rw [before?, h.rest_round]
      exact h.unled

/-- Where a diacritic stands behind the symbol, the round after an idle one reads it and adds no
segment. -/
theorem round_round (h : r.IsIdle inv syllabify) (hafter : inv.diacriticAt? .after r.rest ≠ none) :
    let next := (r.round inv syllabify).round inv syllabify
    next.rest.length < r.rest.length ∧ next.segments.length = r.segments.length + 1 := by
  obtain ⟨last, hlast⟩ := h.exists_after?_round
  obtain ⟨d, hd⟩ := Option.ne_none_iff_exists'.mp hafter
  rw [hd, Option.map_some] at hlast
  have hne : (r.round inv syllabify).rest ≠ [] := h.rest_round.symm ▸ h.ne
  have hstep := (r.round inv syllabify).steps_round inv syllabify
  refine ⟨h.rest_round ▸ hstep.length_rest_lt hne fun hidle ↦ ?_, ?_⟩
  · rw [hidle.bare] at hlast
    cases hlast
  · have hclear : ¬(syllabify && (r.round inv syllabify).rest.head? == some '.') = true := by
      rw [h.rest_round]
      exact Bool.eq_false_iff.mp h.clear
    have hunled : (r.round inv syllabify).before? inv = none := by
      rw [before?, h.rest_round]
      exact h.unled
    have hround : (r.round inv syllabify).round inv syllabify =
        (r.round inv syllabify).readAfter inv d last := by
      rw [round, if_neg hclear, hunled, hlast]
    rw [hround, length_segments_readAfter hlast, h.round_eq, length_segments_readCore]

end IsIdle

/-! ### Many rounds -/

/-- Where the text has ended, rounds change nothing. -/
theorem rounds_of_rest_eq_nil (h : r.rest = []) (n : Nat) : rounds inv syllabify n r = r := by
  cases n <;> simp [rounds, h]

/-- The first of several rounds. -/
theorem rounds_succ (h : r.rest ≠ []) (n : Nat) :
    rounds inv syllabify (n + 1) r = rounds inv syllabify n (r.round inv syllabify) := by
  rw [rounds, if_neg (by simpa using h)]

/-- Rounds after rounds. -/
theorem rounds_add (m n : Nat) (r : Reading) :
    rounds inv syllabify (m + n) r = rounds inv syllabify n (rounds inv syllabify m r) := by
  induction m generalizing r with
  | zero => rw [Nat.zero_add, rounds]
  | succ m ih =>
    by_cases h : r.rest = []
    · simp only [rounds_of_rest_eq_nil h]
    · rw [Nat.succ_add_eq_add_succ, Nat.add_succ, rounds_succ h, rounds_succ h, ih]

/-- More rounds than a text needs make no difference. -/
theorem rounds_of_le {m n : Nat} (h : (rounds inv syllabify m r).rest = []) (hle : m ≤ n) :
    rounds inv syllabify n r = rounds inv syllabify m r := by
  rw [← Nat.add_sub_cancel' hle, rounds_add, rounds_of_rest_eq_nil h]

/-- An idle round that nothing can follow leaves the rest for ever. -/
theorem IsIdle.rest_rounds (h : r.IsIdle inv syllabify)
    (hafter : inv.diacriticAt? .after r.rest = none) (n : Nat) :
    (rounds inv syllabify n r).rest = r.rest := by
  induction n generalizing r with
  | zero => rfl
  | succ n ih =>
    rw [rounds_succ h.ne, ih (h.round_iff.mpr hafter) (h.rest_round.symm ▸ hafter), h.rest_round]

/-- A text that is read to its end is read in two rounds for each character at most, and each of its
characters adds a segment at most. -/
theorem exists_rounds_of_ends {n : Nat} (h : (rounds inv syllabify n r).rest = []) :
    ∃ k ≤ 2 * r.rest.length, (rounds inv syllabify k r).rest = [] ∧
      (rounds inv syllabify k r).segments.length ≤ r.segments.length + r.rest.length := by
  induction n using Nat.strongRecOn generalizing r with
  | ind n ih =>
    by_cases hne : r.rest = []
    · exact ⟨0, Nat.zero_le _, hne, Nat.le_add_right _ _⟩
    obtain ⟨m, rfl⟩ : ∃ m, n = m + 1 :=
      Nat.exists_eq_succ_of_ne_zero (by rintro rfl; exact hne h)
    rw [rounds_succ hne] at h
    have hstep := r.steps_round inv syllabify
    by_cases hidle : r.IsIdle inv syllabify
    · by_cases hafter : inv.diacriticAt? .after r.rest = none
      · rw [(hidle.round_iff.mpr hafter).rest_rounds (hidle.rest_round.symm ▸ hafter),
          hidle.rest_round] at h
        exact (hne h).elim
      · have hne' : (r.round inv syllabify).rest ≠ [] := hidle.rest_round.symm ▸ hne
        obtain ⟨m, rfl⟩ : ∃ l, m = l + 1 :=
          Nat.exists_eq_succ_of_ne_zero (by rintro rfl; exact hne' h)
        rw [rounds_succ hne'] at h
        obtain ⟨hlt, hsegments⟩ := hidle.round_round hafter
        obtain ⟨k, hk, hend, hle⟩ := ih m (by omega) h
        refine ⟨k + 2, by omega, ?_, ?_⟩ <;> rw [rounds_succ hne, rounds_succ hne']
        · exact hend
        · omega
    · have hlt := hstep.length_rest_lt hne hidle
      have hsegments := hstep.length_le
      obtain ⟨k, hk, hend, hle⟩ := ih m (by omega) h
      refine ⟨k + 1, by omega, ?_, ?_⟩ <;> rw [rounds_succ hne]
      · exact hend
      · omega

end Reading

/-- The word that was read has the segments that were read. -/
@[simp] theorem Reading.segments_toWord (syllabify : Bool) (r : Reading) :
    (r.toWord syllabify).segments = r.segments := by
  rw [toWord]
  split <;> rfl

/-- A text that a number of rounds read to its end spells the word that they read. -/
theorem readWord_of_ends {inv : Inventory} {text : List Char} {syllabify : Bool} {n : Nat}
    (h : (Reading.rounds inv syllabify n { rest := Unicode.nfd text }).rest = []) :
    inv.readWord text syllabify =
      (Reading.rounds inv syllabify n { rest := Unicode.nfd text }).toWord syllabify := by
  obtain ⟨k, hk, hend, -⟩ := Reading.exists_rounds_of_ends h
  have hlast := Reading.rounds_of_le hend hk
  have hsame := (Reading.rounds_of_le hend (Nat.le_max_left k n)).symm.trans
    (Reading.rounds_of_le h (Nat.le_max_right k n))
  rw [readWord]
  dsimp only at hlast ⊢
  rw [hlast, hend, hsame]
  rfl

/-- A text has no more segments than characters. -/
theorem length_readWord_le (inv : Inventory) (text : List Char) (syllabify : Bool) :
    (inv.readWord text syllabify).length ≤ (Unicode.nfd text).length := by
  by_cases h : (Reading.rounds inv syllabify (2 * (Unicode.nfd text).length)
      { rest := Unicode.nfd text }).rest = []
  · obtain ⟨k, -, hend, hle⟩ := Reading.exists_rounds_of_ends h
    rw [readWord_of_ends hend, Word.length, Reading.segments_toWord]
    simpa using hle
  · have hne := List.isEmpty_eq_false_iff.mpr h
    rw [readWord, hne]
    exact Nat.zero_le _

end Diachrony.Inventory
