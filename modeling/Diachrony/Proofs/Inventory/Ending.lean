import Diachrony.Proofs.Inventory.Clusters

/-!
# When reading ends

Where every declared symbol has text, each round of reading reads a character at least, so a text
has no more rounds than characters. A symbol without text is read in an idle round wherever nothing
else starts the rest. Reading ends unless it comes to an idle round with no diacritic behind it,
and from there on all rounds are idle.

Taking a written segment apart ends whatever is declared: what is read there is a diacritic, which
has text, or a character.
-/

namespace Diachrony.Inventory

variable {inv : Inventory} {syllabify : Bool}

namespace Reading

variable {r : Reading}

/-- A round reads a character exactly if it is not idle. -/
theorem length_rest_round_lt_iff (h : r.rest ≠ []) :
    (r.round inv syllabify).rest.length < r.rest.length ↔ ¬r.IsIdle inv syllabify := by
  refine ⟨fun hlt hidle ↦ ?_, (r.steps_round inv syllabify).length_rest_lt h⟩
  rw [hidle.rest_round] at hlt
  exact Nat.lt_irrefl _ hlt

/-- Only a symbol without text is read in an idle round, where no other declared symbol starts the
rest. -/
theorem IsIdle.declared (h : r.IsIdle inv syllabify) :
    (∃ s ∈ inv.symbols, s.text = []) ∧ ∀ s ∈ inv.symbols, s.text <+: r.rest → s.text = [] := by
  rcases inv.coreAt_cases r.rest with ⟨s, hs, hcore, -, hlongest⟩ | ⟨-, hcore⟩
  · have htext : s.text = [] := (congrArg Segment.symbol hcore).symm.trans h.core
    refine ⟨⟨s, hs, htext⟩, fun t ht hstarts ↦ List.length_eq_zero_iff.mp ?_⟩
    simpa [htext] using hlongest t ht hstarts
  · have hnone := (congrArg Segment.symbol hcore).symm.trans h.core
    obtain ⟨c, rest, hrest⟩ := List.exists_cons_of_ne_nil h.ne
    rw [hrest] at hnone
    cases hnone

/-- Without idle rounds there are no more rounds than characters. -/
theorem exists_rounds_of_busy (hbusy : ∀ r : Reading, ¬r.IsIdle inv syllabify) (r : Reading) :
    ∃ n ≤ r.rest.length, (rounds inv syllabify n r).rest = [] := by
  by_cases h : r.rest = []
  · exact ⟨0, Nat.zero_le _, h⟩
  · have hlt := (r.steps_round inv syllabify).length_rest_lt h (hbusy r)
    obtain ⟨n, hn, hend⟩ := exists_rounds_of_busy hbusy (r.round inv syllabify)
    exact ⟨n + 1, by omega, (rounds_succ h n).symm ▸ hend⟩
termination_by r.rest.length

/-- Where each idle round has a diacritic behind it the rounds end. -/
theorem exists_rounds_of_followed (r : Reading)
    (h : ∀ n, (rounds inv syllabify n r).IsIdle inv syllabify →
      inv.diacriticAt? .after (rounds inv syllabify n r).rest ≠ none) :
    ∃ n, (rounds inv syllabify n r).rest = [] := by
  by_cases hne : r.rest = []
  · exact ⟨0, hne⟩
  have hnext (n : Nat) : (rounds inv syllabify n (r.round inv syllabify)).IsIdle inv syllabify →
      inv.diacriticAt? .after (rounds inv syllabify n (r.round inv syllabify)).rest ≠ none :=
    rounds_succ hne n ▸ h (n + 1)
  by_cases hidle : r.IsIdle inv syllabify
  · have hlt := (hidle.round_round (h 0 hidle)).1
    have hne' : (r.round inv syllabify).rest ≠ [] := hidle.rest_round.symm ▸ hne
    obtain ⟨n, hn⟩ := exists_rounds_of_followed ((r.round inv syllabify).round inv syllabify)
      fun n ↦ rounds_succ hne' n ▸ hnext (n + 1)
    exact ⟨n + 2, by rw [rounds_succ hne, rounds_succ hne']; exact hn⟩
  · have hlt := (r.steps_round inv syllabify).length_rest_lt hne hidle
    obtain ⟨n, hn⟩ := exists_rounds_of_followed (r.round inv syllabify) hnext
    exact ⟨n + 1, by rw [rounds_succ hne]; exact hn⟩
termination_by r.rest.length

/-- The rounds end exactly if each idle round has a diacritic behind it. -/
theorem ends_iff (r : Reading) :
    (∃ n, (rounds inv syllabify n r).rest = []) ↔
      ∀ n, (rounds inv syllabify n r).IsIdle inv syllabify →
        inv.diacriticAt? .after (rounds inv syllabify n r).rest ≠ none := by
  refine ⟨fun ⟨m, hm⟩ n hidle hnone ↦ hidle.ne ?_, exists_rounds_of_followed r⟩
  rw [← hidle.rest_rounds hnone m, ← rounds_add, rounds_of_le hm (Nat.le_add_left m n), hm]

end Reading

/-! ### Taking segments apart -/

section Parts

variable {text : List Char}

private theorem length_drop_text_lt {placement : Placement} {d : Diacritic}
    (h : inv.diacriticAt? placement text = some d) :
    (text.drop d.text.length).length < text.length := by
  obtain ⟨-, -, hne, rest, rfl⟩ := diacriticAt?_eq_some h
  rw [List.drop_left]
  exact length_lt_of_eq_append rfl hne

/-- The diacritics that start a text are found in as many steps as it has characters, at most. -/
theorem splitBefore_eq {n m : Nat} (hn : text.length ≤ n) (hm : text.length ≤ m) :
    inv.splitBefore n text = inv.splitBefore m text := by
  induction n generalizing m text with
  | zero =>
    obtain rfl := List.length_eq_zero_iff.mp (Nat.le_zero.mp hn)
    cases m <;> simp [splitBefore]
  | succ n ih =>
    cases m with
    | zero =>
      obtain rfl := List.length_eq_zero_iff.mp (Nat.le_zero.mp hm)
      simp [splitBefore]
    | succ m =>
      rw [splitBefore, splitBefore]
      split
      · next d hd =>
        have := length_drop_text_lt (Option.filter_eq_some_iff.mp hd).1
        rw [ih (m := m) (by omega) (by omega)]
      · rfl

/-- The diacritics that start a text have text and are written there. -/
theorem splitBefore_text (n : Nat) (text : List Char) :
    (inv.splitBefore n text).1.flatMap Diacritic.text ++ (inv.splitBefore n text).2 = text ∧
      ∀ d ∈ (inv.splitBefore n text).1, d.text ≠ [] := by
  induction n generalizing text with
  | zero => exact ⟨rfl, List.forall_mem_nil _⟩
  | succ n ih =>
    rw [splitBefore]
    split
    · next d hd =>
      obtain ⟨-, -, hne, rest, rfl⟩ := diacriticAt?_eq_some (Option.filter_eq_some_iff.mp hd).1
      obtain ⟨htext, hds⟩ := ih ((d.text ++ rest).drop d.text.length)
      refine ⟨?_, List.forall_mem_cons.mpr ⟨hne, hds⟩⟩
      rw [List.drop_left] at htext ⊢
      simp only [List.flatMap_cons, List.append_assoc, htext]
    · exact ⟨rfl, List.forall_mem_nil _⟩

/-- The diacritics behind a base are found in as many steps as the text has characters, at most. -/
theorem splitAfter_eq {n m : Nat} (hn : text.length ≤ n) (hm : text.length ≤ m) :
    inv.splitAfter n text = inv.splitAfter m text := by
  induction n generalizing m text with
  | zero =>
    obtain rfl := List.length_eq_zero_iff.mp (Nat.le_zero.mp hn)
    cases m <;> rfl
  | succ n ih =>
    cases text with
    | nil => cases m <;> rfl
    | cons c rest =>
      obtain ⟨m, rfl⟩ := Nat.exists_eq_succ_of_ne_zero (by simp at hm; omega : m ≠ 0)
      simp only [List.length_cons] at hn hm
      rw [splitAfter, splitAfter]
      split
      · next d hd =>
        have := length_drop_text_lt hd
        simp only [List.length_cons] at this
        rw [ih (m := m) (by omega) (by omega)]
      · rw [ih (m := m) (by omega) (by omega)]

/-- The diacritics behind a base have text, and with the characters between them they are as long as
the text. -/
theorem splitAfter_text {n : Nat} (hn : text.length ≤ n) :
    (inv.splitAfter n text).1.length +
        ((inv.splitAfter n text).2.flatMap Diacritic.text).length = text.length ∧
      ∀ d ∈ (inv.splitAfter n text).2, d.text ≠ [] := by
  induction n generalizing text with
  | zero =>
    obtain rfl := List.length_eq_zero_iff.mp (Nat.le_zero.mp hn)
    exact ⟨rfl, List.forall_mem_nil _⟩
  | succ n ih =>
    cases text with
    | nil => exact ⟨rfl, List.forall_mem_nil _⟩
    | cons c rest =>
      rw [splitAfter]
      split
      · next d hd =>
        have := length_drop_text_lt hd
        obtain ⟨-, -, hne, left, htext⟩ := diacriticAt?_eq_some hd
        obtain ⟨hlength, hds⟩ := @ih ((c :: rest).drop d.text.length) (by omega)
        refine ⟨?_, List.forall_mem_cons.mpr ⟨hne, hds⟩⟩
        rw [← htext, List.drop_left] at hlength ⊢
        simp only [List.flatMap_cons, List.length_append]
        omega
      · obtain ⟨hlength, hds⟩ := @ih rest (Nat.le_of_succ_le_succ hn)
        refine ⟨?_, hds⟩
        simp only [List.length_cons]
        omega

end Parts

/-- Reading ends where no symbol without text gets in the way. A round reads a character unless it
is idle, which happens only where a symbol without text is the one declared symbol that starts the
rest. Where every symbol has text, a text is read to its end in as many rounds as it has characters
at most. In general the rounds end exactly if each idle round has a diacritic behind it, and then
after two for each character at most. The loops that take a written segment apart read a diacritic
with text or a character at every turn, so for them the length of the text is always a bound. -/
theorem reading_ends (inv : Inventory) (syllabify : Bool) :
    (∀ r : Reading, r.rest ≠ [] →
      ((r.round inv syllabify).rest.length < r.rest.length ↔ ¬r.IsIdle inv syllabify)) ∧
    (∀ r : Reading, r.IsIdle inv syllabify → (∃ s ∈ inv.symbols, s.text = []) ∧
      ∀ s ∈ inv.symbols, s.text <+: r.rest → s.text = []) ∧
    (∀ text,
      let size := (Unicode.nfd text).length
      let state (n : Nat) := Reading.rounds inv syllabify n { rest := Unicode.nfd text }
      ((∀ s ∈ inv.symbols, s.text ≠ []) → ∃ n ≤ size, (state n).rest = []) ∧
      ((∃ n, (state n).rest = []) ↔ ∀ n, (state n).IsIdle inv syllabify →
        inv.diacriticAt? .after (state n).rest ≠ none) ∧
      ∀ n, (state n).rest = [] → (state (2 * size)).rest = [] ∧
        inv.readWord text syllabify = (state n).toWord syllabify) ∧
    ∀ text n, text.length ≤ n →
      (inv.splitBefore n text = inv.splitBefore text.length text ∧
        (inv.splitBefore n text).1.flatMap Diacritic.text ++ (inv.splitBefore n text).2 = text ∧
        ∀ d ∈ (inv.splitBefore n text).1, d.text ≠ []) ∧
      inv.splitAfter n text = inv.splitAfter text.length text ∧
      (inv.splitAfter n text).1.length +
        ((inv.splitAfter n text).2.flatMap Diacritic.text).length = text.length ∧
      ∀ d ∈ (inv.splitAfter n text).2, d.text ≠ [] := by
  refine ⟨fun r ↦ Reading.length_rest_round_lt_iff, fun r ↦ Reading.IsIdle.declared,
    fun text ↦ ⟨fun hsymbols ↦ ?_, Reading.ends_iff _, fun n hend ↦ ⟨?_, readWord_of_ends hend⟩⟩,
    fun text n hn ↦ ⟨⟨splitBefore_eq hn (Nat.le_refl _), splitBefore_text n text⟩,
      splitAfter_eq hn (Nat.le_refl _), splitAfter_text hn⟩⟩
  · refine Reading.exists_rounds_of_busy (fun r hidle ↦ ?_) { rest := Unicode.nfd text }
    obtain ⟨s, hs, htext⟩ := hidle.declared.1
    exact hsymbols s hs htext
  · obtain ⟨k, hk, hlast, -⟩ := Reading.exists_rounds_of_ends hend
    exact (congrArg Reading.rest (Reading.rounds_of_le hlast hk)).trans hlast

end Diachrony.Inventory
