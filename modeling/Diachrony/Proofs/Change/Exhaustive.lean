import Diachrony.Proofs.Change.Acceptance
import Diachrony.Proofs.Change.Matches
import Diachrony.Proofs.Phrase.Steps

/-!
# A pass over a phrase

The pass of an expression over a phrase is a walk. It stands at one position after the other, takes
the match there if the position is not excluded, and goes on behind the match, or to the next
position if there is none or an empty one. So it comes to the end of the phrase, its edits lie one
behind the other, and no position that it might have used is left out: the pass passes over a
position only if that is excluded, has no match, or lies inside a match that was taken.
-/

namespace Diachrony

namespace Phrase

variable {p : Phrase} {before rest : List Position} {i cursor : Position}

/-- The first position behind a position that does not stand before an earlier cursor is the next
one. -/
theorem find?_eq_next? (h : p.positions = before ++ i :: rest) (hcursor : cursor ≤ i) :
    rest.find? (fun j ↦ cursor ≤ j) = p.next? i := by
  have hsorted := p.pairwise_positions
  rw [h, List.pairwise_append, List.pairwise_cons] at hsorted
  rw [next?_of_positions_eq h]
  cases rest with
  | nil => rfl
  | cons j rest =>
    have hij := hsorted.2.1.1 j List.mem_cons_self
    exact List.find?_cons_of_pos (decide_eq_true (hcursor.trans (le_of_lt hij)))

/-- In a part of the positions the first one that does not stand before some member is that
member. -/
theorem find?_eq_of_mem (h : p.positions = before ++ rest) (hmem : i ∈ rest) :
    rest.find? (fun j ↦ i ≤ j) = some i := by
  have hsorted := p.pairwise_positions
  obtain ⟨ahead, behind, rfl⟩ := List.append_of_mem hmem
  rw [h, List.pairwise_append, List.pairwise_append] at hsorted
  have hahead : ahead.find? (fun j ↦ i ≤ j) = none := by
    rw [List.find?_eq_none]
    exact fun j hj ↦ by simpa using hsorted.2.1.2.2 j hj i List.mem_cons_self
  rw [List.find?_append, hahead, Option.none_or]
  exact List.find?_cons_of_pos (decide_eq_true (le_refl i))

/-- The first position behind a position that does not stand before a later cursor is the cursor. -/
theorem find?_eq_cursor (h : p.positions = before ++ i :: rest) (hcursor : p.isPosition cursor)
    (hlt : i < cursor) : rest.find? (fun j ↦ cursor ≤ j) = some cursor := by
  have hsorted := p.pairwise_positions
  rw [h, List.pairwise_append] at hsorted
  have hmem : cursor ∈ rest := by
    have hposition := mem_positions.mpr hcursor
    rw [h] at hposition
    rcases List.mem_append.mp hposition with hmem | hmem
    · exact absurd (hsorted.2.2 cursor hmem i List.mem_cons_self) (lt_asymm hlt)
    · exact (List.mem_cons.mp hmem).resolve_left (ne_of_gt hlt)
  exact find?_eq_of_mem (h.trans (List.append_cons before i rest)) hmem

end Phrase

/-- The match of an edit is empty if it starts and ends at the same position. -/
theorem Edit.isInsertion_iff (e : Edit) : e.isInsertion ↔ e.start = e.stop := by
  rw [isInsertion, decide_eq_true_eq]

/-- The first position behind the start of an edit that does not stand before its end is where a
pass goes on. -/
theorem Edit.Fits.find?_stop {e : Edit} {p : Phrase} {nonempty : Bool}
    {before rest : List Position} (hfits : e.Fits p nonempty)
    (h : p.positions = before ++ e.start :: rest) :
    rest.find? (fun j ↦ e.stop ≤ j) = if e.isInsertion then p.next? e.start else some e.stop := by
  by_cases hinsertion : e.start = e.stop
  · rw [e.isInsertion_iff.mpr hinsertion, if_pos rfl]
    exact Phrase.find?_eq_next? h (le_of_eq hinsertion.symm)
  · rw [if_neg (e.isInsertion_iff.not.mpr hinsertion)]
    exact Phrase.find?_eq_cursor h hfits.isPosition_stop (lt_of_le_of_ne hfits.le hinsertion)

namespace Expression

variable (lang : Language) (e : Expression) (p : Phrase) (priority : Nat)

/-- Whether no match stands at a position under any condition. -/
def Misses (i : Position) : Prop :=
  ∀ condition ∈ e.settings, ∀ m, ¬e.IsMatch lang (.of p) i condition m

/-- A pass of an expression over a phrase from a position, or from behind the last one, and the
edits that it takes on its way to the end. -/
inductive Walk : Option Position → List Edit → Prop
  /-- There is no position left. -/
  | finished : Walk none []
  /-- A position that is excluded or has no match is passed over. -/
  | passed {i : Position} {edits : List Edit}
      (idle : e.isExcluded lang (.of p) i = .ok true ∨
        e.isExcluded lang (.of p) i = .ok false ∧ e.editAt lang (.of p) none priority i = .ok none)
      (rest : Walk (p.next? i) edits) : Walk (some i) edits
  /-- The match at a position is taken, and the pass goes on behind it. -/
  | taken {i : Position} {edit : Edit} {edits : List Edit}
      (isOpen : e.isExcluded lang (.of p) i = .ok false)
      (found : e.editAt lang (.of p) none priority i = .ok (some edit))
      (rest : Walk (if edit.isInsertion then p.next? i else some edit.stop) edits) :
      Walk (some i) (edit :: edits)

variable {lang e p priority}

/-- Where no edit is found there is no match under any condition. -/
theorem misses_of_editAt {i : Position} (hi : p.isPosition i)
    (h : e.editAt lang (.of p) none priority i = .ok none) : e.Misses lang p i := by
  intro condition hcondition m hm
  obtain ⟨l, hl, -⟩ := lt_stop_of_editAt hi h hcondition hm
  cases hl

/-- The edit at a position stands there. -/
theorem fits_of_editAt {limit : Option Position} {i : Position} {edit : Edit}
    (hi : p.isPosition i) (h : e.editAt lang (.of p) limit priority i = .ok (some edit)) :
    edit.priority = priority ∧ edit.start = i ∧ edit.Fits p e.pairing.hasPieces := by
  have hensures := @editUnder_ensures (fun _ ↦ True) (fun _ _ ↦ trivial) lang e
    (fun o _ _ _ _ ↦ .anything _) _ (Scan.mirrors_of p) limit priority _ hi e.settings
  exact hensures.of_ok h edit rfl

/-- The edits from a cursor are taken by a pass from the first position that does not stand before
the cursor. -/
theorem walk_of_editsFrom {isOpen : Position → Bool}
    (hopen : ∀ i ∈ p.positions, e.isExcluded lang (.of p) i = .ok !isOpen i)
    {before rest : List Position} (hpositions : p.positions = before ++ rest) {cursor : Position}
    {edits : List Edit}
    (h : e.editsFrom lang (.of p) priority cursor (rest.filter isOpen) = .ok edits) :
    e.Walk lang p priority (rest.find? fun i ↦ cursor ≤ i) edits := by
  induction rest generalizing before cursor edits with
  | nil =>
    cases h
    exact .finished
  | cons i rest ih =>
    have hmem : i ∈ p.positions := by simp [hpositions]
    have hbehind : p.positions = (before ++ [i]) ++ rest := by simp [hpositions]
    by_cases hcursor : cursor ≤ i
    · have hfirst : (i :: rest).find? (fun j ↦ cursor ≤ j) = some i :=
        List.find?_cons_of_pos (decide_eq_true hcursor)
      have hnext := Phrase.find?_eq_next? hpositions hcursor
      rw [hfirst]
      cases hi : isOpen i with
      | false =>
        rw [List.filter_cons_of_neg (by simp [hi])] at h
        exact .passed (.inl (by rw [hopen i hmem, hi, Bool.not_false])) (hnext ▸ ih hbehind h)
      | true =>
        have hfree : e.isExcluded lang (.of p) i = .ok false := by
          rw [hopen i hmem, hi, Bool.not_true]
        rw [List.filter_cons_of_pos hi, editsFrom, if_neg (not_lt.mpr hcursor)] at h
        obtain ⟨found, hfound, h⟩ := exists_of_bind_eq_ok h
        cases found with
        | none => exact .passed (.inr ⟨hfree, hfound⟩) (hnext ▸ ih hbehind h)
        | some edit =>
          obtain ⟨others, hothers, h⟩ := exists_of_bind_eq_ok h
          cases h
          obtain ⟨-, rfl, hfits⟩ := fits_of_editAt (Phrase.mem_positions.mp hmem) hfound
          have hgoesOn := hfits.find?_stop hpositions
          exact .taken hfree hfound (hgoesOn ▸ ih hbehind hothers)
    · have hskip : (i :: rest).find? (fun j ↦ cursor ≤ j) = rest.find? fun j ↦ cursor ≤ j :=
        List.find?_cons_of_neg (by simpa using hcursor)
      rw [hskip]
      refine ih hbehind ?_
      cases hi : isOpen i with
      | false => rwa [List.filter_cons_of_neg (by simp [hi])] at h
      | true =>
        rw [List.filter_cons_of_pos hi, editsFrom, if_pos (not_le.mp hcursor)] at h
        exact h

/-- A pass that takes a match goes on behind the start and not before the end of it. -/
theorem goesOn {i c : Position} {edit : Edit} (hi : p.isPosition i)
    (h : e.editAt lang (.of p) none priority i = .ok (some edit))
    (hc : c ∈ if edit.isInsertion then p.next? i else some edit.stop) :
    p.isPosition c ∧ edit.start < c ∧ edit.stop ≤ c := by
  obtain ⟨-, rfl, hfits⟩ := fits_of_editAt hi h
  by_cases hinsertion : edit.start = edit.stop
  · rw [edit.isInsertion_iff.mpr hinsertion, if_pos rfl] at hc
    obtain ⟨hposition, hlt⟩ := Phrase.isPosition_of_next? hi hc
    exact ⟨hposition, hlt, hinsertion ▸ le_of_lt hlt⟩
  · rw [if_neg (edit.isInsertion_iff.not.mpr hinsertion), Option.mem_some_iff] at hc
    subst hc
    exact ⟨hfits.isPosition_stop, lt_of_le_of_ne hfits.le hinsertion, le_refl _⟩

namespace Walk

variable {cursor : Option Position} {edits : List Edit} (h : e.Walk lang p priority cursor edits)
  (hcursor : ∀ i ∈ cursor, p.isPosition i)
include h hcursor

/-- What a pass takes stands in the phrase, at positions that are not excluded, and not before the
position from which the pass starts. -/
theorem fits : ∀ edit ∈ edits, edit.Fits p e.pairing.hasPieces ∧
    e.isExcluded lang (.of p) edit.start = .ok false ∧ ∃ i ∈ cursor, i ≤ edit.start := by
  induction h with
  | finished => exact List.forall_mem_nil _
  | @passed i edits idle rest ih =>
    have hnext (j : Position) := Phrase.isPosition_of_next? (j := j) (hcursor i rfl)
    intro edit hedit
    obtain ⟨hfits, hopen, j, hj, hle⟩ := ih (fun j hj ↦ (hnext j hj).1) edit hedit
    exact ⟨hfits, hopen, i, rfl, (le_of_lt (hnext j hj).2).trans hle⟩
  | @taken i edit edits hopen hfound rest ih =>
    have hi := hcursor i rfl
    obtain ⟨-, hstart, hfits⟩ := fits_of_editAt hi hfound
    refine List.forall_mem_cons.mpr ⟨⟨hfits, hstart ▸ hopen, i, rfl, le_of_eq hstart.symm⟩, ?_⟩
    intro other hother
    obtain ⟨hfits, hopen, j, hj, hle⟩ := ih (fun j hj ↦ (goesOn hi hfound hj).1) other hother
    have hlt := (goesOn hi hfound hj).2.1
    exact ⟨hfits, hopen, i, rfl, (hstart ▸ le_of_lt hlt).trans hle⟩

/-- What a pass takes lies one behind the other. -/
theorem apart : edits.Pairwise fun a b ↦ a.start < b.start ∧ a.stop ≤ b.start := by
  induction h with
  | finished => exact .nil
  | @passed i edits idle rest ih =>
    exact ih fun j hj ↦ (Phrase.isPosition_of_next? (hcursor i rfl) hj).1
  | @taken i edit edits hopen hfound rest ih =>
    have hgoesOn (j : Position) := goesOn (c := j) (hcursor i rfl) hfound
    refine List.pairwise_cons.mpr ⟨fun other hother ↦ ?_, ih fun j hj ↦ (hgoesOn j hj).1⟩
    obtain ⟨-, -, j, hj, hle⟩ := rest.fits (fun j hj ↦ (hgoesOn j hj).1) other hother
    obtain ⟨-, hlt, hstop⟩ := hgoesOn j hj
    exact ⟨lt_of_lt_of_le hlt hle, hstop.trans hle⟩

/-- A pass leaves out only positions that are excluded, have no edit, or lie inside of what it
takes. -/
theorem tried {i j : Position} (hi : i ∈ cursor) (hj : p.isPosition j) (hle : i ≤ j) :
    e.isExcluded lang (.of p) j = .ok true ∨ e.editAt lang (.of p) none priority j = .ok none ∨
      ∃ edit ∈ edits, e.editAt lang (.of p) none priority j = .ok (some edit) ∨
        edit.start < j ∧ j < edit.stop := by
  induction h generalizing i with
  | finished => cases hi
  | @passed i edits idle rest ih =>
    cases hi
    have hi := hcursor i rfl
    rcases Phrase.eq_or_next?_le hi hj hle with rfl | ⟨k, hk, hle⟩
    · exact idle.imp_right fun h ↦ .inl h.2
    · exact ih (fun k hk ↦ (Phrase.isPosition_of_next? hi hk).1) hk hle
  | @taken i edit edits hopen hfound rest ih =>
    cases hi
    have hi := hcursor i rfl
    have hgoesOn (k : Position) := goesOn (c := k) hi hfound
    have hlater {k : Position} (hk : k ∈ if edit.isInsertion then p.next? i else some edit.stop)
        (hle : k ≤ j) := ih (fun k hk ↦ (hgoesOn k hk).1) hk hle
    have hmore : (∃ other ∈ edits, e.editAt lang (.of p) none priority j = .ok (some other) ∨
        other.start < j ∧ j < other.stop) →
        ∃ other ∈ edit :: edits, e.editAt lang (.of p) none priority j = .ok (some other) ∨
          other.start < j ∧ j < other.stop :=
      fun ⟨other, hother, hplace⟩ ↦ ⟨other, List.mem_cons_of_mem edit hother, hplace⟩
    obtain ⟨-, rfl, hfits⟩ := fits_of_editAt hi hfound
    rcases Phrase.eq_or_next?_le hi hj hle with rfl | ⟨k, hk, hnext⟩
    · exact .inr (.inr ⟨edit, List.mem_cons_self, .inl hfound⟩)
    · have hlt := lt_of_lt_of_le (Phrase.isPosition_of_next? hi hk).2 hnext
      rcases lt_or_ge j edit.stop with hinside | hbehind
      · exact .inr (.inr ⟨edit, List.mem_cons_self, .inr ⟨hlt, hinside⟩⟩)
      · refine (?_ : _ ∨ _ ∨ _).imp_right (Or.imp_right hmore)
        by_cases hinsertion : edit.isInsertion = true
        · exact hlater (if_pos hinsertion ▸ hk) hnext
        · exact hlater (if_neg hinsertion ▸ rfl) hbehind

/-- A pass leaves out only positions that are excluded, have no match, or lie inside what it
takes. -/
theorem settles {i j : Position} (hi : i ∈ cursor) (hj : p.isPosition j) (hle : i ≤ j) :
    e.isExcluded lang (.of p) j = .ok true ∨ e.Misses lang p j ∨
      ∃ edit ∈ edits, j = edit.start ∨ edit.start < j ∧ j < edit.stop := by
  rcases h.tried hcursor hi hj hle with hexcluded | hnone | ⟨edit, hedit, hfound | hinside⟩
  · exact .inl hexcluded
  · exact .inr (.inl (misses_of_editAt hj hnone))
  · exact .inr (.inr ⟨edit, hedit, .inl (fits_of_editAt hj hfound).2.1.symm⟩)
  · exact .inr (.inr ⟨edit, hedit, .inr hinside⟩)

end Walk

/-- Every position of a phrase is found to be excluded or open, and the open ones are kept. -/
theorem exists_of_openPositions {positions : List Position}
    (h : e.openPositions lang (.of p) = .ok positions) :
    ∃ isOpen : Position → Bool,
      (∀ i ∈ p.positions, e.isExcluded lang (.of p) i = .ok !isOpen i) ∧
      positions = p.positions.filter isOpen := by
  obtain ⟨isOpen, htests, rfl⟩ := exists_of_filterM_eq_ok h
  refine ⟨isOpen, fun i hi ↦ ?_, rfl⟩
  obtain ⟨excluded, hexcluded, heq⟩ := exists_of_bind_eq_ok (htests i hi)
  rw [hexcluded, ← Except.ok.inj heq, Bool.not_not]

/-- The edits of an expression in a phrase are taken by a pass from the start of the phrase to its
end. They start at positions that are not excluded and lie one behind the other without
overlapping, and a position that is neither excluded, nor the start of an edit, nor inside one has
no match under any condition. -/
theorem edits_exhaustive {edits : List Edit} (h : e.edits lang p priority = .ok edits) :
    e.Walk lang p priority (some p.start) edits ∧
    (∀ edit ∈ edits, p.isPosition edit.start ∧ p.isPosition edit.stop ∧ edit.start ≤ edit.stop ∧
      e.isExcluded lang (.of p) edit.start = .ok false) ∧
    edits.Pairwise (fun a b ↦ a.start < b.start ∧ a.stop ≤ b.start ∧ a.overlaps b = false) ∧
    ∀ i, p.isPosition i → e.isExcluded lang (.of p) i ≠ .ok true →
      (∀ edit ∈ edits, i ≠ edit.start ∧ ¬(edit.start < i ∧ i < edit.stop)) → e.Misses lang p i := by
  rw [Expression.edits] at h
  obtain ⟨positions, hpositions, h⟩ := exists_of_bind_eq_ok h
  obtain ⟨isOpen, hopen, rfl⟩ := exists_of_openPositions hpositions
  have hwalk : e.Walk lang p priority (some p.start) edits := by
    have hmem : p.start ∈ p.positions := Phrase.mem_positions.mpr Phrase.isPosition_start
    have hall : p.positions = [] ++ p.positions := (List.nil_append _).symm
    exact Phrase.find?_eq_of_mem hall hmem ▸ walk_of_editsFrom hopen hall h
  have hstart : ∀ i ∈ some p.start, p.isPosition i := by
    rintro i ⟨⟩
    exact Phrase.isPosition_start
  have hfits := hwalk.fits hstart
  refine ⟨hwalk, fun edit hedit ↦ ?_, ?_, fun i hi hfree hoff ↦ ?_⟩
  · obtain ⟨hfits, hopen, -⟩ := hfits edit hedit
    exact ⟨hfits.isPosition_start, hfits.isPosition_stop, hfits.le, hopen⟩
  · exact (hwalk.apart hstart).imp fun h ↦ ⟨h.1, h.2, Edit.overlaps_eq_false h.1 h.2⟩
  · rcases hwalk.settles hstart rfl hi (Phrase.start_le i) with
      hexcluded | hmisses | ⟨edit, hedit, hplace⟩
    · exact absurd hexcluded hfree
    · exact hmisses
    · exact absurd hplace (not_or.mpr (hoff edit hedit))

/-- Without `a` in front of `b`, the pass over `aab` takes the first `a`, and at the end there is no
match. -/
theorem edits_exhaustive_aab :
    let a := Segment.literal ['a']
    let b := Segment.literal ['b']
    let e : Expression :=
      { pairing := .single (.text ⟨[a], none⟩) .empty
        exclusions := [⟨.empty, .text ⟨[b], none⟩⟩], text := "" }
    let p : Phrase := .ofWord ⟨[a, a, b], none⟩
    e.edits { inventory := .empty } p 0 =
        .ok [⟨0, ⟨0, 0⟩, ⟨0, 1⟩, [⟨⟨0, 0⟩, ⟨0, 1⟩, .empty, ∅⟩]⟩] ∧
      e.isExcluded { inventory := .empty } (.of p) ⟨0, 1⟩ = .ok true ∧
      e.Misses { inventory := .empty } p ⟨0, 3⟩ := by
  intro a b e p
  have hedits : e.edits { inventory := .empty } p 0 =
      .ok [⟨0, ⟨0, 0⟩, ⟨0, 1⟩, [⟨⟨0, 0⟩, ⟨0, 1⟩, .empty, ∅⟩]⟩] := by decide +kernel
  refine ⟨hedits, by decide +kernel, ?_⟩
  exact (edits_exhaustive hedits).2.2.2 ⟨0, 3⟩ (by decide) (by decide +kernel)
    (List.forall_mem_singleton.mpr (by decide))

end Expression

end Diachrony
