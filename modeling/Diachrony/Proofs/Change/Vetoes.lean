import Diachrony.Proofs.Change.Exhaustive
import Diachrony.Proofs.Pattern.Firsts

/-!
# Exclusions veto

An exclusion keeps edits from starting where it holds around some match of the bare pattern, and it
does nothing else. The pass of an expression takes the edits that the pass without exclusions takes,
apart from those that are vetoed. Where an edit is not taken the pass goes on inside of it, and
there it may take others, or fail on one that the pass without exclusions never tries.
-/

namespace Diachrony

namespace Finder

variable {inv : Inventory} {scan : Scan} {start stop : Position} {b : Bindings}
  {conditions : List Surroundings}

/-- What is found in some of a list of surroundings is found in one of them. -/
theorem exists_of_mem_inSome {bound : Bindings}
    (h : bound ∈ (inSome scan start stop b (Surroundings.finders inv conditions)).offers) :
    ∃ s ∈ conditions, bound ∈ (s.candidates inv scan start stop b).offers := by
  induction conditions with
  | nil => cases h
  | cons s rest ih =>
    obtain ⟨behind, ahead⟩ := s
    rw [Surroundings.finders, inSome, Candidates.offers_append, List.mem_append] at h
    rcases h with hfirst | hrest
    · exact ⟨_, List.mem_cons_self, hfirst⟩
    · split at hrest
      · obtain ⟨s, hs, hbound⟩ := ih hrest
        exact ⟨s, List.mem_cons_of_mem _ hs, hbound⟩
      · cases hrest

/-- Where nothing is found in some of a list of surroundings, nothing is found in any of them. -/
theorem isVain_of_inSome
    (h : (inSome scan start stop b (Surroundings.finders inv conditions)).IsVain) :
    ∀ s ∈ conditions, (s.candidates inv scan start stop b).IsVain := by
  induction conditions with
  | nil => exact List.forall_mem_nil _
  | cons s rest ih =>
    obtain ⟨behind, ahead⟩ := s
    rw [Surroundings.finders, inSome, Candidates.isVain_append] at h
    exact List.forall_mem_cons.mpr ⟨h.1, ih h.2⟩

end Finder

namespace Expression

/-- The expression without its exclusions. -/
def unrestricted (e : Expression) : Expression := { e with exclusions := [] }

/-- Whether an exclusion holds around some match of the bare pattern at a position. -/
def IsVetoed (lang : Language) (e : Expression) (p : Phrase) (i : Position) : Prop :=
  ∃ m ∈ (e.pattern.candidates lang.inventory (.of p) i .empty).offers, ∃ s ∈ e.exclusions,
    ∃ bound, bound ∈ (s.candidates lang.inventory (.of p) i m.stop m.bindings).offers

variable {lang : Language} {e : Expression} {p : Phrase} {priority : Nat} {i : Position}

section Unrestricted

/-- Without exclusions no position is excluded. -/
theorem isExcluded_unrestricted (scan : Scan) :
    e.unrestricted.isExcluded lang scan i = .ok false := rfl

/-- Without exclusions the edits at a position are the same. -/
theorem editAt_unrestricted (scan : Scan) (limit : Option Position) :
    e.unrestricted.editAt lang scan limit priority i = e.editAt lang scan limit priority i := by
  have hunder : ∀ conditions : List Surroundings,
      e.unrestricted.editUnder lang scan limit priority i conditions =
        e.editUnder lang scan limit priority i conditions := by
    intro conditions
    induction conditions with
    | nil => rfl
    | cons condition rest ih =>
      rw [editUnder, editUnder, ih]
      rfl
  exact hunder e.settings

/-- Without exclusions the edits at some positions are the same. -/
theorem editsFrom_unrestricted (scan : Scan) (cursor : Position) (positions : List Position) :
    e.unrestricted.editsFrom lang scan priority cursor positions =
      e.editsFrom lang scan priority cursor positions := by
  induction positions generalizing cursor with
  | nil => rfl
  | cons start rest ih =>
    rw [editsFrom, editsFrom, editAt_unrestricted]
    simp only [ih]

end Unrestricted

/-- A position that is found to be excluded is vetoed, and one that is found to be open is not. -/
theorem isVetoed_iff {excluded : Bool} (h : e.isExcluded lang (.of p) i = .ok excluded) :
    e.IsVetoed lang p i ↔ excluded = true := by
  rw [isExcluded] at h
  split at h
  · next hnone =>
    cases h
    rw [List.isEmpty_iff] at hnone
    refine iff_of_false ?_ Bool.false_ne_true
    rintro ⟨m, -, s, hs, -⟩
    rw [hnone] at hs
    cases hs
  · obtain ⟨found, hfound, h⟩ := exists_of_bind_eq_ok h
    cases h
    cases found with
    | some bound =>
      have hmem := List.mem_of_head? (Candidates.head_offers_of_firstAfter hfound)
      obtain ⟨m, hm, hbound⟩ := Candidates.exists_of_mem_offers_bind hmem
      obtain ⟨s, hs, hbound⟩ := Finder.exists_of_mem_inSome hbound
      exact iff_of_true ⟨m, hm, s, hs, bound, hbound⟩ rfl
    | none =>
      have hvain := (Candidates.isVain_bind.mp (Candidates.isVain_of_first? hfound)).2
      refine iff_of_false ?_ Bool.false_ne_true
      rintro ⟨m, hm, s, hs, bound, hbound⟩
      have hnothing := (Finder.isVain_of_inSome (hvain m hm) s hs).offers
      rw [hnothing] at hbound
      cases hbound

section Passed

variable {edits : List Edit} (h : e.edits lang p priority = .ok edits)
include h

/-- The edits of an expression in a phrase are taken by a pass from its start. -/
theorem walk_of_edits : e.Walk lang p priority (some p.start) edits := by
  obtain ⟨positions, hpositions, h⟩ := exists_of_bind_eq_ok h
  obtain ⟨isOpen, hopen, rfl⟩ := exists_of_openPositions hpositions
  have hmem : p.start ∈ p.positions := Phrase.mem_positions.mpr Phrase.isPosition_start
  have hall : p.positions = [] ++ p.positions := (List.nil_append _).symm
  exact Phrase.find?_eq_of_mem hall hmem ▸ walk_of_editsFrom hopen hall h

/-- Every position is excluded, or has no edit, or the pass takes the one that is there, or the
position lies inside one that it takes. -/
theorem tried_of_edits (hi : p.isPosition i) :
    e.isExcluded lang (.of p) i = .ok true ∨ e.editAt lang (.of p) none priority i = .ok none ∨
      ∃ edit ∈ edits, e.editAt lang (.of p) none priority i = .ok (some edit) ∨
        edit.start < i ∧ i < edit.stop := by
  refine (walk_of_edits h).tried (fun i hi ↦ ?_) rfl hi (Phrase.start_le i)
  cases hi
  exact Phrase.isPosition_start

/-- An edit of a pass is the one that is found at a position that is not vetoed. -/
theorem exists_of_mem_edits {edit : Edit} (hedit : edit ∈ edits) :
    p.isPosition edit.start ∧ ¬e.IsVetoed lang p edit.start ∧
      e.editAt lang (.of p) none priority edit.start = .ok (some edit) := by
  obtain ⟨positions, hpositions, h⟩ := exists_of_bind_eq_ok h
  obtain ⟨isOpen, hopen, rfl⟩ := exists_of_openPositions hpositions
  obtain ⟨i, hmem, hfound⟩ := exists_of_mem_editsFrom h edit hedit
  obtain ⟨hmem, hfree⟩ := List.mem_filter.mp hmem
  have hi := Phrase.mem_positions.mp hmem
  obtain ⟨-, rfl, -⟩ := fits_of_editAt hi hfound
  refine ⟨hi, ?_, hfound⟩
  rw [isVetoed_iff (hopen _ hmem), hfree]
  exact Bool.false_ne_true

end Passed

/-- Whether a fault comes up at one of some positions. -/
def FailsAmong (lang : Language) (e : Expression) (scan : Scan) (priority : Nat)
    (positions : List Position) (fault : Fault) : Prop :=
  ∃ j ∈ positions, e.editAt lang scan none priority j = .error fault

/-- A pass over some positions fails only at one of them. -/
theorem editsFrom_fails {scan : Scan} (cursor : Position) (positions : List Position) :
    Ensures (fun _ ↦ True) (e.FailsAmong lang scan priority positions)
      (e.editsFrom lang scan priority cursor positions) := by
  induction positions generalizing cursor with
  | nil => exact .ok trivial
  | cons start rest ih =>
    have hlater (cursor : Position) : Ensures (fun _ ↦ True)
        (e.FailsAmong lang scan priority (start :: rest))
        (e.editsFrom lang scan priority cursor rest) := by
      apply (ih cursor).allow
      rintro fault ⟨j, hj, hfails⟩
      exact ⟨j, List.mem_cons_of_mem start hj, hfails⟩
    have hhere : Ensures (fun _ ↦ True) (e.FailsAmong lang scan priority (start :: rest))
        (e.editAt lang scan none priority start) :=
      .intro (fun _ _ ↦ trivial) fun fault hfails ↦ ⟨start, List.mem_cons_self, hfails⟩
    rw [editsFrom]
    split
    · exact hlater cursor
    · apply hhere.bind
      intro found _
      cases found with
      | none => exact hlater cursor
      | some edit => exact (hlater edit.stop).bind fun _ _ ↦ .ok trivial

section Vetoed

variable {edits : List Edit} (hunrestricted : e.unrestricted.edits lang p priority = .ok edits)
include hunrestricted

/-- At every position the pass without exclusions has no edit, or it takes the one that is there, or
the position lies inside one that it takes. -/
theorem tried_of_unrestricted (hi : p.isPosition i) :
    e.editAt lang (.of p) none priority i = .ok none ∨
      ∃ edit ∈ edits, e.editAt lang (.of p) none priority i = .ok (some edit) ∨
        edit.start < i ∧ i < edit.stop := by
  rcases tried_of_edits hunrestricted hi with hexcluded | htried
  · rw [isExcluded_unrestricted] at hexcluded
    cases hexcluded
  · simpa only [editAt_unrestricted] using htried

/-- An edit that is found at some position is one of the pass without exclusions or starts inside
one of them. -/
theorem mem_or_inside_of_editAt (hi : p.isPosition i) {edit : Edit}
    (h : e.editAt lang (.of p) none priority i = .ok (some edit)) :
    edit ∈ edits ∨ ∃ other ∈ edits, other.start < edit.start ∧ edit.start < other.stop := by
  obtain ⟨-, rfl, -⟩ := fits_of_editAt hi h
  rcases tried_of_unrestricted hunrestricted hi with hnone | ⟨other, hother, hfound | hinside⟩
  · rw [hnone] at h
    cases h
  · rw [h] at hfound
    cases hfound
    exact .inl hother
  · exact .inr ⟨other, hother, hinside⟩

/-- A fault at some position comes up inside of an edit of the pass without exclusions. -/
theorem exists_inside_of_fails (hi : p.isPosition i) {fault : Fault}
    (h : e.editAt lang (.of p) none priority i = .error fault) :
    ∃ edit ∈ edits, edit.start < i ∧ i < edit.stop := by
  rcases tried_of_unrestricted hunrestricted hi with hnone | ⟨edit, hedit, hfound | hinside⟩
  · rw [hnone] at h
    cases h
  · rw [h] at hfound
    cases hfound
  · exact ⟨edit, hedit, hinside⟩

/-- The pass takes edits of the pass without exclusions and edits that start inside of one of them,
and none that starts where an exclusion holds. -/
theorem mem_or_inside_of_mem_edits {taken : List Edit} (h : e.edits lang p priority = .ok taken) :
    ∀ edit ∈ taken, ¬e.IsVetoed lang p edit.start ∧
      (edit ∈ edits ∨ ∃ other ∈ edits, other.start < edit.start ∧ edit.start < other.stop) := by
  intro edit hedit
  obtain ⟨hi, hfree, hfound⟩ := exists_of_mem_edits h hedit
  exact ⟨hfree, mem_or_inside_of_editAt hunrestricted hi hfound⟩

/-- The pass leaves out only edits that are vetoed and edits that start inside of one that it
takes. -/
theorem mem_or_vetoed_of_unrestricted {taken : List Edit}
    (h : e.edits lang p priority = .ok taken) :
    ∀ edit ∈ edits, edit ∈ taken ∨ e.IsVetoed lang p edit.start ∨
      ∃ other ∈ taken, other.start < edit.start ∧ edit.start < other.stop := by
  intro edit hedit
  obtain ⟨hi, -, hfound⟩ := exists_of_mem_edits hunrestricted hedit
  rw [editAt_unrestricted] at hfound
  rcases tried_of_edits h hi with hexcluded | hnone | ⟨other, hother, hfound' | hinside⟩
  · exact .inr (.inl ((isVetoed_iff hexcluded).mpr rfl))
  · rw [hfound] at hnone
    cases hnone
  · rw [hfound] at hfound'
    cases hfound'
    exact .inl hother
  · exact .inr (.inr ⟨other, hother, hinside⟩)

end Vetoed

section Decided

/-- Where the search for exclusions stays within its budget and refers to no capture that is not
bound, it is decided for every position whether it is excluded. -/
theorem isExcluded_decided
    (hbudget : ∀ i, p.isPosition i →
      e.isExcluded lang (.of p) i ≠ .error (lang.budget e.text).exceeded)
    (hcaptures : ∀ i, p.isPosition i → ∀ number,
      e.isExcluded lang (.of p) i ≠ .error (.of (.unboundCapture number))) :
    ∀ i, p.isPosition i → ∃ excluded, e.isExcluded lang (.of p) i = .ok excluded := by
  intro i hi
  have hensures : Ensures (fun _ ↦ True)
      (fun fault ↦ fault = (lang.budget e.text).exceeded ∨
        ∃ number, fault = .of (.unboundCapture number)) (e.isExcluded lang (.of p) i) :=
    e.isExcluded_ensures lang (.inl rfl) (fun number ↦ .inr ⟨number, rfl⟩) (Scan.mirrors_of p) hi
  cases hexcluded : e.isExcluded lang (.of p) i with
  | ok excluded => exact ⟨excluded, rfl⟩
  | error fault =>
    rcases hensures.of_error hexcluded with rfl | ⟨number, rfl⟩
    · exact absurd hexcluded (hbudget i hi)
    · exact absurd hexcluded (hcaptures i hi number)

/-- Where it is decided for every position whether it is excluded, the open positions are found. -/
theorem exists_openPositions
    (h : ∀ i, p.isPosition i → ∃ excluded, e.isExcluded lang (.of p) i = .ok excluded) :
    ∃ positions, e.openPositions lang (.of p) = .ok positions := by
  have hall : Ensures (fun _ ↦ True) (fun _ ↦ False) (e.openPositions lang (.of p)) := by
    refine (Ensures.filterM fun i hi ↦ ?_).mono fun _ _ _ ↦ trivial
    obtain ⟨excluded, hexcluded⟩ := h i (Phrase.mem_positions.mp hi)
    rw [hexcluded]
    exact .ok trivial
  cases hpositions : e.openPositions lang (.of p) with
  | ok positions => exact ⟨positions, rfl⟩
  | error fault => exact (hall.of_error hpositions).elim

/-- Where no position is excluded, all of them are open. -/
theorem openPositions_eq_positions
    (h : ∀ i, p.isPosition i → e.isExcluded lang (.of p) i = .ok false) :
    e.openPositions lang (.of p) = .ok p.positions := by
  obtain ⟨positions, hpositions⟩ := exists_openPositions fun i hi ↦ ⟨false, h i hi⟩
  obtain ⟨isOpen, hopen, rfl⟩ := exists_of_openPositions hpositions
  have hall : ∀ i ∈ p.positions, isOpen i = true := by
    intro i hi
    have heq := (hopen i hi).symm.trans (h i (Phrase.mem_positions.mp hi))
    simpa using Except.ok.inj heq
  rw [hpositions, List.filter_eq_self.mpr hall]

/-- Where no position is excluded, the pass is that of the expression without exclusions. -/
theorem edits_eq_unrestricted
    (h : ∀ i, p.isPosition i → e.isExcluded lang (.of p) i = .ok false) :
    e.edits lang p priority = e.unrestricted.edits lang p priority := by
  have hopen : e.openPositions lang (.of p) = .ok p.positions := openPositions_eq_positions h
  have hopen' : e.unrestricted.openPositions lang (.of p) = .ok p.positions :=
    openPositions_eq_positions fun _ _ ↦ isExcluded_unrestricted _
  rw [edits, edits, hopen, hopen']
  exact (editsFrom_unrestricted _ _ _).symm

/-- Where it is decided for every position whether it is excluded, the pass fails only on an edit
that starts inside of one of the pass without exclusions. -/
theorem exists_inside_of_edits_fails {edits : List Edit} {fault : Fault}
    (hunrestricted : e.unrestricted.edits lang p priority = .ok edits)
    (hdecided : ∀ i, p.isPosition i → ∃ excluded, e.isExcluded lang (.of p) i = .ok excluded)
    (hfails : e.edits lang p priority = .error fault) :
    ∃ edit ∈ edits, ∃ i, edit.start < i ∧ i < edit.stop ∧
      e.editAt lang (.of p) none priority i = .error fault := by
  obtain ⟨positions, hpositions⟩ := exists_openPositions hdecided
  obtain ⟨isOpen, -, rfl⟩ := exists_of_openPositions hpositions
  rw [Expression.edits, hpositions] at hfails
  obtain ⟨i, hi, hfault⟩ := (e.editsFrom_fails p.start _).of_error hfails
  have hi := Phrase.mem_positions.mp (List.mem_filter.mp hi).1
  obtain ⟨edit, hedit, hinside⟩ := exists_inside_of_fails hunrestricted hi hfault
  exact ⟨edit, hedit, i, hinside.1, hinside.2, hfault⟩

end Decided

/-- Exclusions only veto. Where the pass without exclusions succeeds and the search for exclusions
does, the pass takes no edit that starts where an exclusion holds around a match of the bare
pattern. It takes edits of the pass without exclusions, and edits that start inside of one of them;
it leaves out only those that are vetoed and those that start inside of an edit that it takes. It
fails only on an edit that starts inside of one of the pass without exclusions. Where no exclusion
holds both passes take the same edits. -/
theorem edits_vetoed {edits₀ : List Edit}
    (hunrestricted : e.unrestricted.edits lang p priority = .ok edits₀)
    (hbudget : ∀ i, p.isPosition i →
      e.isExcluded lang (.of p) i ≠ .error (lang.budget e.text).exceeded)
    (hcaptures : ∀ i, p.isPosition i → ∀ number,
      e.isExcluded lang (.of p) i ≠ .error (.of (.unboundCapture number))) :
    (∀ edits, e.edits lang p priority = .ok edits →
      (∀ edit ∈ edits, ¬e.IsVetoed lang p edit.start ∧
        (edit ∈ edits₀ ∨ ∃ other ∈ edits₀, other.start < edit.start ∧ edit.start < other.stop)) ∧
      ∀ edit ∈ edits₀, edit ∈ edits ∨ e.IsVetoed lang p edit.start ∨
        ∃ other ∈ edits, other.start < edit.start ∧ edit.start < other.stop) ∧
    (∀ fault, e.edits lang p priority = .error fault → ∃ edit ∈ edits₀, ∃ i,
      edit.start < i ∧ i < edit.stop ∧
        e.editAt lang (.of p) none priority i = .error fault) ∧
    ((∀ i, p.isPosition i → ¬e.IsVetoed lang p i) → e.edits lang p priority = .ok edits₀) := by
  have hdecided := isExcluded_decided hbudget hcaptures
  refine ⟨fun edits hedits ↦ ?_, fun fault hfails ↦ ?_, fun hfree ↦ ?_⟩
  · exact ⟨mem_or_inside_of_mem_edits hunrestricted hedits,
      mem_or_vetoed_of_unrestricted hunrestricted hedits⟩
  · exact exists_inside_of_edits_fails hunrestricted hdecided hfails
  · have hopen : ∀ i, p.isPosition i → e.isExcluded lang (.of p) i = .ok false := by
      intro i hi
      obtain ⟨excluded, hexcluded⟩ := hdecided i hi
      cases excluded with
      | false => exact hexcluded
      | true => exact absurd ((isVetoed_iff hexcluded).mpr rfl) (hfree i hi)
    rw [edits_eq_unrestricted hopen, hunrestricted]

/-- In `ab` the rule `{ab, b} => c` takes the whole, and not at the start of a word it takes the `b`
inside: the start is vetoed. -/
theorem edits_vetoed_ab :
    let a := Segment.literal ['a']
    let b := Segment.literal ['b']
    let e : Expression :=
      { pairing := .single (.alternative [.text ⟨[a, b], none⟩, .text ⟨[b], none⟩])
          (.text ⟨[.literal ['c']], none⟩)
        exclusions := [⟨.wordEnd, .empty⟩], text := "" }
    let lang : Language := { inventory := .empty }
    let p : Phrase := .ofWord ⟨[a, b], none⟩
    let whole : Edit := ⟨0, ⟨0, 0⟩, ⟨0, 2⟩, [⟨⟨0, 0⟩, ⟨0, 2⟩, .ofWord ⟨[.literal ['c']], none⟩, ∅⟩]⟩
    let inside : Edit :=
      ⟨0, ⟨0, 1⟩, ⟨0, 2⟩, [⟨⟨0, 1⟩, ⟨0, 2⟩, .ofWord ⟨[.literal ['c']], none⟩, ∅⟩]⟩
    e.unrestricted.edits lang p 0 = .ok [whole] ∧ e.edits lang p 0 = .ok [inside] ∧
      e.IsVetoed lang p ⟨0, 0⟩ := by
  intro a b e lang p whole inside
  have hunrestricted : e.unrestricted.edits lang p 0 = .ok [whole] := by decide +kernel
  have hedits : e.edits lang p 0 = .ok [inside] := by decide +kernel
  have hdecided : ∀ i ∈ p.positions, (e.isExcluded lang (.of p) i).isOk := by decide +kernel
  have hsearch : ∀ i, p.isPosition i → ∀ fault, e.isExcluded lang (.of p) i ≠ .error fault := by
    intro i hi fault hfails
    have hok := hdecided i (Phrase.mem_positions.mpr hi)
    rw [hfails] at hok
    cases hok
  have hvetoed := edits_vetoed hunrestricted (fun i hi ↦ hsearch i hi _)
    (fun i hi number ↦ hsearch i hi _)
  refine ⟨hunrestricted, hedits, ?_⟩
  rcases (hvetoed.1 _ hedits).2 whole List.mem_cons_self with hmem | hvetoed | ⟨_, -, hlt, -⟩
  · exact absurd hmem (by decide +kernel)
  · exact hvetoed
  · exact absurd (Phrase.start_le (p := p) _) (not_le.mpr hlt)

/-- Where an exclusion keeps `ab` from changing, the pass comes to the `b` inside, and if there is
no segment that the change to it gives then the pass fails, as the pass without exclusions does
not. -/
theorem not_edits_of_unrestricted :
    let a := Segment.literal ['a']
    let b := Segment.literal ['b']
    let e : Expression :=
      { pairing := .alternative [.single (.text ⟨[a, b], none⟩) (.text ⟨[a], none⟩),
          .single (.text ⟨[b], none⟩) (.matrix (.ofValues ["voiced"]))]
        exclusions := [⟨.wordEnd, .empty⟩], text := "" }
    let lang : Language :=
      { inventory := { features := [{ name := "Voice", values := ["voiced"] }]
                       symbols := [⟨['a'], ∅⟩, ⟨['b'], ∅⟩] } }
    let p : Phrase := .ofWord ⟨[a, b], none⟩
    (e.unrestricted.edits lang p 0).isOk ∧
      (∀ i ∈ p.positions, (e.isExcluded lang (.of p) i).isOk) ∧
      e.edits lang p 0 = .error (.of (.invalidMatrix "[voiced]")) := by
  decide +kernel

end Expression

end Diachrony
