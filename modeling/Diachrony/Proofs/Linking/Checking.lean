import Diachrony.Proofs.Ensures
import Diachrony.Syntax.Check

/-!
# Accepted statements

What a statement has to pass in order to be accepted behind others, and what is declared then. The
checks of a program accept its statements one by one, so what is known of accepted programs is known
by these cases.
-/

namespace Diachrony.Syntax

namespace Checked

variable {inv : Inventory} {deferred : List String} {c c' : Checked}

/-- A name is new if no class and no element has it. -/
theorem checkNew_eq_ok_iff {what name : String} :
    c.checkNew what name = .ok () ↔ c.scope.declares name = false := by
  rw [checkNew]
  cases c.scope.declares name with
  | false => exact ⟨fun _ ↦ rfl, fun _ ↦ rfl⟩
  | true => exact ⟨fun h ↦ (nomatch h), fun h ↦ (nomatch h)⟩

/-- A rule or a romanizer is added if no other one has its name. -/
theorem addStep_eq_ok_iff {name : String} :
    c.addStep name = .ok c' ↔ name ∉ c.steps ∧ { c with steps := name :: c.steps } = c' := by
  rw [addStep]
  split
  · next hknown =>
    have hmem : name ∈ c.steps := by simpa using hknown
    exact ⟨fun h ↦ (nomatch h), fun h ↦ absurd hmem h.1⟩
  · next hnew =>
    have hmem : name ∉ c.steps := by simpa using hnew
    exact ⟨fun h ↦ ⟨hmem, Except.ok.inj h⟩, fun h ↦ congrArg Except.ok h.2⟩

/-- What is declared behind a statement that is accepted behind others. -/
inductive Accepts (inv : Inventory) (deferred : List String) (c : Checked) :
    Statement → Checked → Prop
  /-- A class of literals and known classes. -/
  | soundClass {name : String} {members : List Element} (hnew : c.scope.declares name = false)
      (hmembers : members.forM c.checkMember = .ok ()) :
      Accepts inv deferred c (.soundClass name members)
        { c with scope := c.scope.withClass name members }
  /-- An element that refers to known names. -/
  | element {name : String} {body : Element} (hnew : c.scope.declares name = false)
      (hbody : body.checkNames c.scope = .ok ()) :
      Accepts inv deferred c (.element name body) { c with scope := c.scope.withElement name body }
  /-- Shapes of syllables. -/
  | shapes {shapes : List SyllableShape} (h : shapes.forM (c.shape inv) = .ok ()) :
      Accepts inv deferred c (.syllables (.shapes shapes)) c
  /-- Words are no longer divided. -/
  | clear : Accepts inv deferred c (.syllables .clear) c
  /-- Words keep their breaks. -/
  | explicit : Accepts inv deferred c (.syllables .explicit) c
  /-- A rule with a new name. -/
  | rule {r : RuleDeclaration} {n : Nat} (hname : r.name ∉ c.steps)
      (hfilter : ∀ filter ∈ r.modifiers.filter, c.scope.checkInput inv .input filter = .ok ())
      (hbody : r.body.check ⟨inv, c.scope, deferred, r.name⟩ r.modifiers
        r.modifiers.filter.isSome 0 = .ok n) :
      Accepts inv deferred c (.rule r)
        { c with
          steps := r.name :: c.steps
          cleanups := if r.cleanup then r.name :: c.cleanups else c.cleanups }
  /-- The end of a cleanup rule. -/
  | cleanupOff {name : String} (h : name ∈ c.cleanups) : Accepts inv deferred c (.cleanupOff name) c
  /-- A romanizer with a new name. -/
  | romanizer {r : RomanizerDeclaration} (hname : r.name ∉ c.steps)
      (h : c.romanizer inv deferred r = .ok ()) :
      Accepts inv deferred c (.romanizer r) { c with steps := r.name :: c.steps }

/-- A rule is accepted if its name is new and its filter and its body are accepted. -/
theorem rule_eq_ok_iff {r : RuleDeclaration} :
    c.rule inv deferred r = .ok c' ↔ c.Accepts inv deferred (.rule r) c' := by
  have hdeclared : (if r.cleanup then
        { c with steps := r.name :: c.steps, cleanups := r.name :: c.cleanups }
      else { c with steps := r.name :: c.steps }) =
        { c with
          steps := r.name :: c.steps
          cleanups := if r.cleanup then r.name :: c.cleanups else c.cleanups } := by
    split <;> rfl
  rw [rule]
  constructor
  · intro h
    obtain ⟨next, hnext, h⟩ := exists_of_bind_eq_ok h
    obtain ⟨hname, rfl⟩ := addStep_eq_ok_iff.mp hnext
    simp only [hdeclared] at h
    cases hfilter : r.modifiers.filter with
    | none =>
      rw [hfilter] at h
      obtain ⟨n, hbody, h⟩ := exists_of_bind_eq_ok h
      cases h
      exact .rule hname (by simp [hfilter]) (by rw [hfilter]; exact hbody)
    | some filter =>
      rw [hfilter] at h
      obtain ⟨⟨⟩, hown, h⟩ := exists_of_bind_eq_ok h
      obtain ⟨n, hbody, h⟩ := exists_of_bind_eq_ok h
      cases h
      exact .rule hname (by simpa [hfilter] using hown) (by rw [hfilter]; exact hbody)
  · intro h
    cases h with
    | rule hname hfilter hbody =>
      refine bind_eq_ok (addStep_eq_ok_iff.mpr ⟨hname, rfl⟩) ?_
      simp only [hdeclared]
      cases hown : r.modifiers.filter with
      | none =>
        rw [hown] at hbody
        exact bind_eq_ok hbody rfl
      | some filter =>
        rw [hown] at hbody
        exact bind_eq_ok (hfilter filter hown) (bind_eq_ok hbody rfl)

/-- A statement is accepted if it passes what it has to pass. -/
theorem accepts_iff {s : Statement} :
    c.statement inv deferred s = .ok c' ↔ c.Accepts inv deferred s c' := by
  cases s with
  | soundClass name members =>
    constructor
    · intro h
      obtain ⟨⟨⟩, hnew, h⟩ := exists_of_bind_eq_ok h
      obtain ⟨⟨⟩, hmembers, h⟩ := exists_of_bind_eq_ok h
      cases h
      exact .soundClass (checkNew_eq_ok_iff.mp hnew) hmembers
    · intro h
      cases h with
      | soundClass hnew hmembers =>
        exact bind_eq_ok (checkNew_eq_ok_iff.mpr hnew) (bind_eq_ok hmembers rfl)
  | element name body =>
    constructor
    · intro h
      obtain ⟨⟨⟩, hnew, h⟩ := exists_of_bind_eq_ok h
      obtain ⟨⟨⟩, hbody, h⟩ := exists_of_bind_eq_ok h
      cases h
      exact .element (checkNew_eq_ok_iff.mp hnew) hbody
    · intro h
      cases h with
      | element hnew hbody =>
        exact bind_eq_ok (checkNew_eq_ok_iff.mpr hnew) (bind_eq_ok hbody rfl)
  | syllables declaration =>
    cases declaration with
    | shapes shapes =>
      constructor
      · intro h
        obtain ⟨⟨⟩, hshapes, h⟩ := exists_of_bind_eq_ok h
        cases h
        exact .shapes hshapes
      · intro h
        cases h with
        | shapes hshapes => exact bind_eq_ok hshapes rfl
    | clear =>
      constructor
      · intro h
        cases h
        exact .clear
      · intro h
        cases h
        rfl
    | explicit =>
      constructor
      · intro h
        cases h
        exact .explicit
      · intro h
        cases h
        rfl
  | rule r => exact rule_eq_ok_iff
  | cleanupOff name =>
    constructor
    · intro h
      rw [statement] at h
      split at h
      · next hknown =>
        cases h
        exact .cleanupOff (by simpa using hknown)
      · cases h
    · intro h
      cases h with
      | cleanupOff hknown => rw [statement, if_pos (by simpa using hknown)]; rfl
  | romanizer r =>
    constructor
    · intro h
      obtain ⟨next, hnext, h⟩ := exists_of_bind_eq_ok h
      obtain ⟨⟨⟩, hromanizer, h⟩ := exists_of_bind_eq_ok h
      obtain ⟨hname, rfl⟩ := addStep_eq_ok_iff.mp hnext
      cases h
      exact .romanizer hname hromanizer
    · intro h
      cases h with
      | romanizer hname hromanizer =>
        exact bind_eq_ok (addStep_eq_ok_iff.mpr ⟨hname, rfl⟩) (bind_eq_ok hromanizer rfl)

end Checked

end Diachrony.Syntax
