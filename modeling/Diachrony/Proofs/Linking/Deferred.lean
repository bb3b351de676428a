import Mathlib.Data.List.Basic
import Diachrony.Linking.Program
import Diachrony.Proofs.Persists

/-!
# More deferred rules

Deferred rules are found by their names alone. So what is accepted and linked with some deferred
rules is accepted and linked alike with more of them, as long as the same rules are found under the
names there were. References are followed as far as there are deferred rules, and what is linked
within some number of steps is linked alike within more of them.
-/

namespace Diachrony.Syntax

section Checking

/-- Entries that are accepted are accepted with more deferred rules. -/
theorem RuleCheck.items_persists {c : RuleCheck} {deferred : List String}
    (h : c.deferred ⊆ deferred) (filtered : Bool) (number : Nat) (items : List Item) :
    Persists (c.items filtered number items)
      ({ c with deferred }.items filtered number items) := by
  induction items generalizing number with
  | nil => exact .refl _
  | cons item rest ih =>
    cases item with
    | expression e => exact (Persists.refl _).bind fun _ ↦ ih (number + 1)
    | reference name =>
      intro n hn
      rw [RuleCheck.items] at hn ⊢
      split at hn
      · cases hn
      · next hknown =>
        have hmem : name ∈ deferred := h (by simpa using hknown)
        rw [if_neg (by simpa using hmem)]
        exact ih number n hn

mutual

/-- A body that is accepted is accepted with more deferred rules. -/
theorem Body.check_persists {c : RuleCheck} {deferred : List String} (h : c.deferred ⊆ deferred)
    (modifiers : Modifiers) (filtered : Bool) (number : Nat) :
    (body : Body) → Persists (body.check c modifiers filtered number)
      (body.check { c with deferred } modifiers filtered number)
  | .expressions items => by
    rw [Body.check, Body.check]
    exact RuleCheck.items_persists h filtered number items
  | .block children operators => by
    rw [Body.check, Body.check]
    cases modifiers.mode with
    | some mode => exact .error
    | none =>
      refine (Persists.refl _).bind fun _ ↦ ?_
      exact Child.checkAll_persists h filtered number children

/-- Children that are accepted are accepted with more deferred rules. -/
theorem Child.checkAll_persists {c : RuleCheck} {deferred : List String}
    (h : c.deferred ⊆ deferred) (filtered : Bool) (number : Nat) :
    (children : List Child) → Persists (Child.checkAll c filtered number children)
      (Child.checkAll { c with deferred } filtered number children)
  | [] => .refl _
  | .mk body modifiers :: rest => by
    have hrest (own : Bool) := (Body.check_persists h modifiers own number body).bind
      fun number ↦ Child.checkAll_persists h filtered number rest
    rw [Child.checkAll, Child.checkAll]
    cases modifiers.filter with
    | none => exact hrest _
    | some filter => exact (Persists.refl _).bind fun _ ↦ hrest _

end

/-- A romanizer that is accepted is accepted with more deferred rules. -/
theorem Checked.romanizer_persists {deferred deferred' : List String} (h : deferred ⊆ deferred')
    (inv : Inventory) (c : Checked) (r : RomanizerDeclaration) :
    Persists (c.romanizer inv deferred r) (c.romanizer inv deferred' r) :=
  (Body.check_persists (c := ⟨inv, c.scope, deferred, r.name⟩) h {} false 0 r.body).bind
    fun _ ↦ .refl _

end Checking

/-- Whether the deferred rules of a list are found in another list, which is not shorter. -/
structure AreFoundIn (deferred deferred' : List RuleDeclaration) : Prop where
  /-- The rule of a name is the rule of that name in the other list. -/
  find? : ∀ name r, deferred.find? (·.name == name) = some r →
    deferred'.find? (·.name == name) = some r
  /-- The number of rules. -/
  length_le : deferred.length ≤ deferred'.length

namespace AreFoundIn

/-- Deferred rules are found among themselves. -/
theorem refl (deferred : List RuleDeclaration) : AreFoundIn deferred deferred :=
  ⟨fun _ _ h ↦ h, Nat.le_refl _⟩

/-- Deferred rules are found where another one with a new name has been put between them. -/
theorem insert {before after : List RuleDeclaration} {d : RuleDeclaration}
    (h : ∀ r ∈ before ++ after, r.name ≠ d.name) :
    AreFoundIn (before ++ after) (before ++ d :: after) := by
  refine ⟨fun name r hr ↦ ?_, by simp⟩
  have hskip : (d :: after).find? (·.name == name) = after.find? (·.name == name) := by
    have hfound : r.name = name := by simpa using List.find?_some hr
    have hne : d.name ≠ name := hfound ▸ (h r (List.mem_of_find?_eq_some hr)).symm
    exact List.find?_cons_of_neg (by simpa using hne)
  rwa [List.find?_append, hskip, ← List.find?_append]

variable {deferred deferred' : List RuleDeclaration} (h : AreFoundIn deferred deferred')
include h

/-- The names of the deferred rules are among the others. -/
theorem map_name_subset :
    deferred.map RuleDeclaration.name ⊆ deferred'.map RuleDeclaration.name := by
  intro name hname
  obtain ⟨r, hr, rfl⟩ := List.mem_map.mp hname
  have hsome : (deferred.find? (·.name == r.name)).isSome :=
    List.find?_isSome.mpr ⟨r, hr, beq_self_eq_true _⟩
  obtain ⟨found, hfound⟩ := Option.isSome_iff_exists.mp hsome
  have hname : found.name = r.name := by simpa using List.find?_some hfound
  rw [← hname]
  exact List.mem_map_of_mem (List.mem_of_find?_eq_some (h.find? _ _ hfound))

/-- A deferred rule that is found is found as well among the others. -/
theorem findDeferred_persists (trail : List String) (name : String) :
    Persists (findDeferred deferred trail name) (findDeferred deferred' trail name) := by
  intro r hr
  rw [findDeferred] at hr ⊢
  split at hr
  · cases hr
  · next hfresh =>
    rw [if_neg hfresh]
    split at hr
    · next found hfound =>
      rw [h.find? _ _ hfound]
      exact hr
    · cases hr

end AreFoundIn

/-- Whether what references are linked to persists in other references. -/
structure References.PersistIn (references references' : References) : Prop where
  /-- A deferred rule by itself. -/
  asRule : ∀ trail filter name,
    Persists (references.asRule trail filter name) (references'.asRule trail filter name)
  /-- The expressions of a deferred rule. -/
  inlined : ∀ trail rule number name,
    Persists (references.inlined trail rule number name)
      (references'.inlined trail rule number name)

/-- Expressions are linked alike if references are. -/
theorem RuleScope.expressions_persists {c : RuleScope} {references : References}
    (h : c.references.PersistIn references) (number : Nat) (items : List Item) :
    Persists (c.expressions number items) ({ c with references }.expressions number items) := by
  induction items generalizing number with
  | nil => exact .refl _
  | cons item rest ih =>
    cases item with
    | expression e =>
      refine (Persists.refl _).bind fun linked ↦ ?_
      exact (ih (number + 1)).bind fun _ ↦ .refl _
    | reference name =>
      refine (h.inlined c.trail c.rule number name).bind fun inlined ↦ ?_
      exact (ih inlined.2).bind fun _ ↦ .refl _

mutual

/-- A body is linked alike if references are. -/
theorem Body.link_persists {c : RuleScope} {references : References}
    (h : c.references.PersistIn references) (modifiers : Modifiers) (filter : Option Pattern)
    (number : Nat) : (body : Body) → Persists (body.link c modifiers filter number)
      (body.link { c with references } modifiers filter number)
  | .expressions items => by
    unfold Body.link
    split
    · exact (h.asRule c.trail filter _).bind fun _ ↦ .refl _
    · exact (RuleScope.expressions_persists h number _).bind fun _ ↦ .refl _
    · contradiction
  | .block children operators => by
    rw [Body.link, Body.link]
    exact (Child.linkAll_persists h filter number children).bind fun _ ↦ .refl _

/-- Children are linked alike if references are. -/
theorem Child.linkAll_persists {c : RuleScope} {references : References}
    (h : c.references.PersistIn references) (filter : Option Pattern) (number : Nat) :
    (children : List Child) → Persists (Child.linkAll c filter number children)
      (Child.linkAll { c with references } filter number children)
  | [] => .refl _
  | .mk body modifiers :: rest => by
    rw [Child.linkAll, Child.linkAll]
    refine (Persists.refl _).bind fun own ↦ ?_
    refine (Body.link_persists h modifiers own number body).bind fun linked ↦ ?_
    exact (Child.linkAll_persists h filter linked.2 rest).bind fun _ ↦ .refl _

end

/-- The body of a rule is linked alike if references are. -/
theorem RuleDeclaration.linkBody_persists {c : RuleScope} {references : References}
    (h : c.references.PersistIn references) (inherited : Option Pattern) (r : RuleDeclaration) :
    Persists (r.linkBody c inherited) (r.linkBody { c with references } inherited) := by
  refine (Persists.refl _).bind fun filter ↦ ?_
  exact (Body.link_persists h r.modifiers filter 0 r.body).bind fun _ ↦ .refl _

namespace AreFoundIn

variable {deferred deferred' : List RuleDeclaration} (h : AreFoundIn deferred deferred')
  (lang : Language) (names : Scope)
include h

/-- References are linked alike in no fewer steps. -/
theorem within_persists {steps steps' : Nat} (hsteps : steps ≤ steps') :
    (References.within lang names deferred steps).PersistIn
      (.within lang names deferred' steps') := by
  induction steps generalizing steps' with
  | zero => exact ⟨fun _ _ _ ↦ .error, fun _ _ _ _ ↦ .error⟩
  | succ steps ih =>
    obtain ⟨more, rfl⟩ : ∃ more, steps' = more + 1 := ⟨steps' - 1, by omega⟩
    have hrest := ih (Nat.le_of_succ_le_succ hsteps)
    constructor
    · intro trail filter name
      refine (h.findDeferred_persists trail name).bind fun r ↦ ?_
      exact RuleDeclaration.linkBody_persists hrest filter r
    · intro trail rule number name
      refine (h.findDeferred_persists trail name).bind fun r ↦ ?_
      cases r.body with
      | expressions items => exact RuleScope.expressions_persists hrest number items
      | block children operators => exact .error

/-- A rule is linked alike with more deferred rules. -/
theorem link_persists (r : RuleDeclaration) :
    Persists (r.link lang names deferred) (r.link lang names deferred') := by
  refine Persists.bind ?_ fun _ ↦ .refl _
  exact RuleDeclaration.linkBody_persists (h.within_persists lang names h.length_le) none r

/-- A romanizer is linked alike with more deferred rules. -/
theorem romanizer_link_persists (r : RomanizerDeclaration) :
    Persists (r.link lang names deferred) (r.link lang names deferred') := by
  refine Persists.bind ?_ fun _ ↦ .refl _
  exact Body.link_persists (h.within_persists lang names h.length_le) {} none 0 r.body

/-- An optional romanizer is linked alike with more deferred rules. -/
theorem mapM_link_persists (r : Option RomanizerDeclaration) :
    Persists (r.mapM (·.link lang names deferred)) (r.mapM (·.link lang names deferred')) := by
  cases r with
  | none => exact .refl _
  | some r => exact (h.romanizer_link_persists lang names r).map some

end AreFoundIn

end Diachrony.Syntax
