import Diachrony.Proofs.Change.Firing
import Diachrony.Proofs.Change.Idle
import Diachrony.Proofs.Linking.Scopes

/-!
# Bodies at different places

A body may be linked at two places of a program: in a scope that has grown, under another name,
behind other expressions, on another trail. If it can be linked at both, the two rules act alike.
Names, numbers and trails only have a part in faults, and of a reference only what it writes is
seen, for it stands under a name. Words are not divided into syllables here.
-/

namespace Diachrony.Syntax

/-- Links a child of a block, and gives the number of expressions after it. -/
def Child.link (c : RuleScope) (filter : Option Pattern) (number : Nat) :
    Child → Except Fault (Rule × Nat)
  | .mk body modifiers => do
    let own ← c.filter filter modifiers
    let (rule, number) ← body.link c modifiers own number
    return (modifiers.repeated rule, number)

/-- Children are linked one after the other. -/
theorem Child.linkAll_cons (c : RuleScope) (filter : Option Pattern) (number : Nat) (child : Child)
    (rest : List Child) :
    Child.linkAll c filter number (child :: rest) = (do
      let (rule, number) ← child.link c filter number
      let (others, number) ← Child.linkAll c filter number rest
      return (rule :: others, number)) := by
  obtain ⟨body, modifiers⟩ := child
  rw [linkAll, link]
  cases c.filter filter modifiers with
  | error fault => rfl
  | ok own =>
    simp only [bind, Except.bind]
    cases body.link c modifiers own number with
    | error fault => rfl
    | ok linked => rfl

/-- The body of a rule is linked as a child of a block. -/
theorem RuleDeclaration.linkBody_eq (c : RuleScope) (inherited : Option Pattern)
    (r : RuleDeclaration) :
    r.linkBody c inherited = Prod.fst <$> (Child.mk r.body r.modifiers).link c inherited 0 := by
  rw [linkBody, Child.link]
  cases c.filter inherited r.modifiers with
  | error fault => rfl
  | ok own =>
    simp only [bind, Except.bind]
    cases r.body.link c r.modifiers own 0 with
    | error fault => rfl
    | ok linked => rfl

section Declarations

variable (lang : Language) (names : Scope) (deferred : List RuleDeclaration)

/-- A rule is linked as a child of a block, under its name. -/
theorem RuleDeclaration.link_eq (r : RuleDeclaration) :
    r.link lang names deferred = (fun linked ↦ ⟨r.name, linked.1⟩) <$>
      (Child.mk r.body r.modifiers).link ⟨lang, names, .of lang names deferred, r.name, [r.name]⟩
        none 0 := by
  rw [link, linkBody_eq]
  cases (Child.mk r.body r.modifiers).link
    ⟨lang, names, .of lang names deferred, r.name, [r.name]⟩ none 0 with
  | error fault => rfl
  | ok linked => rfl

variable {lang names deferred} in
/-- A linked rule keeps its name. -/
theorem RuleDeclaration.name_of_link {r : RuleDeclaration} {linked : NamedRule}
    (h : r.link lang names deferred = .ok linked) : linked.name = r.name := by
  obtain ⟨rule, -, h⟩ := exists_of_bind_eq_ok h
  cases h
  rfl

/-- A romanizer is linked as a child of a block without modifiers, under its name. -/
theorem RomanizerDeclaration.link_eq (r : RomanizerDeclaration) :
    r.link lang names deferred = (fun linked ↦ ⟨r.name, linked.1⟩) <$>
      (Child.mk r.body {}).link ⟨lang, names, .of lang names deferred, r.name, []⟩ none 0 := by
  rw [link, Child.link]
  show (r.body.link _ {} none 0 >>= _) = _ <$> (r.body.link _ {} none 0 >>= _)
  cases r.body.link ⟨lang, names, .of lang names deferred, r.name, []⟩ {} none 0 with
  | error fault => rfl
  | ok linked => rfl

end Declarations

/-- Whether references are linked alike, as far as rules that run in some language can tell: to
rules that act alike under names, and to the same expressions but for idle ones. -/
structure References.Resembles (lang : Language) (references references' : References) :
    Prop where
  /-- A deferred rule by itself. -/
  asRule : ∀ trail trail' filter name, Correspond (Rule.StandsLike lang)
    (references.asRule trail filter name) (references'.asRule trail' filter name)
  /-- The expressions of a deferred rule. -/
  inlined : ∀ trail trail' rule rule' number number' name,
    Correspond
      (fun linked linked' ↦
        Diachrony.Expression.active linked.1 = Diachrony.Expression.active linked'.1)
      (references.inlined trail rule number name) (references'.inlined trail' rule' number' name)

/-- Whether the same is known at two places, but for names that are declared between them, and
references are linked alike as far as rules that run in some language can tell. -/
structure RuleScope.Resembles (lang : Language) (c c' : RuleScope) : Prop where
  /-- Patterns and outputs are linked in the same language. -/
  language : c'.language = c.language
  /-- The scope has grown. -/
  names : c.names.GrowsTo c'.names
  /-- References are linked alike. -/
  references : c.references.Resembles lang c'.references

namespace RuleScope.Resembles

variable {lang : Language} {c c' : RuleScope} (h : c.Resembles lang c')
include h

/-- Expressions that are linked at both places are the same but for idle ones. -/
theorem expressions (number number' : Nat) (items : List Item) :
    Correspond
      (fun linked linked' ↦
        Diachrony.Expression.active linked.1 = Diachrony.Expression.active linked'.1)
      (c.expressions number items) (c'.expressions number' items) := by
  induction items generalizing number number' with
  | nil => exact .ok rfl
  | cons item rest ih =>
    cases item with
    | expression e =>
      rw [RuleScope.expressions, RuleScope.expressions, h.language]
      have hexpression := Correspond.of_persists (h.names.expression_persists c.language e)
      refine (hexpression.mapError _ _).bind ?_
      rintro linked _ rfl
      refine (ih (number + 1) (number' + 1)).bind fun others others' hothers ↦ .ok ?_
      show Diachrony.Expression.active ([linked] ++ others.1) =
        Diachrony.Expression.active ([linked] ++ others'.1)
      rw [Diachrony.Expression.active_append, Diachrony.Expression.active_append, hothers]
    | reference name =>
      rw [RuleScope.expressions, RuleScope.expressions]
      have hinlined := h.references.inlined c.trail c'.trail c.rule c'.rule number number' name
      refine hinlined.bind fun linked linked' hlinked ↦ ?_
      refine (ih linked.2 linked'.2).bind fun others others' hothers ↦ .ok ?_
      show Diachrony.Expression.active (linked.1 ++ others.1) =
        Diachrony.Expression.active (linked'.1 ++ others'.1)
      rw [Diachrony.Expression.active_append, Diachrony.Expression.active_append, hlinked, hothers]

/-- A filter that is linked at both places is the same. -/
theorem filter (inherited : Option Pattern) (modifiers : Modifiers) :
    Correspond Eq (c.filter inherited modifiers) (c'.filter inherited modifiers) := by
  rw [RuleScope.filter, RuleScope.filter, h.language]
  cases modifiers.filter with
  | none => exact .ok rfl
  | some e =>
    refine (Correspond.of_persists (h.names.pattern_persists c.language .input e)).bind ?_
    rintro own _ rfl
    cases inherited with
    | none => exact .ok rfl
    | some outer => exact .ok rfl

end RuleScope.Resembles

/-- Whether references are linked to rules that write alike, and to the same expressions. -/
structure References.Corresponds (lang : Language) (references references' : References) :
    Prop where
  /-- A deferred rule by itself. -/
  asRule : ∀ trail trail' filter name, Correspond (Rule.WritesLike lang)
    (references.asRule trail filter name) (references'.asRule trail' filter name)
  /-- The expressions of a deferred rule. -/
  inlined : ∀ trail trail' rule rule' number number' name,
    Correspond (fun linked linked' ↦ linked.1 = linked'.1)
      (references.inlined trail rule number name) (references'.inlined trail' rule' number' name)

/-- Whether the same is known at two places, but for names that are declared between them. -/
structure RuleScope.Corresponds (c c' : RuleScope) : Prop where
  /-- The language is the same. -/
  language : c'.language = c.language
  /-- Words are not divided. -/
  undivided : c.language.syllabifier = none
  /-- The scope has grown. -/
  names : c.names.GrowsTo c'.names
  /-- References are linked alike. -/
  references : c.references.Corresponds c.language c'.references

namespace RuleScope.Corresponds

variable {c c' : RuleScope} (h : c.Corresponds c')
include h

/-- Places that correspond resemble each other. -/
theorem resembles : c.Resembles c.language c' := by
  refine ⟨h.language, h.names, fun trail trail' filter name ↦ ?_, ?_⟩
  · refine (h.references.asRule trail trail' filter name).mono fun _ _ hrule ↦ ?_
    exact hrule.standsLike h.undivided
  · intro trail trail' rule rule' number number' name
    refine (h.references.inlined trail trail' rule rule' number number' name).mono ?_
    exact fun _ _ hlinked ↦ congrArg Diachrony.Expression.active hlinked

/-- Expressions that are linked at both places are the same. -/
theorem expressions (number number' : Nat) (items : List Item) :
    Correspond (fun linked linked' ↦ linked.1 = linked'.1)
      (c.expressions number items) (c'.expressions number' items) := by
  induction items generalizing number number' with
  | nil => exact .ok rfl
  | cons item rest ih =>
    cases item with
    | expression e =>
      rw [RuleScope.expressions, RuleScope.expressions, h.language]
      have hexpression := Correspond.of_persists (h.names.expression_persists c.language e)
      refine (hexpression.mapError _ _).bind fun linked linked' hlinked ↦ ?_
      refine (ih (number + 1) (number' + 1)).bind fun others others' hothers ↦ .ok ?_
      exact congrArg₂ List.cons hlinked hothers
    | reference name =>
      rw [RuleScope.expressions, RuleScope.expressions]
      have hinlined := h.references.inlined c.trail c'.trail c.rule c'.rule number number' name
      refine hinlined.bind fun linked linked' hlinked ↦ ?_
      refine (ih linked.2 linked'.2).bind fun others others' hothers ↦ .ok ?_
      exact congrArg₂ List.append hlinked hothers

/-- A filter that is linked at both places is the same. -/
theorem filter (inherited : Option Pattern) (modifiers : Modifiers) :
    Correspond Eq (c.filter inherited modifiers) (c'.filter inherited modifiers) :=
  h.resembles.filter inherited modifiers

end RuleScope.Corresponds

/-- A rule is repeated as rules that act like it are. -/
theorem Modifiers.repeated_actsLike {lang : Language} {r s : Rule} (h : Rule.ActsLike lang r s)
    (m : Modifiers) : Rule.ActsLike lang (m.repeated r) (m.repeated s) := by
  rw [Modifiers.repeated, Modifiers.repeated]
  split
  · exact h.propagate
  · exact h

/-- Children whose operators do not choose are combined in turn. -/
theorem BlockKind.getD_head?_of_ne {operators : List BlockKind}
    (h : operators.head? ≠ some .firstMatching) :
    operators.head?.getD .sequential = .sequential := by
  cases hhead : operators.head? with
  | none => rfl
  | some kind =>
    cases kind with
    | sequential => rfl
    | firstMatching => exact absurd hhead h

/-- Rules are combined as rules that act like them are. -/
theorem BlockKind.combine_actsLike {lang : Language} {rules rules' : List Rule}
    (h : List.Forall₂ (Rule.ActsLike lang) rules rules') (kind : BlockKind) :
    Rule.ActsLike lang (kind.combine rules) (kind.combine rules') := by
  cases kind with
  | sequential => exact .sequential h
  | firstMatching => exact .withinWord (.firstMatching h)

section Resembling

variable {lang : Language} {c c' : RuleScope} (h : c.Resembles lang c')
include h

mutual

/-- The rules to which a body is linked at two places that resemble each other act alike. -/
theorem Body.link_resembles (modifiers : Modifiers) (filter : Option Pattern)
    (number number' : Nat) :
    (body : Body) → Correspond (fun linked linked' ↦ Rule.ActsLike lang linked.1 linked'.1)
      (body.link c modifiers filter number) (body.link c' modifiers filter number')
  | .expressions items => by
    unfold Body.link
    split
    · next name _ =>
      refine (h.references.asRule c.trail c'.trail filter name).bind fun rule rule' hrule ↦ .ok ?_
      exact hrule name
    · refine (h.expressions number number' _).bind fun linked linked' hlinked ↦ .ok ?_
      exact .simple (SimpleRule.apply_eq_of_active_eq lang
        { expressions := [], filter, mode := modifiers.mode.getD .simultaneous } hlinked)
    · contradiction
  | .block children operators => by
    rw [Body.link, Body.link]
    refine (Child.linkAll_resembles filter number number' children).bind
      fun linked linked' hlinked ↦ .ok ?_
    exact BlockKind.combine_actsLike hlinked _

/-- The rules to which children are linked at two places that resemble each other act alike. -/
theorem Child.linkAll_resembles (filter : Option Pattern) (number number' : Nat) :
    (children : List Child) →
      Correspond (fun linked linked' ↦ List.Forall₂ (Rule.ActsLike lang) linked.1 linked'.1)
        (Child.linkAll c filter number children) (Child.linkAll c' filter number' children)
  | [] => .ok .nil
  | .mk body modifiers :: rest => by
    rw [Child.linkAll, Child.linkAll]
    refine (h.filter filter modifiers).bind ?_
    rintro own _ rfl
    refine (Body.link_resembles modifiers own number number' body).bind
      fun linked linked' hlinked ↦ ?_
    refine (Child.linkAll_resembles filter linked.2 linked'.2 rest).bind
      fun others others' hothers ↦ .ok ?_
    exact .cons (modifiers.repeated_actsLike hlinked) hothers

end

/-- The rules to which a child is linked at two places that resemble each other act alike. -/
theorem Child.link_resembles (filter : Option Pattern) (number number' : Nat) (child : Child) :
    Correspond (fun linked linked' ↦ Rule.ActsLike lang linked.1 linked'.1)
      (child.link c filter number) (child.link c' filter number') := by
  obtain ⟨body, modifiers⟩ := child
  refine (h.filter filter modifiers).bind ?_
  rintro own _ rfl
  refine (Body.link_resembles h modifiers own number number' body).bind
    fun linked linked' hlinked ↦ .ok ?_
  exact modifiers.repeated_actsLike hlinked

end Resembling

/-- The rules to which children are linked at two places act alike. -/
theorem Child.linkAll_corresponds {c c' : RuleScope} (h : c.Corresponds c')
    (filter : Option Pattern) (number number' : Nat) (children : List Child) :
    Correspond (fun linked linked' ↦ List.Forall₂ (Rule.ActsLike c.language) linked.1 linked'.1)
      (Child.linkAll c filter number children) (Child.linkAll c' filter number' children) :=
  Child.linkAll_resembles h.resembles filter number number' children

/-- The rules to which a child is linked at two places act alike. -/
theorem Child.link_corresponds {c c' : RuleScope} (h : c.Corresponds c') (filter : Option Pattern)
    (number number' : Nat) (child : Child) :
    Correspond (fun linked linked' ↦ Rule.ActsLike c.language linked.1 linked'.1)
      (child.link c filter number) (child.link c' filter number') :=
  Child.link_resembles h.resembles filter number number' child

end Diachrony.Syntax
