import Diachrony.Linking.Output
import Diachrony.Linking.Pattern
import Diachrony.Change.Rule

/-!
# Linking rules

A rule is linked in the scope and the language of the place where it runs. A deferred rule is linked
wherever it is referred to: a body that is nothing but the reference becomes that rule by itself,
and among other expressions its expressions take the place of the reference.

A deferred rule may not refer to itself, directly or not. The rules on the way to a reference are
its trail, and every step adds a deferred rule to the trail that was not on it, so the number of
deferred rules bounds the depth of references.
-/

namespace Diachrony.Syntax

/-- Links an expression. -/
def Scope.expression (lang : Language) (s : Scope) (e : Expression) :
    Except Fault Diachrony.Expression := do
  let pattern ← s.pattern lang .input e.source
  let output ← s.output lang e.target
  let pairing ← pattern.pair e.source.toText e.target.toText output
  let (conditions, exclusions) ← s.surroundings lang e.context
  return { pairing, conditions, exclusions, text := e.toText }

/-- How references to deferred rules are linked from the end of a trail. -/
structure References where
  /-- A deferred rule as a rule by itself, under an inherited filter. -/
  asRule (trail : List String) (filter : Option Pattern) (name : String) : Except Fault Rule
  /-- The expressions of a deferred rule inside another rule after a number of expressions, and the
  number of expressions after them. -/
  inlined (trail : List String) (rule : String) (number : Nat) (name : String) :
    Except Fault (List Diachrony.Expression × Nat)

/-- What the linking of a rule needs to know. -/
structure RuleScope where
  /-- The language in which the rule runs. -/
  language : Language
  /-- The classes and elements that are known. -/
  names : Scope
  /-- How references are linked. -/
  references : References
  /-- Name of the rule. -/
  rule : String
  /-- The rules on the way to the rule, itself included if it can be referred to. -/
  trail : List String

namespace RuleScope

/-- Links the entries of a list of expressions after a number of expressions, and gives the number
of expressions after them. -/
def expressions (c : RuleScope) (number : Nat) :
    List Item → Except Fault (List Diachrony.Expression × Nat)
  | [] => return ([], number)
  | .expression e :: rest => do
    let linked ← (c.names.expression c.language e).mapError
      (·.inExpression c.rule (number + 1) e.toText)
    let (others, number) ← c.expressions (number + 1) rest
    return (linked :: others, number)
  | .reference name :: rest => do
    let (inlined, number) ← c.references.inlined c.trail c.rule number name
    let (others, number) ← c.expressions number rest
    return (inlined ++ others, number)

/-- The filter that modifiers leave in force: what passes an inherited filter must pass their own
filter as well. -/
def filter (c : RuleScope) (inherited : Option Pattern) (modifiers : Modifiers) :
    Except Fault (Option Pattern) := do
  match modifiers.filter with
  | none => return inherited
  | some e =>
    let own ← c.names.pattern c.language .input e
    match inherited with
    | none => return some own
    | some outer => return some (.intersection outer [.mk own false])

end RuleScope

/-- The rule that the rules of a block are combined to. -/
def BlockKind.combine : BlockKind → List Rule → Rule
  | sequential, rules => .sequential rules
  | firstMatching, rules => .withinWord (.firstMatching rules)

/-- A rule as modifiers ask for it to be repeated. -/
def Modifiers.repeated (m : Modifiers) (rule : Rule) : Rule :=
  if m.propagate then .propagate rule else rule

mutual

/-- Links a body under a filter after a number of expressions, and gives the number of expressions
after it. -/
def Body.link (c : RuleScope) (modifiers : Modifiers) (filter : Option Pattern) (number : Nat) :
    Body → Except Fault (Rule × Nat)
  | .expressions [.reference name] => do
    return (.named name (← c.references.asRule c.trail filter name), number + 1)
  | .expressions items => do
    let (expressions, number) ← c.expressions number items
    return (.simple { expressions, filter, mode := modifiers.mode.getD .simultaneous }, number)
  | .block children operators => do
    let (rules, number) ← Child.linkAll c filter number children
    return ((operators.head?.getD .sequential).combine rules, number)

/-- Links the children of a block. -/
def Child.linkAll (c : RuleScope) (filter : Option Pattern) (number : Nat) :
    List Child → Except Fault (List Rule × Nat)
  | [] => return ([], number)
  | .mk body modifiers :: rest => do
    let own ← c.filter filter modifiers
    let (rule, number) ← body.link c modifiers own number
    let (others, number) ← Child.linkAll c filter number rest
    return (modifiers.repeated rule :: others, number)

end

/-- Links the body of a rule with its modifiers under an inherited filter. -/
def RuleDeclaration.linkBody (c : RuleScope) (inherited : Option Pattern) (r : RuleDeclaration) :
    Except Fault Rule := do
  let filter ← c.filter inherited r.modifiers
  let (rule, _) ← r.body.link c r.modifiers filter 0
  return r.modifiers.repeated rule

/-- The fault of a reference that has no use where it stands. -/
def illegalReference (construct name : String) : Fault :=
  .of (.illegalStructure .input construct (":" ++ name))

/-- The deferred rule of some name, unless it is on the trail. -/
def findDeferred (deferred : List RuleDeclaration) (trail : List String) (name : String) :
    Except Fault RuleDeclaration :=
  if trail.contains name then throw (illegalReference "A recursive rule reference" name)
  else match deferred.find? (·.name == name) with
    | some r => return r
    | none => throw (.of (.undefinedName "deferred rule" name))

/-- How references are linked as far as a number of steps. -/
def References.within (lang : Language) (names : Scope) (deferred : List RuleDeclaration) :
    Nat → References
  | 0 =>
    let refuse (trail : List String) (name : String) : Fault :=
      match findDeferred deferred trail name with
      | .error fault => fault
      | .ok _ => illegalReference "A recursive rule reference" name
    { asRule := fun trail _ name ↦ throw (refuse trail name)
      inlined := fun trail _ _ name ↦ throw (refuse trail name) }
  | steps + 1 =>
    let references := within lang names deferred steps
    { asRule := fun trail filter name ↦ do
        let r ← findDeferred deferred trail name
        r.linkBody ⟨lang, names, references, r.name, r.name :: trail⟩ filter
      inlined := fun trail rule number name ↦ do
        let r ← findDeferred deferred trail name
        match r.body with
        | .expressions items =>
          RuleScope.expressions ⟨lang, names, references, rule, r.name :: trail⟩ number items
        | .block .. =>
          throw (illegalReference "A block reference among other expressions" name) }

/-- How references are linked. -/
def References.of (lang : Language) (names : Scope) (deferred : List RuleDeclaration) :
    References :=
  .within lang names deferred deferred.length

/-- Links a rule. -/
def RuleDeclaration.link (lang : Language) (names : Scope) (deferred : List RuleDeclaration)
    (r : RuleDeclaration) : Except Fault NamedRule := do
  let references := References.of lang names deferred
  return ⟨r.name, ← r.linkBody ⟨lang, names, references, r.name, [r.name]⟩ none⟩

/-- Links a romanizer. -/
def RomanizerDeclaration.link (lang : Language) (names : Scope) (deferred : List RuleDeclaration)
    (r : RomanizerDeclaration) : Except Fault NamedRule := do
  let references := References.of lang names deferred
  let (rule, _) ← r.body.link ⟨lang, names, references, r.name, []⟩ {} none 0
  return ⟨r.name, rule⟩

end Diachrony.Syntax
