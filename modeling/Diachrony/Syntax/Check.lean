import Diachrony.Inventory.Reading
import Diachrony.Syntax.Scope
import Diachrony.Syntax.Text

/-!
# Checking programs

A program is checked before any of it is linked, and the first mistake is reported. Names of classes
and elements are known from their declaration on; deferred rules may be referred to from anywhere.

An element that refers to a named element is checked as if the named element stood in its place.
-/

namespace Diachrony.Syntax

/-- Refuses joints that can not stand together. -/
def checkJoints : List Joint → Except Fault Unit
  | [] => return ()
  | first :: rest =>
    match rest.find? fun joint ↦ !joint.agreesWith first with
    | some second => throw (.of (.mixedInterfix first.toText second.toText))
    | none => return ()

/-- The fault of an element that has no meaning in a part of a rule. -/
def illegal (part : RulePart) (construct : String) (e : Element) : Fault :=
  .of (.illegalStructure part construct e.toText)

/-- Refuses the matrix of an output with an undeclared name or with an assertion that only has a
meaning in a pattern. -/
def checkOutputMatrix (inv : Inventory) (m : Matrix) : Except Fault Unit := do
  inv.checkMatrix m
  match Matrix.patternOnly? m with
  | some a => throw (.of (.invalidOutputMatrix m.toText a.toText))
  | none => return ()

mutual

/-- Refuses references to unknown names. -/
def Element.checkNames (scope : Scope) : Element → Except Fault Unit
  | .reference name =>
    if scope.declares name then return ()
    else throw (Scope.unknown name)
  | .sequence items | .alternative items | .joined items _ => Element.checkAllNames scope items
  | .negated inner | .repeater inner _ | .capture inner _ => inner.checkNames scope
  | .lookaround inner conditions exclusions => do
    inner.checkNames scope
    Environment.checkAllNames scope conditions
    Environment.checkAllNames scope exclusions
  | _ => return ()

/-- Refuses references to unknown names in a list. -/
def Element.checkAllNames (scope : Scope) : List Element → Except Fault Unit
  | [] => return ()
  | e :: rest => do
    e.checkNames scope
    Element.checkAllNames scope rest

/-- Refuses references to unknown names in environments. -/
def Environment.checkAllNames (scope : Scope) : List Environment → Except Fault Unit
  | [] => return ()
  | .mk none none :: rest => Environment.checkAllNames scope rest
  | .mk (some e) none :: rest => do
    e.checkNames scope
    Environment.checkAllNames scope rest
  | .mk none (some e) :: rest => do
    e.checkNames scope
    Environment.checkAllNames scope rest
  | .mk (some before) (some after) :: rest => do
    before.checkNames scope
    after.checkNames scope
    Environment.checkAllNames scope rest

end

mutual

/-- Checks the shape of a syllable, which may only use plain patterns. `follow` checks what a name
stands for. -/
def Element.checkShape (inv : Inventory) (follow : String → Except Fault Unit) :
    Element → Except Fault Unit
  | .sequence items | .alternative items => Element.checkShapes inv follow items
  | .repeater inner _ | .negated inner => inner.checkShape inv follow
  | .joined elements joints => do
    checkJoints joints
    Element.checkShapes inv follow elements
  | .matrix values => inv.checkMatrix values
  | .reference name => follow name
  | .text _ _ | .empty => return ()
  | e => throw (illegal .input "A context-dependent element" e)

/-- Checks the shapes of a list. -/
def Element.checkShapes (inv : Inventory) (follow : String → Except Fault Unit) :
    List Element → Except Fault Unit
  | [] => return ()
  | e :: rest => do
    e.checkShape inv follow
    Element.checkShapes inv follow rest

end

/-- Where an element stands in its environment. -/
structure Edge where
  /-- Whether nothing stands before it. -/
  atStart : Bool
  /-- Whether nothing stands behind it. -/
  atEnd : Bool
deriving DecidableEq, Repr

namespace Edge

/-- The place of a whole side before a span. -/
def before : Edge := ⟨true, false⟩

/-- The place of a whole side after a span. -/
def after : Edge := ⟨false, true⟩

/-- A place that is at no edge. -/
def interior : Edge := ⟨false, false⟩

/-- Whether the element is at an edge. -/
def isOutermost (e : Edge) : Bool := e.atStart || e.atEnd

/-- The place of an item of a sequence. -/
def ofItem (e : Edge) (isFirst isLast : Bool) : Edge := ⟨e.atStart && isFirst, e.atEnd && isLast⟩

end Edge

/-- Checks what a name stands for, at a place of an environment. -/
abbrev FollowSide := String → Edge → Environment → Except Fault Unit

mutual

/-- Checks an element of an environment. -/
def Element.checkSide (inv : Inventory) (follow : FollowSide) (edge : Edge) (env : Environment) :
    Element → Except Fault Unit
  | .wordBoundary =>
    if edge.isOutermost then return ()
    else throw (.of (.interiorWordBoundary env.toText))
  | .sequence items => Element.checkSides inv follow edge env true items
  | .alternative options => Element.checkEachSide inv follow edge env options
  | .repeater inner bounds => do
    if edge.isOutermost && !bounds.isFixedCount then
      throw (.of (.peripheralRepeater (Element.repeater inner bounds).toText env.toText
        (bounds.suggestion inner)))
    inner.checkSide inv follow edge env
  | .capture inner _ => inner.checkSide inv follow edge env
  | .negated inner => inner.checkSide inv follow .interior env
  | .joined elements joints => do
    checkJoints joints
    if joints.contains .transforming then
      throw (illegal .environment "A transformation" (.joined elements joints))
    Element.checkEachSide inv follow edge env elements
  | .lookaround inner conditions exclusions => do
    inner.checkSide inv follow edge env
    Environment.checkAll inv follow conditions
    Environment.checkAll inv follow exclusions
  | .matrix values => inv.checkMatrix values
  | .reference name => follow name edge env
  | _ => return ()

/-- Checks elements one after the other; the last of them ends where the whole ends. -/
def Element.checkSides (inv : Inventory) (follow : FollowSide) (edge : Edge) (env : Environment)
    (isFirst : Bool) : List Element → Except Fault Unit
  | [] => return ()
  | e :: rest => do
    e.checkSide inv follow (edge.ofItem isFirst rest.isEmpty) env
    Element.checkSides inv follow edge env false rest

/-- Checks elements that stand in one place. -/
def Element.checkEachSide (inv : Inventory) (follow : FollowSide) (edge : Edge)
    (env : Environment) : List Element → Except Fault Unit
  | [] => return ()
  | e :: rest => do
    e.checkSide inv follow edge env
    Element.checkEachSide inv follow edge env rest

/-- Checks environments. -/
def Environment.checkAll (inv : Inventory) (follow : FollowSide) :
    List Environment → Except Fault Unit
  | [] => return ()
  | .mk none none :: rest => Environment.checkAll inv follow rest
  | .mk (some e) none :: rest => do
    e.checkSide inv follow .before (.mk (some e) none)
    Environment.checkAll inv follow rest
  | .mk none (some e) :: rest => do
    e.checkSide inv follow .after (.mk none (some e))
    Environment.checkAll inv follow rest
  | .mk (some before) (some after) :: rest => do
    before.checkSide inv follow .before (.mk (some before) (some after))
    after.checkSide inv follow .after (.mk (some before) (some after))
    Environment.checkAll inv follow rest

end

namespace Scope

/-- Checks what a name stands for. A class has nothing to check, for its members are literals. -/
def follow (visit : (String → Except Fault Unit) → Element → Except Fault Unit) (s : Scope) :
    String → Except Fault Unit :=
  s.resolve (fun name ↦ throw (unknown name)) (fun _ ↦ return ()) visit

/-- Checks what a name stands for, at a place of an environment. -/
def followSide (inv : Inventory) (s : Scope) : FollowSide :=
  s.resolve (fun name _ _ ↦ throw (unknown name))
    (fun _ _ _ ↦ return ()) fun follow body edge env ↦ body.checkSide inv follow edge env

end Scope

/-- Checks a context. -/
def Context.check (inv : Inventory) (scope : Scope) (c : Context) : Except Fault Unit := do
  Environment.checkAll inv (scope.followSide inv) c.conditions
  Environment.checkAll inv (scope.followSide inv) c.exclusions

mutual

/-- Checks a pattern. `follow` checks what a name stands for, and `followSide` does so in an
environment. -/
def Element.checkInput (inv : Inventory) (followSide : FollowSide)
    (follow : String → Except Fault Unit) (part : RulePart) : Element → Except Fault Unit
  | .text literal _ =>
    if part = .filteredInput ∧ 1 < (inv.readWord literal.toList false).length then
      throw (.of (.illegalStructure part "A multi-segment literal" literal))
    else return ()
  | .matrix values => inv.checkMatrix values
  | .reference name => follow name
  | .sequence items | .alternative items => Element.checkInputs inv followSide follow part items
  | .joined elements joints => do
    checkJoints joints
    if joints.contains .transforming then
      throw (illegal part "A transformation" (.joined elements joints))
    Element.checkInputs inv followSide follow part elements
  | .repeater inner bounds => do
    if part = .filteredInput then throw (illegal part "A repeater" (.repeater inner bounds))
    inner.checkInput inv followSide follow part
  | .negated inner | .capture inner _ => inner.checkInput inv followSide follow part
  | .lookaround inner conditions exclusions => do
    inner.checkInput inv followSide follow part
    Environment.checkAll inv followSide conditions
    Environment.checkAll inv followSide exclusions
  | .wordBoundary => throw (.of (.illegalStructure part "A word boundary" "$"))
  | .betweenWords =>
    if part = .filteredInput then throw (.of (.illegalStructure part "A word gap" "$$"))
    else return ()
  | _ => return ()

/-- Checks the patterns of a list. -/
def Element.checkInputs (inv : Inventory) (followSide : FollowSide)
    (follow : String → Except Fault Unit) (part : RulePart) : List Element → Except Fault Unit
  | [] => return ()
  | e :: rest => do
    e.checkInput inv followSide follow part
    Element.checkInputs inv followSide follow part rest

end

mutual

/-- Checks an output. `follow` checks what a name stands for. -/
def Element.checkOutput (inv : Inventory) (follow : String → Except Fault Unit) :
    Element → Except Fault Unit
  | .matrix values => checkOutputMatrix inv values
  | .reference name => follow name
  | .sequence items | .alternative items => Element.checkOutputs inv follow items
  | .joined elements joints => do
    checkJoints joints
    if joints.any (· ≠ .transforming) then
      throw (illegal .output "An intersection" (.joined elements joints))
    Element.checkOutputs inv follow elements
  | .text _ _ | .empty | .betweenWords | .syllableBoundary | .captureReference _ true =>
    return ()
  | .captureReference n false =>
    throw (illegal .output "An inexact capture reference" (.captureReference n false))
  | .negated e => throw (illegal .output "A negation" (.negated e))
  | .repeater e bounds => throw (illegal .output "A repeater" (.repeater e bounds))
  | .capture e n => throw (illegal .output "A capture" (.capture e n))
  | .lookaround e conditions exclusions =>
    throw (illegal .output "An environment" (.lookaround e conditions exclusions))
  | .wordBoundary => throw (illegal .output "A word boundary" .wordBoundary)
  | .anySyllable => throw (illegal .output "A syllable" .anySyllable)

/-- Checks the outputs of a list. -/
def Element.checkOutputs (inv : Inventory) (follow : String → Except Fault Unit) :
    List Element → Except Fault Unit
  | [] => return ()
  | e :: rest => do
    e.checkOutput inv follow
    Element.checkOutputs inv follow rest

end

namespace Scope

/-- Checks an element as the pattern of a part of a rule. -/
def checkInput (inv : Inventory) (s : Scope) (part : RulePart) (e : Element) :
    Except Fault Unit :=
  e.checkInput inv (s.followSide inv)
    (s.follow fun follow body ↦ body.checkInput inv (s.followSide inv) follow part) part

/-- Checks an element as an output. -/
def checkOutput (inv : Inventory) (s : Scope) (e : Element) : Except Fault Unit :=
  e.checkOutput inv (s.follow fun follow body ↦ body.checkOutput inv follow)

/-- Checks an element as the shape of a syllable. -/
def checkShape (inv : Inventory) (s : Scope) (e : Element) : Except Fault Unit :=
  e.checkShape inv (s.follow fun follow body ↦ body.checkShape inv follow)

end Scope

/-- Checks an expression. -/
def Expression.check (inv : Inventory) (scope : Scope) (filtered : Bool) (e : Expression) :
    Except Fault Unit := do
  scope.checkInput inv (if filtered then .filteredInput else .input) e.source
  scope.checkOutput inv e.target
  e.context.check inv scope

/-- What the checks of a rule need to know. -/
structure RuleCheck where
  /-- Features and symbols. -/
  inventory : Inventory
  /-- The classes and elements that are known. -/
  scope : Scope
  /-- The names of all deferred rules. -/
  deferred : List String
  /-- Name of the rule. -/
  rule : String

/-- Checks the entries of a list of expressions after a number of expressions, and gives the number
of expressions after them. -/
def RuleCheck.items (c : RuleCheck) (filtered : Bool) (number : Nat) :
    List Item → Except Fault Nat
  | [] => return number
  | .expression e :: rest => do
    (e.check c.inventory c.scope filtered).mapError
      (·.inExpression c.rule (number + 1) e.toText)
    c.items filtered (number + 1) rest
  | .reference name :: rest => do
    if !c.deferred.contains name then throw (.of (.undefinedName "deferred rule" name))
    c.items filtered number rest

/-- Refuses the operators of a block that combine its children in two ways. -/
def checkOperators : List BlockKind → Except Fault Unit
  | [] => return ()
  | first :: rest =>
    match rest.find? (· ≠ first) with
    | some second => throw (.of (.mixedBlock first.toText second.toText))
    | none => return ()

mutual

/-- Checks a body with its modifiers after a number of expressions, and gives the number of
expressions after it. -/
def Body.check (c : RuleCheck) (modifiers : Modifiers) (filtered : Bool) (number : Nat) :
    Body → Except Fault Nat
  | .expressions items => c.items filtered number items
  | .block children operators => do
    if let some mode := modifiers.mode then
      throw (.of (.illegalNestedModifier mode.toText "a block"))
    checkOperators operators
    Child.checkAll c filtered number children

/-- Checks the children of a block. -/
def Child.checkAll (c : RuleCheck) (filtered : Bool) (number : Nat) :
    List Child → Except Fault Nat
  | [] => return number
  | .mk body modifiers :: rest => do
    if let some filter := modifiers.filter then c.scope.checkInput c.inventory .input filter
    let number ← body.check c modifiers (filtered || modifiers.filter.isSome) number
    Child.checkAll c filtered number rest

end

/-- What has been declared so far. -/
structure Checked where
  /-- The classes and elements that are known. -/
  scope : Scope := []
  /-- The names of rules and romanizers. -/
  steps : List String := []
  /-- The names of cleanup rules. -/
  cleanups : List String := []

namespace Checked

/-- Refuses a name that a class or an element has. -/
def checkNew (c : Checked) (what name : String) : Except Fault Unit :=
  if c.scope.declares name then throw (.of (.duplicateName what name)) else return ()

/-- Adds the name of a rule or a romanizer. -/
def addStep (c : Checked) (name : String) : Except Fault Checked :=
  if c.steps.contains name then throw (.of (.duplicateName "rule" name))
  else return { c with steps := name :: c.steps }

/-- Refuses a member that is neither a literal nor a known class. -/
def checkMember (c : Checked) : Element → Except Fault Unit
  | .text _ _ => return ()
  | .reference name =>
    if (c.scope.members? name).isSome then return ()
    else throw (.of (.undefinedName "class" name))
  | e => throw (illegal .input "A class member" e)

/-- Checks a romanizer. -/
def romanizer (inv : Inventory) (deferred : List String) (c : Checked)
    (r : RomanizerDeclaration) : Except Fault Unit := do
  let _ ← r.body.check ⟨inv, c.scope, deferred, r.name⟩ {} false 0

/-- Checks the shape of a syllable. -/
def shape (inv : Inventory) (c : Checked) (s : SyllableShape) : Except Fault Unit := do
  c.scope.checkShape inv s.element
  if let some m := s.matrix then checkOutputMatrix inv m
  s.context.check inv c.scope

/-- Checks a rule. -/
def rule (inv : Inventory) (deferred : List String) (c : Checked) (r : RuleDeclaration) :
    Except Fault Checked := do
  let c ← c.addStep r.name
  let c := if r.cleanup then { c with cleanups := r.name :: c.cleanups } else c
  if let some filter := r.modifiers.filter then c.scope.checkInput inv .input filter
  let _ ← r.body.check ⟨inv, c.scope, deferred, r.name⟩ r.modifiers r.modifiers.filter.isSome 0
  return c

/-- Checks a statement after others. -/
def statement (inv : Inventory) (deferred : List String) (c : Checked) :
    Statement → Except Fault Checked
  | .soundClass name members => do
    c.checkNew "class" name
    members.forM c.checkMember
    return { c with scope := c.scope.withClass name members }
  | .element name body => do
    c.checkNew "element" name
    body.checkNames c.scope
    return { c with scope := c.scope.withElement name body }
  | .syllables (.shapes shapes) => do
    shapes.forM (c.shape inv)
    return c
  | .syllables _ => return c
  | .rule r => c.rule inv deferred r
  | .cleanupOff name =>
    if c.cleanups.contains name then return c
    else throw (.of (.undefinedName "cleanup rule" name))
  | .romanizer r => do
    let c ← c.addStep r.name
    c.romanizer inv deferred r
    return c

end Checked

/-- Refuses a program for its first mistake. -/
def Program.check (inv : Inventory) (p : Program) : Except Fault Unit := do
  let deferred := p.deferredRules.map RuleDeclaration.name
  p.deromanizer.toList.forM (Checked.romanizer inv deferred {})
  let c ← p.statements.foldlM (Checked.statement inv deferred) {}
  p.romanizer.toList.forM (c.romanizer inv deferred)

end Diachrony.Syntax
