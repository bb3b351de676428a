import Diachrony.Syntax.Element
import Diachrony.Syntax.MatchMode

/-!
# Programs

A program is a list of statements: classes and named elements, rules, changes of the division into
syllables, and romanizers. A deromanizer may come before them and a romanizer after them.
-/

namespace Diachrony.Syntax

/-- A pattern, what takes its place, and where. -/
structure Expression where
  /-- What is matched. -/
  source : Element
  /-- What takes its place. -/
  target : Element
  /-- Where it applies. -/
  context : Context := {}

/-- An entry of a list of expressions. -/
inductive Item where
  /-- An expression. -/
  | expression (e : Expression)
  /-- The expressions of a deferred rule. -/
  | reference (name : String)

/-- How the children of a block are combined. -/
inductive BlockKind where
  /-- All children in order. -/
  | sequential
  /-- The first child that fires, word by word. -/
  | firstMatching
deriving DecidableEq, Repr

/-- What changes the way in which a rule or a child is applied. -/
structure Modifiers where
  /-- The segments that it sees, if not all. -/
  filter : Option Element := none
  /-- How the places of edits are chosen. -/
  mode : Option MatchMode := none
  /-- Whether it is applied until nothing changes. -/
  propagate : Bool := false

mutual

/-- The body of a rule. -/
inductive Body where
  /-- Expressions that are applied together. -/
  | expressions (items : List Item)
  /-- Children, and the operators between them. -/
  | block (children : List Child) (operators : List BlockKind)

/-- A child of a block. -/
inductive Child where
  /-- A body with its modifiers. -/
  | mk (body : Body) (modifiers : Modifiers)

end

instance : Inhabited Body := ⟨.expressions []⟩

/-- A block whose children are all combined in one way. -/
def Body.uniformBlock (kind : BlockKind) (children : List Child) : Body :=
  .block children (List.replicate (children.length - 1) kind)

/-- A rule. -/
structure RuleDeclaration where
  /-- Name of the rule. -/
  name : String
  /-- Body of the rule. -/
  body : Body
  /-- Modifiers of the whole rule. -/
  modifiers : Modifiers := {}
  /-- Whether it runs again after every later rule. -/
  cleanup : Bool := false
  /-- Whether it runs only where it is referred to. -/
  deferred : Bool := false

/-- A romanizer or a deromanizer. -/
structure RomanizerDeclaration where
  /-- Name of the romanizer. -/
  name : String
  /-- Its rules. -/
  body : Body

/-- A shape that a syllable may have. -/
structure SyllableShape where
  /-- What a syllable consists of. -/
  element : Element
  /-- The matrix of syllables of this shape. -/
  matrix : Option Matrix := none
  /-- Where the shape is allowed. -/
  context : Context := {}

/-- A change of the division into syllables. -/
inductive SyllableDeclaration where
  /-- Words are no longer divided. -/
  | clear
  /-- Words keep the breaks that they have. -/
  | explicit
  /-- Words are divided by shapes, earlier ones preferred. -/
  | shapes (shapes : List SyllableShape)

/-- A statement of a program. -/
inductive Statement where
  /-- A class of literals. -/
  | soundClass (name : String) (members : List Element)
  /-- A named element. -/
  | element (name : String) (element : Element)
  /-- A change of the division into syllables. -/
  | syllables (declaration : SyllableDeclaration)
  /-- A rule. -/
  | rule (declaration : RuleDeclaration)
  /-- The end of a cleanup rule. -/
  | cleanupOff (name : String)
  /-- A romanizer that records the words on the way. -/
  | romanizer (declaration : RomanizerDeclaration)

/-- A program of rules. -/
structure Program where
  /-- Rules that run first. -/
  deromanizer : Option RomanizerDeclaration := none
  /-- The statements in order. -/
  statements : List Statement := []
  /-- Rules that run last. -/
  romanizer : Option RomanizerDeclaration := none

namespace Program

/-- The deferred rule of a statement. -/
def deferredOf? : Statement → Option RuleDeclaration
  | .rule declaration => if declaration.deferred then some declaration else none
  | _ => none

/-- The deferred rules of a program. -/
def deferredRules (p : Program) : List RuleDeclaration := p.statements.filterMap deferredOf?

end Program

end Diachrony.Syntax
