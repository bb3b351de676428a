import Diachrony.Fault
import Diachrony.Syntax.Program

/-!
# Scopes

Names of classes and elements are known from their declaration on. The body of a named element only
refers to names declared before it, so what a name stands for is found by going back through the
declarations, and following names comes to an end.

A class is kept with its literals: a class among its members is replaced by what that class has.
-/

namespace Diachrony.Syntax

/-- A name for a class or an element. -/
inductive Declared where
  /-- A class with its members. -/
  | soundClass (name : String) (members : List Element)
  /-- An element. -/
  | element (name : String) (body : Element)

namespace Declared

/-- The name that is declared. -/
def name : Declared → String
  | soundClass name _ | element name _ => name

/-- The members of a class of some name. -/
def members? (name : String) : Declared → Option (List Element)
  | soundClass n members => if n = name then some members else none
  | element .. => none

end Declared

/-- The names that are known, the last declared one first. -/
abbrev Scope := List Declared

namespace Scope

/-- Whether a name is declared. -/
def declares (s : Scope) (name : String) : Bool := s.any (·.name == name)

/-- The members of a class. -/
def members? (s : Scope) (name : String) : Option (List Element) :=
  s.findSome? (Declared.members? name)

/-- What a member adds to a class: the members of another class, or itself. -/
def memberLiterals (s : Scope) : Element → List Element
  | .reference name => (s.members? name).getD []
  | e => [e]

/-- The scope with one more class. -/
def withClass (s : Scope) (name : String) (members : List Element) : Scope :=
  .soundClass name (members.flatMap s.memberLiterals) :: s

/-- The scope with one more element. -/
def withElement (s : Scope) (name : String) (body : Element) : Scope := .element name body :: s

/-- The scope after a statement. -/
def after (s : Scope) : Statement → Scope
  | .soundClass name members => s.withClass name members
  | .element name body => s.withElement name body
  | _ => s

/-- The fault of a name that is not declared. -/
def unknown (name : String) : Fault := .of (.undefinedName "class or element" name)

/-- What a name comes to. A named element is visited in the scope before it, and so are the members
of a class, of whose results the result for the class is made. -/
def resolve (missing : String → α) (ofClass : List α → α) (visit : (String → α) → Element → α) :
    Scope → String → α
  | [], name => missing name
  | .soundClass n members :: rest, name =>
    if n = name then ofClass (members.map (visit (resolve missing ofClass visit rest)))
    else resolve missing ofClass visit rest name
  | .element n body :: rest, name =>
    if n = name then visit (resolve missing ofClass visit rest) body
    else resolve missing ofClass visit rest name

end Scope

end Diachrony.Syntax
