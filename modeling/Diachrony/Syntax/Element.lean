import Diachrony.Matrix

/-!
# Elements

Elements are the patterns and outputs of rules as they are written. The same elements stand on both
sides of a rule and in its environments; which of them have a meaning where is checked later.
-/

namespace Diachrony.Syntax

/-- The bounds of a repetition. -/
structure Repeat where
  /-- Fewest repetitions. -/
  min : Nat
  /-- Most repetitions, if they are bounded. -/
  max : Option Nat := none
deriving DecidableEq, Repr

namespace Repeat

/-- One or more. -/
def oneOrMore : Repeat := ⟨1, none⟩

/-- Any number. -/
def zeroOrMore : Repeat := ⟨0, none⟩

/-- At most one. -/
def atMostOne : Repeat := ⟨0, some 1⟩

/-- A fixed number. -/
def exactly (n : Nat) : Repeat := ⟨n, some n⟩

/-- A number or more. -/
def atLeast (n : Nat) : Repeat := ⟨n, none⟩

/-- Whether the number is fixed and above one, so that it counts at an edge of an environment. -/
def isFixedCount (r : Repeat) : Bool := 1 < r.min && r.max == some r.min

end Repeat

/-- How the parts of an element are joined. -/
inductive Joint where
  /-- The next part must match as well. -/
  | intersection
  /-- The next part must not match. -/
  | negatedIntersection
  /-- The next part transforms the output of the parts before it. -/
  | transforming
deriving DecidableEq, Repr

/-- Whether two joints can stand in one element. -/
def Joint.agreesWith (a b : Joint) : Bool := (a == .transforming) == (b == .transforming)

mutual

/-- A part of a rule. -/
inductive Element where
  /-- Nothing. -/
  | empty
  /-- Literal text. Without `exact` floating diacritics do not count. -/
  | text (text : String) (exact : Bool)
  /-- A matrix. -/
  | matrix (values : Matrix)
  /-- A class or a named element. -/
  | reference (name : String)
  /-- Elements one after the other. -/
  | sequence (items : List Element)
  /-- One of some elements. -/
  | alternative (options : List Element)
  /-- Elements with joints between them. -/
  | joined (elements : List Element) (joints : List Joint)
  /-- One segment that an element does not match. -/
  | negated (element : Element)
  /-- An element repeated. -/
  | repeater (element : Element) (bounds : Repeat)
  /-- An element whose match is captured under a number. -/
  | capture (element : Element) (number : Nat)
  /-- What was captured under a number. Without `exact` floating diacritics do not count. -/
  | captureReference (number : Nat) (exact : Bool)
  /-- An element that only matches in one of the conditions and in none of the exclusions. -/
  | lookaround (element : Element) (conditions exclusions : List Environment)
  /-- An edge of a word. -/
  | wordBoundary
  /-- The gap between two words. -/
  | betweenWords
  /-- A break between syllables. -/
  | syllableBoundary
  /-- A whole syllable. -/
  | anySyllable

/-- What stands around a span. -/
inductive Environment where
  /-- What comes before the span and what comes after it, where it matters. -/
  | mk (before after : Option Element)

end

instance : Inhabited Element := ⟨.empty⟩

namespace Environment

/-- What comes before the span. -/
def before : Environment → Option Element
  | mk before _ => before

/-- What comes after the span. -/
def after : Environment → Option Element
  | mk _ after => after

end Environment

/-- Conditions of which one must hold and exclusions of which none may. -/
structure Context where
  /-- The conditions in order. -/
  conditions : List Environment := []
  /-- The exclusions in order. -/
  exclusions : List Environment := []

/-- Whether the context says nothing. -/
def Context.isEmpty (c : Context) : Bool := c.conditions.isEmpty && c.exclusions.isEmpty

namespace Element

/-- A sequence, or its item if there is one. -/
def seq : List Element → Element
  | [item] => item
  | items => .sequence items

/-- The characters of a text as a sequence of literals. -/
def chars (text : String) : Element := seq (text.toList.map fun c ↦ .text c.toString false)

/-- An element joined with another; a chain of joined elements grows on the right. -/
def join (a : Element) (joint : Joint) (b : Element) : Element :=
  match a with
  | .joined elements joints => .joined (elements ++ [b]) (joints ++ [joint])
  | a => .joined [a, b] [joint]

/-- Whether an operator behind the element would not apply to all of it. -/
def isCompound : Element → Bool
  | .sequence _ | .joined .. | .repeater .. | .capture .. => true
  | _ => false

/-- Whether the element is set off by parentheses inside another. -/
def isList : Element → Bool
  | .sequence _ | .joined .. => true
  | _ => false

end Element

end Diachrony.Syntax
