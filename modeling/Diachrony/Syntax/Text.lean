import Diachrony.Syntax.Program

/-!
# Rules as written

Every element, environment and expression has one written form, which messages quote.
-/

namespace Diachrony.Syntax

namespace Repeat

/-- The bounds of a repetition as written behind an element. -/
def toText : Repeat → String
  | ⟨1, none⟩ => "+"
  | ⟨0, none⟩ => "*"
  | ⟨0, some 1⟩ => "?"
  | ⟨min, none⟩ => "*(" ++ toString min ++ "-)"
  | ⟨min, some max⟩ =>
    if min = max then "*" ++ toString min
    else "*(" ++ toString min ++ "-" ++ toString max ++ ")"

end Repeat

/-- A joint as written. -/
def Joint.toText : Joint → String
  | intersection => "&"
  | negatedIntersection => "&!"
  | transforming => ">"

/-- The operator of a block as written. -/
def BlockKind.toText : BlockKind → String
  | sequential => "then"
  | firstMatching => "else"

/-- A text in parentheses, if it needs them. -/
def parenthesized (needed : Bool) (text : String) : String :=
  if needed then "(" ++ text ++ ")" else text

/-- Texts with the text of a joint between them; a missing joint is an intersection. -/
def interleave : List String → List Joint → String
  | [], _ => ""
  | [text], _ => text
  | text :: rest, joints =>
    text ++ (joints.head?.getD .intersection).toText ++ interleave rest joints.tail

mutual

/-- An element as written. -/
def Element.toText : Element → String
  | .empty => "*"
  | .text text _ => text
  | .matrix values => values.toText
  | .reference name => "@" ++ name
  | .sequence items => " ".intercalate (Element.partTexts items)
  | .alternative options => "\x7b" ++ ", ".intercalate (Element.texts options) ++ "\x7d"
  | .joined elements joints => interleave (Element.partTexts elements) joints
  | .negated element => "!" ++ parenthesized element.isCompound element.toText
  | .repeater element bounds => parenthesized element.isCompound element.toText ++ bounds.toText
  | .capture element number =>
    parenthesized element.isCompound element.toText ++ "$" ++ toString number
  | .captureReference number exact => (if exact then "$" else "~$") ++ toString number
  | .lookaround element conditions exclusions =>
    "(" ++ element.toText ++ Environment.texts " / " conditions
      ++ Environment.texts " // " exclusions ++ ")"
  | .wordBoundary => "$"
  | .betweenWords => "$$"
  | .syllableBoundary => "."
  | .anySyllable => "<syl>"

/-- The elements of a list as written. -/
def Element.texts : List Element → List String
  | [] => []
  | e :: rest => e.toText :: Element.texts rest

/-- The elements of a list as written inside another element. -/
def Element.partTexts : List Element → List String
  | [] => []
  | e :: rest => parenthesized e.isList e.toText :: Element.partTexts rest

/-- An environment as written. -/
def Environment.toText : Environment → String
  | .mk none none => "_"
  | .mk (some before) none => before.toText ++ " _"
  | .mk none (some after) => "_ " ++ after.toText
  | .mk (some before) (some after) => before.toText ++ " _ " ++ after.toText

/-- The environments of a list as written, each behind a mark. -/
def Environment.texts (mark : String) : List Environment → String
  | [] => ""
  | e :: rest => mark ++ e.toText ++ Environment.texts mark rest

end

/-- A context as written. -/
def Context.toText (c : Context) : String :=
  Environment.texts " / " c.conditions ++ Environment.texts " // " c.exclusions

namespace Element

/-- The element as written in front of an operator that applies to all of it. -/
def grouped (e : Element) : String := parenthesized e.isCompound e.toText

end Element

/-- How a repetition of an element is put if it stands at an edge of an environment. -/
def Repeat.suggestion (r : Repeat) (e : Element) : String :=
  match r.min with
  | 0 => "remove it"
  | 1 => "just use \"" ++ e.grouped ++ "\""
  | n => "just use \"" ++ e.grouped ++ "*" ++ toString n ++ "\""

/-- An expression as written. -/
def Expression.toText (e : Expression) : String :=
  e.source.toText ++ " => " ++ e.target.toText ++ e.context.toText

end Diachrony.Syntax
