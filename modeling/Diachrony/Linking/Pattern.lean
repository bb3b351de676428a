import Diachrony.Language.Basic
import Diachrony.Syntax.Check

/-!
# Elements as patterns

An element in the input of a rule or in an environment is linked to a pattern. Names are replaced by
what they stand for. A word boundary is the start of a word on the side before a span and the end of
a word on the side after it. A literal spells a word, and where words are divided into syllables a
point in it is a break.
-/

namespace Diachrony.Language

/-- Whether words are divided into syllables. -/
def divides (lang : Language) : Bool := lang.syllabifier.isSome

/-- The word that a text spells, points being letters like others. -/
def literalWord (lang : Language) (cs : List Char) : Word := lang.inventory.readWord cs false

/-- The parts of a literal with a break for each point; there is no part where points meet. -/
def literalParts (lang : Language) (ofWord : Word → α) (boundary : α) (cs : List Char) : List α :=
  (((cs.splitOn '.').map fun part ↦
    if part.isEmpty then [] else [ofWord (lang.literalWord part)]).intersperse [boundary]).flatten

/-- What a literal comes to, made of words, breaks and sequences of both. -/
def literal (lang : Language) (ofWord : Word → α) (boundary : α) (sequence : List α → α)
    (text : String) : α :=
  if lang.divides && text.toList.contains '.' then
    sequence (lang.literalParts ofWord boundary text.toList)
  else ofWord (lang.literalWord text.toList)

/-- What a break between syllables comes to: where words are not divided it is a letter. -/
def syllableBreak (lang : Language) (ofWord : Word → α) (boundary : α) : α :=
  if lang.divides then boundary else ofWord (lang.literalWord ['.'])

end Diachrony.Language

namespace Diachrony.Syntax

/-- Where a pattern stands. -/
inductive Place where
  /-- In the input of a rule. -/
  | input
  /-- Before a span. -/
  | before
  /-- After a span. -/
  | after
deriving DecidableEq, Repr

/-- The part of a rule to which a place belongs. -/
def Place.part : Place → RulePart
  | input => .input
  | before | after => .environment

/-- Links what a name stands for, at a place. -/
abbrev FollowPattern := String → Place → Except Fault Pattern

/-- The pattern of a matrix, whose values of syllables are tested by themselves. -/
def matrixPattern (inv : Inventory) (m : Matrix) : Except Fault Pattern := do
  let (segment, syllable) := inv.byLevel (← inv.patternMatrix m)
  if syllable.isEmpty then return .matrix segment
  else if segment.isEmpty then return .syllableMatrix syllable
  else return .intersection (.matrix segment) [.mk (.syllableMatrix syllable) false]

mutual

/-- The pattern of an element at a place. -/
def Element.pattern (lang : Language) (follow : FollowPattern) (place : Place) :
    Element → Except Fault Pattern
  | .empty => return .empty
  | .text literal exact =>
    return lang.literal (if exact then .text else .symbol) .syllableBoundary .sequence literal
  | .matrix values => matrixPattern lang.inventory values
  | .reference name => follow name place
  | .sequence items => return .sequence (← Element.patterns lang follow place items)
  | .alternative options => return .alternative (← Element.patterns lang follow place options)
  | .joined elements joints => do
    if joints.contains .transforming then
      throw (illegal place.part "A transformation" (.joined elements joints))
    match elements with
    | [] => return .empty
    | initial :: rest =>
      let checks ← Element.checks lang follow place rest joints
      return .intersection (← initial.pattern lang follow place) checks
  | .negated inner => return .negated (← inner.pattern lang follow place)
  | .repeater inner bounds =>
    return .repeater (← inner.pattern lang follow place) bounds.min bounds.max
  | .capture inner number => return .capture (← inner.pattern lang follow place) number false
  | .captureReference number exact => return .captureReference number exact false
  | .lookaround inner conditions exclusions => do
    let conditions ← Environment.surroundings lang follow conditions
    let exclusions ← Environment.surroundings lang follow exclusions
    return .environment (← inner.pattern lang follow place) conditions exclusions
  | .wordBoundary =>
    match place with
    | .input => throw (.of (.illegalStructure .input "A word boundary" "$"))
    | .before => return .wordStart
    | .after => return .wordEnd
  | .betweenWords => return .betweenWords
  | .syllableBoundary => return lang.syllableBreak .symbol .syllableBoundary
  | .anySyllable => return .syllable

/-- The patterns of a list of elements at a place. -/
def Element.patterns (lang : Language) (follow : FollowPattern) (place : Place) :
    List Element → Except Fault (List Pattern)
  | [] => return []
  | e :: rest => do
    return (← e.pattern lang follow place) :: (← Element.patterns lang follow place rest)

/-- The checks that joined elements are, as far as there are joints. -/
def Element.checks (lang : Language) (follow : FollowPattern) (place : Place) :
    List Element → List Joint → Except Fault (List Check)
  | e :: rest, joint :: joints => do
    let check := .mk (← e.pattern lang follow place) (joint == .negatedIntersection)
    return check :: (← Element.checks lang follow place rest joints)
  | _, _ => return []

/-- The surroundings that environments are; a side that is missing is empty. -/
def Environment.surroundings (lang : Language) (follow : FollowPattern) :
    List Environment → Except Fault (List Surroundings)
  | [] => return []
  | .mk none none :: rest => return .always :: (← Environment.surroundings lang follow rest)
  | .mk (some before) none :: rest => do
    let first := .of (← before.pattern lang follow .before) .empty
    return first :: (← Environment.surroundings lang follow rest)
  | .mk none (some after) :: rest => do
    let first := .of .empty (← after.pattern lang follow .after)
    return first :: (← Environment.surroundings lang follow rest)
  | .mk (some before) (some after) :: rest => do
    let before ← before.pattern lang follow .before
    let first := .of before (← after.pattern lang follow .after)
    return first :: (← Environment.surroundings lang follow rest)

end

namespace Scope

/-- The pattern of what a name stands for. A class is an alternative of its members. -/
def followPattern (lang : Language) (s : Scope) : FollowPattern :=
  s.resolve (fun name _ ↦ throw (unknown name))
    (fun members place ↦ return .alternative (← members.mapM fun member ↦ member place))
    fun follow body place ↦ body.pattern lang follow place

/-- The pattern of an element at a place. -/
def pattern (lang : Language) (s : Scope) (place : Place) (e : Element) : Except Fault Pattern :=
  e.pattern lang (s.followPattern lang) place

/-- The surroundings that the environments of a context are. -/
def surroundings (lang : Language) (s : Scope) (c : Context) :
    Except Fault (List Surroundings × List Surroundings) := do
  let conditions ← Environment.surroundings lang (s.followPattern lang) c.conditions
  return (conditions, ← Environment.surroundings lang (s.followPattern lang) c.exclusions)

end Scope

end Diachrony.Syntax
