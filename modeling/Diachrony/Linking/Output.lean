import Diachrony.Linking.Pattern
import Diachrony.Change.Output
import Diachrony.Syntax.Check

/-!
# Elements as outputs

An element in the output of a rule is linked to an output. Names are replaced by what they stand
for; elements that only describe spans have no output.
-/

namespace Diachrony.Syntax

/-- Links what a name stands for as an output. -/
abbrev FollowOutput := String → Except Fault Output

/-- The output of a matrix, whose values of syllables change syllables. -/
def matrixOutput (inv : Inventory) (m : Matrix) : Output :=
  let (segment, syllable) := inv.byLevel m
  if syllable.isEmpty then .matrix segment
  else if segment.isEmpty then .syllableMatrix syllable
  else .inTurn [.matrix segment, .syllableMatrix syllable]

mutual

/-- The output of an element. -/
def Element.output (lang : Language) (follow : FollowOutput) : Element → Except Fault Output
  | .empty => return .empty
  | .text literal exact =>
    return lang.literal (if exact then .text else .symbol) .syllableBoundary .sequence literal
  | .matrix values => return matrixOutput lang.inventory values
  | .reference name => follow name
  | .sequence items => return .sequence (← Element.outputs lang follow items)
  | .alternative options => return .alternative (← Element.outputs lang follow options)
  | .joined elements joints => do
    if joints.any (· ≠ .transforming) then
      throw (illegal .output "An intersection" (.joined elements joints))
    match elements with
    | [] => return .empty
    | initial :: rest =>
      let initial ← initial.output lang follow
      return .transforming initial (← Element.outputs lang follow rest)
  | .captureReference number true => return .captureReference number
  | .betweenWords => return .betweenWords
  | .syllableBoundary => return lang.syllableBreak .text .syllableBoundary
  | .captureReference n false =>
    throw (illegal .output "An inexact capture reference" (.captureReference n false))
  | .negated e => throw (illegal .output "A negation" (.negated e))
  | .repeater e bounds => throw (illegal .output "A repeater" (.repeater e bounds))
  | .capture e n => throw (illegal .output "A capture" (.capture e n))
  | .lookaround e conditions exclusions =>
    throw (illegal .output "An environment" (.lookaround e conditions exclusions))
  | .wordBoundary => throw (illegal .output "A word boundary" .wordBoundary)
  | .anySyllable => throw (illegal .output "A syllable" .anySyllable)

/-- The outputs of a list of elements. -/
def Element.outputs (lang : Language) (follow : FollowOutput) :
    List Element → Except Fault (List Output)
  | [] => return []
  | e :: rest => do return (← e.output lang follow) :: (← Element.outputs lang follow rest)

end

namespace Scope

/-- The output of what a name stands for. A class is an alternative of its members. -/
def followOutput (lang : Language) (s : Scope) : FollowOutput :=
  s.resolve (fun name ↦ throw (unknown name))
    (fun members ↦ return .alternative (← members.mapM id))
    fun follow body ↦ body.output lang follow

/-- The output of an element. -/
def output (lang : Language) (s : Scope) (e : Element) : Except Fault Output :=
  e.output lang (s.followOutput lang)

end Scope

end Diachrony.Syntax
