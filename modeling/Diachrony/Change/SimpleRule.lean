import Diachrony.Change.Expression
import Diachrony.Change.Selection
import Diachrony.Change.Splice
import Diachrony.Syntax.MatchMode

/-!
# Simple rules

A simple rule applies a list of expressions in one of three modes. All at once: earlier expressions
have their edits first, and later ones those that do not overlap. From the left or from the right:
one edit at a time, always the next in that direction, each seeing the changes before it.

A pass in one direction moves over the phrase with every change that replaces something, so the
positions of the phrase bound the number of such changes. From the left, a match that replaces
nothing puts the cursor back behind the first position of the phrase, and a pass that goes back
again and again need not come to an end: it is given up after a great many changes.
-/

namespace Diachrony

/-- Expressions that are applied together. -/
structure SimpleRule where
  /-- The expressions in order of priority. -/
  expressions : List Expression
  /-- The segments that the rule sees, if not all. -/
  filter : Option Pattern := none
  /-- How the places of edits are chosen. -/
  mode : MatchMode := .simultaneous

namespace SimpleRule

/-- The part of a phrase that the rule sees, if not all. -/
def selection? (lang : Language) (r : SimpleRule) (p : Phrase) : Except Fault (Option Selection) :=
  match r.filter with
  | some filter => some <$> Selection.of lang filter p
  | none => .ok none

/-- The edits of a list that overlap none that was accepted before. -/
def accept (accepted : List Edit) (candidates : List Edit) : List Edit :=
  candidates.foldl (fun accepted e ↦
    if accepted.any (·.overlaps e) then accepted else accepted ++ [e]) accepted

/-- The edits of all expressions of a list that are accepted, in the order of acceptance. -/
def acceptFrom (lang : Language) (p : Phrase) (priority : Nat) (accepted : List Edit) :
    List Expression → Except Fault (List Edit)
  | [] => return accepted
  | e :: rest => do
    acceptFrom lang p (priority + 1) (accept accepted (← e.edits lang p priority)) rest

/-- Edits by position. -/
def byPosition (edits : List Edit) : List Edit :=
  edits.mergeSort fun a b ↦ a.start < b.start ∨ a.start = b.start ∧ a.stop ≤ b.stop

/-- The edits that the rule makes all at once, in the full phrase and by position. -/
def acceptedEdits (lang : Language) (r : SimpleRule) (p : Phrase) : Except Fault (List Edit) := do
  match ← r.selection? lang p with
  | none => return byPosition (← acceptFrom lang p 0 [] r.expressions)
  | some seen =>
    (byPosition (← acceptFrom lang seen.phrase 0 [] r.expressions)).mapM seen.widen?

/-- Applies all expressions at once. -/
def applyAtOnce (lang : Language) (r : SimpleRule) (p : Phrase) :
    Except Fault (Option Phrase) := do
  match ← r.acceptedEdits lang p with
  | [] => return none
  | edits => return some (← p.splice lang.inventory edits).phrase

/-- The best of the edits that some expressions offer; of equals the first. -/
def bestEdit? (better : Edit → Edit → Bool)
    (offer : Expression → Nat → Except Fault (Option Edit)) (expressions : List Expression) :
    Except Fault (Option Edit) :=
  expressions.zipIdx.foldlM (fun best (e, priority) ↦ do
    match best, ← offer e priority with
    | some b, some found => return some (if better found b then found else b)
    | none, found => return found
    | some b, none => return some b) none

/-- The first edit at a cursor or after it, in the full phrase. -/
def nextEdit? (lang : Language) (r : SimpleRule) (p : Phrase) (cursor : Position) :
    Except Fault (Option Edit) := do
  let earlier (a b : Edit) : Bool := a.start < b.start
  match ← r.selection? lang p with
  | none => bestEdit? earlier (fun e ↦ e.firstEdit? lang p cursor) r.expressions
  | some seen =>
    if !p.isPosition cursor then throw Finder.outside
    match ← bestEdit? earlier (fun e ↦ e.firstEdit? lang seen.phrase (seen.narrow cursor))
        r.expressions with
    | some e => return some (← seen.widen? e)
    | none => return none

/-- Makes the first edit at a cursor or after it. The cursor goes on behind what was written, and
behind one more segment if nothing was replaced. -/
def forwardsRound (lang : Language) (r : SimpleRule) (p : Phrase) (cursor : Position) :
    Except Fault (Option (Phrase × Option Position)) := do
  match ← r.nextEdit? lang p cursor with
  | none => return none
  | some e =>
    let (q, _, stop) ← p.spliceOne lang.inventory e
    return some (q, if e.isInsertion then q.next? stop else some stop)

/-- Makes edits from a cursor on until there are none. -/
def forwardsFrom (lang : Language) (r : SimpleRule) :
    Nat → Phrase → Option Position → Except Fault Phrase
  | _, p, none => return p
  | 0, _, some _ => throw Finder.stalled
  | n + 1, p, some cursor => do
    match ← r.forwardsRound lang p cursor with
    | none => return p
    | some (q, next) => forwardsFrom lang r n q next

/-- The changes that a pass from the left may make beyond one for each position. They count only
where matches replace nothing. -/
def spareChanges : Nat := 1000000

/-- Applies the rule from the left. -/
def applyForwards (lang : Language) (r : SimpleRule) (p : Phrase) :
    Except Fault (Option Phrase) := do
  match ← r.forwardsRound lang p p.start with
  | none => return none
  | some (q, next) => return some (← r.forwardsFrom lang (p.positions.length + spareChanges) q next)

/-- The last edit before a limit, in the full phrase. -/
def previousEdit? (lang : Language) (r : SimpleRule) (p : Phrase) (limit : Option Position) :
    Except Fault (Option Edit) := do
  let later (a b : Edit) : Bool := b.start < a.start
  match ← r.selection? lang p with
  | none => bestEdit? later (fun e ↦ e.lastEdit? lang p limit) r.expressions
  | some seen =>
    if !limit.all p.isPosition then throw Finder.outside
    match ← bestEdit? later
        (fun e ↦ e.lastEdit? lang seen.phrase (limit.map seen.narrow)) r.expressions with
    | some e => return some (← seen.widen? e)
    | none => return none

/-- Makes the last edit before a limit. The new limit is the start of what was written. -/
def backwardsRound (lang : Language) (r : SimpleRule) (p : Phrase) (limit : Option Position) :
    Except Fault (Option (Phrase × Position)) := do
  match ← r.previousEdit? lang p limit with
  | none => return none
  | some e =>
    let (q, start, _) ← p.spliceOne lang.inventory e
    return some (q, start)

/-- Makes edits before a limit until there are none. -/
def backwardsFrom (lang : Language) (r : SimpleRule) :
    Nat → Phrase → Position → Except Fault Phrase
  | 0, _, _ => throw Finder.stalled
  | n + 1, p, limit => do
    match ← r.backwardsRound lang p (some limit) with
    | none => return p
    | some (q, next) => backwardsFrom lang r n q next

/-- Applies the rule from the right. -/
def applyBackwards (lang : Language) (r : SimpleRule) (p : Phrase) :
    Except Fault (Option Phrase) := do
  match ← r.backwardsRound lang p none with
  | none => return none
  | some (q, limit) => return some (← r.backwardsFrom lang p.positions.length q limit)

/-- Applies the rule to a phrase, unless nothing matches. -/
def apply (lang : Language) (r : SimpleRule) (p : Phrase) : Except Fault (Option Phrase) :=
  match r.mode with
  | .simultaneous => r.applyAtOnce lang p
  | .leftToRight => r.applyForwards lang p
  | .rightToLeft => r.applyBackwards lang p

end SimpleRule

end Diachrony
