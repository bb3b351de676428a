import Diachrony.Pipeline.Plan
import Diachrony.Trace.Record

/-!
# The course of a word

A word makes the moves of a plan one after the other until one of them fails. Every move that
changes what is written is an event, and so is every record of the word. The fault of a move names
the move, the word as it was given and the word as it was then.
-/

namespace Diachrony

namespace Move

/-- Name of the step to which a division belongs. -/
def divisionName : String := "syllables"

/-- Name of the step to which the move belongs. -/
def name : Move → String
  | apply _ rule | record _ rule _ => rule.name
  | divide _ => divisionName

/-- The language of the move. -/
def language : Move → Language
  | apply language _ | divide language | record language _ _ => language

/-- A phrase as a rule leaves it, whether it fires or not. -/
def applied (lang : Language) (rule : NamedRule) (p : Phrase) : Except Fault Phrase := do
  return (← rule.fire lang p).getD p

/-- What the move makes of a phrase. -/
def result : Move → Phrase → Except Fault Phrase
  | apply language rule, p => applied language rule p
  | divide language, p =>
    match language.syllabifier with
    | some _ => language.syllabify p
    | none => return p.mapWords Word.undivided
  | record language rule romanize, p => if romanize then applied language rule p else return p

/-- The fault of a move on a word. Faults of rules and words are told apart from defects. -/
def blame (move : Move) (given : String) (p : Phrase) (fault : Fault) : Fault :=
  let current := move.language.write p
  .of (if fault.isMistake then
      .ruleNotApplicable move.name given current fault.cause fault.setting
    else .ruleCrashed move.name given current fault.message)

end Move

/-- What a word has left behind on its way. -/
structure Log where
  /-- The events in order. -/
  events : List Trace.Event := []
  /-- The names of romanizers with what they recorded, in order. -/
  snapshots : List (String × String) := []
deriving DecidableEq, Repr

namespace Log

/-- Adds the event of a step, if what is written changed. -/
def noteStep (step before after : String) (l : Log) : Log :=
  if before = after then l else { l with events := l.events ++ [.applied step before after] }

/-- Adds a record of the word. -/
def noteSnapshot (stage form : String) (l : Log) : Log :=
  { events := l.events ++ [.romanized stage form], snapshots := l.snapshots ++ [(stage, form)] }

/-- Adds the event of a fault. -/
def noteFault (fault : Fault) (l : Log) : Log :=
  let step := match fault.cause with
    | .ruleNotApplicable rule .. | .ruleCrashed rule .. => rule
    | _ => ""
  { l with events := l.events ++ [.failed step fault.message] }

end Log

/-- Makes moves on a phrase until one of them fails. A record leaves the phrase as it is. -/
def runMoves (given : String) : List Move → Phrase → Log → Except Fault Phrase × Log
  | [], p, log => (.ok p, log)
  | move :: rest, p, log =>
    let written := move.language.write
    match move.result p with
    | .error fault =>
      let fault := move.blame given p fault
      (.error fault, log.noteFault fault)
    | .ok q =>
      match move with
      | .record .. => runMoves given rest p (log.noteSnapshot move.name (written q))
      | _ => runMoves given rest q (log.noteStep move.name (written p) (written q))

/-- Runs a plan on a word that is read in a language, and gives its last form. -/
def Plan.run (plan : Plan) (initial : Language) (word : String) : Except Fault String × Log :=
  let (result, log) := runMoves word plan.moves (initial.read word) {}
  (result.map plan.language.write, log)

end Diachrony
