import Diachrony.Pipeline.Basic

/-!
# Plans

What a pipeline does between a start and a stop is the same for all words: a list of moves, each in
the language that is in force at its place. Before the start nothing is applied, but languages
change, cleanup rules come into force, and romanizers record the words.
-/

namespace Diachrony

/-- Something that is done to a word. -/
inductive Move where
  /-- A rule is applied. -/
  | apply (language : Language) (rule : NamedRule)
  /-- The word is divided in a new language, or its division is taken away. -/
  | divide (language : Language)
  /-- The word is recorded, as a rule writes it or as it is. -/
  | record (language : Language) (rule : NamedRule) (romanize : Bool)

/-- The stages at which a run starts and in front of which it stops. -/
structure Span where
  /-- Index of the first stage that is run, if not all are from the start. -/
  start : Option Nat := none
  /-- Index of the stage in front of which the run stops, if it does. -/
  stop : Option Nat := none
deriving DecidableEq, Repr

/-- The moves of a run and the language in which it ends. -/
structure Plan where
  /-- The moves in order. -/
  moves : List Move
  /-- The language in force after them. -/
  language : Language

/-- What is in force at some place of a pipeline. -/
structure Regime where
  /-- The language. -/
  language : Language
  /-- The cleanup rules in the order of their declaration. -/
  cleanups : List NamedRule := []
  /-- Whether the start has been reached. -/
  started : Bool

namespace Regime

/-- The moves that a step asks for. -/
def stepMoves (romanize : Bool) (r : Regime) : Step → List Move
  | .syllables language => if r.started then [.divide language] else []
  | .cleanup rule => if r.started then [.apply r.language rule] else []
  | .cleanupOff _ => []
  | .romanizer rule => [.record r.language rule romanize]

/-- What is in force after a step. -/
def afterStep (r : Regime) : Step → Regime
  | .syllables language => { r with language }
  | .cleanup rule => { r with cleanups := r.cleanups ++ [rule] }
  | .cleanupOff name => { r with cleanups := r.cleanups.filter (·.name != name) }
  | .romanizer _ => r

/-- What is in force after steps. -/
def afterSteps (r : Regime) (steps : List Step) : Regime := steps.foldl afterStep r

/-- The moves that steps ask for one after the other. -/
def stepsMoves (romanize : Bool) : Regime → List Step → List Move
  | _, [] => []
  | r, step :: rest => r.stepMoves romanize step ++ stepsMoves romanize (r.afterStep step) rest

/-- The moves of a stage: its steps, its rule, and the cleanup rules that are in force then. -/
def stageMoves (romanize : Bool) (r : Regime) (s : Stage) : List Move :=
  let after := r.afterSteps s.anchored
  let rules := if after.started then s.rule.elim [] (· :: after.cleanups) else []
  r.stepsMoves romanize s.anchored ++ rules.map (.apply after.language)

end Regime

namespace Pipeline

/-- The romanizers behind the last rule. -/
def trailingRomanizers (p : Pipeline) : List NamedRule :=
  match p.stages.getLast? with
  | some ⟨anchored, none⟩ => anchored.filterMap fun
    | .romanizer rule => some rule
    | _ => none
  | _ => []

/-- The plan from a stage on. A run that stops in front of a stage still records the word for the
romanizers behind the last rule; a run to the end ends with the romanizer. -/
def planFrom (p : Pipeline) (span : Span) (romanize : Bool) (r : Regime) (index : Nat) :
    List Stage → Plan
  | [] => ⟨if romanize ∧ span.stop = none then p.romanizer.toList.map (.apply r.language) else [],
      r.language⟩
  | stage :: rest =>
    if span.stop = some index then
      ⟨p.trailingRomanizers.map (.record r.language · romanize), r.language⟩
    else
      let r := { r with started := r.started || span.start == some index }
      let plan := planFrom p span romanize (r.afterSteps stage.anchored) (index + 1) rest
      ⟨r.stageMoves romanize stage ++ plan.moves, plan.language⟩

/-- The plan of a run. The deromanizer is left out if the run does not start at the start. -/
def plan (p : Pipeline) (span : Span) (romanize : Bool) : Plan :=
  let rest := p.planFrom span romanize ⟨p.language, [], span.start.isNone⟩ 0 p.stages
  { rest with moves :=
      (if span.start.isNone then p.deromanizer.toList.map (.apply p.language) else [])
        ++ rest.moves }

/-- Index of the stage that has the rule of some name. -/
def stageIndex (p : Pipeline) (name purpose : String) : Except Fault Nat :=
  match p.stages.findIdx? (·.name? == some name) with
  | some index => return index
  | none => throw (.of (.ruleNotFound name purpose))

/-- The span between two rules. A stop at the start or before it means that the start is never
reached. -/
def span (p : Pipeline) (startAt stopBefore : Option String) : Except Fault Span := do
  let start ← startAt.mapM (p.stageIndex · "start at")
  let stop ← stopBefore.mapM (p.stageIndex · "stop before")
  match startAt, start, stop with
  | some name, some first, some last =>
    if last ≤ first then throw (.of (.ruleNotFound name "start at"))
    return ⟨start, stop⟩
  | _, _, _ => return ⟨start, stop⟩

end Pipeline

end Diachrony
