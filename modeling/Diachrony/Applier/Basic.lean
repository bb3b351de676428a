import Diachrony.Data.SortedMap
import Diachrony.Fault
import Diachrony.Trace.Recorder
import Diachrony.Config.Basic
import Diachrony.Linking.Program
import Diachrony.Pipeline.Course

/-!
# Appliers

An applier applies a linked program to words. Every word goes its own way: a word that fails stops
no other. A report lists what happened to every word of a run, in the order of the words.
-/

namespace Diachrony

/-- What happened to a word. -/
structure Outcome where
  /-- The last form of the word, or why it failed. -/
  result : Except Fault String
  /-- The names of romanizers with what they recorded, in order. -/
  snapshots : List (String × String)

/-- What happened to words. -/
structure Report where
  /-- One outcome for each word. -/
  outcomes : List Outcome
  /-- The records of the traced words. -/
  trace : Trace.Recorder

/-- What romanizers recorded, with one column for each name. -/
structure Columns where
  /-- The last forms. -/
  final : List String
  /-- The forms that were recorded under each name. -/
  named : SortedMap String (List String)

namespace Report

/-- Number of words that failed. -/
def failures (r : Report) : Nat := r.outcomes.countP fun o ↦ !o.result.isOk

/-- The last form or the fault of every word. -/
def results (r : Report) : List (Except Fault String) := r.outcomes.map Outcome.result

/-- The last forms, or the fault of the first word that failed. -/
def words (r : Report) : Except Fault (List String) := r.results.mapM id

/-- A form at the end of the column of its name. -/
def addForm (columns : SortedMap String (List String)) (snapshot : String × String) :
    SortedMap String (List String) :=
  columns.insert snapshot.1 ((columns.get? snapshot.1).getD [] ++ [snapshot.2])

/-- The last forms and what was recorded, or the fault of the first word that failed. -/
def intermediates (r : Report) : Except Fault Columns := do
  return ⟨← r.words, (r.outcomes.flatMap Outcome.snapshots).foldl addForm ∅⟩

end Report

/-- How a run is made. -/
structure RunOptions where
  /-- The rule with which the run starts, if not with the first. -/
  startAt : Option String := none
  /-- The rule in front of which the run stops, if it does. -/
  stopBefore : Option String := none
  /-- The words that are traced. -/
  traced : List String := []
  /-- Whether words are romanized at the end and where they are recorded. -/
  romanize : Bool := true
deriving DecidableEq, Repr

/-- A linked program and how words are changed. -/
structure Applier where
  /-- The linked program. -/
  pipeline : Pipeline
  /-- How words are changed. -/
  config : Config

/-- The first name of a list that was there before. -/
def firstRepeated? : List String → List String → Option String
  | _, [] => none
  | seen, name :: rest =>
    if seen.contains name then some name else firstRepeated? (name :: seen) rest

namespace Applier

/-- An applier for a linked program, whose rules must have different names. -/
def ofPipeline (pipeline : Pipeline) (config : Config) : Except Fault Applier :=
  match firstRepeated? [] pipeline.ruleNames with
  | some name => throw (.of (.duplicateName "rule" name))
  | none => return ⟨pipeline, config⟩

/-- Checks and links a program. -/
def compile (inv : Inventory) (program : Syntax.Program) (config : Config) :
    Except Fault Applier := do
  ofPipeline (← program.compile inv config.limits) config

/-- Changes a word, from the start of the pipeline to its end. -/
def applyTo (a : Applier) (word : String) : Except Fault String :=
  ((a.pipeline.plan {} true).run a.pipeline.language word).1

/-- Changes words and reports what happened to them. -/
def run (a : Applier) (options : RunOptions) (words : List String) : Except Fault Report := do
  let span ← a.pipeline.span options.startAt options.stopBefore
  let plan := a.pipeline.plan span options.romanize
  let courses := words.map fun word ↦ (word, plan.run a.pipeline.language word)
  let silent := Trace.Recorder.new a.config.trace
  let recorder := if options.traced.isEmpty then silent else silent.setEnabled true
  let traced := courses.filter fun (word, _) ↦ options.traced.contains word
  return {
    outcomes := courses.map fun (_, result, log) ↦ ⟨result, log.snapshots⟩
    trace := traced.foldl (fun recorder (word, _, log) ↦ recorder.recordAll word log.events)
      recorder }

end Applier

end Diachrony
