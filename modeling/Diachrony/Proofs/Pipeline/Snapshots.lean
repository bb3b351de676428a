import Mathlib.Data.List.Flatten
import Diachrony.Pipeline.Course

/-!
# What romanizers on the way record

A word that comes through a run is recorded under the names of the romanizers in the stages that the
run visits, in their order, and a word that fails under the first of these names. Where a run stops,
the romanizers behind the last rule still record the word, but none that it has come by. So names of
which no two are the same are recorded once each.
-/

namespace Diachrony

/-- Name of the romanizer of a step. -/
def Step.romanizerName? : Step → Option String
  | romanizer rule => some rule.name
  | syllables _ | cleanup _ | cleanupOff _ => none

/-- Names of the romanizers among steps. -/
def Step.romanizerNames (steps : List Step) : List String := steps.filterMap romanizerName?

/-- Names of the romanizers in stages. -/
def Stage.romanizerNames (stages : List Stage) : List String :=
  stages.flatMap fun stage ↦ Step.romanizerNames stage.anchored

namespace Move

/-- Name under which a move records a word. -/
def recordName? : Move → Option String
  | record _ rule _ => some rule.name
  | apply .. | divide _ => none

/-- Names under which moves record a word. -/
def recordNames (moves : List Move) : List String := moves.filterMap recordName?

/-- Names of moves in two parts. -/
theorem recordNames_append (moves others : List Move) :
    recordNames (moves ++ others) = recordNames moves ++ recordNames others :=
  List.filterMap_append

/-- Rules that are applied record nothing. -/
@[simp] theorem recordNames_map_apply (language : Language) (rules : List NamedRule) :
    recordNames (rules.map (.apply language)) = [] := by
  simp [recordNames, recordName?]

/-- Moves that record a word do so under the names of their rules. -/
@[simp] theorem recordNames_map_record (language : Language) (rules : List NamedRule)
    (romanize : Bool) :
    recordNames (rules.map (.record language · romanize)) = rules.map (·.name) := by
  induction rules with
  | nil => rfl
  | cons rule rest ih => simpa [recordNames, recordName?] using ih

end Move

namespace Log

/-- A change is no record. -/
@[simp] theorem snapshots_noteStep (step before after : String) (l : Log) :
    (l.noteStep step before after).snapshots = l.snapshots := by
  rw [noteStep]
  split <;> rfl

/-- A fault is no record. -/
@[simp] theorem snapshots_noteFault (fault : Fault) (l : Log) :
    (l.noteFault fault).snapshots = l.snapshots := rfl

end Log

/-- Moves add records under their names in order, all of them unless a move fails. -/
theorem runMoves_snapshots (given : String) (moves : List Move) (p : Phrase) (log : Log) :
    ∃ added, (runMoves given moves p log).2.snapshots = log.snapshots ++ added ∧
      added.map Prod.fst <+: Move.recordNames moves ∧
      ((runMoves given moves p log).1.isOk → added.map Prod.fst = Move.recordNames moves) := by
  induction moves generalizing p log with
  | nil => exact ⟨[], by simp [runMoves, Move.recordNames]⟩
  | cons move rest ih =>
    rw [runMoves]
    cases hresult : move.result p with
    | error fault => exact ⟨[], by simp [Except.isOk, Except.toBool]⟩
    | ok q =>
      cases move with
      | apply _ _ | divide _ =>
        obtain ⟨added, hadded, hnames⟩ := ih q (log.noteStep _ _ _)
        rw [Log.snapshots_noteStep] at hadded
        exact ⟨added, hadded, hnames⟩
      | record language rule romanize =>
        obtain ⟨added, hadded, hprefix, hall⟩ :=
          ih p (log.noteSnapshot rule.name (language.write q))
        refine ⟨(rule.name, language.write q) :: added, ?_, ?_, fun hok ↦ ?_⟩
        · exact hadded.trans (List.append_assoc _ _ _)
        · exact (List.prefix_cons_inj rule.name).mpr hprefix
        · exact congrArg (rule.name :: ·) (hall hok)

namespace Regime

variable (romanize : Bool) (r : Regime)

/-- A step records under the name of its romanizer, whether the start has been reached or not. -/
theorem recordNames_stepMoves (step : Step) :
    Move.recordNames (r.stepMoves romanize step) = step.romanizerName?.toList := by
  cases step <;> simp only [stepMoves] <;> (try split) <;> rfl

/-- Steps record under the names of their romanizers. -/
theorem recordNames_stepsMoves (steps : List Step) :
    Move.recordNames (r.stepsMoves romanize steps) = Step.romanizerNames steps := by
  induction steps generalizing r with
  | nil => rfl
  | cons step rest ih =>
    rw [stepsMoves, Move.recordNames_append, recordNames_stepMoves, ih]
    simp only [Step.romanizerNames, List.filterMap_cons]
    cases step.romanizerName? <;> rfl

/-- A stage records under the names of its romanizers. -/
theorem recordNames_stageMoves (stage : Stage) :
    Move.recordNames (r.stageMoves romanize stage) = Step.romanizerNames stage.anchored := by
  rw [stageMoves, Move.recordNames_append, recordNames_stepsMoves, Move.recordNames_map_apply,
    List.append_nil]

end Regime

namespace Pipeline

variable (p : Pipeline)

/-- Names under which a run between a start and a stop records words. -/
def recordedNames (stop : Option Nat) : List String :=
  match stop with
  | none => Stage.romanizerNames p.stages
  | some stop =>
    if stop < p.stages.length then
      Stage.romanizerNames (p.stages.take stop) ++ p.trailingRomanizers.map (·.name)
    else Stage.romanizerNames p.stages

variable {p} {span : Span} {romanize : Bool}

/-- A run that stops in front of none of the stages visits all of them. -/
theorem recordNames_planFrom {r : Regime} {index : Nat} {stages : List Stage}
    (h : ∀ n < stages.length, span.stop ≠ some (index + n)) :
    Move.recordNames (p.planFrom span romanize r index stages).moves =
      Stage.romanizerNames stages := by
  induction stages generalizing r index with
  | nil =>
    rw [planFrom]
    split
    · exact Move.recordNames_map_apply _ _
    · rfl
  | cons stage rest ih =>
    have hrest : ∀ n < rest.length, span.stop ≠ some (index + 1 + n) := fun n hn ↦ by
      simpa [Nat.add_assoc, Nat.add_comm 1 n] using h (n + 1) (by simpa using hn)
    rw [planFrom, if_neg (by simpa using h 0), Move.recordNames_append,
      Regime.recordNames_stageMoves, ih hrest]
    rfl

/-- A run that stops in front of a stage visits the stages before it, and records words for the
romanizers behind the last rule. -/
theorem recordNames_planFrom_of_stop {r : Regime} {index n : Nat} {stages : List Stage}
    (hn : n < stages.length) (h : span.stop = some (index + n)) :
    Move.recordNames (p.planFrom span romanize r index stages).moves =
      Stage.romanizerNames (stages.take n) ++ p.trailingRomanizers.map (·.name) := by
  induction stages generalizing r index n with
  | nil => cases hn
  | cons stage rest ih =>
    rw [planFrom]
    cases n with
    | zero =>
      rw [if_pos (by simpa using h)]
      exact Move.recordNames_map_record _ _ _
    | succ n =>
      have hne : span.stop ≠ some index := by simp [h]
      have hrest : span.stop = some (index + 1 + n) := by rw [h]; congr 1; omega
      rw [if_neg hne, Move.recordNames_append, Regime.recordNames_stageMoves,
        ih (Nat.lt_of_succ_lt_succ hn) hrest, ← List.append_assoc]
      rfl

/-- The names under which a run between a start and a stop records words. -/
theorem recordNames_plan (p : Pipeline) (span : Span) (romanize : Bool) :
    Move.recordNames (p.plan span romanize).moves = p.recordedNames span.stop := by
  have hfirst : Move.recordNames
      (if span.start.isNone then p.deromanizer.toList.map (.apply p.language) else []) = [] := by
    split
    · exact Move.recordNames_map_apply _ _
    · rfl
  rw [plan, Move.recordNames_append, hfirst, List.nil_append]
  cases hstop : span.stop with
  | none => exact recordNames_planFrom (by simp [hstop])
  | some stop =>
    rw [recordedNames.eq_def]
    by_cases hlt : stop < p.stages.length
    · simpa [hlt] using recordNames_planFrom_of_stop hlt (by simpa using hstop)
    · have hnever : ∀ n < p.stages.length, span.stop ≠ some (0 + n) := by
        intro n hn hn'
        simp [hstop] at hn'
        omega
      simpa [hlt] using recordNames_planFrom hnever

/-- The romanizers behind the last rule are those of the last stage, or none. -/
theorem trailingRomanizers_sublist {stages : List Stage} {last : Stage}
    (h : p.stages = stages ++ [last]) :
    (p.trailingRomanizers.map (·.name)).Sublist (Step.romanizerNames last.anchored) := by
  obtain ⟨anchored, rule⟩ := last
  have hlast : p.stages.getLast? = some ⟨anchored, rule⟩ := by simp [h]
  rw [trailingRomanizers, hlast]
  cases rule with
  | some rule => exact List.nil_sublist _
  | none =>
    rw [Step.romanizerNames, List.map_filterMap]
    have hsame (l l' : List String) (heq : l = l') : l.Sublist l' := heq ▸ .refl l
    apply hsame
    congr
    funext step
    cases step <;> rfl

/-- A run that comes to its end records words for the romanizers behind the last rule. -/
theorem mem_recordedNames_of_trailing {rule : NamedRule} (h : rule ∈ p.trailingRomanizers)
    (stop : Option Nat) : rule.name ∈ p.recordedNames stop := by
  have hname := List.mem_map_of_mem (f := (·.name)) h
  have hall : rule.name ∈ Stage.romanizerNames p.stages := by
    rcases p.stages.eq_nil_or_concat with hnil | ⟨stages, last, hstages⟩
    · simp [trailingRomanizers, hnil] at h
    · rw [List.concat_eq_append] at hstages
      have hlast := (trailingRomanizers_sublist hstages).subset hname
      simp [Stage.romanizerNames, hstages, hlast]
  cases stop with
  | none => exact hall
  | some stop =>
    rw [recordedNames.eq_def]
    by_cases hlt : stop < p.stages.length
    · simp only [hlt, if_true]
      exact List.mem_append_right _ hname
    · simpa only [hlt, if_false] using hall

/-- A run records words under names of romanizers in the order of the stages, and at each place at
most once. -/
theorem recordedNames_sublist (p : Pipeline) (stop : Option Nat) :
    (p.recordedNames stop).Sublist (Stage.romanizerNames p.stages) := by
  cases stop with
  | none => exact .refl _
  | some stop =>
    rw [recordedNames.eq_def]
    by_cases hlt : stop < p.stages.length
    · simp only [hlt, if_true]
      obtain ⟨stages, last, hstages⟩ : ∃ stages last, p.stages = stages ++ [last] := by
        rcases p.stages.eq_nil_or_concat with hnil | ⟨stages, last, hstages⟩
        · simp [hnil] at hlt
        · exact ⟨stages, last, hstages.trans List.concat_eq_append⟩
      -- no stage in front of the stop is the last one
      have htake : p.stages.take stop = stages.take stop := by
        rw [hstages, List.take_append_of_le_length]
        simpa [hstages, Nat.lt_succ_iff] using hlt
      have hbefore : (Stage.romanizerNames (stages.take stop)).Sublist
          (Stage.romanizerNames stages) :=
        (List.take_sublist stop stages).flatMap _
      have hall : Stage.romanizerNames p.stages =
          Stage.romanizerNames stages ++ Step.romanizerNames last.anchored := by
        simp [Stage.romanizerNames, hstages]
      rw [htake, hall]
      exact hbefore.append (trailingRomanizers_sublist hstages)
    · simp [hlt]

/-- Where no two romanizers have the same name, none records a word twice, and a word that comes
through is recorded by all that the run visits. -/
theorem snapshots_run (h : (Stage.romanizerNames p.stages).Nodup) (span : Span) (romanize : Bool)
    (initial : Language) (word : String) :
    (((p.plan span romanize).run initial word).2.snapshots.map Prod.fst).Nodup ∧
      (((p.plan span romanize).run initial word).1.isOk →
        ((p.plan span romanize).run initial word).2.snapshots.map Prod.fst =
          p.recordedNames span.stop) := by
  obtain ⟨added, hadded, hprefix, hall⟩ :=
    runMoves_snapshots word (p.plan span romanize).moves (initial.read word) {}
  have hnodup : (p.recordedNames span.stop).Nodup := h.sublist (p.recordedNames_sublist span.stop)
  rw [recordNames_plan] at hprefix hall
  rw [List.nil_append] at hadded
  rw [Plan.run, hadded]
  refine ⟨hnodup.sublist hprefix.sublist, fun hok ↦ hall ?_⟩
  cases hresult : (runMoves word (p.plan span romanize).moves (initial.read word) {}).1 with
  | error fault => simp [hresult, Except.isOk, Except.toBool, Except.map] at hok
  | ok q => rfl

end Pipeline

end Diachrony
