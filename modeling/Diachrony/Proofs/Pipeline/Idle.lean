import Mathlib.Data.List.Basic
import Diachrony.Pipeline.Course

/-!
# Idle romanizers

A romanizer without expressions leaves every phrase as it is. It records the word, and nothing else
happens. So a plan without such records comes to the same form of every word or to the same fault,
and it is the plan of the pipeline without such romanizers.
-/

namespace Diachrony

/-- Whether a rule is made of no expressions. -/
def NamedRule.isIdle (r : NamedRule) : Bool :=
  match r.rule with
  | .simple ⟨[], none, _⟩ => true
  | _ => false

/-- Whether a step only records words as they are written anyway. -/
def Step.isIdle : Step → Bool
  | romanizer rule => rule.isIdle
  | syllables _ | cleanup _ | cleanupOff _ => false

/-- The steps that are not idle. -/
def Step.active (steps : List Step) : List Step := steps.filter (!·.isIdle)

/-- An idle step is left out. -/
theorem Step.active_cons_of_isIdle {step : Step} (h : step.isIdle = true) (rest : List Step) :
    active (step :: rest) = active rest :=
  List.filter_cons_of_neg (by simp [h])

/-- Any other step is not. -/
theorem Step.active_cons_of_not_isIdle {step : Step} (h : step.isIdle = false) (rest : List Step) :
    active (step :: rest) = step :: active rest :=
  List.filter_cons_of_pos (by simp [h])

/-- Whether a move only records a word as it is written anyway. -/
def Move.isIdle : Move → Bool
  | record _ rule _ => rule.isIdle
  | apply _ _ | divide _ => false

/-- The moves that are not idle. -/
def Move.active (moves : List Move) : List Move := moves.filter (!·.isIdle)

/-- The stage without its idle steps. -/
def Stage.active (s : Stage) : Stage := { s with anchored := Step.active s.anchored }

/-- The plan without its idle moves. -/
def Plan.active (plan : Plan) : Plan := { plan with moves := Move.active plan.moves }

section Running

/-- A rule without expressions does not fire. -/
theorem SimpleRule.apply_of_nil (lang : Language) (mode : MatchMode) (p : Phrase) :
    SimpleRule.apply lang ⟨[], none, mode⟩ p = .ok none := by
  cases mode with
  | simultaneous =>
    have hedits : acceptedEdits lang ⟨[], none, .simultaneous⟩ p = .ok [] := by
      simp [acceptedEdits, selection?, acceptFrom, byPosition, bind, Except.bind, pure, Except.pure]
    rw [apply, applyAtOnce, hedits]
    rfl
  | leftToRight => rfl
  | rightToLeft => rfl

/-- A rule that is made of no expressions leaves every phrase as it is. -/
theorem Move.applied_of_isIdle {r : NamedRule} (h : r.isIdle) (lang : Language) (p : Phrase) :
    applied lang r p = .ok p := by
  obtain ⟨name, rule⟩ := r
  rw [NamedRule.isIdle] at h
  split at h
  · next mode heq =>
    have hrule : rule = .simple ⟨[], none, mode⟩ := heq
    have happly : Rule.apply lang (.simple ⟨[], none, mode⟩) p = .ok none :=
      (Rule.apply.eq_def ..).trans (SimpleRule.apply_of_nil lang mode p)
    rw [hrule, applied, NamedRule.fire, Rule.underName, happly]
    rfl
  · cases h

/-- An idle move leaves every phrase as it is. -/
theorem Move.result_of_isIdle {move : Move} (h : move.isIdle) (p : Phrase) :
    move.result p = .ok p := by
  cases move with
  | record language rule romanize =>
    rw [result, applied_of_isIdle h]
    split <;> rfl
  | apply _ _ | divide _ => cases h

/-- A word comes to the same without idle moves, whatever has been noted before. -/
theorem runMoves_active (given : String) (moves : List Move) (p : Phrase) (log log' : Log) :
    (runMoves given (Move.active moves) p log).1 = (runMoves given moves p log').1 := by
  induction moves generalizing p log log' with
  | nil => rfl
  | cons move rest ih =>
    cases hidle : move.isIdle with
    | true =>
      rw [Move.active, List.filter_cons_of_neg (by simp [hidle]), runMoves,
        Move.result_of_isIdle hidle]
      cases move with
      | record _ _ _ => exact ih p _ _
      | apply _ _ | divide _ => cases hidle
    | false =>
      rw [Move.active, List.filter_cons_of_pos (by simp [hidle]), runMoves, runMoves]
      cases move.result p with
      | error fault => rfl
      | ok q =>
        cases move with
        | record _ _ _ => exact ih p _ _
        | apply _ _ | divide _ => exact ih q _ _

/-- A word comes to the same form or to the same fault without idle moves. -/
theorem Plan.run_active (plan : Plan) (initial : Language) (word : String) :
    (plan.active.run initial word).1 = (plan.run initial word).1 :=
  congrArg (Except.map plan.language.write) (runMoves_active word plan.moves _ {} {})

end Running

section Planning

/-- Moves of rules are not idle. -/
theorem Move.active_map_apply (language : Language) (rules : List NamedRule) :
    active (rules.map (.apply language)) = rules.map (.apply language) := by
  rw [active, List.filter_eq_self]
  intro move hmove
  obtain ⟨rule, -, rfl⟩ := List.mem_map.mp hmove
  rfl

/-- The active ones among moves in two parts. -/
theorem Move.active_append (moves others : List Move) :
    active (moves ++ others) = active moves ++ active others :=
  List.filter_append ..

namespace Regime

variable (romanize : Bool) (r : Regime)

/-- Idle steps change nothing that is in force. -/
theorem afterSteps_active (steps : List Step) :
    r.afterSteps (Step.active steps) = r.afterSteps steps := by
  induction steps generalizing r with
  | nil => rfl
  | cons step rest ih =>
    cases hidle : step.isIdle with
    | false =>
      rw [Step.active_cons_of_not_isIdle hidle]
      exact ih (r.afterStep step)
    | true =>
      rw [Step.active_cons_of_isIdle hidle]
      cases step with
      | romanizer rule => exact ih r
      | syllables _ | cleanup _ | cleanupOff _ => cases hidle

/-- A step asks for active moves only, unless it is idle. -/
theorem active_stepMoves (step : Step) :
    Move.active (r.stepMoves romanize step) =
      if step.isIdle then [] else r.stepMoves romanize step := by
  cases step with
  | syllables _ | cleanup _ =>
    rw [stepMoves]
    split <;> rfl
  | cleanupOff _ => rfl
  | romanizer rule =>
    rw [stepMoves, Move.active, List.filter_singleton, Move.isIdle, Step.isIdle]
    cases rule.isIdle <;> rfl

/-- Active steps ask for the active moves. -/
theorem stepsMoves_active (steps : List Step) :
    r.stepsMoves romanize (Step.active steps) = Move.active (r.stepsMoves romanize steps) := by
  induction steps generalizing r with
  | nil => rfl
  | cons step rest ih =>
    rw [stepsMoves, Move.active_append, active_stepMoves, ← ih]
    cases hidle : step.isIdle with
    | false =>
      rw [Step.active_cons_of_not_isIdle hidle]
      rfl
    | true =>
      rw [Step.active_cons_of_isIdle hidle]
      cases step with
      | romanizer rule => rfl
      | syllables _ | cleanup _ | cleanupOff _ => cases hidle

/-- A stage without its idle steps asks for the active moves. -/
theorem stageMoves_active (s : Stage) :
    r.stageMoves romanize s.active = Move.active (r.stageMoves romanize s) := by
  rw [stageMoves, stageMoves, Move.active_append, Move.active_map_apply, Stage.active,
    stepsMoves_active, afterSteps_active]

end Regime

namespace Pipeline

variable (p : Pipeline)

/-- The pipeline without its idle steps. -/
def active : Pipeline := { p with stages := p.stages.map Stage.active }

/-- The rules of stages have the same names without idle steps. -/
theorem name?_comp_active : Stage.name? ∘ Stage.active = Stage.name? := rfl

/-- The rules of a pipeline have the same names without idle steps. -/
theorem ruleNames_active : p.active.ruleNames = p.ruleNames := by
  rw [ruleNames, active, List.filterMap_map, name?_comp_active, ← ruleNames]

/-- A rule has the same place without idle steps. -/
theorem stageIndex_active (name purpose : String) :
    p.active.stageIndex name purpose = p.stageIndex name purpose := by
  rw [stageIndex, stageIndex, active, List.findIdx?_map]
  rfl

/-- A run has the same span without idle steps. -/
theorem span_active (startAt stopBefore : Option String) :
    p.active.span startAt stopBefore = p.span startAt stopBefore := by
  simp only [span, stageIndex_active]

/-- The romanizers behind the last rule that are not idle are recorded by the active moves. -/
theorem trailingRomanizers_active (language : Language) (romanize : Bool) :
    p.active.trailingRomanizers.map (.record language · romanize) =
      Move.active (p.trailingRomanizers.map (.record language · romanize)) := by
  rw [trailingRomanizers, trailingRomanizers, active, List.getLast?_map]
  cases p.stages.getLast? with
  | none => rfl
  | some stage =>
    obtain ⟨anchored, rule⟩ := stage
    cases rule with
    | some rule => rfl
    | none =>
      show List.map _ (List.filterMap _ (Step.active anchored)) = _
      induction anchored with
      | nil => rfl
      | cons step rest ih =>
        cases hidle : step.isIdle with
        | true =>
          rw [Step.active_cons_of_isIdle hidle, ih]
          cases step with
          | romanizer rule =>
            have hrule : rule.isIdle = true := hidle
            exact (List.filter_cons_of_neg (by simp [Move.isIdle, hrule])).symm
          | syllables _ | cleanup _ | cleanupOff _ => cases hidle
        | false =>
          rw [Step.active_cons_of_not_isIdle hidle]
          cases step with
          | romanizer rule =>
            have hrule : rule.isIdle = false := hidle
            refine (congrArg (Move.record language rule romanize :: ·) ih).trans ?_
            exact (List.filter_cons_of_pos (by simp [Move.isIdle, hrule])).symm
          | syllables _ | cleanup _ | cleanupOff _ => exact ih

/-- From any stage on, the plan without idle steps is the plan without idle moves. -/
theorem planFrom_active (span : Span) (romanize : Bool) (r : Regime) (index : Nat)
    (stages : List Stage) :
    p.active.planFrom span romanize r index (stages.map Stage.active) =
      (p.planFrom span romanize r index stages).active := by
  induction stages generalizing r index with
  | nil =>
    rw [List.map_nil, planFrom, planFrom, Plan.active]
    split
    · rw [Move.active_map_apply]
      rfl
    · rfl
  | cons stage rest ih =>
    rw [List.map_cons, planFrom, planFrom]
    split
    · rw [Plan.active, trailingRomanizers_active]
    · have hsteps (r : Regime) : r.afterSteps stage.active.anchored = r.afterSteps stage.anchored :=
        r.afterSteps_active stage.anchored
      simp only [hsteps, ih, Regime.stageMoves_active, Plan.active, Move.active_append]

/-- The plan of a pipeline without its idle steps is the plan without its idle moves. -/
theorem plan_active (span : Span) (romanize : Bool) :
    p.active.plan span romanize = (p.plan span romanize).active := by
  have hrest : p.active.planFrom span romanize ⟨p.active.language, [], span.start.isNone⟩ 0
      p.active.stages = (p.planFrom span romanize ⟨p.language, [], span.start.isNone⟩ 0
        p.stages).active := p.planFrom_active span romanize _ 0 p.stages
  have hfirst : Move.active
      (if span.start.isNone then p.deromanizer.toList.map (.apply p.language) else []) =
        if span.start.isNone then p.deromanizer.toList.map (.apply p.language) else [] := by
    split
    · exact Move.active_map_apply _ _
    · rfl
  simp only [plan, hrest, Plan.active, Move.active_append, hfirst]
  rfl

end Pipeline

end Planning

end Diachrony
