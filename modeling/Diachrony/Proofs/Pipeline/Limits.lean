import Diachrony.Pipeline.Course
import Diachrony.Proofs.Change.Limits
import Diachrony.Proofs.Linking.Limits

/-!
# Runs under greater limits

What a pipeline does between a start and a stop does not depend on limits. A word that comes to its
last form has made all of its moves, and each of them has the same result under greater limits, so
the word comes to the same form and leaves the same behind.
-/

namespace Diachrony

/-- The move with other limits for its language. -/
def Move.withLimits (limits : Limits) : Move → Move
  | apply language rule => apply (language.withLimits limits) rule
  | divide language => divide (language.withLimits limits)
  | record language rule romanize => record (language.withLimits limits) rule romanize

/-- The plan with other limits for its languages. -/
def Plan.withLimits (limits : Limits) (p : Plan) : Plan :=
  { moves := p.moves.map (Move.withLimits limits), language := p.language.withLimits limits }

/-- What is in force, with other limits for the language. -/
def Regime.withLimits (limits : Limits) (r : Regime) : Regime :=
  { r with language := r.language.withLimits limits }

variable (limits : Limits)

namespace Regime

variable (romanize : Bool) (r : Regime)

private theorem stepMoves_withLimits (step : Step) :
    (r.withLimits limits).stepMoves romanize (step.withLimits limits) =
      (r.stepMoves romanize step).map (Move.withLimits limits) := by
  cases step with
  | syllables _ | cleanup _ =>
    rw [stepMoves, withLimits]
    cases r.started <;> rfl
  | cleanupOff _ | romanizer _ => rfl

private theorem afterStep_withLimits (step : Step) :
    (r.withLimits limits).afterStep (step.withLimits limits) =
      (r.afterStep step).withLimits limits := by
  cases step with
  | syllables _ | cleanup _ | cleanupOff _ | romanizer _ => rfl

private theorem afterSteps_withLimits (steps : List Step) :
    (r.withLimits limits).afterSteps (steps.map (Step.withLimits limits)) =
      (r.afterSteps steps).withLimits limits := by
  induction steps generalizing r with
  | nil => rfl
  | cons step rest ih =>
    rw [List.map_cons, afterSteps, List.foldl_cons, afterStep_withLimits]
    exact ih (r.afterStep step)

private theorem stepsMoves_withLimits (steps : List Step) :
    (r.withLimits limits).stepsMoves romanize (steps.map (Step.withLimits limits)) =
      (r.stepsMoves romanize steps).map (Move.withLimits limits) := by
  induction steps generalizing r with
  | nil => rfl
  | cons step rest ih =>
    rw [List.map_cons, stepsMoves, stepsMoves, stepMoves_withLimits, afterStep_withLimits, ih,
      List.map_append]

private theorem stageMoves_withLimits (s : Stage) :
    (r.withLimits limits).stageMoves romanize (s.withLimits limits) =
      (r.stageMoves romanize s).map (Move.withLimits limits) := by
  rw [stageMoves, stageMoves, Stage.withLimits]
  simp only [afterSteps_withLimits, stepsMoves_withLimits, List.map_append, List.map_map]
  rfl

end Regime

namespace Pipeline

variable (p : Pipeline)

/-- Limits have no part in what the rules of a pipeline are called. -/
theorem ruleNames_withLimits : (p.withLimits limits).ruleNames = p.ruleNames :=
  List.filterMap_map

private theorem stageIndex_withLimits (name purpose : String) :
    (p.withLimits limits).stageIndex name purpose = p.stageIndex name purpose := by
  rw [stageIndex, stageIndex, withLimits, List.findIdx?_map]
  rfl

/-- The span between two rules does not depend on limits. -/
theorem span_withLimits (startAt stopBefore : Option String) :
    (p.withLimits limits).span startAt stopBefore = p.span startAt stopBefore := by
  simp only [span, stageIndex_withLimits]

private theorem trailingRomanizers_withLimits :
    (p.withLimits limits).trailingRomanizers = p.trailingRomanizers := by
  rw [trailingRomanizers, trailingRomanizers, withLimits, List.getLast?_map]
  cases p.stages.getLast? with
  | none => rfl
  | some stage =>
    obtain ⟨anchored, rule⟩ := stage
    cases rule with
    | none =>
      show (anchored.map (Step.withLimits limits)).filterMap _ = anchored.filterMap _
      rw [List.filterMap_map]
      refine List.filterMap_congr fun step _ ↦ ?_
      cases step with
      | syllables _ | cleanup _ | cleanupOff _ | romanizer _ => rfl
    | some rule => rfl

private theorem planFrom_withLimits (span : Span) (romanize : Bool) (r : Regime) (index : Nat)
    (stages : List Stage) :
    (p.withLimits limits).planFrom span romanize (r.withLimits limits) index
        (stages.map (Stage.withLimits limits)) =
      (p.planFrom span romanize r index stages).withLimits limits := by
  induction stages generalizing r index with
  | nil =>
    rw [List.map_nil, planFrom, planFrom]
    split
    · rw [Plan.withLimits, List.map_map]
      rfl
    · rfl
  | cons stage rest ih =>
    rw [List.map_cons, planFrom, planFrom]
    split
    · rw [Plan.withLimits, List.map_map, trailingRomanizers_withLimits]
      rfl
    · let next : Regime := { r with started := r.started || span.start == some index }
      have hmoves := Regime.stageMoves_withLimits limits romanize next stage
      have hrest := ih (next.afterSteps stage.anchored) (index + 1)
      rw [← Regime.afterSteps_withLimits] at hrest
      rw [Plan.withLimits, List.map_append, ← hmoves]
      exact congrArg (fun plan : Plan ↦ Plan.mk (_ ++ plan.moves) plan.language) hrest

/-- The plan of a run differs in the limits of its languages alone. -/
theorem plan_withLimits (span : Span) (romanize : Bool) :
    (p.withLimits limits).plan span romanize = (p.plan span romanize).withLimits limits := by
  have hrest := p.planFrom_withLimits limits span romanize ⟨p.language, [], span.start.isNone⟩ 0
    p.stages
  have hfirst : (if span.start.isNone then
      p.deromanizer.toList.map (.apply (p.language.withLimits limits)) else []) =
      (if span.start.isNone then
        p.deromanizer.toList.map (.apply p.language) else []).map (Move.withLimits limits) := by
    split
    · rw [List.map_map]
      rfl
    · rfl
  rw [Plan.withLimits, plan, plan, List.map_append, ← hfirst]
  exact congrArg (fun plan : Plan ↦ Plan.mk (_ ++ plan.moves) plan.language) hrest

end Pipeline

section Running

variable {limits} {limits' : Limits} (h : limits ≤ limits')
include h

/-- What a move makes of a phrase does not change under greater limits. -/
theorem Move.result_persists (move : Move) (p : Phrase) :
    Persists ((move.withLimits limits).result p) ((move.withLimits limits').result p) := by
  have happlied (language : Language) (rule : NamedRule) :
      Persists (applied (language.withLimits limits) rule p)
        (applied (language.withLimits limits') rule p) :=
    (rule.fire_persists h language p).bind fun _ ↦ .refl _
  cases move with
  | apply language rule => exact happlied language rule
  | divide language =>
    have hdivide := language.syllabify_persists h p
    simp only [withLimits, result, Language.syllabifier_withLimits]
    split
    · exact hdivide
    · exact .refl _
  | record language rule romanize =>
    exact .ite .rfl (happlied language rule) (.refl _)

/-- A word that makes all its moves makes them alike under greater limits. -/
theorem runMoves_of_ok {given : String} {moves : List Move} {p q : Phrase} {log : Log}
    (hrun : (runMoves given (moves.map (Move.withLimits limits)) p log).1 = .ok q) :
    runMoves given (moves.map (Move.withLimits limits')) p log =
      runMoves given (moves.map (Move.withLimits limits)) p log := by
  induction moves generalizing p log with
  | nil => rfl
  | cons move rest ih =>
    rw [List.map_cons, runMoves] at hrun
    rw [List.map_cons, List.map_cons, runMoves, runMoves]
    cases hmove : (move.withLimits limits).result p with
    | error fault =>
      rw [hmove] at hrun
      cases hrun
    | ok after =>
      rw [hmove] at hrun
      rw [move.result_persists h p after hmove]
      cases move with
      | apply _ _ | divide _ | record _ _ _ => exact ih hrun

/-- A word that comes to its last form comes to it alike under greater limits. -/
theorem Plan.run_of_ok (initial : Language) {plan : Plan} {word form : String}
    (hrun : ((plan.withLimits limits).run (initial.withLimits limits) word).1 = .ok form) :
    (plan.withLimits limits').run (initial.withLimits limits') word =
      (plan.withLimits limits).run (initial.withLimits limits) word := by
  have hmoves : ∃ q, (runMoves word (plan.moves.map (Move.withLimits limits))
      (initial.read word) {}).1 = .ok q := by
    change Except.map _ (runMoves word (plan.moves.map (Move.withLimits limits))
      (initial.read word) {}).1 = _ at hrun
    cases hresult : (runMoves word (plan.moves.map (Move.withLimits limits))
        (initial.read word) {}).1 with
    | error fault =>
      rw [hresult] at hrun
      cases hrun
    | ok q => exact ⟨q, rfl⟩
  obtain ⟨q, hq⟩ := hmoves
  exact congrArg (fun run : Except Fault Phrase × Log ↦ (run.1.map plan.language.write, run.2))
    (runMoves_of_ok h hq)

end Running

end Diachrony
