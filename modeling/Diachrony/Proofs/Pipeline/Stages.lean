import Diachrony.Pipeline.Plan

/-!
# The moves of stages

Once the start has been reached, a run makes the moves of its stages one after the other, in the
regime that the stages before have left. Before the start it makes none but records, yet the regime
changes in the same way.
-/

namespace Diachrony

namespace Regime

/-- What is in force at the start of a whole run. -/
def initial (language : Language) : Regime := ⟨language, [], true⟩

variable (romanize : Bool) (r : Regime)

/-- The moves of stages one after the other. -/
def stagesMoves (romanize : Bool) : Regime → List Stage → List Move
  | _, [] => []
  | r, stage :: rest =>
    r.stageMoves romanize stage ++ stagesMoves romanize (r.afterSteps stage.anchored) rest

/-- What is in force after stages. -/
def afterStages (stages : List Stage) : Regime :=
  stages.foldl (fun r stage ↦ r.afterSteps stage.anchored) r

/-- Steps in two parts. -/
theorem stepsMoves_append (steps others : List Step) :
    r.stepsMoves romanize (steps ++ others) =
      r.stepsMoves romanize steps ++ (r.afterSteps steps).stepsMoves romanize others := by
  induction steps generalizing r with
  | nil => rfl
  | cons step rest ih =>
    rw [List.cons_append, stepsMoves, stepsMoves, ih, List.append_assoc]
    rfl

/-- What is in force after steps in two parts. -/
theorem afterSteps_append (steps others : List Step) :
    r.afterSteps (steps ++ others) = (r.afterSteps steps).afterSteps others :=
  List.foldl_append

/-- Stages in two parts. -/
theorem stagesMoves_append (stages others : List Stage) :
    r.stagesMoves romanize (stages ++ others) =
      r.stagesMoves romanize stages ++ (r.afterStages stages).stagesMoves romanize others := by
  induction stages generalizing r with
  | nil => rfl
  | cons stage rest ih =>
    rw [List.cons_append, stagesMoves, stagesMoves, ih, List.append_assoc]
    rfl

/-- What is in force after stages in two parts. -/
theorem afterStages_append (stages others : List Stage) :
    r.afterStages (stages ++ others) = (r.afterStages stages).afterStages others :=
  List.foldl_append

/-- Steps neither reach the start nor go back behind it. -/
theorem started_afterSteps (steps : List Step) : (r.afterSteps steps).started = r.started := by
  induction steps generalizing r with
  | nil => rfl
  | cons step rest ih =>
    refine (ih (r.afterStep step)).trans ?_
    cases step <;> rfl

/-- Stages neither reach the start nor go back behind it. -/
theorem started_afterStages (stages : List Stage) : (r.afterStages stages).started = r.started := by
  induction stages generalizing r with
  | nil => rfl
  | cons stage rest ih => exact (ih _).trans (r.started_afterSteps stage.anchored)

variable {r}

/-- A stage of a run that has started runs its rule, and then the cleanup rules that are in force
with it. -/
theorem stageMoves_of_started (h : r.started) (anchored : List Step) (rule : NamedRule) :
    r.stageMoves romanize ⟨anchored, some rule⟩ =
      let after := r.afterSteps anchored
      r.stepsMoves romanize anchored ++
        (rule :: after.cleanups).map (.apply after.language) := by
  have hstarted := (r.started_afterSteps anchored).trans h
  rw [stageMoves, if_pos hstarted]
  rfl

/-- A stage without a rule only has the moves of its steps. -/
theorem stageMoves_none (r : Regime) (anchored : List Step) :
    r.stageMoves romanize ⟨anchored, none⟩ = r.stepsMoves romanize anchored := by
  rw [stageMoves]
  split <;> exact List.append_nil _

end Regime

namespace Pipeline

variable (p : Pipeline) (romanize : Bool)

/-- The moves of the romanizer, if words are romanized. -/
def lastMoves (language : Language) : List Move :=
  if romanize then p.romanizer.toList.map (.apply language) else []

/-- A stage in front of which the run does not stop. -/
theorem planFrom_cons {span : Span} {index : Nat} (hstop : span.stop ≠ some index) {r r' : Regime}
    (hregime : { r with started := r.started || span.start == some index } = r') (stage : Stage)
    (rest : List Stage) :
    p.planFrom span romanize r index (stage :: rest) =
      let plan := p.planFrom span romanize (r'.afterSteps stage.anchored) (index + 1) rest
      ⟨r'.stageMoves romanize stage ++ plan.moves, plan.language⟩ := by
  subst hregime
  rw [planFrom, if_neg hstop]

/-- A run that has started makes the moves of all stages and ends with the romanizer. -/
theorem planFrom_of_started {span : Span} (hstop : span.stop = none) {r : Regime}
    (h : r.started = true) (index : Nat) (stages : List Stage) :
    p.planFrom span romanize r index stages =
      ⟨r.stagesMoves romanize stages ++ p.lastMoves romanize (r.afterStages stages).language,
        (r.afterStages stages).language⟩ := by
  induction stages generalizing r index with
  | nil => simp [planFrom, hstop, lastMoves, Regime.stagesMoves, Regime.afterStages]
  | cons stage rest ih =>
    have hregime : { r with started := r.started || span.start == some index } = r := by
      rw [h, Bool.true_or, ← h]
    rw [planFrom_cons p romanize (by simp [hstop]) hregime,
      ih ((r.started_afterSteps stage.anchored).trans h), Regime.stagesMoves, List.append_assoc]
    rfl

/-- The plan of a whole run. -/
theorem plan_eq :
    p.plan {} romanize =
      let last := ((Regime.initial p.language).afterStages p.stages).language
      ⟨p.deromanizer.toList.map (.apply p.language) ++
          (Regime.initial p.language).stagesMoves romanize p.stages ++ p.lastMoves romanize last,
        last⟩ := by
  have hrest : p.planFrom {} romanize ⟨p.language, [], true⟩ 0 p.stages = _ :=
    p.planFrom_of_started romanize rfl rfl 0 p.stages
  simp only [plan, Option.isNone_none, hrest, if_true, List.append_assoc, Regime.initial]

end Pipeline

end Diachrony
