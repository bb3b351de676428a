import Mathlib.Data.List.Basic
import Diachrony.Proofs.Pipeline.Stages

/-!
# Runs that stop and runs that start

A run that stops in front of a stage makes the moves of the stages before, and a run that starts at
the stage makes those of the others, in the regime that the stages before leave. So where stages
only declare cleanup rules and turn them off, both runs together make the moves of a whole run.
-/

namespace Diachrony

/-- Whether a step declares a cleanup rule or turns it off. -/
def Step.isCleanup : Step → Bool
  | cleanup _ | cleanupOff _ => true
  | syllables _ | romanizer _ => false

/-- Whether the steps of a stage declare cleanup rules or turn them off. -/
def Stage.HasOnlyCleanups (s : Stage) : Prop := ∀ step ∈ s.anchored, step.isCleanup

namespace Regime

variable {r : Regime}

/-- The regime as it is once the start has been reached. -/
def start (r : Regime) : Regime := { r with started := true }

/-- Whether the start has been reached has no part in what comes into force. -/
theorem start_afterSteps (r : Regime) (steps : List Step) :
    (r.afterSteps steps).start = r.start.afterSteps steps := by
  induction steps generalizing r with
  | nil => rfl
  | cons step rest ih =>
    refine (ih (r.afterStep step)).trans ?_
    cases step <;> rfl

/-- Whether the start has been reached has no part in what comes into force. -/
theorem start_afterStages (r : Regime) (stages : List Stage) :
    (r.afterStages stages).start = r.start.afterStages stages := by
  induction stages generalizing r with
  | nil => rfl
  | cons stage rest ih =>
    refine (ih (r.afterSteps stage.anchored)).trans ?_
    rw [start_afterSteps]
    rfl

/-- Cleanup rules do not change the language. -/
theorem language_afterSteps (r : Regime) {steps : List Step} (h : ∀ step ∈ steps, step.isCleanup) :
    (r.afterSteps steps).language = r.language := by
  induction steps generalizing r with
  | nil => rfl
  | cons step rest ih =>
    rw [List.forall_mem_cons] at h
    refine (ih _ h.2).trans ?_
    cases step with
    | cleanup _ | cleanupOff _ => rfl
    | syllables _ | romanizer _ => cases h.1

/-- Stages with nothing but cleanup rules do not change the language. -/
theorem language_afterStages (r : Regime) {stages : List Stage}
    (h : ∀ stage ∈ stages, stage.HasOnlyCleanups) :
    (r.afterStages stages).language = r.language := by
  induction stages generalizing r with
  | nil => rfl
  | cons stage rest ih =>
    rw [List.forall_mem_cons] at h
    exact (ih _ h.2).trans (r.language_afterSteps h.1)

variable (romanize : Bool) (hstarted : r.started = false)
include hstarted

/-- Before the start, cleanup rules are not applied. -/
theorem stepsMoves_of_not_started {steps : List Step} (h : ∀ step ∈ steps, step.isCleanup) :
    r.stepsMoves romanize steps = [] := by
  induction steps generalizing r with
  | nil => rfl
  | cons step rest ih =>
    rw [List.forall_mem_cons] at h
    have hafter : (r.afterStep step).started = false := by
      rw [← hstarted]
      cases step <;> rfl
    rw [stepsMoves, ih hafter h.2, List.append_nil]
    cases step with
    | cleanup rule => rw [stepMoves, if_neg (by simp [hstarted])]
    | cleanupOff _ => rfl
    | syllables _ | romanizer _ => cases h.1

/-- Before the start, no rule is applied. -/
theorem stagesMoves_of_not_started {stages : List Stage}
    (h : ∀ stage ∈ stages, stage.HasOnlyCleanups) : r.stagesMoves romanize stages = [] := by
  induction stages generalizing r with
  | nil => rfl
  | cons stage rest ih =>
    rw [List.forall_mem_cons] at h
    have hafter := (r.started_afterSteps stage.anchored).trans hstarted
    rw [stagesMoves, ih hafter h.2, List.append_nil, stageMoves, if_neg (by simp [hafter]),
      List.map_nil, List.append_nil]
    exact stepsMoves_of_not_started romanize hstarted h.1

end Regime

namespace Pipeline

variable (p : Pipeline) (romanize : Bool) (before after : List Stage) (stage : Stage)

/-- A run that has started and stops in front of a stage makes the moves of the stages before. -/
theorem planFrom_of_stop {r : Regime} (h : r.started = true) (index : Nat) :
    p.planFrom ⟨none, some (index + before.length)⟩ romanize r index (before ++ stage :: after) =
      ⟨r.stagesMoves romanize before ++
          p.trailingRomanizers.map (.record (r.afterStages before).language · romanize),
        (r.afterStages before).language⟩ := by
  induction before generalizing r index with
  | nil =>
    rw [List.nil_append, planFrom, List.length_nil, Nat.add_zero, if_pos rfl]
    rfl
  | cons first rest ih =>
    have hregime : { r with started := r.started || none == some index } = r := by
      rw [h, Bool.true_or, ← h]
    have hindex : index + (first :: rest).length = index + 1 + rest.length := by
      rw [List.length_cons]
      omega
    have hstop : (⟨none, some (index + 1 + rest.length)⟩ : Span).stop ≠ some index := by
      simp
      omega
    rw [hindex, List.cons_append, planFrom_cons p romanize hstop hregime,
      ih ((r.started_afterSteps first.anchored).trans h), Regime.stagesMoves, List.append_assoc]
    rfl

/-- A run that starts at a stage makes the moves from the stage on, in the regime that the stages
before have left. -/
theorem planFrom_of_start {r : Regime} (h : r.started = false) (index : Nat) :
    p.planFrom ⟨some (index + before.length), none⟩ romanize r index (before ++ stage :: after) =
      let reached := (r.afterStages before).start
      let last := (reached.afterStages (stage :: after)).language
      ⟨r.stagesMoves romanize before ++ reached.stagesMoves romanize (stage :: after) ++
        p.lastMoves romanize last, last⟩ := by
  induction before generalizing r index with
  | nil =>
    have hregime : { r with started := r.started || some index == some index } = r.start := by
      simp [Regime.start]
    have hstarted := r.start.started_afterSteps stage.anchored
    rw [List.nil_append, List.length_nil, Nat.add_zero, planFrom_cons p romanize (by simp) hregime,
      planFrom_of_started p romanize rfl hstarted]
    simp [Regime.stagesMoves, Regime.afterStages]
  | cons first rest ih =>
    have hindex : index + (first :: rest).length = index + 1 + rest.length := by
      rw [List.length_cons]
      omega
    have hne : (some (index + 1 + rest.length) == some index) = false := by
      simp
      omega
    have hregime : { r with started := r.started || some (index + 1 + rest.length) == some index } =
        r := by
      rw [hne, Bool.or_false]
    rw [hindex, List.cons_append, planFrom_cons p romanize (by simp) hregime,
      ih ((r.started_afterSteps first.anchored).trans h), Regime.stagesMoves]
    simp only [List.append_assoc]
    rfl

variable {p before after stage} (hstages : p.stages = before ++ stage :: after)
include hstages

/-- The plan of a run that stops in front of a stage. -/
theorem plan_of_stop :
    p.plan ⟨none, some before.length⟩ romanize =
      let last := ((Regime.initial p.language).afterStages before).language
      ⟨p.deromanizer.toList.map (.apply p.language) ++
          ((Regime.initial p.language).stagesMoves romanize before ++
            p.trailingRomanizers.map (.record last · romanize)), last⟩ := by
  have hrest := p.planFrom_of_stop romanize before after stage (r := .initial p.language) rfl 0
  rw [Nat.zero_add, ← hstages, Regime.initial] at hrest
  rw [plan, Option.isNone_none, hrest, if_pos rfl]
  rfl

/-- The plan of a run that starts at a stage. -/
theorem plan_of_start :
    p.plan ⟨some before.length, none⟩ romanize =
      let unreached : Regime := ⟨p.language, [], false⟩
      let reached := (unreached.afterStages before).start
      let last := (reached.afterStages (stage :: after)).language
      ⟨unreached.stagesMoves romanize before ++ reached.stagesMoves romanize (stage :: after) ++
        p.lastMoves romanize last, last⟩ := by
  have hrest := p.planFrom_of_start romanize before after stage (r := ⟨p.language, [], false⟩) rfl 0
  rw [Nat.zero_add, ← hstages] at hrest
  rw [plan, Option.isNone_some, hrest, if_neg (by simp)]
  rfl

/-- Where stages only declare cleanup rules and turn them off, a run that stops in front of a stage
and a run that starts at it make the moves of a whole run together, all in one language. -/
theorem plan_append (h : ∀ stage ∈ p.stages, stage.HasOnlyCleanups) :
    (p.plan {} romanize).moves =
        (p.plan ⟨none, some before.length⟩ romanize).moves ++
          (p.plan ⟨some before.length, none⟩ romanize).moves ∧
      (p.plan {} romanize).language = p.language ∧
      (p.plan ⟨none, some before.length⟩ romanize).language = p.language ∧
      (p.plan ⟨some before.length, none⟩ romanize).language = p.language := by
  have htrailing : p.trailingRomanizers = [] := by
    rw [trailingRomanizers]
    split
    · next anchored hlast =>
      refine List.filterMap_eq_nil_iff.mpr fun step hstep ↦ ?_
      have hcleanup := h _ (List.mem_of_getLast? hlast) step hstep
      cases step with
      | cleanup _ | cleanupOff _ | syllables _ => rfl
      | romanizer _ => cases hcleanup
    · rfl
  rw [plan_eq, plan_of_stop romanize hstages, plan_of_start romanize hstages, htrailing]
  rw [hstages, List.forall_mem_append] at h
  have hreached : ((Regime.mk p.language [] false).afterStages before).start =
      (Regime.initial p.language).afterStages before := Regime.start_afterStages _ _
  have hunreached := Regime.stagesMoves_of_not_started romanize
    (r := ⟨p.language, [], false⟩) rfl h.1
  have hbefore := (Regime.initial p.language).language_afterStages h.1
  have hafter := ((Regime.initial p.language).afterStages before).language_afterStages h.2
  simp only [hreached, hunreached, hstages, Regime.stagesMoves_append, Regime.afterStages_append,
    hafter, hbefore, List.map_nil, List.append_nil, List.nil_append, List.append_assoc, true_and]
  exact ⟨rfl, rfl, rfl⟩

end Pipeline

end Diachrony
