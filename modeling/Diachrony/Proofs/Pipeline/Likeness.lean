import Diachrony.Proofs.Agreement
import Diachrony.Proofs.Pipeline.Idle
import Diachrony.Proofs.Pipeline.Stages

/-!
# Pipelines that run alike

Two pipelines run alike if their runs have the same spans and every word comes to the same form or
to the same fault. So a pipeline runs like itself without its idle steps.

Without them it may end with a stage that has neither steps nor a rule. No plan sees that stage, as
long as the run does not stop in front of it, and a run only stops in front of a rule.
-/

namespace Diachrony

namespace Pipeline

variable (p : Pipeline)

/-- The pipeline with a last stage that has neither steps nor a rule. -/
def withEmptyStage : Pipeline := { p with stages := p.stages ++ [⟨[], none⟩] }

/-- A stage without a rule adds no name. -/
theorem ruleNames_withEmptyStage : p.withEmptyStage.ruleNames = p.ruleNames := by
  rw [ruleNames, withEmptyStage, List.filterMap_append]
  exact List.append_nil _

/-- A stage without a rule is not found. -/
theorem stageIndex_withEmptyStage (name purpose : String) :
    p.withEmptyStage.stageIndex name purpose = p.stageIndex name purpose := by
  have hlast : ([⟨[], none⟩] : List Stage).findIdx? (·.name? == some name) = none := rfl
  rw [stageIndex, stageIndex, withEmptyStage, List.findIdx?_append, hlast]
  cases p.stages.findIdx? (·.name? == some name) <;> rfl

/-- A run has the same span with an empty stage. -/
theorem span_withEmptyStage (startAt stopBefore : Option String) :
    p.withEmptyStage.span startAt stopBefore = p.span startAt stopBefore := by
  simp only [span, stageIndex_withEmptyStage]

variable {p}

/-- If every stage has a rule, no romanizers are behind the last one. -/
theorem trailingRomanizers_of_isSome (h : ∀ stage ∈ p.stages, stage.rule.isSome) :
    p.trailingRomanizers = [] := by
  rw [trailingRomanizers]
  split
  · next anchored hlast => cases h _ (List.mem_of_getLast? hlast)
  · rfl

/-- From any stage on, the plan is the same with an empty stage in front of which it does not
stop. -/
theorem planFrom_withEmptyStage (h : ∀ stage ∈ p.stages, stage.rule.isSome) {span : Span}
    (romanize : Bool) (r : Regime) (index : Nat) (stages : List Stage)
    (hstop : ∀ i, span.stop = some i → i < index + stages.length) :
    p.withEmptyStage.planFrom span romanize r index (stages ++ [⟨[], none⟩]) =
      p.planFrom span romanize r index stages := by
  induction stages generalizing r index with
  | nil =>
    have hne : span.stop ≠ some index := fun heq ↦ Nat.lt_irrefl index (hstop index heq)
    rw [List.nil_append, planFrom_cons _ romanize hne rfl, Regime.stageMoves_none]
    rfl
  | cons stage rest ih =>
    have hrest (r : Regime) : p.withEmptyStage.planFrom span romanize r (index + 1)
        (rest ++ [⟨[], none⟩]) = p.planFrom span romanize r (index + 1) rest := by
      refine ih r (index + 1) fun i hi ↦ ?_
      have hlt := hstop i hi
      rw [List.length_cons] at hlt
      omega
    have htrailing : p.withEmptyStage.trailingRomanizers = p.trailingRomanizers := by
      rw [trailingRomanizers_of_isSome h, trailingRomanizers, withEmptyStage,
        List.getLast?_concat]
      rfl
    rw [List.cons_append, planFrom, planFrom, htrailing]
    simp only [hrest]

/-- The plan is the same with an empty stage in front of which it does not stop. -/
theorem plan_withEmptyStage (h : ∀ stage ∈ p.stages, stage.rule.isSome) {span : Span}
    (hstop : ∀ i, span.stop = some i → i < p.stages.length) (romanize : Bool) :
    p.withEmptyStage.plan span romanize = p.plan span romanize := by
  have hrest : p.withEmptyStage.planFrom span romanize
      ⟨p.withEmptyStage.language, [], span.start.isNone⟩ 0 p.withEmptyStage.stages =
        p.planFrom span romanize ⟨p.language, [], span.start.isNone⟩ 0 p.stages := by
    refine planFrom_withEmptyStage h romanize _ 0 p.stages fun i hi ↦ ?_
    rw [Nat.zero_add]
    exact hstop i hi
  simp only [plan, hrest]
  rfl

/-- A run only stops in front of a stage. -/
theorem stop_lt_of_span {startAt stopBefore : Option String} {span : Span}
    (h : p.span startAt stopBefore = .ok span) {i : Nat} (hstop : span.stop = some i) :
    i < p.stages.length := by
  obtain ⟨start, -, h⟩ := exists_of_bind_eq_ok h
  obtain ⟨stop, hfound, h⟩ := exists_of_bind_eq_ok h
  have hspan : span.stop = stop := by
    split at h
    · split at h
      · cases h
      · cases h
        rfl
    · cases h
      rfl
  rw [hstop] at hspan
  subst hspan
  cases stopBefore with
  | none => cases hfound
  | some name =>
    obtain ⟨index, hindex, heq⟩ := map_eq_ok_iff.mp hfound
    have hindex : p.stageIndex name "stop before" = .ok index := hindex
    cases heq
    rw [stageIndex] at hindex
    split at hindex
    · next index hfind =>
      cases hindex
      exact (List.findIdx?_eq_some_iff_getElem.mp hfind).1
    · cases hindex

/-- Whether runs of a pipeline have the spans of another one, and every word comes to the same form
or to the same fault. -/
structure RunsLike (p q : Pipeline) : Prop where
  /-- The names of the rules. -/
  ruleNames : p.ruleNames = q.ruleNames
  /-- The spans. -/
  span : ∀ startAt stopBefore, p.span startAt stopBefore = q.span startAt stopBefore
  /-- The words. -/
  run : ∀ {startAt stopBefore span}, q.span startAt stopBefore = .ok span → ∀ romanize word,
    ((p.plan span romanize).run p.language word).1 = ((q.plan span romanize).run q.language word).1

namespace RunsLike

variable {q u : Pipeline}

/-- A pipeline runs like itself. -/
theorem refl (p : Pipeline) : p.RunsLike p := ⟨rfl, fun _ _ ↦ rfl, fun _ _ _ ↦ rfl⟩

/-- It does not matter which pipeline comes first. -/
theorem symm (h : p.RunsLike q) : q.RunsLike p :=
  ⟨h.ruleNames.symm, fun startAt stopBefore ↦ (h.span startAt stopBefore).symm,
    fun hspan romanize word ↦ (h.run ((h.span _ _).symm.trans hspan) romanize word).symm⟩

/-- Runs may be compared by way of a third pipeline. -/
theorem trans (h : p.RunsLike q) (h' : q.RunsLike u) : p.RunsLike u :=
  ⟨h.ruleNames.trans h'.ruleNames,
    fun startAt stopBefore ↦ (h.span startAt stopBefore).trans (h'.span startAt stopBefore),
    fun hspan romanize word ↦
      (h.run ((h'.span _ _).trans hspan) romanize word).trans (h'.run hspan romanize word)⟩

/-- A pipeline runs alike without its idle steps. -/
theorem active (p : Pipeline) : p.active.RunsLike p := by
  refine ⟨p.ruleNames_active, p.span_active, fun _ romanize word ↦ ?_⟩
  rw [plan_active]
  exact Plan.run_active _ p.language word

/-- A pipeline in which every stage has a rule runs alike with an empty stage behind the others. -/
theorem withEmptyStage (h : ∀ stage ∈ p.stages, stage.rule.isSome) :
    p.withEmptyStage.RunsLike p := by
  refine ⟨p.ruleNames_withEmptyStage, p.span_withEmptyStage, fun hspan romanize word ↦ ?_⟩
  rw [plan_withEmptyStage h fun _ hstop ↦ stop_lt_of_span hspan hstop]
  rfl

end RunsLike

end Pipeline

end Diachrony
