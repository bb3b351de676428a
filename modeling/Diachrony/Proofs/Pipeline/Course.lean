import Diachrony.Pipeline.Course
import Diachrony.Proofs.Change.Rules

/-!
# The faults on the course of a word

The moves of a plan apply rules of the pipeline. A word that fails does so in one of these moves,
and its fault names the move: as a mistake if the fault of the move was one, and as a crash
otherwise.
-/

namespace Diachrony

/-- The rules of a step. -/
def Step.rules : Step → List NamedRule
  | cleanup rule | romanizer rule => [rule]
  | syllables _ | cleanupOff _ => []

/-- The rules of a stage. -/
def Stage.rules (s : Stage) : List NamedRule := s.anchored.flatMap Step.rules ++ s.rule.toList

/-- Among the rules of a stage are those of its steps and its own. -/
theorem Stage.of_rules_subset {s : Stage} {rules : List NamedRule} (h : s.rules ⊆ rules) :
    (∀ step ∈ s.anchored, step.rules ⊆ rules) ∧ s.rule.toList ⊆ rules := by
  obtain ⟨hsteps, hrule⟩ := List.append_subset.mp h
  refine ⟨fun step hstep rule hmem ↦ hsteps ?_, hrule⟩
  exact List.mem_flatMap.mpr ⟨step, hstep, hmem⟩

/-- The rules of a pipeline. -/
def Pipeline.rules (p : Pipeline) : List NamedRule :=
  p.deromanizer.toList ++ p.stages.flatMap Stage.rules ++ p.romanizer.toList

/-- The rule that a move applies, if it applies one. -/
def Move.rules : Move → List NamedRule
  | apply _ rule | record _ rule _ => [rule]
  | divide _ => []

/-- Whether moves apply rules of a list only. -/
def MovesAmong (rules : List NamedRule) (moves : List Move) : Prop :=
  ∀ move ∈ moves, move.rules ⊆ rules

namespace Regime

variable {rules : List NamedRule} {r : Regime}

/-- The cleanup rules after a step are those before it and those of the step. -/
theorem cleanups_afterStep (h : r.cleanups ⊆ rules) {step : Step} (hstep : step.rules ⊆ rules) :
    (r.afterStep step).cleanups ⊆ rules := by
  cases step with
  | syllables _ | romanizer _ => exact h
  | cleanup rule => exact List.append_subset.mpr ⟨h, hstep⟩
  | cleanupOff name => exact List.Subset.trans (List.filter_subset_self _) h

/-- The cleanup rules after steps are those before them and those of the steps. -/
theorem cleanups_afterSteps {steps : List Step} (h : r.cleanups ⊆ rules)
    (hsteps : ∀ step ∈ steps, step.rules ⊆ rules) : (r.afterSteps steps).cleanups ⊆ rules := by
  induction steps generalizing r with
  | nil => exact h
  | cons step rest ih =>
    rw [List.forall_mem_cons] at hsteps
    exact ih (cleanups_afterStep h hsteps.1) hsteps.2

private theorem movesAmong_stepMoves (romanize : Bool) {step : Step} (hstep : step.rules ⊆ rules) :
    MovesAmong rules (r.stepMoves romanize step) := by
  intro move hmove
  cases step with
  | syllables language =>
    rw [stepMoves] at hmove
    split at hmove
    · cases List.mem_singleton.mp hmove
      exact List.nil_subset _
    · cases hmove
  | cleanup rule =>
    rw [stepMoves] at hmove
    split at hmove
    · cases List.mem_singleton.mp hmove
      exact hstep
    · cases hmove
  | cleanupOff name => cases hmove
  | romanizer rule =>
    cases List.mem_singleton.mp hmove
    exact hstep

/-- The moves of steps apply the rules of the steps. -/
theorem movesAmong_stepsMoves (romanize : Bool) {steps : List Step}
    (hsteps : ∀ step ∈ steps, step.rules ⊆ rules) :
    MovesAmong rules (r.stepsMoves romanize steps) := by
  induction steps generalizing r with
  | nil => exact fun _ h ↦ (nomatch h)
  | cons step rest ih =>
    rw [List.forall_mem_cons] at hsteps
    exact List.forall_mem_append.mpr ⟨movesAmong_stepMoves romanize hsteps.1, ih hsteps.2⟩

/-- The moves of a stage apply the rules of the stage and the cleanup rules before it. -/
theorem movesAmong_stageMoves (romanize : Bool) (h : r.cleanups ⊆ rules) {s : Stage}
    (hstage : s.rules ⊆ rules) : MovesAmong rules (r.stageMoves romanize s) := by
  obtain ⟨hsteps, hrule⟩ := Stage.of_rules_subset hstage
  have hcleanups := cleanups_afterSteps h hsteps
  refine List.forall_mem_append.mpr ⟨movesAmong_stepsMoves romanize hsteps, fun move hmove ↦ ?_⟩
  obtain ⟨rule, hmem, rfl⟩ := List.mem_map.mp hmove
  have hknown : rule ∈ rules := by
    split at hmem
    · cases hstage : s.rule with
      | none =>
        rw [hstage] at hmem
        cases hmem
      | some own =>
        rw [hstage] at hmem hrule
        rcases List.mem_cons.mp hmem with rfl | hmem
        · exact hrule (List.mem_singleton_self rule)
        · exact hcleanups hmem
    · cases hmem
  exact List.cons_subset.mpr ⟨hknown, List.nil_subset _⟩

end Regime

namespace Pipeline

variable {p : Pipeline}

private theorem rules_subset_of_mem {s : Stage} (hs : s ∈ p.stages) : s.rules ⊆ p.rules := by
  intro rule hrule
  rw [rules, List.mem_append, List.mem_append]
  exact .inl (.inr (List.mem_flatMap.mpr ⟨s, hs, hrule⟩))

private theorem movesAmong_map {language : NamedRule → Move} {rules known : List NamedRule}
    (hmove : ∀ rule, (language rule).rules = [rule]) (h : rules ⊆ known) :
    MovesAmong known (rules.map language) := by
  intro move hmem
  obtain ⟨rule, hrule, rfl⟩ := List.mem_map.mp hmem
  rw [hmove]
  exact List.cons_subset.mpr ⟨h hrule, List.nil_subset _⟩

private theorem trailingRomanizers_subset : p.trailingRomanizers ⊆ p.rules := by
  intro rule hrule
  rw [trailingRomanizers] at hrule
  split at hrule
  · next anchored hlast =>
    obtain ⟨step, hstep, heq⟩ := List.mem_filterMap.mp hrule
    refine rules_subset_of_mem (List.mem_of_getLast? hlast) (List.mem_append_left _ ?_)
    refine List.mem_flatMap.mpr ⟨step, hstep, ?_⟩
    cases step with
    | romanizer own =>
      cases heq
      exact List.mem_singleton_self rule
    | syllables _ | cleanup _ | cleanupOff _ => cases heq
  · cases hrule

/-- What a pipeline does from a stage on applies rules of the pipeline. -/
theorem movesAmong_planFrom (span : Span) (romanize : Bool) {r : Regime} (index : Nat)
    {stages : List Stage} (hcleanups : r.cleanups ⊆ p.rules) (hstages : stages ⊆ p.stages) :
    MovesAmong p.rules (p.planFrom span romanize r index stages).moves := by
  induction stages generalizing r index with
  | nil =>
    rw [planFrom]
    split
    · exact movesAmong_map (fun _ ↦ rfl) (List.subset_append_right _ _)
    · exact fun _ h ↦ (nomatch h)
  | cons stage rest ih =>
    rw [planFrom]
    split
    · exact movesAmong_map (fun _ ↦ rfl) trailingRomanizers_subset
    · rw [List.cons_subset] at hstages
      have hstage := rules_subset_of_mem hstages.1
      have hsteps := (Stage.of_rules_subset hstage).1
      refine List.forall_mem_append.mpr ⟨Regime.movesAmong_stageMoves romanize ?_ hstage, ?_⟩
      · exact hcleanups
      · exact ih (index + 1) (Regime.cleanups_afterSteps hcleanups hsteps) hstages.2

/-- The moves of a plan apply rules of the pipeline. -/
theorem movesAmong_plan (span : Span) (romanize : Bool) :
    MovesAmong p.rules (p.plan span romanize).moves := by
  refine List.forall_mem_append.mpr ⟨?_, ?_⟩
  · split
    · refine movesAmong_map (fun _ ↦ rfl) fun rule hrule ↦ ?_
      exact List.mem_append_left _ (List.mem_append_left _ hrule)
    · exact fun _ h ↦ (nomatch h)
  · exact movesAmong_planFrom span romanize 0 (List.nil_subset _) (List.Subset.refl _)

end Pipeline

namespace Move

/-- The fault of a move is a mistake if the fault in it is one. -/
theorem isMistake_blame {move : Move} {given : String} {p : Phrase} {fault : Fault}
    (h : fault.isMistake) : (move.blame given p fault).isMistake := by
  rw [blame, if_pos h]
  exact h

/-- The fault of a move is a crash if the fault in it is no mistake. -/
theorem blame_eq_crash {move : Move} {given : String} {p : Phrase} {fault : Fault}
    (h : ¬fault.isMistake) : move.blame given p fault =
      .of (.ruleCrashed move.name given (move.language.write p) fault.message) := by
  rw [blame, if_neg h]

end Move

section Running

variable {allowed : Fault → Prop} (hmistake : ∀ fault : Fault, fault.isMistake → allowed fault)
  (hinside : ∀ name fault, allowed fault → allowed (fault.inside name))
include hmistake hinside

/-- A move fails only as the simple rules of its rule are tolerated. -/
theorem Move.result_ensures {move : Move}
    (h : ∀ rule ∈ move.rules, ∀ s ∈ rule.rule.simpleRules, s.Tolerated allowed) (p : Phrase) :
    Ensures (fun _ ↦ True) allowed (move.result p) := by
  have happlied (language : Language) {rule : NamedRule} (hrule : rule ∈ move.rules) :
      Ensures (fun _ ↦ True) allowed (applied language rule p) :=
    (NamedRule.fire_ensures hmistake hinside language (h rule hrule) p).bind fun _ _ ↦ .ok trivial
  cases move with
  | apply language rule => exact happlied language (List.mem_singleton_self rule)
  | divide language =>
    rw [result]
    split
    · exact language.syllabify_ensures hmistake p
    · exact .ok trivial
  | record language rule romanize =>
    rw [result]
    split
    · exact happlied language (List.mem_singleton_self rule)
    · exact .ok trivial

/-- A word fails only in a move, and with a fault that is allowed in it. -/
theorem runMoves_ensures (given : String) {moves : List Move}
    (h : ∀ move ∈ moves, ∀ rule ∈ move.rules, ∀ s ∈ rule.rule.simpleRules, s.Tolerated allowed)
    (p : Phrase) (log : Log) :
    Ensures (fun _ ↦ True)
      (fun fault ↦ ∃ move : Move, ∃ q inner, allowed inner ∧ fault = move.blame given q inner)
      (runMoves given moves p log).1 := by
  induction moves generalizing p log with
  | nil => exact .ok trivial
  | cons move rest ih =>
    rw [List.forall_mem_cons] at h
    have hresult := move.result_ensures hmistake hinside h.1 p
    rw [runMoves]
    cases hmove : move.result p with
    | error fault => exact ⟨move, p, fault, hresult.of_error hmove, rfl⟩
    | ok q =>
      cases move with
      | apply _ _ | divide _ | record _ _ _ => exact ih h.2 _ _

/-- A run of a plan of a pipeline fails only in a move, and with a fault that is allowed in it. -/
theorem Plan.run_ensures {p : Pipeline} (span : Span) (romanize : Bool) (initial : Language)
    (word : String)
    (h : ∀ rule ∈ p.rules, ∀ s ∈ rule.rule.simpleRules, s.Tolerated allowed) :
    Ensures (fun _ ↦ True)
      (fun fault ↦ ∃ move : Move, ∃ q inner, allowed inner ∧ fault = move.blame word q inner)
      ((p.plan span romanize).run initial word).1 := by
  have hmoves := p.movesAmong_plan span romanize
  exact (runMoves_ensures hmistake hinside word
    (fun move hmove rule hrule ↦ h rule (hmoves move hmove hrule)) _ _).map fun _ _ ↦ trivial

end Running

end Diachrony
