import Diachrony.Applier.Basic
import Diachrony.Proofs.Pipeline.Limits

/-!
# Words under greater limits

Limits only say when a word is given up. They have no part in whether a program is accepted, and a
word that comes to its last form within some limits comes to the same form within greater limits,
with the same records on its way.
-/

namespace Diachrony.Applier

variable {inv : Inventory} {program : Syntax.Program} {config : Config} {a : Applier}

/-- A program is accepted if it can be linked to rules of different names, whatever the limits. -/
theorem compile_eq_ok_iff : compile inv program config = .ok a ↔
    ∃ p, program.compile inv {} = .ok p ∧ firstRepeated? [] p.ruleNames = none ∧
      a = ⟨p.withLimits config.limits, config⟩ := by
  have hof (p : Pipeline) : ofPipeline (p.withLimits config.limits) config = .ok a ↔
      firstRepeated? [] p.ruleNames = none ∧ a = ⟨p.withLimits config.limits, config⟩ := by
    rw [ofPipeline, Pipeline.ruleNames_withLimits]
    cases firstRepeated? [] p.ruleNames with
    | none => exact ⟨fun h ↦ ⟨rfl, (Except.ok.inj h).symm⟩, fun h ↦ congrArg Except.ok h.2.symm⟩
    | some name => exact ⟨fun h ↦ (nomatch h), fun h ↦ (nomatch h.1)⟩
  rw [compile, Syntax.Program.compile_withLimits]
  cases program.compile inv {} with
  | error fault => exact ⟨fun h ↦ (nomatch h), fun ⟨_, h, _⟩ ↦ (nomatch h)⟩
  | ok p =>
    refine (hof p).trans ⟨fun h ↦ ⟨p, rfl, h⟩, fun ⟨q, hq, h⟩ ↦ ?_⟩
    cases hq
    exact h

/-- What happens to a word does not change under greater limits, unless it is given up. -/
theorem run_under_greater_limits {limits : Limits} (hle : config.limits ≤ limits)
    (h : compile inv program config = .ok a) :
    ∃ a', compile inv program { config with limits } = .ok a' ∧
      ∀ options words report, a.run options words = .ok report →
        ∃ report', a'.run options words = .ok report' ∧
          List.Forall₂ (fun o o' : Outcome ↦ ∀ form, o.result = .ok form → o' = o)
            report.outcomes report'.outcomes := by
  obtain ⟨p, hp, hnames, rfl⟩ := compile_eq_ok_iff.mp h
  refine ⟨_, compile_eq_ok_iff.mpr ⟨p, hp, hnames, rfl⟩, fun options words report hrun ↦ ?_⟩
  rw [run, Pipeline.span_withLimits] at hrun ⊢
  obtain ⟨span, hspan, hrun⟩ := exists_of_bind_eq_ok hrun
  cases hrun
  rw [hspan]
  refine ⟨_, rfl, ?_⟩
  simp only [Pipeline.plan_withLimits, List.map_map, List.forall₂_map_left_iff,
    List.forall₂_map_right_iff, List.forall₂_same]
  intro word _ form hform
  exact congrArg (fun run : Except Fault String × Log ↦ Outcome.mk run.1 run.2.snapshots)
    (Plan.run_of_ok hle p.language hform)

/-- Three steps of propagation take `aaa` to `a`, and so do six. -/
theorem run_under_greater_limits_aaa :
    let rule : Syntax.RuleDeclaration :=
      { name := "r"
        body := .expressions [.expression
          { source := .sequence [.text "a" false, .text "a" false], target := .text "a" false }]
        modifiers := { propagate := true } }
    let within (steps : Nat) : Config := { limits := { maxPropagateSteps := steps } }
    ∃ a a' report report' outcome,
      compile .empty { statements := [.rule rule] } (within 3) = .ok a ∧
      compile .empty { statements := [.rule rule] } (within 6) = .ok a' ∧
      a.run {} ["aaa"] = .ok report ∧ report.outcomes = [outcome] ∧ outcome.result = .ok "a" ∧
      a'.run {} ["aaa"] = .ok report' ∧ report'.outcomes = [outcome] := by
  intro rule within
  have hrun : (do
      let a ← compile .empty { statements := [.rule rule] } (within 3)
      let report ← a.run {} ["aaa"]
      return report.outcomes.map (·.result.toOption) :
        Except Fault (List (Option String))).toOption = some [some "a"] := by
    decide +kernel
  obtain ⟨a, hcompile, hrun⟩ := exists_of_bind_eq_ok (eq_ok_of_toOption hrun)
  obtain ⟨report, hreport, hresults⟩ := exists_of_bind_eq_ok hrun
  have hle : (within 3).limits ≤ (within 6).limits := ⟨by decide, by decide⟩
  obtain ⟨a', hcompile', hrun'⟩ := run_under_greater_limits hle hcompile
  obtain ⟨report', hreport', houtcomes⟩ := hrun' {} ["aaa"] report hreport
  obtain ⟨outcome, houtcome, hform⟩ := List.map_eq_singleton_iff.mp (Except.ok.inj hresults)
  have hform : outcome.result = .ok "a" := eq_ok_of_toOption hform
  have hsame : report'.outcomes = [outcome] := by
    rw [houtcome] at houtcomes
    obtain ⟨outcome', _, hpersists, hnil, hlist⟩ := List.forall₂_cons_left_iff.mp houtcomes
    rw [hlist, List.forall₂_nil_left_iff.mp hnil, hpersists "a" hform]
  exact ⟨a, a', report, report', outcome, hcompile, hcompile', hreport, houtcome, hform, hreport',
    hsame⟩

end Diachrony.Applier
