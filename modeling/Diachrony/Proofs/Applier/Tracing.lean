import Diachrony.Proofs.Applier.Compiling
import Diachrony.Proofs.Linking.Course
import Diachrony.Proofs.Pipeline.Tracing

/-!
# Traces of words

A program is linked in languages of one inventory, so what is traced of a word is its whole course:
from the form in which the word is read, change by change, to its last form or to the form on which
a rule has failed.
-/

namespace Diachrony

namespace Syntax

variable {base : Language} {deferred : List RuleDeclaration} {l l' : Linked} {inv : Inventory}

/-- Whether the languages of the statements so far have one inventory. -/
structure Linked.KeepsTo (l : Linked) (inv : Inventory) : Prop where
  /-- The language in force. -/
  language : l.language.inventory = inv
  /-- The languages of the steps that wait. -/
  waiting : ∀ step ∈ l.waiting, step.KeepsTo inv
  /-- The languages of the complete stages. -/
  stages : ∀ stage ∈ l.stages, ∀ step ∈ stage.anchored, step.KeepsTo inv

namespace Linked.KeepsTo

/-- A step that keeps to the inventory may be added. -/
theorem withStep (h : l.KeepsTo inv) {step : Step} (hstep : step.KeepsTo inv) :
    (l.withStep step).KeepsTo inv :=
  ⟨h.language, List.forall_mem_append.mpr ⟨h.waiting, List.forall_mem_singleton.mpr hstep⟩,
    h.stages⟩

/-- A statement keeps to the inventory with which it is linked. -/
theorem adds (h : l.KeepsTo base.inventory) {s : Statement} (hl : l.Adds base deferred s l') :
    l'.KeepsTo base.inventory := by
  cases hl with
  | soundClass _ _ | element _ _ => exact ⟨h.language, h.waiting, h.stages⟩
  | syllables _ =>
    refine withStep ?_ rfl
    exact ⟨rfl, h.waiting, h.stages⟩
  | deferred _ => exact h
  | cleanup _ _ _ | cleanupOff _ | romanizer _ => exact h.withStep trivial
  | rule _ _ _ =>
    refine ⟨h.language, List.forall_mem_nil _, ?_⟩
    exact List.forall_mem_append.mpr ⟨h.stages, List.forall_mem_singleton.mpr h.waiting⟩

/-- All stages keep to the inventory. -/
theorem allStages (h : l.KeepsTo inv) :
    ∀ stage ∈ l.allStages, ∀ step ∈ stage.anchored, step.KeepsTo inv := by
  rw [Linked.allStages]
  split
  · exact h.stages
  · exact List.forall_mem_append.mpr ⟨h.stages, List.forall_mem_singleton.mpr h.waiting⟩

end Linked.KeepsTo

/-- A linked program keeps to the inventory with which it is linked. -/
theorem Program.keepsTo_of_link {p : Program} {pipeline : Pipeline}
    (h : p.link base = .ok pipeline) : pipeline.KeepsTo base.inventory := by
  obtain ⟨deromanizer, -, h⟩ := exists_of_bind_eq_ok h
  obtain ⟨linked, hlinked, h⟩ := exists_of_bind_eq_ok h
  obtain ⟨romanizer, -, h⟩ := exists_of_bind_eq_ok h
  cases h
  have hinitial : (p.initialLanguage base).inventory = base.inventory := by
    rw [initialLanguage]
    split <;> rfl
  have hkeeps : linked.KeepsTo base.inventory := by
    have hnothing : Linked.KeepsTo { language := p.initialLanguage base } base.inventory :=
      ⟨hinitial, List.forall_mem_nil _, List.forall_mem_nil _⟩
    refine Linked.foldlM_keeps (P := fun l ↦ l.KeepsTo base.inventory) hnothing ?_ hlinked
    exact fun _ _ _ _ hl hadds ↦ hl.adds hadds
  exact ⟨hinitial, hkeeps.allStages⟩

end Syntax

namespace Applier

open Trace

variable {inv : Inventory} {program : Syntax.Program} {config : Config} {a : Applier}

/-- An accepted program keeps to the inventory for which it is compiled. -/
theorem keepsTo_of_compile (h : compile inv program config = .ok a) : a.pipeline.KeepsTo inv := by
  exact Syntax.Program.keepsTo_of_link (compile_iff_isCompiled.mp h).link

/-- Every word of a run has events that tell its course, from the form in which it is read to its
result, and those of the traced words are what is recorded. -/
theorem run_tells (h : compile inv program config = .ok a) {options : RunOptions}
    {words : List String} {report : Report} (hrun : a.run options words = .ok report) :
    ∃ events : String → List Event,
      List.Forall₂ (fun word outcome ↦
        Tells word (a.pipeline.language.write (a.pipeline.language.read word)) (events word)
          outcome.result) words report.outcomes ∧
      report.trace = (words.filter options.traced.contains).foldl
        (fun recorder word ↦ recorder.recordAll word (events word))
        (if options.traced.isEmpty then .new config.trace
          else (Recorder.new config.trace).setEnabled true) := by
  obtain ⟨span, -, hrun⟩ := exists_of_bind_eq_ok hrun
  have hconfig := (compile_iff_isCompiled.mp h).config
  cases hrun
  let plan := a.pipeline.plan span options.romanize
  refine ⟨fun word ↦ (plan.run a.pipeline.language word).2.events, ?_, ?_⟩
  · simp only [List.map_map, List.forall₂_map_right_iff, List.forall₂_same]
    exact fun word _ ↦ (keepsTo_of_compile h).tells span options.romanize word
  · rw [hconfig, List.filter_map, List.foldl_map]
    rfl

/-- Of `a`, which one rule changes to `b` and the next one to `c`, two changes are recorded, and
they tell its course. -/
theorem run_tells_a :
    let change (name source target : String) : Syntax.Statement := .rule
      { name
        body := .expressions [.expression
          { source := .text source false, target := .text target false }] }
    let program : Syntax.Program := { statements := [change "r" "a" "b", change "s" "b" "c"] }
    ∃ a report, compile .empty program {} = .ok a ∧
      a.run { traced := ["a"] } ["a"] = .ok report ∧
      report.trace.history.records.map Record.event = [.applied "r" "a" "b", .applied "s" "b" "c"] ∧
      ∃ events : String → List Event,
        List.Forall₂ (fun word outcome ↦
          Tells word (a.pipeline.language.write (a.pipeline.language.read word)) (events word)
            outcome.result) ["a"] report.outcomes ∧
        report.trace = ((Recorder.new {}).setEnabled true).recordAll "a" (events "a") := by
  intro change program
  have hrun : (do
      let a ← compile .empty program {}
      let report ← a.run { traced := ["a"] } ["a"]
      return report.trace.history.records.map Record.event :
        Except Fault (List Event)).toOption =
          some [.applied "r" "a" "b", .applied "s" "b" "c"] := by
    decide +kernel
  obtain ⟨a, hcompile, hrun⟩ := exists_of_bind_eq_ok (eq_ok_of_toOption hrun)
  obtain ⟨report, hreport, hevents⟩ := exists_of_bind_eq_ok hrun
  obtain ⟨events, htells, htrace⟩ := run_tells hcompile hreport
  exact ⟨a, report, hcompile, hreport, Except.ok.inj hevents, events, htells, htrace⟩

end Applier

end Diachrony
