import Diachrony.Proofs.Applier.Compiling
import Diachrony.Proofs.Linking.Insertion

/-!
# Statements that do not run

Every word comes to the same form or to the same fault with a romanizer or a deferred rule that has
no expressions, wherever a run starts and stops. There is one exception: where words would be
divided before anything else happens to them, a statement in front of that division makes that words
do not keep their breaks.
-/

namespace Diachrony.Applier

open Syntax

variable {inv : Inventory} {program : Program} {config : Config} {a a' : Applier}

/-- A run has the results of its plan. -/
theorem results_run (options : RunOptions) (words : List String) {span : Span}
    (h : a.pipeline.span options.startAt options.stopBefore = .ok span) :
    Report.results <$> a.run options words = .ok (words.map fun word ↦
      ((a.pipeline.plan span options.romanize).run a.pipeline.language word).1) := by
  rw [run, h]
  show Except.ok (List.map _ (List.map _ (List.map _ words))) = _
  rw [List.map_map, List.map_map]
  rfl

/-- A run without a span is refused. -/
theorem results_run_of_error (options : RunOptions) (words : List String) {fault : Fault}
    (h : a.pipeline.span options.startAt options.stopBefore = .error fault) :
    Report.results <$> a.run options words = .error fault := by
  rw [run, h]
  rfl

/-- Words come to the same if pipelines run alike. -/
theorem results_run_eq (h : a'.pipeline.RunsLike a.pipeline) (options : RunOptions)
    (words : List String) :
    Report.results <$> a'.run options words = Report.results <$> a.run options words := by
  cases hspan : a.pipeline.span options.startAt options.stopBefore with
  | error fault =>
    rw [results_run_of_error _ _ hspan, results_run_of_error _ _ ((h.span _ _).trans hspan)]
  | ok span =>
    rw [results_run _ _ hspan, results_run _ _ ((h.span _ _).trans hspan)]
    exact congrArg Except.ok (List.map_congr_left fun word _ ↦ h.run hspan options.romanize word)

/-- A romanizer or a deferred rule without expressions may be put between the statements of a
program under a new name, and every word comes to the same as before. If nothing but names stands
before it, what comes behind must not start with a division into syllables. -/
theorem results_run_insert {before after : List Statement} {s : Statement} {name : String}
    (h : compile inv { program with statements := before ++ after } config = .ok a)
    (hs : s.IsInert inv (.behind before) name)
    (hname : ∀ t ∈ before ++ after, t.stepName? ≠ some name)
    (hdivision : (∀ t ∈ before, t.isNaming) →
      ∀ declaration, after.find? (!·.isNaming) ≠ some (.syllables declaration)) :
    ∃ a', compile inv { program with statements := before ++ s :: after } config = .ok a' ∧
      ∀ options words,
        Report.results <$> a'.run options words = Report.results <$> a.run options words := by
  have hcompiled := compile_iff_isCompiled.mp h
  have hcheck := Program.check_insert hcompiled.check hs hname
  obtain ⟨pipeline', hlink, hlike⟩ :=
    Program.link_insert hcompiled.link hs hname (hs.initialLanguage_eq hdivision _)
  have hnames := hcompiled.names
  rw [← hlike.ruleNames] at hnames
  refine ⟨⟨pipeline', config⟩, compile_iff_isCompiled.mpr ⟨hcheck, hlink, hnames, rfl⟩, ?_⟩
  exact results_run_eq hlike

/-- Between two rules, and in front of a division, a romanizer without expressions changes nothing
of what becomes of `a` in front of the second rule. -/
theorem results_run_insert_romanizer :
    let change (name source target : String) : Statement := .rule
      { name
        body := .expressions [.expression
          { source := .text source false, target := .text target false }] }
    let romanizer : Statement := .romanizer ⟨"m", .expressions []⟩
    let before := [change "r" "a" "b"]
    let after := [.syllables .explicit, change "s" "b" "c"]
    let options : RunOptions := { stopBefore := some "s" }
    ∃ a a', compile .empty { statements := before ++ after } {} = .ok a ∧
      compile .empty { statements := before ++ romanizer :: after } {} = .ok a' ∧
      (a.run options ["a"] >>= Report.words) = .ok ["b"] ∧
      Report.results <$> a'.run options ["a"] = Report.results <$> a.run options ["a"] := by
  intro change romanizer before after options
  have hrun : (do
      let a ← compile .empty { statements := before ++ after } {}
      a.run options ["a"] >>= Report.words).toOption = some ["b"] := by
    decide +kernel
  obtain ⟨a, ha, hwords⟩ := exists_of_bind_eq_ok (eq_ok_of_toOption hrun)
  have hinert : romanizer.IsInert .empty (.behind before) "m" := .romanizer
  obtain ⟨a', ha', hsame⟩ := @results_run_insert .empty {} {} a before after romanizer "m" ha hinert
    (by decide) (by simp [before, change, Statement.isNaming])
  exact ⟨a, a', ha, ha', hwords, hsame options ["a"]⟩

end Diachrony.Applier
