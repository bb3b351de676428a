import Diachrony.Proofs.Applier.Undivided
import Diachrony.Proofs.Pipeline.Resuming

/-!
# Runs that are stopped and resumed

A run may stop in front of a rule, and another run may start at the rule with what the first one has
written. If the phrase at which the first run stops is read again from what is written of it, both
runs together come to what a whole run comes to, or fail as it does.
-/

namespace Diachrony

namespace Syntax

/-- Whether a statement is a romanizer. -/
def Statement.isRomanizer : Statement → Bool
  | romanizer _ => true
  | _ => false

/-- Whether stages and the steps that wait only declare cleanup rules and turn them off. -/
structure Linked.HasOnlyCleanups (l : Linked) : Prop where
  /-- The stages that are complete. -/
  stages : ∀ stage ∈ l.stages, stage.HasOnlyCleanups
  /-- The steps that wait for a rule. -/
  waiting : ∀ step ∈ l.waiting, step.isCleanup

namespace Linked.HasOnlyCleanups

variable {base : Language} {deferred : List RuleDeclaration} {l l' : Linked}

/-- A cleanup rule may be added, or turned off. -/
theorem withStep (h : l.HasOnlyCleanups) {step : Step} (hstep : step.isCleanup) :
    (l.withStep step).HasOnlyCleanups :=
  ⟨h.stages, List.forall_mem_append.mpr ⟨h.waiting, List.forall_mem_singleton.mpr hstep⟩⟩

/-- A rule may be added. -/
theorem withRule (h : l.HasOnlyCleanups) (rule : NamedRule) : (l.withRule rule).HasOnlyCleanups :=
  ⟨List.forall_mem_append.mpr ⟨h.stages, List.forall_mem_singleton.mpr h.waiting⟩,
    List.forall_mem_nil _⟩

/-- Statements other than divisions and romanizers may be added. -/
theorem foldlM {statements : List Statement} (h : l.HasOnlyCleanups)
    (hundivided : ∀ s ∈ statements, s.isSyllables = false)
    (hromanizers : ∀ s ∈ statements, s.isRomanizer = false)
    (hl : statements.foldlM (Linked.statement base deferred) l = .ok l') : l'.HasOnlyCleanups := by
  refine foldlM_keeps (P := HasOnlyCleanups) h (fun s hs l l' h hadds ↦ ?_) hl
  cases hadds with
  | soundClass _ _ | element _ _ => exact ⟨h.stages, h.waiting⟩
  | syllables _ => cases hundivided _ hs
  | romanizer _ => cases hromanizers _ hs
  | deferred _ => exact h
  | cleanup _ _ _ | cleanupOff _ => exact h.withStep rfl
  | rule _ _ _ => exact h.withRule _

/-- All stages only declare cleanup rules and turn them off. -/
theorem allStages (h : l.HasOnlyCleanups) : ∀ stage ∈ l.allStages, stage.HasOnlyCleanups := by
  rw [Linked.allStages]
  split
  · exact h.stages
  · exact List.forall_mem_append.mpr ⟨h.stages, List.forall_mem_singleton.mpr h.waiting⟩

end Linked.HasOnlyCleanups

end Syntax

namespace Applier

open Syntax

variable {inv : Inventory} {program : Program} {config : Config} {a : Applier}

/-- The phrase to which a word comes in a run. -/
def phrase (a : Applier) (options : RunOptions) (word : String) : Except Fault Phrase := do
  let span ← a.pipeline.span options.startAt options.stopBefore
  (runMoves word (a.pipeline.plan span options.romanize).moves (a.pipeline.language.read word) {}).1

section Spans

variable {options : RunOptions} {span : Span}
  (hspan : a.pipeline.span options.startAt options.stopBefore = .ok span)
include hspan

/-- A run has the phrase for a word that its moves leave. -/
theorem phrase_agree (word : String) :
    Agree (a.phrase options word) (Move.outcomes (a.pipeline.plan span options.romanize).moves
      (a.pipeline.language.read word)) := by
  rw [phrase, hspan]
  exact runMoves_agree word _ _ {}

/-- A word comes to the form that is written of its phrase, in the language at the end. -/
theorem words_run_eq_ok_iff
    (hlanguage : (a.pipeline.plan span options.romanize).language = a.pipeline.language)
    {word form : String} :
    (a.run options [word] >>= Report.words) = .ok [form] ↔
      ∃ p, a.phrase options word = .ok p ∧ a.pipeline.language.write p = form := by
  have hwords (result : Except Fault String) :
      [result].mapM id = .ok [form] ↔ result = .ok form := by
    cases result with
    | error fault => exact ⟨fun h ↦ (nomatch h), fun h ↦ (nomatch h)⟩
    | ok found => exact ⟨fun h ↦ by cases h; rfl, fun h ↦ by cases h; rfl⟩
  have hrun := Plan.run_agree (a.pipeline.plan span options.romanize) a.pipeline.language word
  rw [hlanguage] at hrun
  rw [run, hspan]
  refine (hwords _).trans (hrun.eq_ok_iff.trans (map_eq_ok_iff.trans ?_))
  simp only [(phrase_agree hspan word).eq_ok_iff]

end Spans

/-- An accepted program without divisions and romanizers on the way is linked to stages that only
declare cleanup rules and turn them off. -/
theorem hasOnlyCleanups_of_compile (h : compile inv program config = .ok a)
    (hdivides : program.NeverDivides)
    (hromanizers : ∀ s ∈ program.statements, s.isRomanizer = false) :
    ∀ stage ∈ a.pipeline.stages, stage.HasOnlyCleanups := by
  obtain ⟨deromanizer, linked, romanizer, hlinks, -, hpipeline⟩ :=
    hdivides.exists_of_link (compile_iff_isCompiled.mp h).link
  have hnothing : Linked.HasOnlyCleanups
      { language := { inventory := inv, limits := config.limits } } :=
    ⟨List.forall_mem_nil _, List.forall_mem_nil _⟩
  have hlinked := hnothing.foldlM hdivides hromanizers hlinks.statements
  rw [hpipeline]
  exact hlinked.allStages

/-- The rule of some name has a stage, and is found there. -/
theorem exists_stages_of_mem_ruleNames {p : Pipeline} {name : String} (h : name ∈ p.ruleNames) :
    ∃ before stage after, p.stages = before ++ stage :: after ∧
      ∀ purpose, p.stageIndex name purpose = .ok before.length := by
  obtain ⟨own, hown, hname⟩ := List.mem_filterMap.mp h
  have hfound : (p.stages.findIdx? (·.name? == some name)).isSome := by
    rw [List.findIdx?_isSome, List.any_eq_true]
    exact ⟨own, hown, beq_iff_eq.mpr hname⟩
  obtain ⟨i, hi⟩ := Option.isSome_iff_exists.mp hfound
  obtain ⟨hlt, -⟩ := List.findIdx?_eq_some_iff_getElem.mp hi
  refine ⟨p.stages.take i, p.stages[i], p.stages.drop (i + 1), ?_, fun purpose ↦ ?_⟩
  · rw [List.getElem_cons_drop, List.take_append_drop]
  · rw [Pipeline.stageIndex, hi, List.length_take, Nat.min_eq_left (Nat.le_of_lt hlt)]
    rfl

/-- A run that is stopped in front of a rule may be resumed with what is written of its phrase, if
that phrase is read again from it. -/
theorem run_resumed (h : compile inv program config = .ok a) (hdivides : program.NeverDivides)
    (hromanizers : ∀ s ∈ program.statements, s.isRomanizer = false) {name : String}
    (hname : name ∈ a.pipeline.ruleNames) {word : String} {romanize : Bool} {traced : List String}
    (hread : ∀ p, a.phrase { stopBefore := some name, traced, romanize } word = .ok p →
      a.pipeline.language.read (a.pipeline.language.write p) = p) (form : String) :
    (a.run { traced, romanize } [word] >>= Report.words) = .ok [form] ↔
      ∃ t, (a.run { stopBefore := some name, traced, romanize } [word] >>= Report.words) = .ok [t] ∧
        (a.run { startAt := some name, traced, romanize } [t] >>= Report.words) = .ok [form] := by
  obtain ⟨before, stage, after, hstages, hindex⟩ := exists_stages_of_mem_ruleNames hname
  have hcleanups := hasOnlyCleanups_of_compile h hdivides hromanizers
  obtain ⟨hmoves, hwhole, hstop, hstart⟩ := a.pipeline.plan_append romanize hstages hcleanups
  have hspan : a.pipeline.span none none = .ok {} := rfl
  have hspanStop : a.pipeline.span none (some name) = .ok ⟨none, some before.length⟩ := by
    simp only [Pipeline.span, Option.mapM_none, Option.mapM_some, hindex]
    rfl
  have hspanStart : a.pipeline.span (some name) none = .ok ⟨some before.length, none⟩ := by
    simp only [Pipeline.span, Option.mapM_none, Option.mapM_some, hindex]
    rfl
  let stopped : RunOptions := { stopBefore := some name, traced, romanize }
  let resumed : RunOptions := { startAt := some name, traced, romanize }
  have hfull : Agree (a.phrase { traced, romanize } word) _ := phrase_agree hspan word
  have hfirst : Agree (a.phrase stopped word) _ := phrase_agree hspanStop word
  have hsecond (t : String) : Agree (a.phrase resumed t) _ := phrase_agree hspanStart t
  -- the phrase of the whole run is that of the second run, on what the first one has written
  have hphrase (p : Phrase) : a.phrase { traced, romanize } word = .ok p ↔
      ∃ q, a.phrase stopped word = .ok q ∧
        a.phrase resumed (a.pipeline.language.write q) = .ok p := by
    rw [hfull.eq_ok_iff, hmoves, Move.outcomes_append]
    constructor
    · intro hp
      obtain ⟨q, hq, hp⟩ := exists_of_bind_eq_ok hp
      rw [← hfirst.eq_ok_iff] at hq
      refine ⟨q, hq, (hsecond _).eq_ok_iff.mpr ?_⟩
      rw [hread q hq]
      exact hp
    · rintro ⟨q, hq, hp⟩
      rw [(hsecond _).eq_ok_iff, hread q hq] at hp
      rw [hfirst.eq_ok_iff] at hq
      rw [hq]
      exact hp
  rw [words_run_eq_ok_iff hspan hwhole]
  constructor
  · rintro ⟨p, hp, rfl⟩
    obtain ⟨q, hq, hp⟩ := (hphrase p).mp hp
    exact ⟨_, (words_run_eq_ok_iff hspanStop hstop).mpr ⟨q, hq, rfl⟩,
      (words_run_eq_ok_iff hspanStart hstart).mpr ⟨p, hp, rfl⟩⟩
  · rintro ⟨t, ht, hform⟩
    obtain ⟨q, hq, rfl⟩ := (words_run_eq_ok_iff hspanStop hstop).mp ht
    obtain ⟨p, hp, rfl⟩ := (words_run_eq_ok_iff hspanStart hstart).mp hform
    exact ⟨p, (hphrase p).mpr ⟨q, hq, hp⟩, rfl⟩

/-- A cleanup rule writes `y` for `x`. A run that stops in front of the second rule makes `yb` of
`ab`, and a run that starts there makes `yy` of that, as a whole run makes of `ab`. -/
theorem run_resumed_ab :
    let change (source target : String) : Body := .expressions [.expression
      { source := .text source false, target := .text target false }]
    let program : Program := { statements := [
      .rule { name := "c", body := change "x" "y", cleanup := true },
      .rule { name := "r", body := change "a" "x" },
      .rule { name := "s", body := change "b" "x" }] }
    ∃ a, compile .empty program {} = .ok a ∧ "s" ∈ a.pipeline.ruleNames ∧
      (a.run {} ["ab"] >>= Report.words) = .ok ["yy"] ∧
      ∃ t, (a.run { stopBefore := some "s" } ["ab"] >>= Report.words) = .ok [t] ∧
        (a.run { startAt := some "s" } [t] >>= Report.words) = .ok ["yy"] := by
  intro change program
  have hrun : (do
      let a ← compile .empty program {}
      let words ← a.run {} ["ab"] >>= Report.words
      let p ← a.phrase { stopBefore := some "s" } "ab"
      return (words, decide ("s" ∈ a.pipeline.ruleNames ∧
        a.pipeline.language.read (a.pipeline.language.write p) = p)) :
        Except Fault (List String × Bool)).toOption = some (["yy"], true) := by
    decide +kernel
  obtain ⟨a, ha, hrun⟩ := exists_of_bind_eq_ok (eq_ok_of_toOption hrun)
  obtain ⟨words, hwords, hrun⟩ := exists_of_bind_eq_ok hrun
  obtain ⟨p, hp, hresult⟩ := exists_of_bind_eq_ok hrun
  obtain ⟨rfl, hread⟩ := Prod.mk.inj (Except.ok.inj hresult)
  obtain ⟨hname, hread⟩ := of_decide_eq_true hread
  have hphrase (q : Phrase) (hq : a.phrase { stopBefore := some "s" } "ab" = .ok q) :
      a.pipeline.language.read (a.pipeline.language.write q) = q := by
    cases hp.symm.trans hq
    exact hread
  exact ⟨a, ha, hname, hwords,
    (run_resumed ha (by decide) (by decide) hname hphrase "yy").mp hwords⟩

end Applier

end Diachrony
