import Diachrony.Linking.Program
import Diachrony.Proofs.Linking.Scopes
import Diachrony.Proofs.Pipeline.Outcome
import Diachrony.Proofs.Pipeline.Stages

/-!
# What linked statements ask for

The stages of a linked program are put together statement by statement, and so are the moves of a
run: a step adds its moves and changes what is in force behind it, and a rule adds itself and the
cleanup rules that are in force. So runs of programs can be compared statement by statement.
-/

namespace Diachrony

namespace Syntax

namespace Linked

variable (l : Linked) (romanize : Bool) (r : Regime)

/-- The moves for which the statements so far ask. -/
def moves : List Move :=
  r.stagesMoves romanize l.stages ++ (r.afterStages l.stages).stepsMoves romanize l.waiting

/-- What is in force behind the statements so far. -/
def regime : Regime := (r.afterStages l.stages).afterSteps l.waiting

/-- The moves of all stages are those for which the statements ask. -/
theorem stagesMoves_allStages : r.stagesMoves romanize l.allStages = l.moves romanize r := by
  rw [allStages, moves]
  cases hwaiting : l.waiting with
  | nil => exact (List.append_nil _).symm
  | cons step rest =>
    rw [List.isEmpty_cons, if_neg (by simp), Regime.stagesMoves_append, Regime.stagesMoves,
      Regime.stageMoves_none]
    simp [Regime.stagesMoves]

/-- What is in force behind all stages is in force behind the statements. -/
theorem afterStages_allStages : r.afterStages l.allStages = l.regime r := by
  rw [allStages, regime]
  cases hwaiting : l.waiting with
  | nil => rfl
  | cons step rest =>
    rw [List.isEmpty_cons, if_neg (by simp), Regime.afterStages_append]
    rfl

/-- A step asks for its moves. -/
theorem moves_withStep (step : Step) :
    (l.withStep step).moves romanize r =
      l.moves romanize r ++ (l.regime r).stepMoves romanize step := by
  rw [moves, withStep, Regime.stepsMoves_append, ← List.append_assoc]
  simp [Regime.stepsMoves, moves, regime]

/-- What is in force changes with a step. -/
theorem regime_withStep (step : Step) :
    (l.withStep step).regime r = (l.regime r).afterStep step := by
  rw [regime, withStep, Regime.afterSteps_append]
  rfl

/-- Statements neither reach the start nor go back behind it. -/
theorem started_regime : (l.regime r).started = r.started :=
  (Regime.started_afterSteps _ l.waiting).trans (r.started_afterStages l.stages)

variable {r}

/-- A cleanup rule asks for itself where it is declared. -/
theorem moves_withCleanup (h : r.started) (rule : NamedRule) :
    (l.withStep (.cleanup rule)).moves romanize r =
      l.moves romanize r ++ [.apply (l.regime r).language rule] := by
  rw [moves_withStep, Regime.stepMoves, if_pos ((l.started_regime r).trans h)]

/-- A rule asks for itself and for the cleanup rules that are in force. -/
theorem moves_withRule (h : r.started) (rule : NamedRule) :
    (l.withRule rule).moves romanize r =
      l.moves romanize r ++
        (rule :: (l.regime r).cleanups).map (.apply (l.regime r).language) := by
  have hstarted := (r.started_afterStages l.stages).trans h
  rw [moves, withRule, Regime.stagesMoves_append, Regime.stagesMoves,
    Regime.stageMoves_of_started romanize hstarted]
  simp [Regime.stagesMoves, Regime.stepsMoves, moves, regime]

/-- What is in force does not change with a rule. -/
theorem regime_withRule (r : Regime) (rule : NamedRule) :
    (l.withRule rule).regime r = l.regime r := by
  rw [regime, withRule, Regime.afterStages_append]
  rfl

end Linked

/-- Whether a statement changes the division into syllables. -/
def Statement.isSyllables : Statement → Bool
  | syllables _ => true
  | _ => false

/-- Whether words are never divided into syllables. -/
def Program.NeverDivides (p : Program) : Prop := ∀ s ∈ p.statements, s.isSyllables = false

instance (p : Program) : Decidable p.NeverDivides :=
  inferInstanceAs (Decidable (∀ s ∈ p.statements, s.isSyllables = false))

/-- What the parts of a program are linked to where words are never divided. -/
structure Program.LinksTo (base : Language) (p : Program) (deromanizer : Option NamedRule)
    (linked : Linked) (romanizer : Option NamedRule) : Prop where
  /-- The rule that runs first. -/
  deromanizer : p.deromanizer.mapM (·.link base [] p.deferredRules) = .ok deromanizer
  /-- What the statements come to. -/
  statements :
    p.statements.foldlM (Linked.statement base p.deferredRules) { language := base } = .ok linked
  /-- The rule that runs last. -/
  romanizer : p.romanizer.mapM (·.link base linked.names p.deferredRules) = .ok romanizer

section Statements

variable {base : Language} {deferred : List RuleDeclaration} {l l' : Linked}

/-- What a statement adds to those before it, if it is linked. -/
inductive Linked.Adds (base : Language) (deferred : List RuleDeclaration) (l : Linked) :
    Statement → Linked → Prop
  /-- A class is known from its declaration on. -/
  | soundClass (name : String) (members : List Element) :
      Adds base deferred l (.soundClass name members)
        { l with names := l.names.withClass name members }
  /-- An element is known from its declaration on. -/
  | element (name : String) (body : Element) :
      Adds base deferred l (.element name body) { l with names := l.names.withElement name body }
  /-- Another language is in force. -/
  | syllables {declaration : SyllableDeclaration} {syllabifier : Option Syllabifier}
      (h : declaration.link base l.names = .ok syllabifier) :
      Adds base deferred l (.syllables declaration)
        ({ l with language := { base with syllabifier } }.withStep
          (.syllables { base with syllabifier }))
  /-- A deferred rule adds nothing. -/
  | deferred {r : RuleDeclaration} (h : r.deferred = true) : Adds base deferred l (.rule r) l
  /-- A cleanup rule waits for the next rule. -/
  | cleanup {r : RuleDeclaration} {rule : NamedRule} (hdeferred : r.deferred = false)
      (hcleanup : r.cleanup = true) (h : r.link l.language l.names deferred = .ok rule) :
      Adds base deferred l (.rule r) (l.withStep (.cleanup rule))
  /-- An ordinary rule makes a stage. -/
  | rule {r : RuleDeclaration} {rule : NamedRule} (hdeferred : r.deferred = false)
      (hcleanup : r.cleanup = false) (h : r.link l.language l.names deferred = .ok rule) :
      Adds base deferred l (.rule r) (l.withRule rule)
  /-- A cleanup rule is turned off. -/
  | cleanupOff (name : String) :
      Adds base deferred l (.cleanupOff name) (l.withStep (.cleanupOff name))
  /-- A romanizer waits for the next rule. -/
  | romanizer {r : RomanizerDeclaration} {rule : NamedRule}
      (h : r.link l.language l.names deferred = .ok rule) :
      Adds base deferred l (.romanizer r) (l.withStep (.romanizer rule))

/-- A statement that is linked adds what statements of its kind do. -/
theorem Linked.adds_of_statement {s : Statement} (h : l.statement base deferred s = .ok l') :
    l.Adds base deferred s l' := by
  cases s with
  | soundClass name members =>
    cases h
    exact .soundClass name members
  | element name body =>
    cases h
    exact .element name body
  | cleanupOff name =>
    cases h
    exact .cleanupOff name
  | syllables declaration =>
    obtain ⟨syllabifier, hsyllabifier, h⟩ := exists_of_bind_eq_ok h
    cases h
    exact .syllables hsyllabifier
  | romanizer r =>
    obtain ⟨rule, hrule, h⟩ := exists_of_bind_eq_ok h
    cases h
    exact .romanizer hrule
  | rule r =>
    cases hdeferred : r.deferred with
    | true =>
      rw [statement, if_pos hdeferred] at h
      cases h
      exact .deferred hdeferred
    | false =>
      rw [statement, if_neg (by simp [hdeferred])] at h
      obtain ⟨rule, hrule, h⟩ := exists_of_bind_eq_ok h
      cases hcleanup : r.cleanup with
      | true =>
        rw [hcleanup] at h
        cases h
        exact .cleanup hdeferred hcleanup hrule
      | false =>
        rw [hcleanup] at h
        cases h
        exact .rule hdeferred hcleanup hrule

/-- What a statement adds is what it is linked to. -/
theorem Linked.Adds.statement {s : Statement} (h : l.Adds base deferred s l') :
    l.statement base deferred s = .ok l' := by
  cases h with
  | soundClass _ _ | element _ _ | cleanupOff _ => rfl
  | syllables hlink | romanizer hlink => exact bind_eq_ok hlink rfl
  | deferred hdeferred =>
    rw [Linked.statement, if_pos hdeferred]
    rfl
  | cleanup hdeferred hcleanup hlink =>
    rw [Linked.statement, if_neg (by simp [hdeferred]), hlink, hcleanup]
    rfl
  | rule hdeferred hcleanup hlink =>
    rw [Linked.statement, if_neg (by simp [hdeferred]), hlink, hcleanup]
    rfl

/-- A statement is linked behind the statements before it. -/
theorem Linked.exists_of_foldlM_cons {s : Statement} {rest : List Statement}
    (h : (s :: rest).foldlM (Linked.statement base deferred) l = .ok l') :
    ∃ next, l.Adds base deferred s next ∧
      rest.foldlM (Linked.statement base deferred) next = .ok l' := by
  rw [List.foldlM_cons] at h
  obtain ⟨next, hnext, h⟩ := exists_of_bind_eq_ok h
  exact ⟨next, adds_of_statement hnext, h⟩

/-- What holds before statements and is kept by every one of them holds behind them. -/
theorem Linked.foldlM_keeps {P : Linked → Prop} {statements : List Statement} (hl : P l)
    (h : ∀ s ∈ statements, ∀ l l' : Linked, P l → l.Adds base deferred s l' → P l')
    (hfold : statements.foldlM (Linked.statement base deferred) l = .ok l') : P l' := by
  induction statements generalizing l with
  | nil =>
    cases hfold
    exact hl
  | cons s rest ih =>
    rw [List.forall_mem_cons] at h
    obtain ⟨next, hnext, hfold⟩ := exists_of_foldlM_cons hfold
    exact ih (h.1 l next hl hnext) h.2 hfold

/-- The names behind a statement are the names of the scope behind it. -/
theorem Linked.Adds.names_eq {s : Statement} (h : l.Adds base deferred s l') :
    l'.names = l.names.after s := by
  cases h <;> rfl

/-- What is known of statements among which none divides words: the language is that of the start,
and it is in force. -/
structure Linked.Keeps (base : Language) (l : Linked) : Prop where
  /-- The language in which the next rule is linked. -/
  language : l.language = base
  /-- The language in which the next rule runs. -/
  inForce : (l.regime (.initial base)).language = base

namespace Linked.Keeps

/-- Before all statements. -/
theorem initial (base : Language) : Keeps base { language := base } := ⟨rfl, rfl⟩

/-- A rule keeps the language. -/
theorem withRule (h : l.Keeps base) (rule : NamedRule) : (l.withRule rule).Keeps base := by
  refine ⟨h.language, ?_⟩
  rw [regime_withRule]
  exact h.inForce

/-- A step that does not divide words keeps the language. -/
theorem withStep (h : l.Keeps base) {step : Step}
    (hstep : ((l.regime (.initial base)).afterStep step).language =
      (l.regime (.initial base)).language) : (l.withStep step).Keeps base := by
  refine ⟨h.language, ?_⟩
  rw [regime_withStep, hstep]
  exact h.inForce

/-- A statement that does not divide words keeps the language. -/
theorem adds (h : l.Keeps base) {s : Statement} (hs : s.isSyllables = false)
    (hl : l.Adds base deferred s l') : l'.Keeps base := by
  cases hl with
  | syllables _ => cases hs
  | soundClass _ _ | element _ _ => exact ⟨h.language, h.inForce⟩
  | deferred _ => exact h
  | cleanup _ _ _ | cleanupOff _ | romanizer _ => exact h.withStep rfl
  | rule _ _ _ => exact h.withRule _

/-- Statements among which none divides words keep the language. -/
theorem foldlM (h : l.Keeps base) {statements : List Statement}
    (hs : ∀ s ∈ statements, s.isSyllables = false)
    (hl : statements.foldlM (Linked.statement base deferred) l = .ok l') : l'.Keeps base :=
  Linked.foldlM_keeps h (fun s hmem _ _ hkeeps ↦ hkeeps.adds (hs s hmem)) hl

end Linked.Keeps

end Statements

end Syntax

end Diachrony
