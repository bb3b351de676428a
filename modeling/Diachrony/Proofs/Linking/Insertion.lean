import Diachrony.Proofs.Linking.Course
import Diachrony.Proofs.Linking.Inert

/-!
# Programs with an inert statement

Statements are linked alike behind an inert statement: what they come to is the same but for idle
steps. So a linked program runs alike with an inert statement between its statements, as long as
words are read in the same language. They are not if nothing but names stands before the statement
and the first one behind it is a division, for then words no longer keep their breaks.
-/

namespace Diachrony.Syntax

namespace Linked

variable (l : Linked)

/-- What statements have come to, without idle steps. -/
def active : Linked :=
  { l with waiting := Step.active l.waiting, stages := l.stages.map Stage.active }

/-- An active step is added to what has come before, and an idle one is left out. -/
theorem active_withStep (step : Step) :
    (l.withStep step).active =
      { l.active with waiting := l.active.waiting ++ Step.active [step] } := by
  rw [active, withStep, Step.active, List.filter_append]
  rfl

/-- A rule is added with the active steps that wait for it. -/
theorem active_withRule (rule : NamedRule) :
    (l.withRule rule).active = l.active.withRule rule := by
  rw [active, withRule, List.map_append]
  rfl

/-- All stages without idle steps are those with the active steps, but for a last stage of which
nothing is left. -/
theorem map_active_allStages :
    l.allStages.map Stage.active = l.active.allStages ∨
      l.active.allStages = l.active.stages ∧
        l.allStages.map Stage.active = l.active.stages ++ [⟨[], none⟩] := by
  have hactive : l.active.waiting = Step.active l.waiting := rfl
  rw [allStages, allStages, hactive]
  cases hwaiting : l.waiting with
  | nil => exact .inl rfl
  | cons step rest =>
    rw [List.isEmpty_cons, if_neg (by simp), List.map_append]
    -- idle steps alone still make a last stage
    cases hrest : Step.active (step :: rest) with
    | nil => exact .inr ⟨rfl, congrArg (_ ++ [Stage.mk · none]) hrest⟩
    | cons first others => exact .inl (congrArg (_ ++ [Stage.mk · none]) hrest)

/-- A pipeline of linked statements runs alike without idle steps. -/
theorem runsLike_active (h : ∀ stage ∈ l.active.stages, stage.rule.isSome) (language : Language)
    (deromanizer romanizer : Option NamedRule) :
    Pipeline.RunsLike ⟨language, deromanizer, l.active.allStages, romanizer⟩
      ⟨language, deromanizer, l.allStages, romanizer⟩ := by
  refine .trans ?_ (.active _)
  rw [Pipeline.active]
  rcases l.map_active_allStages with hsame | ⟨hall, hempty⟩
  · rw [hsame]
    exact .refl _
  · rw [hempty, hall]
    exact (Pipeline.RunsLike.withEmptyStage h).symm

variable {l} {base : Language} {deferred deferred' : List RuleDeclaration} {l' m : Linked}
  {s : Statement}

/-- The language in force has no part in idle steps. -/
theorem language_of_active_eq (h : l'.active = l.active) : l'.language = l.language := by
  show l'.active.language = l.active.language
  rw [h]

/-- The names that are known have no part in idle steps. -/
theorem names_of_active_eq (h : l'.active = l.active) : l'.names = l.names := by
  show l'.active.names = l.active.names
  rw [h]

/-- The stages of statements have rules. -/
theorem isSome_rule_of_foldlM {statements : List Statement}
    (hl : ∀ stage ∈ l.stages, stage.rule.isSome)
    (h : statements.foldlM (Linked.statement base deferred) l = .ok m) :
    ∀ stage ∈ m.stages, stage.rule.isSome := by
  refine foldlM_keeps (P := fun l ↦ ∀ stage ∈ l.stages, stage.rule.isSome) hl ?_ h
  intro t _ l l' hl hadds
  cases hadds with
  | rule _ _ _ => exact List.forall_mem_append.mpr ⟨hl, List.forall_mem_singleton.mpr rfl⟩
  | soundClass _ _ | element _ _ | syllables _ | deferred _ | cleanup _ _ _ | cleanupOff _
  | romanizer _ => exact hl

/-- A statement adds the same with more deferred rules. -/
theorem Adds.mono (h : l.Adds base deferred s m) (hdeferred : AreFoundIn deferred deferred') :
    l.Adds base deferred' s m := by
  cases h with
  | soundClass name members => exact .soundClass name members
  | element name body => exact .element name body
  | syllables hlink => exact .syllables hlink
  | deferred hdeferredRule => exact .deferred hdeferredRule
  | cleanupOff name => exact .cleanupOff name
  | cleanup hordinary hcleanup hlink =>
    exact .cleanup hordinary hcleanup (hdeferred.link_persists _ _ _ _ hlink)
  | rule hordinary hcleanup hlink =>
    exact .rule hordinary hcleanup (hdeferred.link_persists _ _ _ _ hlink)
  | romanizer hlink => exact .romanizer (hdeferred.romanizer_link_persists _ _ _ _ hlink)

/-- A statement adds the same behind statements that have come to the same but for idle steps. -/
theorem Adds.active (h : l.Adds base deferred s m) (hl : l'.active = l.active) :
    ∃ m', l'.Adds base deferred s m' ∧ m'.active = m.active := by
  have hlanguage := language_of_active_eq hl
  have hnames := names_of_active_eq hl
  have hstep (step : Step) : (l'.withStep step).active = (l.withStep step).active := by
    rw [active_withStep, active_withStep, hl]
  cases h with
  | soundClass name members =>
    refine ⟨_, .soundClass name members, ?_⟩
    exact congrArg (fun k : Linked ↦ { k with names := k.names.withClass name members }) hl
  | element name body =>
    refine ⟨_, .element name body, ?_⟩
    exact congrArg (fun k : Linked ↦ { k with names := k.names.withElement name body }) hl
  | @syllables _ syllabifier hlink =>
    rw [← hnames] at hlink
    refine ⟨_, .syllables hlink, ?_⟩
    rw [active_withStep, active_withStep]
    exact congrArg (fun k : Linked ↦ { k with
      language := { base with syllabifier }
      waiting := k.waiting ++ Step.active [.syllables { base with syllabifier }] }) hl
  | deferred hdeferred => exact ⟨l', .deferred hdeferred, hl⟩
  | cleanup hordinary hcleanup hlink =>
    rw [← hlanguage, ← hnames] at hlink
    exact ⟨_, .cleanup hordinary hcleanup hlink, hstep _⟩
  | rule hordinary hcleanup hlink =>
    rw [← hlanguage, ← hnames] at hlink
    refine ⟨_, .rule hordinary hcleanup hlink, ?_⟩
    rw [active_withRule, active_withRule, hl]
  | cleanupOff name => exact ⟨_, .cleanupOff name, hstep _⟩
  | romanizer hlink =>
    rw [← hlanguage, ← hnames] at hlink
    exact ⟨_, .romanizer hlink, hstep _⟩

/-- Statements come to the same but for idle steps behind statements that do. -/
theorem foldlM_active (hl : l'.active = l.active) {statements : List Statement}
    (h : statements.foldlM (Linked.statement base deferred) l = .ok m) :
    ∃ m', statements.foldlM (Linked.statement base deferred) l' = .ok m' ∧
      m'.active = m.active := by
  induction statements generalizing l l' with
  | nil =>
    cases h
    exact ⟨l', rfl, hl⟩
  | cons t rest ih =>
    obtain ⟨next, hnext, h⟩ := exists_of_foldlM_cons h
    obtain ⟨next', hnext', hactive⟩ := hnext.active hl
    rw [List.foldlM_cons, hnext'.statement]
    exact ih hactive h

/-- An inert statement adds nothing but an idle step. -/
theorem exists_adds_of_isInert {inv : Inventory} {scope : Scope} {name : String}
    (hs : s.IsInert inv scope name) (base : Language) (deferred : List RuleDeclaration)
    (l : Linked) : ∃ m, l.Adds base deferred s m ∧ m.active = l.active := by
  cases hs with
  | romanizer =>
    refine ⟨_, .romanizer rfl, ?_⟩
    rw [active_withStep]
    exact congrArg (fun waiting ↦ { l.active with waiting }) (List.append_nil _)
  | deferred _ => exact ⟨l, .deferred rfl, rfl⟩

end Linked

section Programs

variable {before after : List Statement} {inv : Inventory} {scope : Scope} {name : String}
  {s : Statement}

/-- Words are read in the language of the program if no division is the first that happens. -/
theorem Program.initialLanguage_of_ne {p : Program}
    (h : ∀ declaration, p.statements.find? (!·.isNaming) ≠ some (.syllables declaration))
    (base : Language) : p.initialLanguage base = base := by
  rw [initialLanguage]
  split
  · next declaration heq => exact absurd heq (h declaration)
  · rfl

/-- Words are read in the same language with an inert statement, unless nothing but names stands
before it and a division is the first that happens behind it. -/
theorem Statement.IsInert.initialLanguage_eq (hs : s.IsInert inv scope name) {p : Program}
    (h : (∀ t ∈ before, t.isNaming) →
      ∀ declaration, after.find? (!·.isNaming) ≠ some (.syllables declaration))
    (base : Language) :
    { p with statements := before ++ s :: after }.initialLanguage base =
      { p with statements := before ++ after }.initialLanguage base := by
  have hfirst : (s :: after).find? (!·.isNaming) = some s := by cases hs <;> rfl
  cases hbefore : before.find? (!·.isNaming) with
  | some t =>
    rw [Program.initialLanguage, Program.initialLanguage, List.find?_append, List.find?_append,
      hbefore]
    rfl
  | none =>
    have hafter := h (by simpa using hbefore)
    rw [Program.initialLanguage_of_ne, Program.initialLanguage_of_ne]
    · intro declaration
      rw [List.find?_append, hbefore, Option.none_or]
      exact hafter declaration
    · intro declaration
      rw [List.find?_append, hbefore, Option.none_or, hfirst]
      intro heq
      cases hs with
      | romanizer => cases heq
      | deferred _ => cases heq

/-- A linked program runs alike with an inert statement of a new name between its statements, if
words are read in the same language. -/
theorem Program.link_insert {p : Program} {base : Language} {pipeline : Pipeline}
    (h : { p with statements := before ++ after }.link base = .ok pipeline)
    (hs : s.IsInert inv scope name) (hname : ∀ t ∈ before ++ after, t.stepName? ≠ some name)
    (hinitial : { p with statements := before ++ s :: after }.initialLanguage base =
      { p with statements := before ++ after }.initialLanguage base) :
    ∃ pipeline', { p with statements := before ++ s :: after }.link base = .ok pipeline' ∧
      pipeline'.RunsLike pipeline := by
  have hfound := hs.areFoundIn hname
  obtain ⟨deromanizer, hderomanizer, h⟩ := exists_of_bind_eq_ok h
  obtain ⟨linked, hlinked, h⟩ := exists_of_bind_eq_ok h
  obtain ⟨romanizer, hromanizer, h⟩ := exists_of_bind_eq_ok h
  cases h
  -- the deferred rule of the statement is added first, and the statement itself after that
  have hmore := Persists.foldlM _ _ (fun l t m hm ↦
    ((Linked.adds_of_statement hm).mono hfound).statement) linked hlinked
  rw [List.foldlM_append] at hmore
  obtain ⟨l, hbefore, hafter⟩ := exists_of_bind_eq_ok hmore
  obtain ⟨m, hadds, hactive⟩ := Linked.exists_adds_of_isInert hs base
    ((before ++ s :: after).filterMap deferredOf?) l
  obtain ⟨linked', hafter, hactive⟩ := Linked.foldlM_active hactive hafter
  have hall : (before ++ s :: after).foldlM (Linked.statement base _) _ = .ok linked' :=
    List.foldlM_append.trans (bind_eq_ok hbefore (bind_eq_ok hadds.statement hafter))
  have hderomanizer := hfound.mapM_link_persists _ _ _ _ hderomanizer
  have hromanizer := hfound.mapM_link_persists _ _ _ _ hromanizer
  rw [← Linked.language_of_active_eq hactive, ← Linked.names_of_active_eq hactive] at hromanizer
  rw [← hinitial] at hderomanizer hall
  refine ⟨_, bind_eq_ok hderomanizer (bind_eq_ok hall (bind_eq_ok hromanizer rfl)), ?_⟩
  have hstages : ∀ stage ∈ linked.active.stages, stage.rule.isSome := by
    intro stage hstage
    obtain ⟨own, hown, rfl⟩ := List.mem_map.mp hstage
    exact Linked.isSome_rule_of_foldlM (List.forall_mem_nil _) hlinked own hown
  rw [hinitial]
  refine (Linked.runsLike_active linked' (hactive ▸ hstages) _ _ _).symm.trans ?_
  rw [hactive]
  exact Linked.runsLike_active linked hstages _ _ _

end Programs

end Diachrony.Syntax
