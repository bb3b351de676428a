import Diachrony.Proofs.Linking.Course

/-!
# Programs abreast

Two programs whose rules and romanizers are related one by one, and that are the same otherwise, are
linked abreast: behind every statement the same names are known, the same language is in force, and
the moves for which the statements ask are alike, if related rules are linked to rules that act
alike under their names in every language that may be in force.
-/

namespace Diachrony

/-- Whether two steps are of one kind and have rules that act alike under their names, in languages
that may be in force. -/
inductive Step.Abreast (admissible : Language → Prop) : Step → Step → Prop
  /-- Words are divided in one language. -/
  | syllables {lang : Language} (h : admissible lang) :
      Abreast admissible (.syllables lang) (.syllables lang)
  /-- Cleanup rules. -/
  | cleanup {rule rule' : NamedRule} (h : rule.StandsLike admissible rule') :
      Abreast admissible (.cleanup rule) (.cleanup rule')
  /-- A cleanup rule is turned off. -/
  | cleanupOff (name : String) : Abreast admissible (.cleanupOff name) (.cleanupOff name)
  /-- Romanizers. -/
  | romanizer {rule rule' : NamedRule} (h : rule.StandsLike admissible rule') :
      Abreast admissible (.romanizer rule) (.romanizer rule')

/-- Whether one language is in force in two regimes, and cleanup rules that act alike under their
names. -/
structure Regime.Abreast (admissible : Language → Prop) (r r' : Regime) : Prop where
  /-- Either both have reached the start or none has. -/
  started : r'.started = r.started
  /-- The same language is in force. -/
  language : r'.language = r.language
  /-- The language may be in force. -/
  admits : admissible r.language
  /-- The cleanup rules act alike. -/
  cleanups : List.Forall₂ (NamedRule.StandsLike admissible) r.cleanups r'.cleanups

namespace Regime.Abreast

variable {admissible : Language → Prop} {r r' : Regime} (h : r.Abreast admissible r')
  {step step' : Step} (hstep : step.Abreast admissible step')
include h hstep

/-- Steps of one kind leave regimes that are abreast. -/
theorem afterStep : (r.afterStep step).Abreast admissible (r'.afterStep step') := by
  cases hstep with
  | syllables hlang => exact ⟨h.started, rfl, hlang, h.cleanups⟩
  | cleanup hrule =>
    exact ⟨h.started, h.language, h.admits, List.rel_append h.cleanups (.cons hrule .nil)⟩
  | romanizer _ => exact h
  | cleanupOff name =>
    refine ⟨h.started, h.language, h.admits, List.rel_filter (fun r s hrs ↦ ?_) h.cleanups⟩
    show (r.name != name) = true ↔ (s.name != name) = true
    rw [hrs.1]

/-- Steps of one kind ask for moves that are alike. -/
theorem stepMoves (romanize : Bool) :
    Move.Alike (r.stepMoves romanize step) (r'.stepMoves romanize step') := by
  cases hstep with
  | syllables _ =>
    rw [Regime.stepMoves, Regime.stepMoves, h.started]
    exact .refl _
  | cleanup hrule =>
    rw [Regime.stepMoves, Regime.stepMoves, h.started, h.language]
    split
    · exact .apply_of_standsLike h.admits hrule
    · exact .refl _
  | cleanupOff _ => exact .refl _
  | romanizer hrule =>
    rw [Regime.stepMoves, Regime.stepMoves, h.language]
    exact .record_of_standsLike h.admits hrule romanize

end Regime.Abreast

namespace Syntax

/-- Whether a statement is another one, or has a rule or a romanizer that is related to its own. -/
inductive Statement.Changes (rules : RuleDeclaration → RuleDeclaration → Prop)
    (romanizers : RomanizerDeclaration → RomanizerDeclaration → Prop) :
    Statement → Statement → Prop
  /-- A rule. -/
  | rule {r r' : RuleDeclaration} (h : rules r r') : Changes rules romanizers (.rule r) (.rule r')
  /-- A romanizer. -/
  | romanizer {r r' : RomanizerDeclaration} (h : romanizers r r') :
      Changes rules romanizers (.romanizer r) (.romanizer r')
  /-- The statement stays as it is. -/
  | same (s : Statement) : Changes rules romanizers s s

/-- Whether a program is another one but for rules and romanizers that are related to its own. -/
structure Program.Changes (rules : RuleDeclaration → RuleDeclaration → Prop)
    (romanizers : RomanizerDeclaration → RomanizerDeclaration → Prop) (p p' : Program) : Prop where
  /-- The deromanizer. -/
  deromanizer : Option.Rel romanizers p.deromanizer p'.deromanizer
  /-- The statements. -/
  statements : List.Forall₂ (Statement.Changes rules romanizers) p.statements p'.statements
  /-- The romanizer. -/
  romanizer : Option.Rel romanizers p.romanizer p'.romanizer

/-- What is asked of relations between declarations: related rules are of one kind, and related
declarations are linked to rules that act alike under their names, in languages that may be in
force. -/
structure LinkAlike (admissible : Language → Prop) (deferred deferred' : List RuleDeclaration)
    (rules : RuleDeclaration → RuleDeclaration → Prop)
    (romanizers : RomanizerDeclaration → RomanizerDeclaration → Prop) : Prop where
  /-- Rules are related to themselves. -/
  rule_refl : ∀ r, rules r r
  /-- Romanizers are related to themselves. -/
  romanizer_refl : ∀ r, romanizers r r
  /-- Only deferred rules are related to deferred rules. -/
  deferred_eq : ∀ {r r'}, rules r r' → r'.deferred = r.deferred
  /-- Only cleanup rules are related to cleanup rules. -/
  cleanup_eq : ∀ {r r'}, rules r r' → r'.cleanup = r.cleanup
  /-- Related rules are linked alike. -/
  rule : ∀ {lang r r'}, admissible lang → rules r r' → ∀ names,
    Correspond (NamedRule.StandsLike admissible) (r.link lang names deferred)
      (r'.link lang names deferred')
  /-- Related romanizers are linked alike. -/
  romanizer : ∀ {lang r r'}, admissible lang → romanizers r r' → ∀ names,
    Correspond (NamedRule.StandsLike admissible) (r.link lang names deferred)
      (r'.link lang names deferred')

variable {rules : RuleDeclaration → RuleDeclaration → Prop}
  {romanizers : RomanizerDeclaration → RomanizerDeclaration → Prop}
  {admissible : Language → Prop} {deferred deferred' : List RuleDeclaration}
  {base start : Language} {l l' m m' : Linked}

/-- The deferred rules of programs with related statements are related. -/
theorem Program.Changes.deferredRules (hrefl : ∀ r, rules r r)
    (hdeferred : ∀ {r r'}, rules r r' → r'.deferred = r.deferred) {p p' : Program}
    (h : p.Changes rules romanizers p') :
    List.Forall₂ rules p.deferredRules p'.deferredRules := by
  refine List.rel_filterMap (fun s s' hs ↦ ?_) h.statements
  show Option.Rel rules (deferredOf? s) (deferredOf? s')
  cases hs with
  | romanizer _ => exact .none
  | same =>
    cases deferredOf? s with
    | none => exact .none
    | some r => exact .some (hrefl r)
  | rule hr =>
    rw [deferredOf?, deferredOf?, hdeferred hr]
    split
    · exact .some hr
    · exact .none

/-- Whether two programs are linked abreast so far. -/
structure Linked.Abreast (admissible : Language → Prop) (start : Language) (l l' : Linked) :
    Prop where
  /-- The same names are known. -/
  names : l'.names = l.names
  /-- Rules are linked in the same language. -/
  language : l'.language = l.language
  /-- The language in which rules are linked may be in force. -/
  admits : admissible l.language
  /-- What is in force is alike. -/
  regime : (l.regime (.initial start)).Abreast admissible (l'.regime (.initial start))
  /-- The moves are alike. -/
  moves : Move.Alike (l.moves true (.initial start)) (l'.moves true (.initial start))

namespace Linked.Abreast

/-- Before all statements. -/
theorem initial (h : admissible start) :
    Abreast admissible start { language := start } { language := start } :=
  ⟨rfl, rfl, h, ⟨rfl, rfl, h, .nil⟩, .refl _⟩

section Adding

variable (h : l.Abreast admissible start l')
include h

/-- Names may be added on both sides. -/
theorem withNames (names : Scope) :
    Abreast admissible start { l with names := names } { l' with names := names } :=
  ⟨rfl, h.language, h.admits, h.regime, h.moves⟩

/-- The language may be changed on both sides. -/
theorem withLanguage {lang : Language} (hlang : admissible lang) :
    Abreast admissible start { l with language := lang } { l' with language := lang } :=
  ⟨h.names, rfl, hlang, h.regime, h.moves⟩

/-- Steps of one kind may be added. -/
theorem withStep {step step' : Step} (hstep : step.Abreast admissible step') :
    Abreast admissible start (l.withStep step) (l'.withStep step') := by
  refine ⟨h.names, h.language, h.admits, ?_, ?_⟩
  · rw [regime_withStep, regime_withStep]
    exact h.regime.afterStep hstep
  · rw [moves_withStep, moves_withStep]
    exact h.moves.append (h.regime.stepMoves hstep true)

/-- Rules that act alike may be added. -/
theorem withRule {rule rule' : NamedRule} (hrule : rule.StandsLike admissible rule') :
    Abreast admissible start (l.withRule rule) (l'.withRule rule') := by
  refine ⟨h.names, h.language, h.admits, ?_, ?_⟩
  · rw [regime_withRule, regime_withRule]
    exact h.regime
  · rw [moves_withRule _ _ rfl, moves_withRule _ _ rfl, h.regime.language]
    exact h.moves.append (.map_apply_of_standsLike h.regime.admits (.cons hrule h.regime.cleanups))

end Adding

variable (hlinks : LinkAlike admissible deferred deferred' rules romanizers)
include hlinks

/-- Related rules may be added. -/
theorem addRule (h : l.Abreast admissible start l') {r r' : RuleDeclaration} (hr : rules r r')
    (hm : l.Adds base deferred (.rule r) m) (hm' : l'.Adds base deferred' (.rule r') m') :
    m.Abreast admissible start m' := by
  have hd := hlinks.deferred_eq hr
  have hc := hlinks.cleanup_eq hr
  have hlink {rule rule' : NamedRule} (hrule : r.link l.language l.names deferred = .ok rule)
      (hrule' : r'.link l'.language l'.names deferred' = .ok rule') :
      rule.StandsLike admissible rule' := by
    rw [h.language, h.names] at hrule'
    exact hlinks.rule h.admits hr l.names rule rule' hrule hrule'
  cases hm with
  | deferred hdeferred =>
    cases hm' with
    | deferred _ => exact h
    | cleanup hother _ _ | rule hother _ _ => simp [hd, hdeferred] at hother
  | cleanup hdeferred hcleanup hrule =>
    cases hm' with
    | deferred hother => simp [hd, hdeferred] at hother
    | rule _ hother _ => simp [hc, hcleanup] at hother
    | cleanup _ _ hrule' => exact h.withStep (.cleanup (hlink hrule hrule'))
  | rule hdeferred hcleanup hrule =>
    cases hm' with
    | deferred hother => simp [hd, hdeferred] at hother
    | cleanup _ hother _ => simp [hc, hcleanup] at hother
    | rule _ _ hrule' => exact h.withRule (hlink hrule hrule')

/-- Related romanizers may be added. -/
theorem addRomanizer (h : l.Abreast admissible start l') {r r' : RomanizerDeclaration}
    (hr : romanizers r r') (hm : l.Adds base deferred (.romanizer r) m)
    (hm' : l'.Adds base deferred' (.romanizer r') m') : m.Abreast admissible start m' := by
  cases hm with
  | romanizer hrule =>
    cases hm' with
    | romanizer hrule' =>
      rw [h.language, h.names] at hrule'
      exact h.withStep (.romanizer (hlinks.romanizer h.admits hr l.names _ _ hrule hrule'))

/-- Related statements may be added, if those that divide words only set languages that may be in
force. -/
theorem add (h : l.Abreast admissible start l') {s s' : Statement}
    (hs : s.Changes rules romanizers s')
    (hdivides : s.isSyllables → ∀ syllabifier, admissible { base with syllabifier })
    (hm : l.Adds base deferred s m) (hm' : l'.Adds base deferred' s' m') :
    m.Abreast admissible start m' := by
  cases hs with
  | rule hr => exact h.addRule hlinks hr hm hm'
  | romanizer hr => exact h.addRomanizer hlinks hr hm hm'
  | same =>
    cases s with
    | rule r => exact h.addRule hlinks (hlinks.rule_refl r) hm hm'
    | romanizer r => exact h.addRomanizer hlinks (hlinks.romanizer_refl r) hm hm'
    | cleanupOff name =>
      cases hm
      cases hm'
      exact h.withStep (.cleanupOff name)
    | soundClass _ _ | element _ _ =>
      cases hm
      cases hm'
      rw [h.names]
      exact h.withNames _
    | syllables _ =>
      cases hm with
      | @syllables _ syllabifier hlink =>
        cases hm' with
        | syllables hlink' =>
          rw [h.names, hlink] at hlink'
          cases hlink'
          have hlang := hdivides rfl syllabifier
          exact (h.withLanguage hlang).withStep (.syllables hlang)

/-- Programs whose statements are related one by one are linked abreast. -/
theorem foldlM (h : l.Abreast admissible start l') {statements statements' : List Statement}
    (hs : List.Forall₂ (Statement.Changes rules romanizers) statements statements')
    (hdivides : ∀ s ∈ statements, s.isSyllables →
      ∀ syllabifier, admissible { base with syllabifier })
    (hm : statements.foldlM (Linked.statement base deferred) l = .ok m)
    (hm' : statements'.foldlM (Linked.statement base deferred') l' = .ok m') :
    m.Abreast admissible start m' := by
  induction hs generalizing l l' with
  | nil =>
    cases hm
    cases hm'
    exact h
  | cons hfirst _ ih =>
    rw [List.forall_mem_cons] at hdivides
    obtain ⟨next, hnext, hm⟩ := Linked.exists_of_foldlM_cons hm
    obtain ⟨next', hnext', hm'⟩ := Linked.exists_of_foldlM_cons hm'
    exact ih (h.add hlinks hfirst hdivides.1 hnext hnext') hdivides.2 hm hm'

end Linked.Abreast

end Syntax

end Diachrony
