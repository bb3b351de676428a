import Diachrony.Proofs.Applier.Undivided
import Diachrony.Proofs.Linking.Successive

/-!
# Cleanup rules and what they stand for

A cleanup rule stands for copies of itself: one where it is declared, and one behind every ordinary
rule until it is turned off. The copies are linked at other places than the cleanup rule, where more
names may be known, but names are never declared twice, so they make the same of every phrase.
-/

namespace Diachrony

namespace Syntax

/-- A rule as a child of a block. -/
def RuleDeclaration.asChild (r : RuleDeclaration) : Child := .mk r.body r.modifiers

/-- Statements with copies in the place of cleanup rules. The cleanup rules in force are given in
the order of their declaration, and the copies are named from a number on. -/
def expandFrom (names : Nat → String) : Nat → List RuleDeclaration → List Statement → List Statement
  | _, _, [] => []
  | n, active, .cleanupOff name :: rest => expandFrom names n (active.filter (·.name != name)) rest
  | n, active, .rule r :: rest =>
    if r.cleanup then
      Child.asRules names n [r.asChild] ++ expandFrom names (n + 1) (active ++ [r]) rest
    else if r.deferred then .rule r :: expandFrom names n active rest
    else
      .rule r :: Child.asRules names n (active.map RuleDeclaration.asChild) ++
        expandFrom names (n + active.length) active rest
  | n, active, s :: rest => s :: expandFrom names n active rest

section Expanding

variable {names : Nat → String} {n : Nat} {active : List RuleDeclaration} {r : RuleDeclaration}
  {rest : List Statement}

/-- A cleanup rule comes into force with a copy in its place. -/
theorem expandFrom_cleanup (hcleanup : r.cleanup = true) :
    expandFrom names n active (.rule r :: rest) =
      Child.asRules names n [r.asChild] ++ expandFrom names (n + 1) (active ++ [r]) rest := by
  rw [expandFrom, if_pos hcleanup]

/-- A deferred rule stays as it is. -/
theorem expandFrom_deferred (hcleanup : r.cleanup = false) (hdeferred : r.deferred = true) :
    expandFrom names n active (.rule r :: rest) = .rule r :: expandFrom names n active rest := by
  rw [expandFrom, if_neg (by simp [hcleanup]), if_pos hdeferred]

/-- An ordinary rule gets copies of the cleanup rules in force behind it. -/
theorem expandFrom_rule (hcleanup : r.cleanup = false) (hdeferred : r.deferred = false) :
    expandFrom names n active (.rule r :: rest) =
      .rule r :: Child.asRules names n (active.map RuleDeclaration.asChild) ++
        expandFrom names (n + active.length) active rest := by
  rw [expandFrom, if_neg (by simp [hcleanup]), if_neg (by simp [hdeferred])]

end Expanding

/-- The program with copies in the place of cleanup rules, under the names of a supply. -/
def Program.expand (names : Nat → String) (p : Program) : Program :=
  { p with statements := expandFrom names 0 [] p.statements }

/-- Whether a statement is a rule that is both a cleanup rule and deferred. -/
def Statement.isDeferredCleanup : Statement → Bool
  | rule r => r.cleanup && r.deferred
  | _ => false

variable {base : Language} {deferred : List RuleDeclaration} {active : List RuleDeclaration}
  {l l' m m' : Linked}

/-- Whether a rule is what a declaration was linked to in some scope that has grown since. -/
def RuleDeclaration.LinkedBefore (base : Language) (deferred : List RuleDeclaration)
    (names : Scope) (r : RuleDeclaration) (rule : NamedRule) : Prop :=
  ∃ earlier : Scope, earlier.GrowsTo names ∧ r.link base earlier deferred = .ok rule

/-- Whether statements ask for moves that are like those of others with cleanup rules in force. -/
structure Linked.Expands (base : Language) (deferred active : List RuleDeclaration)
    (l l' : Linked) : Prop where
  /-- The same names are known. -/
  names : l'.names = l.names
  /-- The language is that of the start. -/
  keeps : l.Keeps base
  /-- The language is that of the start without cleanup rules. -/
  keeps' : l'.Keeps base
  /-- The moves. -/
  moves : Move.Alike (l.moves true (.initial base)) (l'.moves true (.initial base))
  /-- The cleanup rules in force. -/
  cleanups : List.Forall₂ (RuleDeclaration.LinkedBefore base deferred l.names) active
    (l.regime (.initial base)).cleanups
  /-- There are no cleanup rules on the other side. -/
  cleanups' : (l'.regime (.initial base)).cleanups = []

section Copies

variable (hlang : base.syllabifier = none) {names : Scope}
include hlang

/-- A copy of a rule that was linked before makes what the rule makes. -/
theorem RuleDeclaration.LinkedBefore.copy {r : RuleDeclaration} {rule copy : NamedRule}
    (h : r.LinkedBefore base deferred names rule) {name : String}
    (hcopy : (r.asChild.asRule name).link base names deferred = .ok copy) :
    Rule.WritesLike base rule.rule copy.rule := by
  obtain ⟨earlier, hgrows, hrule⟩ := h
  refine RuleDeclaration.link_inlined hlang hgrows
    (RuleDeclaration.Inlines.forall₂_refl deferred) ?_ ?_ _ _ hrule hcopy
  · rfl
  · exact .inl rfl

/-- Copies of the cleanup rules in force make what the rules make. -/
theorem RuleDeclaration.LinkedBefore.copies {rules copies : List NamedRule}
    (h : List.Forall₂ (RuleDeclaration.LinkedBefore base deferred names) active rules)
    (hcopies : List.Forall₂ (fun child rule ↦ ∃ name,
      (child.asRule name).link base names deferred = .ok rule)
      (active.map RuleDeclaration.asChild) copies) :
    List.Forall₂ (fun r s ↦ Rule.WritesLike base r.rule s.rule) rules copies := by
  induction h generalizing copies with
  | nil =>
    cases hcopies
    exact .nil
  | cons hfirst _ ih =>
    cases hcopies with
    | cons hcopy hrest =>
      obtain ⟨name, hcopy⟩ := hcopy
      exact .cons (hfirst.copy hlang hcopy) (ih hrest)

end Copies

namespace Linked.Expands

/-- Before all statements. -/
theorem initial (base : Language) :
    Expands base deferred [] { language := base } { language := base } :=
  ⟨rfl, .initial base, .initial base, .refl _, .nil, rfl⟩

/-- Rules that were linked before were so when more names are known. -/
theorem cleanups_of_growsTo (h : Expands base deferred active l l') {names : Scope}
    (hgrows : l.names.GrowsTo names) :
    List.Forall₂ (RuleDeclaration.LinkedBefore base deferred names) active
      (l.regime (.initial base)).cleanups :=
  h.cleanups.imp fun _ _ ⟨earlier, hearlier, hrule⟩ ↦ ⟨earlier, hearlier.trans hgrows, hrule⟩

/-- Names that are new may be added on both sides. -/
theorem withNames (h : Expands base deferred active l l') {names : Scope}
    (hgrows : l.names.GrowsTo names) :
    Expands base deferred active { l with names := names } { l' with names := names } :=
  ⟨rfl, ⟨h.keeps.language, h.keeps.inForce⟩, ⟨h.keeps'.language, h.keeps'.inForce⟩, h.moves,
    h.cleanups_of_growsTo hgrows, h.cleanups'⟩

/-- A cleanup rule may be turned off: there are no more copies of it. -/
theorem withCleanupOff (h : Expands base deferred active l l') (name : String) :
    Expands base deferred (active.filter (·.name != name)) (l.withStep (.cleanupOff name)) l' := by
  refine ⟨h.names, h.keeps.withStep rfl, h.keeps', ?_, ?_, h.cleanups'⟩
  · rw [moves_withStep]
    simpa [Regime.stepMoves] using h.moves
  · rw [regime_withStep]
    refine List.rel_filter (fun r rule hrule ↦ ?_) h.cleanups
    obtain ⟨earlier, -, hlinked⟩ := hrule
    show (r.name != name) = true ↔ (rule.name != name) = true
    rw [RuleDeclaration.name_of_link hlinked]

/-- A romanizer may be added on both sides. -/
theorem withRomanizer (h : Expands base deferred active l l') (rule : NamedRule) :
    Expands base deferred active (l.withStep (.romanizer rule))
      (l'.withStep (.romanizer rule)) := by
  refine ⟨h.names, h.keeps.withStep rfl, h.keeps'.withStep rfl, ?_, ?_, ?_⟩
  · rw [moves_withStep, moves_withStep, Regime.stepMoves, Regime.stepMoves, h.keeps.inForce,
      h.keeps'.inForce]
    exact h.moves.append (.refl _)
  · rw [regime_withStep]
    exact h.cleanups
  · rw [regime_withStep]
    exact h.cleanups'

variable (hlang : base.syllabifier = none) {names : Nat → String} {n : Nat}
include hlang

/-- A cleanup rule may be added, with a copy of it on the other side. -/
theorem withCleanup (h : Expands base deferred active l l') {r : RuleDeclaration}
    {rule : NamedRule} (hrule : r.link base l.names deferred = .ok rule)
    (hm' : (Child.asRules names n [r.asChild]).foldlM (Linked.statement base deferred) l' =
      .ok m') : Expands base deferred (active ++ [r]) (l.withStep (.cleanup rule)) m' := by
  obtain ⟨copies, rfl, hcopies⟩ := Child.exists_of_asRules h.keeps' hm'
  rw [h.names] at hcopies
  have hlinked : List.Forall₂ (RuleDeclaration.LinkedBefore base deferred l.names) [r] [rule] :=
    .cons ⟨l.names, .refl _, hrule⟩ .nil
  refine ⟨(l'.names_withRules copies).trans h.names, h.keeps.withStep rfl,
    h.keeps'.withRules copies, ?_, ?_, ?_⟩
  · rw [moves_withCleanup _ _ rfl, moves_withRules _ rfl h.cleanups', h.keeps.inForce,
      h.keeps'.inForce]
    have hwrites := RuleDeclaration.LinkedBefore.copies hlang hlinked hcopies
    exact h.moves.append (.map_apply hlang hwrites)
  · rw [regime_withStep]
    exact List.rel_append h.cleanups hlinked
  · rw [regime_withRules]
    exact h.cleanups'

/-- A rule may be added on both sides, with copies of the cleanup rules in force behind it on the
other side. -/
theorem withRule (h : Expands base deferred active l l') (rule : NamedRule)
    (hm' : (Child.asRules names n (active.map RuleDeclaration.asChild)).foldlM
      (Linked.statement base deferred) (l'.withRule rule) = .ok m') :
    Expands base deferred active (l.withRule rule) m' := by
  obtain ⟨copies, rfl, hcopies⟩ := Child.exists_of_asRules (h.keeps'.withRule rule) hm'
  have hcopies : List.Forall₂ (fun child copy ↦ ∃ name,
      (child.asRule name).link base l.names deferred = .ok copy)
      (active.map RuleDeclaration.asChild) copies := by
    rw [← h.names]
    exact hcopies
  have hwrites := RuleDeclaration.LinkedBefore.copies hlang h.cleanups hcopies
  show Expands base deferred active (l.withRule rule) (l'.withRules (rule :: copies))
  refine ⟨(l'.names_withRules _).trans h.names, h.keeps.withRule rule, h.keeps'.withRules _, ?_, ?_,
    ?_⟩
  · rw [moves_withRule _ _ rfl, moves_withRules _ rfl h.cleanups', h.keeps.inForce,
      h.keeps'.inForce]
    exact h.moves.append (.map_apply hlang (.cons (fun _ ↦ .refl _) hwrites))
  · rw [regime_withRule]
    exact h.cleanups
  · rw [regime_withRules]
    exact h.cleanups'

/-- Statements ask for moves that are like those of the statements with copies in the place of
cleanup rules. -/
theorem foldlM {inv : Inventory} {declared : List String} {c c' : Checked}
    {statements : List Statement} (h : Expands base deferred active l l')
    (hundivided : ∀ s ∈ statements, s.isSyllables = false)
    (hordinary : ∀ s ∈ statements, s.isDeferredCleanup = false) (hscope : c.scope = l.names)
    (hcheck : statements.foldlM (Checked.statement inv declared) c = .ok c')
    (hm : statements.foldlM (Linked.statement base deferred) l = .ok m)
    (hm' : (expandFrom names n active statements).foldlM (Linked.statement base deferred) l' =
      .ok m') : ∃ last, Expands base deferred last m m' := by
  induction statements generalizing n active c l l' with
  | nil =>
    cases hm
    cases hm'
    exact ⟨active, h⟩
  | cons s rest ih =>
    rw [List.forall_mem_cons] at hundivided hordinary
    rw [List.foldlM_cons] at hcheck
    obtain ⟨checked, hchecked, hcheck⟩ := exists_of_bind_eq_ok hcheck
    obtain ⟨next, hnext, hm⟩ := exists_of_foldlM_cons hm
    obtain ⟨hafter, hgrows⟩ := Checked.growsTo_of_statement hchecked
    rw [hscope] at hafter
    rw [hafter, hscope] at hgrows
    have hrest {n : Nat} {active : List RuleDeclaration} {l' : Linked}
        (h : Expands base deferred active next l')
        (hm' : (expandFrom names n active rest).foldlM (Linked.statement base deferred) l' =
          .ok m') : ∃ last, Expands base deferred last m m' :=
      ih h hundivided.2 hordinary.2 (hafter.trans hnext.names_eq.symm) hcheck hm hm'
    cases hnext with
    | soundClass name members =>
      obtain ⟨next', hnext', hm'⟩ := exists_of_foldlM_cons hm'
      cases hnext'
      rw [h.names] at hm'
      exact hrest (h.withNames hgrows) hm'
    | element name body =>
      obtain ⟨next', hnext', hm'⟩ := exists_of_foldlM_cons hm'
      cases hnext'
      rw [h.names] at hm'
      exact hrest (h.withNames hgrows) hm'
    | syllables _ => cases hundivided.1
    | cleanupOff name => exact hrest (h.withCleanupOff name) hm'
    | @romanizer r rule hrule =>
      obtain ⟨next', hnext', hm'⟩ := exists_of_foldlM_cons hm'
      cases hnext' with
      | @romanizer _ rule' hrule' =>
        rw [h.keeps'.language, h.names, ← h.keeps.language, hrule] at hrule'
        cases hrule'
        exact hrest (h.withRomanizer rule) hm'
    | @deferred r hd =>
      have hc : r.cleanup = false := by simpa [Statement.isDeferredCleanup, hd] using hordinary.1
      rw [expandFrom_deferred hc hd] at hm'
      obtain ⟨next', hnext', hm'⟩ := exists_of_foldlM_cons hm'
      cases hnext' with
      | deferred _ => exact hrest h hm'
      | cleanup hd' _ _ | rule hd' _ _ => cases hd.symm.trans hd'
    | @cleanup r rule hd hc hrule =>
      rw [expandFrom_cleanup hc, List.foldlM_append] at hm'
      obtain ⟨next', hnext', hm'⟩ := exists_of_bind_eq_ok hm'
      rw [h.keeps.language] at hrule
      exact hrest (h.withCleanup hlang hrule hnext') hm'
    | @rule r rule hd hc hrule =>
      rw [expandFrom_rule hc hd, List.foldlM_append] at hm'
      obtain ⟨next', hnext', hm'⟩ := exists_of_bind_eq_ok hm'
      obtain ⟨ruled, hruled, hnext'⟩ := exists_of_foldlM_cons hnext'
      cases hruled with
      | deferred hd' => cases hd.symm.trans hd'
      | cleanup _ hc' _ => cases hc.symm.trans hc'
      | @rule _ rule' _ _ hrule' =>
        rw [h.keeps'.language, h.names, ← h.keeps.language, hrule] at hrule'
        cases hrule'
        exact hrest (h.withRule hlang rule hnext') hm'

end Linked.Expands

section Expanded

variable {names : Nat → String} (n : Nat) (active : List RuleDeclaration)
  {statements : List Statement}

/-- Copies divide no words. -/
theorem isSyllables_expandFrom (h : ∀ s ∈ statements, s.isSyllables = false) :
    ∀ s ∈ expandFrom names n active statements, s.isSyllables = false := by
  induction statements generalizing n active with
  | nil => exact List.forall_mem_nil _
  | cons s rest ih =>
    rw [List.forall_mem_cons] at h
    have hrest (n : Nat) (active : List RuleDeclaration) := ih n active h.2
    cases s with
    | syllables _ => cases h.1
    | soundClass _ _ | element _ _ | romanizer _ => exact List.forall_mem_cons.mpr ⟨rfl, hrest _ _⟩
    | cleanupOff _ => exact hrest _ _
    | rule r =>
      cases hcleanup : r.cleanup with
      | true =>
        rw [expandFrom_cleanup hcleanup, List.forall_mem_append]
        exact ⟨Child.isSyllables_asRules names n _, hrest _ _⟩
      | false =>
        cases hdeferred : r.deferred with
        | true =>
          rw [expandFrom_deferred hcleanup hdeferred, List.forall_mem_cons]
          exact ⟨rfl, hrest _ _⟩
        | false =>
          rw [expandFrom_rule hcleanup hdeferred, List.forall_mem_append, List.forall_mem_cons]
          exact ⟨⟨rfl, Child.isSyllables_asRules names n _⟩, hrest _ _⟩

/-- Copies are no deferred rules. -/
theorem filterMap_deferredOf?_expandFrom (h : ∀ s ∈ statements, s.isDeferredCleanup = false) :
    (expandFrom names n active statements).filterMap Program.deferredOf? =
      statements.filterMap Program.deferredOf? := by
  induction statements generalizing n active with
  | nil => rfl
  | cons s rest ih =>
    rw [List.forall_mem_cons] at h
    have hrest (n : Nat) (active : List RuleDeclaration) := ih n active h.2
    cases s with
    | soundClass _ _ | element _ _ | romanizer _ | syllables _ | cleanupOff _ => exact hrest _ _
    | rule r =>
      cases hcleanup : r.cleanup with
      | true =>
        have hdeferred : r.deferred = false := by
          simpa [Statement.isDeferredCleanup, hcleanup] using h.1
        simp [expandFrom_cleanup hcleanup, Child.filterMap_deferredOf?_asRules, hrest,
          Program.deferredOf?, hdeferred]
      | false =>
        cases hdeferred : r.deferred with
        | true =>
          simp [expandFrom_deferred hcleanup hdeferred, hrest, Program.deferredOf?, hdeferred]
        | false =>
          simp [expandFrom_rule hcleanup hdeferred, Child.filterMap_deferredOf?_asRules, hrest,
            Program.deferredOf?, hdeferred]

end Expanded

end Syntax

namespace Applier

open Syntax

variable {inv : Inventory} {program : Program} {config : Config} {a a' : Applier}

/-- Cleanup rules stand for copies of themselves: where they are declared, and behind every ordinary
rule until they are turned off. -/
theorem applyTo_expand {names : Nat → String} (hdivides : program.NeverDivides)
    (hordinary : ∀ s ∈ program.statements, s.isDeferredCleanup = false)
    (h : compile inv program config = .ok a)
    (h' : compile inv (program.expand names) config = .ok a') (word : String) :
    (a.applyTo word).toOption = (a'.applyTo word).toOption := by
  have hlang : (undivided inv config).syllabifier = none := rfl
  have hdeferred : (program.expand names).deferredRules = program.deferredRules :=
    filterMap_deferredOf?_expandFrom 0 [] hordinary
  refine toOption_applyTo_eq h h' hdivides (isSyllables_expandFrom 0 [] hdivides) ?_ word
  intro deromanizer linked romanizer deromanizer' linked' romanizer' hcheck hlinks hlinks'
  obtain ⟨_, -, hcheck⟩ := exists_of_bind_eq_ok hcheck
  obtain ⟨checked, hchecked, -⟩ := exists_of_bind_eq_ok hcheck
  have hstatements' := hlinks'.statements
  rw [hdeferred] at hstatements'
  obtain ⟨last, hexpands⟩ := (Linked.Expands.initial _).foldlM hlang hdivides hordinary rfl hchecked
    hlinks.statements hstatements'
  exact alike_wholeMoves hlinks hlinks' rfl rfl hdeferred hexpands.names hexpands.moves

/-- A cleanup rule that writes `y` for `x` runs behind the first rule and is turned off in front of
the second one: it has two copies, and both programs make `yx` of `ab`. -/
theorem applyTo_expand_ab :
    let change (source target : String) : Body := .expressions [.expression
      { source := .text source false, target := .text target false }]
    let program : Program := { statements := [
      .rule { name := "c", body := change "x" "y", cleanup := true },
      .rule { name := "r", body := change "a" "x" },
      .cleanupOff "c",
      .rule { name := "s", body := change "b" "x" }] }
    let names (n : Nat) : String := String.ofList (List.replicate (n + 1) 'c')
    ∃ a a', compile .empty program {} = .ok a ∧
      compile .empty (program.expand names) {} = .ok a' ∧
      (a.applyTo "ab").toOption = some "yx" ∧ (a'.applyTo "ab").toOption = some "yx" := by
  intro change program names
  have hrun : (do
      let a ← compile .empty program {}
      a.applyTo "ab").toOption = some "yx" := by
    decide +kernel
  have hcompile : (do
      let _ ← compile .empty (program.expand names) {}
      return () : Except Fault Unit).toOption = some () := by
    decide +kernel
  obtain ⟨a, ha, hform⟩ := exists_of_bind_eq_ok (eq_ok_of_toOption hrun)
  obtain ⟨a', ha', -⟩ := exists_of_bind_eq_ok (eq_ok_of_toOption hcompile)
  have hsame := applyTo_expand (by decide) (by decide) ha ha' "ab"
  rw [hform] at hsame
  exact ⟨a, a', ha, ha', congrArg Except.toOption hform, hsame.symm⟩

end Applier

end Diachrony
