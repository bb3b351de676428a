import Diachrony.Proofs.Applier.Undivided
import Diachrony.Proofs.Linking.Successive

/-!
# Blocks and rules in turn

A rule that is a block of children in turn may be replaced by its children, as rules one after the
other. Inside of the block it is seen whether a child fires, and between rules it is not, but what
the children make of a phrase in turn does not depend on that.
-/

namespace Diachrony

/-- Rules in turn make of a phrase what they make of it as rules of a program. -/
theorem Move.Alike.sequential {lang : Language} (hlang : lang.syllabifier = none) (name : String)
    {rules : List Rule} {named : List NamedRule}
    (h : List.Forall₂ (fun rule s ↦ Rule.WritesLike lang rule s.rule) rules named) :
    Alike [.apply lang ⟨name, .sequential rules⟩] (named.map (.apply lang)) := by
  intro p
  have hblock : Agree (outcomes [.apply lang ⟨name, .sequential rules⟩] p)
      (Rule.outcome (Rule.applyInTurn lang rules) p) := by
    have happlied := applied_agree hlang ⟨name, .sequential rules⟩ p
    rw [Rule.apply_sequential] at happlied
    simpa [outcomes, outcome, result] using happlied
  refine hblock.trans ?_
  clear hblock
  induction h generalizing p with
  | nil =>
    rw [Rule.outcome, Rule.applyInTurn]
    exact .refl _
  | @cons rule s rest others hfirst _ ih =>
    rw [Rule.applyInTurn_cons, Rule.outcome_inTurn, List.map_cons]
    have hmove : Agree (Rule.outcome (rule.apply lang) p) (outcome p (.apply lang s)) :=
      (hfirst p).trans (applied_agree hlang s p).symm
    rw [outcomes, List.foldlM_cons]
    exact hmove.bind ih

namespace Syntax

/-- Whether a statement is a cleanup rule. -/
def Statement.isCleanup : Statement → Bool
  | rule r => r.cleanup
  | _ => false

variable {base : Language} {deferred : List RuleDeclaration} {l l' : Linked}

/-- Without cleanup rules among the statements none is in force behind them. -/
theorem Linked.cleanups_of_foldlM {statements : List Statement}
    (hstatements : ∀ s ∈ statements, s.isCleanup = false) {r : Regime}
    (hcleanups : (l.regime r).cleanups = [])
    (h : statements.foldlM (Linked.statement base deferred) l = .ok l') :
    (l'.regime r).cleanups = [] := by
  induction statements generalizing l with
  | nil =>
    cases h
    exact hcleanups
  | cons s rest ih =>
    rw [List.forall_mem_cons] at hstatements
    obtain ⟨next, hnext, h⟩ := exists_of_foldlM_cons h
    refine ih hstatements.2 ?_ h
    cases hnext with
    | soundClass _ _ | element _ _ | deferred _ => exact hcleanups
    | rule _ _ _ => rwa [regime_withRule]
    | syllables _ | romanizer _ => rwa [regime_withStep]
    | cleanupOff name => rw [regime_withStep, Regime.afterStep, hcleanups, List.filter_nil]
    | cleanup _ hcleanup _ => cases hcleanup.symm.trans hstatements.1

/-- A block of children in turn is linked to its children in turn. -/
theorem RuleDeclaration.exists_of_link_block {names : Scope} {name : String} {children : List Child}
    {operators : List BlockKind} (hkind : operators.head? ≠ some .firstMatching)
    {block : NamedRule} (hblock : link base names deferred
      { name, body := .block children operators } = .ok block) :
    ∃ linked, Child.linkAll ⟨base, names, .of base names deferred, name, [name]⟩ none 0 children =
      .ok linked ∧ block = ⟨name, .sequential linked.1⟩ := by
  obtain ⟨rule, hrule, heq⟩ := exists_of_bind_eq_ok hblock
  obtain ⟨filter, hfilter, hrule⟩ := exists_of_bind_eq_ok hrule
  obtain ⟨⟨combined, n⟩, hcombined, hrepeated⟩ := exists_of_bind_eq_ok hrule
  cases hfilter
  cases hrepeated
  rw [Body.link] at hcombined
  obtain ⟨linked, hlinked, hcombine⟩ := exists_of_bind_eq_ok hcombined
  rw [BlockKind.getD_head?_of_ne hkind] at hcombine
  cases hcombine
  cases heq
  exact ⟨linked, hlinked, rfl⟩

/-- A block of children in turn, linked as a rule, makes what the children make as rules. -/
theorem Child.alike_of_asRules (hlang : base.syllabifier = none) {name : String}
    {children : List Child} {operators : List BlockKind}
    (hkind : operators.head? ≠ some .firstMatching) {names : Scope} {block : NamedRule}
    (hblock : RuleDeclaration.link base names deferred
      { name, body := .block children operators } = .ok block) {rules : List NamedRule}
    (hrules : List.Forall₂ (fun child rule ↦ ∃ name,
      (child.asRule name).link base names deferred = .ok rule) children rules) :
    Move.Alike [.apply base block] (rules.map (.apply base)) := by
  obtain ⟨⟨combined, k⟩, hlinked, rfl⟩ := RuleDeclaration.exists_of_link_block hkind hblock
  refine .sequential hlang name ?_
  have hchildren : List.Forall₂ _ children combined := Child.forall₂_of_linkAll hlinked
  clear hblock hlinked
  induction hchildren generalizing rules with
  | nil =>
    cases hrules
    exact .nil
  | @cons child rule rest others hchild _ ih =>
    cases hrules with
    | cons hrule hrest =>
      refine .cons ?_ (ih hrest)
      obtain ⟨n, m, hlinked⟩ := hchild
      obtain ⟨own, hown⟩ := hrule
      obtain ⟨body, modifiers⟩ := child
      rw [RuleDeclaration.link_eq] at hown
      obtain ⟨linked, hlinked', rfl⟩ := map_eq_ok_iff.mp hown
      exact Body.link_inlined hlang (.refl names) (RuleDeclaration.Inlines.forall₂_refl deferred)
        (.inl rfl) modifiers name own [name] [own] n 0 _ _ hlinked hlinked'

end Syntax

namespace Applier

open Syntax

variable {inv : Inventory} {config : Config} {a a' : Applier}

/-- A linked block is like its children, linked as rules behind the same statements. -/
theorem alike_block {base : Language} (hlang : base.syllabifier = none)
    {deferred : List RuleDeclaration} {name : String} {children : List Child}
    {operators : List BlockKind} (hkind : operators.head? ≠ some .firstMatching)
    {l m m' : Linked} (hl : l.Keeps base) (hcleanups : (l.regime (.initial base)).cleanups = [])
    (hm : l.Adds base deferred (.rule { name, body := .block children operators }) m)
    {names : Nat → String} {n : Nat} (hm' : (Child.asRules names n children).foldlM
      (Linked.statement base deferred) l = .ok m') : m.Alike base m' := by
  cases hm with
  | deferred hdeferred => cases hdeferred
  | cleanup _ hcleanup _ => cases hcleanup
  | @rule _ block _ _ hblock =>
    obtain ⟨rules, rfl, hrules⟩ := Child.exists_of_asRules hl hm'
    rw [hl.language] at hblock
    refine ⟨l.names_withRules rules, hl.withRule block, hl.withRules rules, ?_, ?_⟩
    · rw [Linked.moves_withRule _ _ rfl, Linked.moves_withRules _ rfl hcleanups, hcleanups,
        hl.inForce]
      exact (Move.Alike.refl _).append (Child.alike_of_asRules hlang hkind hblock hrules)
    · rw [Linked.regime_withRule, Linked.regime_withRules, hcleanups]
      exact .nil

/-- An ordinary rule that is a block of children in turn may be replaced by its children, as rules
one after the other under whatever names. -/
theorem applyTo_block {program : Program} {before after : List Statement} {name : String}
    {children : List Child} {operators : List BlockKind}
    (hkind : operators.head? ≠ some .firstMatching) {names : Nat → String}
    (hprogram : program.statements =
      before ++ .rule { name, body := .block children operators } :: after)
    (hdivides : program.NeverDivides) (hcleanups : ∀ s ∈ program.statements, s.isCleanup = false)
    (h : compile inv program config = .ok a)
    (h' : compile inv
      { program with statements := before ++ Child.asRules names 0 children ++ after } config =
        .ok a') (word : String) :
    (a.applyTo word).toOption = (a'.applyTo word).toOption := by
  have hlang : (undivided inv config).syllabifier = none := rfl
  have hundivided := hdivides
  rw [Program.NeverDivides, hprogram, List.forall_mem_append, List.forall_mem_cons] at hundivided
  obtain ⟨hbefore, -, hafter⟩ := hundivided
  rw [hprogram, List.forall_mem_append] at hcleanups
  have hdeferred : Program.deferredRules
      { program with statements := before ++ Child.asRules names 0 children ++ after } =
        program.deferredRules := by
    simp [Program.deferredRules, hprogram, Child.filterMap_deferredOf?_asRules, Program.deferredOf?]
  refine toOption_applyTo_eq h h' hdivides ?_ ?_ word
  · refine List.forall_mem_append.mpr ⟨List.forall_mem_append.mpr ⟨hbefore, ?_⟩, hafter⟩
    exact Child.isSyllables_asRules names 0 children
  · intro deromanizer linked romanizer deromanizer' linked' romanizer' _ hlinks hlinks'
    have hstatements := hlinks.statements
    have hstatements' := hlinks'.statements
    rw [hprogram, List.foldlM_append] at hstatements
    rw [hdeferred, List.foldlM_append, List.foldlM_append] at hstatements'
    obtain ⟨l, hl, hstatements⟩ := exists_of_bind_eq_ok hstatements
    obtain ⟨m', hm', hstatements'⟩ := exists_of_bind_eq_ok hstatements'
    obtain ⟨l', hl', hm'⟩ := exists_of_bind_eq_ok hm'
    cases hl.symm.trans hl'
    obtain ⟨m, hm, hstatements⟩ := Linked.exists_of_foldlM_cons hstatements
    have hblock := alike_block hlang hkind ((Linked.Keeps.initial _).foldlM hbefore hl)
      (Linked.cleanups_of_foldlM hcleanups.1 rfl hl) hm hm'
    have hlinked := hblock.foldlM hlang (RuleDeclaration.Inlines.forall₂_refl _)
      (List.forall₂_same.mpr fun s _ ↦ .same s) hafter hstatements hstatements'
    exact alike_wholeMoves hlinks hlinks' rfl rfl hdeferred hlinked.names hlinked.moves

/-- A block that writes `b` for `a` and then `c` for `b` is the same as two rules: both programs
make `c` of `a`. -/
theorem applyTo_block_a :
    let change (source target : String) : Child := .mk (.expressions [.expression
      { source := .text source false, target := .text target false }]) {}
    let children : List Child := [change "a" "b", change "b" "c"]
    let block : Program := { statements := [
      .rule { name := "r", body := .block children [.sequential] }] }
    let names (n : Nat) : String := String.ofList (List.replicate (n + 1) 'r')
    ∃ a a', compile .empty block {} = .ok a ∧
      compile .empty { statements := [] ++ Child.asRules names 0 children ++ [] } {} = .ok a' ∧
      (a.applyTo "a").toOption = some "c" ∧ (a'.applyTo "a").toOption = some "c" := by
  intro change children block names
  have hrun : (do
      let a ← compile .empty block {}
      a.applyTo "a").toOption = some "c" := by
    decide +kernel
  have hcompile : (do
      let _ ← compile .empty { statements := [] ++ Child.asRules names 0 children ++ [] } {}
      return () : Except Fault Unit).toOption = some () := by
    decide +kernel
  obtain ⟨a, ha, hform⟩ := exists_of_bind_eq_ok (eq_ok_of_toOption hrun)
  obtain ⟨a', ha', -⟩ := exists_of_bind_eq_ok (eq_ok_of_toOption hcompile)
  have hsame : (a.applyTo "a").toOption = (a'.applyTo "a").toOption :=
    applyTo_block (by decide) rfl (by decide) (by decide) ha ha' "a"
  rw [hform] at hsame
  exact ⟨a, a', ha, ha', congrArg Except.toOption hform, hsame.symm⟩

end Applier

end Diachrony
