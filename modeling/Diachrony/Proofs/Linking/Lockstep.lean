import Diachrony.Proofs.Linking.Abreast
import Diachrony.Proofs.Linking.Inlining

/-!
# Programs in lockstep

Two programs whose statements come from each other one by one ask for moves that are alike, and have
cleanup rules in force that are alike. Each pair of statements keeps to that, so whole programs do.
-/

namespace Diachrony.Syntax

section Inlining

variable (deferred : List RuleDeclaration)

/-- Whether a statement comes from another by inlining at most one reference. -/
inductive Statement.Inlines : Statement → Statement → Prop
  /-- In a rule. -/
  | rule {r r' : RuleDeclaration} (h : r.Inlines deferred r') : Inlines (.rule r) (.rule r')
  /-- In a romanizer. -/
  | romanizer {r r' : RomanizerDeclaration} (h : r.Inlines deferred r') :
      Inlines (.romanizer r) (.romanizer r')
  /-- The statement stays as it is. -/
  | same (s : Statement) : Inlines s s

/-- Whether a program comes from another by inlining at most one reference in each declaration. -/
structure Program.Inlines (p p' : Program) : Prop where
  /-- In the deromanizer. -/
  deromanizer :
    Option.Rel (RomanizerDeclaration.Inlines p.deferredRules) p.deromanizer p'.deromanizer
  /-- In the statements. -/
  statements : List.Forall₂ (Statement.Inlines p.deferredRules) p.statements p'.statements
  /-- In the romanizer. -/
  romanizer : Option.Rel (RomanizerDeclaration.Inlines p.deferredRules) p.romanizer p'.romanizer

end Inlining

variable {deferred deferred' : List RuleDeclaration} {base : Language} {l l' m m' : Linked}

/-- The deferred rules of statements that come from each other do so as well. -/
theorem Statement.Inlines.deferredOf? {s s' : Statement} (h : s.Inlines deferred s') :
    Option.Rel (RuleDeclaration.Inlines deferred) (Program.deferredOf? s)
      (Program.deferredOf? s') := by
  cases h with
  | romanizer _ => exact .none
  | same =>
    cases Program.deferredOf? s with
    | none => exact .none
    | some r => exact .some (.refl r)
  | @rule r _ hr =>
    obtain ⟨body, hbody, rfl⟩ := hr
    rw [Program.deferredOf?, Program.deferredOf?]
    split
    · exact .some ⟨body, hbody, rfl⟩
    · exact .none

/-- Inlining a reference is a change of a rule or a romanizer. -/
theorem Statement.Inlines.changes {s s' : Statement} (h : s.Inlines deferred s') :
    s.Changes (RuleDeclaration.Inlines deferred) (RomanizerDeclaration.Inlines deferred) s' := by
  cases h with
  | rule hr => exact .rule hr
  | romanizer hr => exact .romanizer hr
  | same s => exact .same s

/-- Whether statements ask for moves that are alike in one language, and have the same names and
cleanup rules that are alike in force. -/
structure Linked.Alike (base : Language) (l l' : Linked) : Prop where
  /-- The same names are known. -/
  names : l'.names = l.names
  /-- The language is that of the start. -/
  keeps : l.Keeps base
  /-- The language is that of the start on the other side. -/
  keeps' : l'.Keeps base
  /-- The moves. -/
  moves : Move.Alike (l.moves true (.initial base)) (l'.moves true (.initial base))
  /-- The cleanup rules in force. -/
  cleanups : List.Forall₂ (NamedRule.Alike base) (l.regime (.initial base)).cleanups
    (l'.regime (.initial base)).cleanups

namespace Linked.Alike

/-- Statements are like themselves. -/
theorem refl (h : l.Keeps base) : l.Alike base l :=
  ⟨rfl, h, h, .refl _, List.forall₂_same.mpr fun _ _ ↦ ⟨rfl, fun _ ↦ .refl _⟩⟩

variable (hlang : base.syllabifier = none)
include hlang

/-- Programs that are alike so far are linked abreast, where no other language is in force. -/
theorem abreast (h : l.Alike base l') : l.Abreast (· = base) base l' := by
  have hstarted := (l'.started_regime (.initial base)).trans (l.started_regime (.initial base)).symm
  refine ⟨h.names, h.keeps'.language.trans h.keeps.language.symm, h.keeps.language,
    ⟨hstarted, h.keeps'.inForce.trans h.keeps.inForce.symm, h.keeps.inForce, ?_⟩, h.moves⟩
  refine h.cleanups.imp fun rule rule' hrule ↦ ⟨hrule.1.symm, ?_⟩
  rintro _ rfl
  exact hrule.2.standsLike hlang

variable (hdeferred : List.Forall₂ (RuleDeclaration.Inlines deferred) deferred deferred')
include hdeferred

/-- Declarations that come from each other by inlining references are linked alike, in a language
that divides no words. -/
theorem linkAlike_inlines : LinkAlike (· = base) deferred deferred'
    (RuleDeclaration.Inlines deferred) (RomanizerDeclaration.Inlines deferred) where
  rule_refl := .refl
  romanizer_refl := .refl
  deferred_eq := by
    rintro r _ ⟨body, -, rfl⟩
    rfl
  cleanup_eq := by
    rintro r _ ⟨body, -, rfl⟩
    rfl
  rule := by
    rintro lang r r' rfl hr names rule rule' hrule hrule'
    have hname := (RuleDeclaration.name_of_link hrule').trans
      (hr.name_eq.trans (RuleDeclaration.name_of_link hrule).symm)
    obtain ⟨body, hbody, rfl⟩ := hr
    have hwrites : Rule.WritesLike lang rule.rule rule'.rule := by
      refine RuleDeclaration.link_inlined hlang (.refl names) hdeferred ?_ ?_ _ _ hrule hrule'
      · rfl
      · exact hbody
    exact ⟨hname, fun _ heq ↦ heq ▸ hwrites.standsLike hlang⟩
  romanizer := by
    rintro _ r r' rfl hr names rule rule' hrule hrule'
    have hwrites := hr.link hlang (.refl names) hdeferred rule rule' hrule hrule'
    obtain ⟨body, -, rfl⟩ := hr
    rw [RomanizerDeclaration.link_eq] at hrule hrule'
    obtain ⟨own, -, rfl⟩ := map_eq_ok_iff.mp hrule
    obtain ⟨own', -, rfl⟩ := map_eq_ok_iff.mp hrule'
    exact ⟨rfl, fun _ heq ↦ heq ▸ hwrites.standsLike hlang⟩

/-- Statements that come from each other one by one ask for moves that are alike. -/
theorem foldlM (h : l.Alike base l') {statements statements' : List Statement}
    (hs : List.Forall₂ (Statement.Inlines deferred) statements statements')
    (hundivided : ∀ s ∈ statements, s.isSyllables = false)
    (hm : statements.foldlM (Linked.statement base deferred) l = .ok m)
    (hm' : statements'.foldlM (Linked.statement base deferred') l' = .ok m') : m.Alike base m' := by
  have habreast := (h.abreast hlang).foldlM (linkAlike_inlines hlang hdeferred)
    (hs.imp fun _ _ ↦ Statement.Inlines.changes) (fun s hmem hdivides ↦ by
      rw [hundivided s hmem] at hdivides
      cases hdivides) hm hm'
  have hkeeps := h.keeps.foldlM hundivided hm
  refine ⟨habreast.names, hkeeps, ⟨habreast.language.trans hkeeps.language,
    habreast.regime.language.trans hkeeps.inForce⟩, habreast.moves, ?_⟩
  refine habreast.regime.cleanups.imp fun rule rule' hrule ↦ ⟨hrule.1.symm, ?_⟩
  exact Rule.StandsLike.writesLike hlang (hrule.2 base rfl)

end Linked.Alike

end Diachrony.Syntax
