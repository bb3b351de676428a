import Diachrony.Proofs.Applier.Undivided
import Diachrony.Proofs.Linking.Lockstep

/-!
# References and the rules they stand for

A reference in a block may be replaced by the deferred rule it stands for, and every word comes to
the same form. In a choice the children behind the reference have to be left out with that: a rule
under a name always counts as firing, even where it matches nothing, and so they are never tried.
-/

namespace Diachrony

namespace Syntax

/-- Inlining a reference divides no words. -/
theorem Program.Inlines.neverDivides {p p' : Program} (h : p.Inlines p')
    (hdivides : p.NeverDivides) : p'.NeverDivides := by
  have hstatements : ∀ {statements statements' : List Statement},
      List.Forall₂ (Statement.Inlines p.deferredRules) statements statements' →
      (∀ s ∈ statements, s.isSyllables = false) → ∀ s ∈ statements', s.isSyllables = false := by
    intro statements statements' hforall hundivided
    induction hforall with
    | nil => exact hundivided
    | cons hfirst _ ih =>
      rw [List.forall_mem_cons] at hundivided ⊢
      refine ⟨?_, ih hundivided.2⟩
      cases hfirst with
      | rule _ | romanizer _ => rfl
      | same => exact hundivided.1
  exact hstatements h.statements hdivides

/-- Optional romanizers that come from each other make the same of every phrase. -/
theorem RomanizerDeclaration.mapM_inlined {base : Language}
    (hlang : base.syllabifier = none) (names : Scope) {deferred deferred' : List RuleDeclaration}
    (hdeferred : List.Forall₂ (RuleDeclaration.Inlines deferred) deferred deferred')
    {declaration declaration' : Option RomanizerDeclaration}
    (h : Option.Rel (RomanizerDeclaration.Inlines deferred) declaration declaration')
    {rule rule' : Option NamedRule}
    (hrule : declaration.mapM (·.link base names deferred) = .ok rule)
    (hrule' : declaration'.mapM (·.link base names deferred') = .ok rule') :
    Move.Alike (rule.toList.map (.apply base)) (rule'.toList.map (.apply base)) := by
  cases h with
  | none =>
    cases hrule
    cases hrule'
    exact .refl _
  | some h =>
    have hmoves : Correspond (fun rule rule' : Option NamedRule ↦
        Move.Alike (rule.toList.map (.apply base)) (rule'.toList.map (.apply base)))
        (some <$> _) (some <$> _) :=
      (h.link hlang (.refl names) hdeferred).map fun _ _ hwrites ↦ .apply hlang hwrites
    exact hmoves rule rule' hrule hrule'

end Syntax

namespace Applier

open Syntax

variable {inv : Inventory} {program program' : Program} {config : Config} {a a' : Applier}

/-- A deferred rule may take the place of a reference to it in a block, if the children behind it in
a choice are left out. -/
theorem applyTo_inlined (h : compile inv program config = .ok a)
    (h' : compile inv program' config = .ok a') (hdivides : program.NeverDivides)
    (hinlines : program.Inlines program') (word : String) :
    (a.applyTo word).toOption = (a'.applyTo word).toOption := by
  refine toOption_applyTo_eq h h' hdivides (hinlines.neverDivides hdivides) ?_ word
  intro deromanizer linked romanizer deromanizer' linked' romanizer' _ hlinks hlinks'
  have hlang : (undivided inv config).syllabifier = none := rfl
  have hdeferred : List.Forall₂ (RuleDeclaration.Inlines program.deferredRules)
      program.deferredRules program'.deferredRules :=
    List.rel_filterMap (fun _ _ hs ↦ hs.deferredOf?) hinlines.statements
  have hlinked := (Linked.Alike.refl (.initial _)).foldlM hlang hdeferred hinlines.statements
    hdivides hlinks.statements hlinks'.statements
  have hderomanizer := RomanizerDeclaration.mapM_inlined hlang [] hdeferred hinlines.deromanizer
    hlinks.deromanizer hlinks'.deromanizer
  have hromanizer := hlinks'.romanizer
  rw [hlinked.names] at hromanizer
  exact (hderomanizer.append hlinked.moves).append (RomanizerDeclaration.mapM_inlined hlang _
    hdeferred hinlines.romanizer hlinks.romanizer hromanizer)

/-- In a choice, the children behind a reference are never tried, but those behind the rule that it
stands for are, where the rule matches nothing. -/
theorem applyTo_reference_in_choice :
    let change (source target : String) : Body := .expressions [.expression
      { source := .text source false, target := .text target false }]
    let d : RuleDeclaration := { name := "d", body := change "x" "y", deferred := true }
    let choice (first : Child) : Program := { statements := [.rule d,
      .rule { name := "r", body := .block [first, .mk (change "a" "b") {}] [.firstMatching] }] }
    ∃ a a', compile .empty (choice (.mk (.expressions [.reference "d"]) {})) {} = .ok a ∧
      compile .empty (choice (.mk d.body d.modifiers)) {} = .ok a' ∧
      a.applyTo "a" = .ok "a" ∧ a'.applyTo "a" = .ok "b" := by
  intro change d choice
  have hrun (first : Child) (form : String) (h : (do
      let a ← compile .empty (choice first) {}
      a.applyTo "a").toOption = some form) :
      ∃ a, compile .empty (choice first) {} = .ok a ∧ a.applyTo "a" = .ok form :=
    exists_of_bind_eq_ok (eq_ok_of_toOption h)
  obtain ⟨a, ha, hform⟩ := hrun (.mk (.expressions [.reference "d"]) {}) "a" (by decide +kernel)
  obtain ⟨a', ha', hform'⟩ := hrun (.mk d.body d.modifiers) "b" (by decide +kernel)
  exact ⟨a, a', ha, ha', hform, hform'⟩

/-- In a choice, the rule that writes `y` for `x` takes the place of its reference, and the rule
behind the reference is left out: both programs make `ya` of `xa`. -/
theorem applyTo_inlined_xa :
    let change (source target : String) : Body := .expressions [.expression
      { source := .text source false, target := .text target false }]
    let d : RuleDeclaration := { name := "d", body := change "x" "y", deferred := true }
    let choice (children : List Child) : Program := { statements := [.rule d,
      .rule { name := "r", body := .block children [.firstMatching] }] }
    let reference : Child := .mk (.expressions [.reference "d"]) {}
    ∃ a a', compile .empty (choice [reference, .mk (change "a" "b") {}]) {} = .ok a ∧
      compile .empty (choice [.mk d.body d.modifiers]) {} = .ok a' ∧
      (a.applyTo "xa").toOption = some "ya" ∧ (a'.applyTo "xa").toOption = some "ya" := by
  intro change d choice reference
  have hrun : (do
      let a ← compile .empty (choice [reference, .mk (change "a" "b") {}]) {}
      a.applyTo "xa").toOption = some "ya" := by
    decide +kernel
  have hcompile : (do
      let _ ← compile .empty (choice [.mk d.body d.modifiers]) {}
      return () : Except Fault Unit).toOption = some () := by
    decide +kernel
  obtain ⟨a, ha, hform⟩ := exists_of_bind_eq_ok (eq_ok_of_toOption hrun)
  obtain ⟨a', ha', -⟩ := exists_of_bind_eq_ok (eq_ok_of_toOption hcompile)
  have hblock : Body.Inlines [d]
      (.block ([] ++ reference :: [.mk (change "a" "b") {}]) [.firstMatching])
      (.block ([] ++ [.mk d.body d.modifiers]) [.firstMatching]) := .inChoice rfl (.reference rfl)
  have hinlines : (choice [reference, .mk (change "a" "b") {}]).Inlines
      (choice [.mk d.body d.modifiers]) :=
    ⟨.none, .cons (.same _) (.cons (.rule ⟨_, .inr hblock, rfl⟩) .nil), .none⟩
  have hsame := applyTo_inlined ha ha' (by decide) hinlines "xa"
  rw [hform] at hsame
  exact ⟨a, a', ha, ha', congrArg Except.toOption hform, hsame.symm⟩

end Applier

end Diachrony
