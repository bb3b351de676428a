import Diachrony.Proofs.Applier.Changes
import Diachrony.Proofs.Linking.Appending

/-!
# Expressions that never match

Behind the expressions of a list an expression that never matches changes nothing, for any program
and any word. Behind a reference alone it makes a rule under a name an ordinary list: the rule under
a name always counts as firing, so that the children behind it in a choice are never tried and words
are divided anew even where it matches nothing, and the list fires only where it matches.
-/

namespace Diachrony.Applier

open Syntax

variable {inv : Inventory} {program program' : Program} {config : Config} {a a' : Applier}

/-- An expression that never matches may be appended to a list. The list must not be a reference
alone, unless words are never divided, the reference stands for nothing but expressions that are
matched in the mode of the list, and the children behind the list in a choice are left out. -/
theorem applyTo_appended (h : compile inv program config = .ok a)
    (h' : compile inv program' config = .ok a') (happends : program.Appends program')
    (word : String) : (a.applyTo word).toOption = (a'.applyTo word).toOption := by
  have hdeferred := happends.deferredRules (fun r ↦ .refl r) (·.deferred_eq)
  refine toOption_applyTo_eq_of_changes h h' happends (linkAlike_appends hdeferred) (fun _ ↦ rfl) ?_
    word
  intro s hs hsyllables _ hdivides
  rw [hdivides s hs] at hsyllables
  cases hsyllables

/-- Behind a reference alone, an expression that never matches lets the children behind it in a
choice be tried, and it keeps words from being divided anew, where the reference matches nothing. -/
theorem applyTo_never_behind_reference :
    let change (source target : String) : Item := .expression
      { source := .text source false, target := .text target false }
    let d : RuleDeclaration :=
      { name := "d", body := .expressions [change "x" "y"], deferred := true }
    let rule (body : Body) : Statement := .rule { name := "r", body }
    let choice (items : List Item) : Program := { statements := [.rule d, rule (.block
      [.mk (.expressions items) {}, .mk (.expressions [change "a" "b"]) {}] [.firstMatching])] }
    -- two letters are a syllable in front of a syllable of one, and otherwise one letter is
    let single : Element := .joined [.anySyllable, .text "a" false] [.intersection]
    let shapes : SyllableDeclaration := .shapes
      [{ element := .text "aa" false, context := { conditions := [.mk none (some single)] } },
        { element := .text "a" false }]
    let divided (items : List Item) : Program :=
      { statements := [.syllables shapes, .rule d, rule (.expressions items)] }
    (∃ a a', compile .empty (choice [.reference "d"]) {} = .ok a ∧
      compile .empty (choice [.reference "d", .expression .never]) {} = .ok a' ∧
      a.applyTo "a" = .ok "a" ∧ a'.applyTo "a" = .ok "b") ∧
    ∃ a a', compile .empty (divided [.reference "d"]) {} = .ok a ∧
      compile .empty (divided [.reference "d", .expression .never]) {} = .ok a' ∧
      a.applyTo "aaa" = .ok "aa.a" ∧ a'.applyTo "aaa" = .ok "a.a.a" := by
  intro change d rule choice single shapes divided
  have hrun (program : Program) (word form : String) (h : (do
      let a ← compile .empty program {}
      a.applyTo word).toOption = some form) :
      ∃ a, compile .empty program {} = .ok a ∧ a.applyTo word = .ok form :=
    exists_of_bind_eq_ok (eq_ok_of_toOption h)
  obtain ⟨a, ha, hform⟩ := hrun (choice [.reference "d"]) "a" "a" (by decide +kernel)
  obtain ⟨a', ha', hform'⟩ :=
    hrun (choice [.reference "d", .expression .never]) "a" "b" (by decide +kernel)
  obtain ⟨b, hb, hdivided⟩ := hrun (divided [.reference "d"]) "aaa" "aa.a" (by decide +kernel)
  obtain ⟨b', hb', hdivided'⟩ :=
    hrun (divided [.reference "d", .expression .never]) "aaa" "a.a.a" (by decide +kernel)
  exact ⟨⟨a, a', ha, ha', hform, hform'⟩, b, b', hb, hb', hdivided, hdivided'⟩

/-- In a choice, the rule that writes `y` for `x` is referred to beside an expression that never
matches, and the rule behind the reference is left out; another rule has such an expression behind
its own. Both programs make `yb` of `xa`. -/
theorem applyTo_appended_xa :
    let change (source target : String) : Item := .expression
      { source := .text source false, target := .text target false }
    let d : RuleDeclaration :=
      { name := "d", body := .expressions [change "x" "y"], deferred := true }
    let program (children : List Child) (items : List Item) : Program := { statements := [.rule d,
      .rule { name := "r", body := .block children [.firstMatching] },
      .rule { name := "s", body := .expressions items }] }
    let before := program [.mk (.expressions [.reference "d"]) {},
      .mk (.expressions [change "a" "b"]) {}] [change "a" "b"]
    let after := program [.mk (.expressions [.reference "d", .expression .never]) {}]
      [change "a" "b", .expression .never]
    ∃ a a', compile .empty before {} = .ok a ∧ compile .empty after {} = .ok a' ∧
      (a.applyTo "xa").toOption = some "yb" ∧ (a'.applyTo "xa").toOption = some "yb" := by
  intro change d program before after
  have hrun : (do
      let a ← compile .empty before {}
      a.applyTo "xa").toOption = some "yb" := by
    decide +kernel
  have hcompile : (do
      let _ ← compile .empty after {}
      return () : Except Fault Unit).toOption = some () := by
    decide +kernel
  obtain ⟨a, ha, hform⟩ := exists_of_bind_eq_ok (eq_ok_of_toOption hrun)
  obtain ⟨a', ha', -⟩ := exists_of_bind_eq_ok (eq_ok_of_toOption hcompile)
  have hdivides : before.NeverDivides := by decide
  have hreference : Child.Appends before.NeverDivides [d] true
      (.mk (.expressions [.reference "d"]) {})
      (.mk (.expressions [.reference "d", .expression .never]) {}) :=
    .within (.alone hdivides (.list rfl rfl rfl rfl rfl rfl))
  have hchoice : Body.Appends before.NeverDivides [d] true {}
      (.block ([] ++ .mk (.expressions [.reference "d"]) {} ::
        [.mk (.expressions [change "a" "b"]) {}]) [.firstMatching])
      (.block ([] ++ [.mk (.expressions [.reference "d", .expression .never]) {}])
        [.firstMatching]) := .inChoiceAlone rfl hreference
  have happends : before.Appends after :=
    ⟨.none, .cons (.same _) (.cons (.rule ⟨_, .inr ⟨true, hchoice⟩, rfl⟩)
      (.cons (.rule ⟨_, .inr ⟨false, .beside rfl⟩, rfl⟩) .nil)), .none⟩
  have hsame := applyTo_appended ha ha' happends "xa"
  rw [hform] at hsame
  exact ⟨a, a', ha, ha', congrArg Except.toOption hform, hsame.symm⟩

end Diachrony.Applier
