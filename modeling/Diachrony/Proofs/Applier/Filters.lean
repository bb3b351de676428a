import Diachrony.Proofs.Applier.Crashes
import Diachrony.Proofs.Linking.Plain

/-!
# Rules with filters

The patterns of the rules with a filter in an accepted program are plain, however an expression has
come under the filter, unless the expression was never checked as one of a rule with a filter or has
a literal that the check does not look at.
-/

namespace Diachrony.Applier

variable {a : Applier} {inv : Inventory} {program : Syntax.Program} {config : Config}

/-- In an accepted program an expression under a filter has a plain pattern, or it comes from an
expression of a deferred rule that stands under no filter there, or from one with a literal of
several segments that is the member of a class or is divided at a point. -/
theorem isPlain_under_filter (h : compile inv program config = .ok a) {r : SimpleRule}
    (hr : r ∈ a.simpleRules) (hfilter : r.filter.isSome) {e : Expression}
    (he : e ∈ r.expressions) :
    e.pairing.pattern.isPlain ∨ ∃ (lang : Language) (x : Syntax.Expression),
      lang.inventory = inv ∧
      (Syntax.Scope.behind program.statements).expression lang x = .ok e ∧
      ((∃ d ∈ program.deferredRules, (false, .expression x) ∈ d.entries) ∨
        ∃ l ∈ (Syntax.Scope.behind program.statements).literals x.source,
          lang.isLong l.text ∧ (l.isMember ∨ lang.divides ∧ '.' ∈ l.text.toList)) := by
  have haccepted := Syntax.Program.isAccepted_of_check (compile_iff_isCompiled.mp h).check
  have hrules := forall_rules_of_compile h fun base hbase ↦ haccepted.link_keepsPlain hbase
  obtain ⟨rule, hrule, hr⟩ := List.mem_flatMap.mp hr
  exact hrules rule hrule r hr e he hfilter

/-- A rule with a filter refers to a class whose member has two segments; it is accepted, and the
literal stands under the filter. -/
theorem isPlain_under_filter_member :
    let source : Syntax.Element := .reference "C"
    let rule : Syntax.RuleDeclaration :=
      { name := "r"
        body := .expressions [.expression { source, target := .text "t" false }]
        modifiers := { filter := some (.negated (.text "s" false)) } }
    let program : Syntax.Program :=
      { statements := [.soundClass "C" [.text "ta" false], .rule rule] }
    ∃ a r e, compile .empty program {} = .ok a ∧ r ∈ a.simpleRules ∧ r.filter.isSome ∧
      e ∈ r.expressions ∧ ¬e.pairing.pattern.isPlain ∧ program.Escapes .empty e := by
  intro source rule program
  have hrun : ((compile .empty program {}).toOption.map fun a ↦ a.simpleRules.any fun r ↦
      r.filter.isSome && r.expressions.any fun e ↦ !e.pairing.pattern.isPlain) = some true := by
    decide +kernel
  obtain ⟨a, hcompile, hrun⟩ := Option.map_eq_some_iff.mp hrun
  obtain ⟨r, hr, hrun⟩ := List.any_eq_true.mp hrun
  obtain ⟨hfilter, hrun⟩ := Bool.and_eq_true_iff.mp hrun
  obtain ⟨e, he, hplain⟩ := List.any_eq_true.mp hrun
  have hplain : ¬e.pairing.pattern.isPlain := by simpa using hplain
  have hcompile := eq_ok_of_toOption hcompile
  have hescapes := (isPlain_under_filter hcompile hr hfilter he).resolve_left hplain
  exact ⟨a, r, e, hcompile, hr, hfilter, he, hplain, hescapes⟩

end Diachrony.Applier
