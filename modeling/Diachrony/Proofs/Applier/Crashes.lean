import Diachrony.Proofs.Applier.Compiling
import Diachrony.Proofs.Change.Pairing
import Diachrony.Proofs.Linking.Statements

/-!
# When words crash

The words of an accepted program fail because of mistakes in the rules or the words, with two
exceptions. An output that changes the product of another output may hide an alternative, which has
no partner in the pattern, and every word that reaches it crashes. And a pass from the left does not
come to an end if it matches where nothing is replaced.

Every expression of a linked program comes from pairing a pattern with an output, wherever it stands:
in a rule, in a deferred rule that is referred to, or in a block. So the outputs of its pieces are
outputs of single pieces.
-/

namespace Diachrony

/-- Whether the outputs of an expression may be outputs of single pieces. -/
def Expression.IsPaired (e : Expression) : Prop := ∀ o ∈ e.pairing.outputs, o.isSingle

/-- Whether all expressions of a rule are paired. -/
def Rule.IsPaired (rule : Rule) : Prop := ∀ r ∈ rule.simpleRules, ∀ e ∈ r.expressions, e.IsPaired

/-- Whether the rules of a list are paired. -/
def Rule.ArePaired (rules : List NamedRule) : Prop := ∀ r ∈ rules, r.rule.IsPaired

namespace Syntax

/-- A linked expression is paired. -/
theorem Scope.expression_ensures (lang : Language) (s : Scope) (e : Expression) :
    Ensures (fun linked ↦ linked.IsPaired) (fun _ ↦ True) (s.expression lang e) := by
  rw [Scope.expression]
  refine (Ensures.anything _).bind fun pattern _ ↦ (Ensures.anything _).bind fun output _ ↦ ?_
  refine ((pattern.pair_ensures _ _ output).allow fun _ _ ↦ trivial).bind fun pairing hpairing ↦ ?_
  exact (Ensures.anything _).bind fun surroundings _ ↦ .ok hpairing

/-- Entries are linked to paired expressions wherever they stand. -/
theorem areLinked_isPaired (lang : Language) (names : Scope) (deferred : List RuleDeclaration)
    (rule : String) (trail : List String) (entries : List (Bool × Item)) (filters : List Element) :
    AreLinked (fun _ e ↦ e.IsPaired) (fun _ ↦ True)
      ⟨lang, names, .of lang names deferred, rule, trail⟩ entries filters := by
  have hdeferred : KnowsDeferred lang names deferred (fun _ e ↦ e.IsPaired) (fun _ ↦ True)
      fun _ ↦ True := by
    constructor
    · exact fun _ _ _ e _ _ _ _ ↦ (names.expression_ensures lang e).mapError fun _ _ ↦ trivial
    · exact fun _ _ _ _ _ _ ↦ .anything _
    · exact fun _ _ _ _ ↦ .anything _
    · exact fun _ _ ↦ trivial
  refine hdeferred.areLinked_of ?_ ?_ ?_
  · exact fun _ e _ _ ↦ (names.expression_ensures lang e).mapError fun _ _ ↦ trivial
  · exact fun _ _ _ _ ↦ .anything _
  · exact fun _ _ ↦ .anything _

namespace Program

/-- The rules of a linked program are paired. -/
theorem link_ensures (base : Language) (p : Program) :
    Ensures (fun pipeline ↦ Rule.ArePaired pipeline.rules) (fun _ ↦ True) (p.link base) := by
  have hromanizer (r : RomanizerDeclaration) (lang : Language) (names : Scope) :
      Ensures (fun linked ↦ linked.rule.IsPaired) (fun _ ↦ True)
        (r.link lang names p.deferredRules) :=
    RomanizerDeclaration.link_ensures (areLinked_isPaired lang names p.deferredRules _ _ _ _)
  refine Program.Links.link ⟨fun r _ _ _ ↦ hromanizer r _ _, fun _ s _ _ lang _ ↦ ?_,
    fun r _ _ _ ↦ hromanizer r _ _⟩
  cases s with
  | syllables declaration => exact .anything _
  | rule r => exact fun _ ↦ RuleDeclaration.link_ensures (areLinked_isPaired lang _ _ _ _ _ _)
  | romanizer r => exact hromanizer r _ _
  | _ => trivial

end Program

end Syntax

namespace Pipeline

variable {p : Pipeline}

/-- A rule is missing by mistake. -/
theorem stageIndex_ensures (name purpose : String) :
    Ensures (fun _ ↦ True) (fun fault ↦ fault.isMistake) (p.stageIndex name purpose) := by
  rw [stageIndex]
  split
  · exact .ok trivial
  · exact .error rfl

private theorem mapM_stageIndex_ensures (name : Option String) (purpose : String) :
    Ensures (fun _ ↦ True) (fun fault ↦ fault.isMistake)
      (name.mapM (p.stageIndex · purpose)) := by
  cases name with
  | none => exact .ok trivial
  | some name => exact (stageIndex_ensures name purpose).map fun _ _ ↦ trivial

/-- A span is refused by mistake. -/
theorem span_ensures (startAt stopBefore : Option String) :
    Ensures (fun _ ↦ True) (fun fault ↦ fault.isMistake) (p.span startAt stopBefore) := by
  rw [span]
  refine (mapM_stageIndex_ensures startAt "start at").bind fun start _ ↦ ?_
  refine (mapM_stageIndex_ensures stopBefore "stop before").bind fun stop _ ↦ ?_
  split
  · split
    · exact .error rfl
    · exact .ok trivial
  · exact .ok trivial

end Pipeline

/-- A match is not made into an edit if the output of a piece hides an alternative. -/
theorem Edit.resolve_ne_ok {piece : Piece} {pieces : List Piece} (hpiece : piece ∈ pieces)
    (h : piece.output.hidesAlternative) (inv : Inventory) (p : Phrase) (priority : Nat)
    (start stop : Position) (b : Bindings) (e : Edit) :
    resolve inv p priority start stop pieces b ≠ .ok e := by
  intro hresolve
  obtain ⟨replacements, hreplacements, -⟩ := exists_of_bind_eq_ok hresolve
  obtain ⟨r, hr⟩ := exists_of_mapM_eq_ok hreplacements hpiece
  rw [Piece.resolve] at hr
  split at hr
  · cases hr
  · next span _ =>
    obtain ⟨product, hproduct, -⟩ := exists_of_bind_eq_ok hr
    have hholds := Output.holdsAlternative_of_hidesAlternative piece.output h
    exact Output.produce_ne_ok inv b piece.pattern span product piece.output hholds hproduct

namespace Applier

/-- The simple rules of which the rules of a program are made. -/
def simpleRules (a : Applier) : List SimpleRule := a.pipeline.rules.flatMap (·.rule.simpleRules)

/-- Whether an output of some rule hides an alternative. -/
def HidesAlternative (a : Applier) : Prop :=
  ∃ r ∈ a.simpleRules, ∃ e ∈ r.expressions, ∃ o ∈ e.pairing.outputs, o.hidesAlternative

/-- Whether some rule that is applied from the left may match where nothing is replaced. -/
def MatchesInVain (a : Applier) : Prop :=
  ∃ r ∈ a.simpleRules, r.mode = .leftToRight ∧ ¬r.hasPieces

/-- The faults inside of rules. -/
def FailsInside (a : Applier) (fault : Fault) : Prop :=
  fault.isMistake ∨ a.HidesAlternative ∧ fault.cause = Output.unpaired.cause ∨
    a.MatchesInVain ∧ fault.cause = Finder.stalled.cause

/-- The faults of a word: mistakes, and crashes of two kinds. -/
def FailsOn (a : Applier) (word : String) (fault : Fault) : Prop :=
  fault.isMistake ∨
    a.HidesAlternative ∧
      (∃ rule current, fault = .of (.ruleCrashed rule word current Output.unpaired.message)) ∨
    a.MatchesInVain ∧
      ∃ rule current, fault = .of (.ruleCrashed rule word current Finder.stalled.message)

variable {a : Applier}

/-- A fault is of the same kind inside of a name. -/
theorem FailsInside.inside {fault : Fault} (h : a.FailsInside fault) (name : String) :
    a.FailsInside (fault.inside name) := h

/-- The fault of a move is of the kind of the fault inside of it. -/
theorem FailsInside.blame {fault : Fault} (h : a.FailsInside fault) (move : Move) (word : String)
    (p : Phrase) : a.FailsOn word (move.blame word p fault) := by
  have hcrash {message : String} (hmistake : ¬fault.isMistake)
      (hmessage : fault.message = message) :
      ∃ rule current, move.blame word p fault =
        .of (.ruleCrashed rule word current message) := by
    refine ⟨move.name, move.language.write p, ?_⟩
    rw [Move.blame_eq_crash hmistake, hmessage]
  have hkind {cause : Cause} (hcause : fault.cause = cause) (hmistake : ¬cause.isMistake) :
      ¬fault.isMistake ∧ fault.message = cause.message := by
    subst hcause
    exact ⟨hmistake, rfl⟩
  rcases h with h | ⟨hhides, hcause⟩ | ⟨hvain, hcause⟩
  · exact .inl (Move.isMistake_blame h)
  · obtain ⟨hmistake, hmessage⟩ := hkind hcause (by decide)
    exact .inr (.inl ⟨hhides, hcrash hmistake hmessage⟩)
  · obtain ⟨hmistake, hmessage⟩ := hkind hcause (by decide)
    exact .inr (.inr ⟨hvain, hcrash hmistake hmessage⟩)

section Accepted

variable {inv : Inventory} {program : Syntax.Program} {config : Config}

/-- The rules of an accepted program hold whatever its linked rules do. -/
theorem forall_rules_of_compile (h : compile inv program config = .ok a) {P : NamedRule → Prop}
    (hlink : ∀ base : Language, base.inventory = inv →
      Ensures (fun pipeline ↦ ∀ rule ∈ pipeline.rules, P rule) (fun _ ↦ True)
        (program.link base)) : ∀ rule ∈ a.pipeline.rules, P rule := by
  exact (hlink _ rfl).of_ok (compile_iff_isCompiled.mp h).link

/-- The rules of an accepted program are paired. -/
theorem arePaired_of_compile (h : compile inv program config = .ok a) :
    Rule.ArePaired a.pipeline.rules :=
  forall_rules_of_compile h fun base _ ↦ program.link_ensures base

/-- The simple rules of an accepted program are tolerated. -/
theorem tolerated_of_compile (h : compile inv program config = .ok a) {rule : NamedRule}
    (hrule : rule ∈ a.pipeline.rules) {r : SimpleRule} (hr : r ∈ rule.rule.simpleRules) :
    r.Tolerated a.FailsInside := by
  have hmem : r ∈ a.simpleRules := List.mem_flatMap.mpr ⟨rule, hrule, hr⟩
  constructor
  · intro e he o ho hholds
    have hsingle := arePaired_of_compile h rule hrule r hr e he o ho
    rw [Output.holdsAlternative_eq_of_isSingle hsingle] at hholds
    exact .inr (.inl ⟨⟨r, hmem, e, he, o, ho, hholds⟩, rfl⟩)
  · intro hmode hpieces
    exact .inr (.inr ⟨⟨r, hmem, hmode, hpieces⟩, rfl⟩)

/-- The words of an accepted program fail by mistake or crash in one of two ways. -/
theorem run_ensures (h : compile inv program config = .ok a) (options : RunOptions)
    (words : List String) :
    Ensures (fun report ↦ List.Forall₂
        (fun word result ↦ Ensures (fun _ ↦ True) (a.FailsOn word) result) words report.results)
      (fun fault ↦ fault.isMistake) (a.run options words) := by
  rw [run]
  refine (Pipeline.span_ensures _ _).bind fun span _ ↦ .ok ?_
  rw [Report.results, List.map_map, List.map_map, List.forall₂_map_right_iff, List.forall₂_same]
  intro word _
  have hrun := Plan.run_ensures (fun _ h ↦ Or.inl h) (fun name _ h ↦ FailsInside.inside h name) span
    options.romanize a.pipeline.language word
    fun rule hrule r hr ↦ tolerated_of_compile h hrule hr
  refine Ensures.intro (fun _ _ ↦ trivial) fun fault hfault ↦ ?_
  obtain ⟨move, q, inner, hinner, rfl⟩ := hrun.of_error hfault
  exact FailsInside.blame hinner move word q

/-- Every word of an accepted program comes to its last form or fails by mistake, unless an output
hides an alternative or a rule may match from the left in vain. A match that meets such an output
always fails. -/
theorem crashes_only_on_hidden_alternatives (h : compile inv program config = .ok a) :
    (∀ options words, Ensures (fun report ↦ List.Forall₂
        (fun word result ↦ Ensures (fun _ ↦ True) (a.FailsOn word) result) words report.results)
      (fun fault ↦ fault.isMistake) (a.run options words)) ∧
    ∀ pieces : List Piece, (∃ piece ∈ pieces, piece.output.hidesAlternative) →
      ∀ inv p priority start stop b e, Edit.resolve inv p priority start stop pieces b ≠ .ok e := by
  refine ⟨run_ensures h, fun pieces hpieces inv p priority start stop b e ↦ ?_⟩
  obtain ⟨piece, hpiece, hhides⟩ := hpieces
  exact Edit.resolve_ne_ok hpiece hhides inv p priority start stop b e

end Accepted

/-- A rule that writes `b` or `c` for `a` and changes both to `d` is accepted, and `a` crashes. -/
theorem crashes_only_on_hidden_alternatives_transformed :
    let target : Syntax.Element :=
      .joined [.alternative [.text "b" false, .text "c" false], .text "d" false] [.transforming]
    let rule : Syntax.RuleDeclaration :=
      { name := "r"
        body := .expressions [.expression { source := .text "a" false, target }]
        modifiers := { mode := some .leftToRight } }
    ∃ a report fault, compile .empty { statements := [.rule rule] } {} = .ok a ∧
      a.run {} ["a"] = .ok report ∧ report.results = [.error fault] ∧ ¬fault.isMistake ∧
      a.FailsOn "a" fault := by
  intro target rule
  have hrun : (do
      let a ← compile .empty { statements := [.rule rule] } {}
      let report ← a.run {} ["a"]
      return report.results.map fun result ↦ match result with
        | .ok _ => true
        | .error fault => fault.isMistake : Except Fault (List Bool)).toOption = some [false] := by
    decide +kernel
  obtain ⟨a, hcompile, hrun⟩ := exists_of_bind_eq_ok (eq_ok_of_toOption hrun)
  obtain ⟨report, hreport, hresults⟩ := exists_of_bind_eq_ok hrun
  have hword := ((crashes_only_on_hidden_alternatives hcompile).1 {} ["a"]).of_ok hreport
  obtain ⟨result, _, hfails, hnil, hlist⟩ := List.forall₂_cons_left_iff.mp hword
  cases List.forall₂_nil_left_iff.mp hnil
  have hcrash := List.head_eq_of_cons_eq (hlist ▸ Except.ok.inj hresults)
  cases result with
  | ok form => cases hcrash
  | error fault =>
    have hcrash : fault.isMistake = false := hcrash
    exact ⟨a, report, fault, hcompile, hreport, hlist, by rw [hcrash]; decide, hfails⟩

end Applier

end Diachrony
