import Diachrony.Linking.Program
import Diachrony.Proofs.Language.Limits

/-!
# Linking under other limits

Linking reads the inventory of a language and whether words are divided, and never its limits. So a
program is accepted under any limits if it is accepted under some, and what it is linked to differs
in the limits of its languages alone.
-/

namespace Diachrony

/-- The step with other limits for its language. -/
def Step.withLimits (limits : Limits) : Step → Step
  | syllables language => syllables (language.withLimits limits)
  | step => step

/-- The stage with other limits for its languages. -/
def Stage.withLimits (limits : Limits) (s : Stage) : Stage :=
  { s with anchored := s.anchored.map (Step.withLimits limits) }

/-- The pipeline with other limits for its languages. -/
def Pipeline.withLimits (limits : Limits) (p : Pipeline) : Pipeline :=
  { p with
    language := p.language.withLimits limits
    stages := p.stages.map (Stage.withLimits limits) }

namespace Syntax

variable (limits : Limits) (lang : Language)

section Elements

mutual

/-- The pattern of an element does not depend on limits. -/
theorem Element.pattern_withLimits (limits : Limits) (lang : Language) (follow : FollowPattern)
    (place : Place) : (e : Element) →
      e.pattern (lang.withLimits limits) follow place = e.pattern lang follow place
  | .empty | .betweenWords | .anySyllable | .captureReference _ _ => by
    rw [Element.pattern, Element.pattern]
  | .text _ _ | .matrix _ | .syllableBoundary => by
    rw [Element.pattern, Element.pattern]
    rfl
  | .reference _ => by rw [Element.pattern, Element.pattern]
  | .wordBoundary => by cases place <;> rw [Element.pattern, Element.pattern]
  | .sequence items | .alternative items => by
    rw [Element.pattern, Element.pattern,
      Element.patterns_withLimits limits lang follow place items]
  | .joined elements joints => by
    cases elements with
    | nil => rw [Element.pattern, Element.pattern]
    | cons initial rest =>
      rw [Element.pattern, Element.pattern]
      simp only [Element.pattern_withLimits limits lang follow place initial,
        Element.checks_withLimits limits lang follow place rest joints]
  | .negated inner | .repeater inner _ | .capture inner _ => by
    rw [Element.pattern, Element.pattern, Element.pattern_withLimits limits lang follow place inner]
  | .lookaround inner conditions exclusions => by
    rw [Element.pattern, Element.pattern, Element.pattern_withLimits limits lang follow place inner,
      Environment.surroundings_withLimits limits lang follow conditions,
      Environment.surroundings_withLimits limits lang follow exclusions]

/-- The patterns of elements do not depend on limits. -/
theorem Element.patterns_withLimits (limits : Limits) (lang : Language) (follow : FollowPattern)
    (place : Place) : (items : List Element) →
      Element.patterns (lang.withLimits limits) follow place items =
        Element.patterns lang follow place items
  | [] => by rw [Element.patterns, Element.patterns]
  | e :: rest => by
    rw [Element.patterns, Element.patterns, Element.pattern_withLimits limits lang follow place e,
      Element.patterns_withLimits limits lang follow place rest]

/-- The checks that elements are do not depend on limits. -/
theorem Element.checks_withLimits (limits : Limits) (lang : Language) (follow : FollowPattern)
    (place : Place) : (items : List Element) → (joints : List Joint) →
      Element.checks (lang.withLimits limits) follow place items joints =
        Element.checks lang follow place items joints
  | [], _ => by rw [Element.checks, Element.checks] <;> simp
  | _ :: _, [] => by rw [Element.checks, Element.checks] <;> simp
  | e :: rest, joint :: joints => by
    rw [Element.checks, Element.checks, Element.pattern_withLimits limits lang follow place e,
      Element.checks_withLimits limits lang follow place rest joints]

/-- The surroundings that environments are do not depend on limits. -/
theorem Environment.surroundings_withLimits (limits : Limits) (lang : Language)
    (follow : FollowPattern) : (environments : List Environment) →
      Environment.surroundings (lang.withLimits limits) follow environments =
        Environment.surroundings lang follow environments
  | [] => by rw [Environment.surroundings, Environment.surroundings]
  | .mk none none :: rest => by
    rw [Environment.surroundings, Environment.surroundings,
      Environment.surroundings_withLimits limits lang follow rest]
  | .mk (some before) none :: rest => by
    rw [Environment.surroundings, Environment.surroundings,
      Element.pattern_withLimits limits lang follow .before before,
      Environment.surroundings_withLimits limits lang follow rest]
  | .mk none (some after) :: rest => by
    rw [Environment.surroundings, Environment.surroundings,
      Element.pattern_withLimits limits lang follow .after after,
      Environment.surroundings_withLimits limits lang follow rest]
  | .mk (some before) (some after) :: rest => by
    rw [Environment.surroundings, Environment.surroundings,
      Element.pattern_withLimits limits lang follow .before before,
      Element.pattern_withLimits limits lang follow .after after,
      Environment.surroundings_withLimits limits lang follow rest]

end

mutual

/-- The output of an element does not depend on limits. -/
theorem Element.output_withLimits (limits : Limits) (lang : Language) (follow : FollowOutput) :
    (e : Element) → e.output (lang.withLimits limits) follow = e.output lang follow
  | .empty | .betweenWords | .anySyllable | .captureReference _ true | .captureReference _ false
  | .reference _ | .wordBoundary | .negated _ | .repeater _ _ | .capture _ _
  | .lookaround _ _ _ => by rw [Element.output, Element.output]
  | .text _ _ | .matrix _ | .syllableBoundary => by
    rw [Element.output, Element.output]
    rfl
  | .sequence items | .alternative items => by
    rw [Element.output, Element.output, Element.outputs_withLimits limits lang follow items]
  | .joined elements joints => by
    cases elements with
    | nil => rw [Element.output, Element.output]
    | cons initial rest =>
      rw [Element.output, Element.output]
      simp only [Element.output_withLimits limits lang follow initial,
        Element.outputs_withLimits limits lang follow rest]

/-- The outputs of elements do not depend on limits. -/
theorem Element.outputs_withLimits (limits : Limits) (lang : Language) (follow : FollowOutput) :
    (items : List Element) →
      Element.outputs (lang.withLimits limits) follow items = Element.outputs lang follow items
  | [] => by rw [Element.outputs, Element.outputs]
  | e :: rest => by
    rw [Element.outputs, Element.outputs, Element.output_withLimits limits lang follow e,
      Element.outputs_withLimits limits lang follow rest]

end

end Elements

namespace Scope

variable (s : Scope)

/-- The pattern of an element does not depend on limits, whatever its names stand for. -/
theorem pattern_withLimits (place : Place) (e : Element) :
    s.pattern (lang.withLimits limits) place e = s.pattern lang place e := by
  simp only [pattern, followPattern, Element.pattern_withLimits]

/-- The surroundings of a context do not depend on limits. -/
theorem surroundings_withLimits (c : Context) :
    s.surroundings (lang.withLimits limits) c = s.surroundings lang c := by
  simp only [surroundings, followPattern, Element.pattern_withLimits,
    Environment.surroundings_withLimits]

/-- An expression is linked alike under other limits. -/
theorem expression_withLimits (e : Expression) :
    s.expression (lang.withLimits limits) e = s.expression lang e := by
  simp only [expression, pattern_withLimits, surroundings_withLimits, output, followOutput,
    Element.output_withLimits]

end Scope

/-- What the linking of a rule needs to know, with other limits. -/
def RuleScope.withLimits (limits : Limits) (c : RuleScope) : RuleScope :=
  { c with language := c.language.withLimits limits }

namespace RuleScope

variable (c : RuleScope)

/-- Expressions are linked alike under other limits. -/
theorem expressions_withLimits (number : Nat) (items : List Item) :
    (c.withLimits limits).expressions number items = c.expressions number items := by
  induction items generalizing number with
  | nil => rfl
  | cons item rest ih =>
    cases item with
    | expression e =>
      simp only [expressions, ih]
      simp only [withLimits, Scope.expression_withLimits]
    | reference name =>
      simp only [expressions, ih]
      rfl

/-- A filter is linked alike under other limits. -/
theorem filter_withLimits (inherited : Option Pattern) (modifiers : Modifiers) :
    (c.withLimits limits).filter inherited modifiers = c.filter inherited modifiers := by
  simp only [filter, withLimits, Scope.pattern_withLimits]

end RuleScope

mutual

/-- A body is linked alike under other limits. -/
theorem Body.link_withLimits (limits : Limits) (c : RuleScope) (modifiers : Modifiers)
    (filter : Option Pattern) (number : Nat) : (body : Body) →
      body.link (c.withLimits limits) modifiers filter number =
        body.link c modifiers filter number
  | .expressions items => by
    unfold Body.link
    split
    · rfl
    · rw [RuleScope.expressions_withLimits]
    · contradiction
  | .block children operators => by
    rw [Body.link, Body.link, Child.linkAll_withLimits limits c filter number children]

/-- The children of a block are linked alike under other limits. -/
theorem Child.linkAll_withLimits (limits : Limits) (c : RuleScope) (filter : Option Pattern)
    (number : Nat) : (children : List Child) →
      Child.linkAll (c.withLimits limits) filter number children =
        Child.linkAll c filter number children
  | [] => rfl
  | .mk body modifiers :: rest => by
    rw [Child.linkAll, Child.linkAll, RuleScope.filter_withLimits]
    congr 1
    funext own
    rw [Body.link_withLimits limits c modifiers own number body]
    congr 1
    funext ⟨rule, after⟩
    simp only [Child.linkAll_withLimits limits c filter after rest]

end

/-- The body of a rule is linked alike under other limits. -/
theorem RuleDeclaration.linkBody_withLimits (c : RuleScope) (inherited : Option Pattern)
    (r : RuleDeclaration) :
    r.linkBody (c.withLimits limits) inherited = r.linkBody c inherited := by
  simp only [linkBody, RuleScope.filter_withLimits, Body.link_withLimits]

section Declarations

variable (names : Scope) (deferred : List RuleDeclaration)

/-- References are linked alike under other limits. -/
theorem References.within_withLimits (steps : Nat) :
    References.within (lang.withLimits limits) names deferred steps =
      References.within lang names deferred steps := by
  induction steps with
  | zero => rfl
  | succ steps ih =>
    have hscope (rule : String) (trail : List String) :
        (⟨lang.withLimits limits, names, References.within lang names deferred steps, rule,
          trail⟩ : RuleScope) = RuleScope.withLimits limits ⟨lang, names, _, rule, trail⟩ := rfl
    simp only [References.within, ih, hscope, RuleDeclaration.linkBody_withLimits,
      RuleScope.expressions_withLimits]

/-- A rule is linked alike under other limits. -/
theorem RuleDeclaration.link_withLimits (r : RuleDeclaration) :
    r.link (lang.withLimits limits) names deferred = r.link lang names deferred := by
  have hbody := linkBody_withLimits limits
    ⟨lang, names, .of lang names deferred, r.name, [r.name]⟩ none r
  rw [RuleScope.withLimits] at hbody
  rw [link, link, References.of, References.within_withLimits, ← References.of, hbody]

/-- A romanizer is linked alike under other limits. -/
theorem RomanizerDeclaration.link_withLimits (r : RomanizerDeclaration) :
    r.link (lang.withLimits limits) names deferred = r.link lang names deferred := by
  have hbody := Body.link_withLimits limits
    ⟨lang, names, .of lang names deferred, r.name, []⟩ {} none 0 r.body
  rw [RuleScope.withLimits] at hbody
  rw [link, link, References.of, References.within_withLimits, ← References.of, hbody]

end Declarations

/-- A division into syllables is linked alike under other limits. -/
theorem SyllableDeclaration.link_withLimits (names : Scope) (d : SyllableDeclaration) :
    d.link (lang.withLimits limits) names = d.link lang names := by
  have hshape : SyllableShape.link (lang.withLimits limits) names =
      SyllableShape.link lang names := by
    funext s
    simp only [SyllableShape.link, Scope.pattern_withLimits, Scope.surroundings_withLimits]
  cases d with
  | clear => rfl
  | explicit => rfl
  | shapes list => rw [link, link, hshape]

namespace Linked

/-- What statements have come to, with other limits. -/
def withLimits (limits : Limits) (l : Linked) : Linked :=
  { l with
    language := l.language.withLimits limits
    waiting := l.waiting.map (Step.withLimits limits)
    stages := l.stages.map (Stage.withLimits limits) }

variable (l : Linked)

private theorem withStep_withLimits (step : Step) :
    (l.withLimits limits).withStep (step.withLimits limits) =
      (l.withStep step).withLimits limits := by
  simp only [withStep, withLimits, List.map_append, List.map_cons, List.map_nil]

private theorem withRule_withLimits (rule : NamedRule) :
    (l.withLimits limits).withRule rule = (l.withRule rule).withLimits limits := by
  simp only [withRule, withLimits, Stage.withLimits, List.map_append, List.map_cons, List.map_nil]

/-- All stages under other limits are the stages with other limits. -/
theorem allStages_withLimits :
    (l.withLimits limits).allStages = l.allStages.map (Stage.withLimits limits) := by
  rw [allStages, allStages]
  cases hwaiting : l.waiting with
  | nil => simp [withLimits, hwaiting]
  | cons step rest => simp [withLimits, hwaiting, Stage.withLimits]

/-- A statement is linked alike under other limits. -/
theorem statement_withLimits (base : Language) (deferred : List RuleDeclaration) (s : Statement) :
    (l.withLimits limits).statement (base.withLimits limits) deferred s =
      withLimits limits <$> l.statement base deferred s := by
  cases s with
  | syllables declaration =>
    simp only [statement, SyllableDeclaration.link_withLimits]
    show (declaration.link base l.names >>= _) = _ <$> (declaration.link base l.names >>= _)
    cases declaration.link base l.names with
    | error fault => rfl
    | ok syllabifier =>
      exact congrArg Except.ok (withStep_withLimits limits { l with language := { base with
        syllabifier } } (.syllables { base with syllabifier }))
  | rule r =>
    simp only [statement]
    split
    · rfl
    · show (r.link (l.language.withLimits limits) l.names deferred >>= _) = _
      rw [RuleDeclaration.link_withLimits]
      cases r.link l.language l.names deferred with
      | error fault => rfl
      | ok rule =>
        show Except.ok _ = Except.ok _
        split
        · exact congrArg Except.ok (withStep_withLimits limits l (.cleanup rule))
        · exact congrArg Except.ok (withRule_withLimits limits l rule)
  | cleanupOff name => exact congrArg Except.ok (withStep_withLimits limits l (.cleanupOff name))
  | romanizer r =>
    show (r.link (l.language.withLimits limits) l.names deferred >>= _) = _
    rw [RomanizerDeclaration.link_withLimits]
    simp only [statement]
    cases r.link l.language l.names deferred with
    | error fault => rfl
    | ok rule => exact congrArg Except.ok (withStep_withLimits limits l (.romanizer rule))
  | _ => rfl

/-- Statements are linked alike under other limits. -/
theorem foldlM_statement_withLimits (base : Language) (deferred : List RuleDeclaration)
    (statements : List Statement) :
    statements.foldlM (Linked.statement (base.withLimits limits) deferred) (l.withLimits limits) =
      withLimits limits <$> statements.foldlM (Linked.statement base deferred) l := by
  induction statements generalizing l with
  | nil => rfl
  | cons s rest ih =>
    rw [List.foldlM_cons, List.foldlM_cons, statement_withLimits]
    cases l.statement base deferred s with
    | error fault => rfl
    | ok next => exact ih next

end Linked

namespace Program

/-- Words are read alike under other limits. -/
theorem initialLanguage_withLimits (base : Language) (p : Program) :
    p.initialLanguage (base.withLimits limits) = (p.initialLanguage base).withLimits limits := by
  rw [initialLanguage, initialLanguage]
  split <;> rfl

/-- A program is linked alike under other limits. -/
theorem link_withLimits (base : Language) (p : Program) :
    p.link (base.withLimits limits) = Pipeline.withLimits limits <$> p.link base := by
  have hromanizer (lang : Language) (names : Scope) :
      (fun r : RomanizerDeclaration ↦ r.link (lang.withLimits limits) names p.deferredRules) =
        fun r ↦ r.link lang names p.deferredRules := by
    funext r
    rw [RomanizerDeclaration.link_withLimits]
  have hstatements := Linked.foldlM_statement_withLimits limits
    { language := p.initialLanguage base } base p.deferredRules p.statements
  rw [link, link, initialLanguage_withLimits, hromanizer]
  show (_ >>= fun deromanizer ↦ (p.statements.foldlM (Linked.statement (base.withLimits limits) _)
    (Linked.withLimits limits { language := p.initialLanguage base }) >>= _)) = _
  rw [hstatements]
  cases p.deromanizer.mapM fun r ↦ r.link (p.initialLanguage base) [] p.deferredRules with
  | error fault => rfl
  | ok deromanizer =>
    cases p.statements.foldlM (Linked.statement base p.deferredRules)
        { language := p.initialLanguage base } with
    | error fault => rfl
    | ok linked =>
      show (p.romanizer.mapM (fun r : RomanizerDeclaration ↦
        r.link (linked.language.withLimits limits) linked.names p.deferredRules) >>= _) = _ <$>
          (p.romanizer.mapM (fun r : RomanizerDeclaration ↦
            r.link linked.language linked.names p.deferredRules) >>= _)
      rw [hromanizer]
      cases p.romanizer.mapM fun r ↦ r.link linked.language linked.names p.deferredRules with
      | error fault => rfl
      | ok romanizer =>
        show Except.ok (Pipeline.mk _ _ (linked.withLimits limits).allStages _) = _
        rw [Linked.allStages_withLimits]
        rfl

/-- A program is accepted under any limits if it is under some, and comes to the same pipeline but
for the limits. -/
theorem compile_withLimits (inv : Inventory) (limits : Limits) (p : Program) :
    p.compile inv limits = Pipeline.withLimits limits <$> p.compile inv {} := by
  rw [compile, compile]
  cases p.check inv with
  | error fault => rfl
  | ok _ => exact link_withLimits limits { inventory := inv } p

end Program

end Syntax

end Diachrony
