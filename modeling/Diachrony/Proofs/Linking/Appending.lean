import Diachrony.Proofs.Linking.Abreast
import Diachrony.Proofs.Linking.Inlining

/-!
# Expressions that never match, appended to a list

An expression whose input is an alternative without branches may be put behind the others of a list.
A list of expressions is linked to the same but for this idle one, wherever its expressions end up.

A list that is nothing but a reference is another matter: alone, the reference stands for a rule
under a name, which always counts as firing, and beside another expression it stands for the
expressions of the deferred rule, which fire where they match. If nothing but such expressions is
behind the reference, both write the same where words are not divided; in a choice the children
behind the list have to be left out, for they were never tried.
-/

namespace Diachrony

namespace Rule

/-- Whether a rule may take the place of another one: it acts alike or, if the other one always
fires and words are not divided, makes the same where it fires. -/
inductive Yields (lang : Language) : Bool → Rule → Rule → Prop
  /-- The rules act alike. -/
  | alike {r s : Rule} (h : ActsLike lang r s) : Yields lang false r s
  /-- The first rule always fires. -/
  | surely {r s : Rule} (hlang : lang.syllabifier = none) (h : SurelyActsLike lang r s) :
      Yields lang true r s

/-- A rule that writes what a simple rule writes does so whatever idle expressions there are. -/
theorem WritesLike.of_active_eq {lang : Language} {r : Rule} {filter : Option Pattern}
    {mode : MatchMode} {expressions expressions' : List Expression}
    (h : WritesLike lang r (.simple ⟨expressions, filter, mode⟩))
    (hactive : Expression.active expressions = Expression.active expressions') :
    WritesLike lang r (.simple ⟨expressions', filter, mode⟩) := by
  have halike : ActsLike lang (.simple ⟨expressions, filter, mode⟩)
      (.simple ⟨expressions', filter, mode⟩) :=
    .simple (SimpleRule.apply_eq_of_active_eq lang ⟨[], filter, mode⟩ hactive)
  exact fun p ↦ (h p).trans (halike.writesLike p)

namespace Yields

variable {lang : Language} {alone : Bool} {r s : Rule} (h : Yields lang alone r s)
include h

/-- A rule that takes the place of another one acts like it under every name. -/
theorem standsLike : StandsLike lang r s := by
  cases h with
  | alike h => exact h.standsLike
  | surely hlang h => exact h.writesLike.standsLike hlang

/-- A rule that is repeated takes the place of the other one repeated. -/
theorem repeated (m : Syntax.Modifiers) : Yields lang alone (m.repeated r) (m.repeated s) := by
  cases h with
  | alike h => exact .alike (m.repeated_actsLike h)
  | surely hlang h => exact .surely hlang (m.repeated_surelyActsLike h)

/-- One of some rules in turn may be replaced. -/
theorem sequential {before before' after after' : List Rule}
    (hbefore : List.Forall₂ (ActsLike lang) before before')
    (hafter : List.Forall₂ (ActsLike lang) after after') :
    Yields lang alone (.sequential (before ++ r :: after))
      (.sequential (before' ++ s :: after')) := by
  cases h with
  | alike h => exact .alike (.sequential (List.rel_append hbefore (.cons h hafter)))
  | surely hlang h => exact .surely hlang (.sequential hbefore h hafter)

end Yields

end Rule

namespace Syntax

/-- An expression that matches nowhere: its input is an alternative without branches. -/
def Expression.never : Expression := { source := .alternative [], target := .empty }

/-- Such an expression is linked to an idle one. -/
theorem Scope.isIdle_of_expression_never {lang : Language} {s : Scope}
    {e : Diachrony.Expression} (h : s.expression lang .never = .ok e) : e.isIdle := by
  cases h
  rfl

namespace Item

/-- Whether a list of expressions is nothing but a reference. -/
def isReferenceAlone : List Item → Bool
  | [.reference _] => true
  | _ => false

/-- A list with an expression behind it is not a reference alone. -/
theorem isReferenceAlone_append_never (items : List Item) :
    isReferenceAlone (items ++ [.expression .never]) = false := by
  cases items with
  | nil => rfl
  | cons first rest => cases first <;> cases rest <;> rfl

end Item

/-- A list of expressions that is not a reference alone is linked to a simple rule. -/
theorem Body.link_expressions {items : List Item} (h : Item.isReferenceAlone items = false)
    (c : RuleScope) (modifiers : Modifiers) (filter : Option Pattern) (number : Nat) :
    (Body.expressions items).link c modifiers filter number =
      (fun linked ↦ (.simple ⟨linked.1, filter, modifiers.mode.getD .simultaneous⟩, linked.2)) <$>
        c.expressions number items := by
  unfold Body.link
  split
  · next heq =>
    cases heq
    cases h
  · next heq =>
    cases heq
    cases c.expressions number items <;> rfl
  · contradiction

/-- A child that neither has a filter nor is repeated is linked as its body. -/
theorem Child.link_of_bare {modifiers : Modifiers} (hfilter : modifiers.filter = none)
    (honce : modifiers.propagate = false) (c : RuleScope) (body : Body) (filter : Option Pattern)
    (number : Nat) :
    (Child.mk body modifiers).link c filter number = body.link c modifiers filter number := by
  have hrepeated (rule : Rule) : modifiers.repeated rule = rule := by
    rw [Modifiers.repeated, honce, if_neg Bool.false_ne_true]
  rw [Child.link, RuleScope.filter, hfilter]
  show (body.link c modifiers filter number >>= _) = _
  cases body.link c modifiers filter number with
  | error fault => rfl
  | ok linked => exact congrArg (fun rule ↦ Except.ok (rule, linked.2)) (hrepeated linked.1)

/-- A list with an idle expression behind it is linked to the same, apart from that. -/
theorem RuleScope.exists_of_expressions_append_never {c : RuleScope} {number : Nat}
    {items : List Item} {linked : List Diachrony.Expression × Nat}
    (h : c.expressions number (items ++ [.expression .never]) = .ok linked) :
    ∃ own, c.expressions number items = .ok own ∧
      Diachrony.Expression.active linked.1 = Diachrony.Expression.active own.1 := by
  induction items generalizing number linked with
  | nil =>
    obtain ⟨e, he, h⟩ := exists_of_bind_eq_ok h
    cases h
    have hidle := Scope.isIdle_of_expression_never ((Agree.mapError _ _).1 e he)
    exact ⟨_, rfl, Diachrony.Expression.active_cons_of_isIdle hidle []⟩
  | cons item rest ih =>
    cases item with
    | expression e =>
      obtain ⟨first, hfirst, h⟩ := exists_of_bind_eq_ok h
      obtain ⟨others, hothers, h⟩ := exists_of_bind_eq_ok h
      cases h
      obtain ⟨own, hown, hactive⟩ := ih hothers
      refine ⟨_, bind_eq_ok hfirst (bind_eq_ok hown rfl), ?_⟩
      show Diachrony.Expression.active ([first] ++ others.1) =
        Diachrony.Expression.active ([first] ++ own.1)
      rw [Diachrony.Expression.active_append, Diachrony.Expression.active_append, hactive]
    | reference name =>
      obtain ⟨inlined, hinlined, h⟩ := exists_of_bind_eq_ok h
      obtain ⟨others, hothers, h⟩ := exists_of_bind_eq_ok h
      cases h
      obtain ⟨own, hown, hactive⟩ := ih hothers
      refine ⟨_, bind_eq_ok hinlined (bind_eq_ok hown rfl), ?_⟩
      show Diachrony.Expression.active (inlined.1 ++ others.1) =
        Diachrony.Expression.active (inlined.1 ++ own.1)
      rw [Diachrony.Expression.active_append, Diachrony.Expression.active_append, hactive]

/-- A reference alone is linked to the expressions that it stands for. -/
theorem RuleScope.exists_of_expressions_reference {c : RuleScope} {number : Nat} {name : String}
    {linked : List Diachrony.Expression × Nat}
    (h : c.expressions number [.reference name] = .ok linked) :
    ∃ inlined, c.references.inlined c.trail c.rule number name = .ok inlined ∧
      linked.1 = inlined.1 := by
  obtain ⟨inlined, hinlined, h⟩ := exists_of_bind_eq_ok h
  cases h
  exact ⟨inlined, hinlined, List.append_nil _⟩

section Appending

variable (undivided : Prop) (deferred : List RuleDeclaration)

/-- Whether a reference stands for nothing but a list of expressions that is matched in some mode:
no deferred rule on the way to the list has a filter or is repeated. -/
inductive IsBare (mode : MatchMode) : String → Prop
  /-- The deferred rule is the list. -/
  | list {name : String} {d : RuleDeclaration} {items : List Item}
      (hfind : deferred.find? (·.name == name) = some d) (hfilter : d.modifiers.filter = none)
      (honce : d.modifiers.propagate = false) (hbody : d.body = .expressions items)
      (hitems : Item.isReferenceAlone items = false)
      (hmode : d.modifiers.mode.getD .simultaneous = mode) : IsBare mode name
  /-- The deferred rule is a reference in turn. -/
  | reference {name other : String} {d : RuleDeclaration}
      (hfind : deferred.find? (·.name == name) = some d) (hfilter : d.modifiers.filter = none)
      (honce : d.modifiers.propagate = false) (hbody : d.body = .expressions [.reference other])
      (hother : IsBare mode other) : IsBare mode name

mutual

/-- Whether a body with its modifiers comes from another by appending an expression that never
matches to a list in it, which may have been a reference alone. -/
inductive Body.Appends : Bool → Modifiers → Body → Body → Prop
  /-- The body is the list, and there are other expressions or none. -/
  | beside {modifiers : Modifiers} {items : List Item}
      (h : Item.isReferenceAlone items = false) :
      Body.Appends false modifiers (.expressions items)
        (.expressions (items ++ [.expression .never]))
  /-- The body is the list, and it is a reference to nothing but expressions that are matched in its
  own mode, where words are not divided. -/
  | alone {modifiers : Modifiers} {name : String} (h : undivided)
      (hbare : IsBare deferred (modifiers.mode.getD .simultaneous) name) :
      Body.Appends true modifiers (.expressions [.reference name])
        (.expressions ([.reference name] ++ [.expression .never]))
  /-- The list is in one of some children in turn. -/
  | inTurn {alone : Bool} {modifiers : Modifiers} {before after : List Child}
      {child child' : Child} {operators : List BlockKind}
      (hkind : operators.head? ≠ some .firstMatching) (h : Child.Appends alone child child') :
      Body.Appends alone modifiers (.block (before ++ child :: after) operators)
        (.block (before ++ child' :: after) operators)
  /-- The list is in one of some children of a choice. -/
  | inChoice {modifiers : Modifiers} {before after : List Child} {child child' : Child}
      {operators : List BlockKind} (hkind : operators.head? = some .firstMatching)
      (h : Child.Appends false child child') :
      Body.Appends false modifiers (.block (before ++ child :: after) operators)
        (.block (before ++ child' :: after) operators)
  /-- The list is in one of some children of a choice and was a reference alone; the children behind
  it are left out. -/
  | inChoiceAlone {modifiers : Modifiers} {before after : List Child} {child child' : Child}
      {operators : List BlockKind} (hkind : operators.head? = some .firstMatching)
      (h : Child.Appends true child child') :
      Body.Appends true modifiers (.block (before ++ child :: after) operators)
        (.block (before ++ [child']) operators)

/-- Whether a child comes from another by appending an expression that never matches to a list in
it. -/
inductive Child.Appends : Bool → Child → Child → Prop
  /-- The list is in the body. -/
  | within {alone : Bool} {body body' : Body} {modifiers : Modifiers}
      (h : Body.Appends alone modifiers body body') :
      Child.Appends alone (.mk body modifiers) (.mk body' modifiers)

end

/-- Whether a body is another one, or comes from it by appending an expression that never matches to
a list in it. -/
def Body.MayAppend (modifiers : Modifiers) (body body' : Body) : Prop :=
  body' = body ∨ ∃ alone, body.Appends undivided deferred alone modifiers body'

/-- Whether a rule comes from another by appending an expression that never matches to one list at
most. -/
def RuleDeclaration.Appends (r r' : RuleDeclaration) : Prop :=
  ∃ body, r.body.MayAppend undivided deferred r.modifiers body ∧ r' = { r with body }

/-- Whether a romanizer comes from another by appending an expression that never matches to one list
at most. -/
def RomanizerDeclaration.Appends (r r' : RomanizerDeclaration) : Prop :=
  ∃ body, r.body.MayAppend undivided deferred {} body ∧ r' = { r with body }

/-- Whether a program comes from another by appending an expression that never matches to one list
at most in each declaration. References alone are only appended to where words are not divided. -/
def Program.Appends (p p' : Program) : Prop :=
  p.Changes (RuleDeclaration.Appends p.NeverDivides p.deferredRules)
    (RomanizerDeclaration.Appends p.NeverDivides p.deferredRules) p'

end Appending

section Linking

variable {undivided : Prop} {deferred deferred' : List RuleDeclaration} {lang : Language}

/-- Whether bare references are linked to rules that write what simple rules of their expressions
write. -/
def References.Spells (lang : Language) (deferred : List RuleDeclaration)
    (references references' : References) : Prop :=
  ∀ {mode : MatchMode} {name : String}, IsBare deferred mode name →
    ∀ trail trail' filter rule' number',
      Correspond (fun rule linked ↦ Rule.WritesLike lang rule (.simple ⟨linked.1, filter, mode⟩))
        (references.asRule trail filter name) (references'.inlined trail' rule' number' name)

section Places

variable {c c' : RuleScope} (h : c.Resembles lang c')
include h

/-- A list with an idle expression behind it is linked to the same elsewhere, apart from that. -/
theorem RuleScope.Resembles.expressions_append_never (number number' : Nat) (items : List Item) :
    Correspond
      (fun linked linked' ↦
        Diachrony.Expression.active linked.1 = Diachrony.Expression.active linked'.1)
      (c.expressions number items) (c'.expressions number' (items ++ [.expression .never])) := by
  intro linked linked' hlinked hlinked'
  obtain ⟨own, hown, hactive⟩ := exists_of_expressions_append_never hlinked'
  exact (h.expressions number number' items linked own hlinked hown).trans hactive.symm

mutual

/-- A body with an expression that never matches behind a list in it takes the place of the
body. -/
theorem Body.link_appends (hlang : undivided → lang.syllabifier = none)
    (hspells : undivided → c.references.Spells lang deferred c'.references) {alone : Bool}
    {modifiers : Modifiers} {body body' : Body} (filter : Option Pattern) (number number' : Nat) :
    body.Appends undivided deferred alone modifiers body' →
      Correspond (fun linked linked' ↦ Rule.Yields lang alone linked.1 linked'.1)
        (body.link c modifiers filter number) (body'.link c' modifiers filter number')
  | @Body.Appends.beside _ _ _ items hitems => by
    rw [Body.link_expressions hitems,
      Body.link_expressions (Item.isReferenceAlone_append_never items)]
    refine (h.expressions_append_never number number' items).map fun linked linked' hlinked ↦ ?_
    exact .alike (.simple (SimpleRule.apply_eq_of_active_eq lang ⟨[], filter, _⟩ hlinked))
  | @Body.Appends.alone _ _ _ name hundivided hbare => by
    rw [Body.link_expressions (Item.isReferenceAlone_append_never _)]
    intro linked linked' hlinked hlinked'
    obtain ⟨rule, hrule, hlinked⟩ := exists_of_bind_eq_ok hlinked
    cases hlinked
    obtain ⟨extended, hextended, rfl⟩ := map_eq_ok_iff.mp hlinked'
    obtain ⟨own, hown, hactive⟩ := RuleScope.exists_of_expressions_append_never hextended
    obtain ⟨inlined, hinlined, heq⟩ := RuleScope.exists_of_expressions_reference hown
    rw [heq] at hactive
    have hwrites := hspells hundivided hbare _ _ filter _ _ rule inlined hrule hinlined
    exact .surely (hlang hundivided) ((hwrites.of_active_eq hactive.symm).surely_named
      (hlang hundivided) name)
  | @Body.Appends.inTurn _ _ _ _ before after child child' operators hkind hchild => by
    rw [Body.link, Body.link, BlockKind.getD_head?_of_ne hkind]
    refine (Child.linkAll_apart h (Rule.Yields lang _) (List.Forall₂ (Rule.ActsLike lang))
      (fun n n' ↦ Child.link_appends hlang hspells filter n n' hchild)
      (fun n n' ↦ Child.linkAll_resembles h filter n n' after) before number number').bind ?_
    rintro ⟨_, _⟩ ⟨_, _⟩ ⟨front, front', r, s, back, back', rfl, rfl, hfront, hchild, hback⟩
    exact .ok (hchild.sequential hfront hback)
  | @Body.Appends.inChoice _ _ _ before after child child' operators hkind hchild => by
    rw [Body.link, Body.link, hkind]
    refine (Child.linkAll_apart h (Rule.Yields lang false) (List.Forall₂ (Rule.ActsLike lang))
      (fun n n' ↦ Child.link_appends hlang hspells filter n n' hchild)
      (fun n n' ↦ Child.linkAll_resembles h filter n n' after) before number number').bind ?_
    rintro ⟨_, _⟩ ⟨_, _⟩ ⟨front, front', r, s, back, back', rfl, rfl, hfront, ⟨halike⟩, hback⟩
    have hrules := List.rel_append hfront (.cons halike hback)
    exact .ok (.alike (.withinWord (.firstMatching hrules)))
  | @Body.Appends.inChoiceAlone _ _ _ before after child child' operators hkind hchild => by
    rw [Body.link, Body.link, hkind]
    refine (Child.linkAll_apart h (Rule.Yields lang true) (fun _ rest ↦ rest = [])
      (fun n n' ↦ Child.link_appends hlang hspells filter n n' hchild) ?_ before number
      number').bind ?_
    · rintro n n' _ _ - ⟨⟩
      rfl
    rintro ⟨_, _⟩ ⟨_, _⟩ ⟨front, front', r, s, back, _, rfl, rfl, hfront, hchild, rfl⟩
    obtain ⟨hundivided, hown⟩ : lang.syllabifier = none ∧ Rule.SurelyActsLike lang r s := by
      cases hchild with
      | surely hlang hown => exact ⟨hlang, hown⟩
    exact .ok (.surely hundivided (.withinWord (.firstMatching hfront hown back)))

/-- A child with an expression that never matches behind a list in it takes the place of the
child. -/
theorem Child.link_appends (hlang : undivided → lang.syllabifier = none)
    (hspells : undivided → c.references.Spells lang deferred c'.references) {alone : Bool}
    {child child' : Child} (filter : Option Pattern) (number number' : Nat) :
    child.Appends undivided deferred alone child' →
      Correspond (fun linked linked' ↦ Rule.Yields lang alone linked.1 linked'.1)
        (child.link c filter number) (child'.link c' filter number')
  | @Child.Appends.within _ _ _ body body' modifiers happends => by
    refine (h.filter filter modifiers).bind ?_
    rintro own _ rfl
    refine (Body.link_appends hlang hspells own number number' happends).bind
      fun linked linked' hlinked ↦ .ok ?_
    exact hlinked.repeated modifiers

end

/-- The rules to which a child is linked act alike under every name if an expression that never
matches is put behind one list at most. -/
theorem Child.link_mayAppend (hlang : undivided → lang.syllabifier = none)
    (hspells : undivided → c.references.Spells lang deferred c'.references) {modifiers : Modifiers}
    {body body' : Body} (hbody : body.MayAppend undivided deferred modifiers body')
    (filter : Option Pattern) (number number' : Nat) :
    Correspond (fun linked linked' ↦ Rule.StandsLike lang linked.1 linked'.1)
      ((Child.mk body modifiers).link c filter number)
      ((Child.mk body' modifiers).link c' filter number') := by
  rcases hbody with rfl | ⟨alone, happends⟩
  · refine (Child.link_resembles h filter number number' _).mono fun _ _ halike ↦ ?_
    exact halike.standsLike
  · refine (Child.link_appends h hlang hspells filter number number' (.within happends)).mono ?_
    exact fun _ _ hyields ↦ hyields.standsLike

end Places

/-- A list of expressions is only replaced by itself, or by itself with an expression that never
matches behind it. -/
theorem Body.MayAppend.of_expressions {modifiers : Modifiers} {items : List Item} {body : Body}
    (h : (Body.expressions items).MayAppend undivided deferred modifiers body) :
    body = .expressions items ∨ body = .expressions (items ++ [.expression .never]) := by
  rcases h with rfl | ⟨_, happends⟩
  · exact .inl rfl
  · cases happends with
    | beside _ | alone _ _ => exact .inr rfl

/-- A rule with an expression that never matches behind a list keeps its name. -/
theorem RuleDeclaration.Appends.name_eq {r r' : RuleDeclaration}
    (h : r.Appends undivided deferred r') : r'.name = r.name := by
  obtain ⟨body, -, rfl⟩ := h
  rfl

/-- A rule is deferred if it is with an expression that never matches behind a list. -/
theorem RuleDeclaration.Appends.deferred_eq {r r' : RuleDeclaration}
    (h : r.Appends undivided deferred r') : r'.deferred = r.deferred := by
  obtain ⟨body, -, rfl⟩ := h
  rfl

/-- A rule comes from itself. -/
theorem RuleDeclaration.Appends.refl (r : RuleDeclaration) : r.Appends undivided deferred r :=
  ⟨r.body, .inl rfl, rfl⟩

section References

variable {base : Language} (names : Scope) (hlang : undivided → lang.syllabifier = none)
  (hdeferred : List.Forall₂ (RuleDeclaration.Appends undivided deferred) deferred deferred')

section Steps

variable {steps steps' : Nat}
  (h : (References.within base names deferred steps).Resembles lang
    (References.within base names deferred' steps'))
  (hspells : undivided → (References.within base names deferred steps).Spells lang deferred
    (References.within base names deferred' steps'))

include h in
/-- Places from which references are followed alike resemble each other. -/
theorem RuleScope.within_resembles (rule rule' : String) (trail trail' : List String) :
    RuleScope.Resembles lang (.within base names deferred steps rule trail)
      (.within base names deferred' steps' rule' trail') := ⟨rfl, .refl names, h⟩

include hlang hdeferred h hspells in
/-- References are linked alike one step further. -/
theorem References.Resembles.succ :
    (References.within base names deferred (steps + 1)).Resembles lang
      (References.within base names deferred' (steps' + 1)) := by
  constructor
  · intro trail trail' filter name
    refine (findDeferred_corresponds (·.name_eq) hdeferred trail trail' name).bind ?_
    rintro r _ ⟨body, hbody, rfl⟩
    rw [RuleDeclaration.linkBody_eq, RuleDeclaration.linkBody_eq]
    exact (Child.link_mayAppend (RuleScope.within_resembles names h _ _ _ _) hlang hspells hbody
      filter 0 0).map fun _ _ hrule ↦ hrule
  · intro trail trail' rule rule' number number' name
    refine (findDeferred_corresponds (·.name_eq) hdeferred trail trail' name).bind ?_
    rintro r _ ⟨body, hbody, rfl⟩
    have hplaces := RuleScope.within_resembles names h rule rule' (r.name :: trail)
      (r.name :: trail')
    cases hr : r.body with
    | block children operators =>
      -- a block can not be inlined among other expressions, on either side
      exact .error
    | expressions items =>
      rw [hr] at hbody
      rcases hbody.of_expressions with rfl | rfl
      · exact hplaces.expressions number number' items
      · exact hplaces.expressions_append_never number number' items

include hlang hdeferred h hspells in
/-- Bare references are linked to rules that write what their expressions write, one step
further. -/
theorem References.Spells.succ (hundivided : undivided) :
    (References.within base names deferred (steps + 1)).Spells lang deferred
      (References.within base names deferred' (steps' + 1)) := by
  intro mode name hbare trail trail' filter rule' number' rule linked hrule hlinked
  obtain ⟨r, hr, hrule⟩ := exists_of_bind_eq_ok hrule
  obtain ⟨_, hr', hlinked⟩ := exists_of_bind_eq_ok hlinked
  obtain ⟨body, hbody, rfl⟩ :=
    findDeferred_corresponds (·.name_eq) hdeferred trail trail' name _ _ hr hr'
  have hplaces := RuleScope.within_resembles names h r.name rule' (r.name :: trail)
    (r.name :: trail')
  -- in the place of the reference stand the expressions of the rule and perhaps an idle one
  have hplace {items : List Item} (hitems : r.body = .expressions items) :
      ∃ own, (RuleScope.within base names deferred' steps' rule' (r.name :: trail')).expressions
        number' items = .ok own ∧
          Diachrony.Expression.active linked.1 = Diachrony.Expression.active own.1 := by
    rw [hitems] at hbody
    rcases hbody.of_expressions with rfl | rfl
    · exact ⟨linked, hlinked, rfl⟩
    · exact RuleScope.exists_of_expressions_append_never hlinked
  rw [RuleDeclaration.linkBody_eq] at hrule
  obtain ⟨own, hown, rfl⟩ := map_eq_ok_iff.mp hrule
  cases hbare with
  | @list _ d items hfind hfilter honce hitems halone hmode =>
    cases hfind.symm.trans (find?_of_findDeferred hr)
    rw [Child.link_of_bare hfilter honce, hitems, Body.link_expressions halone, hmode] at hown
    obtain ⟨list, hlist, rfl⟩ := map_eq_ok_iff.mp hown
    obtain ⟨inlined, hinlined, hactive⟩ := hplace hitems
    have hsame := hplaces.expressions 0 number' items list inlined hlist hinlined
    exact Rule.WritesLike.of_active_eq (fun _ ↦ .refl _) (hsame.trans hactive.symm)
  | @reference _ other d hfind hfilter honce hreference hother =>
    cases hfind.symm.trans (find?_of_findDeferred hr)
    rw [Child.link_of_bare hfilter honce, hreference] at hown
    obtain ⟨inner, hinner, hown⟩ := exists_of_bind_eq_ok hown
    cases hown
    obtain ⟨inlined, hinlined, hactive⟩ := hplace hreference
    obtain ⟨spelled, hspelled, heq⟩ := RuleScope.exists_of_expressions_reference hinlined
    rw [heq] at hactive
    have hwrites := hspells hundivided hother _ _ filter _ _ inner spelled hinner hspelled
    exact ((hwrites.of_active_eq hactive.symm).surely_named (hlang hundivided) other).writesLike

end Steps

include hlang hdeferred in
/-- References are linked alike, however far they are followed on both sides. -/
theorem References.within_appends (steps steps' : Nat) :
    (References.within base names deferred steps).Resembles lang
        (References.within base names deferred' steps') ∧
      (undivided → (References.within base names deferred steps).Spells lang deferred
        (References.within base names deferred' steps')) := by
  induction steps generalizing steps' with
  | zero =>
    exact ⟨⟨fun _ _ _ _ ↦ .error, fun _ _ _ _ _ _ _ ↦ .error⟩, fun _ _ _ _ _ _ _ _ _ ↦ .error⟩
  | succ steps ih =>
    cases steps' with
    | zero =>
      exact ⟨⟨fun _ _ _ _ ↦ .error_right, fun _ _ _ _ _ _ _ ↦ .error_right⟩,
        fun _ _ _ _ _ _ _ _ _ ↦ .error_right⟩
    | succ steps' =>
      obtain ⟨hresembles, hspells⟩ := ih steps'
      exact ⟨hresembles.succ names hlang hdeferred hspells,
        .succ names hlang hdeferred hresembles hspells⟩

include hlang hdeferred in
/-- The rules to which a body is linked at the top of a program act alike under every name. -/
theorem Body.link_appended {modifiers : Modifiers} {body body' : Body}
    (hbody : body.MayAppend undivided deferred modifiers body') (rule : String)
    (trail : List String) :
    Correspond (fun linked linked' ↦ Rule.StandsLike lang linked.1 linked'.1)
      ((Child.mk body modifiers).link
        ⟨base, names, .of base names deferred, rule, trail⟩ none 0)
      ((Child.mk body' modifiers).link
        ⟨base, names, .of base names deferred', rule, trail⟩ none 0) := by
  obtain ⟨hresembles, hspells⟩ := @References.within_appends undivided deferred deferred' lang base
    names hlang hdeferred deferred.length deferred'.length
  exact Child.link_mayAppend (RuleScope.within_resembles names hresembles _ _ _ _) hlang hspells
    hbody none 0 0

end References

/-- Rules and romanizers that come from each other by appending expressions that never match are
linked alike, in all languages that divide no words if references alone have been appended to. -/
theorem linkAlike_appends
    (hdeferred : List.Forall₂ (RuleDeclaration.Appends undivided deferred) deferred deferred') :
    LinkAlike (fun lang ↦ undivided → lang.syllabifier = none) deferred deferred'
      (RuleDeclaration.Appends undivided deferred)
      (RomanizerDeclaration.Appends undivided deferred) where
  rule_refl r := .refl r
  romanizer_refl r := ⟨r.body, .inl rfl, rfl⟩
  deferred_eq := fun h ↦ h.deferred_eq
  cleanup_eq := by
    rintro r _ ⟨body, -, rfl⟩
    rfl
  rule := by
    rintro base r _ - ⟨body, hbody, rfl⟩ names
    rw [RuleDeclaration.link_eq, RuleDeclaration.link_eq]
    intro linked linked' hlinked hlinked'
    obtain ⟨own, hown, rfl⟩ := map_eq_ok_iff.mp hlinked
    obtain ⟨own', hown', rfl⟩ := map_eq_ok_iff.mp hlinked'
    exact ⟨rfl, fun lang hlang ↦
      Body.link_appended names hlang hdeferred hbody _ _ own own' hown hown'⟩
  romanizer := by
    rintro base r _ - ⟨body, hbody, rfl⟩ names
    rw [RomanizerDeclaration.link_eq, RomanizerDeclaration.link_eq]
    intro linked linked' hlinked hlinked'
    obtain ⟨own, hown, rfl⟩ := map_eq_ok_iff.mp hlinked
    obtain ⟨own', hown', rfl⟩ := map_eq_ok_iff.mp hlinked'
    exact ⟨rfl, fun lang hlang ↦
      Body.link_appended names hlang hdeferred hbody _ _ own own' hown hown'⟩

end Linking

end Syntax

end Diachrony
