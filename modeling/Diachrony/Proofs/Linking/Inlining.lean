import Diachrony.Proofs.Linking.Entries
import Diachrony.Proofs.Linking.Places

/-!
# Deferred rules in the place of references

A child of a block that is nothing but a reference stands for a rule under a name, which always
counts as firing. If the deferred rule takes its place, the block makes the same of every phrase as
long as nothing hangs on that: rules in turn do not look at it, but in a choice the rules behind the
reference are never tried, and so they have to be left out.

Everything else is linked alike: other bodies, and references to rules in which a reference has been
replaced.
-/

namespace Diachrony.Syntax

section Inlining

variable (deferred : List RuleDeclaration)

mutual

/-- Whether a block comes from another by putting a deferred rule in the place of a reference. -/
inductive Body.Inlines : Body → Body → Prop
  /-- In one of some children in turn. -/
  | inTurn {before after : List Child} {child child' : Child} {operators : List BlockKind}
      (hkind : operators.head? ≠ some .firstMatching) (h : Child.Inlines child child') :
      Body.Inlines (.block (before ++ child :: after) operators)
        (.block (before ++ child' :: after) operators)
  /-- In one of some children of a choice; the children behind it are left out. -/
  | inChoice {before after : List Child} {child child' : Child} {operators : List BlockKind}
      (hkind : operators.head? = some .firstMatching) (h : Child.Inlines child child') :
      Body.Inlines (.block (before ++ child :: after) operators)
        (.block (before ++ [child']) operators)

/-- Whether a child comes from another by putting a deferred rule in the place of a reference. -/
inductive Child.Inlines : Child → Child → Prop
  /-- The child is the reference. -/
  | reference {name : String} {d : RuleDeclaration}
      (h : deferred.find? (·.name == name) = some d) :
      Child.Inlines (.mk (.expressions [.reference name]) {}) (.mk d.body d.modifiers)
  /-- The reference is a child of the child. -/
  | within {body body' : Body} {modifiers : Modifiers} (h : Body.Inlines body body') :
      Child.Inlines (.mk body modifiers) (.mk body' modifiers)

end

/-- Whether a body is another one, or comes from it by inlining a reference. -/
def Body.MayInline (body body' : Body) : Prop := body' = body ∨ body.Inlines deferred body'

/-- Whether a rule comes from another by inlining at most one reference. -/
def RuleDeclaration.Inlines (r r' : RuleDeclaration) : Prop :=
  ∃ body, r.body.MayInline deferred body ∧ r' = { r with body }

/-- Whether a romanizer comes from another by inlining at most one reference. -/
def RomanizerDeclaration.Inlines (r r' : RomanizerDeclaration) : Prop :=
  ∃ body, r.body.MayInline deferred body ∧ r' = { r with body }

end Inlining

variable {deferred deferred' : List RuleDeclaration}

/-- A rule comes from itself. -/
theorem RuleDeclaration.Inlines.refl (r : RuleDeclaration) : r.Inlines deferred r :=
  ⟨r.body, .inl rfl, rfl⟩

/-- Rules come from themselves. -/
theorem RuleDeclaration.Inlines.forall₂_refl (rules : List RuleDeclaration) :
    List.Forall₂ (RuleDeclaration.Inlines deferred) rules rules :=
  List.forall₂_same.mpr fun r _ ↦ .refl r

/-- A romanizer comes from itself. -/
theorem RomanizerDeclaration.Inlines.refl (r : RomanizerDeclaration) : r.Inlines deferred r :=
  ⟨r.body, .inl rfl, rfl⟩

/-- References are only inlined in blocks. -/
theorem Body.Inlines.exists_eq_block {body body' : Body} (h : body.Inlines deferred body') :
    ∃ children operators, body = .block children operators := by
  cases h with
  | inTurn _ _ | inChoice _ _ => exact ⟨_, _, rfl⟩

/-- Linked children are linked in two parts and the child between them. -/
theorem Child.exists_of_linkAll_append_cons {c : RuleScope} {filter : Option Pattern}
    {number : Nat} {before after : List Child} {child : Child} {linked : List Rule × Nat}
    (h : Child.linkAll c filter number (before ++ child :: after) = .ok linked) :
    ∃ rules rule others n, Child.linkAll c filter number before = .ok (rules, n) ∧
      (∃ m k, child.link c filter n = .ok (rule, m) ∧
        Child.linkAll c filter m after = .ok (others, k)) ∧
      linked.1 = rules ++ rule :: others := by
  induction before generalizing number linked with
  | nil =>
    rw [List.nil_append, linkAll_cons] at h
    obtain ⟨⟨rule, m⟩, hrule, h⟩ := exists_of_bind_eq_ok h
    obtain ⟨⟨others, k⟩, hothers, h⟩ := exists_of_bind_eq_ok h
    cases h
    exact ⟨[], rule, others, number, rfl, ⟨m, k, hrule, hothers⟩, rfl⟩
  | cons first rest ih =>
    rw [List.cons_append, linkAll_cons] at h
    obtain ⟨⟨own, m⟩, hown, h⟩ := exists_of_bind_eq_ok h
    obtain ⟨⟨later, k⟩, hlater, h⟩ := exists_of_bind_eq_ok h
    obtain ⟨rules, rule, others, n, hrules, hchild, hlist⟩ := ih hlater
    cases h
    refine ⟨own :: rules, rule, others, n, ?_, hchild, congrArg (own :: ·) hlist⟩
    rw [linkAll_cons, hown]
    show (Child.linkAll c filter m rest >>= _) = _
    rw [hrules]
    rfl

/-- If one child is replaced, and those behind it are, the children in front of it are linked to
rules that act alike. -/
theorem Child.linkAll_apart {lang : Language} {c c' : RuleScope} (h : c.Resembles lang c')
    (replaces : Rule → Rule → Prop) (follow : List Rule → List Rule → Prop) {child child' : Child}
    {after after' : List Child} {filter : Option Pattern}
    (hchild : ∀ n n', Correspond (fun linked linked' ↦ replaces linked.1 linked'.1)
      (child.link c filter n) (child'.link c' filter n'))
    (hafter : ∀ n n', Correspond (fun linked linked' ↦ follow linked.1 linked'.1)
      (Child.linkAll c filter n after) (Child.linkAll c' filter n' after'))
    (before : List Child) (number number' : Nat) :
    Correspond
      (fun linked linked' ↦ ∃ front front' r s back back', linked.1 = front ++ r :: back ∧
        linked'.1 = front' ++ s :: back' ∧ List.Forall₂ (Rule.ActsLike lang) front front' ∧
        replaces r s ∧ follow back back')
      (Child.linkAll c filter number (before ++ child :: after))
      (Child.linkAll c' filter number' (before ++ child' :: after')) := by
  intro linked linked' hlinked hlinked'
  obtain ⟨front, r, back, i, hfront, ⟨j, k, hown, hback⟩, heq⟩ :=
    Child.exists_of_linkAll_append_cons hlinked
  obtain ⟨front', s, back', i', hfront', ⟨j', k', hown', hback'⟩, heq'⟩ :=
    Child.exists_of_linkAll_append_cons hlinked'
  refine ⟨front, front', r, s, back, back', heq, heq', ?_, ?_, ?_⟩
  · exact Child.linkAll_resembles h filter _ _ before _ _ hfront hfront'
  · exact hchild i i' _ _ hown hown'
  · exact hafter j j' _ _ hback hback'

/-- A child that is a reference without modifiers is the deferred rule under its name. -/
theorem Child.link_reference (c : RuleScope) (filter : Option Pattern) (number : Nat)
    (name : String) :
    (Child.mk (.expressions [.reference name]) {}).link c filter number =
      (fun rule ↦ (.named name rule, number + 1)) <$> c.references.asRule c.trail filter name := by
  show (Body.link c {} filter number (.expressions [.reference name]) >>= _) = _
  rw [Body.link]
  cases c.references.asRule c.trail filter name with
  | error fault => rfl
  | ok rule => rfl

/-- A repeated rule always fires if the rule does. -/
theorem Modifiers.repeated_surelyActsLike {lang : Language} {r s : Rule}
    (h : Rule.SurelyActsLike lang r s) (m : Modifiers) :
    Rule.SurelyActsLike lang (m.repeated r) (m.repeated s) := by
  rw [Modifiers.repeated, Modifiers.repeated]
  split
  · exact h.propagate
  · exact h

/-- Whether a deferred rule is linked to the same in the place of a reference as by itself. -/
def RuleScope.Unfolds (deferred : List RuleDeclaration) (c c' : RuleScope) : Prop :=
  ∀ name d, deferred.find? (·.name == name) = some d → ∀ filter number,
    Correspond (fun rule linked ↦ Rule.WritesLike c.language rule linked.1)
      (c.references.asRule c.trail filter name)
      ((Child.mk d.body d.modifiers).link c' filter number)

mutual

/-- A block with a reference always fires, and makes what the block makes in which the deferred
rule has taken its place. -/
theorem Body.link_inlines {c c' : RuleScope} (h : c.Corresponds c')
    (hunfolds : c.Unfolds deferred c') {body body' : Body} (modifiers : Modifiers)
    (filter : Option Pattern) (number number' : Nat) :
    body.Inlines deferred body' →
      Correspond (fun linked linked' ↦ Rule.SurelyActsLike c.language linked.1 linked'.1)
        (body.link c modifiers filter number) (body'.link c' modifiers filter number')
  | @Body.Inlines.inTurn _ before after child child' operators hkind hchild => by
    rw [Body.link, Body.link, BlockKind.getD_head?_of_ne hkind]
    refine (Child.linkAll_apart h.resembles (Rule.SurelyActsLike c.language)
      (List.Forall₂ (Rule.ActsLike c.language))
      (fun n n' ↦ Child.link_inlines h hunfolds filter n n' hchild)
      (fun n n' ↦ Child.linkAll_corresponds h filter n n' after) before number number').bind ?_
    rintro ⟨_, _⟩ ⟨_, _⟩ ⟨front, front', r, s, back, back', rfl, rfl, hfront, hown, hback⟩
    exact .ok (.sequential hfront hown hback)
  | @Body.Inlines.inChoice _ before after child child' operators hkind hchild => by
    rw [Body.link, Body.link, hkind]
    refine (Child.linkAll_apart h.resembles (Rule.SurelyActsLike c.language)
      (fun _ rest ↦ rest = []) (fun n n' ↦ Child.link_inlines h hunfolds filter n n' hchild) ?_
      before number number').bind ?_
    · rintro n n' _ _ - ⟨⟩
      rfl
    rintro ⟨_, _⟩ ⟨_, _⟩ ⟨front, front', r, s, back, _, rfl, rfl, hfront, hown, rfl⟩
    exact .ok (Rule.SurelyActsLike.withinWord (.firstMatching hfront hown back))

/-- A child with a reference always fires, and makes what the child makes in which the deferred
rule has taken its place. -/
theorem Child.link_inlines {c c' : RuleScope} (h : c.Corresponds c')
    (hunfolds : c.Unfolds deferred c') {child child' : Child} (filter : Option Pattern)
    (number number' : Nat) : child.Inlines deferred child' →
      Correspond (fun linked linked' ↦ Rule.SurelyActsLike c.language linked.1 linked'.1)
        (child.link c filter number) (child'.link c' filter number')
  | @Child.Inlines.reference _ name d hfind => by
    rw [Child.link_reference]
    intro linked linked' hlinked hlinked'
    cases hrule : c.references.asRule c.trail filter name with
    | error fault =>
      rw [hrule] at hlinked
      cases hlinked
    | ok rule =>
      rw [hrule] at hlinked
      cases hlinked
      exact (hunfolds name d hfind filter number' _ _ hrule hlinked').surely_named h.undivided name
  | @Child.Inlines.within _ body body' modifiers hinlines => by
    refine (h.filter filter modifiers).bind ?_
    rintro own _ rfl
    refine (Body.link_inlines h hunfolds modifiers own number number' hinlines).bind
      fun linked linked' hlinked ↦ .ok ?_
    exact modifiers.repeated_surelyActsLike hlinked

end

/-- A child of which at most one reference has been inlined makes what the child makes. -/
theorem Child.link_mayInline {c c' : RuleScope} (h : c.Corresponds c')
    (hunfolds : c.Unfolds deferred c') {body body' : Body} (hbody : body.MayInline deferred body')
    (modifiers : Modifiers) (filter : Option Pattern) (number number' : Nat) :
    Correspond (fun linked linked' ↦ Rule.WritesLike c.language linked.1 linked'.1)
      ((Child.mk body modifiers).link c filter number)
      ((Child.mk body' modifiers).link c' filter number') := by
  rcases hbody with rfl | hinlines
  · exact (Child.link_corresponds h filter number number' _).mono fun _ _ h ↦ h.writesLike
  · exact (Child.link_inlines h hunfolds filter number number' (.within hinlines)).mono
      fun _ _ h ↦ h.writesLike

/-- The deferred rules of one name that are found in two lists are related if the lists are, rule by
rule and each to one of its name. -/
theorem findDeferred_corresponds {related : RuleDeclaration → RuleDeclaration → Prop}
    (hname : ∀ {r r'}, related r r' → r'.name = r.name)
    (h : List.Forall₂ related deferred deferred') (trail trail' : List String) (name : String) :
    Correspond related (findDeferred deferred trail name) (findDeferred deferred' trail' name) := by
  suffices hfind : ∀ r r', deferred.find? (·.name == name) = some r →
      deferred'.find? (·.name == name) = some r' → related r r' from
    fun r r' hr hr' ↦ hfind r r' (find?_of_findDeferred hr) (find?_of_findDeferred hr')
  intro r r' hr hr'
  induction h with
  | nil => cases hr
  | @cons first first' rest rest' hfirst _ ih =>
    rw [List.find?_cons] at hr hr'
    rw [hname hfirst] at hr'
    cases hfound : first.name == name with
    | true =>
      rw [hfound] at hr hr'
      cases hr
      cases hr'
      exact hfirst
    | false =>
      rw [hfound] at hr hr'
      exact ih hr hr'

/-- A rule of which a reference has been inlined keeps its name. -/
theorem RuleDeclaration.Inlines.name_eq {known : List RuleDeclaration} {r r' : RuleDeclaration}
    (h : r.Inlines known r') : r'.name = r.name := by
  obtain ⟨body, -, rfl⟩ := h
  rfl

section References

variable {lang : Language} (hlang : lang.syllabifier = none) {names names' : Scope}
  (hnames : names.GrowsTo names')
  (hdeferred : List.Forall₂ (RuleDeclaration.Inlines deferred) deferred deferred')

/-- A place from which references are followed a number of steps. -/
def RuleScope.within (lang : Language) (names : Scope) (deferred : List RuleDeclaration)
    (steps : Nat) (rule : String) (trail : List String) : RuleScope :=
  ⟨lang, names, .within lang names deferred steps, rule, trail⟩

section Steps

variable {steps steps' : Nat} (h : (References.within lang names deferred steps).Corresponds lang
  (References.within lang names' deferred' steps'))

include hlang hnames hdeferred h in
/-- References are linked alike one step further. -/
theorem References.Corresponds.succ
    (hunfolds : ∀ rule rule' trail trail', RuleScope.Unfolds deferred
      (.within lang names deferred steps rule trail)
      (.within lang names' deferred' steps' rule' trail')) :
    (References.within lang names deferred (steps + 1)).Corresponds lang
      (References.within lang names' deferred' (steps' + 1)) := by
  have hplaces (rule rule' : String) (trail trail' : List String) : RuleScope.Corresponds
      (.within lang names deferred steps rule trail)
      (.within lang names' deferred' steps' rule' trail') := ⟨rfl, hlang, hnames, h⟩
  constructor
  · intro trail trail' filter name
    refine (findDeferred_corresponds (·.name_eq) hdeferred trail trail' name).bind ?_
    rintro r _ ⟨body, hbody, rfl⟩
    rw [RuleDeclaration.linkBody_eq, RuleDeclaration.linkBody_eq]
    exact (Child.link_mayInline (hplaces _ _ _ _) (hunfolds _ _ _ _) hbody _ _ 0 0).map
      fun _ _ h ↦ h
  · intro trail trail' rule rule' number number' name
    refine (findDeferred_corresponds (·.name_eq) hdeferred trail trail' name).bind ?_
    rintro r _ ⟨body, hbody, rfl⟩
    rcases hbody with rfl | hinlines
    · dsimp only
      split
      · exact (hplaces _ _ _ _).expressions number number' _
      · exact .error
    · -- a block can not be inlined among other expressions, on either side
      obtain ⟨children, operators, hblock⟩ := hinlines.exists_eq_block
      rw [hblock]
      exact .error

include hlang hnames h in
/-- A reference followed one step further is the deferred rule in its place. -/
theorem References.Corresponds.unfolds (rule rule' : String) (trail trail' : List String) :
    RuleScope.Unfolds deferred (.within lang names deferred (steps + 1) rule trail)
      (.within lang names' deferred' steps' rule' trail') := by
  intro name d hd filter number
  show Correspond _ (findDeferred deferred trail name >>= _) _
  intro linked linked' hlinked hlinked'
  obtain ⟨r, hr, hlinked⟩ := exists_of_bind_eq_ok hlinked
  cases hd.symm.trans (find?_of_findDeferred hr)
  have hplaces : RuleScope.Corresponds (.within lang names deferred steps d.name (d.name :: trail))
      (.within lang names' deferred' steps' rule' trail') := ⟨rfl, hlang, hnames, h⟩
  rw [RuleDeclaration.linkBody_eq] at hlinked
  obtain ⟨own, hown, rfl⟩ := map_eq_ok_iff.mp hlinked
  have hchild := Child.link_corresponds hplaces filter 0 number (.mk d.body d.modifiers)
  exact (hchild own linked' hown hlinked').writesLike

end Steps

include hlang hnames hdeferred

/-- References are linked alike if the deferred rules come from each other, however far they are
followed on both sides. -/
theorem References.within_inlines (steps steps' : Nat) :
    (References.within lang names deferred steps).Corresponds lang
        (References.within lang names' deferred' steps') ∧
      ∀ rule rule' trail trail', RuleScope.Unfolds deferred
        (.within lang names deferred steps rule trail)
        (.within lang names' deferred' steps' rule' trail') := by
  induction steps generalizing steps' with
  | zero =>
    refine ⟨⟨fun _ _ _ _ ↦ .error, fun _ _ _ _ _ _ _ ↦ .error⟩, fun _ _ _ _ _ _ _ _ _ ↦ .error⟩
  | succ steps ih =>
    refine ⟨?_, (ih steps').1.unfolds hlang hnames⟩
    cases steps' with
    | zero => exact ⟨fun _ _ _ _ ↦ .error_right, fun _ _ _ _ _ _ _ ↦ .error_right⟩
    | succ steps' => exact (ih steps').1.succ hlang hnames hdeferred (ih steps').2

/-- A body with its modifiers comes to the same at a later place of a program in which references
are inlined. -/
theorem Body.link_inlined {body body' : Body} (hbody : body.MayInline deferred body')
    (modifiers : Modifiers) (rule rule' : String) (trail trail' : List String)
    (number number' : Nat) :
    Correspond (fun linked linked' ↦ Rule.WritesLike lang linked.1 linked'.1)
      ((Child.mk body modifiers).link
        ⟨lang, names, .of lang names deferred, rule, trail⟩ none number)
      ((Child.mk body' modifiers).link
        ⟨lang, names', .of lang names' deferred', rule', trail'⟩ none number') := by
  obtain ⟨hreferences, hunfolds⟩ := References.within_inlines hlang hnames hdeferred
    deferred.length deferred'.length
  refine Child.link_mayInline ?_ ?_ hbody modifiers none number number'
  · exact ⟨rfl, hlang, hnames, hreferences⟩
  · exact hunfolds rule rule' trail trail'

/-- A rule comes to the same at a later place of a program in which references are inlined, under
whatever name. -/
theorem RuleDeclaration.link_inlined {r r' : RuleDeclaration}
    (hmodifiers : r'.modifiers = r.modifiers) (hbody : r.body.MayInline deferred r'.body) :
    Correspond (fun linked linked' ↦ Rule.WritesLike lang linked.rule linked'.rule)
      (r.link lang names deferred) (r'.link lang names' deferred') := by
  rw [link_eq, link_eq, hmodifiers]
  exact (Body.link_inlined hlang hnames hdeferred hbody r.modifiers _ _ _ _ 0 0).map fun _ _ h ↦ h

/-- A romanizer comes to the same at a later place of a program in which references are inlined. -/
theorem RomanizerDeclaration.Inlines.link {r r' : RomanizerDeclaration}
    (h : r.Inlines deferred r') :
    Correspond (fun linked linked' ↦ Rule.WritesLike lang linked.rule linked'.rule)
      (r.link lang names deferred) (r'.link lang names' deferred') := by
  obtain ⟨body, hbody, rfl⟩ := h
  rw [link_eq, link_eq]
  exact (Body.link_inlined hlang hnames hdeferred hbody {} _ _ _ _ 0 0).map fun _ _ h ↦ h

end References

end Diachrony.Syntax
