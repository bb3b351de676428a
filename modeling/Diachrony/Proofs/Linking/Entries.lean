import Diachrony.Linking.Program
import Diachrony.Proofs.Ensures

/-!
# Entries of bodies

What a body is checked for and linked to hangs on the entries of its lists and on its filters. An
entry stands under a filter if the body or a child around it has one. So what holds of the linked
expressions of every entry holds of the linked body, and so does what is allowed of faults, through
references to deferred rules too.
-/

namespace Diachrony

/-- Whether the expressions of a rule are as promised, where the expressions of its filtered parts
and those of the others may be promised different things. -/
def Rule.Holds (promised : Bool → Expression → Prop) (rule : Rule) : Prop :=
  ∀ r ∈ rule.simpleRules, ∀ e ∈ r.expressions, promised r.filter.isSome e

/-- Rules that all hold what is promised are made of simple rules that hold it. -/
theorem Rule.forall_simpleRulesOf {promised : Bool → Expression → Prop} {rules : List Rule}
    (h : ∀ rule ∈ rules, rule.Holds promised) :
    ∀ r ∈ Rule.simpleRulesOf rules, ∀ e ∈ r.expressions, promised r.filter.isSome e := by
  induction rules with
  | nil => exact fun _ h ↦ nomatch h
  | cons rule rest ih =>
    rw [List.forall_mem_cons] at h
    rw [Rule.simpleRulesOf]
    exact List.forall_mem_append.mpr ⟨h.1, ih h.2⟩

namespace Syntax

mutual

/-- The entries of a body in order, each with whether it stands under a filter. -/
def Body.entries (filtered : Bool) : Body → List (Bool × Item)
  | .expressions items => items.map (filtered, ·)
  | .block children _ => Child.allEntries filtered children

/-- The entries of the children of a block. -/
def Child.allEntries (filtered : Bool) : List Child → List (Bool × Item)
  | [] => []
  | .mk body modifiers :: rest =>
    body.entries (filtered || modifiers.filter.isSome) ++ Child.allEntries filtered rest

end

mutual

/-- The filters of the children in a body. -/
def Body.filters : Body → List Element
  | .expressions _ => []
  | .block children _ => Child.allFilters children

/-- The filters of the children of a block, and those in them. -/
def Child.allFilters : List Child → List Element
  | [] => []
  | .mk body modifiers :: rest =>
    modifiers.filter.toList ++ body.filters ++ Child.allFilters rest

end

namespace RuleDeclaration

/-- The entries of a rule, each with whether it stands under a filter of the rule. -/
def entries (r : RuleDeclaration) : List (Bool × Item) := r.body.entries r.modifiers.filter.isSome

/-- The filters of a rule. -/
def filters (r : RuleDeclaration) : List Element := r.modifiers.filter.toList ++ r.body.filters

end RuleDeclaration

mutual

/-- A body has the same entries under a filter and under none. -/
theorem Body.exists_mem_entries {filtered flag : Bool} {item : Item} (filtered' : Bool) :
    (body : Body) → (flag, item) ∈ body.entries filtered →
      ∃ flag', (flag', item) ∈ body.entries filtered'
  | .expressions items, h => by
    rw [Body.entries] at h ⊢
    obtain ⟨_, hitem, heq⟩ := List.mem_map.mp h
    cases heq
    exact ⟨_, List.mem_map_of_mem hitem⟩
  | .block children _, h => by
    rw [Body.entries] at h ⊢
    exact Child.exists_mem_allEntries filtered' children h

/-- Children have the same entries under a filter and under none. -/
theorem Child.exists_mem_allEntries {filtered flag : Bool} {item : Item} (filtered' : Bool) :
    (children : List Child) → (flag, item) ∈ Child.allEntries filtered children →
      ∃ flag', (flag', item) ∈ Child.allEntries filtered' children
  | [], h => nomatch h
  | .mk body modifiers :: rest, h => by
    rw [Child.allEntries] at h ⊢
    rcases List.mem_append.mp h with h | h
    · obtain ⟨flag', hflag⟩ := Body.exists_mem_entries (filtered' || modifiers.filter.isSome) body h
      exact ⟨flag', List.mem_append_left _ hflag⟩
    · obtain ⟨flag', hflag⟩ := Child.exists_mem_allEntries filtered' rest h
      exact ⟨flag', List.mem_append_right _ hflag⟩

end

/-- Whether checks accept an entry. -/
def Item.IsChecked (c : RuleCheck) (filtered : Bool) : Item → Prop
  | .expression e => e.check c.inventory c.scope filtered = .ok ()
  | .reference name => name ∈ c.deferred

/-- Entries that are accepted are accepted one by one. -/
theorem RuleCheck.isChecked_of_items {c : RuleCheck} {filtered : Bool} {number n : Nat}
    {items : List Item} (h : c.items filtered number items = .ok n) :
    ∀ item ∈ items, item.IsChecked c filtered := by
  induction items generalizing number with
  | nil => exact List.forall_mem_nil _
  | cons item rest ih =>
    cases item with
    | expression e =>
      rw [items] at h
      obtain ⟨⟨⟩, he, h⟩ := exists_of_bind_eq_ok h
      refine List.forall_mem_cons.mpr ⟨?_, ih h⟩
      cases hcheck : e.check c.inventory c.scope filtered with
      | ok x => exact hcheck
      | error fault =>
        rw [hcheck] at he
        cases he
    | reference name =>
      rw [items] at h
      split at h
      · cases h
      · next hknown =>
        have hmem : name ∈ c.deferred := by simpa using hknown
        exact List.forall_mem_cons.mpr ⟨hmem, ih h⟩

/-- Whether checks accept all entries and filters of a body. -/
def AreChecked (c : RuleCheck) (entries : List (Bool × Item)) (filters : List Element) : Prop :=
  (∀ entry ∈ entries, entry.2.IsChecked c entry.1) ∧
    ∀ filter ∈ filters, c.scope.checkInput c.inventory .input filter = .ok ()

namespace AreChecked

variable {c : RuleCheck} {entries others : List (Bool × Item)} {filters more : List Element}

/-- Entries and filters in two parts. -/
theorem append (h : AreChecked c entries filters) (h' : AreChecked c others more) :
    AreChecked c (entries ++ others) (filters ++ more) :=
  ⟨List.forall_mem_append.mpr ⟨h.1, h'.1⟩, List.forall_mem_append.mpr ⟨h.2, h'.2⟩⟩

/-- A filter in front of others. -/
theorem withFilter (h : AreChecked c entries filters) {filter : Element}
    (hfilter : c.scope.checkInput c.inventory .input filter = .ok ()) :
    AreChecked c entries (filter :: filters) :=
  ⟨h.1, List.forall_mem_cons.mpr ⟨hfilter, h.2⟩⟩

end AreChecked

mutual

/-- A body that is accepted has only entries and filters that are. -/
theorem Body.areChecked_of_check {c : RuleCheck} {modifiers : Modifiers} {filtered : Bool}
    {number n : Nat} : (body : Body) → body.check c modifiers filtered number = .ok n →
      AreChecked c (body.entries filtered) body.filters
  | .expressions items, h => by
    rw [Body.check] at h
    refine ⟨fun entry hentry ↦ ?_, List.forall_mem_nil _⟩
    rw [Body.entries] at hentry
    obtain ⟨item, hitem, rfl⟩ := List.mem_map.mp hentry
    exact RuleCheck.isChecked_of_items h item hitem
  | .block children operators, h => by
    rw [Body.check] at h
    rw [Body.entries, Body.filters]
    cases hmode : modifiers.mode with
    | some mode =>
      rw [hmode] at h
      cases h
    | none =>
      rw [hmode] at h
      obtain ⟨-, -, h⟩ := exists_of_bind_eq_ok h
      exact Child.areChecked_of_checkAll children h

/-- Children that are accepted have only entries and filters that are. -/
theorem Child.areChecked_of_checkAll {c : RuleCheck} {filtered : Bool} {number n : Nat} :
    (children : List Child) → Child.checkAll c filtered number children = .ok n →
      AreChecked c (Child.allEntries filtered children) (Child.allFilters children)
  | [], _ => ⟨List.forall_mem_nil _, List.forall_mem_nil _⟩
  | .mk body modifiers :: rest, h => by
    rw [Child.checkAll] at h
    rw [Child.allEntries, Child.allFilters]
    cases hfilter : modifiers.filter with
    | none =>
      rw [hfilter] at h
      obtain ⟨after, hbody, h⟩ := exists_of_bind_eq_ok h
      exact (Body.areChecked_of_check body hbody).append (Child.areChecked_of_checkAll rest h)
    | some filter =>
      rw [hfilter] at h
      obtain ⟨⟨⟩, hown, h⟩ := exists_of_bind_eq_ok h
      obtain ⟨after, hbody, h⟩ := exists_of_bind_eq_ok h
      exact ((Body.areChecked_of_check body hbody).withFilter hown).append
        (Child.areChecked_of_checkAll rest h)

end

section Linking

variable {promised : Bool → Diachrony.Expression → Prop} {allowed : Fault → Prop} {c : RuleScope}

variable (c promised allowed) in
/-- Whether an entry under a filter or under none is linked to what is promised there. -/
def Item.Links (filtered : Bool) : Item → Prop
  | .expression e => ∀ number, Ensures (promised filtered) allowed
      ((c.names.expression c.language e).mapError (·.inExpression c.rule number e.toText))
  | .reference name =>
    (∀ filter : Option Pattern, filter.isSome = filtered →
      Ensures (·.Holds promised) allowed (c.references.asRule c.trail filter name)) ∧
    ∀ number, Ensures (fun linked ↦ ∀ e ∈ linked.1, promised filtered e) allowed
      (c.references.inlined c.trail c.rule number name)

variable (c promised allowed) in
/-- Whether entries are linked to what is promised and filters are linked at all. -/
def AreLinked (entries : List (Bool × Item)) (filters : List Element) : Prop :=
  (∀ entry ∈ entries, entry.2.Links promised allowed c entry.1) ∧
    ∀ filter ∈ filters,
      Ensures (fun _ ↦ True) allowed (c.names.pattern c.language .input filter)

/-- Entries that are linked to what is promised are linked together. -/
theorem RuleScope.expressions_ensures {filtered : Bool} (number : Nat) {items : List Item}
    (h : ∀ item ∈ items, item.Links promised allowed c filtered) :
    Ensures (fun linked ↦ ∀ e ∈ linked.1, promised filtered e) allowed
      (c.expressions number items) := by
  induction items generalizing number with
  | nil => exact .ok (List.forall_mem_nil _)
  | cons item rest ih =>
    rw [List.forall_mem_cons] at h
    cases item with
    | expression e =>
      rw [expressions]
      refine (h.1 (number + 1)).bind fun linked hlinked ↦ ?_
      refine (ih (number + 1) h.2).bind fun others hothers ↦ .ok ?_
      exact List.forall_mem_cons.mpr ⟨hlinked, hothers⟩
    | reference name =>
      rw [expressions]
      refine (h.1.2 number).bind fun inlined hinlined ↦ ?_
      refine (ih inlined.2 h.2).bind fun others hothers ↦ .ok ?_
      exact List.forall_mem_append.mpr ⟨hinlined, hothers⟩

/-- A filter is in force if one was inherited or the modifiers have one. -/
theorem RuleScope.filter_ensures (inherited : Option Pattern) {modifiers : Modifiers}
    (h : ∀ filter ∈ modifiers.filter,
      Ensures (fun _ ↦ True) allowed (c.names.pattern c.language .input filter)) :
    Ensures (fun own ↦ own.isSome = (inherited.isSome || modifiers.filter.isSome)) allowed
      (c.filter inherited modifiers) := by
  rw [filter]
  cases hfilter : modifiers.filter with
  | none => exact .ok (by simp)
  | some e =>
    refine (h e hfilter).bind fun own _ ↦ ?_
    cases inherited with
    | none => exact .ok rfl
    | some outer => exact .ok rfl

/-- Rules that hold what is promised are combined to a rule that does. -/
theorem BlockKind.holds_combine {rules : List Rule} (h : ∀ rule ∈ rules, rule.Holds promised)
    (kind : BlockKind) : (kind.combine rules).Holds promised := by
  have hrules := Rule.forall_simpleRulesOf h
  cases kind with
  | sequential => exact hrules
  | firstMatching => exact hrules

/-- A repeated rule holds what the rule holds. -/
theorem Modifiers.holds_repeated {rule : Rule} (h : rule.Holds promised) (m : Modifiers) :
    (m.repeated rule).Holds promised := by
  rw [Modifiers.repeated]
  split
  · exact h
  · exact h

mutual

/-- A body whose entries are linked to what is promised is linked to a rule that holds it. -/
theorem Body.link_ensures {modifiers : Modifiers} {filter : Option Pattern} (number : Nat) :
    (body : Body) → AreLinked promised allowed c (body.entries filter.isSome) body.filters →
      Ensures (fun linked ↦ linked.1.Holds promised) allowed (body.link c modifiers filter number)
  | .expressions items, h => by
    rw [Body.entries] at h
    have hitems : ∀ item ∈ items, item.Links promised allowed c filter.isSome :=
      fun item hitem ↦ h.1 _ (List.mem_map_of_mem hitem)
    unfold Body.link
    split
    · next name heq =>
      cases heq
      refine ((List.forall_mem_singleton.mp hitems).1 filter rfl).bind fun rule hrule ↦ .ok hrule
    · next heq =>
      cases heq
      refine (RuleScope.expressions_ensures number hitems).bind fun linked hlinked ↦ .ok ?_
      exact fun r hr ↦ List.mem_singleton.mp hr ▸ hlinked
    · contradiction
  | .block children operators, h => by
    rw [Body.entries, Body.filters] at h
    rw [Body.link]
    refine (Child.linkAll_ensures number children h).bind fun linked hlinked ↦ .ok ?_
    exact BlockKind.holds_combine hlinked _

/-- Children whose entries are linked to what is promised are linked to rules that hold it. -/
theorem Child.linkAll_ensures {filter : Option Pattern} (number : Nat) :
    (children : List Child) →
      AreLinked promised allowed c (Child.allEntries filter.isSome children)
        (Child.allFilters children) →
      Ensures (fun linked ↦ ∀ rule ∈ linked.1, rule.Holds promised) allowed
        (Child.linkAll c filter number children)
  | [], _ => .ok (List.forall_mem_nil _)
  | .mk body modifiers :: rest, h => by
    rw [Child.allEntries, Child.allFilters] at h
    obtain ⟨hentries, hfilters⟩ := h
    obtain ⟨hentries, hrest⟩ := List.forall_mem_append.mp hentries
    obtain ⟨hfilters, hlater⟩ := List.forall_mem_append.mp hfilters
    obtain ⟨hown, hbody⟩ := List.forall_mem_append.mp hfilters
    rw [Child.linkAll]
    refine (RuleScope.filter_ensures filter fun e he ↦ hown e (by simpa using he)).bind
      fun own hsome ↦ ?_
    rw [← hsome] at hentries
    refine (Body.link_ensures number body ⟨hentries, hbody⟩).bind fun linked hlinked ↦ ?_
    refine (Child.linkAll_ensures linked.2 rest ⟨hrest, hlater⟩).bind fun others hothers ↦ .ok ?_
    exact List.forall_mem_cons.mpr ⟨modifiers.holds_repeated hlinked, hothers⟩

end

/-- A rule whose entries are linked to what is promised is linked to a rule that holds it. -/
theorem RuleDeclaration.linkBody_ensures {inherited : Option Pattern} {r : RuleDeclaration}
    (h : AreLinked promised allowed c
      (r.body.entries (inherited.isSome || r.modifiers.filter.isSome)) r.filters) :
    Ensures (fun rule ↦ rule.Holds promised) allowed (r.linkBody c inherited) := by
  obtain ⟨hentries, hfilters⟩ := h
  obtain ⟨hown, hbody⟩ := List.forall_mem_append.mp hfilters
  rw [RuleDeclaration.linkBody]
  refine (RuleScope.filter_ensures inherited fun e he ↦ hown e (by simpa using he)).bind
    fun filter hsome ↦ ?_
  rw [← hsome] at hentries
  refine (Body.link_ensures 0 r.body ⟨hentries, hbody⟩).bind fun linked hlinked ↦ .ok ?_
  exact r.modifiers.holds_repeated hlinked

end Linking

/-- A deferred rule that is found is the deferred rule of that name. -/
theorem find?_of_findDeferred {deferred : List RuleDeclaration} {trail : List String}
    {name : String} {r : RuleDeclaration} (h : findDeferred deferred trail name = .ok r) :
    deferred.find? (·.name == name) = some r := by
  rw [findDeferred] at h
  split at h
  · cases h
  · split at h
    · next found hfound =>
      cases h
      exact hfound
    · cases h

section References

variable (lang : Language) (names : Scope) (deferred : List RuleDeclaration)
  (promised : Bool → Diachrony.Expression → Prop) (allowed : Fault → Prop)
  (known : RuleDeclaration → Prop)

/-- Whether a name finds a deferred rule that is known. -/
def Finds (name : String) : Prop :=
  ∀ trail, Ensures known allowed (findDeferred deferred trail name)

/-- What is known of deferred rules in a scope in which they are linked. Wherever a deferred rule is
referred to, what is promised of its expressions may be needed under a filter and under none. -/
structure KnowsDeferred : Prop where
  /-- The expressions of a rule that is known are linked to what is promised. -/
  expression : ∀ r, known r → ∀ flag e, (flag, Item.expression e) ∈ r.entries →
    ∀ filtered rule number, Ensures (promised filtered) allowed
      ((names.expression lang e).mapError (·.inExpression rule number e.toText))
  /-- The references of a rule that is known find rules that are known. -/
  reference : ∀ r, known r → ∀ flag name, (flag, Item.reference name) ∈ r.entries →
    Finds deferred allowed known name
  /-- The filters of a rule that is known are linked. -/
  filter : ∀ r, known r → ∀ filter ∈ r.filters,
    Ensures (fun _ ↦ True) allowed (names.pattern lang .input filter)
  /-- A reference may have no use where it stands. -/
  illegal : ∀ construct name, allowed (illegalReference construct name)

variable {lang names deferred promised allowed known}
  (h : KnowsDeferred lang names deferred promised allowed known)
include h

/-- The entries of a deferred rule that is known are linked to what is promised, wherever its
references are. -/
theorem KnowsDeferred.areLinked {references : References} {rule : String} {trail : List String}
    {r : RuleDeclaration} (hr : known r)
    (hreferences : ∀ filtered name, Finds deferred allowed known name →
      (Item.reference name).Links promised allowed ⟨lang, names, references, rule, trail⟩ filtered)
    (filtered : Bool) :
    AreLinked promised allowed ⟨lang, names, references, rule, trail⟩ (r.body.entries filtered)
      r.filters := by
  refine ⟨fun ⟨flag, item⟩ hentry ↦ ?_, h.filter r hr⟩
  obtain ⟨flag', hflag⟩ := r.body.exists_mem_entries r.modifiers.filter.isSome hentry
  cases item with
  | expression e => exact fun number ↦ h.expression r hr flag' e hflag flag rule number
  | reference name => exact hreferences flag name (h.reference r hr flag' name hflag)

/-- References that find deferred rules that are known are linked to what is promised, however far
they are followed. -/
theorem KnowsDeferred.links_reference (steps : Nat) (rule : String) (trail : List String)
    (filtered : Bool) {name : String} (hname : Finds deferred allowed known name) :
    (Item.reference name).Links promised allowed
      ⟨lang, names, .within lang names deferred steps, rule, trail⟩ filtered := by
  induction steps generalizing rule trail filtered name with
  | zero =>
    refine ⟨fun _ _ ↦ .error ?_, fun _ ↦ .error ?_⟩
    all_goals
      dsimp only
      split
      · next fault hfound => exact (hname trail).of_error hfound
      · exact h.illegal _ _
  | succ steps ih =>
    constructor
    · intro filter _
      refine (hname trail).bind fun r hr ↦ RuleDeclaration.linkBody_ensures ?_
      exact h.areLinked hr (fun filtered _ hfinds ↦ ih r.name _ filtered hfinds) _
    · intro number
      refine (hname trail).bind fun r hr ↦ ?_
      have hlinked := h.areLinked hr
        (fun filtered _ hfinds ↦ ih rule (r.name :: trail) filtered hfinds) filtered
      cases hbody : r.body with
      | block children operators => exact .error (h.illegal _ _)
      | expressions items =>
        rw [hbody, Body.entries] at hlinked
        exact RuleScope.expressions_ensures number fun item hitem ↦
          hlinked.1 _ (List.mem_map_of_mem hitem)

/-- Entries are linked to what is promised if their expressions are and if their references find
deferred rules that are known. -/
theorem KnowsDeferred.areLinked_of {rule : String} {trail : List String}
    {entries : List (Bool × Item)} {filters : List Element}
    (hexpression : ∀ flag e, (flag, Item.expression e) ∈ entries → ∀ number,
      Ensures (promised flag) allowed
        ((names.expression lang e).mapError (·.inExpression rule number e.toText)))
    (hreference : ∀ flag name, (flag, Item.reference name) ∈ entries →
      Finds deferred allowed known name)
    (hfilter : ∀ filter ∈ filters,
      Ensures (fun _ ↦ True) allowed (names.pattern lang .input filter)) :
    AreLinked promised allowed ⟨lang, names, .of lang names deferred, rule, trail⟩ entries
      filters := by
  refine ⟨fun ⟨flag, item⟩ hentry ↦ ?_, hfilter⟩
  cases item with
  | expression e => exact hexpression flag e hentry
  | reference name => exact h.links_reference _ rule trail flag (hreference flag name hentry)

end References

section Declarations

variable {lang : Language} {names : Scope} {deferred : List RuleDeclaration}
  {promised : Bool → Diachrony.Expression → Prop} {allowed : Fault → Prop}

/-- A rule is linked to what is promised if its entries are. -/
theorem RuleDeclaration.link_ensures {r : RuleDeclaration}
    (h : AreLinked promised allowed ⟨lang, names, .of lang names deferred, r.name, [r.name]⟩
      r.entries r.filters) :
    Ensures (fun linked ↦ linked.rule.Holds promised) allowed (r.link lang names deferred) := by
  rw [RuleDeclaration.link]
  exact (RuleDeclaration.linkBody_ensures h).bind fun rule hrule ↦ .ok hrule

/-- A romanizer is linked to what is promised if its entries are. -/
theorem RomanizerDeclaration.link_ensures {r : RomanizerDeclaration}
    (h : AreLinked promised allowed ⟨lang, names, .of lang names deferred, r.name, []⟩
      (r.body.entries false) r.body.filters) :
    Ensures (fun linked ↦ linked.rule.Holds promised) allowed (r.link lang names deferred) := by
  rw [RomanizerDeclaration.link]
  exact (Body.link_ensures 0 r.body h).bind fun linked hrule ↦ .ok hrule

end Declarations

end Syntax

end Diachrony
