import Mathlib.Logic.Relation
import Diachrony.Proofs.Linking.Inlining
import Diachrony.Proofs.Linking.Names
import Diachrony.Proofs.Linking.Unrolling

/-!
# Parts of programs

A rule is linked part by part, and a part that is a reference to a deferred rule goes on with the
parts of that rule. The deferred rules on the way to a part are on its trail, and none of them is on
it twice. A reference to a rule on the trail is a fault, and the fault of a part is the fault of
everything that it is a part of.
-/

namespace Diachrony

/-- A changed result is a fault if there was no result. -/
theorem map_eq_error_iff {α β : Type} {x : Except Fault α} {f : α → β} {fault : Fault} :
    f <$> x = .error fault ↔ x = .error fault := by
  cases x with
  | ok a => exact ⟨fun h ↦ (nomatch h), fun h ↦ (nomatch h)⟩
  | error e => exact ⟨fun h ↦ congrArg Except.error (Except.error.inj h), fun h ↦ h ▸ rfl⟩

namespace Syntax

/-! ### Parts -/

/-- A part of a program, as it is linked on the way through a rule. -/
inductive Part where
  /-- A child of a block, or the body of a rule with its modifiers. -/
  | child (c : RuleScope) (filter : Option Pattern) (number : Nat) (child : Child)
  /-- The entries of a list. -/
  | entries (c : RuleScope) (number : Nat) (items : List Item)
  /-- A reference that is all of a body. -/
  | alone (c : RuleScope) (filter : Option Pattern) (name : String)
  /-- A reference among other entries. -/
  | among (c : RuleScope) (number : Nat) (name : String)

namespace Part

/-- What is known where a part is linked. -/
def scope : Part → RuleScope
  | child c _ _ _ | entries c _ _ | alone c _ _ | among c _ _ => c

/-- The body that is linked, if the part is one. -/
def body? : Part → Option Body
  | child _ _ _ (.mk body _) => some body
  | entries _ _ items => some (.expressions items)
  | alone .. | among .. => none

/-- The deferred rule that is referred to, if the part is a reference. -/
def reference? : Part → Option String
  | alone _ _ name | among _ _ name => some name
  | child .. | entries .. => none

/-- Whether a part is linked, or its fault. -/
def outcome : Part → Except Fault Unit
  | child c filter number inner => (fun _ ↦ ()) <$> inner.link c filter number
  | entries c number items => (fun _ ↦ ()) <$> c.expressions number items
  | alone c filter name => (fun _ ↦ ()) <$> c.references.asRule c.trail filter name
  | among c number name => (fun _ ↦ ()) <$> c.references.inlined c.trail c.rule number name

/-- From a part linking goes on to a part of it, once those in front of that are linked, and from a
reference to the rule that it stands for. -/
inductive Next (deferred : List RuleDeclaration) : Part → Part → Prop
  /-- A child of a block. -/
  | inner {c : RuleScope} {filter own : Option Pattern} {number n : Nat} {modifiers : Modifiers}
      {before after : List Child} {operators : List BlockKind} {rules : List Rule} {inner : Child}
      (hfilter : c.filter filter modifiers = .ok own)
      (hbefore : Child.linkAll c own number before = .ok (rules, n)) :
      Next deferred (child c filter number (.mk (.block (before ++ inner :: after) operators)
        modifiers)) (child c own n inner)
  /-- A list with entries other than one reference. -/
  | list {c : RuleScope} {filter own : Option Pattern} {number : Nat} {modifiers : Modifiers}
      {items : List Item} (hfilter : c.filter filter modifiers = .ok own)
      (hitems : ∀ name, items ≠ [.reference name]) :
      Next deferred (child c filter number (.mk (.expressions items) modifiers))
        (entries c number items)
  /-- A list that is nothing but a reference. -/
  | single {c : RuleScope} {filter own : Option Pattern} {number : Nat} {modifiers : Modifiers}
      {name : String} (hfilter : c.filter filter modifiers = .ok own) :
      Next deferred (child c filter number (.mk (.expressions [.reference name]) modifiers))
        (alone c own name)
  /-- A reference among the entries of a list. -/
  | entry {c : RuleScope} {number n : Nat} {before after : List Item} {name : String}
      {expressions : List Diachrony.Expression}
      (hbefore : c.expressions number before = .ok (expressions, n)) :
      Next deferred (entries c number (before ++ .reference name :: after)) (among c n name)
  /-- The deferred rule of a reference by itself. -/
  | rule {c : RuleScope} {filter : Option Pattern} {name : String} {d : RuleDeclaration}
      (hd : findDeferred deferred c.trail name = .ok d) :
      Next deferred (alone c filter name)
        (child { c with rule := d.name, trail := d.name :: c.trail } filter 0
          (.mk d.body d.modifiers))
  /-- The entries of the deferred rule of a reference among others. -/
  | inlined {c : RuleScope} {number : Nat} {name : String} {d : RuleDeclaration}
      {items : List Item} (hd : findDeferred deferred c.trail name = .ok d)
      (hbody : d.body = .expressions items) :
      Next deferred (among c number name)
        (entries { c with trail := d.name :: c.trail } number items)

end Part

/-! ### Faults of parts -/

/-- The fault of a child is the fault of the children if those in front of it are linked. -/
theorem Child.linkAll_eq_error {c : RuleScope} {filter : Option Pattern} {number n : Nat}
    {before after : List Child} {rules : List Rule} {inner : Child} {fault : Fault}
    (hbefore : Child.linkAll c filter number before = .ok (rules, n))
    (hinner : inner.link c filter n = .error fault) :
    Child.linkAll c filter number (before ++ inner :: after) = .error fault := by
  induction before generalizing number rules with
  | nil =>
    cases hbefore
    rw [List.nil_append, linkAll_cons, hinner]
    rfl
  | cons first rest ih =>
    rw [linkAll_cons] at hbefore
    obtain ⟨⟨rule, m⟩, hfirst, hbefore⟩ := exists_of_bind_eq_ok hbefore
    obtain ⟨⟨others, k⟩, hothers, hbefore⟩ := exists_of_bind_eq_ok hbefore
    cases hbefore
    rw [List.cons_append, linkAll_cons, hfirst]
    show (Child.linkAll c filter m (rest ++ inner :: after) >>= _) = _
    rw [ih hothers]
    rfl

namespace RuleScope

variable {c : RuleScope} {number n : Nat} {before after : List Item} {name : String}

/-- The fault of a reference is the fault of a list if the entries in front of it are linked. -/
theorem expressions_eq_error {expressions : List Diachrony.Expression} {fault : Fault}
    (hbefore : c.expressions number before = .ok (expressions, n))
    (hreference : c.references.inlined c.trail c.rule n name = .error fault) :
    c.expressions number (before ++ .reference name :: after) = .error fault := by
  induction before generalizing number expressions with
  | nil =>
    cases hbefore
    rw [List.nil_append, RuleScope.expressions, hreference]
    rfl
  | cons item rest ih =>
    cases item with
    | expression e =>
      obtain ⟨linked, hlinked, hbefore⟩ := exists_of_bind_eq_ok hbefore
      obtain ⟨⟨others, k⟩, hothers, hbefore⟩ := exists_of_bind_eq_ok hbefore
      cases hbefore
      rw [List.cons_append, RuleScope.expressions, hlinked]
      show (c.expressions (number + 1) (rest ++ .reference name :: after) >>= _) = _
      rw [ih hothers]
      rfl
    | reference other =>
      obtain ⟨⟨linked, m⟩, hlinked, hbefore⟩ := exists_of_bind_eq_ok hbefore
      obtain ⟨⟨others, k⟩, hothers, hbefore⟩ := exists_of_bind_eq_ok hbefore
      cases hbefore
      rw [List.cons_append, RuleScope.expressions, hlinked]
      show (c.expressions m (rest ++ .reference name :: after) >>= _) = _
      rw [ih hothers]
      rfl

/-- Where a list is linked, its first entries are. -/
theorem exists_of_expressions_append {linked : List Diachrony.Expression × Nat}
    (h : c.expressions number (before ++ after) = .ok linked) :
    ∃ expressions n, c.expressions number before = .ok (expressions, n) := by
  induction before generalizing number linked with
  | nil => exact ⟨[], number, rfl⟩
  | cons item rest ih =>
    cases item with
    | expression e =>
      obtain ⟨own, hown, h⟩ := exists_of_bind_eq_ok h
      obtain ⟨later, hlater, -⟩ := exists_of_bind_eq_ok h
      obtain ⟨others, n, hothers⟩ := ih hlater
      exact ⟨own :: others, n, bind_eq_ok hown (bind_eq_ok hothers rfl)⟩
    | reference other =>
      obtain ⟨⟨own, m⟩, hown, h⟩ := exists_of_bind_eq_ok h
      obtain ⟨later, hlater, -⟩ := exists_of_bind_eq_ok h
      obtain ⟨others, n, hothers⟩ := ih hlater
      exact ⟨own ++ others, n, bind_eq_ok hown (bind_eq_ok hothers rfl)⟩

/-- Whether references are linked as those to some deferred rules. -/
def Refers (deferred : List RuleDeclaration) (c : RuleScope) : Prop :=
  c.references = .of c.language c.names deferred

namespace Refers

variable {deferred : List RuleDeclaration} (h : c.Refers deferred)
include h

/-- A reference by itself is the deferred rule that it finds. -/
theorem asRule_eq (filter : Option Pattern) (name : String) :
    c.references.asRule c.trail filter name = (do
      let r ← findDeferred deferred c.trail name
      r.linkBody { c with rule := r.name, trail := r.name :: c.trail } filter) := by
  obtain ⟨lang, names, references, rule, trail⟩ := c
  obtain rfl : references = .of lang names deferred := h
  exact congrArg (·.asRule trail filter name) (References.step_of lang names deferred).symm

/-- A reference among others has the expressions of the deferred rule that it finds. -/
theorem inlined_eq (number : Nat) (name : String) :
    c.references.inlined c.trail c.rule number name = (do
      let r ← findDeferred deferred c.trail name
      match r.body with
      | .expressions items =>
        RuleScope.expressions { c with trail := r.name :: c.trail } number items
      | .block .. =>
        throw (illegalReference "A block reference among other expressions" name)) := by
  obtain ⟨lang, names, references, rule, trail⟩ := c
  obtain rfl : references = .of lang names deferred := h
  exact congrArg (·.inlined trail rule number name) (References.step_of lang names deferred).symm

end Refers

end RuleScope

/-- A deferred rule on the trail is refused. -/
theorem findDeferred_of_mem (deferred : List RuleDeclaration) {trail : List String} {name : String}
    (h : name ∈ trail) :
    findDeferred deferred trail name =
      .error (illegalReference "A recursive rule reference" name) := by
  rw [findDeferred, if_pos (by simpa using h)]
  rfl

namespace Part

variable {deferred : List RuleDeclaration} {part next : Part}

/-- The fault of a part is the fault of the part that it belongs to. -/
theorem Next.outcome_eq_error (h : Next deferred part next) (hrefers : part.scope.Refers deferred)
    {fault : Fault} (hfault : next.outcome = .error fault) : part.outcome = .error fault := by
  cases h with
  | inner hfilter hbefore =>
    have hinner := map_eq_error_iff.mp hfault
    refine map_eq_error_iff.mpr ?_
    rw [Child.link, hfilter]
    simp only [bind, Except.bind, Body.link, Child.linkAll_eq_error hbefore hinner]
  | list hfilter hitems =>
    have hentries := map_eq_error_iff.mp hfault
    refine map_eq_error_iff.mpr ?_
    rw [Child.link, hfilter]
    simp only [bind, Except.bind]
    rw [Body.link]
    · simp only [hentries, bind, Except.bind]
    · exact hitems
  | single hfilter =>
    have hreference := map_eq_error_iff.mp hfault
    refine map_eq_error_iff.mpr ?_
    rw [Child.link, hfilter]
    simp only [bind, Except.bind, Body.link, hreference]
  | entry hbefore =>
    have hreference := map_eq_error_iff.mp hfault
    exact map_eq_error_iff.mpr (RuleScope.expressions_eq_error hbefore hreference)
  | rule hd =>
    have hbody := map_eq_error_iff.mp hfault
    simp only [scope] at hrefers
    refine map_eq_error_iff.mpr ?_
    rw [hrefers.asRule_eq, hd]
    simp only [bind, Except.bind, RuleDeclaration.linkBody_eq]
    exact map_eq_error_iff.mpr hbody
  | inlined hd hbody =>
    have hentries := map_eq_error_iff.mp hfault
    simp only [scope] at hrefers
    refine map_eq_error_iff.mpr ?_
    rw [hrefers.inlined_eq, hd]
    simp only [bind, Except.bind, hbody]
    exact hentries

/-- Parts of a part refer to the same deferred rules. -/
theorem Next.refers (h : Next deferred part next) (hrefers : part.scope.Refers deferred) :
    next.scope.Refers deferred := by
  cases h with
  | inner _ _ | list _ _ | single _ | entry _ | rule _ | inlined _ _ => exact hrefers

/-- No deferred rule is put on a trail twice. -/
theorem Next.nodup (h : Next deferred part next) (hnodup : part.scope.trail.Nodup) :
    next.scope.trail.Nodup := by
  cases h with
  | inner _ _ | list _ _ | single _ | entry _ => exact hnodup
  | rule hd | inlined hd _ => exact List.nodup_cons.mpr ⟨not_mem_of_findDeferred hd, hnodup⟩

/-- On the way through a part references stay those to the deferred rules, no rule is met twice,
and the fault of what is reached is the fault of the whole. -/
theorem reaches {start : Part} (h : Relation.ReflTransGen (Next deferred) start part)
    (hrefers : start.scope.Refers deferred) (hnodup : start.scope.trail.Nodup) :
    part.scope.Refers deferred ∧ part.scope.trail.Nodup ∧
      ∀ fault, part.outcome = .error fault → start.outcome = .error fault := by
  induction h with
  | refl => exact ⟨hrefers, hnodup, fun _ hfault ↦ hfault⟩
  | tail _ hnext ih =>
    obtain ⟨hown, htrail, hfaults⟩ := ih
    refine ⟨hnext.refers hown, hnext.nodup htrail, fun fault hfault ↦ hfaults fault ?_⟩
    exact hnext.outcome_eq_error hown hfault

/-- What is reached in a part that is linked is linked. -/
theorem outcome_eq_ok {start : Part} (h : Relation.ReflTransGen (Next deferred) start part)
    (hrefers : start.scope.Refers deferred) (hnodup : start.scope.trail.Nodup)
    (hok : start.outcome = .ok ()) : part.outcome = .ok () := by
  cases hpart : part.outcome with
  | ok _ => rfl
  | error fault =>
    rw [(reaches h hrefers hnodup).2.2 fault hpart] at hok
    cases hok

/-! ### References -/

/-- A reference to a rule on the trail is a fault. -/
theorem outcome_of_mem_trail (hrefers : part.scope.Refers deferred) {name : String}
    (hreference : part.reference? = some name) (hmem : name ∈ part.scope.trail) :
    part.outcome = .error (illegalReference "A recursive rule reference" name) := by
  cases part with
  | child | entries => cases hreference
  | alone c filter n =>
    cases hreference
    simp only [scope] at hrefers hmem
    refine map_eq_error_iff.mpr ?_
    rw [hrefers.asRule_eq, findDeferred_of_mem deferred hmem]
    rfl
  | among c number n =>
    cases hreference
    simp only [scope] at hrefers hmem
    refine map_eq_error_iff.mpr ?_
    rw [hrefers.inlined_eq, findDeferred_of_mem deferred hmem]
    rfl

/-- A reference that is linked is to a rule off the trail, and it is linked as the body of that
rule. -/
theorem exists_next_of_reference (hrefers : part.scope.Refers deferred) {name : String}
    (hreference : part.reference? = some name) (hok : part.outcome = .ok ()) {d : RuleDeclaration}
    (hd : deferred.find? (·.name == name) = some d) :
    d.name ∉ part.scope.trail ∧ ∃ next, Next deferred part next ∧ next.body? = some d.body ∧
      next.scope.trail = d.name :: part.scope.trail := by
  have hfresh : name ∉ part.scope.trail := by
    intro hmem
    rw [outcome_of_mem_trail hrefers hreference hmem] at hok
    cases hok
  have hfind : findDeferred deferred part.scope.trail name = .ok d := by
    rw [findDeferred, if_neg (by simpa using hfresh), hd]
    rfl
  refine ⟨not_mem_of_findDeferred hfind, ?_⟩
  cases part with
  | child | entries => cases hreference
  | alone c filter n =>
    cases hreference
    exact ⟨_, .rule hfind, rfl, rfl⟩
  | among c number n =>
    cases hreference
    cases hbody : d.body with
    | expressions items => exact ⟨_, .inlined hfind hbody, rfl, rfl⟩
    | block children operators =>
      obtain ⟨_, hinlined, -⟩ := map_eq_ok_iff.mp hok
      simp only [scope] at hrefers hfind
      rw [hrefers.inlined_eq, hfind] at hinlined
      simp only [bind, Except.bind, hbody] at hinlined
      cases hinlined

end Part

section Bodies

variable {deferred : List RuleDeclaration} {c : RuleScope} {flag : Bool} {name : String}

mutual

/-- The references of a body that is linked are met on the way through it. -/
theorem Body.exists_reference {filter own : Option Pattern} {number : Nat} {modifiers : Modifiers}
    (hfilter : c.filter filter modifiers = .ok own) (filtered : Bool) :
    (body : Body) → {linked : Rule × Nat} → body.link c modifiers own number = .ok linked →
      (flag, Item.reference name) ∈ body.entries filtered →
        ∃ part, Relation.ReflTransGen (Part.Next deferred)
          (.child c filter number (.mk body modifiers)) part ∧
            part.reference? = some name ∧ part.scope = c
  | .expressions items, linked, hlinked, hentry => by
    rw [Body.entries] at hentry
    obtain ⟨item, hitem, heq⟩ := List.mem_map.mp hentry
    cases heq
    by_cases hsingle : ∃ other, items = [.reference other]
    · obtain ⟨other, rfl⟩ := hsingle
      cases List.mem_singleton.mp hitem
      exact ⟨_, .single (.single hfilter), rfl, rfl⟩
    · have hitems : ∀ other, items ≠ [.reference other] := fun other heq ↦ hsingle ⟨other, heq⟩
      obtain ⟨before, after, rfl⟩ := List.append_of_mem hitem
      rw [Body.link] at hlinked
      · obtain ⟨expressions, hexpressions, -⟩ := exists_of_bind_eq_ok hlinked
        obtain ⟨_, n, hbefore⟩ := RuleScope.exists_of_expressions_append hexpressions
        exact ⟨_, .tail (.single (.list hfilter hitems)) (.entry hbefore), rfl, rfl⟩
      · exact hitems
  | .block children operators, linked, hlinked, hentry => by
    rw [Body.entries] at hentry
    rw [Body.link] at hlinked
    obtain ⟨rules, hrules, -⟩ := exists_of_bind_eq_ok hlinked
    obtain ⟨before, inner, after, n, front, part, rfl, hbefore, hpart, hreference⟩ :=
      Child.exists_reference filtered children hrules hentry
    exact ⟨part, .head (.inner hfilter hbefore) hpart, hreference⟩

/-- The references of children that are linked are met on the way through one of them. -/
theorem Child.exists_reference {filter : Option Pattern} {number : Nat} (filtered : Bool) :
    (children : List Child) → {linked : List Rule × Nat} →
      Child.linkAll c filter number children = .ok linked →
        (flag, Item.reference name) ∈ Child.allEntries filtered children →
          ∃ before inner after n rules part, children = before ++ inner :: after ∧
            Child.linkAll c filter number before = .ok (rules, n) ∧
            Relation.ReflTransGen (Part.Next deferred) (.child c filter n inner) part ∧
            part.reference? = some name ∧ part.scope = c
  | [], _, _, hentry => nomatch hentry
  | .mk body modifiers :: rest, linked, hlinked, hentry => by
    rw [Child.linkAll] at hlinked
    obtain ⟨own, hown, hlinked⟩ := exists_of_bind_eq_ok hlinked
    obtain ⟨⟨rule, m⟩, hrule, hlinked⟩ := exists_of_bind_eq_ok hlinked
    obtain ⟨others, hothers, -⟩ := exists_of_bind_eq_ok hlinked
    rw [Child.allEntries] at hentry
    rcases List.mem_append.mp hentry with hentry | hentry
    · obtain ⟨part, hpart⟩ := Body.exists_reference hown _ body hrule hentry
      exact ⟨[], .mk body modifiers, rest, number, [], part, rfl, rfl, hpart⟩
    · obtain ⟨before, inner, after, n, rules, part, rfl, hbefore, hpart⟩ :=
        Child.exists_reference filtered rest hothers hentry
      refine ⟨.mk body modifiers :: before, inner, after, n, modifiers.repeated rule :: rules, part,
        rfl, ?_, hpart⟩
      rw [Child.linkAll]
      exact bind_eq_ok hown (bind_eq_ok hrule (bind_eq_ok hbefore rfl))

end

/-- The references of a part that is linked are met on the way through it. -/
theorem Part.exists_reference {part : Part} {body : Body} (hbody : part.body? = some body)
    (hok : part.outcome = .ok ()) (h : body.RefersTo name) :
    ∃ next, Relation.ReflTransGen (Part.Next deferred) part next ∧ next.reference? = some name ∧
      next.scope = part.scope := by
  obtain ⟨flag, hentry⟩ := h
  cases part with
  | alone | among => cases hbody
  | entries c number items =>
    cases hbody
    obtain ⟨item, hitem, heq⟩ := List.mem_map.mp hentry
    cases heq
    obtain ⟨before, after, rfl⟩ := List.append_of_mem hitem
    obtain ⟨linked, hlinked, -⟩ := map_eq_ok_iff.mp hok
    obtain ⟨_, n, hbefore⟩ := RuleScope.exists_of_expressions_append hlinked
    exact ⟨_, .single (.entry hbefore), rfl, rfl⟩
  | child c filter number inner =>
    obtain ⟨own, modifiers⟩ := inner
    cases hbody
    obtain ⟨linked, hlinked, -⟩ := map_eq_ok_iff.mp hok
    rw [Child.link] at hlinked
    obtain ⟨passed, hfilter, hlinked⟩ := exists_of_bind_eq_ok hlinked
    obtain ⟨rule, hrule, -⟩ := exists_of_bind_eq_ok hlinked
    exact Body.exists_reference hfilter false body hrule hentry

end Bodies

end Syntax

end Diachrony
