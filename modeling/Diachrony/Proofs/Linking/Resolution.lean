import Diachrony.Proofs.Change.Pairing
import Diachrony.Proofs.Linking.Needs
import Diachrony.Proofs.Linking.Scopes

/-!
# Elements that have what they need

An element that has what it needs is linked, or it fails for its shape. A name that an accepted
element needs is declared where the element is checked. Where it is linked the scope may still be
smaller, and then the first name that is missing is the fault.
-/

namespace Diachrony

/-- What was not declared and its name, if a cause is about that, in an expression or outside. -/
def Cause.undefined? : Cause → Option (String × String)
  | undefinedName what name => some (what, name)
  | inExpression _ _ _ source _ => source.undefined?
  | _ => none

namespace Syntax

section Elements

variable {lang : Language} {known : String → Prop} {allowed : Fault → Prop}

/-- The pattern of a matrix of declared values has no fault. -/
theorem matrixPattern_ensures {values : Matrix}
    (h : lang.inventory.checkMatrix values = .ok ()) :
    Ensures (fun _ ↦ True) allowed (matrixPattern lang.inventory values) := by
  have hmatrix : Ensures (fun _ ↦ True) allowed (lang.inventory.patternMatrix values) := by
    rw [Inventory.patternMatrix, h]
    exact .ok trivial
  rw [matrixPattern]
  refine hmatrix.bind fun m _ ↦ ?_
  dsimp only
  split
  · exact .ok trivial
  · split
    · exact .ok trivial
    · exact .ok trivial

mutual

/-- The pattern of an element whose needs are met fails only as its names do, or for its shape. -/
theorem Element.pattern_ensures {follow : FollowPattern}
    (hallowed : ∀ fault : Fault, fault.cause.undefined? = none → allowed fault)
    (hfollow : ∀ name place, known name → Ensures (fun _ ↦ True) allowed (follow name place))
    (place : Place) :
    (e : Element) → (∀ need ∈ e.needs, need.IsMet lang.inventory known) →
      Ensures (fun _ ↦ True) allowed (e.pattern lang follow place)
  | .text _ _, _ | .empty, _ | .betweenWords, _ | .syllableBoundary, _ | .anySyllable, _
  | .captureReference _ _, _ => by
    rw [Element.pattern]
    exact .ok trivial
  | .wordBoundary, _ => by
    cases place <;> rw [Element.pattern]
    · exact .error (hallowed _ rfl)
    · exact .ok trivial
    · exact .ok trivial
  | .matrix values, h => by
    rw [Element.needs] at h
    rw [Element.pattern]
    exact matrixPattern_ensures (h _ List.mem_cons_self)
  | .reference name, h => by
    rw [Element.needs] at h
    rw [Element.pattern]
    exact hfollow name place (h _ List.mem_cons_self)
  | .sequence items, h | .alternative items, h => by
    rw [Element.needs] at h
    rw [Element.pattern]
    exact (Element.patterns_ensures hallowed hfollow place items h).bind fun _ _ ↦ .ok trivial
  | .joined [] joints, _ => by
    rw [Element.pattern]
    split
    · exact .error (hallowed _ rfl)
    · exact .ok trivial
  | .joined (initial :: rest) joints, h => by
    rw [Element.needs, Element.allNeeds] at h
    obtain ⟨hinitial, hrest⟩ := List.forall_mem_append.mp h
    rw [Element.pattern]
    split
    · exact .error (hallowed _ rfl)
    · refine (Element.checks_ensures hallowed hfollow place rest joints hrest).bind fun _ _ ↦ ?_
      refine (Element.pattern_ensures hallowed hfollow place initial hinitial).bind fun _ _ ↦ ?_
      exact .ok trivial
  | .negated inner, h | .repeater inner _, h | .capture inner _, h => by
    rw [Element.needs] at h
    rw [Element.pattern]
    exact (Element.pattern_ensures hallowed hfollow place inner h).bind fun _ _ ↦ .ok trivial
  | .lookaround inner conditions exclusions, h => by
    rw [Element.needs] at h
    obtain ⟨h, hexclusions⟩ := List.forall_mem_append.mp h
    obtain ⟨hinner, hconditions⟩ := List.forall_mem_append.mp h
    rw [Element.pattern]
    refine (Environment.surroundings_ensures hallowed hfollow conditions hconditions).bind
      fun _ _ ↦ ?_
    refine (Environment.surroundings_ensures hallowed hfollow exclusions hexclusions).bind
      fun _ _ ↦ ?_
    exact (Element.pattern_ensures hallowed hfollow place inner hinner).bind fun _ _ ↦ .ok trivial

/-- The patterns of elements whose needs are met fail only as their names do. -/
theorem Element.patterns_ensures {follow : FollowPattern}
    (hallowed : ∀ fault : Fault, fault.cause.undefined? = none → allowed fault)
    (hfollow : ∀ name place, known name → Ensures (fun _ ↦ True) allowed (follow name place))
    (place : Place) :
    (items : List Element) → (∀ need ∈ Element.allNeeds items, need.IsMet lang.inventory known) →
      Ensures (fun _ ↦ True) allowed (Element.patterns lang follow place items)
  | [], _ => .ok trivial
  | e :: rest, h => by
    rw [Element.allNeeds] at h
    obtain ⟨hfirst, hrest⟩ := List.forall_mem_append.mp h
    rw [Element.patterns]
    refine (Element.pattern_ensures hallowed hfollow place e hfirst).bind fun _ _ ↦ ?_
    exact (Element.patterns_ensures hallowed hfollow place rest hrest).bind fun _ _ ↦ .ok trivial

/-- The checks that elements whose needs are met are fail only as their names do. -/
theorem Element.checks_ensures {follow : FollowPattern}
    (hallowed : ∀ fault : Fault, fault.cause.undefined? = none → allowed fault)
    (hfollow : ∀ name place, known name → Ensures (fun _ ↦ True) allowed (follow name place))
    (place : Place) :
    (items : List Element) → (joints : List Joint) →
      (∀ need ∈ Element.allNeeds items, need.IsMet lang.inventory known) →
        Ensures (fun _ ↦ True) allowed (Element.checks lang follow place items joints)
  | [], _, _ => by
    rw [Element.checks]
    · exact .ok trivial
    · simp
  | _ :: _, [], _ => by
    rw [Element.checks]
    · exact .ok trivial
    · simp
  | e :: rest, joint :: joints, h => by
    rw [Element.allNeeds] at h
    obtain ⟨hfirst, hrest⟩ := List.forall_mem_append.mp h
    rw [Element.checks]
    refine (Element.pattern_ensures hallowed hfollow place e hfirst).bind fun _ _ ↦ ?_
    exact (Element.checks_ensures hallowed hfollow place rest joints hrest).bind
      fun _ _ ↦ .ok trivial

/-- The surroundings of environments whose needs are met fail only as their names do. -/
theorem Environment.surroundings_ensures {follow : FollowPattern}
    (hallowed : ∀ fault : Fault, fault.cause.undefined? = none → allowed fault)
    (hfollow : ∀ name place, known name → Ensures (fun _ ↦ True) allowed (follow name place)) :
    (environments : List Environment) →
      (∀ need ∈ Environment.allNeeds environments, need.IsMet lang.inventory known) →
        Ensures (fun _ ↦ True) allowed (Environment.surroundings lang follow environments)
  | [], _ => .ok trivial
  | .mk none none :: rest, h => by
    rw [Environment.allNeeds] at h
    rw [Environment.surroundings]
    exact (Environment.surroundings_ensures hallowed hfollow rest h).bind fun _ _ ↦ .ok trivial
  | .mk (some e) none :: rest, h | .mk none (some e) :: rest, h => by
    rw [Environment.allNeeds] at h
    obtain ⟨hfirst, hrest⟩ := List.forall_mem_append.mp h
    rw [Environment.surroundings]
    refine (Element.pattern_ensures hallowed hfollow _ e hfirst).bind fun _ _ ↦ ?_
    exact (Environment.surroundings_ensures hallowed hfollow rest hrest).bind
      fun _ _ ↦ .ok trivial
  | .mk (some before) (some after) :: rest, h => by
    rw [Environment.allNeeds] at h
    obtain ⟨h, hrest⟩ := List.forall_mem_append.mp h
    obtain ⟨hbefore, hafter⟩ := List.forall_mem_append.mp h
    rw [Environment.surroundings]
    refine (Element.pattern_ensures hallowed hfollow .before before hbefore).bind fun _ _ ↦ ?_
    refine (Element.pattern_ensures hallowed hfollow .after after hafter).bind fun _ _ ↦ ?_
    exact (Environment.surroundings_ensures hallowed hfollow rest hrest).bind
      fun _ _ ↦ .ok trivial

end

mutual

/-- The output of an element whose needs are met fails only as its names do, or for its shape. -/
theorem Element.output_ensures {follow : FollowOutput}
    (hallowed : ∀ fault : Fault, fault.cause.undefined? = none → allowed fault)
    (hfollow : ∀ name, known name → Ensures (fun _ ↦ True) allowed (follow name)) :
    (e : Element) → (∀ need ∈ e.needs, need.IsMet lang.inventory known) →
      Ensures (fun _ ↦ True) allowed (e.output lang follow)
  | .text _ _, _ | .empty, _ | .betweenWords, _ | .syllableBoundary, _
  | .captureReference _ true, _ | .matrix _, _ => by
    rw [Element.output]
    exact .ok trivial
  | .wordBoundary, _ | .anySyllable, _ | .negated _, _ | .repeater _ _, _ | .capture _ _, _
  | .lookaround _ _ _, _ | .captureReference _ false, _ => by
    rw [Element.output]
    exact .error (hallowed _ rfl)
  | .reference name, h => by
    rw [Element.needs] at h
    rw [Element.output]
    exact hfollow name (h _ List.mem_cons_self)
  | .sequence items, h | .alternative items, h => by
    rw [Element.needs] at h
    rw [Element.output]
    exact (Element.outputs_ensures hallowed hfollow items h).bind fun _ _ ↦ .ok trivial
  | .joined [] joints, _ => by
    rw [Element.output]
    split
    · exact .error (hallowed _ rfl)
    · exact .ok trivial
  | .joined (initial :: rest) joints, h => by
    rw [Element.needs, Element.allNeeds] at h
    obtain ⟨hinitial, hrest⟩ := List.forall_mem_append.mp h
    rw [Element.output]
    split
    · exact .error (hallowed _ rfl)
    · refine (Element.output_ensures hallowed hfollow initial hinitial).bind fun _ _ ↦ ?_
      exact (Element.outputs_ensures hallowed hfollow rest hrest).bind fun _ _ ↦ .ok trivial

/-- The outputs of elements whose needs are met fail only as their names do, or for their shape. -/
theorem Element.outputs_ensures {follow : FollowOutput}
    (hallowed : ∀ fault : Fault, fault.cause.undefined? = none → allowed fault)
    (hfollow : ∀ name, known name → Ensures (fun _ ↦ True) allowed (follow name)) :
    (items : List Element) → (∀ need ∈ Element.allNeeds items, need.IsMet lang.inventory known) →
      Ensures (fun _ ↦ True) allowed (Element.outputs lang follow items)
  | [], _ => .ok trivial
  | e :: rest, h => by
    rw [Element.allNeeds] at h
    obtain ⟨hfirst, hrest⟩ := List.forall_mem_append.mp h
    rw [Element.outputs]
    refine (Element.output_ensures hallowed hfollow e hfirst).bind fun _ _ ↦ ?_
    exact (Element.outputs_ensures hallowed hfollow rest hrest).bind fun _ _ ↦ .ok trivial

end

end Elements

/-- Whether an element is a literal. -/
def Element.isLiteral : Element → Bool
  | text _ _ => true
  | _ => false

namespace Scope

/-- Whether a class has only literals, or a named element only names that are declared. -/
def IsFounded (s : Scope) : Declared → Prop
  | .soundClass _ members => ∀ m ∈ members, m.isLiteral
  | .element _ body => ∀ name, .name name ∈ body.needs → s.declares name

/-- Whether names are new where they are declared, classes have only literals, and named elements
only names that were declared before. -/
inductive WellFormed : Scope → Prop
  /-- Nothing is declared. -/
  | nil : WellFormed []
  /-- A new name that stands for what is known. -/
  | cons {s : Scope} {d : Declared} (hs : WellFormed s) (hnew : s.declares d.name = false)
      (hd : s.IsFounded d) : WellFormed (d :: s)

/-- Whether a name stands for something that has what it needs. -/
def Supplies (inv : Inventory) (s : Scope) : String → Prop :=
  s.resolve (fun _ ↦ False) (fun _ ↦ True) fun known body ↦ ∀ need ∈ body.needs,
    need.IsMet inv known

variable {inv : Inventory} {s t : Scope}

/-- A scope grows with a new name. -/
theorem GrowsTo.cons {d : Declared} (hnew : s.declares d.name = false) : s.GrowsTo (d :: s) :=
  ⟨[d], rfl, List.forall_mem_singleton.mpr hnew⟩

/-- A scope without its last declarations is well-formed. -/
theorem GrowsTo.wellFormed (h : s.GrowsTo t) (ht : t.WellFormed) : s.WellFormed := by
  obtain ⟨newer, rfl, -⟩ := h
  induction newer with
  | nil => exact ht
  | cons d rest ih =>
    cases ht with
    | cons ht _ _ => exact ih ht

/-- The members of a class are literals. -/
theorem WellFormed.isLiteral (hs : s.WellFormed) {name : String} {members : List Element}
    (h : .soundClass name members ∈ s) : ∀ m ∈ members, m.isLiteral := by
  induction hs with
  | nil => cases h
  | cons _ _ hd ih =>
    rcases List.mem_cons.mp h with rfl | h
    · exact hd
    · exact ih h

section Checking

/-- A name stands for the same thing in a scope that has grown, and has what it needs in both. -/
theorem GrowsTo.supplies_iff (h : s.GrowsTo t) {name : String} (hdeclared : s.declares name) :
    t.Supplies inv name ↔ s.Supplies inv name := by
  rw [Supplies, h.resolve_of_declares _ _ _ hdeclared]
  rfl

/-- A name that stands for anything is declared. -/
theorem declares_of_supplies {name : String} (h : s.Supplies inv name) : s.declares name := by
  by_contra hdeclares
  rw [Supplies, resolve_of_not_declares _ _ _ (by simpa using hdeclares)] at h
  exact h

/-- A name that is accepted in an environment stands for something that has what it needs. -/
theorem supplies_of_followSide {name : String} {edge : Edge} {env : Environment}
    (h : s.followSide inv name edge env = .ok ()) : s.Supplies inv name := by
  refine resolve_related (r := fun (follow : Edge → Environment → Except Fault Unit) known ↦
    ∀ edge env, follow edge env = .ok () → known) ?_ ?_ ?_ name edge env h
  · exact fun _ _ _ h ↦ nomatch h
  · exact fun _ _ _ _ _ _ _ _ _ ↦ trivial
  · exact fun _ body _ _ _ hfollow _ _ h ↦ Element.needs_of_checkSide hfollow body h

/-- A name that is accepted stands for something that has what it needs, if elements that are
accepted have it. -/
theorem supplies_of_follow {visit : (String → Except Fault Unit) → Element → Except Fault Unit}
    (hvisit : ∀ {known : String → Prop} {follow : String → Except Fault Unit},
      (∀ name, follow name = .ok () → known name) →
        ∀ e, visit follow e = .ok () → ∀ need ∈ e.needs, need.IsMet inv known)
    {name : String} (h : s.follow visit name = .ok ()) : s.Supplies inv name := by
  refine resolve_related (r := fun (follow : Except Fault Unit) known ↦ follow = .ok () → known)
    ?_ ?_ ?_ name h
  · exact fun _ h ↦ nomatch h
  · exact fun _ _ _ _ _ _ _ ↦ trivial
  · exact fun _ body _ _ _ hfollow h ↦ hvisit hfollow body h

/-- An element that is accepted as an output has what it needs. -/
theorem needs_of_checkOutput {e : Element} (h : s.checkOutput inv e = .ok ()) :
    ∀ need ∈ e.needs, need.IsMet inv (s.Supplies inv) :=
  Element.needs_of_checkOutput
    (fun _ ↦ supplies_of_follow fun hfollow e ↦ Element.needs_of_checkOutput hfollow e) e h

/-- An element that is accepted as a shape of a syllable has what it needs. -/
theorem needs_of_checkShape {e : Element} (h : s.checkShape inv e = .ok ()) :
    ∀ need ∈ e.needs, need.IsMet inv (s.Supplies inv) :=
  Element.needs_of_checkShape
    (fun _ ↦ supplies_of_follow fun hfollow e ↦ Element.needs_of_checkShape hfollow e) e h

/-- A context that is accepted has what it needs. -/
theorem needs_of_check {c : Context} (h : c.check inv s = .ok ()) :
    ∀ need ∈ c.needs, need.IsMet inv (s.Supplies inv) :=
  Context.needs_of_check (fun _ _ _ ↦ supplies_of_followSide) h

/-- A name that is accepted in a pattern stands for something that has what it needs. The names in
the environments of an element are accepted in the whole scope, but they are declared before it. -/
theorem WellFormed.supplies_of_followInput (hs : s.WellFormed) (h : s.GrowsTo t) {part : RulePart}
    {name : String} (hdeclared : s.declares name)
    (hname : s.follow (fun follow body ↦ body.checkInput inv (t.followSide inv) follow part) name =
      .ok ()) : s.Supplies inv name := by
  induction hs generalizing name with
  | nil => cases hdeclared
  | @cons rest d _ hnew hd ih =>
    have hrest : rest.GrowsTo t := .trans (.cons hnew) h
    by_cases hown : d.name = name
    · cases d with
      | soundClass n members =>
        have hown : n = name := hown
        rw [Supplies, resolve, if_pos hown]
        trivial
      | element n body =>
        have hown : n = name := hown
        rw [follow, resolve, if_pos hown] at hname
        rw [Supplies, resolve, if_pos hown]
        have hside (name : String) (edge : Edge) (env : Environment)
            (h : t.followSide inv name edge env = .ok ()) (hdeclared : rest.declares name) :
            rest.Supplies inv name :=
          (hrest.supplies_iff hdeclared).mp (supplies_of_followSide h)
        have hneeds := Element.needs_of_checkInput hside
          (fun name hfollow hdeclared ↦ ih hrest hdeclared hfollow) body hname
        intro need hneed
        cases need with
        | matrix values => exact hneeds _ hneed
        | name n => exact hneeds _ hneed (hd n hneed)
    · rw [follow, resolve_cons_of_ne _ _ _ _ hown] at hname
      rw [Supplies, resolve_cons_of_ne _ _ _ _ hown]
      refine ih hrest ?_ hname
      simpa [declares, hown] using hdeclared

/-- An element that is accepted as a pattern has what it needs. -/
theorem WellFormed.needs_of_checkInput (hs : s.WellFormed) {part : RulePart} {e : Element}
    (h : s.checkInput inv part e = .ok ()) :
    ∀ need ∈ e.needs, need.IsMet inv (s.Supplies inv) := by
  refine Element.needs_of_checkInput (fun _ _ _ hside ↦ supplies_of_followSide hside)
    (fun name hname ↦ ?_) e h
  cases hdeclared : s.declares name with
  | true => exact hs.supplies_of_followInput (.refl s) hdeclared hname
  | false =>
    rw [follow, resolve_of_not_declares _ _ _ hdeclared] at hname
    cases hname

/-- An expression that is accepted has what it needs. -/
theorem WellFormed.needs_of_check (hs : s.WellFormed) {filtered : Bool} {e : Expression}
    (h : e.check inv s filtered = .ok ()) :
    ∀ need ∈ e.needs, need.IsMet inv (s.Supplies inv) := by
  obtain ⟨⟨⟩, hsource, h⟩ := exists_of_bind_eq_ok h
  obtain ⟨⟨⟩, htarget, hcontext⟩ := exists_of_bind_eq_ok h
  refine List.forall_mem_append.mpr ⟨List.forall_mem_append.mpr ⟨?_, ?_⟩, ?_⟩
  · exact hs.needs_of_checkInput hsource
  · exact needs_of_checkOutput htarget
  · exact Scope.needs_of_check hcontext

end Checking

section Linking

variable {lang : Language} {allowed : Fault → Prop}

/-- A literal is a pattern. -/
theorem pattern_ensures_of_isLiteral {follow : FollowPattern} {e : Element} (h : e.isLiteral)
    (place : Place) : Ensures (fun _ ↦ True) allowed (e.pattern lang follow place) := by
  cases e with
  | text literal exact =>
    rw [Element.pattern]
    exact .ok trivial
  | _ => cases h

/-- A literal is an output. -/
theorem output_ensures_of_isLiteral {follow : FollowOutput} {e : Element} (h : e.isLiteral) :
    Ensures (fun _ ↦ True) allowed (e.output lang follow) := by
  cases e with
  | text literal exact =>
    rw [Element.output]
    exact .ok trivial
  | _ => cases h

section WellFormed

variable (hs : s.WellFormed)
  (hallowed : ∀ fault : Fault, fault.cause.undefined? = none → allowed fault)
include hs hallowed

/-- The pattern of a name that stands for something that has what it needs fails only for its
shape. -/
theorem WellFormed.followPattern_ensures {name : String} (h : s.Supplies lang.inventory name)
    (place : Place) : Ensures (fun _ ↦ True) allowed (s.followPattern lang name place) := by
  refine resolve_related (r := fun known (follow : Place → Except Fault Pattern) ↦
    known → ∀ place, Ensures (fun _ ↦ True) allowed (follow place)) ?_ ?_ ?_ name h place
  · exact fun _ h ↦ h.elim
  · intro name members hmem _ follow _ _ place
    refine (Ensures.forM fun member hmember ↦ ?_).bind fun _ _ ↦ .ok trivial
    obtain ⟨m, hm, rfl⟩ := List.mem_map.mp hmember
    exact pattern_ensures_of_isLiteral (hs.isLiteral hmem m hm) place
  · intro name body _ known follow hfollow hneeds place
    exact Element.pattern_ensures hallowed (fun n place hn ↦ hfollow n hn place) place body hneeds

/-- The output of a name that stands for something that has what it needs fails only for its
shape. -/
theorem WellFormed.followOutput_ensures {name : String} (h : s.Supplies lang.inventory name) :
    Ensures (fun _ ↦ True) allowed (s.followOutput lang name) := by
  refine resolve_related (r := fun known (follow : Except Fault Output) ↦
    known → Ensures (fun _ ↦ True) allowed follow) ?_ ?_ ?_ name h
  · exact fun _ h ↦ h.elim
  · intro name members hmem _ follow _ _
    refine (Ensures.forM fun member hmember ↦ ?_).bind fun _ _ ↦ .ok trivial
    obtain ⟨m, hm, rfl⟩ := List.mem_map.mp hmember
    exact output_ensures_of_isLiteral (hs.isLiteral hmem m hm)
  · exact fun name body _ known follow hfollow hneeds ↦
      Element.output_ensures hallowed hfollow body hneeds

end WellFormed

section Missing

variable {names : Scope} (h : names.GrowsTo s) (hs : s.WellFormed)
  (hallowed : ∀ fault : Fault, fault.cause.undefined? = none → allowed fault)

variable (lang names s allowed) in
/-- Whether a name stands for something that has what it needs, and may be missing in a smaller
scope only as far as the fault is allowed. -/
def MayMiss (name : String) : Prop :=
  s.Supplies lang.inventory name ∧ (names.declares name = false → allowed (unknown name))

include h hs hallowed

/-- The pattern of a name fails in a smaller scope because the name is missing there, or for its
shape. -/
theorem GrowsTo.followPattern_ensures {name : String} (hname : MayMiss s lang allowed names name)
    (place : Place) : Ensures (fun _ ↦ True) allowed (names.followPattern lang name place) := by
  cases hdeclared : names.declares name with
  | true =>
    have hsupplies := (h.supplies_iff hdeclared).mp hname.1
    exact (h.wellFormed hs).followPattern_ensures hallowed hsupplies place
  | false =>
    rw [followPattern, resolve_of_not_declares _ _ _ hdeclared]
    exact .error (hname.2 hdeclared)

/-- The output of a name fails in a smaller scope because the name is missing there, or for its
shape. -/
theorem GrowsTo.followOutput_ensures {name : String} (hname : MayMiss s lang allowed names name) :
    Ensures (fun _ ↦ True) allowed (names.followOutput lang name) := by
  cases hdeclared : names.declares name with
  | true =>
    have hsupplies := (h.supplies_iff hdeclared).mp hname.1
    exact (h.wellFormed hs).followOutput_ensures hallowed hsupplies
  | false =>
    rw [followOutput, resolve_of_not_declares _ _ _ hdeclared]
    exact .error (hname.2 hdeclared)

/-- The pattern of an element fails in a smaller scope because a name is missing there, or for its
shape. -/
theorem GrowsTo.pattern_ensures {e : Element} {place : Place}
    (hneeds : ∀ need ∈ e.needs, need.IsMet lang.inventory (MayMiss s lang allowed names)) :
    Ensures (fun _ ↦ True) allowed (names.pattern lang place e) :=
  Element.pattern_ensures hallowed
    (fun _ place hname ↦ h.followPattern_ensures hs hallowed hname place) place e hneeds

/-- The surroundings of a context fail in a smaller scope because a name is missing there, or for
their shape. -/
theorem GrowsTo.surroundings_ensures {c : Context}
    (hneeds : ∀ need ∈ c.needs, need.IsMet lang.inventory (MayMiss s lang allowed names)) :
    Ensures (fun _ ↦ True) allowed (names.surroundings lang c) := by
  have hfollow (name : String) (place : Place) (hname : MayMiss s lang allowed names name) :=
    h.followPattern_ensures hs hallowed hname place
  obtain ⟨hconditions, hexclusions⟩ := List.forall_mem_append.mp hneeds
  rw [surroundings]
  refine (Environment.surroundings_ensures hallowed hfollow _ hconditions).bind fun _ _ ↦ ?_
  exact (Environment.surroundings_ensures hallowed hfollow _ hexclusions).bind
    fun _ _ ↦ .ok trivial

/-- An expression fails to be linked in a smaller scope because a name is missing there, or for its
shape. -/
theorem GrowsTo.expression_ensures {e : Expression}
    (hneeds : ∀ need ∈ e.needs, need.IsMet lang.inventory (MayMiss s lang allowed names)) :
    Ensures (fun _ ↦ True) allowed (names.expression lang e) := by
  obtain ⟨hneeds, hcontext⟩ := List.forall_mem_append.mp hneeds
  obtain ⟨hsource, htarget⟩ := List.forall_mem_append.mp hneeds
  rw [expression]
  refine (h.pattern_ensures hs hallowed hsource).bind fun pattern _ ↦ ?_
  have houtput : Ensures (fun _ ↦ True) allowed (names.output lang e.target) :=
    Element.output_ensures hallowed (fun _ hname ↦ h.followOutput_ensures hs hallowed hname) _
      htarget
  refine houtput.bind fun output _ ↦ ?_
  have hpairing := pattern.pair_ensures e.source.toText e.target.toText output
  refine (hpairing.allow fun fault hfault ↦ hallowed fault (hfault ▸ rfl)).bind fun _ _ ↦ ?_
  exact (h.surroundings_ensures hs hallowed hcontext).bind fun _ _ ↦ .ok trivial

end Missing

end Linking

end Scope

end Syntax

end Diachrony
