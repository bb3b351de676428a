import Mathlib.Logic.Function.Iterate
import Diachrony.Proofs.Linking.Accepted

/-!
# Recursions that come to an end

What a name stands for is looked up among all declarations, and so are the names in it, wherever
they were declared. That this ends is not to be seen from a look-up. But an accepted program gives
every name once, and the body of a named element only has names that were declared before it. So
look-ups inside one another are never deeper than there are declarations: with one more than that
they give the same result whatever is put in for the names at the bottom, and it is what names are
resolved to.

References to deferred rules may go around in a circle. They come to an end for another reason:
every step puts a deferred rule on the trail that was not on it, and references to rules on the
trail are refused.
-/

namespace Diachrony.Syntax

variable {α : Type}

/-- Whether two ways to follow names agree on those that are needed. -/
def AgreeOn (needs : List Need) (follow follow' : String → α) : Prop :=
  ∀ name, .name name ∈ needs → follow name = follow' name

namespace AgreeOn

variable {needs more : List Need} {follow follow' : String → α}

/-- They agree on the first of two lists. -/
theorem left (h : AgreeOn (needs ++ more) follow follow') : AgreeOn needs follow follow' :=
  fun name hname ↦ h name (List.mem_append_left _ hname)

/-- They agree on the second of two lists. -/
theorem right (h : AgreeOn (needs ++ more) follow follow') : AgreeOn more follow follow' :=
  fun name hname ↦ h name (List.mem_append_right _ hname)

end AgreeOn

/-- Whether only the names that an element needs are followed when it is visited. -/
def FollowsNeeds (visit : (String → α) → Element → α) : Prop :=
  ∀ e follow follow', AgreeOn e.needs follow follow' → visit follow e = visit follow' e

section Linking

variable {lang : Language}

mutual

/-- The pattern of an element depends on the names it needs. -/
theorem Element.pattern_congr {follow follow' : FollowPattern} (place : Place) :
    (e : Element) → AgreeOn e.needs follow follow' →
      e.pattern lang follow place = e.pattern lang follow' place
  | .empty, _ | .text _ _, _ | .matrix _, _ | .betweenWords, _ | .syllableBoundary, _
  | .anySyllable, _ | .captureReference _ _, _ => by rw [Element.pattern, Element.pattern]
  | .wordBoundary, _ => by cases place <;> rw [Element.pattern, Element.pattern]
  | .reference name, h => by
    rw [Element.needs] at h
    rw [Element.pattern, Element.pattern, h name List.mem_cons_self]
  | .sequence items, h | .alternative items, h => by
    rw [Element.needs] at h
    rw [Element.pattern, Element.pattern, Element.patterns_congr place items h]
  | .joined [] joints, _ => by rw [Element.pattern, Element.pattern]
  | .joined (initial :: rest) joints, h => by
    rw [Element.needs, Element.allNeeds] at h
    rw [Element.pattern, Element.pattern]
    simp only [Element.pattern_congr place initial h.left,
      Element.checks_congr place rest joints h.right]
  | .negated inner, h | .repeater inner _, h | .capture inner _, h => by
    rw [Element.needs] at h
    rw [Element.pattern, Element.pattern, Element.pattern_congr place inner h]
  | .lookaround inner conditions exclusions, h => by
    rw [Element.needs] at h
    rw [Element.pattern, Element.pattern, Element.pattern_congr place inner h.left.left,
      Environment.surroundings_congr conditions h.left.right,
      Environment.surroundings_congr exclusions h.right]

/-- The patterns of elements depend on the names they need. -/
theorem Element.patterns_congr {follow follow' : FollowPattern} (place : Place) :
    (items : List Element) → AgreeOn (Element.allNeeds items) follow follow' →
      Element.patterns lang follow place items = Element.patterns lang follow' place items
  | [], _ => by rw [Element.patterns, Element.patterns]
  | e :: rest, h => by
    rw [Element.allNeeds] at h
    rw [Element.patterns, Element.patterns, Element.pattern_congr place e h.left,
      Element.patterns_congr place rest h.right]

/-- The checks that elements are depend on the names they need. -/
theorem Element.checks_congr {follow follow' : FollowPattern} (place : Place) :
    (items : List Element) → (joints : List Joint) →
      AgreeOn (Element.allNeeds items) follow follow' →
        Element.checks lang follow place items joints =
          Element.checks lang follow' place items joints
  | [], _, _ => by rw [Element.checks, Element.checks] <;> simp
  | _ :: _, [], _ => by rw [Element.checks, Element.checks] <;> simp
  | e :: rest, joint :: joints, h => by
    rw [Element.allNeeds] at h
    rw [Element.checks, Element.checks, Element.pattern_congr place e h.left,
      Element.checks_congr place rest joints h.right]

/-- The surroundings that environments are depend on the names they need. -/
theorem Environment.surroundings_congr {follow follow' : FollowPattern} :
    (environments : List Environment) →
      AgreeOn (Environment.allNeeds environments) follow follow' →
        Environment.surroundings lang follow environments =
          Environment.surroundings lang follow' environments
  | [], _ => by rw [Environment.surroundings, Environment.surroundings]
  | .mk none none :: rest, h => by
    rw [Environment.allNeeds] at h
    rw [Environment.surroundings, Environment.surroundings, Environment.surroundings_congr rest h]
  | .mk (some e) none :: rest, h | .mk none (some e) :: rest, h => by
    rw [Environment.allNeeds] at h
    rw [Environment.surroundings, Environment.surroundings, Element.pattern_congr _ e h.left,
      Environment.surroundings_congr rest h.right]
  | .mk (some before) (some after) :: rest, h => by
    rw [Environment.allNeeds] at h
    rw [Environment.surroundings, Environment.surroundings,
      Element.pattern_congr .before before h.left.left,
      Element.pattern_congr .after after h.left.right,
      Environment.surroundings_congr rest h.right]

end

mutual

/-- The output of an element depends on the names it needs. -/
theorem Element.output_congr {follow follow' : FollowOutput} :
    (e : Element) → AgreeOn e.needs follow follow' →
      e.output lang follow = e.output lang follow'
  | .empty, _ | .text _ _, _ | .matrix _, _ | .betweenWords, _ | .syllableBoundary, _
  | .anySyllable, _ | .captureReference _ true, _ | .captureReference _ false, _
  | .wordBoundary, _ | .negated _, _ | .repeater _ _, _ | .capture _ _, _
  | .lookaround _ _ _, _ => by rw [Element.output, Element.output]
  | .reference name, h => by
    rw [Element.needs] at h
    rw [Element.output, Element.output, h name List.mem_cons_self]
  | .sequence items, h | .alternative items, h => by
    rw [Element.needs] at h
    rw [Element.output, Element.output, Element.outputs_congr items h]
  | .joined [] joints, _ => by rw [Element.output, Element.output]
  | .joined (initial :: rest) joints, h => by
    rw [Element.needs, Element.allNeeds] at h
    rw [Element.output, Element.output]
    simp only [Element.output_congr initial h.left, Element.outputs_congr rest h.right]

/-- The outputs of elements depend on the names they need. -/
theorem Element.outputs_congr {follow follow' : FollowOutput} :
    (items : List Element) → AgreeOn (Element.allNeeds items) follow follow' →
      Element.outputs lang follow items = Element.outputs lang follow' items
  | [], _ => by rw [Element.outputs, Element.outputs]
  | e :: rest, h => by
    rw [Element.allNeeds] at h
    rw [Element.outputs, Element.outputs, Element.output_congr e h.left,
      Element.outputs_congr rest h.right]

end

end Linking

section Checking

variable {inv : Inventory}

mutual

/-- What is found wrong with an element of an environment depends on the names it needs. -/
theorem Element.checkSide_congr {follow follow' : FollowSide} (edge : Edge) (env : Environment) :
    (e : Element) → AgreeOn e.needs follow follow' →
      e.checkSide inv follow edge env = e.checkSide inv follow' edge env
  | .empty, _ | .text _ _, _ | .matrix _, _ | .betweenWords, _ | .syllableBoundary, _
  | .anySyllable, _ | .captureReference _ _, _ | .wordBoundary, _ => by
    simp only [Element.checkSide]
  | .reference name, h => by
    rw [Element.needs] at h
    rw [Element.checkSide, Element.checkSide, h name List.mem_cons_self]
  | .sequence items, h => by
    rw [Element.needs] at h
    rw [Element.checkSide, Element.checkSide, Element.checkSides_congr edge env true items h]
  | .alternative items, h | .joined items _, h => by
    rw [Element.needs] at h
    rw [Element.checkSide, Element.checkSide, Element.checkEachSide_congr edge env items h]
  | .negated inner, h | .repeater inner _, h | .capture inner _, h => by
    rw [Element.needs] at h
    rw [Element.checkSide, Element.checkSide, Element.checkSide_congr _ env inner h]
  | .lookaround inner conditions exclusions, h => by
    rw [Element.needs] at h
    rw [Element.checkSide, Element.checkSide, Element.checkSide_congr edge env inner h.left.left,
      Environment.checkAll_congr conditions h.left.right,
      Environment.checkAll_congr exclusions h.right]

/-- What is found wrong with elements one after the other depends on the names they need. -/
theorem Element.checkSides_congr {follow follow' : FollowSide} (edge : Edge) (env : Environment)
    (isFirst : Bool) :
    (items : List Element) → AgreeOn (Element.allNeeds items) follow follow' →
      Element.checkSides inv follow edge env isFirst items =
        Element.checkSides inv follow' edge env isFirst items
  | [], _ => by rw [Element.checkSides, Element.checkSides]
  | e :: rest, h => by
    rw [Element.allNeeds] at h
    rw [Element.checkSides, Element.checkSides, Element.checkSide_congr _ env e h.left,
      Element.checkSides_congr edge env false rest h.right]

/-- What is found wrong with elements in one place depends on the names they need. -/
theorem Element.checkEachSide_congr {follow follow' : FollowSide} (edge : Edge)
    (env : Environment) :
    (items : List Element) → AgreeOn (Element.allNeeds items) follow follow' →
      Element.checkEachSide inv follow edge env items =
        Element.checkEachSide inv follow' edge env items
  | [], _ => by rw [Element.checkEachSide, Element.checkEachSide]
  | e :: rest, h => by
    rw [Element.allNeeds] at h
    rw [Element.checkEachSide, Element.checkEachSide, Element.checkSide_congr edge env e h.left,
      Element.checkEachSide_congr edge env rest h.right]

/-- What is found wrong with environments depends on the names they need. -/
theorem Environment.checkAll_congr {follow follow' : FollowSide} :
    (environments : List Environment) →
      AgreeOn (Environment.allNeeds environments) follow follow' →
        Environment.checkAll inv follow environments =
          Environment.checkAll inv follow' environments
  | [], _ => by rw [Environment.checkAll, Environment.checkAll]
  | .mk none none :: rest, h => by
    rw [Environment.allNeeds] at h
    rw [Environment.checkAll, Environment.checkAll, Environment.checkAll_congr rest h]
  | .mk (some e) none :: rest, h | .mk none (some e) :: rest, h => by
    rw [Environment.allNeeds] at h
    rw [Environment.checkAll, Environment.checkAll, Element.checkSide_congr _ _ e h.left,
      Environment.checkAll_congr rest h.right]
  | .mk (some before) (some after) :: rest, h => by
    rw [Environment.allNeeds] at h
    rw [Environment.checkAll, Environment.checkAll,
      Element.checkSide_congr .before _ before h.left.left,
      Element.checkSide_congr .after _ after h.left.right, Environment.checkAll_congr rest h.right]

end

variable {follow follow' : String → Except Fault Unit}

mutual

/-- What is found wrong with a pattern depends on the names it needs, those in its environments
apart. -/
theorem Element.checkInput_congr {followSide : FollowSide} {part : RulePart} :
    (e : Element) → AgreeOn e.needs follow follow' →
      e.checkInput inv followSide follow part = e.checkInput inv followSide follow' part
  | .empty, _ | .text _ _, _ | .matrix _, _ | .betweenWords, _ | .syllableBoundary, _
  | .anySyllable, _ | .captureReference _ _, _ | .wordBoundary, _ => by
    simp only [Element.checkInput]
  | .reference name, h => by
    rw [Element.needs] at h
    rw [Element.checkInput, Element.checkInput, h name List.mem_cons_self]
  | .sequence items, h | .alternative items, h | .joined items _, h => by
    rw [Element.needs] at h
    rw [Element.checkInput, Element.checkInput, Element.checkInputs_congr items h]
  | .negated inner, h | .repeater inner _, h | .capture inner _, h => by
    rw [Element.needs] at h
    rw [Element.checkInput, Element.checkInput, Element.checkInput_congr inner h]
  | .lookaround inner _ _, h => by
    rw [Element.needs] at h
    rw [Element.checkInput, Element.checkInput, Element.checkInput_congr inner h.left.left]

/-- What is found wrong with patterns depends on the names they need. -/
theorem Element.checkInputs_congr {followSide : FollowSide} {part : RulePart} :
    (items : List Element) → AgreeOn (Element.allNeeds items) follow follow' →
      Element.checkInputs inv followSide follow part items =
        Element.checkInputs inv followSide follow' part items
  | [], _ => by rw [Element.checkInputs, Element.checkInputs]
  | e :: rest, h => by
    rw [Element.allNeeds] at h
    rw [Element.checkInputs, Element.checkInputs, Element.checkInput_congr e h.left,
      Element.checkInputs_congr rest h.right]

end

mutual

/-- What is found wrong with a shape of a syllable depends on the names it needs. -/
theorem Element.checkShape_congr :
    (e : Element) → AgreeOn e.needs follow follow' →
      e.checkShape inv follow = e.checkShape inv follow'
  | .empty, _ | .text _ _, _ | .matrix _, _ | .betweenWords, _ | .syllableBoundary, _
  | .anySyllable, _ | .captureReference _ _, _ | .wordBoundary, _ | .capture _ _, _
  | .lookaround _ _ _, _ => by simp only [Element.checkShape]
  | .reference name, h => by
    rw [Element.needs] at h
    rw [Element.checkShape, Element.checkShape, h name List.mem_cons_self]
  | .sequence items, h | .alternative items, h | .joined items _, h => by
    rw [Element.needs] at h
    rw [Element.checkShape, Element.checkShape, Element.checkShapes_congr items h]
  | .negated inner, h | .repeater inner _, h => by
    rw [Element.needs] at h
    rw [Element.checkShape, Element.checkShape, Element.checkShape_congr inner h]

/-- What is found wrong with shapes of syllables depends on the names they need. -/
theorem Element.checkShapes_congr :
    (items : List Element) → AgreeOn (Element.allNeeds items) follow follow' →
      Element.checkShapes inv follow items = Element.checkShapes inv follow' items
  | [], _ => by rw [Element.checkShapes, Element.checkShapes]
  | e :: rest, h => by
    rw [Element.allNeeds] at h
    rw [Element.checkShapes, Element.checkShapes, Element.checkShape_congr e h.left,
      Element.checkShapes_congr rest h.right]

end

mutual

/-- What is found wrong with an output depends on the names it needs. -/
theorem Element.checkOutput_congr :
    (e : Element) → AgreeOn e.needs follow follow' →
      e.checkOutput inv follow = e.checkOutput inv follow'
  | .empty, _ | .text _ _, _ | .matrix _, _ | .betweenWords, _ | .syllableBoundary, _
  | .anySyllable, _ | .captureReference _ true, _ | .captureReference _ false, _
  | .wordBoundary, _ | .negated _, _ | .repeater _ _, _ | .capture _ _, _
  | .lookaround _ _ _, _ => by rw [Element.checkOutput, Element.checkOutput]
  | .reference name, h => by
    rw [Element.needs] at h
    rw [Element.checkOutput, Element.checkOutput, h name List.mem_cons_self]
  | .sequence items, h | .alternative items, h | .joined items _, h => by
    rw [Element.needs] at h
    rw [Element.checkOutput, Element.checkOutput, Element.checkOutputs_congr items h]

/-- What is found wrong with outputs depends on the names they need. -/
theorem Element.checkOutputs_congr :
    (items : List Element) → AgreeOn (Element.allNeeds items) follow follow' →
      Element.checkOutputs inv follow items = Element.checkOutputs inv follow' items
  | [], _ => by rw [Element.checkOutputs, Element.checkOutputs]
  | e :: rest, h => by
    rw [Element.allNeeds] at h
    rw [Element.checkOutputs, Element.checkOutputs, Element.checkOutput_congr e h.left,
      Element.checkOutputs_congr rest h.right]

end

end Checking

/-- A literal needs no names. -/
theorem Element.needs_of_isLiteral {e : Element} (h : e.isLiteral) : e.needs = [] := by
  cases e with
  | text literal exact => rw [Element.needs] <;> simp
  | _ => cases h

namespace Scope

section LookUp

variable (missing : String → α) (ofClass : List α → α) (visit : (String → α) → Element → α)

/-- What a name comes to when it is looked up among all declarations, and the names in what it
stands for are followed in some way. -/
def lookUp (s : Scope) (follow : String → α) (name : String) : α :=
  match s.find? (·.name == name) with
  | none => missing name
  | some (.soundClass _ members) => ofClass (members.map (visit follow))
  | some (.element _ body) => visit follow body

variable {s t : Scope}

/-- A declaration is found under its name wherever the scope has grown to. -/
theorem GrowsTo.find?_eq {d : Declared} (h : GrowsTo (d :: s) t) :
    t.find? (·.name == d.name) = some d := by
  obtain ⟨newer, rfl, hnewer⟩ := h
  have hnone : newer.find? (·.name == d.name) = none := by
    refine List.find?_eq_none.mpr fun other hother heq ↦ ?_
    have hnew := hnewer other hother
    simp [declares, eq_of_beq heq] at hnew
  simp [List.find?_append, hnone]

variable {visit}

/-- Look-ups in a larger scope give what a name is resolved to, if there are as many inside one
another as names up to it. -/
theorem WellFormed.iterate_lookUp_apply (ht : t.WellFormed) (hgrows : t.GrowsTo s)
    (hvisit : FollowsNeeds visit) {n : Nat} (hn : t.length ≤ n) (base : String → α) {name : String}
    (hname : t.declares name) :
    (s.lookUp missing ofClass visit)^[n] base name = t.resolve missing ofClass visit name := by
  induction ht generalizing n name with
  | nil => simp [declares] at hname
  | @cons rest d _ hnew hd ih =>
    have hrest : rest.GrowsTo s := .trans (.cons hnew) hgrows
    rw [List.length_cons] at hn
    by_cases hown : d.name = name
    · obtain ⟨m, rfl⟩ : ∃ m, n = m + 1 := ⟨n - 1, by omega⟩
      subst hown
      rw [Function.iterate_succ_apply', lookUp, hgrows.find?_eq]
      cases d with
      | soundClass own members =>
        refine Eq.trans (congrArg ofClass ?_) (if_pos rfl).symm
        refine List.map_congr_left fun e he ↦ hvisit e _ _ ?_
        simp [AgreeOn, Element.needs_of_isLiteral (hd e he)]
      | element own body =>
        refine Eq.trans (hvisit body _ _ fun needed hneeded ↦ ?_) (if_pos rfl).symm
        exact ih hrest (by omega) (hd needed hneeded)
    · rw [resolve_cons_of_ne missing ofClass visit rest hown]
      refine ih hrest (by omega) ?_
      simpa [declares, hown] using hname

/-- One look-up more than there are declarations is enough, whatever is put in for the names at the
bottom. -/
theorem WellFormed.iterate_lookUp (hs : s.WellFormed) (hvisit : FollowsNeeds visit) {n : Nat}
    (hn : s.length < n) (base : String → α) :
    (s.lookUp missing ofClass visit)^[n] base = s.resolve missing ofClass visit := by
  funext name
  cases hname : s.declares name with
  | true =>
    exact hs.iterate_lookUp_apply missing ofClass (.refl s) hvisit (Nat.le_of_lt hn) base hname
  | false =>
    obtain ⟨m, rfl⟩ : ∃ m, n = m + 1 := ⟨n - 1, by omega⟩
    have hnone : s.find? (·.name == name) = none := by simpa [declares] using hname
    rw [resolve_of_not_declares missing ofClass visit hname, Function.iterate_succ_apply', lookUp,
      hnone]

end LookUp

/-- Whether look-ups inside one another, as many as a number, give everything that is linked and
checked of names, whatever is put in for the names at the bottom. -/
structure SettlesIn (s : Scope) (n : Nat) : Prop where
  /-- The patterns of names. -/
  followPattern : ∀ lang base,
    (s.lookUp (fun name _ ↦ throw (unknown name))
      (fun members place ↦ return .alternative (← members.mapM fun member ↦ member place))
      fun follow body place ↦ body.pattern lang follow place)^[n] base = s.followPattern lang
  /-- The outputs of names. -/
  followOutput : ∀ lang base,
    (s.lookUp (fun name ↦ throw (unknown name))
      (fun members ↦ return .alternative (← members.mapM id))
      fun follow body ↦ body.output lang follow)^[n] base = s.followOutput lang
  /-- What is checked of names in environments. -/
  followSide : ∀ inv base,
    (s.lookUp (fun name _ _ ↦ throw (unknown name)) (fun _ _ _ ↦ return ())
      fun follow body edge env ↦ body.checkSide inv follow edge env)^[n] base = s.followSide inv
  /-- What is checked of names in the patterns of a part of a rule. -/
  checkInput : ∀ inv part base,
    let visit (follow : String → Except Fault Unit) (body : Element) :=
      body.checkInput inv (s.followSide inv) follow part
    (s.lookUp (fun name ↦ throw (unknown name)) (fun _ ↦ return ()) visit)^[n] base =
      s.follow visit
  /-- What is checked of names in shapes of syllables. -/
  checkShape : ∀ inv base,
    let visit (follow : String → Except Fault Unit) (body : Element) := body.checkShape inv follow
    (s.lookUp (fun name ↦ throw (unknown name)) (fun _ ↦ return ()) visit)^[n] base =
      s.follow visit
  /-- What is checked of names in outputs. -/
  checkOutput : ∀ inv base,
    let visit (follow : String → Except Fault Unit) (body : Element) := body.checkOutput inv follow
    (s.lookUp (fun name ↦ throw (unknown name)) (fun _ ↦ return ()) visit)^[n] base =
      s.follow visit

/-- One look-up more than there are declarations settles a well-formed scope. -/
theorem WellFormed.settlesIn {s : Scope} (hs : s.WellFormed) {n : Nat} (hn : s.length < n) :
    s.SettlesIn n where
  followPattern _ base := hs.iterate_lookUp _ _
    (fun body _ _ h ↦ funext fun place ↦ body.pattern_congr place h) hn base
  followOutput _ base := hs.iterate_lookUp _ _ (fun body _ _ h ↦ body.output_congr h) hn base
  followSide _ base := hs.iterate_lookUp _ _
    (fun body _ _ h ↦ funext fun edge ↦ funext fun env ↦ body.checkSide_congr edge env h) hn base
  checkInput _ _ base :=
    hs.iterate_lookUp _ _ (fun body _ _ h ↦ body.checkInput_congr h) hn base
  checkShape _ base := hs.iterate_lookUp _ _ (fun body _ _ h ↦ body.checkShape_congr h) hn base
  checkOutput _ base := hs.iterate_lookUp _ _ (fun body _ _ h ↦ body.checkOutput_congr h) hn base

end Scope

/-! ### References -/

section References

/-- A deferred rule that is found is not on the trail. -/
theorem not_mem_of_findDeferred {deferred : List RuleDeclaration} {trail : List String}
    {name : String} {r : RuleDeclaration} (h : findDeferred deferred trail name = .ok r) :
    r.name ∉ trail := by
  have hname : r.name = name := by simpa using List.find?_some (find?_of_findDeferred h)
  intro hmem
  rw [findDeferred, if_pos (by simpa [← hname] using hmem)] at h
  cases h

/-- Whether references are linked alike at the end of a trail. -/
structure References.AgreeAt (trail : List String) (references references' : References) :
    Prop where
  /-- A deferred rule by itself. -/
  asRule : ∀ filter name,
    references.asRule trail filter name = references'.asRule trail filter name
  /-- The expressions of a deferred rule. -/
  inlined : ∀ rule number name,
    references.inlined trail rule number name = references'.inlined trail rule number name

section Congruence

variable {c : RuleScope} {references : References}
  (h : c.references.AgreeAt c.trail references)
include h

/-- Only the references at the end of the trail of a list of expressions are linked in it. -/
theorem RuleScope.expressions_congr (number : Nat) (items : List Item) :
    c.expressions number items = { c with references }.expressions number items := by
  induction items generalizing number with
  | nil => rfl
  | cons item rest ih =>
    cases item with
    | expression e => simp only [expressions, ih]
    | reference name => simp only [expressions, h.inlined, ih]

omit h in
mutual

/-- Only the references at the end of the trail of a body are linked in it. -/
theorem Body.link_congr (h : c.references.AgreeAt c.trail references) (modifiers : Modifiers)
    (filter : Option Pattern) (number : Nat) : (body : Body) →
      body.link c modifiers filter number = body.link { c with references } modifiers filter number
  | .expressions items => by
    unfold Body.link
    split
    · rw [h.asRule]
    · rw [RuleScope.expressions_congr h]
    · contradiction
  | .block children _ => by
    rw [Body.link, Body.link, Child.linkAll_congr h filter number children]

/-- Only the references at the end of the trail of children are linked in them. -/
theorem Child.linkAll_congr (h : c.references.AgreeAt c.trail references)
    (filter : Option Pattern) (number : Nat) : (children : List Child) →
      Child.linkAll c filter number children =
        Child.linkAll { c with references } filter number children
  | [] => by rw [Child.linkAll, Child.linkAll]
  | .mk body modifiers :: rest => by
    have hbody (own : Option Pattern) := Body.link_congr h modifiers own number body
    have hrest (number : Nat) := Child.linkAll_congr h filter number rest
    simp only [Child.linkAll, hbody, hrest]
    rfl

end

/-- Only the references at the end of the trail of a rule are linked in it. -/
theorem RuleDeclaration.linkBody_congr (inherited : Option Pattern) (r : RuleDeclaration) :
    r.linkBody c inherited = r.linkBody { c with references } inherited := by
  simp only [linkBody, Body.link_congr h]
  rfl

end Congruence

namespace References

variable (lang : Language) (names : Scope) (deferred : List RuleDeclaration)

/-- How references are linked if those in the rules that they stand for are linked in some way. -/
def step (references : References) : References where
  asRule trail filter name := do
    let r ← findDeferred deferred trail name
    r.linkBody ⟨lang, names, references, r.name, r.name :: trail⟩ filter
  inlined trail rule number name := do
    let r ← findDeferred deferred trail name
    match r.body with
    | .expressions items =>
      RuleScope.expressions ⟨lang, names, references, rule, r.name :: trail⟩ number items
    | .block .. => throw (illegalReference "A block reference among other expressions" name)

/-- How many deferred rules are not on a trail. -/
def offTrail (trail : List String) : Nat :=
  (deferred.filter fun r ↦ !trail.contains r.name).length

variable {deferred} in
/-- Every step leaves fewer deferred rules off the trail. -/
theorem offTrail_cons_lt {trail : List String} {name : String} {r : RuleDeclaration}
    (h : findDeferred deferred trail name = .ok r) :
    offTrail deferred (r.name :: trail) < offTrail deferred trail := by
  have hsplit : (deferred.filter fun d ↦ !(r.name :: trail).contains d.name) =
      (deferred.filter fun d ↦ !trail.contains d.name).filter (·.name ≠ r.name) := by
    rw [List.filter_filter]
    refine List.filter_congr fun d _ ↦ ?_
    simp
  rw [offTrail, hsplit]
  refine List.length_filter_lt_length_iff_exists.mpr ⟨r, ?_, by simp⟩
  refine List.mem_filter.mpr ⟨List.mem_of_find?_eq_some (find?_of_findDeferred h), ?_⟩
  simpa using not_mem_of_findDeferred h

/-- References followed as far as deferred rules are off the trail are linked as by any number of
steps greater than that, whatever is put in at the bottom. -/
theorem within_agreeAt (base : References) {n m : Nat} {trail : List String}
    (hn : offTrail deferred trail ≤ n) (hm : offTrail deferred trail < m) :
    (within lang names deferred n).AgreeAt trail ((step lang names deferred)^[m] base) := by
  obtain ⟨m, rfl⟩ : ∃ k, m = k + 1 := ⟨m - 1, by omega⟩
  rw [Function.iterate_succ_apply']
  induction n generalizing m trail with
  | zero =>
    -- No deferred rule is off the trail, so every reference is refused.
    have hrefused (name : String) : ∃ fault, findDeferred deferred trail name = .error fault := by
      cases hfind : findDeferred deferred trail name with
      | error fault => exact ⟨fault, rfl⟩
      | ok r => have := offTrail_cons_lt hfind; omega
    constructor
    · intro filter name
      obtain ⟨fault, hfault⟩ := hrefused name
      simp only [within, step, hfault]
      rfl
    · intro rule number name
      obtain ⟨fault, hfault⟩ := hrefused name
      simp only [within, step, hfault]
      rfl
  | succ n ih =>
    have hrest {name : String} {r : RuleDeclaration}
        (hfind : findDeferred deferred trail name = .ok r) :
        (within lang names deferred n).AgreeAt (r.name :: trail)
          ((step lang names deferred)^[m] base) := by
      have hlt := offTrail_cons_lt hfind
      obtain ⟨k, rfl⟩ : ∃ k, m = k + 1 := ⟨m - 1, by omega⟩
      rw [Function.iterate_succ_apply']
      exact ih (by omega) k (by omega)
    constructor
    · intro filter name
      show (findDeferred deferred trail name >>= _) = (findDeferred deferred trail name >>= _)
      cases hfind : findDeferred deferred trail name with
      | error fault => rfl
      | ok r => exact RuleDeclaration.linkBody_congr (hrest hfind) filter r
    · intro rule number name
      show (findDeferred deferred trail name >>= _) = (findDeferred deferred trail name >>= _)
      cases hfind : findDeferred deferred trail name with
      | error fault => rfl
      | ok r =>
        simp only [bind, Except.bind]
        cases r.body with
        | expressions items => exact RuleScope.expressions_congr (hrest hfind) number items
        | block children operators => rfl

/-- One step more than there are deferred rules links all references, whatever is put in at the
bottom. -/
theorem iterate_step {m : Nat} (hm : deferred.length < m) (base : References) :
    (step lang names deferred)^[m] base = of lang names deferred := by
  have hagree (trail : List String) : (of lang names deferred).AgreeAt trail
      ((step lang names deferred)^[m] base) := by
    have hle : offTrail deferred trail ≤ deferred.length := List.length_filter_le _ _
    exact within_agreeAt lang names deferred base hle (by omega)
  refine congrArg₂ References.mk ?_ ?_
  · funext trail filter name
    exact ((hagree trail).asRule filter name).symm
  · funext trail rule number name
    exact ((hagree trail).inlined rule number name).symm

/-- References are linked with themselves for those in the rules that they stand for. -/
theorem step_of : step lang names deferred (of lang names deferred) = of lang names deferred := by
  have hlast := iterate_step lang names deferred (m := deferred.length + 2) (by omega)
    (of lang names deferred)
  rwa [Function.iterate_succ_apply', iterate_step lang names deferred (by omega)] at hlast

end References

end References

end Diachrony.Syntax
