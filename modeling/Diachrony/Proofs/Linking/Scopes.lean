import Diachrony.Linking.Rule
import Diachrony.Proofs.Agreement
import Diachrony.Proofs.Linking.Checking

/-!
# Scopes that grow

Between two places of an accepted program names are declared, and none of them twice. So a name that
is known at the first place stands for the same thing at the second, and what can be linked at the
first place is linked alike at the second: patterns, surroundings, outputs, expressions and filters.
-/

namespace Diachrony.Syntax

namespace Scope

/-- Whether one scope comes from another by declarations of names that the other does not have. -/
def GrowsTo (s t : Scope) : Prop :=
  ∃ newer : Scope, t = newer ++ s ∧ ∀ d ∈ newer, s.declares d.name = false

namespace GrowsTo

variable {s t u : Scope}

/-- Without new declarations a scope stays as it is. -/
theorem refl (s : Scope) : s.GrowsTo s := ⟨[], rfl, fun _ h ↦ nomatch h⟩

/-- A scope that has grown may grow on. -/
theorem trans (h : s.GrowsTo t) (h' : t.GrowsTo u) : s.GrowsTo u := by
  obtain ⟨newer, rfl, hnewer⟩ := h
  obtain ⟨newest, rfl, hnewest⟩ := h'
  refine ⟨newest ++ newer, (List.append_assoc _ _ _).symm, List.forall_mem_append.mpr ⟨?_, hnewer⟩⟩
  intro d hd
  have hnew := hnewest d hd
  rw [declares, List.any_append, Bool.or_eq_false_iff] at hnew
  exact hnew.2

end GrowsTo

section Resolving

variable {α : Type} (missing : String → α) (ofClass : List α → α)
  (visit : (String → α) → Element → α)

/-- A declaration of another name does not change what a name stands for. -/
theorem resolve_cons_of_ne (s : Scope) {d : Declared} {name : String} (h : d.name ≠ name) :
    resolve missing ofClass visit (d :: s) name = s.resolve missing ofClass visit name := by
  cases d with
  | soundClass n members => exact if_neg h
  | element n body => exact if_neg h

/-- Declarations of other names do not change what a name stands for. -/
theorem resolve_append (s : Scope) {newer : Scope} {name : String}
    (h : ∀ d ∈ newer, d.name ≠ name) :
    resolve missing ofClass visit (newer ++ s) name = s.resolve missing ofClass visit name := by
  induction newer with
  | nil => rfl
  | cons d rest ih =>
    rw [List.forall_mem_cons] at h
    rw [List.cons_append, resolve_cons_of_ne missing ofClass visit _ h.1, ih h.2]

/-- A name that is not declared is missing. -/
theorem resolve_of_not_declares {s : Scope} {name : String} (h : s.declares name = false) :
    s.resolve missing ofClass visit name = missing name := by
  have hnames : ∀ d ∈ s, d.name ≠ name := by simpa [declares] using h
  have hresolve := resolve_append missing ofClass visit [] hnames
  rwa [List.append_nil] at hresolve

/-- A name that is declared stands for the same thing in a scope that has grown. -/
theorem GrowsTo.resolve_of_declares {s t : Scope} (h : s.GrowsTo t) {name : String}
    (hdeclared : s.declares name) :
    t.resolve missing ofClass visit name = s.resolve missing ofClass visit name := by
  obtain ⟨newer, rfl, hnewer⟩ := h
  refine resolve_append missing ofClass visit s fun d hd heq ↦ ?_
  rw [← heq, hnewer d hd] at hdeclared
  cases hdeclared

/-- A name stands for the same thing in a scope that has grown, if it stood for anything. -/
theorem GrowsTo.resolve {s t : Scope} (h : s.GrowsTo t) (name : String) :
    t.resolve missing ofClass visit name = s.resolve missing ofClass visit name ∨
      s.resolve missing ofClass visit name = missing name := by
  cases hdeclared : s.declares name with
  | false => exact .inr (resolve_of_not_declares missing ofClass visit hdeclared)
  | true => exact .inl (h.resolve_of_declares missing ofClass visit hdeclared)

variable {missing ofClass visit} in
/-- What two ways of resolving names make of a name is related if it is for names that are missing,
for classes, and for elements in which names are followed in related ways. -/
theorem resolve_related {β : Type} {missing' : String → β} {ofClass' : List β → β}
    {visit' : (String → β) → Element → β} {r : α → β → Prop} {s : Scope}
    (hmissing : ∀ name, r (missing name) (missing' name))
    (hclass : ∀ name members, .soundClass name members ∈ s → ∀ follow follow',
      (∀ n, r (follow n) (follow' n)) →
        r (ofClass (members.map (visit follow))) (ofClass' (members.map (visit' follow'))))
    (helement : ∀ name body, .element name body ∈ s → ∀ follow follow',
      (∀ n, r (follow n) (follow' n)) → r (visit follow body) (visit' follow' body))
    (name : String) :
    r (s.resolve missing ofClass visit name) (s.resolve missing' ofClass' visit' name) := by
  induction s generalizing name with
  | nil => exact hmissing name
  | cons d rest ih =>
    have hrest := ih (fun n members h ↦ hclass n members (List.mem_cons_of_mem _ h))
      fun n body h ↦ helement n body (List.mem_cons_of_mem _ h)
    cases d with
    | soundClass n members =>
      rw [resolve, resolve]
      split
      · exact hclass n members List.mem_cons_self _ _ hrest
      · exact hrest name
    | element n body =>
      rw [resolve, resolve]
      split
      · exact helement n body List.mem_cons_self _ _ hrest
      · exact hrest name

end Resolving

end Scope

/-- A statement that is accepted gives names that were not given before. -/
theorem Checked.growsTo_of_statement {inv : Inventory} {deferred : List String} {c c' : Checked}
    {s : Statement} (h : c.statement inv deferred s = .ok c') :
    c'.scope = c.scope.after s ∧ c.scope.GrowsTo c'.scope := by
  cases accepts_iff.mp h with
  | soundClass hnew _ | element hnew _ =>
    exact ⟨rfl, [_], rfl, List.forall_mem_singleton.mpr hnew⟩
  | shapes _ | clear | explicit | rule _ _ _ | cleanupOff _ | romanizer _ _ => exact ⟨rfl, .refl _⟩

section Elements

mutual

/-- The pattern of an element persists if its names stand for the same patterns. -/
theorem Element.pattern_persists {lang : Language} {follow follow' : FollowPattern}
    (h : ∀ name place, Persists (follow name place) (follow' name place)) (place : Place) :
    (e : Element) → Persists (e.pattern lang follow place) (e.pattern lang follow' place)
  | .empty | .text _ _ | .matrix _ | .betweenWords | .syllableBoundary | .anySyllable
  | .captureReference _ _ => by
    rw [Element.pattern, Element.pattern]
    exact .refl _
  | .reference name => by
    rw [Element.pattern, Element.pattern]
    exact h name place
  | .wordBoundary => by
    cases place <;> rw [Element.pattern, Element.pattern] <;> exact .refl _
  | .sequence items | .alternative items => by
    rw [Element.pattern, Element.pattern]
    exact (Element.patterns_persists h place items).bind fun _ ↦ .refl _
  | .joined elements joints => by
    cases elements with
    | nil =>
      rw [Element.pattern, Element.pattern]
      exact .refl _
    | cons initial rest =>
      rw [Element.pattern, Element.pattern]
      refine .ite .rfl .error ?_
      refine (Element.checks_persists h place rest joints).bind fun _ ↦ ?_
      exact (Element.pattern_persists h place initial).bind fun _ ↦ .refl _
  | .negated inner | .repeater inner _ | .capture inner _ => by
    rw [Element.pattern, Element.pattern]
    exact (Element.pattern_persists h place inner).bind fun _ ↦ .refl _
  | .lookaround inner conditions exclusions => by
    rw [Element.pattern, Element.pattern]
    refine (Environment.surroundings_persists h conditions).bind fun _ ↦ ?_
    refine (Environment.surroundings_persists h exclusions).bind fun _ ↦ ?_
    exact (Element.pattern_persists h place inner).bind fun _ ↦ .refl _

/-- The patterns of elements persist. -/
theorem Element.patterns_persists {lang : Language} {follow follow' : FollowPattern}
    (h : ∀ name place, Persists (follow name place) (follow' name place)) (place : Place) :
    (items : List Element) →
      Persists (Element.patterns lang follow place items)
        (Element.patterns lang follow' place items)
  | [] => by
    rw [Element.patterns, Element.patterns]
    exact .refl _
  | e :: rest => by
    rw [Element.patterns, Element.patterns]
    refine (Element.pattern_persists h place e).bind fun _ ↦ ?_
    exact (Element.patterns_persists h place rest).bind fun _ ↦ .refl _

/-- The checks that elements are persist. -/
theorem Element.checks_persists {lang : Language} {follow follow' : FollowPattern}
    (h : ∀ name place, Persists (follow name place) (follow' name place)) (place : Place) :
    (items : List Element) → (joints : List Joint) →
      Persists (Element.checks lang follow place items joints)
        (Element.checks lang follow' place items joints)
  | [], _ => by
    rw [Element.checks, Element.checks]
    · exact .refl _
    all_goals simp
  | _ :: _, [] => by
    rw [Element.checks, Element.checks]
    · exact .refl _
    all_goals simp
  | e :: rest, joint :: joints => by
    rw [Element.checks, Element.checks]
    refine (Element.pattern_persists h place e).bind fun _ ↦ ?_
    exact (Element.checks_persists h place rest joints).bind fun _ ↦ .refl _

/-- The surroundings that environments are persist. -/
theorem Environment.surroundings_persists {lang : Language} {follow follow' : FollowPattern}
    (h : ∀ name place, Persists (follow name place) (follow' name place)) :
    (environments : List Environment) →
      Persists (Environment.surroundings lang follow environments)
        (Environment.surroundings lang follow' environments)
  | [] => by
    rw [Environment.surroundings, Environment.surroundings]
    exact .refl _
  | .mk none none :: rest => by
    rw [Environment.surroundings, Environment.surroundings]
    exact (Environment.surroundings_persists h rest).bind fun _ ↦ .refl _
  | .mk (some before) none :: rest => by
    rw [Environment.surroundings, Environment.surroundings]
    refine (Element.pattern_persists h .before before).bind fun _ ↦ ?_
    exact (Environment.surroundings_persists h rest).bind fun _ ↦ .refl _
  | .mk none (some after) :: rest => by
    rw [Environment.surroundings, Environment.surroundings]
    refine (Element.pattern_persists h .after after).bind fun _ ↦ ?_
    exact (Environment.surroundings_persists h rest).bind fun _ ↦ .refl _
  | .mk (some before) (some after) :: rest => by
    rw [Environment.surroundings, Environment.surroundings]
    refine (Element.pattern_persists h .before before).bind fun _ ↦ ?_
    refine (Element.pattern_persists h .after after).bind fun _ ↦ ?_
    exact (Environment.surroundings_persists h rest).bind fun _ ↦ .refl _

end

mutual

/-- The output of an element persists if its names stand for the same outputs. -/
theorem Element.output_persists {lang : Language} {follow follow' : FollowOutput}
    (h : ∀ name, Persists (follow name) (follow' name)) :
    (e : Element) → Persists (e.output lang follow) (e.output lang follow')
  | .empty | .text _ _ | .matrix _ | .betweenWords | .syllableBoundary | .anySyllable
  | .captureReference _ true | .captureReference _ false | .wordBoundary | .negated _
  | .repeater _ _ | .capture _ _ | .lookaround _ _ _ => by
    rw [Element.output, Element.output]
    exact .refl _
  | .reference name => by
    rw [Element.output, Element.output]
    exact h name
  | .sequence items | .alternative items => by
    rw [Element.output, Element.output]
    exact (Element.outputs_persists h items).bind fun _ ↦ .refl _
  | .joined elements joints => by
    cases elements with
    | nil =>
      rw [Element.output, Element.output]
      exact .refl _
    | cons initial rest =>
      rw [Element.output, Element.output]
      refine .ite .rfl .error ?_
      refine (Element.output_persists h initial).bind fun _ ↦ ?_
      exact (Element.outputs_persists h rest).bind fun _ ↦ .refl _

/-- The outputs of elements persist. -/
theorem Element.outputs_persists {lang : Language} {follow follow' : FollowOutput}
    (h : ∀ name, Persists (follow name) (follow' name)) :
    (items : List Element) →
      Persists (Element.outputs lang follow items) (Element.outputs lang follow' items)
  | [] => by
    rw [Element.outputs, Element.outputs]
    exact .refl _
  | e :: rest => by
    rw [Element.outputs, Element.outputs]
    refine (Element.output_persists h e).bind fun _ ↦ ?_
    exact (Element.outputs_persists h rest).bind fun _ ↦ .refl _

end

end Elements

namespace Scope.GrowsTo

variable {s t : Scope} (h : s.GrowsTo t) (lang : Language)
include h

/-- The pattern of a name stays the same in a scope that has grown. -/
theorem followPattern_persists (name : String) (place : Place) :
    Persists (s.followPattern lang name place) (t.followPattern lang name place) := by
  simp only [followPattern]
  rcases h.resolve (α := Place → Except Fault Pattern) _ _ _ name with heq | hmissing
  · rw [heq]
    exact .refl _
  · rw [hmissing]
    exact .error

/-- The pattern of an element stays the same in a scope that has grown. -/
theorem pattern_persists (place : Place) (e : Element) :
    Persists (s.pattern lang place e) (t.pattern lang place e) :=
  e.pattern_persists (h.followPattern_persists lang) place

/-- The surroundings of a context stay the same in a scope that has grown. -/
theorem surroundings_persists (c : Context) :
    Persists (s.surroundings lang c) (t.surroundings lang c) := by
  have hfollow := h.followPattern_persists lang
  refine (Environment.surroundings_persists hfollow c.conditions).bind fun _ ↦ ?_
  exact (Environment.surroundings_persists hfollow c.exclusions).bind fun _ ↦ .refl _

/-- The output of an element stays the same in a scope that has grown. -/
theorem output_persists (e : Element) : Persists (s.output lang e) (t.output lang e) := by
  refine e.output_persists fun name ↦ ?_
  simp only [followOutput]
  rcases h.resolve (α := Except Fault Output) _ _ _ name with heq | hmissing
  · rw [heq]
    exact .refl _
  · rw [hmissing]
    exact .error

/-- An expression is linked alike in a scope that has grown. -/
theorem expression_persists (e : Expression) :
    Persists (s.expression lang e) (t.expression lang e) := by
  refine (h.pattern_persists lang .input e.source).bind fun _ ↦ ?_
  refine (h.output_persists lang e.target).bind fun _ ↦ ?_
  refine (Persists.refl _).bind fun _ ↦ ?_
  exact (h.surroundings_persists lang e.context).bind fun _ ↦ .refl _

end Scope.GrowsTo

end Diachrony.Syntax
