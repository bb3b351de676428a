import Diachrony.Proofs.Linking.Lockstep

/-!
# Children as rules of a program

The children of a block may stand in a program by themselves, one rule after the other. Without
cleanup rules they ask for one move each, which makes what the child makes.
-/

namespace Diachrony

namespace Syntax

/-- The ordinary rule that a child is by itself. -/
def Child.asRule (name : String) : Child → RuleDeclaration
  | .mk body modifiers => { name, body, modifiers }

/-- Children as rules one after the other, under the names from a number on. -/
def Child.asRules (names : Nat → String) : Nat → List Child → List Statement
  | _, [] => []
  | n, child :: rest => .rule (child.asRule (names n)) :: asRules names (n + 1) rest

/-- Rules of a program divide no words. -/
theorem Child.isSyllables_asRules (names : Nat → String) (n : Nat) (children : List Child) :
    ∀ s ∈ asRules names n children, s.isSyllables = false := by
  induction children generalizing n with
  | nil => exact List.forall_mem_nil _
  | cons child rest ih => exact List.forall_mem_cons.mpr ⟨rfl, ih (n + 1)⟩

/-- Children as rules are no deferred rules. -/
theorem Child.filterMap_deferredOf?_asRules (names : Nat → String) (n : Nat)
    (children : List Child) : (asRules names n children).filterMap Program.deferredOf? = [] := by
  induction children generalizing n with
  | nil => rfl
  | cons child rest ih =>
    cases child
    exact ih (n + 1)

namespace Linked

variable (l : Linked)

/-- Adds rules one after the other. -/
def withRules (rules : List NamedRule) : Linked := rules.foldl withRule l

/-- Rules give no names. -/
theorem names_withRules (rules : List NamedRule) : (l.withRules rules).names = l.names := by
  induction rules generalizing l with
  | nil => rfl
  | cons rule rest ih => exact ih (l.withRule rule)

/-- What is in force does not change with rules. -/
theorem regime_withRules (r : Regime) (rules : List NamedRule) :
    (l.withRules rules).regime r = l.regime r := by
  induction rules generalizing l with
  | nil => rfl
  | cons rule rest ih => exact (ih (l.withRule rule)).trans (l.regime_withRule r rule)

/-- Without cleanup rules, rules ask for themselves one after the other. -/
theorem moves_withRules {romanize : Bool} {r : Regime} (h : r.started)
    (hcleanups : (l.regime r).cleanups = []) (rules : List NamedRule) :
    (l.withRules rules).moves romanize r =
      l.moves romanize r ++ rules.map (.apply (l.regime r).language) := by
  induction rules generalizing l with
  | nil => exact (List.append_nil _).symm
  | cons rule rest ih =>
    have hregime := l.regime_withRule r rule
    refine (ih (l.withRule rule) (by rw [hregime, hcleanups])).trans ?_
    rw [moves_withRule l romanize h, hregime, hcleanups]
    simp

variable {l} {base : Language}

/-- Rules keep the language. -/
theorem Keeps.withRules (h : l.Keeps base) (rules : List NamedRule) :
    (l.withRules rules).Keeps base := by
  induction rules generalizing l with
  | nil => exact h
  | cons rule rest ih => exact ih (h.withRule rule)

end Linked

variable {base : Language} {deferred : List RuleDeclaration} {l l' : Linked}

/-- Linked children are linked one by one, behind some number of expressions each. -/
theorem Child.forall₂_of_linkAll {c : RuleScope} {filter : Option Pattern} {number : Nat}
    {children : List Child} {linked : List Rule × Nat}
    (h : Child.linkAll c filter number children = .ok linked) :
    List.Forall₂ (fun child rule ↦ ∃ n m, child.link c filter n = .ok (rule, m)) children
      linked.1 := by
  induction children generalizing number linked with
  | nil =>
    cases h
    exact .nil
  | cons child rest ih =>
    rw [linkAll_cons] at h
    obtain ⟨⟨rule, m⟩, hrule, h⟩ := exists_of_bind_eq_ok h
    obtain ⟨others, hothers, h⟩ := exists_of_bind_eq_ok h
    cases h
    exact .cons ⟨number, m, hrule⟩ (ih hothers)

/-- Children as rules are linked one by one and added to the statements before them. -/
theorem Child.exists_of_asRules (h : l.Keeps base) {names : Nat → String} {n : Nat}
    {children : List Child}
    (hl : (asRules names n children).foldlM (Linked.statement base deferred) l = .ok l') :
    ∃ rules, l' = l.withRules rules ∧
      List.Forall₂ (fun child rule ↦ ∃ name,
        (child.asRule name).link base l.names deferred = .ok rule) children rules := by
  induction children generalizing n l with
  | nil =>
    cases hl
    exact ⟨[], rfl, .nil⟩
  | cons child rest ih =>
    obtain ⟨next, hnext, hl⟩ := Linked.exists_of_foldlM_cons hl
    obtain ⟨body, modifiers⟩ := child
    cases hnext with
    | deferred hdeferred => cases hdeferred
    | cleanup _ hcleanup _ => cases hcleanup
    | @rule _ rule _ _ hrule =>
      rw [h.language] at hrule
      obtain ⟨rules, rfl, hrules⟩ := ih (h.withRule rule) hl
      exact ⟨rule :: rules, rfl, .cons ⟨_, hrule⟩ hrules⟩

end Syntax

end Diachrony
