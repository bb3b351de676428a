import Diachrony.Syntax.Check
import Diachrony.Proofs.Ensures

/-!
# What elements need

An element needs the values of its matrices to be declared and its names to stand for something,
those in its environments included. Elements are checked for each part of a rule in its own way, but
an element that is accepted for any of them has what it needs.
-/

namespace Diachrony

namespace Syntax

/-- What an element needs to be known. -/
inductive Need where
  /-- The values and features of a matrix. -/
  | matrix (values : Matrix)
  /-- What a name stands for. -/
  | name (name : String)

/-- Whether a need is met where some names are known. -/
def Need.IsMet (inv : Inventory) (known : String → Prop) : Need → Prop
  | matrix values => inv.checkMatrix values = .ok ()
  | name n => known n

mutual

/-- What an element needs. -/
def Element.needs : Element → List Need
  | .matrix values => [.matrix values]
  | .reference name => [.name name]
  | .sequence items | .alternative items | .joined items _ => Element.allNeeds items
  | .negated inner | .repeater inner _ | .capture inner _ => inner.needs
  | .lookaround inner conditions exclusions =>
    inner.needs ++ Environment.allNeeds conditions ++ Environment.allNeeds exclusions
  | _ => []

/-- What elements need. -/
def Element.allNeeds : List Element → List Need
  | [] => []
  | e :: rest => e.needs ++ Element.allNeeds rest

/-- What environments need. -/
def Environment.allNeeds : List Environment → List Need
  | [] => []
  | .mk none none :: rest => Environment.allNeeds rest
  | .mk (some e) none :: rest | .mk none (some e) :: rest =>
    e.needs ++ Environment.allNeeds rest
  | .mk (some before) (some after) :: rest =>
    before.needs ++ after.needs ++ Environment.allNeeds rest

end

/-- What a context needs. -/
def Context.needs (c : Context) : List Need :=
  Environment.allNeeds c.conditions ++ Environment.allNeeds c.exclusions

/-- What an expression needs. -/
def Expression.needs (e : Expression) : List Need :=
  e.source.needs ++ e.target.needs ++ e.context.needs

section Checking

variable {inv : Inventory} {known : String → Prop}

section Names

variable {scope : Scope}

mutual

/-- The names of an element are declared if it is accepted as a named element. -/
theorem Element.declares_of_checkNames {name : String} :
    (e : Element) → e.checkNames scope = .ok () → .name name ∈ e.needs → scope.declares name
  | .matrix _, _, hname | .text _ _, _, hname | .empty, _, hname | .wordBoundary, _, hname
  | .betweenWords, _, hname | .syllableBoundary, _, hname | .anySyllable, _, hname
  | .captureReference _ _, _, hname => by simp [Element.needs] at hname
  | .reference _, h, hname => by
    rw [Element.checkNames] at h
    rw [Element.needs] at hname
    cases List.mem_singleton.mp hname
    split at h
    · next hdeclares => exact hdeclares
    · cases h
  | .sequence items, h, hname | .alternative items, h, hname | .joined items _, h, hname => by
    rw [Element.checkNames] at h
    rw [Element.needs] at hname
    exact Element.declares_of_checkAllNames items h hname
  | .negated inner, h, hname | .repeater inner _, h, hname | .capture inner _, h, hname => by
    rw [Element.checkNames] at h
    rw [Element.needs] at hname
    exact Element.declares_of_checkNames inner h hname
  | .lookaround inner conditions exclusions, h, hname => by
    rw [Element.checkNames] at h
    rw [Element.needs] at hname
    obtain ⟨⟨⟩, hinner, h⟩ := exists_of_bind_eq_ok h
    obtain ⟨⟨⟩, hconditions, hexclusions⟩ := exists_of_bind_eq_ok h
    rcases List.mem_append.mp hname with hname | hname
    · rcases List.mem_append.mp hname with hname | hname
      · exact Element.declares_of_checkNames inner hinner hname
      · exact Environment.declares_of_checkAllNames conditions hconditions hname
    · exact Environment.declares_of_checkAllNames exclusions hexclusions hname

/-- The names of elements are declared if they are accepted. -/
theorem Element.declares_of_checkAllNames {name : String} :
    (items : List Element) → Element.checkAllNames scope items = .ok () →
      .name name ∈ Element.allNeeds items → scope.declares name
  | [], _, hname => nomatch hname
  | e :: rest, h, hname => by
    rw [Element.checkAllNames] at h
    rw [Element.allNeeds] at hname
    obtain ⟨⟨⟩, hfirst, hrest⟩ := exists_of_bind_eq_ok h
    rcases List.mem_append.mp hname with hname | hname
    · exact Element.declares_of_checkNames e hfirst hname
    · exact Element.declares_of_checkAllNames rest hrest hname

/-- The names of environments are declared if they are accepted. -/
theorem Environment.declares_of_checkAllNames {name : String} :
    (environments : List Environment) → Environment.checkAllNames scope environments = .ok () →
      .name name ∈ Environment.allNeeds environments → scope.declares name
  | [], _, hname => nomatch hname
  | .mk none none :: rest, h, hname => by
    rw [Environment.checkAllNames] at h
    rw [Environment.allNeeds] at hname
    exact Environment.declares_of_checkAllNames rest h hname
  | .mk (some e) none :: rest, h, hname | .mk none (some e) :: rest, h, hname => by
    rw [Environment.checkAllNames] at h
    rw [Environment.allNeeds] at hname
    obtain ⟨⟨⟩, hside, hrest⟩ := exists_of_bind_eq_ok h
    rcases List.mem_append.mp hname with hname | hname
    · exact Element.declares_of_checkNames e hside hname
    · exact Environment.declares_of_checkAllNames rest hrest hname
  | .mk (some before) (some after) :: rest, h, hname => by
    rw [Environment.checkAllNames] at h
    rw [Environment.allNeeds] at hname
    obtain ⟨⟨⟩, hbefore, h⟩ := exists_of_bind_eq_ok h
    obtain ⟨⟨⟩, hafter, hrest⟩ := exists_of_bind_eq_ok h
    rcases List.mem_append.mp hname with hname | hname
    · rcases List.mem_append.mp hname with hname | hname
      · exact Element.declares_of_checkNames before hbefore hname
      · exact Element.declares_of_checkNames after hafter hname
    · exact Environment.declares_of_checkAllNames rest hrest hname

end

end Names

section Sides

variable {followSide : FollowSide}

mutual

/-- What an element needs is met if it is accepted in an environment. -/
theorem Element.needs_of_checkSide
    (hside : ∀ name edge env, followSide name edge env = .ok () → known name)
    {edge : Edge} {env : Environment} :
    (e : Element) → e.checkSide inv followSide edge env = .ok () →
      ∀ need ∈ e.needs, need.IsMet inv known
  | .text _ _, _ | .empty, _ | .wordBoundary, _ | .betweenWords, _ | .syllableBoundary, _
  | .anySyllable, _ | .captureReference _ _, _ => by
    intro need hneed
    simp [Element.needs] at hneed
  | .matrix values, h => by
    rw [Element.checkSide] at h
    rw [Element.needs]
    exact List.forall_mem_singleton.mpr h
  | .reference name, h => by
    rw [Element.checkSide] at h
    rw [Element.needs]
    exact List.forall_mem_singleton.mpr (hside name edge env h)
  | .sequence items, h => by
    rw [Element.checkSide] at h
    rw [Element.needs]
    exact Element.needs_of_checkSides hside items h
  | .alternative options, h => by
    rw [Element.checkSide] at h
    rw [Element.needs]
    exact Element.needs_of_checkEachSide hside options h
  | .repeater inner _, h => by
    rw [Element.checkSide] at h
    rw [Element.needs]
    split at h
    · cases h
    · exact Element.needs_of_checkSide hside inner h
  | .negated inner, h | .capture inner _, h => by
    rw [Element.checkSide] at h
    rw [Element.needs]
    exact Element.needs_of_checkSide hside inner h
  | .joined elements joints, h => by
    rw [Element.checkSide] at h
    rw [Element.needs]
    obtain ⟨⟨⟩, -, h⟩ := exists_of_bind_eq_ok h
    split at h
    · cases h
    · exact Element.needs_of_checkEachSide hside elements h
  | .lookaround inner conditions exclusions, h => by
    rw [Element.checkSide] at h
    rw [Element.needs]
    obtain ⟨⟨⟩, hinner, h⟩ := exists_of_bind_eq_ok h
    obtain ⟨⟨⟩, hconditions, hexclusions⟩ := exists_of_bind_eq_ok h
    refine List.forall_mem_append.mpr ⟨List.forall_mem_append.mpr ⟨?_, ?_⟩, ?_⟩
    · exact Element.needs_of_checkSide hside inner hinner
    · exact Environment.needs_of_checkAll hside conditions hconditions
    · exact Environment.needs_of_checkAll hside exclusions hexclusions

/-- What elements need is met if they are accepted one after the other. -/
theorem Element.needs_of_checkSides
    (hside : ∀ name edge env, followSide name edge env = .ok () → known name)
    {edge : Edge} {env : Environment} {isFirst : Bool} :
    (items : List Element) → Element.checkSides inv followSide edge env isFirst items = .ok () →
      ∀ need ∈ Element.allNeeds items, need.IsMet inv known
  | [], _ => List.forall_mem_nil _
  | e :: rest, h => by
    rw [Element.checkSides] at h
    rw [Element.allNeeds]
    obtain ⟨⟨⟩, hfirst, hrest⟩ := exists_of_bind_eq_ok h
    refine List.forall_mem_append.mpr ⟨?_, ?_⟩
    · exact Element.needs_of_checkSide hside e hfirst
    · exact Element.needs_of_checkSides hside rest hrest

/-- What elements need is met if they are accepted in one place. -/
theorem Element.needs_of_checkEachSide
    (hside : ∀ name edge env, followSide name edge env = .ok () → known name)
    {edge : Edge} {env : Environment} :
    (items : List Element) → Element.checkEachSide inv followSide edge env items = .ok () →
      ∀ need ∈ Element.allNeeds items, need.IsMet inv known
  | [], _ => List.forall_mem_nil _
  | e :: rest, h => by
    rw [Element.checkEachSide] at h
    rw [Element.allNeeds]
    obtain ⟨⟨⟩, hfirst, hrest⟩ := exists_of_bind_eq_ok h
    refine List.forall_mem_append.mpr ⟨?_, ?_⟩
    · exact Element.needs_of_checkSide hside e hfirst
    · exact Element.needs_of_checkEachSide hside rest hrest

/-- What environments need is met if they are accepted. -/
theorem Environment.needs_of_checkAll
    (hside : ∀ name edge env, followSide name edge env = .ok () → known name) :
    (environments : List Environment) →
      Environment.checkAll inv followSide environments = .ok () →
      ∀ need ∈ Environment.allNeeds environments, need.IsMet inv known
  | [], _ => List.forall_mem_nil _
  | .mk none none :: rest, h => by
    rw [Environment.checkAll] at h
    rw [Environment.allNeeds]
    exact Environment.needs_of_checkAll hside rest h
  | .mk (some e) none :: rest, h | .mk none (some e) :: rest, h => by
    rw [Environment.checkAll] at h
    rw [Environment.allNeeds]
    obtain ⟨⟨⟩, hfirst, hrest⟩ := exists_of_bind_eq_ok h
    refine List.forall_mem_append.mpr ⟨?_, ?_⟩
    · exact Element.needs_of_checkSide hside e hfirst
    · exact Environment.needs_of_checkAll hside rest hrest
  | .mk (some before) (some after) :: rest, h => by
    rw [Environment.checkAll] at h
    rw [Environment.allNeeds]
    obtain ⟨⟨⟩, hbefore, h⟩ := exists_of_bind_eq_ok h
    obtain ⟨⟨⟩, hafter, hrest⟩ := exists_of_bind_eq_ok h
    refine List.forall_mem_append.mpr ⟨List.forall_mem_append.mpr ⟨?_, ?_⟩, ?_⟩
    · exact Element.needs_of_checkSide hside before hbefore
    · exact Element.needs_of_checkSide hside after hafter
    · exact Environment.needs_of_checkAll hside rest hrest

end

end Sides

/-- What a context needs is met if it is accepted. -/
theorem Context.needs_of_check {scope : Scope}
    (hside : ∀ name edge env, scope.followSide inv name edge env = .ok () → known name)
    {c : Context} (h : c.check inv scope = .ok ()) : ∀ need ∈ c.needs, need.IsMet inv known := by
  obtain ⟨⟨⟩, hconditions, hexclusions⟩ := exists_of_bind_eq_ok h
  refine List.forall_mem_append.mpr ⟨?_, ?_⟩
  · exact Environment.needs_of_checkAll hside c.conditions hconditions
  · exact Environment.needs_of_checkAll hside c.exclusions hexclusions

section Parts

variable {follow : String → Except Fault Unit}

mutual

/-- What an element needs is met if it is accepted as a pattern. -/
theorem Element.needs_of_checkInput {followSide : FollowSide}
    (hside : ∀ name edge env, followSide name edge env = .ok () → known name)
    (hfollow : ∀ name, follow name = .ok () → known name) {part : RulePart} :
    (e : Element) → e.checkInput inv followSide follow part = .ok () →
      ∀ need ∈ e.needs, need.IsMet inv known
  | .text _ _, _ | .empty, _ | .wordBoundary, _ | .betweenWords, _ | .syllableBoundary, _
  | .anySyllable, _ | .captureReference _ _, _ => by
    intro need hneed
    simp [Element.needs] at hneed
  | .matrix values, h => by
    rw [Element.checkInput] at h
    rw [Element.needs]
    exact List.forall_mem_singleton.mpr h
  | .reference name, h => by
    rw [Element.checkInput] at h
    rw [Element.needs]
    exact List.forall_mem_singleton.mpr (hfollow name h)
  | .sequence items, h | .alternative items, h => by
    rw [Element.checkInput] at h
    rw [Element.needs]
    exact Element.needs_of_checkInputs hside hfollow items h
  | .repeater inner _, h => by
    rw [Element.checkInput] at h
    rw [Element.needs]
    split at h
    · cases h
    · exact Element.needs_of_checkInput hside hfollow inner h
  | .negated inner, h | .capture inner _, h => by
    rw [Element.checkInput] at h
    rw [Element.needs]
    exact Element.needs_of_checkInput hside hfollow inner h
  | .joined elements joints, h => by
    rw [Element.checkInput] at h
    rw [Element.needs]
    obtain ⟨⟨⟩, -, h⟩ := exists_of_bind_eq_ok h
    split at h
    · cases h
    · exact Element.needs_of_checkInputs hside hfollow elements h
  | .lookaround inner conditions exclusions, h => by
    rw [Element.checkInput] at h
    rw [Element.needs]
    obtain ⟨⟨⟩, hinner, h⟩ := exists_of_bind_eq_ok h
    obtain ⟨⟨⟩, hconditions, hexclusions⟩ := exists_of_bind_eq_ok h
    refine List.forall_mem_append.mpr ⟨List.forall_mem_append.mpr ⟨?_, ?_⟩, ?_⟩
    · exact Element.needs_of_checkInput hside hfollow inner hinner
    · exact Environment.needs_of_checkAll hside conditions hconditions
    · exact Environment.needs_of_checkAll hside exclusions hexclusions

/-- What elements need is met if they are accepted as patterns. -/
theorem Element.needs_of_checkInputs {followSide : FollowSide}
    (hside : ∀ name edge env, followSide name edge env = .ok () → known name)
    (hfollow : ∀ name, follow name = .ok () → known name) {part : RulePart} :
    (items : List Element) → Element.checkInputs inv followSide follow part items = .ok () →
      ∀ need ∈ Element.allNeeds items, need.IsMet inv known
  | [], _ => List.forall_mem_nil _
  | e :: rest, h => by
    rw [Element.checkInputs] at h
    rw [Element.allNeeds]
    obtain ⟨⟨⟩, hfirst, hrest⟩ := exists_of_bind_eq_ok h
    refine List.forall_mem_append.mpr ⟨?_, ?_⟩
    · exact Element.needs_of_checkInput hside hfollow e hfirst
    · exact Element.needs_of_checkInputs hside hfollow rest hrest

end

mutual

/-- What an element needs is met if it is accepted as a shape of a syllable. -/
theorem Element.needs_of_checkShape (hfollow : ∀ name, follow name = .ok () → known name) :
    (e : Element) → e.checkShape inv follow = .ok () → ∀ need ∈ e.needs, need.IsMet inv known
  | .text _ _, _ | .empty, _ => by
    intro need hneed
    simp [Element.needs] at hneed
  | .wordBoundary, h | .betweenWords, h | .syllableBoundary, h | .anySyllable, h
  | .captureReference _ _, h | .capture _ _, h | .lookaround _ _ _, h => by
    simp [Element.checkShape] at h
  | .matrix values, h => by
    rw [Element.checkShape] at h
    rw [Element.needs]
    exact List.forall_mem_singleton.mpr h
  | .reference name, h => by
    rw [Element.checkShape] at h
    rw [Element.needs]
    exact List.forall_mem_singleton.mpr (hfollow name h)
  | .sequence items, h | .alternative items, h => by
    rw [Element.checkShape] at h
    rw [Element.needs]
    exact Element.needs_of_checkShapes hfollow items h
  | .negated inner, h | .repeater inner _, h => by
    rw [Element.checkShape] at h
    rw [Element.needs]
    exact Element.needs_of_checkShape hfollow inner h
  | .joined elements joints, h => by
    rw [Element.checkShape] at h
    rw [Element.needs]
    obtain ⟨⟨⟩, -, h⟩ := exists_of_bind_eq_ok h
    exact Element.needs_of_checkShapes hfollow elements h

/-- What elements need is met if they are accepted as shapes. -/
theorem Element.needs_of_checkShapes (hfollow : ∀ name, follow name = .ok () → known name) :
    (items : List Element) → Element.checkShapes inv follow items = .ok () →
      ∀ need ∈ Element.allNeeds items, need.IsMet inv known
  | [], _ => List.forall_mem_nil _
  | e :: rest, h => by
    rw [Element.checkShapes] at h
    rw [Element.allNeeds]
    obtain ⟨⟨⟩, hfirst, hrest⟩ := exists_of_bind_eq_ok h
    refine List.forall_mem_append.mpr ⟨?_, ?_⟩
    · exact Element.needs_of_checkShape hfollow e hfirst
    · exact Element.needs_of_checkShapes hfollow rest hrest

end

mutual

/-- What an element needs is met if it is accepted as an output. -/
theorem Element.needs_of_checkOutput (hfollow : ∀ name, follow name = .ok () → known name) :
    (e : Element) → e.checkOutput inv follow = .ok () → ∀ need ∈ e.needs, need.IsMet inv known
  | .text _ _, _ | .empty, _ | .betweenWords, _ | .syllableBoundary, _
  | .captureReference _ _, _ => by
    intro need hneed
    simp [Element.needs] at hneed
  | .wordBoundary, h | .anySyllable, h | .negated _, h | .repeater _ _, h | .capture _ _, h
  | .lookaround _ _ _, h => by
    rw [Element.checkOutput] at h
    cases h
  | .matrix values, h => by
    rw [Element.checkOutput] at h
    rw [Element.needs]
    obtain ⟨⟨⟩, hvalues, -⟩ := exists_of_bind_eq_ok h
    exact List.forall_mem_singleton.mpr hvalues
  | .reference name, h => by
    rw [Element.checkOutput] at h
    rw [Element.needs]
    exact List.forall_mem_singleton.mpr (hfollow name h)
  | .sequence items, h | .alternative items, h => by
    rw [Element.checkOutput] at h
    rw [Element.needs]
    exact Element.needs_of_checkOutputs hfollow items h
  | .joined elements joints, h => by
    rw [Element.checkOutput] at h
    rw [Element.needs]
    obtain ⟨⟨⟩, -, h⟩ := exists_of_bind_eq_ok h
    split at h
    · cases h
    · exact Element.needs_of_checkOutputs hfollow elements h

/-- What elements need is met if they are accepted as outputs. -/
theorem Element.needs_of_checkOutputs (hfollow : ∀ name, follow name = .ok () → known name) :
    (items : List Element) → Element.checkOutputs inv follow items = .ok () →
      ∀ need ∈ Element.allNeeds items, need.IsMet inv known
  | [], _ => List.forall_mem_nil _
  | e :: rest, h => by
    rw [Element.checkOutputs] at h
    rw [Element.allNeeds]
    obtain ⟨⟨⟩, hfirst, hrest⟩ := exists_of_bind_eq_ok h
    refine List.forall_mem_append.mpr ⟨?_, ?_⟩
    · exact Element.needs_of_checkOutput hfollow e hfirst
    · exact Element.needs_of_checkOutputs hfollow rest hrest

end

end Parts

end Checking

end Syntax

end Diachrony
