import Diachrony.Proofs.Linking.Scopes

/-!
# Following a suggestion

When a repeater stands at an edge of an environment, the message says what to write instead:
nothing, what is repeated, or a fixed number of repetitions. `mend` does so for the first such
repeater. A named element in which it stands is replaced by its body, for other references to it
stay as they are.

Whenever the check of environments complains of a repeater, `mend` replaces that repeater.
-/

namespace Diachrony.Syntax

namespace Repeat

/-- What the suggestion for a repeater at an edge has in its place. -/
def suggested (bounds : Repeat) (inner : Element) : Element :=
  match bounds.min with
  | 0 => .empty
  | 1 => inner
  | n => .repeater inner (.exactly n)

/-- Whether some number of repetitions is within the bounds. -/
def isPossible (bounds : Repeat) : Bool := bounds.max.all (bounds.min ≤ ·)

end Repeat

/-- Something in which a repeater at an edge of an environment is replaced as suggested. -/
structure Mend (α : Type) where
  /-- What the replacement stands in. -/
  value : α
  /-- What was repeated. -/
  inner : Element
  /-- How often it was repeated. -/
  bounds : Repeat
  /-- The environment at whose edge the repeater stood. -/
  environment : Environment
  /-- Whether that environment belongs to a part of the whole. -/
  isNested : Bool
  /-- Whether nothing is read on where the repeater ends. -/
  isLast : Bool

namespace Mend

variable {α β : Type}

/-- The whole that a part stands in. -/
def map (f : α → β) (m : Mend α) : Mend β := { m with value := f m.value }

/-- The whole in an environment that belongs to a part of it. -/
def nested (m : Mend α) : Mend α := { m with isNested := true }

/-- The whole if it depends on a condition whether it is read on where the part ends. -/
def readOnIf (m : Mend α) (readsOn : Bool) : Mend α :=
  { m with isLast := m.isLast && (m.isNested || !readsOn) }

/-- The fault that the repeater is. -/
def fault (m : Mend α) : Fault :=
  .of (.peripheralRepeater (Element.repeater m.inner m.bounds).toText m.environment.toText
    (m.bounds.suggestion m.inner))

/-- Whether the repeater really has no effect: nothing is read on where it ends, and some number of
repetitions is within its bounds. -/
def isIdle (m : Mend α) : Bool := m.isLast && m.bounds.isPossible

end Mend

/-- Mends what a name stands for, at a place of an environment. -/
abbrev FollowMend := String → Edge → Environment → Option (Mend Element)

/-- Whether surroundings of an element at an edge look at where it ends, seen from the span of its
environment. -/
def Edge.isCrossedBy (edge : Edge) (env : Environment) : Bool :=
  edge.atStart && env.before.isSome || edge.atEnd && env.after.isSome

mutual

/-- Mends an element of an environment: replaces the first repeater that is out of place. -/
def Element.mend (follow : FollowMend) (edge : Edge) (env : Environment) :
    Element → Option (Mend Element)
  | .sequence items => (Element.mendItems follow edge env true items).map (·.map .sequence)
  | .alternative options => (Element.mendOne follow edge env options).map (·.map .alternative)
  | .repeater inner bounds =>
    if edge.isOutermost && !bounds.isFixedCount then
      some ⟨bounds.suggested inner, inner, bounds, env, false, true⟩
    else (inner.mend follow edge env).map fun m ↦ (m.map (.repeater · bounds)).readOnIf true
  | .capture inner number => (inner.mend follow edge env).map (·.map (.capture · number))
  | .negated inner => (inner.mend follow .interior env).map (·.map .negated)
  | .joined elements joints =>
    (Element.mendOne follow edge env elements).map (·.map (.joined · joints))
  | .lookaround inner conditions exclusions =>
    ((inner.mend follow edge env).map fun m ↦
      (m.map (.lookaround · conditions exclusions)).readOnIf
        ((conditions ++ exclusions).any edge.isCrossedBy)).or <|
    ((Environment.mendOne follow conditions).map fun m ↦
      (m.map (.lookaround inner · exclusions)).nested).or <|
    (Environment.mendOne follow exclusions).map fun m ↦
      (m.map (.lookaround inner conditions ·)).nested
  | .reference name => follow name edge env
  | _ => none

/-- Mends elements that stand one after the other. -/
def Element.mendItems (follow : FollowMend) (edge : Edge) (env : Environment) (isFirst : Bool) :
    List Element → Option (Mend (List Element))
  | [] => none
  | e :: rest =>
    ((e.mend follow (edge.ofItem isFirst rest.isEmpty) env).map (·.map (· :: rest))).or <|
    (Element.mendItems follow edge env false rest).map (·.map (e :: ·))

/-- Mends elements that stand in one place. -/
def Element.mendOne (follow : FollowMend) (edge : Edge) (env : Environment) :
    List Element → Option (Mend (List Element))
  | [] => none
  | e :: rest =>
    ((e.mend follow edge env).map (·.map (· :: rest))).or <|
    (Element.mendOne follow edge env rest).map (·.map (e :: ·))

/-- Mends environments. -/
def Environment.mendOne (follow : FollowMend) :
    List Environment → Option (Mend (List Environment))
  | [] => none
  | .mk none none :: rest =>
    (Environment.mendOne follow rest).map (·.map (.mk none none :: ·))
  | .mk (some e) none :: rest =>
    ((e.mend follow .before (.mk (some e) none)).map
      (·.map fun e ↦ .mk (some e) none :: rest)).or <|
    (Environment.mendOne follow rest).map (·.map (.mk (some e) none :: ·))
  | .mk none (some e) :: rest =>
    ((e.mend follow .after (.mk none (some e))).map
      (·.map fun e ↦ .mk none (some e) :: rest)).or <|
    (Environment.mendOne follow rest).map (·.map (.mk none (some e) :: ·))
  | .mk (some before) (some after) :: rest =>
    ((before.mend follow .before (.mk (some before) (some after))).map
      (·.map fun before ↦ .mk (some before) (some after) :: rest)).or <|
    ((after.mend follow .after (.mk (some before) (some after))).map
      (·.map fun after ↦ .mk (some before) (some after) :: rest)).or <|
    (Environment.mendOne follow rest).map (·.map (.mk (some before) (some after) :: ·))

end

/-- Mends what a name stands for, at a place of an environment. A class has nothing to mend. -/
def Scope.followMend (s : Scope) : FollowMend :=
  s.resolve (fun _ _ _ ↦ none) (fun _ _ _ ↦ none) fun follow body edge env ↦
    body.mend follow edge env

section Checking

/-- Whether a fault is a repeater at an edge of an environment. -/
def IsPeripheral (fault : Fault) : Prop :=
  ∃ repeater environment suggestion,
    fault = .of (.peripheralRepeater repeater environment suggestion)

/-- Whether a check that succeeds leaves nothing to mend, and one that complains of a repeater has
that repeater mended. -/
def Complains {α : Type} (check : Except Fault Unit) (mended : Option (Mend α)) : Prop :=
  Ensures (fun _ ↦ mended = none) (fun fault ↦ IsPeripheral fault → ∃ m ∈ mended, m.fault = fault)
    check

namespace Complains

variable {α β : Type} {check check' : Except Fault Unit} {mended mended' : Option (Mend α)}

/-- A check that never complains of a repeater, where nothing is mended. -/
theorem none (h : Ensures (fun _ ↦ True) (fun fault ↦ ¬IsPeripheral fault) check) :
    Complains check (Option.none : Option (Mend α)) :=
  (h.mono fun _ _ _ ↦ rfl).allow fun _ hfault hperipheral ↦ absurd hperipheral hfault

/-- A part that is mended in a whole. -/
theorem map {f : Mend α → Mend β} (h : Complains check mended) (hf : ∀ m, (f m).fault = m.fault) :
    Complains check (mended.map f) := by
  refine (h.mono fun _ _ hnone ↦ ?_).allow fun fault hfault hperipheral ↦ ?_
  · rw [hnone, Option.map_none]
  · obtain ⟨m, hm, rfl⟩ := hfault hperipheral
    exact ⟨f m, Option.mem_map_of_mem f hm, hf m⟩

/-- The first of two parts that are checked is mended first. -/
theorem or (h : Complains check mended) (h' : Complains check' mended') :
    Complains (do check; check') (mended.or mended') := by
  cases check with
  | ok =>
    have hnone : mended = Option.none := h
    rw [hnone, Option.none_or]
    exact h'
  | error fault =>
    intro hperipheral
    obtain ⟨m, hm, hfault⟩ := h hperipheral
    exact ⟨m, Option.or_eq_some_iff.mpr (.inl hm), hfault⟩

/-- A part that is checked behind something that is not to be mended. -/
theorem behind (h : Ensures (fun _ ↦ True) (fun fault ↦ ¬IsPeripheral fault) check)
    (h' : Complains check' mended) : Complains (do check; check') mended := by
  have hboth := (none (α := α) h).or h'
  rwa [Option.none_or] at hboth

end Complains

/-- A matrix is no repeater. -/
theorem checkMatrix_ensures (inv : Inventory) (m : Matrix) :
    Ensures (fun _ ↦ True) (fun fault ↦ ¬IsPeripheral fault) (inv.checkMatrix m) := by
  have hassertion (a : Assertion) :
      Ensures (fun _ ↦ True) (fun fault ↦ ¬IsPeripheral fault) (inv.checkAssertion a) := by
    cases a <;> rw [Inventory.checkAssertion] <;> split
    all_goals first | exact .ok trivial | exact .error nofun
  rw [Inventory.checkMatrix]
  induction m.toList with
  | nil => exact .ok trivial
  | cons a rest ih => exact (hassertion a).bind fun _ _ ↦ ih

/-- A joint is no repeater. -/
theorem checkJoints_ensures (joints : List Joint) :
    Ensures (fun _ ↦ True) (fun fault ↦ ¬IsPeripheral fault) (checkJoints joints) := by
  cases joints with
  | nil => exact .ok trivial
  | cons first rest =>
    rw [checkJoints]
    split
    · exact .error nofun
    · exact .ok trivial

variable {inv : Inventory} {follow : FollowSide} {followMend : FollowMend}

/-- Whether what names stand for is mended where a check complains of it. -/
def FollowMend.IsFor (followMend : FollowMend) (follow : FollowSide) : Prop :=
  ∀ name edge env, Complains (follow name edge env) (followMend name edge env)

mutual

/-- If the check of an element complains of a repeater, that repeater is mended. -/
theorem Element.complains (h : followMend.IsFor follow) (edge : Edge) (env : Environment) :
    (e : Element) → Complains (e.checkSide inv follow edge env) (e.mend followMend edge env)
  | .wordBoundary => by
    refine .none ?_
    rw [Element.checkSide]
    split
    · exact .ok trivial
    · exact .error nofun
  | .sequence items => (Element.complains_items h edge env true items).map fun _ ↦ rfl
  | .alternative options => (Element.complains_one h edge env options).map fun _ ↦ rfl
  | .repeater inner bounds => by
    rw [Element.checkSide, Element.mend]
    split
    · exact fun _ ↦ ⟨_, rfl, rfl⟩
    · exact (Element.complains h edge env inner).map fun _ ↦ rfl
  | .capture inner _ => (Element.complains h edge env inner).map fun _ ↦ rfl
  | .negated inner => (Element.complains h .interior env inner).map fun _ ↦ rfl
  | .joined elements joints => by
    rw [Element.checkSide, Element.mend]
    refine .behind (checkJoints_ensures joints) ?_
    split
    · exact fun hperipheral ↦ nomatch hperipheral
    · exact (Element.complains_one h edge env elements).map fun _ ↦ rfl
  | .lookaround inner conditions exclusions => by
    rw [Element.checkSide, Element.mend]
    refine .or ((Element.complains h edge env inner).map fun _ ↦ rfl) (.or ?_ ?_)
    · exact (Environment.complains_one h conditions).map fun _ ↦ rfl
    · exact (Environment.complains_one h exclusions).map fun _ ↦ rfl
  | .matrix values => .none (checkMatrix_ensures inv values)
  | .reference name => h name edge env
  | .empty | .text _ _ | .captureReference _ _ | .betweenWords | .syllableBoundary
  | .anySyllable => .none (.ok trivial)

/-- If the check of elements one after the other complains of a repeater, that repeater is
mended. -/
theorem Element.complains_items (h : followMend.IsFor follow) (edge : Edge) (env : Environment)
    (isFirst : Bool) : (items : List Element) →
      Complains (Element.checkSides inv follow edge env isFirst items)
        (Element.mendItems followMend edge env isFirst items)
  | [] => .none (.ok trivial)
  | e :: rest => by
    rw [Element.checkSides, Element.mendItems]
    refine .or ((Element.complains h _ env e).map fun _ ↦ rfl) ?_
    exact (Element.complains_items h edge env false rest).map fun _ ↦ rfl

/-- If the check of elements in one place complains of a repeater, that repeater is mended. -/
theorem Element.complains_one (h : followMend.IsFor follow) (edge : Edge) (env : Environment) :
    (items : List Element) →
      Complains (Element.checkEachSide inv follow edge env items)
        (Element.mendOne followMend edge env items)
  | [] => .none (.ok trivial)
  | e :: rest => by
    rw [Element.checkEachSide, Element.mendOne]
    refine .or ((Element.complains h edge env e).map fun _ ↦ rfl) ?_
    exact (Element.complains_one h edge env rest).map fun _ ↦ rfl

/-- If the check of environments complains of a repeater, that repeater is mended. -/
theorem Environment.complains_one (h : followMend.IsFor follow) :
    (environments : List Environment) →
    Complains (Environment.checkAll inv follow environments)
      (Environment.mendOne followMend environments)
  | [] => .none (.ok trivial)
  | .mk none none :: rest => by
    rw [Environment.checkAll, Environment.mendOne]
    exact (Environment.complains_one h rest).map fun _ ↦ rfl
  | .mk (some e) none :: rest => by
    rw [Environment.checkAll, Environment.mendOne]
    refine .or ((Element.complains h _ _ e).map fun _ ↦ rfl) ?_
    exact (Environment.complains_one h rest).map fun _ ↦ rfl
  | .mk none (some e) :: rest => by
    rw [Environment.checkAll, Environment.mendOne]
    refine .or ((Element.complains h _ _ e).map fun _ ↦ rfl) ?_
    exact (Environment.complains_one h rest).map fun _ ↦ rfl
  | .mk (some before) (some after) :: rest => by
    rw [Environment.checkAll, Environment.mendOne]
    refine .or ((Element.complains h _ _ before).map fun _ ↦ rfl) ?_
    refine .or ((Element.complains h _ _ after).map fun _ ↦ rfl) ?_
    exact (Environment.complains_one h rest).map fun _ ↦ rfl

end

/-- If the check of what a name stands for complains of a repeater, that repeater is mended. -/
theorem Scope.complains (s : Scope) (name : String) (edge : Edge) (env : Environment) :
    Complains (s.followSide inv name edge env) (s.followMend name edge env) := by
  rw [followSide, followMend]
  refine resolve_related
    (r := fun (check : Edge → Environment → Except Fault Unit) (mended : _ → _ → Option _) ↦
      ∀ edge env, Complains (check edge env) (mended edge env)) ?_ ?_ ?_ name edge env
  · exact fun _ _ _ ↦ .none (.error nofun)
  · exact fun _ _ _ _ _ _ _ _ ↦ .none (.ok trivial)
  · exact fun _ body _ _ _ hfollow edge env ↦ body.complains hfollow edge env

end Checking

end Diachrony.Syntax
