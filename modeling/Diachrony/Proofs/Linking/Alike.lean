import Diachrony.Linking.Pattern
import Diachrony.Proofs.Pattern.Edges

/-!
# Patterns that are alike at a place

Before a span patterns are read backwards, after it forwards. At the edge of an environment, where
nothing is read on, two patterns do the same if their spans start alike as they are read there.
Being alike is carried from parts to wholes: by alternatives, intersections and captures without
further condition, by sequences and by cores with surroundings if nothing is read on from where the
part ends. Patterns with the same spans are alike everywhere.
-/

namespace Diachrony.Syntax

namespace Place

variable {inv : Inventory} (place : Place)

/-- The spans of a pattern as they are read at a place: backwards before a span. -/
def spans (inv : Inventory) (place : Place) (p : Pattern) : Spans :=
  match place with
  | .before => p.reversed.spans inv
  | .input | .after => p.spans inv

/-- The spans of surroundings as they are read at a place: turned before a span. -/
def sides (inv : Inventory) (place : Place) (s : Surroundings) : Spans × Spans :=
  match place with
  | .before => (s.ahead.spans inv, s.behind.spans inv)
  | .input | .after => (s.behind.spans inv, s.ahead.spans inv)

/-- The side of surroundings that is read on from the end of their core. -/
def across (place : Place) (s : Surroundings) : Pattern :=
  match place with
  | .before => s.behind
  | .input | .after => s.ahead

/-- A sequence is read from its end before a span. -/
theorem spans_sequence_before (items : List Pattern) :
    Place.before.spans inv (.sequence items) =
      .sequence (items.map (Place.before.spans inv)).reverse := by
  rw [spans, Pattern.reversed, Pattern.spans, Pattern.spansOfAll_eq_map,
    Pattern.reversedAll_eq_map, List.map_reverse, List.map_map]
  rfl

/-- A sequence is read from its start elsewhere. -/
theorem spans_sequence {place : Place} (h : place ≠ .before) (items : List Pattern) :
    place.spans inv (.sequence items) = .sequence (items.map (place.spans inv)) := by
  cases place with
  | before => exact absurd rfl h
  | input | after => exact congrArg Spans.sequence (Pattern.spansOfAll_eq_map items)

/-- Every option of an alternative is read. -/
theorem spans_alternative (options : List Pattern) :
    place.spans inv (.alternative options) = .alternative (options.map (place.spans inv)) := by
  cases place with
  | before =>
    rw [spans, Pattern.reversed, Pattern.spans, Pattern.spansOfAll_eq_map,
      Pattern.reversedAll_eq_map, List.map_map]
    rfl
  | input | after => exact congrArg Spans.alternative (Pattern.spansOfAll_eq_map options)

/-- Every part of an intersection is read. -/
theorem spans_intersection (initial : Pattern) (checks : List Check) :
    place.spans inv (.intersection initial checks) =
      .intersection (place.spans inv initial)
        (checks.map fun check ↦ (place.spans inv check.pattern, check.negated)) := by
  cases place with
  | before =>
    rw [spans, Pattern.reversed, Pattern.spans, Check.spansOfAll_eq_map, Check.reversedAll_eq_map,
      List.map_map]
    rfl
  | input | after => exact congrArg (Spans.intersection _) (Check.spansOfAll_eq_map inv checks)

/-- The core of an environment is read, and what stands around it. -/
theorem spans_environment (core : Pattern) (conditions exclusions : List Surroundings) :
    place.spans inv (.environment core conditions exclusions) =
      .environment (place.spans inv core) (conditions.map (place.sides inv))
        (exclusions.map (place.sides inv)) := by
  have hforwards (l : List Surroundings) : Surroundings.spansOfAll inv l =
      l.map fun s ↦ (s.behind.spans inv, s.ahead.spans inv) := by
    induction l with
    | nil => rfl
    | cons s rest ih =>
      obtain ⟨behind, ahead⟩ := s
      rw [Surroundings.spansOfAll, ih]
      rfl
  have hbackwards (l : List Surroundings) :
      Surroundings.spansOfAll inv (Surroundings.reversedAll l) =
        l.map fun s ↦ (s.ahead.spans inv, s.behind.spans inv) := by
    induction l with
    | nil => rfl
    | cons s rest ih =>
      obtain ⟨behind, ahead⟩ := s
      rw [Surroundings.reversedAll, Surroundings.spansOfAll, ih]
      rfl
  cases place with
  | before =>
    rw [spans, Pattern.reversed, Pattern.spans, hbackwards, hbackwards]
    rfl
  | input | after =>
    rw [spans, Pattern.spans, hforwards, hforwards]
    rfl

end Place

/-- Whether a pattern does at a place what another one does there. Their spans start alike; if what
differs is nested in them, they are the same spans, also where they are read the other way. -/
structure Alike (inv : Inventory) (place : Place) (isNested : Bool) (p p' : Pattern) : Prop where
  /-- There are no new references to captures. -/
  isReferenceFree : p.isReferenceFree → p'.isReferenceFree
  /-- The spans start alike. -/
  startAlike : Spans.StartAlike (place.spans inv p) (place.spans inv p')
  /-- The spans are the same. -/
  spans_eq : isNested → ∀ side : Place, side.spans inv p = side.spans inv p'

/-- Whether surroundings have sides that start alike. -/
structure SidesAlike (inv : Inventory) (s s' : Surroundings) : Prop where
  /-- There are no new references to captures. -/
  isReferenceFree : s.behind.isReferenceFree ∧ s.ahead.isReferenceFree →
    s'.behind.isReferenceFree ∧ s'.ahead.isReferenceFree
  /-- The sides before a span start alike. -/
  behind : Spans.StartAlike (s.behind.spans inv) (s'.behind.spans inv)
  /-- The sides after a span start alike. -/
  ahead : Spans.StartAlike (s.ahead.spans inv) (s'.ahead.spans inv)

namespace SidesAlike

variable {inv : Inventory}

/-- Surroundings are like themselves. -/
theorem refl (s : Surroundings) : SidesAlike inv s s := ⟨id, .refl _, .refl _⟩

/-- Sides before a span that are alike. -/
theorem of_before {isNested : Bool} {before before' : Pattern}
    (h : Alike inv .before isNested before before') (after : Pattern) :
    SidesAlike inv (.of before after) (.of before' after) := by
  refine ⟨And.imp_left fun hfree ↦ ?_, h.startAlike, .refl _⟩
  have hfree : before.reversed.isReferenceFree := hfree
  rw [before.isReferenceFree_reversed_eq] at hfree
  exact before'.isReferenceFree_reversed_eq ▸ h.isReferenceFree hfree

/-- Sides after a span that are alike. -/
theorem of_after {isNested : Bool} (before : Pattern) {after after' : Pattern}
    (h : Alike inv .after isNested after after') :
    SidesAlike inv (.of before after) (.of before after') :=
  ⟨And.imp_right h.isReferenceFree, .refl _, h.startAlike⟩

end SidesAlike

/-- Lists of related members have the same images under a function that takes related members to
the same. -/
theorem map_eq_of_forall₂ {α β : Type*} {r : α → α → Prop} {l l' : List α} {f : α → β}
    (h : List.Forall₂ r l l') (hf : ∀ a b, r a b → f a = f b) : l.map f = l'.map f := by
  rw [← List.forall₂_eq_eq_eq, List.forall₂_map_left_iff, List.forall₂_map_right_iff]
  exact h.imp hf

namespace Alike

variable {inv : Inventory} {place : Place} {isNested : Bool} {p p' : Pattern}

/-- Patterns with the same spans are alike. -/
theorem of_eq (hfree : p.isReferenceFree → p'.isReferenceFree)
    (h : ∀ side : Place, side.spans inv p = side.spans inv p') :
    Alike inv place isNested p p' :=
  ⟨hfree, h place ▸ .refl _, fun _ ↦ h⟩

/-- A pattern does what it does. -/
theorem refl (p : Pattern) : Alike inv place isNested p p := of_eq id fun _ ↦ rfl

/-- A negation asks for a span of one segment. -/
theorem negated (h : Alike inv place true p p') :
    Alike inv place isNested (.negated p) (.negated p') :=
  of_eq h.isReferenceFree fun side ↦ by
    have heq := congrArg Spans.negated (h.spans_eq rfl side)
    cases side <;> exact heq

/-- A repetition goes on where a span ends. -/
theorem repeater (h : Alike inv place true p p') (min : Nat) (max : Option Nat) :
    Alike inv place isNested (.repeater p min max) (.repeater p' min max) :=
  of_eq h.isReferenceFree fun side ↦ by
    have heq := congrArg (Spans.repeated · min max) (h.spans_eq rfl side)
    cases side <;> exact heq

/-- A capture has the spans of what it captures. -/
theorem capture (h : Alike inv place isNested p p') (number : Nat) :
    Alike inv place isNested (.capture p number false) (.capture p' number false) := by
  have hspans (side : Place) (q : Pattern) :
      side.spans inv (.capture q number false) = side.spans inv q := by cases side <;> rfl
  refine ⟨h.isReferenceFree, ?_, fun hnested side ↦ ?_⟩
  · rw [hspans, hspans]
    exact h.startAlike
  · rw [hspans, hspans, h.spans_eq hnested]

/-- Alternatives are alike if their options are. -/
theorem alternative {ps ps' : List Pattern}
    (h : List.Forall₂ (Alike inv place isNested) ps ps') :
    Alike inv place isNested (.alternative ps) (.alternative ps') where
  isReferenceFree hfree := by
    simp only [Pattern.isReferenceFree] at hfree ⊢
    induction h with
    | nil => rfl
    | cons hfirst _ ih =>
      simp only [Pattern.allReferenceFree, Bool.and_eq_true] at hfree ⊢
      exact ⟨hfirst.isReferenceFree hfree.1, ih hfree.2⟩
  startAlike := by
    rw [Place.spans_alternative, Place.spans_alternative]
    refine Spans.startAlike_alternative ?_
    rw [List.forall₂_map_left_iff, List.forall₂_map_right_iff]
    exact h.imp fun _ _ h ↦ h.startAlike
  spans_eq hnested side := by
    rw [Place.spans_alternative, Place.spans_alternative,
      map_eq_of_forall₂ h fun _ _ h ↦ h.spans_eq hnested side]

/-- Intersections are alike if their parts are. -/
theorem intersection (h : Alike inv place isNested p p') {checks checks' : List Check}
    (hchecks : List.Forall₂ (fun c c' ↦ Alike inv place isNested c.pattern c'.pattern ∧
      c.negated = c'.negated) checks checks') :
    Alike inv place isNested (.intersection p checks) (.intersection p' checks') where
  isReferenceFree hfree := by
    simp only [Pattern.isReferenceFree, Bool.and_eq_true, Check.allReferenceFree_iff] at hfree ⊢
    refine ⟨h.isReferenceFree hfree.1, ?_⟩
    have hrest := hfree.2
    clear hfree
    induction hchecks with
    | nil => exact List.forall_mem_nil _
    | cons hfirst _ ih =>
      rw [List.forall_mem_cons] at hrest ⊢
      exact ⟨hfirst.1.isReferenceFree hrest.1, ih hrest.2⟩
  startAlike := by
    rw [Place.spans_intersection, Place.spans_intersection]
    refine Spans.startAlike_intersection h.startAlike ?_
    rw [List.forall₂_map_left_iff, List.forall₂_map_right_iff]
    exact hchecks.imp fun _ _ h ↦ ⟨h.1.startAlike, h.2⟩
  spans_eq hnested side := by
    rw [Place.spans_intersection, Place.spans_intersection, h.spans_eq hnested,
      map_eq_of_forall₂ hchecks fun _ _ h ↦ by rw [h.1.spans_eq hnested, h.2]]

/-- A core counts as it does by itself, if what stands around it does not look at where it ends or
the difference is nested in it. -/
theorem core (h : Alike inv place isNested p p') {conditions exclusions : List Surroundings}
    (hacross : isNested = false → ∀ s ∈ conditions ++ exclusions, place.across s = .empty) :
    Alike inv place isNested (.environment p conditions exclusions)
      (.environment p' conditions exclusions) where
  isReferenceFree hfree := by
    simp only [Pattern.isReferenceFree, Bool.and_eq_true] at hfree ⊢
    exact ⟨⟨h.isReferenceFree hfree.1.1, hfree.1.2⟩, hfree.2⟩
  startAlike := by
    rw [Place.spans_environment, Place.spans_environment]
    cases isNested with
    | true =>
      rw [h.spans_eq rfl]
      exact .refl _
    | false =>
      refine Spans.startAlike_environment h.startAlike ?_
      rw [← List.map_append, List.forall_mem_map]
      intro s hs scan stop
      have hsecond : (place.sides inv s).2 = (place.across s).spans inv := by
        cases place <;> rfl
      rw [hsecond, hacross rfl s hs]
      exact Spans.exists_emptyIf_true scan stop
  spans_eq hnested side := by
    rw [Place.spans_environment, Place.spans_environment, h.spans_eq hnested]

/-- What stands around a core counts as it does by itself. -/
theorem environment (q : Pattern)
    {conditions conditions' exclusions exclusions' : List Surroundings}
    (hconditions : List.Forall₂ (SidesAlike inv) conditions conditions')
    (hexclusions : List.Forall₂ (SidesAlike inv) exclusions exclusions') :
    Alike inv place isNested (.environment q conditions exclusions)
      (.environment q conditions' exclusions') := by
  have hfree {l l' : List Surroundings} (h : List.Forall₂ (SidesAlike inv) l l')
      (hall : Surroundings.allReferenceFree l) : Surroundings.allReferenceFree l' := by
    induction h with
    | nil => rfl
    | @cons s s' _ _ hfirst _ ih =>
      obtain ⟨behind, ahead⟩ := s
      obtain ⟨behind', ahead'⟩ := s'
      simp only [Surroundings.allReferenceFree, Bool.and_eq_true] at hall ⊢
      exact ⟨hfirst.isReferenceFree hall.1, ih hall.2⟩
  have hsides (side : Place) {l l' : List Surroundings} (h : List.Forall₂ (SidesAlike inv) l l') :
      List.Forall₂ Spans.SidesAlike (l.map (side.sides inv)) (l'.map (side.sides inv)) := by
    rw [List.forall₂_map_left_iff, List.forall₂_map_right_iff]
    refine h.imp fun s s' h ↦ ?_
    cases side with
    | before => exact ⟨h.ahead, h.behind⟩
    | input | after => exact ⟨h.behind, h.ahead⟩
  refine of_eq (fun h ↦ ?_) fun side ↦ ?_
  · simp only [Pattern.isReferenceFree, Bool.and_eq_true] at h ⊢
    exact ⟨⟨h.1.1, hfree hconditions h.1.2⟩, hfree hexclusions h.2⟩
  · rw [Place.spans_environment, Place.spans_environment]
    exact Spans.environment_congr _ (hsides side hconditions) (hsides side hexclusions)

section Sequences

variable {ps ps' : List Pattern}

/-- The first item of a sequence counts as it does by itself, if it is the last that is read or the
difference is nested in it. -/
theorem sequence_head (h : Alike inv place isNested p p') (rest : List Pattern)
    (hlast : isNested = false → place = .before ∨ place = .after ∧ rest = []) :
    Alike inv place isNested (.sequence (p :: rest)) (.sequence (p' :: rest)) := by
  have hfree : (Pattern.sequence (p :: rest)).isReferenceFree →
      (Pattern.sequence (p' :: rest)).isReferenceFree := by
    simp only [Pattern.isReferenceFree, Pattern.allReferenceFree, Bool.and_eq_true]
    exact And.imp_left h.isReferenceFree
  cases isNested with
  | true =>
    refine of_eq hfree fun side ↦ ?_
    by_cases hside : side = .before
    · rw [hside, Place.spans_sequence_before, Place.spans_sequence_before, List.map_cons,
        List.map_cons, h.spans_eq rfl]
    · rw [Place.spans_sequence hside, Place.spans_sequence hside, List.map_cons, List.map_cons,
        h.spans_eq rfl]
  | false =>
    refine ⟨hfree, ?_, nofun⟩
    rcases hlast rfl with rfl | ⟨rfl, rfl⟩
    · simp only [Place.spans_sequence_before, List.map_cons, List.reverse_cons]
      exact Spans.startAlike_concat _ h.startAlike
    · have hafter : Place.after ≠ .before := nofun
      simp only [Place.spans_sequence hafter, List.map_cons, List.map_nil]
      exact ((Spans.startAlike_singleton _).trans h.startAlike).trans
        (Spans.startAlike_singleton _).symm

/-- The rest of a sequence counts as it does by itself, if it is read behind the first item or the
difference is nested in it. -/
theorem sequence_tail (q : Pattern) (h : Alike inv place isNested (.sequence ps) (.sequence ps'))
    (hafter : isNested = false → place = .after) :
    Alike inv place isNested (.sequence (q :: ps)) (.sequence (q :: ps')) := by
  have hfree : (Pattern.sequence (q :: ps)).isReferenceFree →
      (Pattern.sequence (q :: ps')).isReferenceFree := by
    simp only [Pattern.isReferenceFree, Pattern.allReferenceFree, Bool.and_eq_true]
    exact And.imp_right h.isReferenceFree
  cases isNested with
  | true =>
    refine of_eq hfree fun side ↦ ?_
    have hrest := h.spans_eq rfl side
    by_cases hside : side = .before
    · subst hside
      simp only [Place.spans_sequence_before, List.map_cons, List.reverse_cons] at hrest ⊢
      exact Spans.sequence_concat_congr _ hrest
    · simp only [Place.spans_sequence hside, List.map_cons] at hrest ⊢
      exact Spans.sequence_cons_congr _ hrest
  | false =>
    refine ⟨hfree, ?_, nofun⟩
    obtain rfl := hafter rfl
    have hrest := h.startAlike
    have hside : Place.after ≠ .before := nofun
    simp only [Place.spans_sequence hside, List.map_cons] at hrest ⊢
    exact Spans.startAlike_cons _ hrest

end Sequences

end Alike

end Diachrony.Syntax
