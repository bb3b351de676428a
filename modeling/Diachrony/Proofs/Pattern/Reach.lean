import Diachrony.Proofs.Pattern.Bounds

/-!
# How far patterns reach

Many patterns match only spans of a limited size, counted in steps from a position to the next. A
step passes one segment, or it leads from the end of a word to the start of the next.
-/

namespace Diachrony

namespace Phrase

variable {p : Phrase} {i j : Position}

/-- A step within a word passes one position. -/
theorem offset_step (p : Phrase) (i : Position) : p.offset i.step = p.offset i + 1 := by
  rw [offset, offset, Position.step]
  exact (Nat.add_assoc _ _ _).symm

/-- The step to the next word passes one position. -/
theorem offset_nextWord? (h : p.nextWord? i = some j) : p.offset j = p.offset i + 1 := by
  obtain ⟨hend, hlt, rfl⟩ := nextWord?_eq_some.mp h
  have hend : i.segment = p.wordLength i.word := of_decide_eq_true hend
  have hword : i.word < p.lengths.length := by
    rw [length_lengths]
    exact Nat.lt_of_succ_lt hlt
  rw [offset, offset, span_take_succ _ hword, ← wordLength_eq, hend]
  exact (Nat.add_assoc _ _ _).symm

end Phrase

/-- Any search keeps to nothing. -/
theorem Candidates.keeps_anything {α : Type} (cs : Candidates α) :
    cs.Keeps (fun _ ↦ True) fun _ ↦ True := ⟨fun _ _ ↦ trivial, fun _ _ ↦ trivial⟩

namespace Finder

/-- Whether all that a finder offers ends within some number of steps. -/
def Reaches (n : Nat) (f : Finder) : Prop :=
  ∀ following scan start b, (f following scan start b).Keeps
    (fun m ↦ scan.phrase.offset m.stop ≤ scan.phrase.offset start + n) fun _ ↦ True

/-- More steps may be allowed. -/
theorem Reaches.mono {f : Finder} {m n : Nat} (h : f.Reaches m) (hmn : m ≤ n) : f.Reaches n :=
  fun following scan start b ↦ (h following scan start b).mono fun _ hm ↦
    Nat.le_trans hm (Nat.add_le_add_left hmn _)

/-- An end that depends on the phrase alone. -/
theorem reaches_ofEnd {stop? : Phrase → Position → Option Position} {n : Nat}
    (h : ∀ p start stop, stop? p start = some stop → p.offset stop ≤ p.offset start + n) :
    (ofEnd stop?).Reaches n := by
  intro following scan start b
  rw [ofEnd]
  split
  · next stop hstop => exact .pure (h scan.phrase start stop hstop)
  · exact .done

/-- An empty span takes no step. -/
theorem reaches_emptyIf (test : Phrase → Position → Bool) : (emptyIf test).Reaches 0 :=
  reaches_ofEnd fun p start stop hstop ↦ by
    split at hstop
    · cases hstop
      exact Nat.le_refl _
    · cases hstop

/-- A literal takes a step for each of its segments. -/
theorem reaches_literal (same : Segment → Segment → Bool) (literal : Word) :
    (ofEnd (Phrase.afterLiteral? same literal)).Reaches literal.length :=
  reaches_ofEnd fun p start stop hstop ↦ by
    obtain ⟨_, _, rfl, _, _⟩ := Phrase.afterLiteral?_eq_some.mp hstop
    exact Nat.le_of_eq (Nat.add_assoc _ _ _).symm

/-- A segment takes one step. -/
theorem reaches_segmentWith (inv : Inventory) (values : Matrix)
    (matrixAt? : Phrase → Position → Option Matrix) :
    (segmentWith inv values matrixAt?).Reaches 1 := by
  intro following scan start b
  rw [segmentWith]
  split
  · exact .pure (Nat.le_of_eq (Phrase.offset_step _ _))
  · exact .done

/-- A negation takes one step. -/
theorem reaches_negated (inner : Finder) : inner.negated.Reaches 1 := by
  intro following scan start b
  rw [negated]
  split
  · exact .done
  · refine (Candidates.keeps_anything _).find fun found _ ↦ ?_
    cases found with
    | none => exact .pure (Nat.le_of_eq (Phrase.offset_step _ _))
    | some m => exact .done

/-- Steps of finders one after the other add up. -/
theorem reaches_sequence_cons {first : Finder} {rest : List Finder} {m n : Nat}
    (hfirst : first.Reaches m) (hrest : (sequence rest).Reaches n) :
    (sequence (first :: rest)).Reaches (m + n) := by
  intro following scan start b
  refine (hfirst _ scan start b).bind fun a ha ↦ ?_
  refine (hrest none scan a.stop a.bindings).mono fun c hc ↦ ?_
  omega

/-- One of some finders takes as many steps as any of them. -/
theorem reaches_alternative_cons {first : Finder} {rest : List Finder} {m n : Nat}
    (hfirst : first.Reaches m) (hrest : (alternative rest).Reaches n) :
    (alternative (first :: rest)).Reaches (max m n) := by
  intro following scan start b
  exact .choice (.append (hfirst.mono (Nat.le_max_left m n) following scan start b)
    (hrest.mono (Nat.le_max_right m n) following scan start b))

/-- A capture takes the steps of what it captures. -/
theorem reaches_capture {inner : Finder} {n : Nat} (h : inner.Reaches n) (number : Nat)
    (reversed : Bool) : (inner.capture number reversed).Reaches n := by
  intro following scan start b
  refine (h following scan start b).bind fun m hm ↦ ?_
  split
  · exact .fail trivial
  · exact .pure hm

/-- An intersection takes the steps of what it starts with. -/
theorem reaches_intersection {initial : Finder} {n : Nat} (h : initial.Reaches n)
    (checks : List (Finder × Bool)) : (intersection initial checks).Reaches n := by
  intro following scan start b
  refine (h following scan start b).bind fun m hm ↦ ?_
  exact (Candidates.keeps_anything _).map fun bound _ ↦ hm

/-- An environment takes the steps of its core. -/
theorem reaches_environment {core : Finder} {n : Nat} (h : core.Reaches n)
    (conditions exclusions : List (Finder × Finder)) :
    (environment core conditions exclusions).Reaches n := by
  intro following scan start b
  refine (h following scan start b).bind fun m hm ↦ ?_
  induction exclusions with
  | nil =>
    rw [unlessAround]
    split
    · exact .pure hm
    · exact (Candidates.keeps_anything _).map fun bound _ ↦ hm
  | cons sides rest ih =>
    rw [unlessAround]
    refine (Candidates.keeps_anything _).find fun found _ ↦ ?_
    cases found with
    | none => exact ih
    | some _ => exact .done

end Finder

namespace Pattern

mutual

/-- The most steps that a match of a pattern takes, if there is such a number. -/
def reach : Pattern → Option Nat
  | empty | never | wordStart | wordEnd | syllableBoundary => some 0
  | betweenWords | matrix _ | syllableMatrix _ | negated _ => some 1
  | text literal | symbol literal => some literal.length
  | sequence items => reachInTurn items
  | alternative options => reachOfAny options
  | capture inner _ _ => inner.reach
  | intersection initial _ => initial.reach
  | environment core _ _ => core.reach
  | syllable | repeater _ _ _ | captureReference _ _ _ => none

/-- The most steps that matches of patterns one after the other take. -/
def reachInTurn : List Pattern → Option Nat
  | [] => some 0
  | p :: rest => do return (← p.reach) + (← reachInTurn rest)

/-- The most steps that a match of one of some patterns takes. -/
def reachOfAny : List Pattern → Option Nat
  | [] => some 0
  | p :: rest => do return max (← p.reach) (← reachOfAny rest)

end

private theorem exists_of_bind_bind_eq_some {a b : Option Nat} {f : Nat → Nat → Nat} {n : Nat}
    (h : (do return f (← a) (← b)) = some n) : ∃ k l, a = some k ∧ b = some l ∧ n = f k l := by
  obtain ⟨k, hk, h⟩ := Option.bind_eq_some_iff.mp h
  obtain ⟨l, hl, h⟩ := Option.bind_eq_some_iff.mp h
  exact ⟨k, l, hk, hl, (Option.some.inj h).symm⟩

mutual

/-- What is offered for a pattern ends within its reach. -/
theorem finder_reaches (inv : Inventory) : (p : Pattern) → {n : Nat} → p.reach = some n →
    (p.finder inv).Reaches n
  | .empty, _, h | .never, _, h | .wordStart, _, h | .wordEnd, _, h | .syllableBoundary, _, h => by
    cases h
    exact Finder.reaches_emptyIf _
  | .betweenWords, _, h => by
    cases h
    exact Finder.reaches_ofEnd fun _ _ _ hstop ↦ Nat.le_of_eq (Phrase.offset_nextWord? hstop)
  | .text literal, _, h | .symbol literal, _, h => by
    cases h
    exact Finder.reaches_literal _ literal
  | .matrix _, _, h | .syllableMatrix _, _, h => by
    cases h
    exact Finder.reaches_segmentWith inv _ _
  | .negated inner, _, h => by
    cases h
    exact Finder.reaches_negated _
  | .sequence items, _, h => sequence_reaches inv items h
  | .alternative options, _, h => alternative_reaches inv options h
  | .capture inner number reversed, _, h =>
    Finder.reaches_capture (finder_reaches inv inner h) number reversed
  | .intersection initial checks, _, h =>
    Finder.reaches_intersection (finder_reaches inv initial h) _
  | .environment core conditions exclusions, _, h =>
    Finder.reaches_environment (finder_reaches inv core h) _ _

/-- What is offered for patterns one after the other ends within the sum of their reaches. -/
theorem sequence_reaches (inv : Inventory) : (items : List Pattern) → {n : Nat} →
    reachInTurn items = some n → (Finder.sequence (finders inv items)).Reaches n
  | [], _, h => by
    cases h
    exact fun _ _ _ _ ↦ .pure (Nat.le_refl _)
  | p :: rest, _, h => by
    obtain ⟨k, l, hk, hl, rfl⟩ := exists_of_bind_bind_eq_some h
    exact Finder.reaches_sequence_cons (finder_reaches inv p hk) (sequence_reaches inv rest hl)

/-- What is offered for one of some patterns ends within the greatest of their reaches. -/
theorem alternative_reaches (inv : Inventory) : (options : List Pattern) → {n : Nat} →
    reachOfAny options = some n → (Finder.alternative (finders inv options)).Reaches n
  | [], _, h => by
    cases h
    exact fun _ _ _ _ ↦ .done
  | p :: rest, _, h => by
    obtain ⟨k, l, hk, hl, rfl⟩ := exists_of_bind_bind_eq_some h
    exact Finder.reaches_alternative_cons (finder_reaches inv p hk)
      (alternative_reaches inv rest hl)

end

end Pattern

end Diachrony
