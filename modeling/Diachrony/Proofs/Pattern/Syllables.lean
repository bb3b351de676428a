import Diachrony.Proofs.Pattern.Ahead
import Diachrony.Proofs.Phrase.Undividing

/-!
# Searches that ignore syllables

A pattern that asks for no syllables, no syllable boundaries and no matrices of syllables looks at
segments only. In a phrase without its division into syllables its search has the course that it has
in the phrase itself: it meets the same choice points, has the same faults and ends at the same
positions, and what it captures is what it captured without the divisions. The two directions of
reading lose their divisions together, so this holds for what stands around a span as well.
-/

namespace Diachrony

universe u

namespace Finder

/-- A probe that finds in a phrase without syllables what it finds in the phrase. -/
def ProbeIgnoresSyllables (probe : Probe) : Prop := ∀ scan start b,
  (probe scan start b).Tracks Match.undivided (fun _ ↦ True)
    (probe scan.undivided start b.undivided)

/-- A finder that ignores syllables, as long as what follows does. -/
def IgnoresSyllables (f : Finder) : Prop := ∀ following,
  (∀ probe ∈ following, ProbeIgnoresSyllables probe) → ProbeIgnoresSyllables (f following)

/-- A finder that nothing follows ignores syllables. -/
theorem IgnoresSyllables.alone {f : Finder} (h : f.IgnoresSyllables) :
    ProbeIgnoresSyllables (f none) := h none fun _ hprobe ↦ nomatch hprobe

/-- An end that does not depend on the division of the phrase. -/
theorem ignoresSyllables_ofEnd {stop? : Phrase → Position → Option Position}
    (h : ∀ p start, stop? p.undivided start = stop? p start) : (ofEnd stop?).IgnoresSyllables := by
  intro following _ scan start b
  have hstop : stop? scan.undivided.phrase start = stop? scan.phrase start := h scan.phrase start
  rw [ofEnd, ofEnd, hstop]
  cases stop? scan.phrase start with
  | none => exact .done
  | some stop => exact .pure trivial

/-- A tested empty span. -/
theorem ignoresSyllables_emptyIf {test : Phrase → Position → Bool}
    (h : ∀ p start, test p.undivided start = test p start) : (emptyIf test).IgnoresSyllables :=
  ignoresSyllables_ofEnd fun p start ↦ by rw [h]

/-- A tested segment. -/
theorem ignoresSyllables_matrix (inv : Inventory) (values : Matrix) :
    (segmentWith inv values segmentMatrix?).IgnoresSyllables := by
  intro following _ scan start b
  have hmatrix : segmentMatrix? scan.undivided.phrase start = segmentMatrix? scan.phrase start :=
    congrArg (Option.map Segment.matrix) (scan.phrase.segmentAt?_undivided start)
  rw [segmentWith, segmentWith, hmatrix]
  cases segmentMatrix? scan.phrase start with
  | none => exact .done
  | some m =>
    rw [Option.bind_some, Option.bind_some, Matrix.test_undivided]
    cases values.test inv m b with
    | none => exact .done
    | some bound => exact .pure trivial

/-- A negation. -/
theorem ignoresSyllables_negated {inner : Finder} (h : inner.IgnoresSyllables) :
    inner.negated.IgnoresSyllables := by
  intro following _ scan start b
  have hsegment : scan.undivided.phrase.segmentAt? start = scan.phrase.segmentAt? start :=
    scan.phrase.segmentAt?_undivided start
  rw [negated, negated, hsegment]
  cases scan.phrase.segmentAt? start with
  | none => exact .done
  | some segment =>
    apply (h.alone scan start b).find
    · exact fun _ ↦ rfl
    · intro found _
      cases found with
      | none => exact .pure trivial
      | some m => exact .done

/-- A sequence. -/
theorem ignoresSyllables_sequence {finders : List Finder}
    (h : ∀ f ∈ finders, f.IgnoresSyllables) : (sequence finders).IgnoresSyllables := by
  induction finders with
  | nil =>
    intro following _ scan start b
    exact .pure trivial
  | cons first rest ih =>
    intro following _ scan start b
    rw [List.forall_mem_cons] at h
    have hhint : ∀ probe ∈ rest.head?.map (· none), ProbeIgnoresSyllables probe := by
      intro probe hprobe
      obtain ⟨f, hf, rfl⟩ := Option.map_eq_some_iff.mp hprobe
      exact (h.2 f (List.mem_of_head? hf)).alone
    apply (h.1 _ hhint scan start b).bind
    intro m _
    exact (ih h.2).alone scan m.stop m.bindings

/-- An alternative. -/
theorem ignoresSyllables_alternative {finders : List Finder}
    (h : ∀ f ∈ finders, f.IgnoresSyllables) : (alternative finders).IgnoresSyllables := by
  induction finders with
  | nil =>
    intro following _ scan start b
    exact .done
  | cons first rest ih =>
    intro following hfollowing scan start b
    rw [List.forall_mem_cons] at h
    apply Candidates.Tracks.choice
    apply Candidates.Tracks.append
    · exact h.1 following hfollowing scan start b
    · exact ih h.2 following hfollowing scan start b

section Repetition

variable {following : Option Probe} (hfollowing : ∀ probe ∈ following, ProbeIgnoresSyllables probe)
include hfollowing

/-- A look at what follows. -/
theorem tracks_undivided_takesOver (scan : Scan) (start : Position) (b : Bindings)
    {next next' : Bool → Candidates Match}
    (hnext : ∀ refused,
      (next refused).Tracks Match.undivided (fun _ ↦ True) (next' refused)) :
    (takesOver following scan start b next).Tracks Match.undivided (fun _ ↦ True)
      (takesOver following scan.undivided start b.undivided next') := by
  cases following with
  | none => exact hnext false
  | some probe =>
    apply (hfollowing probe rfl scan start b).find
    · exact fun _ ↦ rfl
    · intro found _
      rw [Option.isSome_map]
      exact hnext found.isSome

/-- More repetitions after some. -/
theorem tracks_undivided_repeatAfter {inner : Finder} (h : inner.IgnoresSyllables) (min : Nat)
    (max : Option Nat) (scan : Scan) (bound count : Nat) (start : Position) (b : Bindings) :
    (repeatAfter inner min max following scan bound count start b).Tracks Match.undivided
      (fun _ ↦ True)
      (repeatAfter inner min max following scan.undivided bound count start b.undivided) := by
  induction bound generalizing count start b with
  | zero => exact .fail _
  | succ bound ih =>
    have hstay : (Candidates.pure (⟨start, b⟩ : Match)).Tracks Match.undivided (fun _ ↦ True)
        (.pure ⟨start, b.undivided⟩) := .pure trivial
    have hextend : (oneMore inner min max following scan bound count start b).Tracks
        Match.undivided (fun _ ↦ True)
        (oneMore inner min max following scan.undivided bound count start b.undivided) := by
      apply (h.alone scan start b).bind
      intro m _
      by_cases hstop : m.stop = start
      · rw [if_pos hstop, if_pos (show m.undivided.stop = start from hstop)]
        split
        · exact .done
        · exact .pure trivial
      · rw [if_neg hstop, if_neg (show ¬m.undivided.stop = start from hstop)]
        exact ih (count + 1) m.stop m.bindings
    rw [repeatAfter_succ, repeatAfter_succ]
    apply Candidates.Tracks.choice
    dsimp only
    split
    · split
      · apply tracks_undivided_takesOver hfollowing
        intro refused
        split
        · exact .append hstay hextend
        · exact .append hextend hstay
      · exact hextend
    · split
      · exact hstay
      · exact .done

end Repetition

/-- A repeater. -/
theorem ignoresSyllables_repeater {inner : Finder} (h : inner.IgnoresSyllables) (min : Nat)
    (max : Option Nat) : (inner.repeater min max).IgnoresSyllables := by
  intro following hfollowing scan start b
  have hfuel : scan.undivided.phrase.segmentCount + scan.undivided.phrase.wordCount =
      scan.phrase.segmentCount + scan.phrase.wordCount :=
    scan.phrase.segmentCount_add_wordCount_undivided
  rw [repeater, repeater, hfuel]
  exact tracks_undivided_repeatAfter hfollowing h min max scan _ 0 start b

/-- A capture. -/
theorem ignoresSyllables_capture {inner : Finder} (h : inner.IgnoresSyllables) (number : Nat)
    (reversed : Bool) : (inner.capture number reversed).IgnoresSyllables := by
  intro following hfollowing scan start b
  apply (h following hfollowing scan start b).bind
  intro m _
  have hslice : scan.undivided.phrase.slice? start m.undivided.stop =
      (scan.phrase.slice? start m.stop).map Phrase.undivided :=
    scan.phrase.slice?_undivided start m.stop
  rw [hslice]
  cases scan.phrase.slice? start m.stop with
  | none => exact .fail _
  | some span =>
    have hbound (fragment : Phrase) :
        m.undivided.bindings.bindCapture number fragment.undivided =
          (m.bindings.bindCapture number fragment).undivided :=
      (m.bindings.undivided_bindCapture number fragment).symm
    dsimp only [Option.map_some]
    rw [span.undivided_ite_reversed, hbound]
    exact .pure trivial

/-- Checks at a position. -/
theorem tracks_undivided_checksHold {checks : List (Finder × Bool)}
    (h : ∀ check ∈ checks, check.1.IgnoresSyllables) (scan : Scan) (start : Position)
    (b : Bindings) :
    (checksHold scan start checks b).Tracks Bindings.undivided (fun _ ↦ True)
      (checksHold scan.undivided start checks b.undivided) := by
  induction checks generalizing b with
  | nil => exact .pure trivial
  | cons check rest ih =>
    obtain ⟨finder, negated⟩ := check
    rw [List.forall_mem_cons] at h
    rw [checksHold, checksHold]
    apply (h.1.alone scan start b).find
    · exact fun _ ↦ rfl
    · intro found _
      cases found with
      | none =>
        dsimp only [Option.map_none]
        split
        · exact ih h.2 b
        · exact .done
      | some m =>
        dsimp only [Option.map_some]
        split
        · exact .done
        · exact ih h.2 m.bindings

/-- An intersection. -/
theorem ignoresSyllables_intersection {initial : Finder} {checks : List (Finder × Bool)}
    (hinitial : initial.IgnoresSyllables) (h : ∀ check ∈ checks, check.1.IgnoresSyllables) :
    (intersection initial checks).IgnoresSyllables := by
  intro following hfollowing scan start b
  apply (hinitial following hfollowing scan start b).bind
  intro m _
  apply (tracks_undivided_checksHold h scan start m.bindings).map
  exact fun _ _ ↦ ⟨rfl, trivial⟩

section Around

variable (scan : Scan) (start stop : Position) (b : Bindings)

/-- Both sides around a span. -/
theorem tracks_undivided_around {sides : Finder × Finder}
    (h : sides.1.IgnoresSyllables ∧ sides.2.IgnoresSyllables) :
    (around sides scan start stop b).Tracks Bindings.undivided (fun _ ↦ True)
      (around sides scan.undivided start stop b.undivided) := by
  have hturn : scan.undivided.phrase.turn? start = scan.phrase.turn? start :=
    scan.phrase.turn?_undivided start
  rw [around, around, hturn]
  cases scan.phrase.turn? start with
  | none => exact .fail _
  | some back =>
    apply (h.1.alone scan.turned back b).bind
    intro m _
    apply (h.2.alone scan stop m.bindings).map
    exact fun _ _ ↦ ⟨rfl, trivial⟩

/-- Surroundings that must not hold. -/
theorem tracks_undivided_unlessAround {α α' : Type u} {view : α → α'}
    {next : Unit → Candidates α} {next' : Unit → Candidates α'}
    (hnext : (next ()).Tracks view (fun _ ↦ True) (next' ())) {exclusions : List (Finder × Finder)}
    (h : ∀ sides ∈ exclusions, sides.1.IgnoresSyllables ∧ sides.2.IgnoresSyllables) :
    (unlessAround scan start stop b next exclusions).Tracks view (fun _ ↦ True)
      (unlessAround scan.undivided start stop b.undivided next' exclusions) := by
  induction exclusions with
  | nil => exact hnext
  | cons sides rest ih =>
    rw [List.forall_mem_cons] at h
    apply (tracks_undivided_around scan start stop b h.1).find
    · exact fun _ ↦ rfl
    · intro found _
      cases found with
      | none => exact ih h.2
      | some bound => exact .done

/-- Surroundings of which one must hold. -/
theorem tracks_undivided_inSome {conditions : List (Finder × Finder)}
    (h : ∀ sides ∈ conditions, sides.1.IgnoresSyllables ∧ sides.2.IgnoresSyllables) :
    (inSome scan start stop b conditions).Tracks Bindings.undivided (fun _ ↦ True)
      (inSome scan.undivided start stop b.undivided conditions) := by
  induction conditions with
  | nil => exact .done
  | cons sides rest ih =>
    rw [List.forall_mem_cons] at h
    apply Candidates.Tracks.append
    · exact tracks_undivided_around scan start stop b h.1
    · exact ih h.2

end Around

/-- An environment. -/
theorem ignoresSyllables_environment {core : Finder}
    {conditions exclusions : List (Finder × Finder)} (hcore : core.IgnoresSyllables)
    (hconditions : ∀ sides ∈ conditions, sides.1.IgnoresSyllables ∧ sides.2.IgnoresSyllables)
    (hexclusions : ∀ sides ∈ exclusions, sides.1.IgnoresSyllables ∧ sides.2.IgnoresSyllables) :
    (environment core conditions exclusions).IgnoresSyllables := by
  intro following hfollowing scan start b
  apply (hcore following hfollowing scan start b).bind
  intro m _
  apply tracks_undivided_unlessAround scan start m.stop m.bindings _ hexclusions
  split
  · exact .pure trivial
  · apply (tracks_undivided_inSome scan start m.stop m.bindings hconditions).map
    exact fun _ _ ↦ ⟨rfl, trivial⟩

/-- A reference to a capture. -/
theorem ignoresSyllables_captureReference (inv : Inventory) (number : Nat)
    (exact reversed : Bool) : (captureReference inv number exact reversed).IgnoresSyllables := by
  intro following _ scan start b
  rw [captureReference, captureReference, Bindings.capture?_undivided]
  cases b.capture? number with
  | none => exact .fail _
  | some bound =>
    have hwords (same : Segment → Segment → Bool) (target : Phrase) :
        scan.undivided.phrase.afterWords? same target.undivided.words start =
          scan.phrase.afterWords? same target.words start :=
      scan.phrase.afterWords?_undivided same target.words start
    dsimp only [Option.map_some]
    rw [bound.undivided_ite_reversed, hwords]
    split
    · exact .pure trivial
    · exact .done

end Finder

mutual

/-- Whether a pattern looks at no syllables, what stands around its parts included. -/
def Pattern.ignoresSyllables : Pattern → Bool
  | .empty | .never | .wordStart | .wordEnd | .betweenWords | .text _ | .symbol _ | .matrix _
  | .captureReference .. => true
  | .syllableMatrix _ | .syllable | .syllableBoundary => false
  | .negated inner | .repeater inner _ _ | .capture inner _ _ => inner.ignoresSyllables
  | .sequence items | .alternative items => Pattern.allIgnoreSyllables items
  | .intersection initial checks => initial.ignoresSyllables && Check.allIgnoreSyllables checks
  | .environment core conditions exclusions =>
    core.ignoresSyllables && Surroundings.allIgnoreSyllables conditions &&
      Surroundings.allIgnoreSyllables exclusions

/-- Whether no pattern of a list looks at syllables. -/
def Pattern.allIgnoreSyllables : List Pattern → Bool
  | [] => true
  | p :: rest => p.ignoresSyllables && Pattern.allIgnoreSyllables rest

/-- Whether no check of a list looks at syllables. -/
def Check.allIgnoreSyllables : List Check → Bool
  | [] => true
  | .mk p _ :: rest => p.ignoresSyllables && Check.allIgnoreSyllables rest

/-- Whether no side of some surroundings looks at syllables. -/
def Surroundings.allIgnoreSyllables : List Surroundings → Bool
  | [] => true
  | .mk behind ahead :: rest =>
    behind.ignoresSyllables && ahead.ignoresSyllables && Surroundings.allIgnoreSyllables rest

end

mutual

/-- The search for a pattern that looks at no syllables ignores them. -/
theorem Pattern.finder_ignoresSyllables (inv : Inventory) : (p : Pattern) → p.ignoresSyllables →
    (p.finder inv).IgnoresSyllables
  | .empty, _ | .never, _ | .wordStart, _ => Finder.ignoresSyllables_emptyIf fun _ _ ↦ rfl
  | .wordEnd, _ => Finder.ignoresSyllables_emptyIf Phrase.isWordEnd_undivided
  | .betweenWords, _ => Finder.ignoresSyllables_ofEnd Phrase.nextWord?_undivided
  | .text literal, _ | .symbol literal, _ =>
    Finder.ignoresSyllables_ofEnd fun p ↦ p.afterLiteral?_undivided _ literal
  | .matrix values, _ => Finder.ignoresSyllables_matrix inv values
  | .negated inner, h => Finder.ignoresSyllables_negated (inner.finder_ignoresSyllables inv h)
  | .sequence items, h =>
    Finder.ignoresSyllables_sequence (Pattern.finders_ignoreSyllables inv items h)
  | .alternative options, h =>
    Finder.ignoresSyllables_alternative (Pattern.finders_ignoreSyllables inv options h)
  | .repeater inner min max, h =>
    Finder.ignoresSyllables_repeater (inner.finder_ignoresSyllables inv h) min max
  | .capture inner number reversed, h =>
    Finder.ignoresSyllables_capture (inner.finder_ignoresSyllables inv h) number reversed
  | .intersection initial checks, h =>
    have h := (Bool.and_eq_true _ _).mp h
    Finder.ignoresSyllables_intersection (initial.finder_ignoresSyllables inv h.1)
      (Check.finders_ignoreSyllables inv checks h.2)
  | .environment core conditions exclusions, h =>
    have h := (Bool.and_eq_true _ _).mp h
    have h' := (Bool.and_eq_true _ _).mp h.1
    Finder.ignoresSyllables_environment (core.finder_ignoresSyllables inv h'.1)
      (Surroundings.finders_ignoreSyllables inv conditions h'.2)
      (Surroundings.finders_ignoreSyllables inv exclusions h.2)
  | .captureReference number exact reversed, _ =>
    Finder.ignoresSyllables_captureReference inv number exact reversed
  | .syllableMatrix _, h | .syllable, h | .syllableBoundary, h => nomatch h

/-- The searches for patterns that look at no syllables ignore them. -/
theorem Pattern.finders_ignoreSyllables (inv : Inventory) : (ps : List Pattern) →
    Pattern.allIgnoreSyllables ps → ∀ f ∈ Pattern.finders inv ps, f.IgnoresSyllables
  | [], _ => List.forall_mem_nil _
  | p :: rest, h =>
    have h := (Bool.and_eq_true _ _).mp h
    List.forall_mem_cons.mpr
      ⟨p.finder_ignoresSyllables inv h.1, Pattern.finders_ignoreSyllables inv rest h.2⟩

/-- The searches for checks that look at no syllables ignore them. -/
theorem Check.finders_ignoreSyllables (inv : Inventory) : (checks : List Check) →
    Check.allIgnoreSyllables checks → ∀ check ∈ Check.finders inv checks, check.1.IgnoresSyllables
  | [], _ => List.forall_mem_nil _
  | .mk p _ :: rest, h =>
    have h := (Bool.and_eq_true _ _).mp h
    List.forall_mem_cons.mpr
      ⟨p.finder_ignoresSyllables inv h.1, Check.finders_ignoreSyllables inv rest h.2⟩

/-- The searches for both sides of surroundings that look at no syllables ignore them. -/
theorem Surroundings.finders_ignoreSyllables (inv : Inventory) : (l : List Surroundings) →
    Surroundings.allIgnoreSyllables l → ∀ sides ∈ Surroundings.finders inv l,
      sides.1.IgnoresSyllables ∧ sides.2.IgnoresSyllables
  | [], _ => List.forall_mem_nil _
  | .mk behind ahead :: rest, h =>
    have h := (Bool.and_eq_true _ _).mp h
    have h' := (Bool.and_eq_true _ _).mp h.1
    List.forall_mem_cons.mpr
      ⟨⟨behind.finder_ignoresSyllables inv h'.1, ahead.finder_ignoresSyllables inv h'.2⟩,
        Surroundings.finders_ignoreSyllables inv rest h.2⟩

end

/-- A search that ignores syllables finds in a phrase without them what it finds in the phrase. -/
theorem Pattern.candidates_undivided {inv : Inventory} {p : Pattern} (h : p.ignoresSyllables)
    (scan : Scan) (start : Position) (b : Bindings) :
    p.candidates inv scan.undivided start b.undivided =
      (p.candidates inv scan start b).map Match.undivided :=
  ((p.finder_ignoresSyllables inv h).alone scan start b).map_eq

end Diachrony
