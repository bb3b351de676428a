import Diachrony.Proofs.Pattern.Bounds
import Diachrony.Proofs.Phrase.Behind

/-!
# Searches that look ahead

Most patterns look at nothing but what lies ahead of the place where a search starts. In an
undivided phrase behind a fragment such a search has the course that it has in the phrase alone: it
meets the same choice points, has the same faults and the same bindings, and its candidates come
along with the phrase. What it captures is undivided too.
-/

namespace Diachrony

universe u v

namespace Candidates

variable {α α' : Type u} {β β' : Type v}

/-- Whether a search offers what another one does, seen through a function, at the same point of the
same course, and all that is offered is kept. -/
structure Tracks (view : α → α') (kept : α → Prop) (cs : Candidates α) (ds : Candidates α') :
    Prop where
  /-- The candidates are the same through the function. -/
  map_eq : ds = cs.map view
  /-- What is offered is kept. -/
  keeps : cs.Keeps kept fun _ ↦ True

namespace Tracks

variable {view : α → α'} {kept : α → Prop} {view' : β → β'} {kept' : β → Prop}
  {cs : Candidates α} {ds : Candidates α'}

/-- Less may be asked of what is kept. -/
theorem mono {other : α → Prop} (h : cs.Tracks view kept ds) (himp : ∀ a, kept a → other a) :
    cs.Tracks view other ds := ⟨h.map_eq, h.keeps.mono himp⟩

/-- Ended searches. -/
theorem done : (done : Candidates α).Tracks view kept done := ⟨rfl, .done⟩

/-- Searches that fail with the same fault. -/
theorem fail (fault : Fault) : (fail fault : Candidates α).Tracks view kept (fail fault) :=
  ⟨rfl, .fail trivial⟩

/-- Single candidates. -/
theorem pure {a : α} (h : kept a) : (pure a).Tracks view kept (pure (view a)) := ⟨rfl, .pure h⟩

/-- A choice point before both searches. -/
theorem choice {rest : Unit → Candidates α} {rest' : Unit → Candidates α'}
    (h : (rest ()).Tracks view kept (rest' ())) :
    (choice rest).Tracks view kept (choice rest') :=
  ⟨congrArg Candidates.choice (funext fun _ ↦ h.map_eq), .choice h.keeps⟩

/-- Searches one after the other. -/
theorem append {first second : Unit → Candidates α} {first' second' : Unit → Candidates α'}
    (hfirst : (first ()).Tracks view kept (first' ()))
    (hsecond : (second ()).Tracks view kept (second' ())) :
    (append first second).Tracks view kept (append first' second') where
  map_eq := by
    rw [map_append, ← hfirst.map_eq, ← hsecond.map_eq]
  keeps := .append hfirst.keeps hsecond.keeps

/-- Searches that candidates lead to. -/
theorem bind {f : α → Candidates β} {f' : α' → Candidates β'} (h : cs.Tracks view kept ds)
    (hf : ∀ a, kept a → (f a).Tracks view' kept' (f' (view a))) :
    (cs.bind f).Tracks view' kept' (ds.bind f') where
  map_eq := by
    rw [h.map_eq, bind_map, map_bind]
    exact bind_eq_of_offers fun a ha ↦ (hf a (h.keeps.offers a ha)).map_eq
  keeps := h.keeps.bind fun a ha ↦ (hf a ha).keeps

/-- Changed candidates. -/
theorem map {f : α → β} {f' : α' → β'} (h : cs.Tracks view kept ds)
    (hf : ∀ a, kept a → f' (view a) = view' (f a) ∧ kept' (f a)) :
    (cs.map f).Tracks view' kept' (ds.map f') where
  map_eq := by
    rw [h.map_eq, map_map, map_map]
    exact map_eq_of_offers fun a ha ↦ (hf a (h.keeps.offers a ha)).1
  keeps := h.keeps.map fun a ha ↦ (hf a ha).2

/-- Searches for an accepted candidate. -/
theorem find {accept : α → Bool} {accept' : α' → Bool} {next : Option α → Candidates β}
    {next' : Option α' → Candidates β'} (h : cs.Tracks view kept ds)
    (haccept : ∀ a, accept' (view a) = accept a)
    (hnext : ∀ found, (∀ a ∈ found, kept a) →
      (next found).Tracks view' kept' (next' (found.map view))) :
    (cs.find accept next).Tracks view' kept' (ds.find accept' next') where
  map_eq := by
    rw [h.map_eq, find_map, map_find, funext haccept]
    exact find_eq_of_offers fun found hfound ↦
      (hnext found fun a ha ↦ h.keeps.offers a (hfound a ha)).map_eq
  keeps := h.keeps.find fun found hfound ↦ (hnext found hfound).keeps

end Tracks

end Candidates

namespace Bindings

/-- Whether no captured fragment is divided into syllables. -/
def IsUndivided (b : Bindings) : Prop :=
  ∀ number, ∀ fragment ∈ b.capture? number, fragment.IsUndivided

/-- Nothing is captured. -/
theorem isUndivided_empty : Bindings.empty.IsUndivided := by
  intro number fragment h
  cases h

/-- One more undivided fragment. -/
theorem IsUndivided.bindCapture {b : Bindings} (h : b.IsUndivided) (number : Nat)
    {fragment : Phrase} (hfragment : fragment.IsUndivided) :
    (b.bindCapture number fragment).IsUndivided := by
  intro other found hfound
  rw [capture?, Bindings.bindCapture, SortedMap.get?_insert] at hfound
  split at hfound
  · cases hfound
    exact hfragment
  · exact h other found hfound

end Bindings

/-- A test of an assertion captures nothing. -/
theorem Assertion.captures_test {inv : Inventory} {candidate : Matrix} {a : Assertion}
    {b b' : Bindings} (h : a.test inv candidate b = some b') : b'.captures = b.captures := by
  cases a with
  | simple value | negated value =>
    rw [test] at h
    split at h <;> cases h
    rfl
  | absent feature =>
    rw [test] at h
    split at h
    · split at h <;> cases h
      rfl
    · cases h
      rfl
  | binds feature =>
    rw [test] at h
    split at h <;> cases h <;> rfl

/-- A test of a matrix captures nothing. -/
theorem Matrix.captures_test {inv : Inventory} {pattern candidate : Matrix} {b b' : Bindings}
    (h : pattern.test inv candidate b = some b') : b'.captures = b.captures := by
  rw [test] at h
  generalize pattern.toList = assertions at h
  induction assertions generalizing b with
  | nil =>
    cases h
    rfl
  | cons a rest ih =>
    rw [List.foldlM_cons] at h
    obtain ⟨middle, hfirst, hrest⟩ := Option.bind_eq_some_iff.mp h
    exact (ih hrest).trans (Assertion.captures_test hfirst)

/-- A match in a phrase that is joined behind a fragment. -/
def Match.behind (t : Phrase) (m : Match) : Match := { m with stop := t.behind m.stop }

namespace Finder

/-- Where a search from a position of an undivided phrase may end, and what it may capture. -/
structure Keeps (p : Phrase) (start : Position) (m : Match) : Prop where
  /-- A match ends in the phrase. -/
  isPosition : p.isPosition m.stop
  /-- It does not end before the start. -/
  le : start ≤ m.stop
  /-- What is captured is undivided. -/
  isUndivided : m.bindings.IsUndivided

/-- A probe that looks at nothing but what lies ahead. -/
def ProbeLooksAhead (probe : Probe) : Prop :=
  ∀ {t p : Phrase}, t.IsUndivided → p.IsUndivided → ∀ {start b}, p.isPosition start →
    b.IsUndivided → (probe (.of p) start b).Tracks (Match.behind t) (Keeps p start)
      (probe (.of (t ++ p)) (t.behind start) b)

/-- A finder that looks at nothing but what lies ahead, as long as what follows does. -/
def LooksAhead (f : Finder) : Prop :=
  ∀ following, (∀ probe ∈ following, ProbeLooksAhead probe) → ProbeLooksAhead (f following)

/-- A finder that nothing follows looks ahead. -/
theorem LooksAhead.alone {f : Finder} (h : f.LooksAhead) : ProbeLooksAhead (f none) :=
  h none fun _ hprobe ↦ nomatch hprobe

/-- What a search leads to is kept from where it started. -/
theorem Keeps.trans {p : Phrase} {start : Position} {m n : Match} (hm : Keeps p start m)
    (hn : Keeps p m.stop n) : Keeps p start n := ⟨hn.1, hm.2.trans hn.2, hn.3⟩

/-- An end that depends on what lies ahead. -/
theorem looksAhead_ofEnd {stop? : Phrase → Position → Option Position}
    (hinside : ∀ p start stop, p.isPosition start → stop? p start = some stop →
      p.isPosition stop ∧ start ≤ stop)
    (hbehind : ∀ t p start, stop? (t ++ p) (t.behind start) = (stop? p start).map t.behind) :
    (ofEnd stop?).LooksAhead := by
  intro following _ t p _ _ start b hstart hb
  have hbehind : stop? (Scan.of (t ++ p)).phrase (t.behind start) =
      (stop? (Scan.of p).phrase start).map t.behind := hbehind t p start
  rw [ofEnd, ofEnd, hbehind]
  cases hstop : stop? (Scan.of p).phrase start with
  | none => exact .done
  | some stop =>
    obtain ⟨hposition, hle⟩ := hinside p start stop hstart hstop
    exact .pure ⟨hposition, hle, hb⟩

/-- A tested empty span. -/
theorem looksAhead_emptyIf {test : Phrase → Position → Bool}
    (h : ∀ t p start, test (t ++ p) (t.behind start) = test p start) :
    (emptyIf test).LooksAhead := by
  refine looksAhead_ofEnd (fun p start stop hstart hstop ↦ ?_) fun t p start ↦ ?_
  · split at hstop
    · cases hstop
      exact ⟨hstart, le_refl _⟩
    · cases hstop
  · rw [h]
    split <;> rfl

/-- A tested segment. -/
theorem looksAhead_matrix (inv : Inventory) (values : Matrix) :
    (segmentWith inv values segmentMatrix?).LooksAhead := by
  intro following _ t p _ _ start b hstart hb
  have hbehind : segmentMatrix? (Scan.of (t ++ p)).phrase (t.behind start) =
      segmentMatrix? (Scan.of p).phrase start :=
    congrArg (Option.map Segment.matrix) (Phrase.segmentAt?_behind t p start)
  rw [segmentWith, segmentWith, hbehind]
  split
  · next bound hbound =>
    obtain ⟨m, hm, htest⟩ := Option.bind_eq_some_iff.mp hbound
    obtain ⟨segment, hsegment, -⟩ := Option.map_eq_some_iff.mp hm
    obtain ⟨word, hword, hlt⟩ := Phrase.exists_word_of_segmentAt? hsegment
    refine .pure ⟨Phrase.isPosition_step hword hlt, start.le_step, fun number ↦ ?_⟩
    rw [Bindings.capture?, Matrix.captures_test htest]
    exact hb number
  · exact .done

/-- A negation. -/
theorem looksAhead_negated {inner : Finder} (h : inner.LooksAhead) :
    inner.negated.LooksAhead := by
  intro following _ t p ht hp start b hstart hb
  have hbehind : (Scan.of (t ++ p)).phrase.segmentAt? (t.behind start) =
      (Scan.of p).phrase.segmentAt? start := Phrase.segmentAt?_behind t p start
  rw [negated, negated, hbehind]
  split
  · exact .done
  · next segment hsegment =>
    obtain ⟨word, hword, hlt⟩ := Phrase.exists_word_of_segmentAt? hsegment
    refine (h.alone ht hp hstart hb).find (fun m ↦ ?_) fun found _ ↦ ?_
    · rw [Phrase.step_behind, decide_eq_decide]
      exact Phrase.behind_inj
    · cases found with
      | none => exact .pure ⟨Phrase.isPosition_step hword hlt, start.le_step, hb⟩
      | some m => exact .done

/-- A sequence. -/
theorem looksAhead_sequence {finders : List Finder} (h : ∀ f ∈ finders, f.LooksAhead) :
    (sequence finders).LooksAhead := by
  induction finders with
  | nil =>
    intro following _ t p _ _ start b hstart hb
    exact .pure ⟨hstart, le_refl _, hb⟩
  | cons first rest ih =>
    intro following _ t p ht hp start b hstart hb
    rw [List.forall_mem_cons] at h
    have hhint : ∀ probe ∈ rest.head?.map (· none), ProbeLooksAhead probe := by
      intro probe hprobe
      obtain ⟨f, hf, rfl⟩ := Option.map_eq_some_iff.mp hprobe
      exact (h.2 f (List.mem_of_head? hf)).alone
    refine (h.1 _ hhint ht hp hstart hb).bind fun m hm ↦ ?_
    exact ((ih h.2).alone ht hp hm.1 hm.3).mono fun n hn ↦ hm.trans hn

/-- An alternative. -/
theorem looksAhead_alternative {finders : List Finder} (h : ∀ f ∈ finders, f.LooksAhead) :
    (alternative finders).LooksAhead := by
  induction finders with
  | nil =>
    intro following _ t p _ _ start b _ _
    exact .done
  | cons first rest ih =>
    intro following hfollowing t p ht hp start b hstart hb
    rw [List.forall_mem_cons] at h
    exact .choice (.append (h.1 following hfollowing ht hp hstart hb)
      (ih h.2 following hfollowing ht hp hstart hb))

section Phrases

variable {t p : Phrase} (ht : t.IsUndivided) (hp : p.IsUndivided) {start : Position} {b : Bindings}
  (hstart : p.isPosition start) (hb : b.IsUndivided)
include ht hp hstart hb

/-- A look at what follows. -/
theorem tracks_takesOver {following : Option Probe} {next next' : Bool → Candidates Match}
    {kept : Match → Prop} (hfollowing : ∀ probe ∈ following, ProbeLooksAhead probe)
    (hnext : ∀ refused, (next refused).Tracks (Match.behind t) kept (next' refused)) :
    (takesOver following (.of p) start b next).Tracks (Match.behind t) kept
      (takesOver following (.of (t ++ p)) (t.behind start) b next') := by
  cases following with
  | none => exact hnext false
  | some probe =>
    refine (hfollowing probe rfl ht hp hstart hb).find (fun m ↦ ?_) fun found _ ↦ ?_
    · rw [decide_eq_decide]
      exact Phrase.behind_inj.not
    · rw [Option.isSome_map]
      exact hnext found.isSome

/-- Repetitions that have fuel for what lies ahead do not depend on the amount of it. -/
theorem tracks_repeatAfter {inner : Finder} (h : inner.LooksAhead) (min : Nat) (max : Option Nat)
    {following : Option Probe} (hfollowing : ∀ probe ∈ following, ProbeLooksAhead probe)
    {bound bound' : Nat} (count : Nat) (hbound : p.size ≤ bound + p.offset start)
    (hbound' : p.size ≤ bound' + p.offset start) :
    (repeatAfter inner min max following (.of p) bound count start b).Tracks (Match.behind t)
      (Keeps p start)
      (repeatAfter inner min max following (.of (t ++ p)) bound' count (t.behind start) b) := by
  induction bound generalizing bound' count start b with
  | zero =>
    have := Phrase.offset_lt_size hstart
    omega
  | succ bound ih =>
    obtain ⟨bound', rfl⟩ : ∃ n, bound' = n + 1 := by
      have := Phrase.offset_lt_size hstart
      exact ⟨bound' - 1, by omega⟩
    have hstay : (Candidates.pure (⟨start, b⟩ : Match)).Tracks (Match.behind t) (Keeps p start)
        (.pure ⟨t.behind start, b⟩) := .pure ⟨hstart, le_refl _, hb⟩
    have hextend : (oneMore inner min max following (.of p) bound count start b).Tracks
        (Match.behind t) (Keeps p start)
        (oneMore inner min max following (.of (t ++ p)) bound' count (t.behind start) b) := by
      refine (h.alone ht hp hstart hb).bind fun m hm ↦ ?_
      have hsame : (Match.behind t m).stop = t.behind start ↔ m.stop = start := Phrase.behind_inj
      by_cases hstop : m.stop = start
      · rw [if_pos hstop, if_pos (hsame.mpr hstop)]
        split
        · exact .done
        · exact .pure hm
      · rw [if_neg hstop, if_neg (hsame.not.mpr hstop)]
        have hlt : start < m.stop := lt_of_le_of_ne hm.2 (Ne.symm hstop)
        have hoffset := Phrase.offset_lt_offset hstart hlt
        exact (ih hm.1 hm.3 (count + 1) (by omega) (by omega)).mono fun n hn ↦ hm.trans hn
    rw [repeatAfter_succ, repeatAfter_succ]
    refine .choice ?_
    dsimp only
    split
    · split
      · refine tracks_takesOver ht hp hstart hb hfollowing fun refused ↦ ?_
        split
        · exact .append hstay hextend
        · exact .append hextend hstay
      · exact hextend
    · split
      · exact hstay
      · exact .done

end Phrases

/-- A repeater. -/
theorem looksAhead_repeater {inner : Finder} (h : inner.LooksAhead) (min : Nat) (max : Option Nat) :
    (inner.repeater min max).LooksAhead := by
  intro following hfollowing t p ht hp start b hstart hb
  have hsize := Phrase.size_append t p
  have hstop := t.offset_stop
  refine tracks_repeatAfter ht hp hstart hb h min max hfollowing 0 ?_ ?_
  · rw [Phrase.segmentCount_add_wordCount]
    exact Nat.le_add_right _ _
  · rw [Phrase.segmentCount_add_wordCount]
    show p.size ≤ (t ++ p).size + _
    omega

/-- A capture. -/
theorem looksAhead_capture {inner : Finder} (h : inner.LooksAhead) (number : Nat)
    (reversed : Bool) : (inner.capture number reversed).LooksAhead := by
  intro following hfollowing t p ht hp start b hstart hb
  refine (h following hfollowing ht hp hstart hb).bind fun m hm ↦ ?_
  have hslice : (Scan.of p).phrase.slice? start m.stop = some (p.slice start m.stop) :=
    if_pos ⟨hstart, hm.1, hm.2⟩
  have hslice' : (Scan.of (t ++ p)).phrase.slice? (t.behind start) (Match.behind t m).stop =
      some (p.slice start m.stop) := (Phrase.slice?_behind ht hp start m.stop).trans hslice
  rw [hslice, hslice']
  refine .pure ⟨hm.1, hm.2, hm.3.bindCapture number ?_⟩
  split
  · exact (hp.slice start m.stop).reversed
  · exact hp.slice start m.stop

/-- Checks at a position. -/
theorem tracks_checksHold {t p : Phrase} (ht : t.IsUndivided) (hp : p.IsUndivided)
    {start : Position} (hstart : p.isPosition start) {checks : List (Finder × Bool)}
    (h : ∀ check ∈ checks, check.1.LooksAhead) {b : Bindings} (hb : b.IsUndivided) :
    (checksHold (.of p) start checks b).Tracks (fun bound ↦ bound) Bindings.IsUndivided
      (checksHold (.of (t ++ p)) (t.behind start) checks b) := by
  induction checks generalizing b with
  | nil => exact .pure hb
  | cons check rest ih =>
    obtain ⟨finder, negated⟩ := check
    rw [List.forall_mem_cons] at h
    rw [checksHold, checksHold]
    refine (h.1.alone ht hp hstart hb).find (fun _ ↦ rfl) fun found hfound ↦ ?_
    cases found with
    | none =>
      dsimp only [Option.map_none]
      split
      · exact ih h.2 hb
      · exact .done
    | some m =>
      dsimp only [Option.map_some]
      split
      · exact .done
      · exact ih h.2 (hfound m rfl).isUndivided

/-- An intersection. -/
theorem looksAhead_intersection {initial : Finder} {checks : List (Finder × Bool)}
    (hinitial : initial.LooksAhead) (h : ∀ check ∈ checks, check.1.LooksAhead) :
    (intersection initial checks).LooksAhead := by
  intro following hfollowing t p ht hp start b hstart hb
  refine (hinitial following hfollowing ht hp hstart hb).bind fun m hm ↦ ?_
  exact (tracks_checksHold ht hp hstart h hm.3).map fun bound hbound ↦ ⟨rfl, hm.1, hm.2, hbound⟩

/-- A reference to a capture. -/
theorem looksAhead_captureReference (inv : Inventory) (number : Nat) (exact reversed : Bool) :
    (captureReference inv number exact reversed).LooksAhead := by
  intro following _ t p _ _ start b hstart hb
  rw [captureReference, captureReference]
  split
  · exact .fail _
  · dsimp only
    have hbehind (same : Segment → Segment → Bool) (words : List Word) :
        (Scan.of (t ++ p)).phrase.afterWords? same words (t.behind start) =
          ((Scan.of p).phrase.afterWords? same words start).map t.behind :=
      Phrase.afterWords?_behind same words t p start
    rw [hbehind]
    split
    · next stop hstop =>
      obtain ⟨hposition, hle⟩ := Phrase.ahead_of_afterWords? hstart hstop
      rw [hstop]
      exact .pure ⟨hposition, hle, hb⟩
    · next hnone =>
      rw [hnone]
      exact .done

end Finder

mutual

/-- Whether a pattern looks at nothing but what lies ahead, and not at syllables. -/
def Pattern.looksAhead : Pattern → Bool
  | .empty | .never | .wordEnd | .betweenWords | .text _ | .symbol _ | .matrix _
  | .captureReference .. => true
  | .negated inner | .repeater inner _ _ | .capture inner _ _ => inner.looksAhead
  | .sequence items | .alternative items => Pattern.allLookAhead items
  | .intersection initial checks => initial.looksAhead && Check.allLookAhead checks
  | .wordStart | .syllableMatrix _ | .syllable | .syllableBoundary | .environment .. => false

/-- Whether all patterns of a list look ahead. -/
def Pattern.allLookAhead : List Pattern → Bool
  | [] => true
  | p :: rest => p.looksAhead && Pattern.allLookAhead rest

/-- Whether the patterns of all checks of a list look ahead. -/
def Check.allLookAhead : List Check → Bool
  | [] => true
  | .mk p _ :: rest => p.looksAhead && Check.allLookAhead rest

end

mutual

/-- The search for a pattern that looks ahead does. -/
theorem Pattern.finder_looksAhead (inv : Inventory) : (p : Pattern) → p.looksAhead →
    (p.finder inv).LooksAhead
  | .empty, _ => Finder.looksAhead_emptyIf fun _ _ _ ↦ rfl
  | .never, _ => Finder.looksAhead_emptyIf fun _ _ _ ↦ rfl
  | .wordEnd, _ => Finder.looksAhead_emptyIf Phrase.isWordEnd_behind
  | .betweenWords, _ =>
    Finder.looksAhead_ofEnd (fun _ _ _ _ h ↦ Phrase.ahead_of_nextWord? h) Phrase.nextWord?_behind
  | .text literal, _ | .symbol literal, _ =>
    Finder.looksAhead_ofEnd (fun _ _ _ _ h ↦ Phrase.ahead_of_afterLiteral? h)
      (Phrase.afterLiteral?_behind _ literal)
  | .matrix values, _ => Finder.looksAhead_matrix inv values
  | .negated inner, h => Finder.looksAhead_negated (inner.finder_looksAhead inv h)
  | .sequence items, h => Finder.looksAhead_sequence (Pattern.finders_lookAhead inv items h)
  | .alternative options, h =>
    Finder.looksAhead_alternative (Pattern.finders_lookAhead inv options h)
  | .repeater inner min max, h =>
    Finder.looksAhead_repeater (inner.finder_looksAhead inv h) min max
  | .capture inner number reversed, h =>
    Finder.looksAhead_capture (inner.finder_looksAhead inv h) number reversed
  | .intersection initial checks, h =>
    have h := (Bool.and_eq_true _ _).mp h
    Finder.looksAhead_intersection (initial.finder_looksAhead inv h.1)
      (Check.finders_lookAhead inv checks h.2)
  | .captureReference number exact reversed, _ =>
    Finder.looksAhead_captureReference inv number exact reversed
  | .wordStart, h | .syllableMatrix _, h | .syllable, h | .syllableBoundary, h
  | .environment .., h => nomatch h

/-- The searches for patterns that look ahead do. -/
theorem Pattern.finders_lookAhead (inv : Inventory) : (ps : List Pattern) →
    Pattern.allLookAhead ps → ∀ f ∈ Pattern.finders inv ps, f.LooksAhead
  | [], _ => List.forall_mem_nil _
  | p :: rest, h =>
    have h := (Bool.and_eq_true _ _).mp h
    List.forall_mem_cons.mpr ⟨p.finder_looksAhead inv h.1, Pattern.finders_lookAhead inv rest h.2⟩

/-- The searches for checks whose patterns look ahead do. -/
theorem Check.finders_lookAhead (inv : Inventory) : (checks : List Check) →
    Check.allLookAhead checks → ∀ check ∈ Check.finders inv checks, check.1.LooksAhead
  | [], _ => List.forall_mem_nil _
  | .mk p _ :: rest, h =>
    have h := (Bool.and_eq_true _ _).mp h
    List.forall_mem_cons.mpr ⟨p.finder_looksAhead inv h.1, Check.finders_lookAhead inv rest h.2⟩

end

end Diachrony
