import Mathlib.Data.List.Forall2
import Diachrony.Proofs.Pattern.Offers
import Diachrony.Proofs.Pattern.Spans

/-!
# Searches offer the spans of their patterns

Every operation on finders keeps the agreement with a relation between starts and ends: what is
offered is allowed by the relation, and a search that no fault ends offers everything that the
relation allows. Soundness holds up to a fault, completeness only without one; a negation needs the
completeness of what it negates for its own soundness, so both are carried together.
-/

namespace Diachrony

universe u v w x

namespace Candidates

variable {α : Type u} {β : Type v} {γ : Type w} {δ : Type x}

/-- A search lists what is wanted: it offers nothing else, and without a fault it offers all. -/
structure Lists (view : α → γ) (wanted : γ → Prop) (cs : Candidates α) : Prop where
  /-- What is offered is wanted. -/
  sound : ∀ a ∈ cs.offers, wanted (view a)
  /-- What is wanted is offered, unless a fault ends the search. -/
  complete : cs.ending = none → ∀ c, wanted c → ∃ a ∈ cs.offers, view a = c

namespace Lists

variable {view : α → γ} {wanted : γ → Prop} {cs : Candidates α}

/-- Equivalent wishes are listed alike. -/
theorem congr {other : γ → Prop} (h : cs.Lists view wanted) (heq : ∀ c, wanted c ↔ other c) :
    cs.Lists view other where
  sound a ha := (heq _).mp (h.sound a ha)
  complete hending c hc := h.complete hending c ((heq c).mpr hc)

/-- An ended search lists nothing. -/
theorem done : (done : Candidates α).Lists view fun _ ↦ False where
  sound _ ha := by cases ha
  complete _ _ hc := hc.elim

/-- A failed search lists whatever is wanted. -/
theorem fail (fault : Fault) : (fail fault : Candidates α).Lists view wanted where
  sound _ ha := by cases ha
  complete hending := by cases hending

/-- A single candidate is all that is listed. -/
theorem pure {a : α} {c : γ} (h : view a = c) : (pure a).Lists view (· = c) where
  sound _ ha := by cases List.mem_singleton.mp ha; exact h
  complete _ _ hc := ⟨a, List.mem_cons_self, h.trans hc.symm⟩

/-- A choice point changes nothing of what is listed. -/
theorem choice {rest : Unit → Candidates α} (h : (rest ()).Lists view wanted) :
    (choice rest).Lists view wanted := ⟨h.sound, h.complete⟩

/-- Two searches list what either is for. -/
theorem append {other : γ → Prop} {first second : Unit → Candidates α}
    (hfirst : (first ()).Lists view wanted) (hsecond : (second ()).Lists view other) :
    (append first second).Lists view fun c ↦ wanted c ∨ other c where
  sound a ha := by
    rw [offers_append, List.mem_append] at ha
    rcases ha with ha | ha
    · exact .inl (hfirst.sound a ha)
    · split at ha
      · exact .inr (hsecond.sound a ha)
      · cases ha
  complete hending c hc := by
    rw [ending_append, Option.or_eq_none_iff] at hending
    rw [offers_append, if_pos hending.1]
    rcases hc with hc | hc
    · obtain ⟨a, ha, rfl⟩ := hfirst.complete hending.1 c hc
      exact ⟨a, List.mem_append_left _ ha, rfl⟩
    · obtain ⟨a, ha, rfl⟩ := hsecond.complete hending.2 c hc
      exact ⟨a, List.mem_append_right _ ha, rfl⟩

/-- A chained search lists what is reached through something that the first search lists. -/
theorem bind {view' : β → δ} {f : α → Candidates β} (h : cs.Lists view wanted)
    (reached : γ → δ → Prop) (hf : ∀ a ∈ cs.offers, (f a).Lists view' (reached (view a))) :
    (cs.bind f).Lists view' fun d ↦ ∃ c, wanted c ∧ reached c d where
  sound b hb := by
    obtain ⟨a, ha, hb⟩ := exists_of_mem_offers_bind hb
    exact ⟨view a, h.sound a ha, (hf a ha).sound b hb⟩
  complete hending d hd := by
    obtain ⟨c, hc, hd⟩ := hd
    obtain ⟨hfirst, hrest⟩ := ending_bind_eq_none.mp hending
    obtain ⟨a, ha, rfl⟩ := h.complete hfirst c hc
    obtain ⟨b, hb, rfl⟩ := (hf a ha).complete (hrest a ha) d hd
    exact ⟨b, mem_offers_bind hending ha hb, rfl⟩

/-- Changed candidates are listed as the view of the change. -/
theorem map {view' : β → γ} {f : α → β} (h : cs.Lists (fun a ↦ view' (f a)) wanted) :
    (cs.map f).Lists view' wanted where
  sound b hb := by
    rw [offers_map, List.mem_map] at hb
    obtain ⟨a, ha, rfl⟩ := hb
    exact h.sound a ha
  complete hending c hc := by
    rw [ending_map] at hending
    obtain ⟨a, ha, rfl⟩ := h.complete hending c hc
    exact ⟨f a, by rw [offers_map]; exact List.mem_map_of_mem ha, rfl⟩

/-- A coarser view lists the images of what is wanted. -/
theorem coarsen (g : γ → δ) (h : cs.Lists view wanted) :
    cs.Lists (fun a ↦ g (view a)) fun d ↦ ∃ c, wanted c ∧ g c = d where
  sound a ha := ⟨view a, h.sound a ha, rfl⟩
  complete hending d hd := by
    obtain ⟨c, hc, rfl⟩ := hd
    obtain ⟨a, ha, rfl⟩ := h.complete hending c hc
    exact ⟨a, ha, rfl⟩

/-- A search goes on as if it had decided whether something acceptable is wanted. -/
theorem find {view' : β → δ} {wanted' : δ → Prop} {accept : α → Bool}
    {next : Option α → Candidates β} (h : cs.Lists view wanted) (accepted : γ → Prop)
    (haccept : ∀ a, accept a = true ↔ accepted (view a))
    (hsome : (∃ c, wanted c ∧ accepted c) → ∀ a, (next (some a)).Lists view' wanted')
    (hnone : (¬∃ c, wanted c ∧ accepted c) → (next none).Lists view' wanted') :
    (cs.find accept next).Lists view' wanted' := by
  cases find_found accept cs next with
  | accepted a mem accepts offers ending =>
    have hnext := hsome ⟨view a, h.sound a mem, (haccept a).mp accepts⟩ a
    exact ⟨by rw [offers]; exact hnext.sound, by rw [offers, ending]; exact hnext.complete⟩
  | refused none complete offers ending =>
    have hnext := hnone fun ⟨c, hc, haccepted⟩ ↦ by
      obtain ⟨a, ha, rfl⟩ := h.complete complete c hc
      rw [← haccept, none a ha] at haccepted
      cases haccepted
    exact ⟨by rw [offers]; exact hnext.sound, by rw [offers, ending]; exact hnext.complete⟩
  | failed fault faulty offers ending =>
    refine ⟨fun _ ha ↦ ?_, fun hending ↦ ?_⟩
    · rw [offers] at ha
      cases ha
    · rw [ending] at hending
      cases hending

/-- Every search lists what it offers. -/
theorem self (cs : Candidates α) : cs.Lists id fun a ↦ a ∈ cs.offers where
  sound _ ha := ha
  complete _ a ha := ⟨a, ha, rfl⟩

/-- A search whose outcome does not matter changes nothing of what is listed. -/
theorem find_of_forall {view' : β → δ} {wanted' : δ → Prop} {accept : α → Bool}
    {next : Option α → Candidates β} (h : ∀ found, (next found).Lists view' wanted') :
    (cs.find accept next).Lists view' wanted' :=
  (self cs).find (fun a ↦ accept a = true) (fun _ ↦ Iff.rfl) (fun _ a ↦ h (some a))
    fun _ ↦ h none

end Lists

end Candidates

namespace Phrase

/-- A literal stands in a word, segment by segment, if the pairs of segments are the same. -/
private theorem all_zip_extract (same : Segment → Segment → Bool) (literal word : Word)
    (start : Nat) :
    (literal.segments.zip (word.segments.extract start (start + literal.length))).all
        (fun pair ↦ same pair.1 pair.2) = true ↔
      ∀ i < literal.length, ∀ a ∈ literal.get? i, ∀ c ∈ word.get? (start + i), same a c := by
  have hcut {i : Nat} (hi : i < literal.length) :
      (word.segments.extract start (start + literal.length))[i]? = word.get? (start + i) := by
    rw [List.extract_eq_take_drop, List.getElem?_take_of_lt (by omega), List.getElem?_drop]
    rfl
  rw [List.all_eq_true]
  constructor
  · intro h i hi a ha c hc
    refine h (a, c) (List.mem_iff_getElem?.mpr ⟨i, ?_⟩)
    rw [List.getElem?_zip_eq_some, hcut hi]
    exact ⟨ha, hc⟩
  · intro h x hx
    obtain ⟨i, hi⟩ := List.mem_iff_getElem?.mp hx
    obtain ⟨ha, hc⟩ := List.getElem?_zip_eq_some.mp hi
    have hlt : i < literal.length := (List.getElem?_eq_some_iff.mp ha).1
    rw [hcut hlt] at hc
    exact h i hlt x.1 ha x.2 hc

/-- A literal ends where its segments end, if each stands in its place. -/
theorem afterLiteral?_eq_some {same : Segment → Segment → Bool} {literal : Word} {p : Phrase}
    {start stop : Position} : p.afterLiteral? same literal start = some stop ↔
      ∃ word, p.word? start.word = some word ∧
        stop = ⟨start.word, start.segment + literal.length⟩ ∧ stop.segment ≤ word.length ∧
        ∀ i < literal.length, ∀ a ∈ literal.get? i, ∀ c ∈ word.get? (start.segment + i),
          same a c := by
  unfold afterLiteral?
  cases hword : p.word? start.word with
  | none => simp
  | some word =>
    by_cases hle : start.segment + literal.length ≤ word.length
    · have hz := all_zip_extract same literal word start.segment
      simp only [Option.bind_eq_bind, Option.bind_some, hle, decide_true, Bool.true_and,
        Option.some.injEq, exists_eq_left']
      constructor
      · intro h
        split at h
        · next hall => cases h; exact ⟨rfl, hle, hz.mp hall⟩
        · cases h
      · rintro ⟨rfl, -, hall⟩
        rw [if_pos (hz.mpr hall)]
    · simp only [Option.bind_eq_bind, Option.bind_some, hle, decide_false, Bool.false_and,
        Bool.false_eq_true, if_false, reduceCtorEq, Option.some.injEq, exists_eq_left', false_iff]
      rintro ⟨rfl, h, -⟩
      exact hle h

/-- A word gap goes from the end of a word to the start of the next. -/
theorem nextWord?_eq_some {p : Phrase} {i j : Position} : p.nextWord? i = some j ↔
    p.isWordEnd i ∧ i.word + 1 < p.wordCount ∧ j = ⟨i.word + 1, 0⟩ := by
  rw [nextWord?]
  by_cases h : p.isWordEnd i = true ∧ i.word + 1 < p.wordCount
  · rw [if_pos (by simpa using h), Option.some.injEq]
    exact ⟨fun hj ↦ ⟨h.1, h.2, hj.symm⟩, fun hj ↦ hj.2.2.symm⟩
  · rw [if_neg (by simpa using h)]
    exact ⟨fun hj ↦ (nomatch hj), fun hj ↦ (h ⟨hj.1, hj.2.1⟩).elim⟩

end Phrase

namespace Matrix

/-- A test of one assertion succeeds exactly when the assertion holds. -/
theorem isSome_test_assertion {inv : Inventory} {candidate : Matrix} {b : Bindings}
    {a : Assertion} : (a.test inv candidate b).isSome ↔ a.Holds inv candidate := by
  cases a with
  | simple value => simp [Assertion.test, Assertion.Holds]
  | negated value => simp [Assertion.test, Assertion.Holds]
  | absent feature =>
    simp only [Assertion.test, Assertion.Holds]
    cases inv.feature? feature <;> simp
  | binds feature =>
    simp only [Assertion.test, Assertion.Holds, iff_true]
    split <;> rfl

/-- A test of a matrix succeeds exactly when the matrix satisfies the pattern. -/
theorem isSome_test {inv : Inventory} {pattern candidate : Matrix} {b : Bindings} :
    (pattern.test inv candidate b).isSome ↔ pattern.Satisfies inv candidate := by
  rw [test, Satisfies]
  simp only [SortedSet.mem_iff]
  induction pattern.toList generalizing b with
  | nil => simp
  | cons a rest ih =>
    rw [List.foldlM_cons, List.forall_mem_cons, ← isSome_test_assertion (b := b)]
    cases a.test inv candidate b with
    | none => simp
    | some bound => simp [ih]

end Matrix

namespace Finder

/-- A finder describes a kind of spans: wherever it starts, whatever is bound and whatever follows,
its ends are the ends of those spans. -/
def Describes (f : Finder) (spans : Spans) : Prop :=
  ∀ following scan start b, (f following scan start b).Lists Match.stop (spans scan start)

/-- An end that depends on the phrase alone describes the spans with that end. -/
theorem describes_ofEnd {stop? : Phrase → Position → Option Position} {spans : Spans}
    (h : ∀ scan start stop, stop? scan.phrase start = some stop ↔ spans scan start stop) :
    (ofEnd stop?).Describes spans := by
  intro following scan start b
  rw [ofEnd]
  cases hstop : stop? scan.phrase start with
  | none =>
    refine Candidates.Lists.done.congr fun stop ↦ ?_
    rw [← h, hstop]
    exact ⟨False.elim, fun h ↦ nomatch h⟩
  | some stop =>
    refine (Candidates.Lists.pure rfl).congr fun stop' ↦ ?_
    rw [← h, hstop, Option.some.injEq, eq_comm]

/-- A tested empty span describes the empty spans that pass the test. -/
theorem describes_emptyIf {test : Phrase → Position → Bool} {accepts : Phrase → Position → Prop}
    (h : ∀ p i, test p i ↔ accepts p i) : (emptyIf test).Describes (.emptyIf accepts) :=
  describes_ofEnd fun scan start stop ↦ by
    rw [Spans.emptyIf, ← h]
    cases test scan.phrase start <;> simp [eq_comm]

/-- A tested segment describes the segments whose matrix passes the test. -/
theorem describes_segmentWith {inv : Inventory} {values : Matrix}
    {matrixAt? : Phrase → Position → Option Matrix} :
    (segmentWith inv values matrixAt?).Describes
      (.segmentWith matrixAt? (values.Satisfies inv)) := by
  intro following scan start b
  rw [segmentWith]
  have hsome : ((matrixAt? scan.phrase start).bind fun m ↦ values.test inv m b).isSome ↔
      ∃ m ∈ matrixAt? scan.phrase start, values.Satisfies inv m := by
    cases matrixAt? scan.phrase start with
    | none => simp
    | some m => simp [Matrix.isSome_test]
  cases htest : (matrixAt? scan.phrase start).bind fun m ↦ values.test inv m b with
  | none =>
    rw [htest] at hsome
    refine Candidates.Lists.done.congr fun stop ↦ ?_
    simp only [Spans.segmentWith, ← hsome, Option.isSome_none, Bool.false_eq_true, false_and]
  | some bound =>
    rw [htest] at hsome
    refine (Candidates.Lists.pure rfl).congr fun stop ↦ ?_
    simp only [Spans.segmentWith, ← hsome, Option.isSome_some, true_and]

/-- The end of a syllable describes whole syllables. -/
theorem describes_syllableEnd : (ofEnd syllableEnd?).Describes .syllable :=
  describes_ofEnd fun scan start stop ↦ by
    rw [syllableEnd?, Spans.syllable]
    cases scan.phrase.word? start.word with
    | none => simp
    | some word =>
      simp only [Option.bind_eq_bind, Option.bind_some, Option.some.injEq, exists_eq_left']
      split
      · next h => exact ⟨fun hstop ↦ ⟨h.1, h.2, (Option.some.inj hstop).symm⟩, fun hstop ↦
          congrArg some hstop.2.2.symm⟩
      · next h => exact ⟨fun hstop ↦ (nomatch hstop), fun hstop ↦ (h ⟨hstop.1, hstop.2.1⟩).elim⟩

/-- A negation describes the segments that are no spans of what is negated. -/
theorem describes_negated {inner : Finder} {spans : Spans} (h : inner.Describes spans) :
    inner.negated.Describes (.negated spans) := by
  intro following scan start b
  rw [negated]
  cases hsegment : scan.phrase.segmentAt? start with
  | none =>
    refine Candidates.Lists.done.congr fun stop ↦ ⟨False.elim, ?_⟩
    rintro ⟨⟨segment, h⟩, -⟩
    rw [hsegment] at h
    cases h
  | some segment =>
    refine (h none scan start b).find (fun stop ↦ stop = start.step)
      (fun _ ↦ decide_eq_true_iff) ?_ ?_
    · rintro ⟨stop, hspan, rfl⟩ -
      refine Candidates.Lists.done.congr fun stop ↦ ?_
      exact ⟨False.elim, fun h ↦ h.2.1 hspan⟩
    · intro hno
      refine (Candidates.Lists.pure rfl).congr fun stop ↦ ?_
      have hspan : ¬spans scan start start.step := fun hspan ↦ hno ⟨_, hspan, rfl⟩
      exact ⟨fun h ↦ ⟨⟨segment, hsegment⟩, hspan, h⟩, fun h ↦ h.2.2⟩

/-- Finders in sequence describe spans in sequence. -/
theorem describes_sequence {finders : List Finder} {kinds : List Spans}
    (h : List.Forall₂ Describes finders kinds) :
    (sequence finders).Describes (.sequence kinds) := by
  induction h with
  | nil =>
    intro following scan start b
    exact Candidates.Lists.pure rfl
  | cons hfirst _ ih =>
    intro following scan start b
    exact (hfirst _ scan start b).bind _ fun m _ ↦ ih none scan m.stop m.bindings

/-- Alternative finders describe the spans of all of them. -/
theorem describes_alternative {finders : List Finder} {kinds : List Spans}
    (h : List.Forall₂ Describes finders kinds) :
    (alternative finders).Describes (.alternative kinds) := by
  induction h with
  | nil =>
    intro following scan start b
    exact Candidates.Lists.done.congr fun stop ↦ by simp [Spans.alternative]
  | cons hfirst _ ih =>
    intro following scan start b
    refine ((hfirst following scan start b).append (ih following scan start b)).choice.congr ?_
    intro stop
    simp [Spans.alternative]

/-- Telling what follows only changes the order of candidates. -/
theorem lists_takesOver {γ : Type w} {view : Match → γ} {wanted : γ → Prop}
    {following : Option Probe} {scan : Scan} {start : Position} {b : Bindings}
    {next : Bool → Candidates Match} (h : ∀ found, (next found).Lists view wanted) :
    (takesOver following scan start b next).Lists view wanted := by
  unfold takesOver
  split
  · exact h false
  · exact Candidates.Lists.find_of_forall fun found ↦ h found.isSome

/-- What can follow a number of repetitions: nothing, an empty repetition that makes up for the
minimum, or a repetition that moves and what can follow it. -/
private theorem steps_unfold {span : Position → Position → Prop} {min count : Nat}
    {max : Option Nat} {start stop : Position} (hcount : ∀ most ∈ max, count ≤ most) :
    (∃ more, Spans.Steps span more start stop ∧
        Spans.EnoughSteps min max (count + more) (span stop stop)) ↔
      (min ≤ count ∧ stop = start) ∨ ((∀ most ∈ max, count < most) ∧ ∃ middle, span start middle ∧
        if middle = start then count < min ∧ stop = start
        else ∃ more, Spans.Steps span more middle stop ∧
          Spans.EnoughSteps min max (count + 1 + more) (span stop stop)) := by
  constructor
  · rintro ⟨more, hsteps, henough⟩
    cases hsteps with
    | none =>
      rcases henough with henough | ⟨hmin, hmax, hempty⟩
      · exact .inl ⟨henough.1, rfl⟩
      · exact .inr ⟨hmax, start, hempty, by rw [if_pos rfl]; exact ⟨hmin, rfl⟩⟩
    | @next more _ middle _ first moves rest =>
      refine .inr ⟨fun most hmost ↦ ?_, middle, first, ?_⟩
      · rcases henough with henough | henough
        · have := henough.2 most hmost
          omega
        · have := henough.2.1 most hmost
          omega
      · rw [if_neg moves]
        exact ⟨more, rest, by rwa [Nat.add_assoc, Nat.add_comm 1 more]⟩
  · rintro (⟨hmin, rfl⟩ | ⟨hmax, middle, hspan, hrest⟩)
    · exact ⟨0, .none stop, .inl ⟨hmin, hcount⟩⟩
    · split at hrest
      · next heq =>
        obtain ⟨hmin, rfl⟩ := hrest
        exact ⟨0, .none stop, .inr ⟨hmin, hmax, heq ▸ hspan⟩⟩
      · next hne =>
        obtain ⟨more, hsteps, henough⟩ := hrest
        refine ⟨more + 1, .next hspan hne hsteps, ?_⟩
        rwa [Nat.add_assoc, Nat.add_comm 1 more] at henough

/-- One more repetition after some, and what comes after it. -/
def oneMore (inner : Finder) (min : Nat) (max : Option Nat) (following : Option Probe)
    (scan : Scan) (bound count : Nat) (start : Position) (b : Bindings) : Candidates Match :=
  (inner none scan start b).bind fun m ↦
    if m.stop = start then if min ≤ count then .done else .pure m
    else repeatAfter inner min max following scan bound (count + 1) m.stop m.bindings

/-- Between two repetitions a search stops or goes on, as the bounds and what follows ask for. -/
theorem repeatAfter_succ (inner : Finder) (min : Nat) (max : Option Nat)
    (following : Option Probe) (scan : Scan) (bound count : Nat) (start : Position)
    (b : Bindings) : repeatAfter inner min max following scan (bound + 1) count start b =
      .choice fun _ ↦
        let stay (_ : Unit) : Candidates Match := .pure ⟨start, b⟩
        let extend (_ : Unit) : Candidates Match :=
          oneMore inner min max following scan bound count start b
        if max.all (count < ·) then
          if min ≤ count then takesOver following scan start b fun refused ↦
            if refused then .append stay extend else .append extend stay
          else extend ()
        else if min ≤ count then stay () else .done := by
  rw [repeatAfter]
  cases max.all (count < ·) <;> by_cases hmin : min ≤ count <;> simp [hmin, oneMore]

/-- One more repetition is a span from the start, and what comes after it. An empty one makes up for
what the minimum asks for. -/
theorem lists_oneMore {inner : Finder} {kind : Spans} (h : inner.Describes kind) {min : Nat}
    {max : Option Nat} {following : Option Probe} {scan : Scan} {bound count : Nat}
    {start : Position} {b : Bindings} {after : Position → Position → Prop}
    (hafter : ∀ middle b', (repeatAfter inner min max following scan bound (count + 1) middle
      b').Lists Match.stop (after middle)) :
    (oneMore inner min max following scan bound count start b).Lists Match.stop fun stop ↦
      ∃ middle, kind scan start middle ∧
        if middle = start then count < min ∧ stop = start else after middle stop := by
  refine (h none scan start b).bind _ fun m _ ↦ ?_
  by_cases hm : m.stop = start
  · simp only [if_pos hm]
    split
    · next hmin =>
      exact Candidates.Lists.done.congr fun stop ↦ ⟨False.elim, fun h ↦ by omega⟩
    · next hmin =>
      refine (Candidates.Lists.pure hm).congr fun stop ↦ ?_
      exact ⟨fun h ↦ ⟨by omega, h⟩, fun h ↦ h.2⟩
  · simp only [if_neg hm]
    exact hafter m.stop m.bindings

/-- After some repetitions the search goes on with further ones, and it may stop where those so far
are enough. The bound on the positions that are left only ends a search with a fault. -/
theorem lists_repeatAfter {inner : Finder} {kind : Spans} (h : inner.Describes kind) (min : Nat)
    (max : Option Nat) (following : Option Probe) (scan : Scan) (bound count : Nat)
    (start : Position) (b : Bindings) (hcount : ∀ most ∈ max, count ≤ most) :
    (repeatAfter inner min max following scan bound count start b).Lists Match.stop fun stop ↦
      ∃ more, Spans.Steps (kind scan) more start stop ∧
        Spans.EnoughSteps min max (count + more) (kind scan stop stop) := by
  induction bound generalizing count start b with
  | zero => exact Candidates.Lists.fail _
  | succ bound ih =>
    have hstay : (Candidates.pure (⟨start, b⟩ : Match)).Lists Match.stop (· = start) :=
      Candidates.Lists.pure rfl
    have hextend (hmax : ∀ most ∈ max, count < most) :=
      @lists_oneMore _ _ h min max following scan bound count start b _ fun middle b' ↦
        ih (count + 1) middle b' hmax
    rw [repeatAfter_succ]
    refine Candidates.Lists.choice ?_
    dsimp only
    have hall : max.all (fun most ↦ decide (count < most)) = true ↔
        ∀ most ∈ max, count < most := by
      cases max <;> simp
    by_cases hmax : ∀ most ∈ max, count < most
    · rw [if_pos (hall.mpr hmax)]
      split
      · next hmin =>
        refine lists_takesOver fun refused ↦ ?_
        split
        · refine (hstay.append (hextend hmax)).congr fun stop ↦ ?_
          rw [steps_unfold hcount]
          simp only [hmin, true_and, eq_true hmax]
        · refine ((hextend hmax).append hstay).congr fun stop ↦ ?_
          rw [steps_unfold hcount, or_comm]
          simp only [hmin, true_and, eq_true hmax]
      · next hmin =>
        refine (hextend hmax).congr fun stop ↦ ?_
        rw [steps_unfold hcount]
        simp only [hmin, false_and, false_or, eq_true hmax, true_and]
    · rw [if_neg (fun h ↦ hmax (hall.mp h))]
      split
      · next hmin =>
        refine hstay.congr fun stop ↦ ?_
        rw [steps_unfold hcount]
        simp only [hmin, true_and, hmax, false_and, or_false]
      · next hmin =>
        refine Candidates.Lists.done.congr fun stop ↦ ?_
        rw [steps_unfold hcount]
        simp only [hmin, false_and, hmax, or_false]

/-- Repetitions of a finder describe repeated spans. -/
theorem describes_repeater {inner : Finder} {kind : Spans} (h : inner.Describes kind) (min : Nat)
    (max : Option Nat) : (inner.repeater min max).Describes (kind.repeated min max) := by
  intro following scan start b
  refine (lists_repeatAfter h min max following scan _ 0 start b
    fun _ _ ↦ Nat.zero_le _).congr fun stop ↦ ?_
  simp only [Spans.repeated, Nat.zero_add]

/-- Capturing changes no ends. -/
theorem describes_capture {inner : Finder} {kind : Spans} (h : inner.Describes kind)
    (number : Nat) (reversed : Bool) : (inner.capture number reversed).Describes kind := by
  intro following scan start b
  refine ((h following scan start b).bind (fun c stop ↦ stop = c)
    fun m _ ↦ ?_).congr fun stop ↦ by simp
  split
  · exact Candidates.Lists.fail _
  · exact Candidates.Lists.pure rfl

/-- Every check of a list holds where its spans are as it asks. -/
theorem lists_checksHold {scan : Scan} {start : Position} {checks : List (Finder × Bool)}
    {kinds : List (Spans × Bool)}
    (h : List.Forall₂ (fun f k ↦ f.1.Describes k.1 ∧ f.2 = k.2) checks kinds) (b : Bindings) :
    (checksHold scan start checks b).Lists (fun _ ↦ ()) fun _ ↦
      ∀ check ∈ kinds, (∃ other, check.1 scan start other) ↔ check.2 = false := by
  induction h generalizing b with
  | nil => exact (Candidates.Lists.pure (c := ()) rfl).congr fun _ ↦ by simp
  | @cons check kind checks kinds hfirst _ ih =>
    obtain ⟨finder, negated⟩ := check
    obtain ⟨spans, _⟩ := kind
    obtain ⟨hdescribes, rfl⟩ := hfirst
    refine ((hdescribes none scan start b).find (fun _ ↦ True)
      (fun _ ↦ by simp) ?_ ?_)
    · rintro ⟨other, hother, -⟩ m
      have hexists : (∃ other, spans scan start other) ↔ True := iff_true_intro ⟨other, hother⟩
      cases negated with
      | false =>
        refine (ih m.bindings).congr fun _ ↦ ?_
        rw [List.forall_mem_cons, hexists]
        simp
      | true =>
        refine Candidates.Lists.done.congr fun _ ↦ ?_
        rw [List.forall_mem_cons, hexists]
        simp
    · intro hno
      have hexists : (∃ other, spans scan start other) ↔ False :=
        iff_false_intro fun ⟨other, hother⟩ ↦ hno ⟨other, hother, trivial⟩
      cases negated with
      | false =>
        refine Candidates.Lists.done.congr fun _ ↦ ?_
        rw [List.forall_mem_cons, hexists]
        simp
      | true =>
        refine (ih b).congr fun _ ↦ ?_
        rw [List.forall_mem_cons, hexists]
        simp

/-- Checked finders describe checked spans. -/
theorem describes_intersection {initial : Finder} {kind : Spans} {checks : List (Finder × Bool)}
    {kinds : List (Spans × Bool)} (hinitial : initial.Describes kind)
    (h : List.Forall₂ (fun f k ↦ f.1.Describes k.1 ∧ f.2 = k.2) checks kinds) :
    (intersection initial checks).Describes (.intersection kind kinds) := by
  intro following scan start b
  have hchecks (m : Match) : ((checksHold scan start checks m.bindings).map fun bound ↦
      (⟨m.stop, bound⟩ : Match)).Lists Match.stop fun stop ↦ stop = m.stop ∧
        ∀ check ∈ kinds, (∃ other, check.1 scan start other) ↔ check.2 = false := by
    refine (((lists_checksHold h m.bindings).coarsen fun _ ↦ m.stop).map
      (f := fun bound ↦ (⟨m.stop, bound⟩ : Match))).congr fun stop ↦ ?_
    simp only [exists_const]
    rw [and_comm, eq_comm]
  refine ((hinitial following scan start b).bind (fun c stop ↦ stop = c ∧
    ∀ check ∈ kinds, (∃ other, check.1 scan start other) ↔ check.2 = false)
      fun m _ ↦ hchecks m).congr fun stop ↦ ?_
  rw [Spans.intersection]
  constructor
  · rintro ⟨_, hspan, rfl, hall⟩
    exact ⟨hspan, hall⟩
  · rintro ⟨hspan, hall⟩
    exact ⟨stop, hspan, rfl, hall⟩

variable {scan : Scan} {start stop : Position}

/-- A search around a span decides whether both sides have spans. -/
theorem lists_around {sides : Finder × Finder} {kinds : Spans × Spans}
    (h : sides.1.Describes kinds.1 ∧ sides.2.Describes kinds.2) (b : Bindings) :
    (around sides scan start stop b).Lists (fun _ ↦ ()) fun _ ↦
      Spans.Around kinds scan start stop := by
  rw [around]
  cases hturn : scan.phrase.turn? start with
  | none => exact Candidates.Lists.fail _
  | some back =>
    have hback : scan.phrase.turn start = back := by
      rw [Phrase.turn?] at hturn
      split at hturn
      · exact Option.some.inj hturn
      · cases hturn
    have hahead (m : Match) : ((sides.2 none scan stop m.bindings).map Match.bindings).Lists
        (fun _ ↦ ()) fun _ ↦ ∃ other, kinds.2 scan stop other :=
      (((h.2 none scan stop m.bindings).coarsen fun _ ↦ ()).map (f := Match.bindings)).congr
        fun _ ↦ by simp
    refine ((h.1 none scan.turned back b).bind (fun _ _ ↦ ∃ other, kinds.2 scan stop other)
      fun m _ ↦ hahead m).congr fun _ ↦ ?_
    rw [Spans.Around, hback]
    exact ⟨fun ⟨c, hc, hrest⟩ ↦ ⟨⟨c, hc⟩, hrest⟩, fun ⟨⟨c, hc⟩, hrest⟩ ↦ ⟨c, hc, hrest⟩⟩

/-- A search goes on where nothing of a list of surroundings holds. -/
theorem lists_unlessAround {α : Type u} {γ : Type w} {view : α → γ} {wanted : γ → Prop}
    {next : Unit → Candidates α} {exclusions : List (Finder × Finder)}
    {kinds : List (Spans × Spans)} (b : Bindings) (hnext : (next ()).Lists view wanted)
    (h : List.Forall₂ (fun f k ↦ f.1.Describes k.1 ∧ f.2.Describes k.2) exclusions kinds) :
    (unlessAround scan start stop b next exclusions).Lists view fun c ↦
      (∀ sides ∈ kinds, ¬Spans.Around sides scan start stop) ∧ wanted c := by
  induction h with
  | nil => exact hnext.congr fun c ↦ by simp
  | cons hfirst _ ih =>
    refine (lists_around hfirst b).find (fun _ ↦ True) (fun _ ↦ by simp) ?_ ?_
    · rintro ⟨-, hholds, -⟩ bound
      refine Candidates.Lists.done.congr fun c ↦ ⟨False.elim, fun hc ↦ ?_⟩
      exact hc.1 _ List.mem_cons_self hholds
    · intro hno
      refine ih.congr fun c ↦ ?_
      rw [List.forall_mem_cons]
      exact ⟨fun hc ↦ ⟨⟨fun hholds ↦ hno ⟨(), hholds, trivial⟩, hc.1⟩, hc.2⟩,
        fun hc ↦ ⟨hc.1.2, hc.2⟩⟩

/-- The surroundings of a list that hold are those that a search for one of them finds. -/
theorem lists_inSome {conditions : List (Finder × Finder)} {kinds : List (Spans × Spans)}
    (b : Bindings)
    (h : List.Forall₂ (fun f k ↦ f.1.Describes k.1 ∧ f.2.Describes k.2) conditions kinds) :
    (inSome scan start stop b conditions).Lists (fun _ ↦ ()) fun _ ↦
      ∃ sides ∈ kinds, Spans.Around sides scan start stop := by
  induction h with
  | nil => exact Candidates.Lists.done.congr fun _ ↦ by simp
  | cons hfirst _ ih => exact ((lists_around hfirst b).append ih).congr fun _ ↦ by simp

/-- Finders with surroundings describe spans with surroundings. -/
theorem describes_environment {core : Finder} {kind : Spans}
    {conditions exclusions : List (Finder × Finder)}
    {conditionKinds exclusionKinds : List (Spans × Spans)} (hcore : core.Describes kind)
    (hconditions : List.Forall₂ (fun f k ↦ f.1.Describes k.1 ∧ f.2.Describes k.2) conditions
      conditionKinds)
    (hexclusions : List.Forall₂ (fun f k ↦ f.1.Describes k.1 ∧ f.2.Describes k.2) exclusions
      exclusionKinds) :
    (environment core conditions exclusions).Describes
      (.environment kind conditionKinds exclusionKinds) := by
  intro following scan start b
  have hinner (m : Match) : (if conditions.isEmpty then .pure m
      else (inSome scan start m.stop m.bindings conditions).map
        fun bound ↦ (⟨m.stop, bound⟩ : Match)).Lists Match.stop fun stop ↦ stop = m.stop ∧
          (conditionKinds ≠ [] →
            ∃ sides ∈ conditionKinds, Spans.Around sides scan start m.stop) := by
    cases hconditions with
    | nil => exact (Candidates.Lists.pure rfl).congr fun stop ↦ by simp
    | cons hfirst hrest =>
      refine (((lists_inSome m.bindings (.cons hfirst hrest)).coarsen fun _ ↦ m.stop).map
        (f := fun bound ↦ (⟨m.stop, bound⟩ : Match))).congr fun stop ↦ ?_
      simp only [exists_const, ne_eq, reduceCtorEq, not_false_eq_true, true_imp_iff]
      rw [and_comm, eq_comm]
  refine ((hcore following scan start b).bind (fun c stop ↦
    (∀ sides ∈ exclusionKinds, ¬Spans.Around sides scan start c) ∧ stop = c ∧
      (conditionKinds ≠ [] → ∃ sides ∈ conditionKinds, Spans.Around sides scan start c))
    fun m _ ↦ lists_unlessAround m.bindings (hinner m) hexclusions).congr fun stop ↦ ?_
  rw [Spans.environment]
  constructor
  · rintro ⟨_, hspan, hno, rfl, hsome⟩
    exact ⟨hspan, hno, hsome⟩
  · rintro ⟨hspan, hno, hsome⟩
    exact ⟨stop, hspan, hno, rfl, hsome⟩

end Finder

mutual

/-- The finder of a pattern that refers to no captures describes the spans of the pattern. -/
theorem Pattern.finder_describes (inv : Inventory) : (p : Pattern) → p.isReferenceFree →
    (p.finder inv).Describes (p.spans inv)
  | .empty, _ => Finder.describes_emptyIf fun _ _ ↦ by simp
  | .never, _ => Finder.describes_emptyIf fun _ _ ↦ by simp
  | .wordStart, _ => Finder.describes_emptyIf fun _ _ ↦ Iff.rfl
  | .wordEnd, _ => Finder.describes_emptyIf fun _ _ ↦ Iff.rfl
  | .betweenWords, _ => Finder.describes_ofEnd fun _ _ _ ↦ Phrase.nextWord?_eq_some
  | .text _, _ => Finder.describes_ofEnd fun _ _ _ ↦ Phrase.afterLiteral?_eq_some
  | .symbol _, _ => Finder.describes_ofEnd fun _ _ _ ↦ Phrase.afterLiteral?_eq_some
  | .matrix _, _ => Finder.describes_segmentWith
  | .syllableMatrix _, _ => Finder.describes_segmentWith
  | .negated inner, h => Finder.describes_negated (inner.finder_describes inv h)
  | .syllable, _ => Finder.describes_syllableEnd
  | .syllableBoundary, _ => Finder.describes_emptyIf fun _ _ ↦ Iff.rfl
  | .sequence items, h => Finder.describes_sequence (Pattern.finders_describe inv items h)
  | .alternative options, h =>
    Finder.describes_alternative (Pattern.finders_describe inv options h)
  | .repeater inner min max, h =>
    Finder.describes_repeater (inner.finder_describes inv h) min max
  | .capture inner number reversed, h =>
    Finder.describes_capture (inner.finder_describes inv h) number reversed
  | .intersection initial checks, h => by
    rw [Pattern.isReferenceFree, Bool.and_eq_true] at h
    exact Finder.describes_intersection (initial.finder_describes inv h.1)
      (Check.finders_describe inv checks h.2)
  | .environment core conditions exclusions, h => by
    simp only [Pattern.isReferenceFree, Bool.and_eq_true] at h
    exact Finder.describes_environment (core.finder_describes inv h.1.1)
      (Surroundings.finders_describe inv conditions h.1.2)
      (Surroundings.finders_describe inv exclusions h.2)
  | .captureReference _ _ _, h => by cases h

/-- The finders of patterns that refer to no captures describe the spans of the patterns. -/
theorem Pattern.finders_describe (inv : Inventory) : (ps : List Pattern) →
    Pattern.allReferenceFree ps →
    List.Forall₂ Finder.Describes (Pattern.finders inv ps) (Pattern.spansOfAll inv ps)
  | [], _ => .nil
  | p :: rest, h => by
    rw [Pattern.allReferenceFree, Bool.and_eq_true] at h
    exact .cons (p.finder_describes inv h.1) (Pattern.finders_describe inv rest h.2)

/-- The finders of checks that refer to no captures describe the spans of the checks. -/
theorem Check.finders_describe (inv : Inventory) : (checks : List Check) →
    Check.allReferenceFree checks →
    List.Forall₂ (fun f k ↦ f.1.Describes k.1 ∧ f.2 = k.2) (Check.finders inv checks)
      (Check.spansOfAll inv checks)
  | [], _ => .nil
  | .mk p negated :: rest, h => by
    rw [Check.allReferenceFree, Bool.and_eq_true] at h
    exact .cons ⟨p.finder_describes inv h.1, rfl⟩ (Check.finders_describe inv rest h.2)

/-- The finders of surroundings that refer to no captures describe the spans of their sides. -/
theorem Surroundings.finders_describe (inv : Inventory) : (l : List Surroundings) →
    Surroundings.allReferenceFree l →
    List.Forall₂ (fun f k ↦ f.1.Describes k.1 ∧ f.2.Describes k.2) (Surroundings.finders inv l)
      (Surroundings.spansOfAll inv l)
  | [], _ => .nil
  | .mk behind ahead :: rest, h => by
    simp only [Surroundings.allReferenceFree, Bool.and_eq_true] at h
    exact .cons ⟨behind.finder_describes inv h.1.1, ahead.finder_describes inv h.1.2⟩
      (Surroundings.finders_describe inv rest h.2)

end

end Diachrony
