import Diachrony.Proofs.Pattern.Adequacy
import Diachrony.Proofs.Phrase.Positions

/-!
# Searches stay in the phrase

From a position of the phrase every search ends at a position of the phrase that is not before it.
So a search never leaves the phrase, and a repetition that moves on comes to an end before the
number of positions runs out. The one fault that is left is a reference to a capture that is not
bound, and only a pattern with such references has it.
-/

namespace Diachrony

universe u v

namespace Candidates

variable {α : Type u} {β : Type v}

/-- A search offers nothing but what is kept and has no fault but those that are allowed. -/
structure Keeps (kept : α → Prop) (allowed : Fault → Prop) (cs : Candidates α) : Prop where
  /-- What is offered is kept. -/
  offers : ∀ a ∈ cs.offers, kept a
  /-- A fault at the end is allowed. -/
  ending : ∀ fault ∈ cs.ending, allowed fault

namespace Keeps

variable {kept : α → Prop} {kept' : β → Prop} {allowed : Fault → Prop} {cs : Candidates α}

/-- Less may be asked of what is kept. -/
theorem mono {other : α → Prop} (h : cs.Keeps kept allowed) (himp : ∀ a, kept a → other a) :
    cs.Keeps other allowed where
  offers a ha := himp a (h.offers a ha)
  ending := h.ending

/-- An ended search keeps to anything. -/
theorem done : (done : Candidates α).Keeps kept allowed where
  offers _ ha := by cases ha
  ending _ hfault := by cases hfault

/-- A failed search keeps to what allows its fault. -/
theorem fail {fault : Fault} (h : allowed fault) :
    (fail fault : Candidates α).Keeps kept allowed where
  offers _ ha := by cases ha
  ending _ hfault := by cases hfault; exact h

/-- A single candidate that is kept. -/
theorem pure {a : α} (h : kept a) : (pure a).Keeps kept allowed where
  offers _ ha := by cases List.mem_singleton.mp ha; exact h
  ending _ hfault := by cases hfault

/-- A choice point changes nothing of what is kept. -/
theorem choice {rest : Unit → Candidates α} (h : (rest ()).Keeps kept allowed) :
    (choice rest).Keeps kept allowed := ⟨h.offers, h.ending⟩

/-- Two searches keep to what both keep to. -/
theorem append {first second : Unit → Candidates α} (hfirst : (first ()).Keeps kept allowed)
    (hsecond : (second ()).Keeps kept allowed) : (append first second).Keeps kept allowed where
  offers a ha := by
    rw [offers_append, List.mem_append] at ha
    rcases ha with ha | ha
    · exact hfirst.offers a ha
    · split at ha
      · exact hsecond.offers a ha
      · cases ha
  ending fault hfault := by
    rw [ending_append, Option.mem_def, Option.or_eq_some_iff] at hfault
    rcases hfault with hfault | ⟨-, hfault⟩
    · exact hfirst.ending fault hfault
    · exact hsecond.ending fault hfault

/-- A chained search keeps to what all that it leads to keeps to. -/
theorem bind {f : α → Candidates β} (h : cs.Keeps kept allowed)
    (hf : ∀ a, kept a → (f a).Keeps kept' allowed) : (cs.bind f).Keeps kept' allowed where
  offers b hb := by
    obtain ⟨a, ha, hb⟩ := exists_of_mem_offers_bind hb
    exact (hf a (h.offers a ha)).offers b hb
  ending fault hfault := by
    rcases ending_bind_eq_some hfault with hfault | ⟨a, ha, hfault⟩
    · exact h.ending fault hfault
    · exact (hf a (h.offers a ha)).ending fault hfault

/-- Changed candidates are kept as the change asks. -/
theorem map {f : α → β} (h : cs.Keeps kept allowed) (hf : ∀ a, kept a → kept' (f a)) :
    (cs.map f).Keeps kept' allowed where
  offers b hb := by
    rw [offers_map, List.mem_map] at hb
    obtain ⟨a, ha, rfl⟩ := hb
    exact hf a (h.offers a ha)
  ending fault hfault := by
    rw [ending_map] at hfault
    exact h.ending fault hfault

/-- A search for an accepted candidate keeps to what it goes on with. -/
theorem find {accept : α → Bool} {next : Option α → Candidates β} (h : cs.Keeps kept allowed)
    (hnext : ∀ found, (∀ a ∈ found, kept a) → (next found).Keeps kept' allowed) :
    (cs.find accept next).Keeps kept' allowed := by
  cases find_found accept cs next with
  | accepted a mem accepts offers ending =>
    have hsome := hnext (some a) fun b hb ↦ by cases hb; exact h.offers a mem
    exact ⟨by rw [offers]; exact hsome.offers, by rw [ending]; exact hsome.ending⟩
  | refused none complete offers ending =>
    have hnone := hnext Option.none fun b hb ↦ by cases hb
    exact ⟨by rw [offers]; exact hnone.offers, by rw [ending]; exact hnone.ending⟩
  | failed fault faulty offers ending =>
    refine ⟨fun _ ha ↦ ?_, fun other hother ↦ ?_⟩
    · rw [offers] at ha
      cases ha
    · rw [ending] at hother
      cases hother
      exact h.ending fault faulty

end Keeps

end Candidates

/-- The other direction of a scan has the same words backwards, as far as their lengths go. -/
def Scan.Mirrors (scan : Scan) : Prop := scan.back.lengths = scan.phrase.lengths.reverse

namespace Scan

/-- A phrase and its reversal mirror each other. -/
theorem mirrors_of (p : Phrase) : (Scan.of p).Mirrors := p.lengths_reversed

/-- A scan the other way mirrors too. -/
theorem Mirrors.turned {scan : Scan} (h : scan.Mirrors) : scan.turned.Mirrors := by
  rw [Mirrors] at h ⊢
  simp only [Scan.turned, h, List.reverse_reverse]

end Scan

namespace Word

/-- A syllable ends after its start, in the word. -/
theorem syllableStop_bounds (w : Word) {start : Nat} (h : start < w.length) :
    start < w.syllableStop start ∧ w.syllableStop start ≤ w.length := by
  rw [syllableStop]
  cases hfind : w.syllableStarts.find? (start < ·) with
  | none => exact ⟨h, Nat.le_refl _⟩
  | some stop =>
    have hlt : start < stop := of_decide_eq_true (List.find?_some (p := (start < ·)) hfind)
    refine ⟨hlt, ?_⟩
    rcases List.mem_cons.mp (List.mem_of_find?_eq_some hfind) with rfl | hmem
    · exact Nat.zero_le _
    · rw [← SortedSet.mem_iff, innerBreaks, SortedSet.mem_filter] at hmem
      have := of_decide_eq_true hmem.2
      exact Nat.le_of_lt this.2

end Word

namespace Phrase

variable {p : Phrase} {start stop : Position}

/-- Positions of the phrase turn. -/
theorem turn?_of_isPosition (h : p.isPosition start) : p.turn? start = some (p.turn start) :=
  if_pos h

/-- The position after a segment is a position of the phrase. -/
theorem isPosition_step {word : Word} (hword : p.word? start.word = some word)
    (h : start.segment < word.length) : p.isPosition start.step := by
  rw [isPosition_iff, Position.step, wordLength_of_word? hword]
  exact ⟨lt_wordCount_of_word? hword, h⟩

/-- A position with a segment after it stands in a word. -/
theorem exists_word_of_segmentAt? {segment : Segment} (h : p.segmentAt? start = some segment) :
    ∃ word, p.word? start.word = some word ∧ start.segment < word.length := by
  rw [segmentAt?, Option.bind_eq_some_iff] at h
  obtain ⟨word, hword, hget⟩ := h
  exact ⟨word, hword, (List.getElem?_eq_some_iff.mp hget).1⟩

/-- A literal ends in the word in which it starts. -/
theorem ahead_of_afterLiteral? {same : Segment → Segment → Bool} {literal : Word}
    (h : p.afterLiteral? same literal start = some stop) : p.isPosition stop ∧ start ≤ stop := by
  obtain ⟨word, hword, rfl, hle, -⟩ := afterLiteral?_eq_some.mp h
  rw [isPosition_iff, wordLength_of_word? hword, Position.le_iff]
  exact ⟨⟨lt_wordCount_of_word? hword, hle⟩, .inr ⟨rfl, Nat.le_add_right _ _⟩⟩

/-- A word gap ends at the start of a word further on. -/
theorem ahead_of_nextWord? (h : p.nextWord? start = some stop) :
    p.isPosition stop ∧ start ≤ stop := by
  obtain ⟨-, hlt, rfl⟩ := nextWord?_eq_some.mp h
  rw [isPosition_iff, Position.le_iff]
  exact ⟨⟨hlt, Nat.zero_le _⟩, .inl (Nat.lt_succ_self _)⟩

/-- Words that follow one another end in the phrase. -/
theorem ahead_of_afterWords? {same : Segment → Segment → Bool} {words : List Word}
    (hstart : p.isPosition start) (h : p.afterWords? same words start = some stop) :
    p.isPosition stop ∧ start ≤ stop := by
  fun_induction afterWords? same p words start with
  | case1 => cases h; exact ⟨hstart, le_refl _⟩
  | case2 start w => exact ahead_of_afterLiteral? h
  | case3 start w rest hne ih =>
    simp only [Option.bind_eq_bind, Option.bind_eq_some_iff] at h
    obtain ⟨middle, hmiddle, next, hnext, h⟩ := h
    obtain ⟨-, hle⟩ := ahead_of_afterLiteral? hmiddle
    obtain ⟨hposition, hle'⟩ := ahead_of_nextWord? hnext
    obtain ⟨hstop, hle''⟩ := ih next hposition h
    exact ⟨hstop, hle.trans (hle'.trans hle'')⟩

/-- The syllable at a position ends in the same word, further on. -/
theorem ahead_of_syllableEnd? (h : Finder.syllableEnd? p start = some stop) :
    p.isPosition stop ∧ start ≤ stop := by
  rw [Finder.syllableEnd?, Option.bind_eq_bind, Option.bind_eq_some_iff] at h
  obtain ⟨word, hword, h⟩ := h
  split at h
  · next hsyllable =>
    cases h
    obtain ⟨hlt, hle⟩ := word.syllableStop_bounds hsyllable.1
    rw [isPosition_iff, wordLength_of_word? hword, Position.le_iff]
    exact ⟨⟨lt_wordCount_of_word? hword, hle⟩, .inr ⟨rfl, Nat.le_of_lt hlt⟩⟩
  · cases h

end Phrase

namespace Position

/-- A step leads on. -/
theorem le_step (i : Position) : i ≤ i.step := by
  rw [le_iff, step]
  simp

end Position

namespace Finder

variable {allowed : Fault → Prop}

/-- Where a search that starts at a position may end: at a position that is not before it. -/
def Ahead (scan : Scan) (start : Position) (m : Match) : Prop :=
  scan.phrase.isPosition m.stop ∧ start ≤ m.stop

/-- A probe that stays in the phrase, apart from faults that are allowed. -/
def ProbeInside (allowed : Fault → Prop) (probe : Probe) : Prop :=
  ∀ scan start b, scan.Mirrors → scan.phrase.isPosition start →
    (probe scan start b).Keeps (Ahead scan start) allowed

/-- A finder that stays in the phrase whatever follows, as long as what follows does. -/
def Inside (allowed : Fault → Prop) (f : Finder) : Prop :=
  ∀ following, (∀ probe ∈ following, ProbeInside allowed probe) →
    ProbeInside allowed (f following)

/-- A finder that nothing follows stays in the phrase. -/
theorem Inside.alone {f : Finder} (h : f.Inside allowed) : ProbeInside allowed (f none) :=
  h none fun _ hprobe ↦ nomatch hprobe

/-- An end that depends on the phrase alone stays in the phrase if it lies in it. -/
theorem inside_ofEnd {stop? : Phrase → Position → Option Position}
    (h : ∀ p start stop, p.isPosition start → stop? p start = some stop →
      p.isPosition stop ∧ start ≤ stop) : (ofEnd stop?).Inside allowed := by
  intro following _ scan start b _ hstart
  rw [ofEnd]
  split
  · next stop hstop => exact .pure (h scan.phrase start stop hstart hstop)
  · exact .done

/-- A tested empty span stays in the phrase. -/
theorem inside_emptyIf (test : Phrase → Position → Bool) : (emptyIf test).Inside allowed :=
  inside_ofEnd fun p start stop hstart hstop ↦ by
    split at hstop
    · cases hstop
      exact ⟨hstart, le_refl _⟩
    · cases hstop

/-- A tested segment stays in the phrase if a matrix belongs to segments only. -/
theorem inside_segmentWith {inv : Inventory} {values : Matrix}
    {matrixAt? : Phrase → Position → Option Matrix}
    (h : ∀ p start m, matrixAt? p start = some m → p.isPosition start.step) :
    (segmentWith inv values matrixAt?).Inside allowed := by
  intro following _ scan start b _ _
  rw [segmentWith]
  split
  · next bound hbound =>
    obtain ⟨m, hm, -⟩ := Option.bind_eq_some_iff.mp hbound
    exact .pure ⟨h scan.phrase start m hm, start.le_step⟩
  · exact .done

/-- A negation stays in the phrase. -/
theorem inside_negated {inner : Finder} (h : inner.Inside allowed) :
    inner.negated.Inside allowed := by
  intro following _ scan start b hmirrors hstart
  rw [negated]
  split
  · exact .done
  · next segment hsegment =>
    obtain ⟨word, hword, hlt⟩ := Phrase.exists_word_of_segmentAt? hsegment
    refine (h.alone scan start b hmirrors hstart).find fun found _ ↦ ?_
    cases found with
    | none => exact .pure ⟨Phrase.isPosition_step hword hlt, start.le_step⟩
    | some m => exact .done

/-- What a search leads to stays ahead of where the search started. -/
theorem Ahead.trans {scan : Scan} {start : Position} {m n : Match} (hm : Ahead scan start m)
    (hn : Ahead scan m.stop n) : Ahead scan start n := ⟨hn.1, hm.2.trans hn.2⟩

/-- A sequence stays in the phrase. -/
theorem inside_sequence {finders : List Finder} (h : ∀ f ∈ finders, f.Inside allowed) :
    (sequence finders).Inside allowed := by
  induction finders with
  | nil =>
    intro following _ scan start b _ hstart
    exact .pure ⟨hstart, le_refl _⟩
  | cons first rest ih =>
    intro following _ scan start b hmirrors hstart
    rw [List.forall_mem_cons] at h
    have hhint : ∀ probe ∈ rest.head?.map (· none), ProbeInside allowed probe := by
      intro probe hprobe
      obtain ⟨f, hf, rfl⟩ := Option.map_eq_some_iff.mp hprobe
      exact (h.2 f (List.mem_of_head? hf)).alone
    refine (h.1 _ hhint scan start b hmirrors hstart).bind fun m hm ↦ ?_
    exact ((ih h.2).alone scan m.stop m.bindings hmirrors hm.1).mono fun n hn ↦ hm.trans hn

/-- An alternative stays in the phrase. -/
theorem inside_alternative {finders : List Finder} (h : ∀ f ∈ finders, f.Inside allowed) :
    (alternative finders).Inside allowed := by
  induction finders with
  | nil =>
    intro following _ scan start b _ _
    exact .done
  | cons first rest ih =>
    intro following hfollowing scan start b hmirrors hstart
    rw [List.forall_mem_cons] at h
    exact .choice (.append (h.1 following hfollowing scan start b hmirrors hstart)
      (ih h.2 following hfollowing scan start b hmirrors hstart))

/-- A look at what follows has no fault but those of what follows. -/
theorem keeps_takesOver {following : Option Probe} {scan : Scan} {start : Position} {b : Bindings}
    {next : Bool → Candidates Match} {kept : Match → Prop}
    (hfollowing : ∀ probe ∈ following, ProbeInside allowed probe) (hmirrors : scan.Mirrors)
    (hstart : scan.phrase.isPosition start) (hnext : ∀ refused, (next refused).Keeps kept allowed) :
    (takesOver following scan start b next).Keeps kept allowed := by
  cases following with
  | none => exact hnext false
  | some probe =>
    rw [takesOver]
    exact (hfollowing probe rfl scan start b hmirrors hstart).find fun found _ ↦ hnext found.isSome

/-- Repetitions stay in the phrase and end before the number of positions runs out: every one that
moves on leaves fewer positions ahead. -/
theorem keeps_repeatAfter {inner : Finder} (h : inner.Inside allowed) (min : Nat)
    (max : Option Nat) {following : Option Probe}
    (hfollowing : ∀ probe ∈ following, ProbeInside allowed probe) {scan : Scan}
    (hmirrors : scan.Mirrors) {bound : Nat} (count : Nat) {start : Position} (b : Bindings)
    (hstart : scan.phrase.isPosition start)
    (hbound : scan.phrase.size ≤ bound + scan.phrase.offset start) :
    (repeatAfter inner min max following scan bound count start b).Keeps (Ahead scan start)
      allowed := by
  induction bound generalizing count start b with
  | zero =>
    have := Phrase.offset_lt_size hstart
    omega
  | succ bound ih =>
    have hstay : (Candidates.pure (⟨start, b⟩ : Match)).Keeps (Ahead scan start) allowed :=
      .pure ⟨hstart, le_refl _⟩
    have hextend : (oneMore inner min max following scan bound count start b).Keeps
        (Ahead scan start) allowed := by
      refine (h.alone scan start b hmirrors hstart).bind fun m hm ↦ ?_
      by_cases hstop : m.stop = start
      · rw [if_pos hstop]
        split
        · exact .done
        · exact .pure hm
      · rw [if_neg hstop]
        have hlt : start < m.stop := lt_of_le_of_ne hm.2 (Ne.symm hstop)
        have hoffset := Phrase.offset_lt_offset hstart hlt
        exact (ih (count + 1) m.bindings hm.1 (by omega)).mono fun n hn ↦ hm.trans hn
    rw [repeatAfter_succ]
    refine .choice ?_
    dsimp only
    split
    · split
      · refine keeps_takesOver hfollowing hmirrors hstart fun refused ↦ ?_
        split
        · exact .append hstay hextend
        · exact .append hextend hstay
      · exact hextend
    · split
      · exact hstay
      · exact .done

/-- A repeater stays in the phrase. -/
theorem inside_repeater {inner : Finder} (h : inner.Inside allowed) (min : Nat)
    (max : Option Nat) : (inner.repeater min max).Inside allowed := by
  intro following hfollowing scan start b hmirrors hstart
  refine keeps_repeatAfter h min max hfollowing hmirrors 0 b hstart ?_
  rw [Phrase.segmentCount_add_wordCount]
  exact Nat.le_add_right _ _

/-- A capture stays in the phrase, so there is always a fragment to capture. -/
theorem inside_capture {inner : Finder} (h : inner.Inside allowed) (number : Nat)
    (reversed : Bool) : (inner.capture number reversed).Inside allowed := by
  intro following hfollowing scan start b hmirrors hstart
  refine (h following hfollowing scan start b hmirrors hstart).bind fun m hm ↦ ?_
  have hslice : scan.phrase.slice? start m.stop = some (scan.phrase.slice start m.stop) :=
    if_pos ⟨hstart, hm⟩
  rw [hslice]
  exact .pure hm

/-- Checks at a position have no fault but those of what is checked. -/
theorem keeps_checksHold {scan : Scan} (hmirrors : scan.Mirrors) {start : Position}
    (hstart : scan.phrase.isPosition start) {checks : List (Finder × Bool)}
    (h : ∀ check ∈ checks, check.1.Inside allowed) (b : Bindings) :
    (checksHold scan start checks b).Keeps (fun _ ↦ True) allowed := by
  induction checks generalizing b with
  | nil => exact .pure trivial
  | cons check rest ih =>
    obtain ⟨finder, negated⟩ := check
    rw [List.forall_mem_cons] at h
    rw [checksHold]
    refine (h.1.alone scan start b hmirrors hstart).find fun found _ ↦ ?_
    cases found <;> dsimp only <;> split
    · exact ih h.2 b
    · exact .done
    · exact .done
    · exact ih h.2 _

/-- An intersection stays in the phrase. -/
theorem inside_intersection {initial : Finder} {checks : List (Finder × Bool)}
    (hinitial : initial.Inside allowed) (h : ∀ check ∈ checks, check.1.Inside allowed) :
    (intersection initial checks).Inside allowed := by
  intro following hfollowing scan start b hmirrors hstart
  refine (hinitial following hfollowing scan start b hmirrors hstart).bind fun m hm ↦ ?_
  exact (keeps_checksHold hmirrors hstart h m.bindings).map fun bound _ ↦ hm

section Around

variable {scan : Scan} {start stop : Position}

/-- A search around a span has no fault but those of the sides. -/
theorem keeps_around {sides : Finder × Finder}
    (h : sides.1.Inside allowed ∧ sides.2.Inside allowed) (hmirrors : scan.Mirrors)
    (hstart : scan.phrase.isPosition start) (hstop : scan.phrase.isPosition stop) (b : Bindings) :
    (around sides scan start stop b).Keeps (fun _ ↦ True) allowed := by
  rw [around, Phrase.turn?_of_isPosition hstart]
  have hback : scan.turned.phrase.isPosition (scan.phrase.turn start) :=
    Phrase.isPosition_turn hmirrors hstart
  refine (h.1.alone scan.turned _ b hmirrors.turned hback).bind fun m _ ↦ ?_
  exact (h.2.alone scan stop m.bindings hmirrors hstop).map fun _ _ ↦ trivial

/-- A search that exclusions guard has no fault but those of the exclusions. -/
theorem keeps_unlessAround {α : Type u} {kept : α → Prop} {next : Unit → Candidates α}
    {exclusions : List (Finder × Finder)}
    (h : ∀ sides ∈ exclusions, sides.1.Inside allowed ∧ sides.2.Inside allowed)
    (hmirrors : scan.Mirrors) (hstart : scan.phrase.isPosition start)
    (hstop : scan.phrase.isPosition stop) (b : Bindings) (hnext : (next ()).Keeps kept allowed) :
    (unlessAround scan start stop b next exclusions).Keeps kept allowed := by
  induction exclusions with
  | nil => exact hnext
  | cons sides rest ih =>
    rw [List.forall_mem_cons] at h
    rw [unlessAround]
    refine (keeps_around h.1 hmirrors hstart hstop b).find fun found _ ↦ ?_
    cases found with
    | none => exact ih h.2
    | some _ => exact .done

/-- A search for one of some conditions has no fault but those of the conditions. -/
theorem keeps_inSome {conditions : List (Finder × Finder)}
    (h : ∀ sides ∈ conditions, sides.1.Inside allowed ∧ sides.2.Inside allowed)
    (hmirrors : scan.Mirrors) (hstart : scan.phrase.isPosition start)
    (hstop : scan.phrase.isPosition stop) (b : Bindings) :
    (inSome scan start stop b conditions).Keeps (fun _ ↦ True) allowed := by
  induction conditions with
  | nil => exact .done
  | cons sides rest ih =>
    rw [List.forall_mem_cons] at h
    exact .append (keeps_around h.1 hmirrors hstart hstop b) (ih h.2)

end Around

/-- An environment stays in the phrase. -/
theorem inside_environment {core : Finder} {conditions exclusions : List (Finder × Finder)}
    (hcore : core.Inside allowed)
    (hconditions : ∀ sides ∈ conditions, sides.1.Inside allowed ∧ sides.2.Inside allowed)
    (hexclusions : ∀ sides ∈ exclusions, sides.1.Inside allowed ∧ sides.2.Inside allowed) :
    (environment core conditions exclusions).Inside allowed := by
  intro following hfollowing scan start b hmirrors hstart
  refine (hcore following hfollowing scan start b hmirrors hstart).bind fun m hm ↦ ?_
  refine keeps_unlessAround hexclusions hmirrors hstart hm.1 m.bindings ?_
  split
  · exact .pure hm
  · exact (keeps_inSome hconditions hmirrors hstart hm.1 m.bindings).map fun _ _ ↦ hm

/-- A reference to a capture stays in the phrase, unless the capture is not bound. -/
theorem inside_captureReference (inv : Inventory) {number : Nat} (exact reversed : Bool)
    (h : allowed (.of (.unboundCapture number))) :
    (captureReference inv number exact reversed).Inside allowed := by
  intro following _ scan start b _ hstart
  rw [captureReference]
  split
  · exact .fail h
  · dsimp only
    split
    · next stop hstop => exact .pure (Phrase.ahead_of_afterWords? hstart hstop)
    · exact .done

end Finder

section Patterns

variable {allowed : Fault → Prop}

/-- Whether every reference to a capture in a pattern may fail. -/
def ReferencesAllowed (allowed : Fault → Prop) (isReferenceFree : Bool) : Prop :=
  isReferenceFree = false → ∀ number, allowed (.of (.unboundCapture number))

/-- References that may fail in two parts may fail in each. -/
theorem ReferencesAllowed.of_and {a b : Bool} (h : ReferencesAllowed allowed (a && b)) :
    ReferencesAllowed allowed a ∧ ReferencesAllowed allowed b :=
  ⟨fun ha ↦ h (by rw [ha, Bool.false_and]), fun hb ↦ h (by rw [hb, Bool.and_false])⟩

mutual

/-- The search for a pattern stays in the phrase. -/
theorem Pattern.finder_inside (inv : Inventory) : (p : Pattern) →
    ReferencesAllowed allowed p.isReferenceFree → (p.finder inv).Inside allowed
  | .empty, _ => Finder.inside_emptyIf _
  | .never, _ => Finder.inside_emptyIf _
  | .wordStart, _ => Finder.inside_emptyIf _
  | .wordEnd, _ => Finder.inside_emptyIf _
  | .betweenWords, _ => Finder.inside_ofEnd fun _ _ _ _ h ↦ Phrase.ahead_of_nextWord? h
  | .text _, _ => Finder.inside_ofEnd fun _ _ _ _ h ↦ Phrase.ahead_of_afterLiteral? h
  | .symbol _, _ => Finder.inside_ofEnd fun _ _ _ _ h ↦ Phrase.ahead_of_afterLiteral? h
  | .matrix _, _ => Finder.inside_segmentWith fun p start m h ↦ by
    obtain ⟨segment, hsegment, -⟩ := Option.map_eq_some_iff.mp h
    obtain ⟨word, hword, hlt⟩ := Phrase.exists_word_of_segmentAt? hsegment
    exact Phrase.isPosition_step hword hlt
  | .syllableMatrix _, _ => Finder.inside_segmentWith fun p start m h ↦ by
    rw [Finder.syllableMatrix?, Option.bind_eq_bind, Option.bind_eq_some_iff] at h
    obtain ⟨word, hword, h⟩ := h
    split at h
    · next hlt => exact Phrase.isPosition_step hword hlt
    · cases h
  | .negated inner, h => Finder.inside_negated (inner.finder_inside inv h)
  | .syllable, _ => Finder.inside_ofEnd fun _ _ _ _ h ↦ Phrase.ahead_of_syllableEnd? h
  | .syllableBoundary, _ => Finder.inside_emptyIf _
  | .sequence items, h => Finder.inside_sequence (Pattern.finders_inside inv items h)
  | .alternative options, h => Finder.inside_alternative (Pattern.finders_inside inv options h)
  | .repeater inner min max, h => Finder.inside_repeater (inner.finder_inside inv h) min max
  | .capture inner number reversed, h =>
    Finder.inside_capture (inner.finder_inside inv h) number reversed
  | .intersection initial checks, h =>
    Finder.inside_intersection (initial.finder_inside inv h.of_and.1)
      (Check.finders_inside inv checks h.of_and.2)
  | .environment core conditions exclusions, h =>
    Finder.inside_environment (core.finder_inside inv h.of_and.1.of_and.1)
      (Surroundings.finders_inside inv conditions h.of_and.1.of_and.2)
      (Surroundings.finders_inside inv exclusions h.of_and.2)
  | .captureReference number exact reversed, h =>
    Finder.inside_captureReference inv exact reversed (h rfl number)

/-- The searches for patterns stay in the phrase. -/
theorem Pattern.finders_inside (inv : Inventory) : (ps : List Pattern) →
    ReferencesAllowed allowed (Pattern.allReferenceFree ps) →
    ∀ f ∈ Pattern.finders inv ps, f.Inside allowed
  | [], _ => fun _ hf ↦ nomatch hf
  | p :: rest, h => List.forall_mem_cons.mpr
    ⟨p.finder_inside inv h.of_and.1, Pattern.finders_inside inv rest h.of_and.2⟩

/-- The searches for checks stay in the phrase. -/
theorem Check.finders_inside (inv : Inventory) : (checks : List Check) →
    ReferencesAllowed allowed (Check.allReferenceFree checks) →
    ∀ check ∈ Check.finders inv checks, check.1.Inside allowed
  | [], _ => fun _ hf ↦ nomatch hf
  | .mk p _ :: rest, h => List.forall_mem_cons.mpr
    ⟨p.finder_inside inv h.of_and.1, Check.finders_inside inv rest h.of_and.2⟩

/-- The searches for both sides of surroundings stay in the phrase. -/
theorem Surroundings.finders_inside (inv : Inventory) : (l : List Surroundings) →
    ReferencesAllowed allowed (Surroundings.allReferenceFree l) →
    ∀ sides ∈ Surroundings.finders inv l, sides.1.Inside allowed ∧ sides.2.Inside allowed
  | [], _ => fun _ hf ↦ nomatch hf
  | .mk behind ahead :: rest, h => List.forall_mem_cons.mpr
    ⟨⟨behind.finder_inside inv h.of_and.1.of_and.1, ahead.finder_inside inv h.of_and.1.of_and.2⟩,
      Surroundings.finders_inside inv rest h.of_and.2⟩

end

end Patterns

end Diachrony
