import Diachrony.Proofs.Pattern.Reversal

/-!
# Looking behind a span

Patterns that look at nothing but their own span read both ways: the reversed pattern has, in the
reversed phrase, the turned spans. The side before a span is such a reversed pattern, so it holds
where the side itself matches some text that ends at the span.
-/

namespace Diachrony

mutual

/-- Whether a pattern looks at nothing but its own span and repeats no empty spans. -/
def Pattern.ReadsBothWays (inv : Inventory) : Pattern → Prop
  | .negated inner => inner.ReadsBothWays inv
  | .sequence items | .alternative items => Pattern.AllReadBothWays inv items
  | .repeater inner _ _ => inner.ReadsBothWays inv ∧ ∀ scan start, scan.Mirrors →
    scan.phrase.isPosition start → ¬inner.spans inv scan start start
  | .capture .. | .intersection .. | .environment .. | .captureReference .. => False
  | _ => True

/-- Whether all patterns of a list look at nothing but their own spans. -/
def Pattern.AllReadBothWays (inv : Inventory) : List Pattern → Prop
  | [] => True
  | p :: rest => p.ReadsBothWays inv ∧ Pattern.AllReadBothWays inv rest

end

namespace Pattern

variable {inv : Inventory}

/-- No pattern of a list refers to captures when none of its members does. -/
theorem allReferenceFree_iff {ps : List Pattern} :
    allReferenceFree ps ↔ ∀ p ∈ ps, p.isReferenceFree := by
  induction ps with
  | nil => simp [allReferenceFree]
  | cons p rest ih => simp [allReferenceFree, ih]

/-- The spans of a list are the spans of its members. -/
theorem spansOfAll_eq_map (ps : List Pattern) : spansOfAll inv ps = ps.map (spans inv) := by
  induction ps with
  | nil => rfl
  | cons p rest ih => rw [spansOfAll, ih, List.map_cons]

/-- The reversals of a list are the reversals of its members. -/
theorem reversedAll_eq_map (ps : List Pattern) : reversedAll ps = ps.map reversed := by
  induction ps with
  | nil => rfl
  | cons p rest ih => rw [reversedAll, ih, List.map_cons]

end Pattern

mutual

/-- Patterns that read both ways do not refer to captures. -/
theorem Pattern.isReferenceFree_of_readsBothWays {inv : Inventory} : (p : Pattern) →
    p.ReadsBothWays inv → p.isReferenceFree
  | .negated inner, h => inner.isReferenceFree_of_readsBothWays h
  | .sequence items, h => Pattern.allReferenceFree_of_allReadBothWays items h
  | .alternative items, h => Pattern.allReferenceFree_of_allReadBothWays items h
  | .repeater inner _ _, h => inner.isReferenceFree_of_readsBothWays h.1
  | .capture .., h | .intersection .., h | .environment .., h | .captureReference .., h => h.elim
  | .empty, _ | .never, _ | .wordStart, _ | .wordEnd, _ | .betweenWords, _ | .text _, _
  | .symbol _, _ | .matrix _, _ | .syllableMatrix _, _ | .syllable, _ | .syllableBoundary, _ => rfl

/-- Lists of patterns that read both ways do not refer to captures. -/
theorem Pattern.allReferenceFree_of_allReadBothWays {inv : Inventory} : (ps : List Pattern) →
    Pattern.AllReadBothWays inv ps → Pattern.allReferenceFree ps
  | [], _ => rfl
  | p :: rest, h => by
    rw [Pattern.allReferenceFree, Bool.and_eq_true]
    exact ⟨p.isReferenceFree_of_readsBothWays h.1,
      Pattern.allReferenceFree_of_allReadBothWays rest h.2⟩

end

mutual

/-- The reversal of a pattern refers to captures if the pattern does. -/
theorem Pattern.isReferenceFree_reversed_eq : (p : Pattern) →
    p.reversed.isReferenceFree = p.isReferenceFree
  | .negated inner | .repeater inner _ _ | .capture inner _ _ => inner.isReferenceFree_reversed_eq
  | .sequence items => by
    rw [Pattern.isReferenceFree, ← Pattern.allReferenceFree_reversedAll_eq items, Bool.eq_iff_iff]
    simp only [Pattern.reversed, Pattern.isReferenceFree, Pattern.allReferenceFree_iff,
      List.mem_reverse]
  | .alternative items => Pattern.allReferenceFree_reversedAll_eq items
  | .intersection initial checks => congrArg₂ Bool.and initial.isReferenceFree_reversed_eq
    (Check.allReferenceFree_reversedAll_eq checks)
  | .environment core conditions exclusions => congrArg₂ Bool.and
    (congrArg₂ Bool.and core.isReferenceFree_reversed_eq
      (Surroundings.allReferenceFree_reversedAll_eq conditions))
    (Surroundings.allReferenceFree_reversedAll_eq exclusions)
  | .captureReference .. | .empty | .never | .wordStart | .wordEnd | .betweenWords | .text _
  | .symbol _ | .matrix _ | .syllableMatrix _ | .syllable | .syllableBoundary => rfl

/-- The reversals of patterns refer to captures if the patterns do. -/
theorem Pattern.allReferenceFree_reversedAll_eq : (ps : List Pattern) →
    Pattern.allReferenceFree (Pattern.reversedAll ps) = Pattern.allReferenceFree ps
  | [] => rfl
  | p :: rest => congrArg₂ Bool.and p.isReferenceFree_reversed_eq
    (Pattern.allReferenceFree_reversedAll_eq rest)

/-- The reversals of checks refer to captures if the checks do. -/
theorem Check.allReferenceFree_reversedAll_eq : (checks : List Check) →
    Check.allReferenceFree (Check.reversedAll checks) = Check.allReferenceFree checks
  | [] => rfl
  | .mk p _ :: rest => congrArg₂ Bool.and p.isReferenceFree_reversed_eq
    (Check.allReferenceFree_reversedAll_eq rest)

/-- The reversals of surroundings refer to captures if the surroundings do. -/
theorem Surroundings.allReferenceFree_reversedAll_eq : (l : List Surroundings) →
    Surroundings.allReferenceFree (Surroundings.reversedAll l) = Surroundings.allReferenceFree l
  | [] => rfl
  | .mk _ _ :: rest => congrArg₂ Bool.and (Bool.and_comm _ _)
    (Surroundings.allReferenceFree_reversedAll_eq rest)

end

/-- The reversal of a pattern that reads both ways does not refer to captures. -/
theorem Pattern.isReferenceFree_reversed {inv : Inventory} (p : Pattern)
    (h : p.ReadsBothWays inv) : p.reversed.isReferenceFree := by
  rw [p.isReferenceFree_reversed_eq]
  exact p.isReferenceFree_of_readsBothWays h

section Turning

variable {inv : Inventory} {scan mirror : Scan}

/-- The spans of a pattern that reads both ways stay in the phrase. -/
theorem Pattern.stays_of_readsBothWays {p : Pattern} (hscan : scan.Mirrors)
    (h : p.ReadsBothWays inv) : Spans.Stays scan (p.spans inv) := fun _ _ hstart hspan ↦
  Pattern.ahead_of_spans (p.isReferenceFree_of_readsBothWays h) hscan hstart hspan

/-- The spans of a reversed pattern that reads both ways stay in the reversed phrase. -/
theorem Pattern.stays_reversed {p : Pattern} (hscan : scan.Mirrors) (h : p.ReadsBothWays inv) :
    Spans.Stays scan (p.reversed.spans inv) := fun _ _ hstart hspan ↦
  Pattern.ahead_of_spans (p.isReferenceFree_reversed h) hscan hstart hspan

mutual

/-- Read backwards, the spans of a pattern are those of the reversed pattern. -/
theorem Pattern.spans_turn (hmirror : mirror.phrase = scan.phrase.reversed)
    (hscan : scan.Mirrors) (hscan' : mirror.Mirrors) : (p : Pattern) → p.ReadsBothWays inv →
    Spans.Turns scan mirror (p.spans inv) (p.reversed.spans inv)
  | .empty, _ => Spans.turns_emptyIf fun _ _ ↦ Iff.rfl
  | .never, _ => Spans.turns_emptyIf fun _ _ ↦ Iff.rfl
  | .wordStart, _ => Spans.turns_emptyIf fun _ h ↦ by rw [hmirror, Phrase.isWordEnd_turn h]
  | .wordEnd, _ => Spans.turns_emptyIf fun _ h ↦ by rw [hmirror, Phrase.isWordStart_turn h]
  | .betweenWords, _ => Spans.turns_wordGap hmirror
  | .text literal, _ => Spans.turns_ofLiteral hmirror _ literal
  | .symbol literal, _ => Spans.turns_ofLiteral hmirror _ literal
  | .matrix _, _ => Spans.turns_segmentWith hmirror fun _ h ↦
    congrArg (Option.map Segment.matrix) (Phrase.segmentAt?_turn h)
  | .syllableMatrix _, _ => Spans.turns_segmentWith hmirror fun _ h ↦ Spans.syllableMatrix?_turn h
  | .negated inner, h => Spans.turns_negated hmirror (inner.spans_turn hmirror hscan hscan' h)
  | .syllable, _ => Spans.turns_syllable hmirror
  | .syllableBoundary, _ => Spans.turns_emptyIf fun _ h ↦ Spans.isSyllableEdge_turn hmirror h
  | .sequence items, h => Pattern.sequence_turn hmirror hscan hscan' items h
  | .alternative items, h =>
    Spans.turns_alternative (Pattern.alternatives_turn hmirror hscan hscan' items h)
  | .repeater inner min max, h =>
    Spans.turns_repeated hmirror min max (inner.spans_turn hmirror hscan hscan' h.1)
      (Pattern.stays_of_readsBothWays hscan h.1) (Pattern.stays_reversed hscan' h.1)
      fun i hi ↦ h.2 scan i hscan hi
  | .capture .., h | .intersection .., h | .environment .., h | .captureReference .., h => h.elim

/-- Read backwards, spans in sequence are those of the reversed sequence. -/
theorem Pattern.sequence_turn (hmirror : mirror.phrase = scan.phrase.reversed)
    (hscan : scan.Mirrors) (hscan' : mirror.Mirrors) : (items : List Pattern) →
    Pattern.AllReadBothWays inv items →
    Spans.Turns scan mirror (.sequence (Pattern.spansOfAll inv items))
      (.sequence (Pattern.spansOfAll inv (Pattern.reversedAll items).reverse))
  | [], _ => Spans.turns_sequence_nil
  | p :: rest, h => by
    rw [Pattern.reversedAll, List.reverse_cons, Pattern.spansOfAll_eq_map (_ ++ _), List.map_append,
      ← Pattern.spansOfAll_eq_map]
    have hrest : (Pattern.sequence rest).ReadsBothWays inv := h.2
    exact Spans.turns_sequence_cons hmirror (p.spans_turn hmirror hscan hscan' h.1)
      (Pattern.sequence_turn hmirror hscan hscan' rest h.2)
      ⟨Pattern.stays_of_readsBothWays hscan h.1, Pattern.stays_of_readsBothWays hscan hrest⟩
      ⟨Pattern.stays_reversed hscan' h.1, Pattern.stays_reversed hscan' hrest⟩

/-- Read backwards, the spans of alternatives are those of the reversed alternatives. -/
theorem Pattern.alternatives_turn (hmirror : mirror.phrase = scan.phrase.reversed)
    (hscan : scan.Mirrors) (hscan' : mirror.Mirrors) : (items : List Pattern) →
    Pattern.AllReadBothWays inv items →
    List.Forall₂ (Spans.Turns scan mirror) (Pattern.spansOfAll inv items)
      (Pattern.spansOfAll inv (Pattern.reversedAll items))
  | [], _ => .nil
  | p :: rest, h => .cons (p.spans_turn hmirror hscan hscan' h.1)
    (Pattern.alternatives_turn hmirror hscan hscan' rest h.2)

end

end Turning

namespace Pattern

/-- Whether a search for a pattern with some budget offers an end. -/
def IsOffered (inv : Inventory) (p : Pattern) (scan : Scan) (start stop : Position) : Prop :=
  ∃ budget b, stop ∈ ((p.candidates inv scan start b).course budget).offered.map Match.stop

/-- With a large enough budget every span is found. -/
theorem isOffered_iff {inv : Inventory} {p : Pattern} (hfree : p.isReferenceFree) {scan : Scan}
    (hmirrors : scan.Mirrors) {start stop : Position} (hstart : scan.phrase.isPosition start) :
    p.IsOffered inv scan start stop ↔ p.spans inv scan start stop := by
  constructor
  · rintro ⟨budget, b, h⟩
    obtain ⟨m, hm, rfl⟩ := List.mem_map.mp h
    exact (mem_offers_candidates hfree hmirrors hstart b).mp
      ⟨m, Candidates.mem_offers_of_mem_offered hm, rfl⟩
  · intro h
    obtain ⟨m, hm, rfl⟩ := (mem_offers_candidates hfree hmirrors hstart .empty).mpr h
    have hcourse : ((p.candidates inv scan start .empty).course
        ⟨(p.candidates inv scan start .empty).choices, ""⟩).offered =
          (p.candidates inv scan start .empty).offers := by
      rw [Candidates.course, Candidates.courseAfter_of_choices_le (Nat.le_of_eq (Nat.zero_add _))]
    rw [IsOffered]
    exact ⟨_, _, hcourse ▸ List.mem_map_of_mem hm⟩

end Pattern

/-- Behind a position there is what a pattern that reads both ways matches up to there. -/
theorem Pattern.exists_behind_iff {inv : Inventory} {p : Pattern} (hp : p.ReadsBothWays inv)
    {phrase : Phrase} {stop : Position} (hstop : phrase.isPosition stop) :
    (∃ other, p.reversed.spans inv (Scan.of phrase).turned (phrase.turn stop) other) ↔
      ∃ i ≤ stop, phrase.isPosition i ∧ p.IsOffered inv (.of phrase) i stop := by
  have hscan := Scan.mirrors_of phrase
  have hmirror : (Scan.of phrase).turned.phrase = (Scan.of phrase).phrase.reversed := rfl
  have hturn := p.spans_turn hmirror hscan hscan.turned hp
  have hstays := Pattern.stays_reversed hscan.turned hp
  have hfree := p.isReferenceFree_of_readsBothWays hp
  constructor
  · rintro ⟨other, hother⟩
    obtain ⟨hposition, hle⟩ := hstays _ other (Spans.isPosition_mirror hmirror hstop) hother
    obtain ⟨i, hi, rfl⟩ := Spans.exists_turn hmirror hposition
    have hle' : i ≤ stop := (Phrase.turn_le_turn hi hstop).mp hle
    have hspan := (hturn i stop hi hstop hle').mp hother
    exact ⟨i, hle', hi, (Pattern.isOffered_iff hfree hscan hi).mpr hspan⟩
  · rintro ⟨i, hle, hi, hoffered⟩
    have hspan := (Pattern.isOffered_iff hfree hscan hi).mp hoffered
    exact ⟨phrase.turn i, (hturn i stop hi hstop hle).mpr hspan⟩

namespace Surroundings

variable {inv : Inventory} {before after : Pattern} {phrase : Phrase} {start stop : Position}

/-- Surroundings hold where the side before matches up to the span and the side after from it. -/
theorem around_of (hbefore : before.ReadsBothWays inv) (hafter : after.ReadsBothWays inv)
    (hstart : phrase.isPosition start) (hstop : phrase.isPosition stop) :
    Spans.Around (before.reversed.spans inv, after.spans inv) (.of phrase) start stop ↔
      (∃ i ≤ start, phrase.isPosition i ∧ before.IsOffered inv (.of phrase) i start) ∧
        ∃ j ≥ stop, phrase.isPosition j ∧ after.IsOffered inv (.of phrase) stop j := by
  have hscan := Scan.mirrors_of phrase
  have hfree' := after.isReferenceFree_of_readsBothWays hafter
  rw [Spans.Around]
  apply and_congr
  · exact Pattern.exists_behind_iff hbefore hstart
  · constructor
    · rintro ⟨j, hj⟩
      obtain ⟨hposition, hle⟩ := Pattern.ahead_of_spans hfree' hscan hstop hj
      exact ⟨j, hle, hposition, (Pattern.isOffered_iff hfree' hscan hstop).mpr hj⟩
    · rintro ⟨j, -, -, hoffered⟩
      exact ⟨j, (Pattern.isOffered_iff hfree' hscan hstop).mp hoffered⟩

/-- A search around a span that does not fail decides whether the surroundings hold. -/
theorem isSome_of_first? {s : Surroundings} (hbehind : s.behind.isReferenceFree)
    (hahead : s.ahead.isReferenceFree) {scan : Scan} {b : Bindings} {budget : Budget}
    {found : Option Bindings}
    (h : (s.candidates inv scan start stop b).first? budget = .ok found) :
    found.isSome ↔ Spans.Around (s.behind.spans inv, s.ahead.spans inv) scan start stop := by
  have hlists : (s.candidates inv scan start stop b).Lists (fun _ ↦ ()) fun _ ↦
      Spans.Around (s.behind.spans inv, s.ahead.spans inv) scan start stop :=
    Finder.lists_around ⟨s.behind.finder_describes inv hbehind,
      s.ahead.finder_describes inv hahead⟩ b
  cases found with
  | none =>
    obtain ⟨hoffers, hending⟩ := Candidates.offers_eq_nil_of_firstAfter h
    simp only [Option.isSome_none, Bool.false_eq_true, false_iff]
    intro haround
    obtain ⟨bound, hbound, -⟩ := hlists.complete hending () haround
    rw [hoffers] at hbound
    cases hbound
  | some bound =>
    have hmem := List.mem_of_head? (Candidates.head_offers_of_firstAfter h)
    exact iff_of_true rfl (hlists.sound bound hmem)

end Surroundings

/-- Looking behind a span reads what stands before it. A pattern that reads both ways offers an end
from a start of a phrase exactly when the reversed pattern offers the turned start from the turned
end of the reversed phrase. So surroundings hold around a span exactly when the side before matches
from somewhere up to the span and the side after matches from the span up to somewhere. -/
theorem lookbehind_reads_forwards (inv : Inventory) (phrase : Phrase) (start stop : Position)
    (hstart : phrase.isPosition start) (hstop : phrase.isPosition stop) (hle : start ≤ stop) :
    (∀ p : Pattern, p.ReadsBothWays inv → ∀ budget budget' b b',
      let forwards := (p.candidates inv (.of phrase) start b).course budget
      let backwards := (p.reversed.candidates inv (.of phrase.reversed) (phrase.turn stop)
        b').course budget'
      forwards.fault = none → backwards.fault = none →
        (stop ∈ forwards.offered.map Match.stop ↔
          phrase.turn start ∈ backwards.offered.map Match.stop)) ∧
    ∀ before after : Pattern, before.ReadsBothWays inv → after.ReadsBothWays inv →
      ∀ budget b found,
        ((Surroundings.of before after).candidates inv (.of phrase) start stop b).first? budget =
          .ok found →
        (found.isSome ↔
          (∃ i ≤ start, phrase.isPosition i ∧ before.IsOffered inv (.of phrase) i start) ∧
            ∃ j ≥ stop, phrase.isPosition j ∧ after.IsOffered inv (.of phrase) stop j) := by
  constructor
  · intro p hp budget budget' b b' forwards backwards hforwards hbackwards
    have hmirror : (Scan.of phrase.reversed).phrase = (Scan.of phrase).phrase.reversed := rfl
    have hturn := p.spans_turn hmirror (Scan.mirrors_of phrase) (Scan.mirrors_of phrase.reversed) hp
      start stop hstart hstop hle
    have hfree := p.isReferenceFree_of_readsBothWays hp
    have hfree' := p.isReferenceFree_reversed hp
    have hback : phrase.reversed.isPosition (phrase.turn stop) :=
      Spans.isPosition_mirror hmirror hstop
    calc stop ∈ forwards.offered.map Match.stop
        ↔ p.spans inv (.of phrase) start stop :=
          (Pattern.search_sound_and_complete inv budget p hfree phrase start hstart b).2 hforwards
            stop
      _ ↔ p.reversed.spans inv (.of phrase.reversed) (phrase.turn stop) (phrase.turn start) :=
          hturn.symm
      _ ↔ phrase.turn start ∈ backwards.offered.map Match.stop :=
          ((Pattern.search_sound_and_complete inv budget' p.reversed hfree' phrase.reversed _
            hback b').2 hbackwards _).symm
  · intro before after hbefore hafter budget b found h
    have hbehind : (Surroundings.of before after).behind.isReferenceFree :=
      before.isReferenceFree_reversed hbefore
    rw [Surroundings.isSome_of_first? hbehind (after.isReferenceFree_of_readsBothWays hafter) h]
    exact Surroundings.around_of hbefore hafter hstart hstop

/-- Behind the `b` of `aab` there are some `a`, and the reversed pattern finds them backwards. -/
theorem lookbehind_reads_forwards_aab :
    let a := Segment.literal ['a']
    let phrase := Phrase.ofWord ⟨[a, a, .literal ['b']], none⟩
    let before := Pattern.repeater (.text ⟨[a], none⟩) 1 none
    let after := Pattern.text ⟨[.literal ['b']], none⟩
    (phrase.turn ⟨0, 0⟩ ∈ (((Pattern.sequence [before, after]).reversed.candidates .empty
      (.of phrase.reversed) (phrase.turn ⟨0, 3⟩) .empty).course ⟨10, ""⟩).offered.map Match.stop) ∧
    ∃ i ≤ ⟨0, 2⟩, phrase.isPosition i ∧ before.IsOffered .empty (.of phrase) i ⟨0, 2⟩ := by
  intro a phrase before after
  have hbefore : before.ReadsBothWays .empty := by
    simp only [before, Pattern.ReadsBothWays, true_and]
    intro scan start _ _ hspan
    obtain ⟨word, -, hstop, -⟩ := hspan
    have hsegment : start.segment = start.segment + 1 := congrArg Position.segment hstop
    omega
  have hwhole := (lookbehind_reads_forwards .empty phrase ⟨0, 0⟩ ⟨0, 3⟩ rfl rfl (by decide)).1
    (.sequence [before, after]) ⟨hbefore, trivial, trivial⟩ ⟨10, ""⟩ ⟨10, ""⟩ .empty .empty
    (by decide +kernel) (by decide +kernel)
  have haround := (lookbehind_reads_forwards .empty phrase ⟨0, 2⟩ ⟨0, 2⟩ rfl rfl (by decide)).2
    before after hbefore trivial ⟨10, ""⟩ .empty (some .empty) (by decide +kernel)
  exact ⟨hwhole.mp (by decide +kernel), (haround.mp rfl).1⟩

end Diachrony
