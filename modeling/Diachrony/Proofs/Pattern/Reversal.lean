import Diachrony.Proofs.Pattern.Search
import Diachrony.Proofs.Phrase.Reversal

/-!
# Patterns read backwards

The side before a span is searched for from the span backwards: the reversed pattern in the reversed
phrase. For patterns that look at nothing but the span itself that is the same as searching for the
pattern forwards, from wherever it could start. A repeater is among them only if what it repeats has
no empty span, since an empty repetition makes up for missing ones at the end of a span and, read
backwards, at its start.
-/

namespace Diachrony

namespace Spans

/-- Whether the spans of a kind from a position of a phrase end at positions ahead of it. -/
def Stays (scan : Scan) (kind : Spans) : Prop := ∀ start stop, scan.phrase.isPosition start →
  kind scan start stop → scan.phrase.isPosition stop ∧ start ≤ stop

/-- Whether the spans of a kind, read backwards, are those of another kind in another scan. -/
def Turns (scan mirror : Scan) (kind turned : Spans) : Prop := ∀ start stop,
  scan.phrase.isPosition start → scan.phrase.isPosition stop → start ≤ stop →
    (turned mirror (scan.phrase.turn stop) (scan.phrase.turn start) ↔ kind scan start stop)

variable {scan mirror : Scan}

section Leaves

/-- Tested empty spans turn if their tests do. -/
theorem turns_emptyIf {test test' : Phrase → Position → Prop}
    (h : ∀ i, scan.phrase.isPosition i →
      (test' mirror.phrase (scan.phrase.turn i) ↔ test scan.phrase i)) :
    Turns scan mirror (emptyIf test) (emptyIf test') := by
  intro start stop hstart hstop _
  rw [emptyIf, emptyIf, h stop hstop, Phrase.turn_inj hstart hstop]
  constructor
  · rintro ⟨htest, rfl⟩
    exact ⟨htest, rfl⟩
  · rintro ⟨htest, rfl⟩
    exact ⟨htest, rfl⟩

private theorem literal_reversed {same : Segment → Segment → Bool} {literal word : Word} {k : Nat}
    (hle : k + literal.length ≤ word.length)
    (h : ∀ i < literal.length, ∀ a ∈ literal.get? i, ∀ c ∈ word.get? (k + i), same a c) :
    ∀ i < literal.length, ∀ a ∈ literal.reversed.get? i,
      ∀ c ∈ word.reversed.get? (word.length - (k + literal.length) + i), same a c := by
  intro i hi a ha c hc
  refine h (literal.length - 1 - i) (by omega) a ?_ c ?_
  · rw [← Word.get?_reversed (by omega), show literal.length - 1 - (literal.length - 1 - i) = i by
      omega]
    exact ha
  · rw [← Word.get?_reversed (by omega),
      show word.length - 1 - (k + (literal.length - 1 - i)) =
        word.length - (k + literal.length) + i by omega]
    exact hc

/-- Segments that stand as a literal asks stand so backwards. -/
private theorem literal_reversed_iff {same : Segment → Segment → Bool} {literal word : Word}
    {k : Nat} (hle : k + literal.length ≤ word.length) :
    (∀ i < literal.length, ∀ a ∈ literal.reversed.get? i,
      ∀ c ∈ word.reversed.get? (word.length - (k + literal.length) + i), same a c) ↔
    ∀ i < literal.length, ∀ a ∈ literal.get? i, ∀ c ∈ word.get? (k + i), same a c := by
  constructor
  · intro h
    have htwice (w : Word) (i : Nat) : w.reversed.reversed.get? i = w.get? i := by
      simp [Word.get?]
    have h' := @literal_reversed same literal.reversed word.reversed
      (word.length - (k + literal.length)) (by simp only [Word.length_reversed]; omega)
      (by simpa only [Word.length_reversed] using h)
    simp only [Word.length_reversed, htwice] at h'
    rw [show word.length - (word.length - (k + literal.length) + literal.length) = k by omega]
      at h'
    exact h'
  · exact literal_reversed hle

variable (hmirror : mirror.phrase = scan.phrase.reversed)
include hmirror

/-- Gaps between words turn. -/
theorem turns_wordGap : Turns scan mirror wordGap wordGap := by
  intro start stop hstart hstop _
  rw [wordGap, wordGap, hmirror, Phrase.isWordEnd_turn hstop, Phrase.wordCount_reversed]
  rw [Phrase.isPosition_iff] at hstart hstop
  simp only [Phrase.isWordStart, Phrase.isWordEnd, decide_eq_true_eq, Position.ext_iff,
    Phrase.turn]
  constructor
  · rintro ⟨hstop', hlt, hword, hsegment⟩
    have hw : stop.word = start.word + 1 := by omega
    exact ⟨by omega, by omega, hw, hstop'⟩
  · rintro ⟨hsegment, hlt, hword, hstop'⟩
    exact ⟨hstop', by omega, by omega, by omega⟩

/-- Literals turn into reversed literals. -/
theorem turns_ofLiteral (same : Segment → Segment → Bool) (literal : Word) :
    Turns scan mirror (ofLiteral same literal) (ofLiteral same literal.reversed) := by
  intro start stop hstart hstop _
  obtain ⟨word, hword, hsegment⟩ := Phrase.exists_word hstart
  obtain ⟨last, hlast, hsegment'⟩ := Phrase.exists_word hstop
  simp only [ofLiteral, hmirror, hword, Phrase.word?_reversed hlast, Option.some.injEq,
    exists_eq_left', Word.length_reversed, Position.ext_iff,
    Phrase.word_turn_eq hstart hstop, Phrase.segment_turn hword, Phrase.segment_turn hlast]
  -- Both sides speak of one word, so they speak of the same place in it.
  constructor
  · rintro ⟨⟨hw, hs⟩, hle, h⟩
    rw [hw, hlast, Option.some.injEq] at hword
    rw [← hword] at hsegment hs ⊢
    have hstop' : stop.segment = start.segment + literal.length := by omega
    refine ⟨⟨hw.symm, hstop'⟩, hsegment', ?_⟩
    rw [hstop'] at h hsegment'
    exact (literal_reversed_iff hsegment').mp h
  · rintro ⟨⟨hw, hs⟩, hle, h⟩
    rw [← hw, hlast, Option.some.injEq] at hword
    rw [← hword] at hsegment hle h ⊢
    refine ⟨⟨hw.symm, by omega⟩, by omega, ?_⟩
    rw [hs] at hle ⊢
    exact (literal_reversed_iff hle).mpr h

/-- Single segments turn if their matrices do. -/
theorem turns_segmentWith {matrixAt? : Phrase → Position → Option Matrix} {test : Matrix → Prop}
    (h : ∀ i, scan.phrase.isPosition i.step →
      matrixAt? scan.phrase.reversed (scan.phrase.turn i.step) = matrixAt? scan.phrase i) :
    Turns scan mirror (segmentWith matrixAt? test) (segmentWith matrixAt? test) := by
  intro start stop hstart hstop _
  rw [segmentWith, segmentWith, Phrase.turn_eq_step hstart hstop, hmirror]
  constructor
  · rintro ⟨hmatrix, rfl⟩
    rw [h start hstop] at hmatrix
    exact ⟨hmatrix, rfl⟩
  · rintro ⟨hmatrix, rfl⟩
    rw [h start hstop]
    exact ⟨hmatrix, rfl⟩

/-- Syllables turn into syllables. -/
theorem turns_syllable : Turns scan mirror syllable syllable := by
  intro start stop hstart hstop _
  obtain ⟨word, hword, hsegment⟩ := Phrase.exists_word hstart
  obtain ⟨last, hlast, hsegment'⟩ := Phrase.exists_word hstop
  simp only [syllable, hmirror, hword, Phrase.word?_reversed hlast, Option.some.injEq,
    exists_eq_left', Position.ext_iff, Phrase.word_turn_eq hstart hstop,
    Phrase.segment_turn hword, Phrase.segment_turn hlast]
  by_cases hw : start.word = stop.word
  · rw [hw, hlast, Option.some.injEq] at hword
    subst hword
    have hturned := Word.isSyllable_reversed hsegment hsegment'
    rw [Word.isSyllable_iff, Word.isSyllable_iff] at hturned
    simp only [hw, true_and]
    exact hturned
  · simp only [hw, Ne.symm hw, false_and, and_false]

/-- Edges of syllables turn into edges of syllables. -/
theorem isSyllableEdge_turn {i : Position} (h : scan.phrase.isPosition i) :
    Finder.isSyllableEdge mirror.phrase (scan.phrase.turn i) ↔
      Finder.isSyllableEdge scan.phrase i := by
  obtain ⟨word, hword, hsegment⟩ := Phrase.exists_word h
  have hend : scan.phrase.isWordEnd i ↔ i.segment = word.length := by
    rw [Phrase.isWordEnd, Phrase.wordLength_of_word? hword, decide_eq_true_eq]
  have hend' := Phrase.isWordEnd_turn h
  simp only [Phrase.isWordStart, decide_eq_true_eq] at hend'
  simp only [Finder.isSyllableEdge, hmirror, Bool.or_eq_true, decide_eq_true_eq, hend, hend',
    Phrase.wordAt, Phrase.word?_reversed hword, hword, Option.getD_some,
    Phrase.segment_turn hword, Word.isBreak_reversed hsegment]
  rw [show word.length - i.segment = 0 ↔ i.segment = word.length by omega]
  exact or_congr_left or_comm

omit hmirror in
/-- A segment keeps the matrix of its syllable in the reversed phrase. -/
theorem syllableMatrix?_turn {p : Phrase} {i : Position} (h : p.isPosition i.step) :
    Finder.syllableMatrix? p.reversed (p.turn i.step) = Finder.syllableMatrix? p i := by
  obtain ⟨word, hword, hle⟩ := Phrase.exists_word h
  have hlt : i.segment < word.length := hle
  have hturn : word.length - i.step.segment = word.length - 1 - i.segment := by
    simp only [Position.step]
    omega
  simp only [Finder.syllableMatrix?, Phrase.word?_reversed hword, Phrase.segment_turn hword, hturn,
    Word.length_reversed, show p.word? i.word = some word from hword, Option.bind_eq_bind,
    Option.bind_some, Word.syllableMatrix_reversed hlt]
  rw [if_pos (by omega), if_pos hlt]

end Leaves

section Operations

variable (hmirror : mirror.phrase = scan.phrase.reversed)
include hmirror

/-- Every position of the reversed phrase is a turned position. -/
theorem exists_turn {i : Position} (h : mirror.phrase.isPosition i) :
    ∃ j, scan.phrase.isPosition j ∧ scan.phrase.turn j = i := by
  rw [hmirror] at h
  exact Phrase.exists_turn h

/-- A turned position is a position of the reversed phrase. -/
theorem isPosition_mirror {i : Position} (h : scan.phrase.isPosition i) :
    mirror.phrase.isPosition (scan.phrase.turn i) := by
  rw [hmirror]
  exact Phrase.isPosition_turn (Phrase.lengths_reversed _) h

omit hmirror in
/-- Negations turn if what they negate does. -/
theorem turns_negated {inner inner' : Spans} (hmirror : mirror.phrase = scan.phrase.reversed)
    (h : Turns scan mirror inner inner') :
    Turns scan mirror (negated inner) (negated inner') := by
  intro start stop hstart hstop _
  rw [negated, negated, Phrase.turn_eq_step hstart hstop]
  constructor
  · rintro ⟨-, hno, rfl⟩
    have hstep := (Phrase.turn_eq_step hstart hstop).mpr rfl
    rw [← hstep, h start start.step hstart hstop start.le_step] at hno
    exact ⟨Phrase.segmentAt?_of_step hstop, hno, rfl⟩
  · rintro ⟨hsegment, hno, rfl⟩
    have hstep := (Phrase.turn_eq_step hstart hstop).mpr rfl
    rw [← hstep, h start start.step hstart hstop start.le_step, hmirror,
      Phrase.segmentAt?_turn hstop]
    exact ⟨hsegment, hno, rfl⟩

omit hmirror in
/-- Spans in sequence with more spans at the end. -/
theorem sequence_concat {kinds : List Spans} {last : Spans} {start stop : Position} :
    sequence (kinds ++ [last]) scan start stop ↔
      ∃ middle, sequence kinds scan start middle ∧ last scan middle stop := by
  induction kinds generalizing start with
  | nil => simp [sequence]
  | cons first rest ih =>
    simp only [List.cons_append, sequence, ih]
    constructor
    · rintro ⟨next, hfirst, middle, hrest, hlast⟩
      exact ⟨middle, ⟨next, hfirst, hrest⟩, hlast⟩
    · rintro ⟨middle, ⟨next, hfirst, hrest⟩, hlast⟩
      exact ⟨next, hfirst, middle, hrest, hlast⟩

omit hmirror in
/-- The empty sequence turns into itself. -/
theorem turns_sequence_nil : Turns scan mirror (sequence []) (sequence []) := by
  intro start stop hstart hstop _
  simp only [sequence]
  rw [Phrase.turn_inj hstart hstop, eq_comm]

/-- Spans in sequence turn into the turned spans in the other order. -/
theorem turns_sequence_cons {first first' : Spans} {rest rest' : List Spans}
    (hfirst : Turns scan mirror first first')
    (hrest : Turns scan mirror (sequence rest) (sequence rest'))
    (hstays : Stays scan first ∧ Stays scan (sequence rest))
    (hstays' : Stays mirror first' ∧ Stays mirror (sequence rest')) :
    Turns scan mirror (sequence (first :: rest)) (sequence (rest' ++ [first'])) := by
  intro start stop hstart hstop _
  rw [sequence_concat]
  constructor
  · rintro ⟨other, hother, hlast⟩
    obtain ⟨hposition, hle⟩ := hstays'.2 _ _ (isPosition_mirror hmirror hstop) hother
    obtain ⟨middle, hmiddle, rfl⟩ := exists_turn hmirror hposition
    have hle' := (hstays'.1 _ _ hposition hlast).2
    rw [Phrase.turn_le_turn hmiddle hstop] at hle
    rw [Phrase.turn_le_turn hstart hmiddle] at hle'
    exact ⟨middle, (hfirst start middle hstart hmiddle hle').mp hlast,
      (hrest middle stop hmiddle hstop hle).mp hother⟩
  · rintro ⟨middle, hkind, hother⟩
    obtain ⟨hmiddle, hle⟩ := hstays.1 start middle hstart hkind
    have hle' := (hstays.2 middle stop hmiddle hother).2
    exact ⟨scan.phrase.turn middle, (hrest middle stop hmiddle hstop hle').mpr hother,
      (hfirst start middle hstart hmiddle hle).mpr hkind⟩

omit hmirror in
/-- Alternatives turn if every one of them does. -/
theorem turns_alternative {options options' : List Spans}
    (h : List.Forall₂ (Turns scan mirror) options options') :
    Turns scan mirror (alternative options) (alternative options') := by
  intro start stop hstart hstop hle
  simp only [alternative]
  induction h with
  | nil => simp
  | cons hfirst _ ih =>
    simp only [List.exists_mem_cons_iff, ih, hfirst start stop hstart hstop hle]

omit hmirror in
/-- One more span at the end. -/
theorem Steps.concat {span : Position → Position → Prop} {count : Nat}
    {start middle stop : Position} (h : Steps span count start middle) (hlast : span middle stop)
    (hmoves : stop ≠ middle) : Steps span (count + 1) start stop := by
  induction h with
  | none => exact .next hlast hmoves (.none stop)
  | next hfirst hmoves' _ ih => exact .next hfirst hmoves' (ih hlast hmoves)

omit hmirror in
/-- Spans one after the other, read backwards. -/
theorem Steps.turn {kind kind' : Spans} (hkind : Turns scan mirror kind kind')
    (hstays : Stays scan kind) {count : Nat} {start stop : Position}
    (h : Steps (kind scan) count start stop) (hstart : scan.phrase.isPosition start) :
    Steps (kind' mirror) count (scan.phrase.turn stop) (scan.phrase.turn start) := by
  induction h with
  | none => exact .none _
  | @next count start middle stop hfirst hmoves _ ih =>
    obtain ⟨hmiddle, hle⟩ := hstays start middle hstart hfirst
    have hmoves' : scan.phrase.turn start ≠ scan.phrase.turn middle := by
      rw [ne_eq, Phrase.turn_inj hstart hmiddle]
      exact Ne.symm hmoves
    exact (ih hmiddle).concat ((hkind start middle hstart hmiddle hle).mpr hfirst) hmoves'

/-- Spans one after the other in the reversed phrase, read forwards. -/
theorem Steps.of_turn {kind kind' : Spans} (hkind : Turns scan mirror kind kind')
    (hstays' : Stays mirror kind') {count : Nat} {i j : Position}
    (h : Steps (kind' mirror) count i j) {stop : Position} (hstop : scan.phrase.isPosition stop)
    (hi : scan.phrase.turn stop = i) : ∃ start, scan.phrase.isPosition start ∧
      scan.phrase.turn start = j ∧ Steps (kind scan) count start stop := by
  induction h generalizing stop with
  | none => exact ⟨stop, hstop, hi, .none stop⟩
  | @next count i other j hfirst hmoves _ ih =>
    subst hi
    obtain ⟨hposition, hle⟩ := hstays' _ _ (isPosition_mirror hmirror hstop) hfirst
    obtain ⟨middle, hmiddle, rfl⟩ := exists_turn hmirror hposition
    rw [Phrase.turn_le_turn hmiddle hstop] at hle
    rw [ne_eq, Phrase.turn_inj hmiddle hstop] at hmoves
    obtain ⟨start, hstart, hj, hrest⟩ := ih hmiddle rfl
    exact ⟨start, hstart, hj,
      hrest.concat ((hkind middle stop hmiddle hstop hle).mp hfirst) (Ne.symm hmoves)⟩

/-- Repetitions turn if what they repeat does and has no empty spans. -/
theorem turns_repeated {kind kind' : Spans} (min : Nat) (max : Option Nat)
    (hkind : Turns scan mirror kind kind') (hstays : Stays scan kind)
    (hstays' : Stays mirror kind')
    (hempty : ∀ i, scan.phrase.isPosition i → ¬kind scan i i) :
    Turns scan mirror (repeated kind min max) (repeated kind' min max) := by
  intro start stop hstart hstop _
  have hempty' : ¬kind' mirror (scan.phrase.turn start) (scan.phrase.turn start) := by
    rw [hkind start start hstart hstart (le_refl _)]
    exact hempty start hstart
  have henough (count : Nat) : EnoughSteps min max count
      (kind' mirror (scan.phrase.turn start) (scan.phrase.turn start)) ↔
      EnoughSteps min max count (kind scan stop stop) := by
    rw [iff_false_intro hempty', iff_false_intro (hempty stop hstop)]
  constructor
  · rintro ⟨count, hsteps, hcount⟩
    obtain ⟨other, hother, heq, hsteps'⟩ := hsteps.of_turn hmirror hkind hstays' hstop rfl
    rw [Phrase.turn_inj hother hstart] at heq
    exact ⟨count, heq ▸ hsteps', (henough count).mp hcount⟩
  · rintro ⟨count, hsteps, hcount⟩
    exact ⟨count, hsteps.turn hkind hstays hstart, (henough count).mpr hcount⟩

end Operations

end Spans

end Diachrony
