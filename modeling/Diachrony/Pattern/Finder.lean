import Diachrony.Data.SortedMap
import Diachrony.Inventory.Floating
import Diachrony.Pattern.Candidates

/-!
# Finders

A finder is the meaning of a pattern: from a position and bindings it offers the ends of the spans
that start there, with the bindings that each of them makes. This module has one operation on
finders for each way to build a pattern.

While a pattern is matched, feature variables are bound to values and captures to fragments. A later
binding of the same name replaces an earlier one.

A finder may be told what follows it in a sequence. A repetition then prefers to stop where what
follows could take over; this changes the order of the candidates.
-/

namespace Diachrony

/-! ### Bindings -/

/-- What one attempt to match has bound. -/
structure Bindings where
  /-- Values of feature variables by feature. -/
  features : SortedMap String String := ∅
  /-- Captured fragments by number. -/
  captures : SortedMap Nat Phrase := ∅
deriving DecidableEq

namespace Bindings

/-- Nothing is bound. -/
def empty : Bindings := {}

instance : Inhabited Bindings := ⟨empty⟩

/-- The value of a feature variable. -/
def feature? (b : Bindings) (feature : String) : Option String := b.features.get? feature

/-- The bindings with a feature variable bound. -/
def bindFeature (b : Bindings) (feature value : String) : Bindings :=
  { b with features := b.features.insert feature value }

/-- The captured fragment of a number. -/
def capture? (b : Bindings) (number : Nat) : Option Phrase := b.captures.get? number

/-- The bindings with a fragment captured. -/
def bindCapture (b : Bindings) (number : Nat) (fragment : Phrase) : Bindings :=
  { b with captures := b.captures.insert number fragment }

end Bindings

/-- Tests one assertion of a pattern on a matrix. A feature variable is bound to the value that the
matrix has, if it has one. -/
def Assertion.test (inv : Inventory) (candidate : Matrix) (b : Bindings) :
    Assertion → Option Bindings
  | simple value => if Matrix.has candidate value then some b else none
  | negated value => if Matrix.has candidate value then none else some b
  | absent feature =>
    match inv.feature? feature with
    | some f => if f.values.any (Matrix.has candidate) then none else some b
    | none => some b
  | binds feature =>
    match (inv.feature? feature).bind fun f ↦ f.values.find? (Matrix.has candidate) with
    | some value => some (b.bindFeature feature value)
    | none => some b

/-- Tests a matrix against a pattern and binds the feature variables of the pattern. -/
def Matrix.test (inv : Inventory) (pattern candidate : Matrix) (b : Bindings) : Option Bindings :=
  pattern.toList.foldlM (Assertion.test inv candidate) b

/-! ### Finders -/

/-- A phrase in both directions of reading. -/
structure Scan where
  /-- The phrase in the direction of reading. -/
  phrase : Phrase
  /-- The phrase in the other direction. -/
  back : Phrase

namespace Scan

/-- A phrase read forwards. -/
def of (p : Phrase) : Scan := ⟨p, p.reversed⟩

/-- The same phrase read the other way. -/
def turned (s : Scan) : Scan := ⟨s.back, s.phrase⟩

end Scan

/-- The end of a matched span and what was bound on the way. -/
structure Match where
  /-- The end of the span. -/
  stop : Position
  /-- The bindings at the end. -/
  bindings : Bindings
deriving DecidableEq

/-- The spans that start at a position, as a search. -/
abbrev Probe := Scan → Position → Bindings → Candidates Match

/-- A probe that may be told what follows. -/
abbrev Finder := Option Probe → Probe

namespace Position

/-- The position one segment further in the same word. -/
def step (p : Position) : Position := ⟨p.word, p.segment + 1⟩

end Position

namespace Phrase

/-- The end of a literal at a position, if its segments stand there. -/
def afterLiteral? (same : Segment → Segment → Bool) (literal : Word) (p : Phrase)
    (start : Position) : Option Position := do
  let word ← p.word? start.word
  let stop := start.segment + literal.length
  if stop ≤ word.length
      && (literal.segments.zip (word.segments.extract start.segment stop)).all fun (a, b) ↦
        same a b then
    some ⟨start.word, stop⟩
  else none

/-- The start of the next word, from the end of a word. -/
def nextWord? (p : Phrase) (i : Position) : Option Position :=
  if p.isWordEnd i && decide (i.word + 1 < p.wordCount) then some ⟨i.word + 1, 0⟩ else none

/-- The end of words that follow one another from a position. -/
def afterWords? (same : Segment → Segment → Bool) (p : Phrase) :
    List Word → Position → Option Position
  | [], i => some i
  | [w], i => p.afterLiteral? same w i
  | w :: rest, i => do
    let stop ← p.afterLiteral? same w i
    afterWords? same p rest (← p.nextWord? stop)

/-- Where a position lands in the reversed phrase, if it lies in the phrase. -/
def turn? (p : Phrase) (i : Position) : Option Position :=
  if p.isPosition i then some (p.turn i) else none

end Phrase

namespace Finder

/-- The fault of a search that left the phrase. -/
def outside : Fault := .of (.internal "a position outside the phrase")

/-- The fault of a search that does not come to an end. -/
def stalled : Fault := .of (.internal "a repetition that does not move on")

/-- The span from the start to an end that depends on the phrase alone. -/
def ofEnd (stop? : Phrase → Position → Option Position) : Finder := fun _ scan start b ↦
  match stop? scan.phrase start with
  | some stop => .pure ⟨stop, b⟩
  | none => .done

/-- The empty span at the positions that a test accepts. -/
def emptyIf (test : Phrase → Position → Bool) : Finder :=
  ofEnd fun p i ↦ if test p i then some i else none

/-- One segment, if a matrix that belongs to it satisfies a pattern. -/
def segmentWith (inv : Inventory) (values : Matrix)
    (matrixAt? : Phrase → Position → Option Matrix) : Finder := fun _ scan start b ↦
  match (matrixAt? scan.phrase start).bind fun m ↦ values.test inv m b with
  | some bound => .pure ⟨start.step, bound⟩
  | none => .done

/-- The matrix of the segment at a position. -/
def segmentMatrix? (p : Phrase) (i : Position) : Option Matrix :=
  (p.segmentAt? i).map Segment.matrix

/-- The matrix of the syllable that holds the segment at a position. -/
def syllableMatrix? (p : Phrase) (i : Position) : Option Matrix := do
  let word ← p.word? i.word
  if i.segment < word.length then some (word.syllableMatrix i.segment) else none

/-- The end of the syllable that starts at a position. -/
def syllableEnd? (p : Phrase) (i : Position) : Option Position := do
  let word ← p.word? i.word
  if i.segment < word.length ∧ word.isSyllableStart i.segment then
    some ⟨i.word, word.syllableStop i.segment⟩
  else none

/-- Whether a break or an edge of a word is at a position. -/
def isSyllableEdge (p : Phrase) (i : Position) : Bool :=
  i.segment = 0 || p.isWordEnd i || (p.wordAt i.word).isBreak i.segment

/-- One segment that a finder does not end after. -/
def negated (inner : Finder) : Finder := fun _ scan start b ↦
  match scan.phrase.segmentAt? start with
  | none => .done
  | some _ => (inner none scan start b).find (·.stop = start.step) fun
    | some _ => .done
    | none => .pure ⟨start.step, b⟩

/-- Finders one after the other, each told what follows it. -/
def sequence : List Finder → Finder
  | [] => fun _ _ start b ↦ .pure ⟨start, b⟩
  | first :: rest => fun _ scan start b ↦
    (first (rest.head?.map (· none)) scan start b).bind fun m ↦
      sequence rest none scan m.stop m.bindings

/-- One of some finders, a choice point before each. -/
def alternative : List Finder → Finder
  | [] => fun _ _ _ _ ↦ .done
  | option :: rest => fun following scan start b ↦
    .choice fun _ ↦ .append (fun _ ↦ option following scan start b) fun _ ↦
      alternative rest following scan start b

/-- Whether what follows could take over at a position with a span that is not empty. -/
def takesOver (following : Option Probe) (scan : Scan) (start : Position) (b : Bindings)
    (next : Bool → Candidates Match) : Candidates Match :=
  match following with
  | none => next false
  | some probe => (probe scan start b).find (·.stop ≠ start) fun found ↦ next found.isSome

/-- More repetitions after some. Stopping comes after going on, unless what follows could take over;
then going on is the last resort. An empty repetition makes up for all that the minimum asks for.
Every other repetition moves on, so a number of positions bounds them. -/
def repeatAfter (inner : Finder) (min : Nat) (max : Option Nat) (following : Option Probe)
    (scan : Scan) : Nat → Nat → Position → Bindings → Candidates Match
  | 0, _, _, _ => .fail stalled
  | n + 1, count, start, b => .choice fun _ ↦
    let canExtend : Bool := max.all (count < ·)
    let satisfied : Bool := min ≤ count
    let extend (_ : Unit) : Candidates Match := (inner none scan start b).bind fun m ↦
      if m.stop = start then if satisfied then .done else .pure m
      else repeatAfter inner min max following scan n (count + 1) m.stop m.bindings
    let stay (_ : Unit) : Candidates Match := .pure ⟨start, b⟩
    if !canExtend then if satisfied then stay () else .done
    else if !satisfied then extend ()
    else takesOver following scan start b fun refused ↦
      if refused then .append stay extend else .append extend stay

/-- Repetitions of a finder. -/
def repeater (inner : Finder) (min : Nat) (max : Option Nat) : Finder :=
  fun following scan start b ↦
    repeatAfter inner min max following scan (scan.phrase.segmentCount + scan.phrase.wordCount) 0
      start b

/-- The spans of a finder, each captured under a number. -/
def capture (inner : Finder) (number : Nat) (reversed : Bool) : Finder :=
  fun following scan start b ↦ (inner following scan start b).bind fun m ↦
    match scan.phrase.slice? start m.stop with
    | none => .fail outside
    | some span =>
      .pure ⟨m.stop, m.bindings.bindCapture number (if reversed then span.reversed else span)⟩

/-- The bindings after checks at a position; every check sees those of the earlier ones. -/
def checksHold (scan : Scan) (start : Position) : List (Finder × Bool) → Bindings →
    Candidates Bindings
  | [], b => .pure b
  | (check, negated) :: rest, b => (check none scan start b).find (fun _ ↦ true) fun
    | some m => if negated then .done else checksHold scan start rest m.bindings
    | none => if negated then checksHold scan start rest b else .done

/-- The spans of a finder at whose start checks hold. -/
def intersection (initial : Finder) (checks : List (Finder × Bool)) : Finder :=
  fun following scan start b ↦ (initial following scan start b).bind fun m ↦
    (checksHold scan start checks m.bindings).map fun bound ↦ ⟨m.stop, bound⟩

/-- The bindings that both sides around a span make. -/
def around (sides : Finder × Finder) (scan : Scan) (start stop : Position) (b : Bindings) :
    Candidates Bindings :=
  match scan.phrase.turn? start with
  | none => .fail outside
  | some back => (sides.1 none scan.turned back b).bind fun m ↦
    (sides.2 none scan stop m.bindings).map Match.bindings

/-- Goes on unless some surroundings hold around a span. -/
def unlessAround (scan : Scan) (start stop : Position) (b : Bindings)
    (next : Unit → Candidates α) : List (Finder × Finder) → Candidates α
  | [] => next ()
  | sides :: rest => (around sides scan start stop b).find (fun _ ↦ true) fun
    | some _ => .done
    | none => unlessAround scan start stop b next rest

/-- The bindings of each of some surroundings that hold around a span. -/
def inSome (scan : Scan) (start stop : Position) (b : Bindings) : List (Finder × Finder) →
    Candidates Bindings
  | [] => .done
  | sides :: rest => .append (fun _ ↦ around sides scan start stop b) fun _ ↦
    inSome scan start stop b rest

/-- The spans of a finder around which no exclusion holds and, if there are conditions, one of the
conditions does. -/
def environment (core : Finder) (conditions exclusions : List (Finder × Finder)) : Finder :=
  fun following scan start b ↦ (core following scan start b).bind fun m ↦
    unlessAround scan start m.stop m.bindings (fun _ ↦
      if conditions.isEmpty then .pure m
      else (inSome scan start m.stop m.bindings conditions).map fun bound ↦ ⟨m.stop, bound⟩)
      exclusions

/-- The fragment that was captured under a number. -/
def captureReference (inv : Inventory) (number : Nat) (exact reversed : Bool) : Finder :=
  fun _ scan start b ↦
    match b.capture? number with
    | none => .fail (.of (.unboundCapture number))
    | some bound =>
      let target := if reversed then bound.reversed else bound
      let same (a c : Segment) : Bool :=
        if exact then a = c else (inv.withoutFloating a).symbol = (inv.withoutFloating c).symbol
      match scan.phrase.afterWords? same target.words start with
      | some stop => .pure ⟨stop, b⟩
      | none => .done

end Finder

end Diachrony
