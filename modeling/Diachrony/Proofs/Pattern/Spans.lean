import Diachrony.Pattern.Search

/-!
# The spans of a pattern

A pattern that refers to no captures has a plain meaning: a relation between the start and the end
of a span. It says nothing about the order in which a search offers ends, about choice points or
about what follows; a search is right when it offers the ends that the relation allows.

Surroundings read the side before a span in the reversed phrase, as searches do.
-/

namespace Diachrony

/-- From which start of a scanned phrase to which end the spans of a kind go. -/
abbrev Spans := Scan → Position → Position → Prop

namespace Spans

/-- The empty spans at the positions that a test accepts. -/
def emptyIf (test : Phrase → Position → Prop) : Spans := fun scan start stop ↦
  test scan.phrase start ∧ stop = start

/-- The span from the end of a word to the start of the next word. -/
def wordGap : Spans := fun scan start stop ↦
  scan.phrase.isWordEnd start ∧ start.word + 1 < scan.phrase.wordCount ∧
    stop = ⟨start.word + 1, 0⟩

/-- Spans of one word whose segments are, one by one, as those of a literal. -/
def ofLiteral (same : Segment → Segment → Bool) (literal : Word) : Spans := fun scan start stop ↦
  ∃ word, scan.phrase.word? start.word = some word ∧
    stop = ⟨start.word, start.segment + literal.length⟩ ∧ stop.segment ≤ word.length ∧
    ∀ i < literal.length, ∀ a ∈ literal.get? i, ∀ c ∈ word.get? (start.segment + i), same a c

/-- Single segments to which a matrix belongs that satisfies a test. -/
def segmentWith (matrixAt? : Phrase → Position → Option Matrix) (test : Matrix → Prop) : Spans :=
  fun scan start stop ↦ (∃ m ∈ matrixAt? scan.phrase start, test m) ∧ stop = start.step

/-- Whole syllables; a word that is not divided is one syllable. -/
def syllable : Spans := fun scan start stop ↦
  ∃ word, scan.phrase.word? start.word = some word ∧ start.segment < word.length ∧
    word.isSyllableStart start.segment ∧ stop = ⟨start.word, word.syllableStop start.segment⟩

/-- Single segments that are no spans of a kind. -/
def negated (inner : Spans) : Spans := fun scan start stop ↦
  (∃ segment, scan.phrase.segmentAt? start = some segment) ∧
    ¬inner scan start start.step ∧ stop = start.step

/-- Spans one after the other. -/
def sequence : List Spans → Spans
  | [] => fun _ start stop ↦ stop = start
  | first :: rest => fun scan start stop ↦
    ∃ middle, first scan start middle ∧ sequence rest scan middle stop

/-- The spans of all kinds of a list. -/
def alternative (options : List Spans) : Spans := fun scan start stop ↦
  ∃ option ∈ options, option scan start stop

/-- A number of spans one after the other, none of them empty. -/
inductive Steps (span : Position → Position → Prop) : Nat → Position → Position → Prop
  /-- No span. -/
  | none (start : Position) : Steps span 0 start start
  /-- A span and the spans after it. -/
  | next {count : Nat} {start middle stop : Position} (first : span start middle)
      (moves : middle ≠ start) (rest : Steps span count middle stop) :
      Steps span (count + 1) start stop

/-- Whether a number of repetitions is within the bounds, or an empty repetition at the end makes
up for all that the minimum asks for. -/
def EnoughSteps (min : Nat) (max : Option Nat) (count : Nat) (emptyAtEnd : Prop) : Prop :=
  (min ≤ count ∧ ∀ most ∈ max, count ≤ most) ∨
    (count < min ∧ (∀ most ∈ max, count < most) ∧ emptyAtEnd)

/-- Repetitions of spans of a kind. -/
def repeated (inner : Spans) (min : Nat) (max : Option Nat) : Spans := fun scan start stop ↦
  ∃ count, Steps (inner scan) count start stop ∧ EnoughSteps min max count (inner scan stop stop)

/-- Spans at whose start some kinds have a span and others have none. -/
def intersection (initial : Spans) (checks : List (Spans × Bool)) : Spans :=
  fun scan start stop ↦ initial scan start stop ∧
    ∀ check ∈ checks, (∃ other, check.1 scan start other) ↔ check.2 = false

/-- Whether there are spans on both sides of a span, the first of them read backwards. -/
def Around (sides : Spans × Spans) (scan : Scan) (start stop : Position) : Prop :=
  (∃ other, sides.1 scan.turned (scan.phrase.turn start) other) ∧ ∃ other, sides.2 scan stop other

/-- Spans around which nothing of one list holds and, if it has members, one of another list. -/
def environment (core : Spans) (conditions exclusions : List (Spans × Spans)) : Spans :=
  fun scan start stop ↦ core scan start stop ∧
    (∀ sides ∈ exclusions, ¬Around sides scan start stop) ∧
    (conditions ≠ [] → ∃ sides ∈ conditions, Around sides scan start stop)

end Spans

/-- Whether a matrix is as an assertion of a pattern asks. A feature variable asks for nothing. -/
def Assertion.Holds (inv : Inventory) (candidate : Matrix) : Assertion → Prop
  | simple value => candidate.has value
  | negated value => ¬candidate.has value
  | absent feature =>
    ∀ f ∈ inv.feature? feature, ∀ value ∈ f.values, ¬candidate.has value
  | binds _ => True

/-- Whether a matrix is as every assertion of a pattern asks. -/
def Matrix.Satisfies (inv : Inventory) (pattern candidate : Matrix) : Prop :=
  ∀ a ∈ pattern, a.Holds inv candidate

mutual

/-- The spans that a pattern means. What a reference to a capture means depends on bindings, so it
has none here. -/
def Pattern.spans (inv : Inventory) : Pattern → Spans
  | .empty => .emptyIf fun _ _ ↦ True
  | .never => .emptyIf fun _ _ ↦ False
  | .wordStart => .emptyIf fun p i ↦ p.isWordStart i
  | .wordEnd => .emptyIf fun p i ↦ p.isWordEnd i
  | .betweenWords => .wordGap
  | .text literal => .ofLiteral (fun a c ↦ a.symbol = c.symbol) literal
  | .symbol literal => .ofLiteral inv.spells literal
  | .matrix values => .segmentWith Finder.segmentMatrix? (values.Satisfies inv)
  | .syllableMatrix values => .segmentWith Finder.syllableMatrix? (values.Satisfies inv)
  | .negated inner => .negated (inner.spans inv)
  | .syllable => .syllable
  | .syllableBoundary => .emptyIf fun p i ↦ Finder.isSyllableEdge p i
  | .sequence items => .sequence (Pattern.spansOfAll inv items)
  | .alternative options => .alternative (Pattern.spansOfAll inv options)
  | .repeater inner min max => .repeated (inner.spans inv) min max
  | .capture inner _ _ => inner.spans inv
  | .intersection initial checks =>
    .intersection (initial.spans inv) (Check.spansOfAll inv checks)
  | .environment core conditions exclusions =>
    .environment (core.spans inv) (Surroundings.spansOfAll inv conditions)
      (Surroundings.spansOfAll inv exclusions)
  | .captureReference _ _ _ => .emptyIf fun _ _ ↦ False

/-- The spans of every pattern of a list. -/
def Pattern.spansOfAll (inv : Inventory) : List Pattern → List Spans
  | [] => []
  | p :: rest => p.spans inv :: Pattern.spansOfAll inv rest

/-- The spans of every check of a list, and whether there must be none. -/
def Check.spansOfAll (inv : Inventory) : List Check → List (Spans × Bool)
  | [] => []
  | .mk p negated :: rest => (p.spans inv, negated) :: Check.spansOfAll inv rest

/-- The spans of both sides of surroundings. -/
def Surroundings.spansOfAll (inv : Inventory) : List Surroundings → List (Spans × Spans)
  | [] => []
  | .mk behind ahead :: rest =>
    (behind.spans inv, ahead.spans inv) :: Surroundings.spansOfAll inv rest

end

mutual

/-- Whether a pattern refers to no captures, so that bindings play no part in what it matches. -/
def Pattern.isReferenceFree : Pattern → Bool
  | .negated inner | .repeater inner _ _ | .capture inner _ _ => inner.isReferenceFree
  | .sequence items | .alternative items => Pattern.allReferenceFree items
  | .intersection initial checks => initial.isReferenceFree && Check.allReferenceFree checks
  | .environment core conditions exclusions =>
    core.isReferenceFree && Surroundings.allReferenceFree conditions &&
      Surroundings.allReferenceFree exclusions
  | .captureReference .. => false
  | _ => true

/-- Whether no pattern of a list refers to captures. -/
def Pattern.allReferenceFree : List Pattern → Bool
  | [] => true
  | p :: rest => p.isReferenceFree && Pattern.allReferenceFree rest

/-- Whether no check of a list refers to captures. -/
def Check.allReferenceFree : List Check → Bool
  | [] => true
  | .mk p _ :: rest => p.isReferenceFree && Check.allReferenceFree rest

/-- Whether no side of some surroundings refers to captures. -/
def Surroundings.allReferenceFree : List Surroundings → Bool
  | [] => true
  | .mk behind ahead :: rest =>
    behind.isReferenceFree && ahead.isReferenceFree && Surroundings.allReferenceFree rest

end

end Diachrony
