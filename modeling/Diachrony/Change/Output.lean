import Diachrony.Inventory.Floating
import Diachrony.Inventory.Spelling
import Diachrony.Pattern.Basic
import Diachrony.Pattern.Finder

/-!
# Outputs

An output says what takes the place of a matched span. Some say it without looking at the span;
matrices change the span. Outputs are evaluated when the whole match is known, so that
references and feature variables see all bindings.
-/

namespace Diachrony

/-- What takes the place of a span. -/
inductive Output where
  /-- Nothing. -/
  | empty
  /-- Exactly these symbols. -/
  | text (literal : Word)
  /-- These symbols, with the floating diacritics of the span. -/
  | symbol (literal : Word)
  /-- The span with values changed in every segment. -/
  | matrix (values : Matrix)
  /-- The span, with values changed in the syllables that it touches. -/
  | syllableMatrix (values : Matrix)
  /-- The span, changed by outputs one after the other. -/
  | inTurn (items : List Output)
  /-- What an output gives, changed by outputs one after the other. -/
  | transforming (initial : Output) (transforms : List Output)
  /-- What was captured under a number. -/
  | captureReference (number : Nat)
  /-- A break between words. -/
  | betweenWords
  /-- A break between syllables. -/
  | syllableBoundary
  /-- Outputs side by side. -/
  | sequence (items : List Output)
  /-- One output for each branch of an alternative pattern. -/
  | alternative (options : List Output)

/-- What an output gives for one span. -/
structure Product where
  /-- The fragment that takes the place of the span. -/
  phrase : Phrase
  /-- The changes to the syllables that the span touches. -/
  syllable : Matrix := ∅
deriving DecidableEq

namespace Output

instance : Inhabited Output := ⟨empty⟩

mutual

/-- Whether the output does not depend on the span. -/
def ignoresSpan : Output → Bool
  | sequence items => allIgnoreSpan items
  | matrix _ | syllableMatrix _ | inTurn _ | alternative _ => false
  | _ => true

/-- Whether no output of a list depends on the span. -/
def allIgnoreSpan : List Output → Bool
  | [] => true
  | o :: rest => o.ignoresSpan && allIgnoreSpan rest

end

/-- An assertion with its feature variable replaced by the value that is bound to it. -/
def bindAssertion (b : Bindings) : Assertion → Except Fault Assertion
  | .binds feature =>
    match b.feature? feature with
    | some value => .ok (.simple value)
    | none => .error (.of (.unboundFeatureVariable feature))
  | a => .ok a

/-- A matrix with its feature variables replaced by the values that are bound to them. -/
def bindMatrix (b : Bindings) (m : Matrix) : Except Fault Matrix := do
  return SortedSet.ofList (← m.toList.mapM (bindAssertion b))

/-- The segments that are written for a symbol pattern. Diacritics that the pattern spells are used
up by the match; others go to the segment in the same place, or all to the only one. -/
def inheritSegments (inv : Inventory) (patterns replaced outputs : List Segment) : List Segment :=
  if patterns.length = outputs.length ∧ replaced.length = outputs.length then
    ((outputs.zip replaced).zip patterns).map fun ((output, old), pattern) ↦
      inv.inheritFloating output old (some pattern)
  else if patterns.length = replaced.length ∧ outputs.length = 1 then
    outputs.map fun output ↦ (replaced.zip patterns).foldl
      (fun output (old, pattern) ↦ inv.inheritFloating output old (some pattern)) output
  else match patterns, replaced with
    | [pattern], [old] =>
      outputs.map fun output ↦ inv.inheritFloating output old (some pattern)
    | _, _ => outputs

/-- A literal with the floating diacritics of the word that it replaces. A word of the same length
keeps its division. -/
def inheritWord (inv : Inventory) (pattern : Pattern) (replaced literal : Word) : Word :=
  let segments := match pattern with
    | .symbol spelled => inheritSegments inv spelled.segments replaced.segments literal.segments
    | .matrix _ => match replaced.segments with
      | first :: _ => literal.segments.map fun output ↦ inv.inheritFloating output first none
      | [] => literal.segments
    | _ => literal.segments
  if replaced.isDivided && replaced.length == segments.length then
    replaced.setSegments segments
  else ⟨segments, none⟩

/-- A literal in place of a fragment. The matrices of its syllables are changes. -/
def produceSymbol (inv : Inventory) (pattern : Pattern) (span : Phrase) (literal : Word) :
    Except Fault Product := do
  let syllable ← (literal.division.modifiers.entries.map Prod.snd).foldlM inv.changeAll ∅
  let word := match span.words with
    | [word] => inheritWord inv pattern word literal
    | _ => literal
  return ⟨.ofWord word, syllable⟩

/-- A segment with values changed. -/
def changeSegment (inv : Inventory) (values : Matrix) (s : Segment) : Except Fault Segment := do
  inv.segmentOf (← inv.changeAll s.matrix values)

/-- A fragment with values changed in every segment. A matrix in place of an empty fragment is the
segment that it spells, if there is one. -/
def produceMatrix (inv : Inventory) (span : Phrase) (values : Matrix) : Except Fault Product := do
  if span.segmentCount = 0 then
    match inv.segmentOf values with
    | .ok segment => return { phrase := .ofWord ⟨[segment], none⟩ }
    | .error _ => return { phrase := .empty }
  else
    let phrase ← span.mapWordsM fun word ↦ do
      return word.setSegments (← word.segments.mapM (changeSegment inv values))
    return { phrase }

mutual

/-- What the output gives for a fragment that a pattern matched. -/
def produce (inv : Inventory) (b : Bindings) (pattern : Pattern) (span : Phrase) :
    Output → Except Fault Product
  | empty => .ok { phrase := .empty }
  | text literal => .ok { phrase := .ofWord literal }
  | symbol literal => produceSymbol inv pattern span literal
  | matrix values => do produceMatrix inv span (← bindMatrix b values)
  | syllableMatrix values => do return ⟨span, ← bindMatrix b values⟩
  | inTurn items => produceInTurn inv b pattern items { phrase := span }
  | transforming initial transforms => do
    produceInTurn inv b .never transforms (← produce inv b .never .empty initial)
  | captureReference number =>
    match b.capture? number with
    | some phrase => .ok { phrase }
    | none => .error (.of (.unboundCapture number))
  | betweenWords => .ok { phrase := .ofWords [.empty, .empty] }
  | syllableBoundary => .ok { phrase := .ofWord .syllableBreak }
  | sequence items => produceParts inv b items [] ∅
  | alternative _ => .error (.of (.internal
      "an alternative emitter must be paired with an alternative matcher"))

/-- A product changed by outputs one after the other. -/
def produceInTurn (inv : Inventory) (b : Bindings) (pattern : Pattern) :
    List Output → Product → Except Fault Product
  | [], current => .ok current
  | o :: rest, current => do
    let next ← produce inv b pattern current.phrase o
    produceInTurn inv b pattern rest ⟨next.phrase, ← inv.changeAll current.syllable next.syllable⟩

/-- Joins outputs after the fragments that were joined before. -/
def produceParts (inv : Inventory) (b : Bindings) :
    List Output → List Phrase → Matrix → Except Fault Product
  | [], parts, syllable => .ok ⟨.join parts, syllable⟩
  | o :: rest, parts, syllable => do
    let part ← produce inv b .never .empty o
    produceParts inv b rest (parts ++ [part.phrase]) (← inv.changeAll syllable part.syllable)

end

end Output

end Diachrony
