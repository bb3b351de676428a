import Diachrony.Phrase.Basic

/-!
# Patterns

A pattern describes spans of a phrase. `reversed` gives the pattern of the reversed spans: in the
reversed phrase it matches what the pattern matches in the phrase itself. The side of an environment
that lies before a span is kept reversed, so both sides read away from the span.
-/

namespace Diachrony

mutual

/-- A description of spans of a phrase. -/
inductive Pattern where
  /-- The empty span. -/
  | empty
  /-- No span. -/
  | never
  /-- The empty span at the start of a word. -/
  | wordStart
  /-- The empty span at the end of a word. -/
  | wordEnd
  /-- From the end of a word to the start of the next. -/
  | betweenWords
  /-- Exactly these symbols. -/
  | text (literal : Word)
  /-- These symbols, apart from floating diacritics that are not named. -/
  | symbol (literal : Word)
  /-- One segment with a matrix. -/
  | matrix (values : Matrix)
  /-- One segment of a syllable with a matrix. -/
  | syllableMatrix (values : Matrix)
  /-- One segment that is no match of a pattern by itself. -/
  | negated (inner : Pattern)
  /-- One syllable; an undivided word is one syllable. -/
  | syllable
  /-- The empty span at a break or at an edge of a word. -/
  | syllableBoundary
  /-- Patterns one after the other. -/
  | sequence (items : List Pattern)
  /-- One of some patterns; earlier ones are preferred. -/
  | alternative (options : List Pattern)
  /-- Repetitions of a pattern; more of them are preferred. -/
  | repeater (inner : Pattern) (min : Nat) (max : Option Nat)
  /-- What a pattern matches, captured under a number. With `reversed` it is read backwards. -/
  | capture (inner : Pattern) (number : Nat) (reversed : Bool)
  /-- What a pattern matches, if the checks hold at its start. -/
  | intersection (initial : Pattern) (checks : List Check)
  /-- What a pattern matches, around which a condition holds and no exclusion does. -/
  | environment (core : Pattern) (conditions exclusions : List Surroundings)
  /-- What was captured under a number. With `exact` floating diacritics count. -/
  | captureReference (number : Nat) (exact reversed : Bool)

/-- A test at the start of a span: a pattern that must match there, or must not. -/
inductive Check where
  /-- A pattern and whether it must not match. -/
  | mk (pattern : Pattern) (negated : Bool)

/-- What stands around a span, both sides reading away from the span. -/
inductive Surroundings where
  /-- The reversed side before the span and the side after it. -/
  | mk (behind ahead : Pattern)

end

instance : Inhabited Pattern := ⟨.empty⟩

mutual

/-- The pattern that matches backwards what the pattern matches forwards. -/
def Pattern.reversed : Pattern → Pattern
  | .wordStart => .wordEnd
  | .wordEnd => .wordStart
  | .text literal => .text literal.reversed
  | .symbol literal => .symbol literal.reversed
  | .negated inner => .negated inner.reversed
  | .sequence items => .sequence (Pattern.reversedAll items).reverse
  | .alternative options => .alternative (Pattern.reversedAll options)
  | .repeater inner min max => .repeater inner.reversed min max
  | .capture inner number reversed => .capture inner.reversed number !reversed
  | .intersection initial checks => .intersection initial.reversed (Check.reversedAll checks)
  | .environment core conditions exclusions =>
    .environment core.reversed (Surroundings.reversedAll conditions)
      (Surroundings.reversedAll exclusions)
  | .captureReference number exact reversed => .captureReference number exact !reversed
  | .empty => .empty
  | .never => .never
  | .betweenWords => .betweenWords
  | .matrix values => .matrix values
  | .syllableMatrix values => .syllableMatrix values
  | .syllable => .syllable
  | .syllableBoundary => .syllableBoundary

/-- Every pattern of a list reversed. -/
def Pattern.reversedAll : List Pattern → List Pattern
  | [] => []
  | p :: rest => p.reversed :: Pattern.reversedAll rest

/-- Every check of a list reversed. -/
def Check.reversedAll : List Check → List Check
  | [] => []
  | .mk p negated :: rest => .mk p.reversed negated :: Check.reversedAll rest

/-- The surroundings of a list as they stand in the reversed phrase. -/
def Surroundings.reversedAll : List Surroundings → List Surroundings
  | [] => []
  | .mk behind ahead :: rest => .mk ahead behind :: Surroundings.reversedAll rest

end

namespace Surroundings

/-- The side before the span, reading away from it. -/
def behind : Surroundings → Pattern
  | mk behind _ => behind

/-- The side after the span. -/
def ahead : Surroundings → Pattern
  | mk _ ahead => ahead

/-- The surroundings with two sides that read forwards. -/
def of (before after : Pattern) : Surroundings := mk before.reversed after

/-- Surroundings that every span has. -/
def always : Surroundings := mk .empty .empty

end Surroundings

end Diachrony
