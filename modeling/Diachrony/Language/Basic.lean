import Diachrony.Inventory.Reading
import Diachrony.Inventory.Writing
import Diachrony.Pattern.Basic
import Diachrony.Pattern.Candidates

/-!
# Languages

What every rule is applied under: an inventory, the division into syllables that is in force, and
the bounds on the work of a rule.
-/

namespace Diachrony

/-- Bounds on the work of searches and rules. -/
structure Limits where
  /-- Choice points allowed in one attempt to match. -/
  maxOptions : Nat := 10000
  /-- Number of times that a propagating rule may be applied. -/
  maxPropagateSteps : Nat := 100
deriving DecidableEq, Repr

/-- A shape that a syllable may have. -/
structure SyllablePattern where
  /-- What the syllable consists of, surroundings included. -/
  pattern : Pattern
  /-- The matrix of every syllable of this shape, if it is fixed. -/
  matrix : Option Matrix := none

/-- A division into syllables by patterns, earlier ones preferred. Without patterns words keep the
breaks that they have. -/
structure Syllabifier where
  /-- The shapes of syllables. -/
  patterns : List SyllablePattern := []

namespace Syllabifier

/-- The division that keeps the breaks that words have. -/
def explicit : Syllabifier := {}

/-- Whether words keep the breaks that they have. -/
def isExplicit (s : Syllabifier) : Bool := s.patterns.isEmpty

end Syllabifier

/-- An inventory, the division into syllables in force, and bounds. -/
structure Language where
  /-- Features, symbols and diacritics. -/
  inventory : Inventory
  /-- The division into syllables, if there is one. -/
  syllabifier : Option Syllabifier := none
  /-- Bounds on the work of rules. -/
  limits : Limits := {}

namespace Language

/-- The budget of one attempt to match what a text names. -/
def budget (lang : Language) (label : String) : Budget := ⟨lang.limits.maxOptions, label⟩

/-- The phrase that a text spells. A point is a syllable break if words are divided. -/
def read (lang : Language) (text : String) : Phrase :=
  lang.inventory.readPhrase text.toList lang.syllabifier.isSome

/-- A phrase as written. -/
def write (lang : Language) (p : Phrase) : String := lang.inventory.write p

end Language

end Diachrony
