import Diachrony.Matrix

/-!
# Segments

A segment is the unit that words are made of: what is written, diacritics included, and the
features that it has.
-/

namespace Diachrony

/-- A written form with its features. -/
structure Segment where
  /-- The characters that are written. -/
  symbol : List Char
  /-- The features of the segment. -/
  matrix : Matrix
deriving DecidableEq

namespace Segment

instance : Inhabited Segment := ⟨⟨[], ∅⟩⟩

/-- A segment without features. -/
def literal (symbol : List Char) : Segment := ⟨symbol, ∅⟩

/-- The written form as text. -/
def toText (s : Segment) : String := String.ofList s.symbol

end Segment

end Diachrony
