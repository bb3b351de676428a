/-!
# Match modes

How the places of the edits of a rule are chosen.
-/

namespace Diachrony

/-- How the places of the edits of a rule are chosen. -/
inductive MatchMode where
  /-- All matches are found in the input and changed at once. -/
  | simultaneous
  /-- One match at a time, forwards from the last change. -/
  | leftToRight
  /-- One match at a time, backwards from the last change. -/
  | rightToLeft
deriving DecidableEq, Repr, Inhabited

/-- A match mode as written. -/
def MatchMode.toText : MatchMode → String
  | simultaneous => "simultaneous"
  | leftToRight => "ltr"
  | rightToLeft => "rtl"

end Diachrony
