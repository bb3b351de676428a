import Diachrony.Unicode.CombiningClass
import Diachrony.Unicode.Decomposition

/-!
# Canonical normal forms

`nfd` takes every character apart and puts neighbouring marks into the order of their classes.
`nfc` then composes each base with the marks that nothing blocks from it.
-/

namespace Diachrony.Unicode

/-- Puts a character in front of ordered text. A mark passes the marks of a smaller class, which
keeps marks of one class in their order. -/
def place (c : Char) : List Char → List Char
  | [] => [c]
  | d :: rest =>
    if combiningClass d ≠ 0 ∧ combiningClass d < combiningClass c then d :: place c rest
    else c :: d :: rest

/-- Canonical decomposition: characters taken apart, marks in the order of their classes. -/
def nfd (cs : List Char) : List Char := (cs.flatMap decompose).foldr place []

/-- The code point whose mapping is the pair, in the runs of a table. -/
def codeOf? (pair : Nat × Nat) : List (Nat × List (Nat × Nat)) → Option Nat
  | [] => none
  | (first, pairs) :: rest =>
    match pairs.findIdx? (· == pair) with
    | some i => some (first + i)
    | none => codeOf? pair rest

/-- The Hangul syllable made of a lead and a vowel, or of an open syllable and a trail. -/
def hangulOf? (a b : Nat) : Option Nat :=
  if leadBase ≤ a ∧ a < leadBase + leadCount ∧ vowelBase ≤ b ∧ b < vowelBase + vowelCount then
    some (hangulBase + ((a - leadBase) * vowelCount + (b - vowelBase)) * trailCount)
  else if hangulBase ≤ a ∧ a < hangulBase + leadCount * vowelCount * trailCount
      ∧ (a - hangulBase) % trailCount = 0 ∧ trailBase < b ∧ b < trailBase + trailCount then
    some (a + (b - trailBase))
  else none

/-- The character that two neighbours compose into. No composite ends in a character below
U+0300. -/
def compose? (a b : Char) : Option Char :=
  if b.toNat < 0x300 then none
  else match hangulOf? a.toNat b.toNat with
    | some code => some (Char.ofNat code)
    | none => (codeOf? (a.toNat, b.toNat) composites).map Char.ofNat

/-- Composes from a base onwards. `passed` holds, last first, the marks after the base that stay
marks. A character is blocked from the base by a passed mark whose class is not smaller. -/
def composeFrom (base : Char) (passed : List Char) : List Char → List Char
  | [] => base :: passed.reverse
  | c :: rest =>
    let blocked := match passed with
      | [] => false
      | mark :: _ => combiningClass c ≤ combiningClass mark
    match if blocked then none else compose? base c with
    | some composite => composeFrom composite passed rest
    | none =>
      if combiningClass c = 0 then base :: (passed.reverse ++ composeFrom c [] rest)
      else composeFrom base (c :: passed) rest

/-- Composes text in canonical decomposition; marks in front of the first base stay. -/
def composeAll : List Char → List Char
  | [] => []
  | c :: rest => if combiningClass c = 0 then composeFrom c [] rest else c :: composeAll rest

/-- Canonical composition. -/
def nfc (cs : List Char) : List Char := composeAll (nfd cs)

end Diachrony.Unicode
