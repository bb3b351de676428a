import Diachrony.Inventory.Reading

/-!
# Floating diacritics

A floating diacritic, such as a tone, is not part of what a symbol spells: a pattern without it
matches a segment with it, and it stays when the segment under it is replaced.
-/

namespace Diachrony.Inventory

/-- The floating diacritics that are written on a segment. -/
def floatingOn (inv : Inventory) (s : Segment) : List Diacritic :=
  let parts := inv.parts s.symbol
  (parts.before ++ parts.after).filter Diacritic.floating

/-- The segment without its floating diacritics and their values. -/
def withoutFloating (inv : Inventory) (s : Segment) : Segment :=
  let parts := inv.parts s.symbol
  let fixed (ds : List Diacritic) : List Char :=
    (ds.filter fun d ↦ !d.floating).flatMap Diacritic.text
  { symbol := fixed parts.before ++ parts.core ++ fixed parts.after
    matrix := ((parts.before ++ parts.after).filter Diacritic.floating).foldl
      (fun m d ↦ m.diff d.matrix) s.matrix }

/-- Whether a segment spells a pattern, apart from floating diacritics that the pattern lacks. -/
def spells (inv : Inventory) (pattern candidate : Segment) : Bool :=
  pattern.symbol == candidate.symbol
    || (inv.withoutFloating pattern).symbol == (inv.withoutFloating candidate).symbol
      && (inv.floatingOn pattern).all fun d ↦
        ((inv.floatingOn candidate).map Diacritic.text).contains d.text

/-- The segment with the floating diacritics of another, less those that it has already and those
that an excluded segment spells. -/
def inheritFloating (inv : Inventory) (target source : Segment) (excluding : Option Segment) :
    Segment :=
  let skip := ((inv.floatingOn target)
    ++ excluding.elim [] inv.floatingOn).map Diacritic.text
  let carried := (inv.floatingOn source).filter fun d ↦ !skip.contains d.text
  if carried.isEmpty then target
  else
    let text (placement : Placement) : List Char :=
      (carried.filter (·.placement == placement)).flatMap Diacritic.text
    { symbol := text .before ++ target.symbol ++ text .after
      matrix := carried.foldl (fun m d ↦ inv.overlay m d.matrix) target.matrix }

end Diachrony.Inventory
