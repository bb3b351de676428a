import Diachrony.Inventory.Basic

/-!
# Building an inventory

Declarations are checked in the order features, diacritics, symbols, and the first mistake is
reported: a name that is declared twice, an undeclared value, an assertion that a declaration can
not make, or two symbols that no feature tells apart.
-/

namespace Diachrony.Inventory

/-- Refuses a value that an earlier feature or an earlier value of the same feature has. -/
def checkValues (seen : List String) : List String → Except Fault (List String)
  | [] => .ok seen
  | value :: rest =>
    if seen.contains value then throw (.of (.duplicateName "feature value" value))
    else checkValues (value :: seen) rest

/-- Refuses features with a name or a value that is taken. -/
def checkFeatures (names values : List String) : List Feature → Except Fault Unit
  | [] => .ok ()
  | f :: rest => do
    if names.contains f.name then throw (.of (.duplicateName "feature" f.name))
    let values ← checkValues values (f.values ++ f.nullValue.toList)
    checkFeatures (f.name :: names) values rest

/-- Adds a diacritic in canonical decomposition and without null values. -/
def addDiacritic (inv : Inventory) (d : Diacritic) : Except Fault Inventory := do
  let text := Unicode.nfd d.text
  if inv.diacritics.any (·.text == text) then
    throw (.of (.duplicateName "diacritic" (String.ofList text)))
  inv.checkSimple d.matrix
  let d := { d with text, matrix := inv.dropNulls d.matrix }
  return { inv with diacritics := inv.diacritics ++ [d] }

/-- Adds a symbol in canonical decomposition and without null values. -/
def addSymbol (inv : Inventory) (s : Symbol) : Except Fault Inventory := do
  let text := Unicode.nfd s.text
  if inv.symbols.any (·.text == text) then
    throw (.of (.duplicateName "symbol" (String.ofList text)))
  inv.checkSimple s.matrix
  let matrix := inv.dropNulls s.matrix
  match inv.symbols.find? fun twin ↦ !matrix.isEmpty && twin.matrix == matrix with
  | some twin =>
    throw (.of (.ambiguousSymbols (String.ofList twin.text) (String.ofList text) matrix.toText))
  | none =>
    return { features := inv.features, diacritics := inv.diacritics,
             symbols := inv.symbols ++ [⟨text, matrix⟩] }

/-- The inventory of a list of declarations. -/
def build (features : List Feature) (symbols : List Symbol) (diacritics : List Diacritic) :
    Except Fault Inventory := do
  checkFeatures [] [] features
  let inv ← diacritics.foldlM addDiacritic { empty with features }
  symbols.foldlM addSymbol inv

end Diachrony.Inventory
