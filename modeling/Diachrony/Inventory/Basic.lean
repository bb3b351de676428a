import Diachrony.Data.Choice
import Diachrony.Fault
import Diachrony.Segment
import Diachrony.Unicode.Normal

/-!
# Inventories

An inventory declares features with their values, symbols that are written for sets of values, and
diacritics that add values to a symbol. All its texts are in canonical decomposition, so a combining
diacritic is a character of its own.

A feature may name a null value, which stands for the absence of its other values and is never kept
in a matrix. `changeAll` changes a matrix so that each changed feature has one value at most.
-/

namespace Diachrony

/-- Whether a feature describes segments or whole syllables. -/
inductive FeatureLevel where
  /-- A property of single segments. -/
  | segment
  /-- A property of syllables, such as stress or tone. -/
  | syllable
deriving DecidableEq, Repr

/-- A feature and its values. -/
structure Feature where
  /-- Name of the feature. -/
  name : String
  /-- The values in the order of declaration. -/
  values : List String
  /-- The value that stands for the absence of the others. -/
  nullValue : Option String := none
  /-- What the feature describes. -/
  level : FeatureLevel := .segment
deriving DecidableEq, Repr

/-- Whether a value is one of the values that a matrix can keep. -/
def Feature.hasValue (f : Feature) (value : String) : Bool := f.values.contains value

/-- Whether a value belongs to a feature, the null value included. -/
def Feature.owns (f : Feature) (value : String) : Bool :=
  f.hasValue value || f.nullValue == some value

/-- Where a diacritic is written relative to its base. -/
inductive Placement where
  /-- In front of the base. -/
  | before
  /-- Behind the base. -/
  | after
deriving DecidableEq, Repr

/-- A mark that is written on a symbol and adds values to it. -/
structure Diacritic where
  /-- The written form. -/
  text : List Char
  /-- The values that it adds. -/
  matrix : Matrix
  /-- Where it is written. -/
  placement : Placement := .after
  /-- Whether it stays when its base is replaced. -/
  floating : Bool := false
deriving DecidableEq

/-- A written form that is declared with its features. -/
structure Symbol where
  /-- The written form. -/
  text : List Char
  /-- Its features. -/
  matrix : Matrix
deriving DecidableEq

/-- Symbols by falling length; symbols of one length keep their order. -/
def Symbol.longestFirst (symbols : List Symbol) : List Symbol :=
  symbols.mergeSort fun a b ↦ b.text.length ≤ a.text.length

/-- Declared features, symbols and diacritics. -/
structure Inventory where
  /-- The features in the order of declaration. -/
  features : List Feature := []
  /-- The symbols in the order of declaration. -/
  symbols : List Symbol := []
  /-- The diacritics in the order of declaration. -/
  diacritics : List Diacritic := []
  /-- The symbols in the order in which they are tried at a place of a text. -/
  parseOrder : List Symbol := Symbol.longestFirst symbols
  /-- A longer symbol is tried before a shorter one. -/
  parseOrder_eq : parseOrder = Symbol.longestFirst symbols := by rfl

namespace Inventory

/-- The inventory without declarations. -/
def empty : Inventory := {}

instance : Inhabited Inventory := ⟨empty⟩

/-- The feature with a name. -/
def feature? (inv : Inventory) (name : String) : Option Feature :=
  inv.features.find? (·.name == name)

/-- The feature that a value belongs to. -/
def featureOf? (inv : Inventory) (value : String) : Option Feature :=
  inv.features.find? (·.owns value)

/-- The symbol with a written form. -/
def symbol? (inv : Inventory) (text : List Char) : Option Symbol :=
  let text := Unicode.nfd text
  inv.symbols.find? (·.text == text)

/-- The diacritic with a written form. -/
def diacritic? (inv : Inventory) (text : List Char) : Option Diacritic :=
  let text := Unicode.nfd text
  inv.diacritics.find? (·.text == text)

/-- The level of the feature that an assertion is about. -/
def levelOf? (inv : Inventory) : Assertion → Option FeatureLevel
  | .simple value | .negated value => (inv.featureOf? value).map Feature.level
  | .absent feature | .binds feature => (inv.feature? feature).map Feature.level

/-- Whether an assertion is about a feature of syllables. -/
def isSyllableLevel (inv : Inventory) (a : Assertion) : Bool := inv.levelOf? a == some .syllable

/-- Refuses an assertion about an undeclared value or feature. -/
def checkAssertion (inv : Inventory) : Assertion → Except Fault Unit
  | .simple value | .negated value =>
    if (inv.featureOf? value).isSome then .ok ()
    else throw (.of (.undefinedName "feature value" value))
  | .absent feature | .binds feature =>
    if (inv.feature? feature).isSome then .ok ()
    else throw (.of (.undefinedName "feature" feature))

/-- Refuses a matrix with an undeclared name, for the first one. -/
def checkMatrix (inv : Inventory) (m : Matrix) : Except Fault Unit :=
  m.toList.forM inv.checkAssertion

/-- Refuses a matrix of a symbol or diacritic with an undeclared name or with an assertion that
does not say that a value is present. -/
def checkSimple (inv : Inventory) (m : Matrix) : Except Fault Unit := do
  inv.checkMatrix m
  match m.toList.find? fun a ↦ !a.isSimple with
  | some a => throw (.of (.invalidOutputMatrix m.toText a.toText))
  | none => return ()

/-- Whether a value stands for the absence of the other values of its feature. -/
def meansAbsence (inv : Inventory) (value : String) : Bool :=
  match inv.featureOf? value with
  | some f => f.nullValue == some value
  | none => false

/-- Whether an assertion says that a null value is present. -/
def assertsNull (inv : Inventory) (a : Assertion) : Bool :=
  match a.simpleValue? with
  | some value => inv.meansAbsence value
  | none => false

/-- The matrix without null values. -/
def dropNulls (inv : Inventory) (m : Matrix) : Matrix := m.filter fun a ↦ !inv.assertsNull a

/-- An assertion of a pattern, where a null value asks for the absence of its feature. -/
def patternAssertion (inv : Inventory) : Assertion → Assertion
  | .simple value =>
    if inv.meansAbsence value then .absent ((inv.featureOf? value).elim "" Feature.name)
    else .simple value
  | a => a

/-- The matrix of a pattern, where null values ask for absence. -/
def patternMatrix (inv : Inventory) (m : Matrix) : Except Fault Matrix := do
  inv.checkMatrix m
  return SortedSet.ofList (m.toList.map inv.patternAssertion)

/-- The assertions about segments and the assertions about syllables. An undeclared value counts
as a value of segments. -/
def byLevel (inv : Inventory) (m : Matrix) : Matrix × Matrix :=
  (m.filter fun a ↦ !inv.isSyllableLevel a, m.filter inv.isSyllableLevel)

/-- The matrix without the values of a feature. -/
def dropFeature (f : Feature) (m : Matrix) : Matrix :=
  m.filter fun a ↦ match a.simpleValue? with
    | some value => !f.hasValue value
    | none => true

/-- One change of a matrix. A value replaces the values of its feature, and the null value and an
absence only remove them. -/
def change (inv : Inventory) (m : Matrix) : Assertion → Except Fault Matrix
  | .simple value =>
    match inv.featureOf? value with
    | some f =>
      let rest := dropFeature f m
      .ok (if f.nullValue == some value then rest else rest.insert (.simple value))
    | none => .ok (m.insert (.simple value))
  | .absent feature =>
    match inv.feature? feature with
    | some f => .ok (dropFeature f m)
    | none => .ok m
  | .negated value => .ok (m.erase (.simple value))
  | .binds feature => throw (.of (.unboundFeatureVariable feature))

/-- The matrix with changes applied in their order. -/
def changeAll (inv : Inventory) (base changes : Matrix) : Except Fault Matrix :=
  changes.toList.foldlM inv.change base

/-- The matrix with the values of a symbol or diacritic added, which bind no feature. -/
def overlay (inv : Inventory) (base changes : Matrix) : Matrix :=
  match inv.changeAll base changes with
  | .ok m => m
  | .error _ => base.union changes

/-- Whether a diacritic marks syllables: it has values, all of them values of syllables. -/
def marksSyllables (inv : Inventory) (d : Diacritic) : Bool :=
  !d.matrix.isEmpty && d.matrix.toList.all inv.isSyllableLevel

end Inventory

end Diachrony
