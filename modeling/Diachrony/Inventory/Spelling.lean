import Diachrony.Inventory.Basic

/-!
# Spelling a matrix

`segmentOf` finds a symbol and diacritics that together have exactly the features of a matrix. The
symbol with the most features inside the matrix is taken, and then again and again the diacritic
that adds most of what is missing; of equals the one declared first. Each diacritic is used once.
-/

namespace Diachrony.Inventory

/-- A symbol with diacritics around it. -/
structure Spelled where
  /-- Diacritics in front. -/
  before : List Char := []
  /-- Diacritics behind. -/
  after : List Char := []
  /-- The features so far. -/
  matrix : Matrix

/-- The diacritic added to a spelling. -/
def Spelled.add (inv : Inventory) (d : Diacritic) (s : Spelled) : Spelled :=
  let matrix := inv.overlay s.matrix d.matrix
  match d.placement with
  | .before => { s with before := s.before ++ d.text, matrix }
  | .after => { s with after := s.after ++ d.text, matrix }

/-- The number of missing assertions that a diacritic makes. -/
def gain (missing : Matrix) (d : Diacritic) : Nat :=
  (d.matrix.toList.filter (· ∈ missing)).length

/-- Whether a diacritic of segments has values, all of them in a matrix. -/
def fits (inv : Inventory) (target : Matrix) (d : Diacritic) : Bool :=
  !d.matrix.isEmpty && !inv.marksSyllables d && d.matrix.isSubset target

/-- Adds the best of the unused diacritics until the target is reached. A number bounds the
diacritics. -/
def complete (inv : Inventory) (target : Matrix) :
    Nat → List Diacritic → Spelled → Except Fault Spelled
  | n, unused, s =>
    if s.matrix = target then .ok s
    else
      let missing := target.diff s.matrix
      let useful := unused.zipIdx.filter fun (d, _) ↦ inv.fits target d && 0 < gain missing d
      match n, firstBest? (fun (d, _) ↦ gain missing d) useful with
      | n + 1, some (d, i) => complete inv target n (unused.eraseIdx i) (s.add inv d)
      | _, _ => throw (.of (.invalidMatrix target.toText))

/-- The symbol with most features inside a matrix; a symbol without features never counts. -/
def baseOf? (inv : Inventory) (target : Matrix) : Option Symbol :=
  firstBest? (·.matrix.size) (inv.symbols.filter fun s ↦
    !s.matrix.isEmpty && s.matrix.isSubset target)

/-- The segment whose features are exactly those of a matrix, null values aside. -/
def segmentOf (inv : Inventory) (m : Matrix) : Except Fault Segment := do
  let target := inv.dropNulls m
  if !target.allSimple then throw (.of (.invalidMatrix target.toText))
  match inv.baseOf? target with
  | none => throw (.of (.invalidMatrix target.toText))
  | some base =>
    let s ← inv.complete target inv.diacritics.length inv.diacritics { matrix := base.matrix }
    return ⟨s.before ++ base.text ++ s.after, s.matrix⟩

end Diachrony.Inventory
