import Diachrony.Inventory.Basic
import Diachrony.Phrase.Basic

/-!
# Writing words

A word is written as its symbols in canonical composition, with a point at every syllable break and
the diacritics of a syllable before its first and behind its last segment.
-/

namespace Diachrony.Inventory

/-- The diacritics of a placement that mark a syllable with a matrix. -/
def marksOf (inv : Inventory) (placement : Placement) (m : Matrix) : List Char :=
  if m.isEmpty then []
  else (inv.diacritics.filter fun d ↦
    d.placement == placement && inv.marksSyllables d && d.matrix.isSubset m).flatMap
      Diacritic.text

/-- The characters of a word before they are composed. -/
def spell (inv : Inventory) (w : Word) : List Char :=
  w.segments.zipIdx.flatMap fun (segment, i) ↦
    (if w.isBreak i then ['.'] else [])
    ++ (if w.isSyllableStart i then inv.marksOf .before (w.syllableMatrix i) else [])
    ++ segment.symbol
    ++ (if i + 1 = w.length || w.isBreak (i + 1) then
          inv.marksOf .after (w.syllableMatrix i)
        else [])

/-- A word as written. -/
def writeWord (inv : Inventory) (w : Word) : List Char := Unicode.nfc (inv.spell w.normalized)

/-- A phrase as written, words parted by blanks. -/
def writePhrase (inv : Inventory) (p : Phrase) : List Char :=
  [' '].intercalate (p.words.map inv.writeWord)

/-- A phrase as text. -/
def write (inv : Inventory) (p : Phrase) : String := String.ofList (inv.writePhrase p)

end Diachrony.Inventory
