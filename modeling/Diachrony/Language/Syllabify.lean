import Diachrony.Language.Basic
import Diachrony.Pattern.Search

/-!
# Division into syllables

A word is divided into spans that match the patterns of syllables one after the other, from its
start to its end. Of all divisions the first is taken in the order that prefers, syllable by
syllable, the earlier pattern and then the earlier candidate of the pattern.
-/

namespace Diachrony

/-- The start of a syllable and the matrix of its pattern, if that is fixed. -/
structure SyllableStart where
  /-- Index of the first segment. -/
  start : Nat
  /-- The matrix that the pattern fixes. -/
  matrix : Option Matrix

namespace Syllabifier

/-- The divisions of a word from an index on. Every syllable has a segment, so the length of the
word bounds their number. -/
def divisions (inv : Inventory) (s : Syllabifier) (scan : Scan) (length : Nat) :
    Nat → Nat → Candidates (List SyllableStart)
  | bound, start =>
    if start = length then .pure []
    else match bound with
      | 0 => .fail Finder.stalled
      | bound + 1 => s.patterns.foldr (fun shape others ↦ fun _ ↦
          .choice fun _ ↦ .append (fun _ ↦
            (shape.pattern.candidates inv scan ⟨0, start⟩ .empty).bind fun m ↦
              if m.stop.word ≠ 0 ∨ m.stop.segment ≤ start then .done
              else (divisions inv s scan length bound m.stop.segment).map
                (⟨start, shape.matrix⟩ :: ·)) others)
          (fun _ ↦ .done) ()

/-- The word with syllables that start at some indices. A syllable without a fixed matrix keeps the
matrix that the word has at its start. -/
def applyDivision (w : Word) (starts : List SyllableStart) : Word :=
  w.divided (.ofBreaks ((starts.map SyllableStart.start).filter (0 < ·))
    (.ofList ((starts.map fun s ↦ (s.start, s.matrix.getD (w.syllableMatrix s.start))).filter
      fun e ↦ !e.2.isEmpty)))

/-- Divides a word into syllables. -/
def syllabify (lang : Language) (s : Syllabifier) (w : Word) : Except Fault Word := do
  if s.isExplicit then return if w.isDivided then w else w.divided .empty
  let scan := Scan.of (.ofWord w)
  match ← (s.divisions lang.inventory scan w.length w.length 0).first?
      (lang.budget "syllable patterns") with
  | some starts => return applyDivision w starts
  | none => throw (.of (.unsyllabifiable (String.ofList (lang.inventory.writeWord w))))

end Syllabifier

namespace Language

/-- Divides every word of a phrase, if words are divided. -/
def syllabify (lang : Language) (p : Phrase) : Except Fault Phrase :=
  match lang.syllabifier with
  | some s => p.mapWordsM (s.syllabify lang)
  | none => .ok p

end Language

end Diachrony
