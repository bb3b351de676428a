import Diachrony.Change.Pairing

/-!
# Splicing edits into a phrase

Edits in order of position are made in one go: the text between them is kept, and each replacement
takes the place of its span. A replacement of a span that starts a syllable starts that syllable
anew. At last the matrices of syllables are changed where replacements ask for it.
-/

namespace Diachrony

/-- A phrase with edits made, and where the replacements of each edit lie in it. -/
structure Spliced where
  /-- The phrase after the edits. -/
  phrase : Phrase
  /-- Start and end of what each edit wrote. -/
  spans : List (Position × Position)

/-- How far edits have been made. -/
structure Splicing where
  /-- The text so far. -/
  output : Phrase := .empty
  /-- The position of the input up to which the text goes. -/
  cursor : Position := {}
  /-- Where the first replacement of the current edit starts. -/
  first : Option Position := none
  /-- Start and end of what each edit wrote. -/
  spans : List (Position × Position) := []
  /-- Changes to syllables, with the span in the text that they are for. -/
  changes : List (Position × Position × Matrix) := []

namespace Replacement

/-- The start of a syllable that is lost with a replaced span. -/
def marker? (p : Phrase) (r : Replacement) : Option Phrase := do
  if r.start = r.stop then none
  else
    let word ← p.word? r.start.word
    let i := r.start.segment
    if word.isDivided && decide (i < word.length) && word.isSyllableStart i then
      some (.ofWord (.syllableOpening (word.syllableMatrix i)))
    else none

end Replacement

namespace Splicing

/-- Goes on to the start of a replacement and writes it. -/
def replace (p : Phrase) (s : Splicing) (r : Replacement) : Except Fault Splicing := do
  match p.slice? s.cursor r.start with
  | none => throw Finder.outside
  | some kept =>
    let before := match r.marker? p with
      | some marker => s.output ++ kept ++ marker
      | none => s.output ++ kept
    let output := before ++ r.result
    return { s with
      output
      cursor := r.stop
      first := s.first.or (some before.stop)
      changes := if r.syllable.isEmpty then s.changes
        else s.changes ++ [(before.stop, output.stop, r.syllable)] }

/-- Makes an edit, unless it starts before the cursor. -/
def makeEdit (p : Phrase) (s : Splicing) (e : Edit) : Except Fault Splicing := do
  if e.start < s.cursor then return s
  let s ← e.replacements.foldlM (replace p) { s with first := none }
  return { s with spans := s.spans ++ [(s.first.getD s.output.stop, s.output.stop)] }

end Splicing

namespace Phrase

/-- The phrase with the matrices of the syllables that a span touches changed. -/
def changeSyllablesIn (inv : Inventory) (p : Phrase) (start stop : Position) (changes : Matrix) :
    Except Fault Phrase := do
  let words ← p.words.zipIdx.mapM fun (word, i) ↦
    if start.word ≤ i ∧ i ≤ stop.word then
      word.changeSyllablesM (if i = start.word then start.segment else 0)
        (if i = stop.word then stop.segment else word.length) (inv.changeAll · changes)
    else .ok word
  return .ofWords words

/-- Makes edits that are given in order of position. -/
def splice (inv : Inventory) (p : Phrase) (edits : List Edit) : Except Fault Spliced := do
  let s ← edits.foldlM (Splicing.makeEdit p) { cursor := p.start }
  match p.slice? s.cursor p.stop with
  | none => throw Finder.outside
  | some rest =>
    let phrase ← s.changes.foldlM (fun q (start, stop, changes) ↦
      q.changeSyllablesIn inv start stop changes) (s.output ++ rest)
    return ⟨phrase.normalized, s.spans⟩

/-- Makes one edit, and tells where it wrote. -/
def spliceOne (inv : Inventory) (p : Phrase) (e : Edit) :
    Except Fault (Phrase × Position × Position) := do
  let s ← p.splice inv [e]
  match s.spans with
  | span :: _ => return (s.phrase, span)
  | [] => throw (.of (.internal "an accepted transformation was dropped during assembly"))

end Phrase

end Diachrony
