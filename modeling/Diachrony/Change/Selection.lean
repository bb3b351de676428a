import Diachrony.Language.Basic
import Diachrony.Change.Pairing

/-!
# Selections

A filter hides segments from a rule. What it leaves of a phrase is the phrase of the segments that
it accepts, with the way back to positions of the full phrase: a start goes to the segment that
follows it, and an end to the segment that it follows.
-/

namespace Diachrony

/-- The segments that a filter accepts, and where they stand. -/
structure Selection where
  /-- The accepted segments of every word. -/
  phrase : Phrase
  /-- The indices of the accepted segments, word by word. -/
  kept : List (List Nat)
  /-- The lengths of the full words. -/
  lengths : List Nat

namespace Selection

/-- Whether a filter accepts the segment at a position, by itself. -/
def accepts (lang : Language) (filter : Pattern) (scan : Scan) (start : Position) :
    Except Fault Bool := do
  let found ← ((filter.candidates lang.inventory scan start .empty).find (·.stop = start.step)
    fun | some m => .pure m | none => .done).first? (lang.budget "filter")
  return found.isSome

/-- What a filter leaves of a phrase. -/
def of (lang : Language) (filter : Pattern) (p : Phrase) : Except Fault Selection := do
  let scan := Scan.of p
  let kept ← p.words.zipIdx.mapM fun (word, w) ↦
    (List.range word.length).filterM fun i ↦ accepts lang filter scan ⟨w, i⟩
  let words := (p.words.zip kept).map fun (word, indices) ↦
    (⟨indices.filterMap word.get?, none⟩ : Word)
  return ⟨.ofWords words, kept, p.words.map Word.length⟩

/-- The indices of the accepted segments of a word. -/
def keptIn (s : Selection) (word : Nat) : List Nat := s.kept[word]?.getD []

/-- The full position of a start. -/
def fullStart (s : Selection) (i : Position) : Position :=
  ⟨i.word, ((s.keptIn i.word)[i.segment]?).getD (s.lengths[i.word]?.getD 0)⟩

/-- The full position of the end of a span. -/
def fullStop (s : Selection) (start stop : Position) : Position :=
  if start = stop then s.fullStart start
  else match stop.segment with
    | 0 => ⟨stop.word, 0⟩
    | last + 1 => ⟨stop.word, ((s.keptIn stop.word)[last]?.getD 0) + 1⟩

/-- The position in the selection at a full position or after it. -/
def narrow (s : Selection) (i : Position) : Position :=
  ⟨i.word, ((s.keptIn i.word).takeWhile (· < i.segment)).length⟩

/-- A replacement in the full phrase. -/
def widenReplacement (s : Selection) (r : Replacement) : Replacement :=
  { r with start := s.fullStart r.start, stop := s.fullStop r.start r.stop }

/-- An edit in the full phrase. -/
def widen (s : Selection) (e : Edit) : Edit :=
  { e with
    start := s.fullStart e.start
    stop := s.fullStop e.start e.stop
    replacements := e.replacements.map s.widenReplacement }

/-- Whether all positions of an edit lie in the selection. -/
def contains (s : Selection) (e : Edit) : Bool :=
  s.phrase.isPosition e.start && s.phrase.isPosition e.stop
    && e.replacements.all fun r ↦ s.phrase.isPosition r.start && s.phrase.isPosition r.stop

/-- An edit in the full phrase, if it lies in the selection. -/
def widen? (s : Selection) (e : Edit) : Except Fault Edit :=
  if s.contains e then .ok (s.widen e) else .error Finder.outside

end Selection

end Diachrony
