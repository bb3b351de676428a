import Diachrony.Data.SortedMap
import Diachrony.Segment

/-!
# Words

A word is a list of segments, divided into syllables or not. A division is the set of indices at
which a syllable starts, and a map from the start of a syllable to the features of the syllable.

Fragments of words are words too. A fragment may hold a break at its start or at its end, which
becomes an inner break when fragments are joined; `normalized` drops what is left at the edges.
-/

namespace Diachrony

/-- Breaks between syllables and the matrices of syllables by their start. -/
structure Division where
  /-- Indices at which a syllable starts. -/
  breaks : SortedSet Nat
  /-- Matrices of syllables by the index at which the syllable starts. -/
  modifiers : SortedMap Nat Matrix
deriving DecidableEq

namespace Division

/-- No breaks and no matrices. -/
def empty : Division := ⟨∅, ∅⟩

/-- The division with the breaks of a list. -/
def ofBreaks (breaks : List Nat) (modifiers : SortedMap Nat Matrix) : Division :=
  ⟨SortedSet.ofList breaks, modifiers⟩

/-- A division moved to the right. -/
def shift (s : Division) (offset : Nat) : Division :=
  .ofBreaks (s.breaks.toList.map (· + offset))
    (s.modifiers.mapKeys (· + offset) (fun h ↦ Nat.add_lt_add_right h offset))

end Division

/-- A list of segments that may be divided into syllables. -/
structure Word where
  /-- The segments in order. -/
  segments : List Segment
  /-- The division into syllables, once there is one. -/
  syllables : Option Division := none
deriving DecidableEq

namespace Word

/-- The word without segments. -/
def empty : Word := ⟨[], none⟩

instance : Inhabited Word := ⟨empty⟩

/-- A fragment that starts a syllable with a matrix. -/
def syllableOpening (matrix : Matrix) : Word :=
  ⟨[], some ⟨SortedSet.ofList [0], if matrix.isEmpty then ∅ else SortedMap.insert 0 matrix ∅⟩⟩

/-- A fragment that is only a break between syllables. -/
def syllableBreak : Word := syllableOpening ∅

/-- Number of segments. -/
def length (w : Word) : Nat := w.segments.length

/-- The segment at an index. -/
def get? (w : Word) (index : Nat) : Option Segment := w.segments[index]?

/-- Whether there is no segment. -/
def isEmpty (w : Word) : Bool := w.segments.isEmpty

/-- Whether the word is divided into syllables. -/
def isDivided (w : Word) : Bool := w.syllables.isSome

/-- The word with a division into syllables. -/
def divided (w : Word) (syllables : Division) : Word :=
  { w with syllables := some syllables }

/-- The word without its division. -/
def undivided (w : Word) : Word := { w with syllables := none }

/-- Other segments under the division of the word. -/
def setSegments (w : Word) (segments : List Segment) : Word := { w with segments }

/-- The division of the word, or the one without breaks. -/
def division (w : Word) : Division := w.syllables.getD .empty

/-- Whether a break stands before the segment at an index, inside the word. -/
def isBreak (w : Word) (index : Nat) : Bool :=
  0 < index ∧ index < w.length ∧ index ∈ w.division.breaks

/-- The breaks inside the word. -/
def innerBreaks (w : Word) : SortedSet Nat :=
  w.division.breaks.filter fun b ↦ 0 < b ∧ b < w.length

/-- The indices at which a syllable starts, in order. -/
def syllableStarts (w : Word) : List Nat := 0 :: w.innerBreaks.toList

/-- Whether a syllable starts at an index. -/
def isSyllableStart (w : Word) (index : Nat) : Bool := index = 0 || w.isBreak index

/-- The start of the syllable that holds an index. -/
def syllableAt (w : Word) (index : Nat) : Nat :=
  ((w.syllableStarts.takeWhile (· ≤ index)).getLast?).getD 0

/-- The index after the syllable that starts at an index. -/
def syllableStop (w : Word) (start : Nat) : Nat :=
  (w.syllableStarts.find? (start < ·)).getD w.length

/-- The matrix of the syllable that holds an index. -/
def syllableMatrix (w : Word) (index : Nat) : Matrix :=
  (w.division.modifiers.get? (w.syllableAt index)).getD ∅

/-- Whether the syllable that starts at an index overlaps a span; an empty span overlaps the
syllables that it touches. -/
def syllableOverlaps (w : Word) (start stop syllable : Nat) : Bool :=
  if start = stop then syllable ≤ start ∧ start ≤ w.syllableStop syllable
  else syllable < stop ∧ start < w.syllableStop syllable

/-- The word with the matrix of every syllable that overlaps a span changed, unless a change fails.
A word without division counts as one syllable. -/
def changeSyllablesM [Monad m] (w : Word) (start stop : Nat) (change : Matrix → m Matrix) :
    m Word := do
  let modifiers ← (w.syllableStarts.filter (w.syllableOverlaps start stop)).foldlM
    (fun modifiers syllable ↦ do
      return modifiers.insert syllable (← change ((modifiers.get? syllable).getD ∅)))
    w.division.modifiers
  return w.divided ⟨w.division.breaks, modifiers⟩

/-- The word with the matrix of every syllable that overlaps a span changed. -/
def changeSyllables (w : Word) (start stop : Nat) (change : Matrix → Matrix) : Word :=
  Id.run (w.changeSyllablesM start stop fun m ↦ pure (change m))

/-- The segments of a span, with the breaks and the matrices that start in it. -/
def slice (w : Word) (start stop : Nat) : Word where
  segments := w.segments.extract start stop
  syllables := w.syllables.map fun s ↦
    let inside (i : Nat) : Bool := start ≤ i ∧ i < stop
    .ofBreaks ((s.breaks.filter inside).toList.map (· - start))
      (.ofList ((s.modifiers.filter fun i _ ↦ inside i).entries.map fun e ↦ (e.1 - start, e.2)))

/-- The fragment made of two fragments. Of two matrices for one syllable the left one counts. -/
def append (v w : Word) : Word where
  segments := v.segments ++ w.segments
  syllables :=
    if v.isDivided || w.isDivided then
      let right := w.division.shift v.length
      some ⟨v.division.breaks.union right.breaks, v.division.modifiers.orElse right.modifiers⟩
    else none

instance : Append Word := ⟨append⟩

/-- Drops the breaks at the edges, the empty matrices and those of vanished syllables. -/
def normalized (w : Word) : Word :=
  { w with syllables := w.syllables.map fun s ↦
      ⟨w.innerBreaks, s.modifiers.filter fun start m ↦
        !m.isEmpty && (start = 0 || start ∈ w.innerBreaks)⟩ }

/-- The normalized word with its segments and its syllables from last to first. -/
def reversed (w : Word) : Word :=
  let v := w.normalized
  { segments := v.segments.reverse
    syllables := v.syllables.map fun s ↦
      .ofBreaks (s.breaks.toList.map (v.length - ·))
        (.ofList (s.modifiers.entries.map fun e ↦ (v.length - v.syllableStop e.1, e.2))) }

/-- The word as written, with a point at every break. -/
def toText (w : Word) : String :=
  String.ofList (w.segments.zipIdx.flatMap fun (segment, i) ↦
    if w.isBreak i then '.' :: segment.symbol else segment.symbol)

end Word

end Diachrony
