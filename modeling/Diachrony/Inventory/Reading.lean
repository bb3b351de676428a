import Diachrony.Inventory.Basic
import Diachrony.Phrase.Basic
import Diachrony.Unicode.Classes

/-!
# Reading written words

A text is read from left to right in rounds. A round reads a syllable break, a diacritic, or the
longest symbol that starts the rest; a character that starts no symbol becomes a segment without
features, together with the undeclared marks on it. Diacritics in front of a base wait for it, and
those behind a base are added to it.

A round reads a character at least unless it reads a symbol without text. A diacritic can stand
behind such a symbol; it is read in the next round, so a text that is read to its end needs at most
two rounds for each of its characters. Where nothing else starts the rest the rounds never end.
-/

namespace Diachrony.Inventory

/-- The longest diacritic of a placement that starts a text. -/
def diacriticAt? (inv : Inventory) (placement : Placement) (text : List Char) :
    Option Diacritic :=
  firstBest? (·.text.length) (inv.diacritics.filter fun d ↦
    d.placement == placement && !d.text.isEmpty && d.text.isPrefixOf text)

/-- The diacritic found at the start of a text is declared, of the placement, and written there. -/
theorem diacriticAt?_eq_some {inv : Inventory} {placement : Placement} {text : List Char}
    {d : Diacritic} (h : inv.diacriticAt? placement text = some d) :
    d ∈ inv.diacritics ∧ d.placement = placement ∧ d.text ≠ [] ∧ d.text <+: text := by
  obtain ⟨hmem, -⟩ := firstBest?_eq_some h
  simpa [and_assoc] using hmem

/-- No diacritic starts the empty text. -/
@[simp] theorem diacriticAt?_nil (inv : Inventory) (placement : Placement) :
    inv.diacriticAt? placement [] = none := by
  cases h : inv.diacriticAt? placement [] with
  | none => rfl
  | some d =>
    obtain ⟨-, -, hne, hd⟩ := diacriticAt?_eq_some h
    exact (hne (List.prefix_nil.mp hd)).elim

/-- The marks at the start of a text up to the first declared diacritic. -/
def looseMarks (inv : Inventory) : List Char → List Char
  | [] => []
  | c :: rest =>
    if !Unicode.isMark c || (inv.diacriticAt? .after (c :: rest)).isSome then []
    else c :: looseMarks inv rest

/-- The base at the start of a text: the longest symbol, or a character with its loose marks. -/
def coreAt (inv : Inventory) (text : List Char) : Segment :=
  match inv.parseOrder.find? fun s ↦ s.text.isPrefixOf text with
  | some s => ⟨s.text, s.matrix⟩
  | none => match text with
    | [] => .literal []
    | c :: rest => .literal (c :: inv.looseMarks rest)

/-- How far a text has been read. -/
structure Reading where
  /-- The characters that are left. -/
  rest : List Char
  /-- The segments that were read. -/
  segments : List Segment := []
  /-- The syllable breaks that were read. -/
  breaks : List Nat := []
  /-- The matrices of syllables that were read. -/
  modifiers : SortedMap Nat Matrix := ∅
  /-- The index at which the current syllable starts. -/
  syllableStart : Nat := 0
  /-- The diacritics that wait for their base. -/
  pending : List Diacritic := []

namespace Reading

/-- Reads a syllable break; a break in front of the first segment says nothing. -/
def readBreak (r : Reading) : Reading :=
  let r := { r with rest := r.rest.drop 1 }
  if r.segments.isEmpty then r
  else { r with breaks := r.breaks ++ [r.segments.length], syllableStart := r.segments.length }

/-- Adds the values of a syllable diacritic to the syllable that starts at an index. -/
def markSyllable (inv : Inventory) (start : Nat) (d : Diacritic) (r : Reading) : Reading :=
  { r with modifiers :=
      r.modifiers.insert start (inv.overlay ((r.modifiers.get? start).getD ∅) d.matrix) }

/-- Reads a diacritic behind the last segment. -/
def readAfter (inv : Inventory) (d : Diacritic) (last : Segment) (r : Reading) : Reading :=
  let r := { r with rest := r.rest.drop d.text.length }
  if inv.marksSyllables d then r.markSyllable inv r.syllableStart d
  else { r with segments := r.segments.dropLast
          ++ [⟨last.symbol ++ d.text, inv.overlay last.matrix d.matrix⟩] }

/-- Reads a base and gives it the diacritics that waited for it. -/
def readCore (inv : Inventory) (r : Reading) : Reading :=
  let core := inv.coreAt r.rest
  let (onSyllable, onSegment) := r.pending.partition inv.marksSyllables
  let written := onSegment.flatMap Diacritic.text
  let matrix := onSegment.foldl (fun m d ↦ inv.overlay m d.matrix) ∅
  let r := onSyllable.foldl (fun r d ↦ r.markSyllable inv r.segments.length d) r
  { r with
    rest := r.rest.drop core.symbol.length
    pending := []
    segments := r.segments ++ [⟨written ++ core.symbol, inv.overlay core.matrix matrix⟩] }

/-- The diacritic in front of a base that starts the rest; the end of a text is no base. -/
def before? (inv : Inventory) (r : Reading) : Option Diacritic :=
  (inv.diacriticAt? .before r.rest).filter fun d ↦ d.text.length < r.rest.length

/-- The diacritic that starts the rest and belongs to the last segment. -/
def after? (inv : Inventory) (r : Reading) : Option (Segment × Diacritic) :=
  if r.pending.isEmpty then
    match r.segments.getLast?, inv.diacriticAt? .after r.rest with
    | some last, some d => some (last, d)
    | _, _ => none
  else none

/-- One round of reading. With `syllabify` a point is a syllable break. -/
def round (inv : Inventory) (syllabify : Bool) (r : Reading) : Reading :=
  if syllabify && r.rest.head? == some '.' then r.readBreak
  else match r.before? inv with
    | some d => { r with pending := r.pending ++ [d], rest := r.rest.drop d.text.length }
    | none => match r.after? inv with
      | some (last, d) => r.readAfter inv d last
      | none => r.readCore inv

/-- A number of rounds, or fewer if the text ends. -/
def rounds (inv : Inventory) (syllabify : Bool) : Nat → Reading → Reading
  | 0, r => r
  | n + 1, r => if r.rest.isEmpty then r else rounds inv syllabify n (r.round inv syllabify)

/-- The word that was read; it is divided if breaks count or a syllable has values. -/
def toWord (syllabify : Bool) (r : Reading) : Word :=
  let word : Word := ⟨r.segments, none⟩
  if syllabify || !r.modifiers.isEmpty then
    (word.divided (.ofBreaks r.breaks r.modifiers)).normalized
  else word

end Reading

/-- The word that a text spells. With `syllabify` a point is a syllable break, otherwise it is a
character like others. A text whose rounds never end spells nothing. -/
def readWord (inv : Inventory) (text : List Char) (syllabify : Bool) : Word :=
  let text := Unicode.nfd text
  let r := Reading.rounds inv syllabify (2 * text.length) { rest := text }
  if r.rest.isEmpty then r.toWord syllabify else .empty

/-- The words of a text, parted by white space. -/
def readPhrase (inv : Inventory) (text : List Char) (syllabify : Bool) : Phrase :=
  .ofWords ((Unicode.pieces text).map (inv.readWord · syllabify))

/-- A written segment taken apart. -/
structure Parts where
  /-- The diacritics in front of the base. -/
  before : List Diacritic
  /-- The base, with characters that belong to no diacritic. -/
  core : List Char
  /-- The diacritics behind the base. -/
  after : List Diacritic

/-- The diacritics that start a text and leave something behind, and what they leave. A number
bounds the diacritics. -/
def splitBefore (inv : Inventory) : Nat → List Char → List Diacritic × List Char
  | 0, text => ([], text)
  | n + 1, text =>
    match (inv.diacriticAt? .before text).filter fun d ↦ d.text.length ≠ text.length with
    | some d =>
      let (ds, rest) := splitBefore inv n (text.drop d.text.length)
      (d :: ds, rest)
    | none => ([], text)

/-- The characters of a text outside diacritics, and the diacritics. A number bounds the steps. -/
def splitAfter (inv : Inventory) : Nat → List Char → List Char × List Diacritic
  | 0, _ | _, [] => ([], [])
  | n + 1, c :: rest =>
    match inv.diacriticAt? .after (c :: rest) with
    | some d =>
      let (cs, ds) := splitAfter inv n ((c :: rest).drop d.text.length)
      (cs, d :: ds)
    | none =>
      let (cs, ds) := splitAfter inv n rest
      (c :: cs, ds)

/-- Takes a written segment apart. -/
def parts (inv : Inventory) (symbol : List Char) : Parts :=
  let (before, rest) := inv.splitBefore symbol.length symbol
  let core := (inv.coreAt rest).symbol
  let (more, after) := inv.splitAfter rest.length (rest.drop core.length)
  ⟨before, core ++ more, after⟩

end Diachrony.Inventory
