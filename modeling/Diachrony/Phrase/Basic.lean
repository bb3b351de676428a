import Diachrony.Word.Basic

/-!
# Phrases and positions

A phrase is a list of words with at least one word. Fragments of phrases are phrases: joining two
of them joins the last word of the first with the first word of the second, so a fragment of two
empty words parts a word in two.

A position names a word and an index from zero to the length of the word, both ends included.
-/

namespace Diachrony

/-- A place between the segments of a phrase. -/
structure Position where
  /-- Index of the word. -/
  word : Nat := 0
  /-- Number of segments of the word that stand before the position. -/
  segment : Nat := 0
deriving DecidableEq, Repr, Inhabited

namespace Position

instance : LT Position := ⟨fun a b ↦ a.word < b.word ∨ a.word = b.word ∧ a.segment < b.segment⟩

instance : LE Position := ⟨fun a b ↦ a.word < b.word ∨ a.word = b.word ∧ a.segment ≤ b.segment⟩

/-- Positions are ordered by word, then by segment. -/
theorem lt_iff {a b : Position} :
    a < b ↔ a.word < b.word ∨ a.word = b.word ∧ a.segment < b.segment := Iff.rfl

/-- Positions are ordered by word, then by segment. -/
theorem le_iff {a b : Position} :
    a ≤ b ↔ a.word < b.word ∨ a.word = b.word ∧ a.segment ≤ b.segment := Iff.rfl

instance : DecidableLT Position := fun a b ↦
  inferInstanceAs (Decidable (a.word < b.word ∨ a.word = b.word ∧ a.segment < b.segment))

instance : DecidableLE Position := fun a b ↦
  inferInstanceAs (Decidable (a.word < b.word ∨ a.word = b.word ∧ a.segment ≤ b.segment))

/-- The later of two positions. -/
def max (a b : Position) : Position := if a ≤ b then b else a

/-- A position as text. -/
def toText (p : Position) : String := toString p.word ++ ":" ++ toString p.segment

end Position

/-- A list of words, at least one. -/
structure Phrase where
  /-- The words in order. -/
  words : List Word
  /-- There is a word. -/
  words_ne_nil : words ≠ []
deriving DecidableEq

namespace Phrase

/-- The phrase of one word. -/
def ofWord (w : Word) : Phrase := ⟨[w], by simp⟩

/-- The phrase of one empty word. -/
def empty : Phrase := ofWord .empty

instance : Inhabited Phrase := ⟨empty⟩

/-- The phrase of a list of words; no words are one empty word. -/
def ofWords : List Word → Phrase
  | [] => empty
  | w :: rest => ⟨w :: rest, by simp⟩

/-- The first word and the others, changed one by one. -/
def mapWords (f : Word → Word) (p : Phrase) : Phrase :=
  ⟨p.words.map f, by simpa using p.words_ne_nil⟩

/-- The words changed one by one, unless a change fails. -/
def mapWordsM (f : Word → Except ε Word) (p : Phrase) : Except ε Phrase :=
  (p.words.mapM f).map ofWords

/-- The word at an index. -/
def word? (p : Phrase) (index : Nat) : Option Word := p.words[index]?

/-- The word at an index, or the empty word. -/
def wordAt (p : Phrase) (index : Nat) : Word := (p.word? index).getD .empty

/-- Number of words. -/
def wordCount (p : Phrase) : Nat := p.words.length

/-- Number of segments of all words. -/
def segmentCount (p : Phrase) : Nat := p.words.foldl (fun count w ↦ count + w.length) 0

/-- Whether no word has a segment. -/
def isBlank (p : Phrase) : Bool := p.words.all Word.isEmpty

/-- Length of the word at an index, zero if there is none. -/
def wordLength (p : Phrase) (index : Nat) : Nat := (p.wordAt index).length

/-- The first position. -/
def start (_ : Phrase) : Position := ⟨0, 0⟩

/-- The last position. -/
def stop (p : Phrase) : Position :=
  ⟨p.wordCount - 1, p.wordLength (p.wordCount - 1)⟩

/-- Whether a position lies in the phrase. -/
def isPosition (p : Phrase) (i : Position) : Bool :=
  i.word < p.wordCount ∧ i.segment ≤ p.wordLength i.word

/-- The segment after a position, unless a word ends there. -/
def segmentAt? (p : Phrase) (i : Position) : Option Segment :=
  (p.word? i.word).bind (·.get? i.segment)

/-- Whether a word starts at a position. -/
def isWordStart (_ : Phrase) (i : Position) : Bool := i.segment = 0

/-- Whether a word ends at a position. -/
def isWordEnd (p : Phrase) (i : Position) : Bool := i.segment = p.wordLength i.word

/-- The next position; after the end of a word comes the start of the next. -/
def next? (p : Phrase) (i : Position) : Option Position :=
  if i.segment < p.wordLength i.word then some ⟨i.word, i.segment + 1⟩
  else if i.word + 1 < p.wordCount then some ⟨i.word + 1, 0⟩
  else none

/-- Every position in order. -/
def positions (p : Phrase) : List Position :=
  p.words.zipIdx.flatMap fun (word, w) ↦ (List.range (word.length + 1)).map fun s ↦ ⟨w, s⟩

/-- Where a position lands in the reversed phrase. -/
def turn (p : Phrase) (i : Position) : Position :=
  ⟨p.wordCount - 1 - i.word, p.wordLength i.word - i.segment⟩

/-- The phrase read from its end. -/
def reversed (p : Phrase) : Phrase :=
  ⟨(p.words.map Word.reversed).reverse, by simpa using p.words_ne_nil⟩

/-- The phrase with every word normalized. -/
def normalized (p : Phrase) : Phrase := p.mapWords Word.normalized

/-- The fragment between two positions. -/
def slice (p : Phrase) (a b : Position) : Phrase :=
  if a.word = b.word then ofWord ((p.wordAt a.word).slice a.segment b.segment)
  else
    ⟨(p.wordAt a.word).slice a.segment (p.wordLength a.word)
      :: (p.words.extract (a.word + 1) b.word ++ [(p.wordAt b.word).slice 0 b.segment]), by simp⟩

/-- The fragment between two positions, if both lie in the phrase in this order. -/
def slice? (p : Phrase) (a b : Position) : Option Phrase :=
  if p.isPosition a ∧ p.isPosition b ∧ a ≤ b then some (p.slice a b) else none

/-- The words of two fragments, with the two words that touch joined. -/
def joinWords : List Word → List Word → List Word
  | [], ws => ws
  | vs, [] => vs
  | [v], w :: ws => (v ++ w) :: ws
  | v :: vs, ws => v :: joinWords vs ws

/-- Joining fragments leaves a word. -/
theorem joinWords_ne_nil {vs ws : List Word} (h : vs ≠ []) : joinWords vs ws ≠ [] := by
  fun_cases joinWords vs ws <;> simp_all

/-- The fragment made of two fragments. -/
def append (p q : Phrase) : Phrase :=
  ⟨joinWords p.words q.words, joinWords_ne_nil p.words_ne_nil⟩

instance : Append Phrase := ⟨append⟩

/-- Fragments joined in order; no fragments are one empty word. -/
def join : List Phrase → Phrase
  | [] => empty
  | p :: rest => rest.foldl (· ++ ·) p

/-- The phrase with the word at an index replaced. -/
def setWord (p : Phrase) (index : Nat) (w : Word) : Phrase :=
  ⟨p.words.set index w, by simpa using p.words_ne_nil⟩

/-- The phrase as written, words parted by blanks. -/
def toText (p : Phrase) : String := " ".intercalate (p.words.map Word.toText)

end Phrase

end Diachrony
