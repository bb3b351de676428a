import Diachrony.Pattern.Finder
import Diachrony.Proofs.Phrase.Undivided

/-!
# Leaving out syllables

A phrase without its division into syllables has the segments of the phrase at the same positions.
Pieces and reversals of it are pieces and reversals of the phrase without their divisions, and so it
is for everything that a search keeps: the two directions of reading and the captured fragments.
-/

namespace Diachrony

universe u v w

namespace SortedMap

variable {κ : Type u} {β : Type v} {γ : Type w} [LT κ]

/-- Changes every value. -/
def mapValues (f : β → γ) (m : SortedMap κ β) : SortedMap κ γ :=
  ⟨m.entries.map fun e ↦ (e.1, f e.2), List.pairwise_map.mpr m.increasing⟩

/-- A key has the changed value. -/
theorem get?_mapValues [DecidableEq κ] (f : β → γ) (m : SortedMap κ β) (key : κ) :
    (m.mapValues f).get? key = (m.get? key).map f := by
  rw [get?, get?, mapValues, List.find?_map, Option.map_map, Option.map_map]
  rfl

/-- A value that is inserted before the change is changed. -/
theorem mapValues_insert [DecidableLT κ] [DecidableEq κ]
    [Trans (α := κ) (· < ·) (· < ·) (· < ·)] [Std.Trichotomous (α := κ) (· < ·)]
    [Std.Asymm (α := κ) (· < ·)] (f : β → γ) (m : SortedMap κ β) (key : κ) (value : β) :
    (m.insert key value).mapValues f = (m.mapValues f).insert key (f value) := by
  ext1 other
  rw [get?_mapValues, get?_insert, get?_insert, get?_mapValues]
  split <;> rfl

end SortedMap

namespace Word

/-- Words with the same segments are the same without their divisions. -/
theorem undivided_eq {v w : Word} (h : v.segments = w.segments) : v.undivided = w.undivided :=
  eq_of_segments_eq rfl rfl h

/-- A piece of a word without its division. -/
theorem undivided_slice (w : Word) (a b : Nat) : (w.slice a b).undivided = w.undivided.slice a b :=
  eq_of_segments_eq rfl (syllables_slice rfl a b) rfl

/-- A reversed word without its division. -/
theorem undivided_reversed (w : Word) : w.reversed.undivided = w.undivided.reversed :=
  eq_of_segments_eq rfl rfl rfl

end Word

namespace Phrase

/-- The phrase without its division into syllables. -/
def undivided (p : Phrase) : Phrase := p.mapWords Word.undivided

variable (p : Phrase)

@[simp] theorem words_undivided : p.undivided.words = p.words.map Word.undivided := rfl

@[simp] theorem lengths_undivided : p.undivided.lengths = p.lengths := by
  rw [lengths, words_undivided, List.map_map]
  rfl

@[simp] theorem word?_undivided (i : Nat) : p.undivided.word? i = (p.word? i).map Word.undivided :=
  List.getElem?_map

@[simp] theorem wordCount_undivided : p.undivided.wordCount = p.wordCount :=
  wordCount_eq_of_lengths_eq p.lengths_undivided

@[simp] theorem wordLength_undivided (i : Nat) : p.undivided.wordLength i = p.wordLength i := by
  rw [wordLength_eq, wordLength_eq, lengths_undivided]

theorem wordAt_undivided (i : Nat) : p.undivided.wordAt i = (p.wordAt i).undivided := by
  rw [wordAt, wordAt, word?_undivided]
  cases p.word? i <;> rfl

@[simp] theorem isPosition_undivided (i : Position) : p.undivided.isPosition i = p.isPosition i :=
  isPosition_congr p.lengths_undivided

@[simp] theorem isWordEnd_undivided (i : Position) : p.undivided.isWordEnd i = p.isWordEnd i := by
  rw [isWordEnd, isWordEnd, wordLength_undivided]

/-- The segments stand where they stood. -/
@[simp] theorem segmentAt?_undivided (i : Position) :
    p.undivided.segmentAt? i = p.segmentAt? i := by
  rw [segmentAt?, segmentAt?, word?_undivided]
  cases p.word? i.word <;> rfl

/-- The fuel of a repetition stays the same. -/
theorem segmentCount_add_wordCount_undivided :
    p.undivided.segmentCount + p.undivided.wordCount = p.segmentCount + p.wordCount := by
  rw [segmentCount_add_wordCount, segmentCount_add_wordCount, size, size, lengths_undivided]

/-- Positions turn to where they turned. -/
@[simp] theorem turn_undivided (i : Position) : p.undivided.turn i = p.turn i := by
  rw [turn, turn, wordCount_undivided, wordLength_undivided]

@[simp] theorem turn?_undivided (i : Position) : p.undivided.turn? i = p.turn? i := by
  rw [turn?, turn?, isPosition_undivided, turn_undivided]

@[simp] theorem nextWord?_undivided (i : Position) : p.undivided.nextWord? i = p.nextWord? i := by
  rw [nextWord?, nextWord?, isWordEnd_undivided, wordCount_undivided]

/-- A reversed phrase without its division. -/
theorem undivided_reversed : p.reversed.undivided = p.undivided.reversed := by
  apply eq_of_words_eq
  show (p.words.map Word.reversed).reverse.map Word.undivided =
    ((p.words.map Word.undivided).map Word.reversed).reverse
  rw [← List.map_reverse, ← List.map_reverse, ← List.map_reverse, List.map_map, List.map_map]
  exact List.map_congr_left fun w _ ↦ w.undivided_reversed

/-- A fragment that is read in either direction, without its division. -/
theorem undivided_ite_reversed (reversed : Bool) :
    (if reversed then p.undivided.reversed else p.undivided) =
      (if reversed then p.reversed else p).undivided := by
  split
  · exact p.undivided_reversed.symm
  · rfl

/-- A piece of a phrase without its division. -/
theorem undivided_slice (a b : Position) : (p.slice a b).undivided = p.undivided.slice a b := by
  apply eq_of_words_eq
  rw [words_undivided, slice, slice]
  split
  · show [((p.wordAt a.word).slice a.segment b.segment).undivided] = [_]
    rw [Word.undivided_slice, wordAt_undivided]
  · simp only [List.map_cons, List.map_append, List.map_nil, Word.undivided_slice,
      wordAt_undivided, wordLength_undivided, words_undivided, List.extract_eq_take_drop,
      List.map_take, List.map_drop]

/-- A piece of a phrase, if it is one, without its division. -/
theorem slice?_undivided (a b : Position) :
    p.undivided.slice? a b = (p.slice? a b).map undivided := by
  rw [slice?, slice?, isPosition_undivided, isPosition_undivided]
  split
  · exact congrArg some (p.undivided_slice a b).symm
  · rfl

section Literals

variable (same : Segment → Segment → Bool)

/-- A literal ends where it ended. -/
theorem afterLiteral?_undivided (literal : Word) (i : Position) :
    p.undivided.afterLiteral? same literal i = p.afterLiteral? same literal i := by
  rw [afterLiteral?, afterLiteral?, word?_undivided]
  cases p.word? i.word <;> rfl

/-- Words without their divisions end where the words end. -/
theorem afterWords?_undivided (words : List Word) (i : Position) :
    p.undivided.afterWords? same (words.map Word.undivided) i = p.afterWords? same words i := by
  induction words generalizing i with
  | nil => rfl
  | cons w rest ih =>
    have hfirst : p.undivided.afterLiteral? same w.undivided i = p.afterLiteral? same w i :=
      p.afterLiteral?_undivided same w i
    cases rest with
    | nil => exact hfirst
    | cons v rest =>
      show (p.undivided.afterLiteral? same w.undivided i).bind (fun stop ↦
          (p.undivided.nextWord? stop).bind
            (p.undivided.afterWords? same ((v :: rest).map Word.undivided))) =
        (p.afterLiteral? same w i).bind fun stop ↦
          (p.nextWord? stop).bind (p.afterWords? same (v :: rest))
      rw [hfirst, funext ih]
      simp only [nextWord?_undivided]

end Literals

end Phrase

/-- Both directions of reading without syllables. -/
def Scan.undivided (s : Scan) : Scan := ⟨s.phrase.undivided, s.back.undivided⟩

/-- A phrase that is read forwards without its division. -/
theorem Scan.undivided_of (p : Phrase) : (Scan.of p).undivided = .of p.undivided :=
  congrArg (Scan.mk p.undivided) p.undivided_reversed

namespace Bindings

/-- The bindings with the captured fragments left without their divisions. -/
def undivided (b : Bindings) : Bindings := { b with captures := b.captures.mapValues .undivided }

@[simp] theorem capture?_undivided (b : Bindings) (number : Nat) :
    b.undivided.capture? number = (b.capture? number).map Phrase.undivided :=
  b.captures.get?_mapValues _ number

theorem undivided_bindCapture (b : Bindings) (number : Nat) (fragment : Phrase) :
    (b.bindCapture number fragment).undivided =
      b.undivided.bindCapture number fragment.undivided :=
  congrArg (Bindings.mk b.features) (b.captures.mapValues_insert _ number fragment)

end Bindings

/-- The match with its bindings left without syllables. -/
def Match.undivided (m : Match) : Match := { m with bindings := m.bindings.undivided }

/-- A test of an assertion looks at no capture. -/
theorem Assertion.test_undivided (inv : Inventory) (candidate : Matrix) (a : Assertion)
    (b : Bindings) :
    a.test inv candidate b.undivided = (a.test inv candidate b).map Bindings.undivided := by
  cases a with
  | simple value | negated value =>
    rw [test, test]
    split <;> rfl
  | absent feature =>
    rw [test, test]
    split
    · split <;> rfl
    · rfl
  | binds feature =>
    rw [test, test]
    split <;> rfl

/-- A test of a matrix looks at no capture. -/
theorem Matrix.test_undivided (inv : Inventory) (pattern candidate : Matrix) (b : Bindings) :
    pattern.test inv candidate b.undivided =
      (pattern.test inv candidate b).map Bindings.undivided := by
  rw [test, test]
  induction pattern.toList generalizing b with
  | nil => rfl
  | cons a rest ih =>
    rw [List.foldlM_cons, List.foldlM_cons, Assertion.test_undivided]
    cases a.test inv candidate b with
    | none => rfl
    | some bound => exact ih bound

end Diachrony
