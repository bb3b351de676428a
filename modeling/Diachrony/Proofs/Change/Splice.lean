import Diachrony.Change.Splice
import Diachrony.Proofs.Change.Tiling

/-!
# Splicing edits that lie in order

Edits whose replacements lie one after the other are all made: none starts before the cursor that
the edits before it leave. The text that comes out is the text of all their replacements, written
one after the other.
-/

namespace Diachrony

/-- Whether spans lie in a phrase one after the other from one position to another, perhaps with
gaps. -/
def Follows (p : Phrase) : Position → List (Position × Position) → Position → Prop
  | start, [], stop => start ≤ stop
  | start, (first, next) :: rest, stop =>
    start ≤ first ∧ first ≤ next ∧ p.isPosition first ∧ p.isPosition next ∧ Follows p next rest stop

namespace Follows

variable {p : Phrase} {spans : List (Position × Position)} {start stop : Position}

/-- Spans in order lie in order from every earlier position. -/
theorem of_le {before : Position} (h : Follows p start spans stop) (hle : before ≤ start) :
    Follows p before spans stop := by
  cases spans with
  | nil => exact hle.trans h
  | cons span rest => exact ⟨hle.trans h.1, h.2⟩

/-- Spans in order after others. -/
theorem append {more : List (Position × Position)} {middle : Position}
    (h : Follows p start spans middle) (hmore : Follows p middle more stop) :
    Follows p start (spans ++ more) stop := by
  induction spans generalizing start with
  | nil => exact hmore.of_le h
  | cons span rest ih =>
    obtain ⟨hstart, hspan, hfirst, hnext, hrest⟩ := h
    exact ⟨hstart, hspan, hfirst, hnext, ih hrest⟩

end Follows

/-- Tiled spans lie in order. -/
theorem Tiles.follows {p : Phrase} {spans : List (Position × Position)} {start stop : Position}
    (h : Tiles p start spans stop) (hstart : p.isPosition start) : Follows p start spans stop := by
  induction spans generalizing start with
  | nil => exact le_of_eq h.symm
  | cons span rest ih =>
    obtain ⟨hfirst, hle, hposition, hrest⟩ := h
    rw [← hfirst] at hstart hle
    exact ⟨hfirst.ge, hle, hstart, hposition, ih hrest hposition⟩

/-- Whether edits lie in a phrase one after the other, from one position to another, with their
replacements in order. -/
def InOrder (p : Phrase) : Position → List Edit → Position → Prop
  | start, [], stop => start ≤ stop
  | start, e :: rest, stop => start ≤ e.start ∧ ∃ middle,
    Follows p e.start (e.replacements.map Replacement.span) middle ∧ InOrder p middle rest stop

namespace InOrder

variable {p : Phrase} {edits : List Edit} {start stop : Position}

/-- The edits before one of them lie in order, up to its start. -/
theorem of_append {before after : List Edit} {e : Edit}
    (h : InOrder p start (before ++ e :: after) stop) : InOrder p start before e.start := by
  induction before generalizing start with
  | nil => exact h.1
  | cons f rest ih =>
    obtain ⟨hstart, middle, hfollows, hrest⟩ := h
    exact ⟨hstart, middle, hfollows, ih hrest⟩

/-- The replacements of edits in order lie in order. -/
theorem follows (h : InOrder p start edits stop) :
    Follows p start ((edits.flatMap Edit.replacements).map Replacement.span) stop := by
  induction edits generalizing start with
  | nil => exact h
  | cons e rest ih =>
    obtain ⟨hstart, middle, hfollows, hrest⟩ := h
    rw [List.flatMap_cons, List.map_append]
    exact (hfollows.of_le hstart).append (ih hrest)

end InOrder

/-- Edits that are tiled by their replacements lie in order in the full phrase if they do in a part
of it. -/
theorem inOrder_map {p : Phrase} {place : Position → Position} {widen : Edit → Edit}
    (hplace : ∀ {i j}, i ≤ j → place i ≤ place j) {edits : List Edit}
    (hwiden : ∀ e ∈ edits, (widen e).start = place e.start ∧
      Follows p (place e.start) ((widen e).replacements.map Replacement.span) (place e.stop))
    (hapart : edits.Pairwise fun a b ↦ a.stop ≤ b.start) {start stop : Position}
    (hstart : ∀ e ∈ edits, start ≤ place e.start) (hstop : ∀ e ∈ edits, place e.stop ≤ stop)
    (hle : start ≤ stop) : InOrder p start (edits.map widen) stop := by
  induction edits generalizing start with
  | nil => exact hle
  | cons e rest ih =>
    rw [List.forall_mem_cons] at hwiden hstart hstop
    rw [List.pairwise_cons] at hapart
    obtain ⟨⟨heq, hfollows⟩, hwiden⟩ := hwiden
    refine ⟨heq ▸ hstart.1, place e.stop, heq ▸ hfollows, ?_⟩
    exact ih hwiden hapart.2 (fun f hf ↦ hplace (hapart.1 f hf)) hstop.2 hstop.1

namespace Splicing

variable {p : Phrase} {s t : Splicing} {r : Replacement}

/-- Whether two states have the same text, read up to the same place. -/
structure SameText (s t : Splicing) : Prop where
  /-- The text so far. -/
  output : s.output = t.output
  /-- The position up to which the text goes. -/
  cursor : s.cursor = t.cursor
  /-- The changes to syllables. -/
  changes : s.changes = t.changes

/-- The text in front of a replacement. -/
def textBefore (p : Phrase) (s : Splicing) (r : Replacement) : Phrase :=
  match r.marker? p with
  | some marker => s.output ++ p.slice s.cursor r.start ++ marker
  | none => s.output ++ p.slice s.cursor r.start

/-- The state after a replacement. -/
def written (p : Phrase) (s : Splicing) (r : Replacement) : Splicing :=
  let before := s.textBefore p r
  let output := before ++ r.result
  { s with
    output
    cursor := r.stop
    first := s.first.or (some before.stop)
    changes := if r.syllable.isEmpty then s.changes
      else s.changes ++ [(before.stop, output.stop, r.syllable)] }

/-- A replacement behind the cursor is written. -/
theorem replace_eq (hcursor : p.isPosition s.cursor) (hstart : p.isPosition r.start)
    (hle : s.cursor ≤ r.start) : replace p s r = .ok (written p s r) := by
  have hslice : p.slice? s.cursor r.start = some (p.slice s.cursor r.start) :=
    if_pos ⟨hcursor, hstart, hle⟩
  rw [replace, hslice]
  rfl

/-- The text after a replacement depends on the text before it. -/
theorem SameText.written (h : SameText s t) (r : Replacement) :
    SameText (s.written p r) (t.written p r) := by
  obtain ⟨houtput, hcursor, hchanges⟩ := h
  constructor
  · simp only [Splicing.written, textBefore, houtput, hcursor]
  · rfl
  · simp only [Splicing.written, textBefore, houtput, hcursor, hchanges]

/-- Replacements that lie in order are written one after the other. -/
theorem foldlM_replace_eq {rs : List Replacement} {stop : Position}
    (hcursor : p.isPosition s.cursor)
    (h : Follows p s.cursor (rs.map Replacement.span) stop) :
    rs.foldlM (replace p) s = .ok (rs.foldl (written p) s) ∧
      p.isPosition (rs.foldl (written p) s).cursor ∧ (rs.foldl (written p) s).cursor ≤ stop := by
  induction rs generalizing s with
  | nil => exact ⟨rfl, hcursor, h⟩
  | cons r rest ih =>
    obtain ⟨hle, hspan, hfirst, hnext, hrest⟩ := h
    rw [List.foldlM_cons, replace_eq hcursor hfirst hle]
    exact ih hnext hrest

/-- The text of replacements in order depends on the text before them. -/
theorem SameText.foldl_written (h : SameText s t) (rs : List Replacement) :
    SameText (rs.foldl (Splicing.written p) s) (rs.foldl (Splicing.written p) t) := by
  induction rs generalizing s t with
  | nil => exact h
  | cons r rest ih => exact ih (h.written r)

/-- The state after an edit. -/
def edited (p : Phrase) (s : Splicing) (e : Edit) : Splicing :=
  let t := e.replacements.foldl (written p) { s with first := none }
  { t with spans := t.spans ++ [(t.first.getD t.output.stop, t.output.stop)] }

/-- Edits in order are all made. -/
theorem foldlM_makeEdit_eq {edits : List Edit} {start stop : Position}
    (hcursor : p.isPosition s.cursor) (hle : s.cursor ≤ start) (h : InOrder p start edits stop) :
    edits.foldlM (makeEdit p) s = .ok (edits.foldl (edited p) s) ∧
      p.isPosition (edits.foldl (edited p) s).cursor ∧
      (edits.foldl (edited p) s).cursor ≤ stop := by
  induction edits generalizing s start with
  | nil => exact ⟨rfl, hcursor, hle.trans h⟩
  | cons e rest ih =>
    obtain ⟨hstart, middle, hfollows, hrest⟩ := h
    have hbehind : s.cursor ≤ e.start := hle.trans hstart
    obtain ⟨hwrite, hposition, hmiddle⟩ :=
      @foldlM_replace_eq p { s with first := none } _ _ hcursor (hfollows.of_le hbehind)
    have hmake : makeEdit p s e = .ok (edited p s e) := by
      rw [makeEdit, if_neg (not_lt.mpr hbehind), hwrite]
      rfl
    rw [List.foldlM_cons, hmake]
    exact ih hposition hmiddle hrest

/-- Edits write the text of their replacements. -/
theorem SameText.edited (h : SameText s t) (edits : List Edit) :
    SameText (edits.foldl (Splicing.edited p) s)
      ((edits.flatMap Edit.replacements).foldl (Splicing.written p) t) := by
  induction edits generalizing s t with
  | nil => exact h
  | cons e rest ih =>
    rw [List.foldl_cons, List.flatMap_cons, List.foldl_append]
    have hreset : SameText { s with first := none } t := ⟨h.output, h.cursor, h.changes⟩
    obtain ⟨houtput, hcursor, hchanges⟩ := hreset.foldl_written (p := p) e.replacements
    exact ih ⟨houtput, hcursor, hchanges⟩

/-- Replacements leave the spans of the edits before them. -/
theorem spans_foldl_written (rs : List Replacement) (s : Splicing) :
    (rs.foldl (written p) s).spans = s.spans := by
  induction rs generalizing s with
  | nil => rfl
  | cons r rest ih => exact ih (s.written p r)

/-- The phrase that comes out when no edits are left. -/
def finish (inv : Inventory) (p : Phrase) (s : Splicing) : Except Fault Phrase :=
  match p.slice? s.cursor p.stop with
  | none => throw Finder.outside
  | some rest => Phrase.normalized <$> s.changes.foldlM (fun q (start, stop, changes) ↦
      q.changeSyllablesIn inv start stop changes) (s.output ++ rest)

/-- States with the same text come out the same. -/
theorem SameText.finish_eq (h : SameText s t) (inv : Inventory) :
    s.finish inv p = t.finish inv p := by
  rw [finish, finish, h.output, h.cursor, h.changes]

/-- A text without changes is finished by adding what is left of the phrase. -/
theorem finish_of_changes_eq_nil (hcursor : p.isPosition s.cursor) (hchanges : s.changes = [])
    (inv : Inventory) : s.finish inv p = .ok (s.output ++ p.slice s.cursor p.stop).normalized := by
  have hslice : p.slice? s.cursor p.stop = some (p.slice s.cursor p.stop) :=
    if_pos ⟨hcursor, Phrase.isPosition_stop, Phrase.le_stop hcursor⟩
  rw [finish, hslice, hchanges]
  rfl

end Splicing

namespace Phrase

variable {p : Phrase} {edits : List Edit} {stop : Position}

/-- Splicing edits in order makes them all and finishes the text. -/
theorem splice_eq (inv : Inventory) (h : InOrder p p.start edits stop) :
    p.splice inv edits = do
      let s := edits.foldl (Splicing.edited p) { cursor := p.start }
      return ⟨← s.finish inv p, s.spans⟩ := by
  have hfold := (@Splicing.foldlM_makeEdit_eq p { cursor := p.start } edits _ _ isPosition_start
    (le_refl _) h).1
  rw [splice, hfold]
  simp only [Splicing.finish, bind, Except.bind]
  cases p.slice? (edits.foldl (Splicing.edited p) { cursor := p.start }).cursor p.stop with
  | none => rfl
  | some rest =>
    simp only [Functor.map, Except.map]
    split <;> simp_all

end Phrase

end Diachrony
