import Diachrony.Proofs.Change.Ahead
import Diachrony.Proofs.Change.SpliceOne
import Diachrony.Proofs.Change.Undivided

/-!
# Edits that write undivided text

Where nothing is divided into syllables, splicing keeps the text between edits and puts their
results in its gaps, and that is all: no syllable is opened anew and none is changed. So the text
that comes out of edits of the rest of a phrase stands behind what is written before, whatever that
is.
-/

namespace Diachrony

namespace Phrase

variable {t p : Phrase}

/-- The text of a phrase from a position on with edits made. -/
def edited (p : Phrase) (cursor : Position) : List Edit → Phrase
  | [] => p.slice cursor p.stop
  | e :: rest => p.slice cursor e.start ++ e.result ++ edited p e.stop rest

end Phrase

/-- What an edit writes does not change when the phrase is joined behind a fragment. -/
theorem Edit.result_behind (t : Phrase) (e : Edit) : (e.behind t).result = e.result := by
  rw [result, result, behind, List.map_map]
  rfl

namespace Phrase

variable {t p : Phrase} {hasPieces : Bool} {priority : Nat} {positions : List Position}
  {cursor : Position} {edits : List Edit} (ht : t.IsUndivided) (hp : p.IsUndivided)
include ht hp

/-- Edits of a phrase come out the same behind a fragment. -/
theorem edited_behind (h : Pass p hasPieces priority positions cursor edits)
    (hcursor : p.isPosition cursor) :
    (t ++ p).edited (t.behind cursor) (edits.map (Edit.behind t)) = p.edited cursor edits := by
  induction edits generalizing cursor with
  | nil => rw [List.map_nil, edited, edited, stop_append, slice_behind ht hp (le_stop hcursor)]
  | cons e rest ih =>
    obtain ⟨-, hfits⟩ := h.fits e List.mem_cons_self
    obtain ⟨hle, -⟩ := h.placed e List.mem_cons_self
    rw [List.map_cons, edited, edited, Edit.result_behind]
    exact congrArg₂ (· ++ _ ++ ·) (slice_behind ht hp hle) (ih h.tail hfits.isPosition_stop)

/-- The text from inside a fragment on, with edits made in what comes behind it, is the rest of the
fragment and the text behind it. -/
theorem edited_append {front : Phrase} (hfront : front.IsUndivided)
    (h : Pass p hasPieces priority positions p.start edits) :
    (front ++ t ++ p).edited front.stop (edits.map (Edit.behind (front ++ t))) =
      t ++ p.edited p.start edits := by
  have hpiece {i : Position} (hi : p.isPosition i) :
      (front ++ t ++ p).slice front.stop ((front ++ t).behind i) = t ++ p.slice p.start i := by
    rw [append_assoc, behind_append, ← behind_start front (t ++ p),
      slice_behind hfront (ht.append hp) (start_le _), slice_append_front ht hp hi]
  cases edits with
  | nil => rw [List.map_nil, edited, edited, stop_append, hpiece isPosition_stop]
  | cons e rest =>
    obtain ⟨-, hfits⟩ := h.fits e List.mem_cons_self
    have hrest := edited_behind (hfront.append ht) hp h.tail hfits.isPosition_stop
    rw [List.map_cons, edited, edited, Edit.result_behind]
    show (front ++ t ++ p).slice _ ((front ++ t).behind e.start) ++ _ ++
      (front ++ t ++ p).edited ((front ++ t).behind e.stop) _ = _
    rw [hrest, hpiece hfits.isPosition_start]
    simp only [append_assoc]

end Phrase

namespace Splicing

variable {p : Phrase} {s : Splicing} (hp : p.IsUndivided)
include hp

/-- Text is written behind what is kept of an undivided phrase. -/
theorem sameText_written (s : Splicing) {r : Replacement} (hr : r.syllable = ∅) :
    SameText (s.written p r) { s with
      output := s.output ++ p.slice s.cursor r.start ++ r.result, cursor := r.stop } := by
  have hmarker : r.marker? p = none := by
    by_contra hsome
    obtain ⟨marker, hmarker⟩ := Option.ne_none_iff_exists'.mp hsome
    have hdivided := (Replacement.of_marker? hmarker).2.1
    rw [Word.isDivided, hp.wordAt] at hdivided
    cases hdivided
  have hbefore : s.textBefore p r = s.output ++ p.slice s.cursor r.start := by
    rw [textBefore, hmarker]
  have hnothing : r.syllable.isEmpty = true := by rw [hr]; rfl
  refine ⟨?_, rfl, if_pos hnothing⟩
  show s.textBefore p r ++ r.result = _
  rw [hbefore]

/-- Replacements that follow one another without gaps are written behind what is kept of an
undivided phrase, without gaps. -/
theorem sameText_foldl_written {rs : List Replacement} {start stop : Position} (hne : rs ≠ [])
    (hrs : ∀ r ∈ rs, r.syllable = ∅) (s : Splicing)
    (htiles : Tiles p start (rs.map Replacement.span) stop) :
    SameText (rs.foldl (written p) s) { s with
      output := s.output ++ p.slice s.cursor start ++ .join (rs.map Replacement.result)
      cursor := stop } := by
  induction rs generalizing start s with
  | nil => exact absurd rfl hne
  | cons r rest ih =>
    rw [List.forall_mem_cons] at hrs
    obtain ⟨hfirst, -, -, hrest⟩ := htiles
    have hfirst : r.start = start := hfirst
    have hwritten := s.sameText_written hp hrs.1
    rw [hfirst] at hwritten
    rw [List.foldl_cons, List.map_cons, Phrase.join_cons, ← Phrase.append_assoc]
    cases rest with
    | nil =>
      have hstop : stop = r.stop := hrest
      rw [hstop, List.map_nil, Phrase.join, Phrase.append_empty]
      exact hwritten
    | cons next rest =>
      have hmore := ih (List.cons_ne_nil next rest) hrs.2 { s with
        output := s.output ++ p.slice s.cursor start ++ r.result, cursor := r.stop } hrest
      rw [hp.slice_self, Phrase.append_empty] at hmore
      obtain ⟨houtput, hcursor, hchanges⟩ := hwritten.foldl_written (p := p) (next :: rest)
      exact ⟨houtput.trans hmore.output, hcursor.trans hmore.cursor, hchanges.trans hmore.changes⟩

/-- The result of an edit is written behind what is kept of an undivided phrase. -/
theorem sameText_of_edit {hasPieces : Bool} {e : Edit} (hfits : e.Fits p hasPieces)
    (he : e.WritesUndivided) (s : Splicing) :
    SameText (e.replacements.foldl (written p) s) { s with
      output := s.output ++ p.slice s.cursor e.start ++ e.result, cursor := e.stop } :=
  s.sameText_foldl_written hp he.replaces (fun r hr ↦ (he.isUndivided r hr).2) hfits.tiles

/-- The text of edits that write undivided text in an undivided phrase. -/
theorem finish_of_edits (inv : Inventory) {hasPieces : Bool} {edits : List Edit}
    (hedits : ∀ e ∈ edits, e.Fits p hasPieces ∧ e.WritesUndivided) (s : Splicing)
    (houtput : s.output.IsUndivided) (hcursor : p.isPosition s.cursor) (hchanges : s.changes = []) :
    ((edits.flatMap Edit.replacements).foldl (written p) s).finish inv p =
      .ok (s.output ++ p.edited s.cursor edits) := by
  induction edits generalizing s with
  | nil =>
    have hwhole := houtput.append (hp.slice s.cursor p.stop)
    show s.finish inv p = .ok (s.output ++ p.slice s.cursor p.stop)
    rw [finish_of_changes_eq_nil hcursor hchanges, hwhole.normalized_eq]
  | cons e rest ih =>
    rw [List.forall_mem_cons] at hedits
    obtain ⟨⟨hfits, he⟩, hrest⟩ := hedits
    have hsame := (sameText_of_edit hp hfits he s).foldl_written (p := p)
      (rest.flatMap Edit.replacements)
    have hwritten := (houtput.append (hp.slice s.cursor e.start)).append he.result
    have hfinish := ih hrest { s with
      output := s.output ++ p.slice s.cursor e.start ++ e.result, cursor := e.stop } hwritten
      hfits.isPosition_stop hchanges
    rw [List.flatMap_cons, List.foldl_append, hsame.finish_eq, hfinish, Phrase.edited]
    simp only [Phrase.append_assoc]

end Splicing

/-- Splicing one edit of an undivided phrase puts its result between what stands in front of it and
what stands behind it. -/
theorem Phrase.spliceOne_of_writesUndivided (inv : Inventory) {p : Phrase} {e : Edit}
    {hasPieces : Bool} (hp : p.IsUndivided) (hfits : e.Fits p hasPieces) (he : e.WritesUndivided) :
    ∃ start, p.spliceOne inv e = .ok (p.slice p.start e.start ++ e.result ++ p.slice e.stop p.stop,
      start, (p.slice p.start e.start ++ e.result).stop) := by
  have hsame := Splicing.sameText_of_edit hp hfits he { cursor := p.start }
  have hedits : ∀ f ∈ [e], f.Fits p hasPieces ∧ f.WritesUndivided :=
    List.forall_mem_singleton.mpr ⟨hfits, he⟩
  have hfinish := Splicing.finish_of_edits hp inv hedits { cursor := p.start } .empty
    isPosition_start rfl
  rw [List.flatMap_singleton, edited, edited, empty_append] at hfinish
  rw [spliceOne_eq inv (hfits.tiles.follows hfits.isPosition_start)]
  simp only [hfinish, hsame.output, empty_append]
  exact ⟨_, rfl⟩

end Diachrony
