import Diachrony.Proofs.Change.Found
import Diachrony.Proofs.Change.Rules
import Diachrony.Proofs.Pattern.Reach
import Diachrony.Proofs.Phrase.Retelling

/-!
# Replacing matches by themselves

An expression that captures what it matches and refers to the capture replaces every match by
itself. The text is cut at the ends of the matches, openings are put in front of those that start a
syllable, and everything is joined again: the phrase comes out as it was, in every mode, but for the
matrix of a word without segments.
-/

namespace Diachrony

/-- The expression that replaces what a pattern matches by itself. -/
def Expression.echo (pattern : Pattern) (number : Nat) (text : String) : Expression :=
  { pairing := .single (.capture pattern number false) (.captureReference number), text }

/-- Pairing a capture with a reference to it gives the pairing of an echo. -/
theorem Expression.pair_echo (source target : String) (pattern : Pattern) (number : Nat)
    (text : String) : (Pattern.capture pattern number false).pair source target
      (.captureReference number) = .ok (echo pattern number text).pairing := rfl

/-- Whether an edit replaces its match by itself. -/
def Edit.IsEcho (p : Phrase) (e : Edit) : Prop :=
  ∃ span, p.slice? e.start e.stop = some span ∧ e.replacements = [⟨e.start, e.stop, span, ∅⟩]

namespace Edit.IsEcho

variable {p : Phrase} {e : Edit}

/-- The replacement of an echo is the piece of the phrase that it replaces. -/
theorem replacements_eq (h : e.IsEcho p) : p.isPosition e.start ∧ p.isPosition e.stop ∧
    e.start ≤ e.stop ∧ e.replacements = [⟨e.start, e.stop, p.slice e.start e.stop, ∅⟩] := by
  obtain ⟨span, hspan, hreplacements⟩ := h
  rw [Phrase.slice?] at hspan
  split at hspan
  · next hplaced =>
    cases hspan
    exact ⟨hplaced.1, hplaced.2.1, hplaced.2.2, hreplacements⟩
  · cases hspan

/-- The replacement of an echo lies in order. -/
theorem follows (h : e.IsEcho p) :
    Follows p e.start (e.replacements.map Replacement.span) p.stop := by
  obtain ⟨hstart, hstop, hle, hreplacements⟩ := h.replacements_eq
  rw [hreplacements]
  exact ⟨le_refl _, hle, hstart, hstop, Phrase.le_stop hstop⟩

end Edit.IsEcho

/-- An expression that replaces matches by themselves finds nothing but echoes. -/
theorem Expression.echo_findsOnly (lang : Language) (pattern : Pattern) (number : Nat)
    (text : String) : (echo pattern number text).FindsOnly lang fun p e ↦ e.IsEcho p := by
  -- A match has one piece and what was captured of it.
  let suits (scan : Scan) (start : Position) (m : TiledMatch) : Prop :=
    ∃ span, scan.phrase.slice? start m.stop = some span ∧
      m.pieces = [⟨start, m.stop, .capture pattern number false, .captureReference number⟩] ∧
      m.bindings.capture? number = some span
  have hcaptured (scan : Scan) (start : Position) (b : Bindings) :
      ((Pattern.capture pattern number false).finder lang.inventory none scan start b).Keeps
        (fun m ↦ ∃ span, scan.phrase.slice? start m.stop = some span ∧
          m.bindings.capture? number = some span) fun _ ↦ True := by
    refine (Candidates.keeps_anything _).bind fun m _ ↦ ?_
    split
    · exact .fail trivial
    · next span hspan =>
      have hbound := m.bindings.captures.get?_insert number number span
      rw [if_pos rfl] at hbound
      exact .pure ⟨span, hspan, hbound⟩
  refine @findsOnly_of_matches _ _ _ suits (fun scan limit start condition hcondition ↦ ?_)
    fun scan priority start m hm ↦ ?_
  · obtain rfl : condition = .always := List.mem_singleton.mp hcondition
    rw [matchesAt]
    split
    · exact .fail trivial
    refine (Candidates.keeps_anything _).bind fun behind _ ↦ ?_
    have htiling : ((echo pattern number text).pairing.tiling lang.inventory none scan start
        behind.bindings []).Keeps (suits scan start) fun _ ↦ True :=
      (hcaptured scan start behind.bindings).map fun m ⟨span, hspan, hbound⟩ ↦
        ⟨span, hspan, rfl, hbound⟩
    refine htiling.bind fun tiled htiled ↦ ?_
    split
    · exact .done
    · exact .pure htiled
  · obtain ⟨span, hspan, hpieces, hbound⟩ := hm
    have hresolve : Edit.resolve lang.inventory scan.phrase priority start m.stop m.pieces
        m.bindings = .ok ⟨priority, start, m.stop, [⟨start, m.stop, span, ∅⟩]⟩ := by
      rw [Edit.resolve, hpieces, List.mapM_cons, List.mapM_nil, Piece.resolve, hspan]
      simp only [Output.produce, hbound]
      rfl
    rw [hresolve]
    exact .ok ⟨span, hspan, rfl⟩

namespace Splicing

variable {p : Phrase} {s : Splicing}

/-- Whether what comes next of a phrase goes on with a text that retells it up to there. -/
def Retells (p : Phrase) (s : Splicing) : Prop :=
  p.isPosition s.cursor ∧
    ∀ b, s.cursor ≤ b → p.isPosition b → (s.output ++ p.slice s.cursor b).Retells p b

/-- At the start nothing was told. -/
theorem retells_start (p : Phrase) : Retells p { cursor := p.start } := by
  refine ⟨Phrase.isPosition_start, fun b _ _ ↦ ?_⟩
  rw [Phrase.empty_append]
  exact .slice_start p b

/-- A span that is replaced by itself is retold. -/
theorem Retells.written (h : s.Retells p) {start stop : Position} (hstart : p.isPosition start)
    (hstop : p.isPosition stop) (hcursor : s.cursor ≤ start) (hle : start ≤ stop) :
    (s.written p ⟨start, stop, p.slice start stop, ∅⟩).Retells p := by
  have hbefore := h.2 start hcursor hstart
  refine ⟨hstop, fun b hb hposition ↦ Phrase.Retells.append_slice ?_ hstop hposition hb⟩
  show (s.textBefore p ⟨start, stop, p.slice start stop, ∅⟩ ++ p.slice start stop).Retells p stop
  rw [textBefore]
  split
  · next marker hmarker =>
    obtain ⟨hne, hdivided, hlt, hstarts, rfl⟩ := Replacement.of_marker? hmarker
    exact hbefore.append_opening hstart hstop (lt_of_le_of_ne hle hne) hdivided hlt hstarts
  · exact hbefore.append_slice hstart hstop hle

/-- Echoes in order retell the phrase and ask for no changes. -/
theorem Retells.foldl_written {edits : List Edit} {start stop : Position} (h : s.Retells p)
    (hecho : ∀ e ∈ edits, e.IsEcho p) (horder : InOrder p start edits stop)
    (hcursor : s.cursor ≤ start) :
    ((edits.flatMap Edit.replacements).foldl (Splicing.written p) s).Retells p ∧
      ((edits.flatMap Edit.replacements).foldl (Splicing.written p) s).changes = s.changes := by
  induction edits generalizing s start with
  | nil => exact ⟨h, rfl⟩
  | cons e rest ih =>
    rw [List.forall_mem_cons] at hecho
    obtain ⟨hbefore, middle, hfollows, hrest⟩ := horder
    obtain ⟨hstart, hstop, hle, hreplacements⟩ := hecho.1.replacements_eq
    rw [hreplacements] at hfollows
    rw [List.flatMap_cons, hreplacements]
    exact ih (h.written hstart hstop (hcursor.trans hbefore) hle) hecho.2 hrest hfollows.2.2.2.2

/-- A retold phrase comes out as it was. -/
theorem Retells.finish_eq (h : s.Retells p) (hchanges : s.changes = []) (inv : Inventory) :
    ∃ q, s.finish inv p = .ok q ∧ p.ComesOut q := by
  exact ⟨_, finish_of_changes_eq_nil h.1 hchanges inv,
    (h.2 p.stop (Phrase.le_stop h.1) Phrase.isPosition_stop).comesOut⟩

end Splicing

/-- Splicing echoes leaves a phrase as it comes out. -/
theorem Phrase.splice_echo (inv : Inventory) {p : Phrase} {edits : List Edit}
    (hecho : ∀ e ∈ edits, e.IsEcho p) (horder : InOrder p p.start edits p.stop) :
    Ensures (fun s ↦ p.ComesOut s.phrase) (fun _ ↦ True) (p.splice inv edits) := by
  obtain ⟨hretells, hchanges⟩ :=
    (Splicing.retells_start p).foldl_written hecho horder (le_refl _)
  obtain ⟨q, hfinish, hcomes⟩ := hretells.finish_eq hchanges inv
  have hsame : Splicing.SameText { cursor := p.start } { cursor := p.start } := ⟨rfl, rfl, rfl⟩
  rw [splice_eq inv horder]
  dsimp only
  rw [(hsame.edited edits).finish_eq, hfinish]
  exact .ok hcomes

/-- A rule that replaces what a pattern matches by itself, in whichever mode, does not fire or
leaves the phrase as it comes out: each word is normalized, and only one without segments may lose a
matrix that it has. If no such word has one, the phrase is normalized and nothing else. The rule
fails only because of a mistake in it or in the words. -/
theorem SimpleRule.apply_echo (lang : Language) (pattern : Pattern) (number : Nat) (text : String)
    (mode : MatchMode) (p : Phrase) :
    Ensures (fun found ↦ ∀ q ∈ found, p.ComesOut q ∧
        ((∀ w ∈ p.words, w.isEmpty → w.syllableMatrix 0 = ∅) → q = p.normalized))
      (·.isMistake) (apply lang { expressions := [.echo pattern number text], mode } p) := by
  let r : SimpleRule := { expressions := [.echo pattern number text], mode }
  have hfinds : ∀ e ∈ r.expressions, e.FindsOnly lang fun p e ↦ e.IsEcho p :=
    List.forall_mem_singleton.mpr (Expression.echo_findsOnly lang pattern number text)
  have htrans (p q s : Phrase) : p.ComesOut q → q.ComesOut s → p.ComesOut s := .trans
  have hechoes := apply_relates hfinds rfl htrans (fun _ _ ↦ Edit.IsEcho.follows)
    (fun _ _ ↦ Phrase.splice_echo lang.inventory) p
  have htolerated : r.Tolerated (·.isMistake) := by
    refine ⟨List.forall_mem_singleton.mpr (List.forall_mem_singleton.mpr fun h ↦ ?_), fun _ h ↦ ?_⟩
    · cases h
    · exact absurd rfl h
  refine .intro (fun found hfound q hq ↦ ?_) fun fault hfault ↦ ?_
  · have hcomes := hechoes.of_ok hfound q hq
    exact ⟨hcomes, hcomes.eq_normalized⟩
  · exact (r.apply_ensures (fun _ h ↦ h) lang htolerated p).of_error hfault

/-- An empty word that has a matrix is not left as it is normalized. -/
example :
    let w := Word.syllableOpening (.ofValues ["stressed"])
    let r : SimpleRule := { expressions := [.echo .empty 1 ""], mode := .leftToRight }
    ((r.apply { inventory := .empty } (.ofWord w)).toOption.bind id).map Phrase.words =
        some [⟨[], some .empty⟩] ∧
      w.normalized ≠ ⟨[], some .empty⟩ := by
  decide +kernel

end Diachrony
