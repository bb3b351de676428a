import Diachrony.Change.Expression
import Diachrony.Proofs.Ensures

/-!
# Matches are tiled

The pieces of a match lie one after the other without gaps, from the start of the match to its end,
and each has an output of the pairing. The replacements of an edit keep the spans of the pieces. An
expression with outputs that fail only as allowed finds its edits without any other fault.
-/

namespace Diachrony

/-- Whether spans lie one after the other without gaps, from one position to another. -/
def Tiles (phrase : Phrase) : Position → List (Position × Position) → Position → Prop
  | start, [], stop => stop = start
  | start, (first, next) :: rest, stop =>
    first = start ∧ start ≤ next ∧ phrase.isPosition next ∧ Tiles phrase next rest stop

namespace Tiles

variable {phrase : Phrase} {spans more : List (Position × Position)} {start middle stop : Position}

/-- One tiling after another. -/
theorem append (h : Tiles phrase start spans middle) (hmore : Tiles phrase middle more stop) :
    Tiles phrase start (spans ++ more) stop := by
  induction spans generalizing start with
  | nil =>
    rw [Tiles] at h
    rw [List.nil_append, ← h]
    exact hmore
  | cons span rest ih =>
    obtain ⟨hfirst, hle, hposition, hrest⟩ := h
    exact ⟨hfirst, hle, hposition, ih hrest⟩

/-- A tiling by spans and then others is a tiling up to a place and one from there on. -/
theorem of_append (h : Tiles phrase start (spans ++ more) stop) :
    ∃ middle, Tiles phrase start spans middle ∧ Tiles phrase middle more stop := by
  induction spans generalizing start with
  | nil => exact ⟨start, rfl, h⟩
  | cons span rest ih =>
    obtain ⟨hfirst, hle, hposition, hrest⟩ := h
    obtain ⟨middle, hspans, hmore⟩ := ih hrest
    exact ⟨middle, ⟨hfirst, hle, hposition, hspans⟩, hmore⟩

/-- Tiled spans do not go back. -/
theorem le (h : Tiles phrase start spans stop) : start ≤ stop := by
  induction spans generalizing start with
  | nil => exact le_of_eq h.symm
  | cons span rest ih =>
    obtain ⟨-, hle, -, hrest⟩ := h
    exact hle.trans (ih hrest)

/-- Tiled spans end in the phrase. -/
theorem isPosition_stop (h : Tiles phrase start spans stop) (hstart : phrase.isPosition start) :
    phrase.isPosition stop := by
  induction spans generalizing start with
  | nil =>
    rw [Tiles] at h
    rw [h]
    exact hstart
  | cons span rest ih =>
    obtain ⟨-, -, hposition, hrest⟩ := h
    exact ih hrest hposition

/-- Tiled spans begin where the tiling does. -/
theorem head_eq (h : Tiles phrase start spans stop) : ∀ span ∈ spans.head?, span.1 = start := by
  intro span hspan
  cases spans with
  | nil => cases hspan
  | cons first rest =>
    cases hspan
    exact h.1

/-- Tiled spans end where the tiling does. -/
theorem getLast_eq (h : Tiles phrase start spans stop) :
    ∀ span ∈ spans.getLast?, span.2 = stop := by
  intro span hspan
  induction spans generalizing start with
  | nil => cases hspan
  | cons first rest ih =>
    obtain ⟨-, -, -, hrest⟩ := h
    cases rest with
    | nil =>
      cases hspan
      exact hrest.symm
    | cons second rest =>
      rw [List.getLast?_cons_cons] at hspan
      exact ih hrest hspan

/-- Every tiled span lies in the phrase and between the ends of the tiling. -/
theorem of_mem (h : Tiles phrase start spans stop) (hstart : phrase.isPosition start)
    {span : Position × Position} (hmem : span ∈ spans) :
    phrase.isPosition span.1 ∧ phrase.isPosition span.2 ∧ start ≤ span.1 ∧ span.1 ≤ span.2 ∧
      span.2 ≤ stop := by
  induction spans generalizing start with
  | nil => cases hmem
  | cons first rest ih =>
    obtain ⟨hfirst, hle, hposition, hrest⟩ := h
    rcases List.mem_cons.mp hmem with rfl | hmem
    · rw [hfirst]
      exact ⟨hstart, hposition, le_refl _, hle, hrest.le⟩
    · obtain ⟨h₁, h₂, hge, hlast⟩ := ih hrest hposition hmem
      exact ⟨h₁, h₂, hle.trans hge, hlast⟩

end Tiles

/-- The span of a piece. -/
def Piece.span (piece : Piece) : Position × Position := (piece.start, piece.stop)

/-- The span of a replacement. -/
def Replacement.span (r : Replacement) : Position × Position := (r.start, r.stop)

namespace Pairing

mutual

/-- The outputs of a pairing. -/
def outputs : Pairing → List Output
  | single _ output => [output]
  | sequence items | alternative items => outputsOf items

/-- The outputs of a list of pairings. -/
def outputsOf : List Pairing → List Output
  | [] => []
  | p :: rest => p.outputs ++ outputsOf rest

end

mutual

/-- Whether every match of a pairing has a piece. -/
def hasPieces : Pairing → Bool
  | single _ _ => true
  | sequence items => someHasPieces items
  | alternative options => allHavePieces options

/-- Whether every match of some pairing of a list has a piece. -/
def someHasPieces : List Pairing → Bool
  | [] => false
  | p :: rest => p.hasPieces || someHasPieces rest

/-- Whether every match of every pairing of a list has a piece. -/
def allHavePieces : List Pairing → Bool
  | [] => true
  | p :: rest => p.hasPieces && allHavePieces rest

end

end Pairing

namespace Tiling

variable {allowed : Fault → Prop}

/-- Whether a match adds pieces to those before it that tile it, with outputs of a list, and at
least one of them if that is asked for. -/
def Cut (outputs : List Output) (hasPieces : Bool) (scan : Scan) (start : Position)
    (before : List Piece) (m : TiledMatch) : Prop :=
  ∃ pieces, m.pieces = before ++ pieces ∧
    Tiles scan.phrase start (pieces.map Piece.span) m.stop ∧
    (∀ piece ∈ pieces, piece.output ∈ outputs) ∧ (hasPieces → pieces ≠ [])

/-- Whether a tiling cuts every match into pieces, apart from faults that are allowed. -/
def Cuts (allowed : Fault → Prop) (outputs : List Output) (hasPieces : Bool) (tiling : Tiling) :
    Prop :=
  ∀ following, (∀ probe ∈ following, Finder.ProbeInside allowed probe) → ∀ scan start b before,
    scan.Mirrors → scan.phrase.isPosition start →
      (tiling following scan start b before).Keeps (Cut outputs hasPieces scan start before) allowed

/-- A single piece tiles its span. -/
theorem cuts_single {finder : Finder} (h : finder.Inside allowed) (pattern : Pattern)
    (output : Output) : (single finder pattern output).Cuts allowed [output] true := by
  intro following hfollowing scan start b before hmirrors hstart
  refine (h following hfollowing scan start b hmirrors hstart).map fun m hm ↦ ?_
  refine ⟨[⟨start, m.stop, pattern, output⟩], rfl, ⟨rfl, hm.2, hm.1, rfl⟩, ?_, fun _ ↦ by simp⟩
  intro piece hpiece
  rw [List.mem_singleton.mp hpiece]
  exact List.mem_singleton_self output

/-- Matches one after the other are tiled one after the other. -/
theorem Cut.append {outputs outputs' : List Output} {has has' : Bool} {scan : Scan}
    {start : Position} {before : List Piece} {m n : TiledMatch}
    (hm : Cut outputs has scan start before m) (hn : Cut outputs' has' scan m.stop m.pieces n) :
    Cut (outputs ++ outputs') (has || has') scan start before n := by
  obtain ⟨first, heq, htiles, houtputs, hfirst⟩ := hm
  obtain ⟨second, heq', htiles', houtputs', hsecond⟩ := hn
  refine ⟨first ++ second, ?_, ?_, fun piece hpiece ↦ ?_, fun hhas ↦ ?_⟩
  · rw [heq', heq, List.append_assoc]
  · rw [List.map_append]
    exact htiles.append htiles'
  · rw [List.mem_append] at hpiece ⊢
    exact hpiece.imp (houtputs piece) (houtputs' piece)
  · rw [Bool.or_eq_true] at hhas
    rcases hhas with hhas | hhas
    · exact List.append_ne_nil_of_left_ne_nil (hfirst hhas) second
    · exact List.append_ne_nil_of_right_ne_nil first (hsecond hhas)

/-- A cut of a match is one with more outputs and fewer demands. -/
theorem Cut.mono {outputs outputs' : List Output} {has has' : Bool} {scan : Scan}
    {start : Position} {before : List Piece} {m : TiledMatch}
    (hm : Cut outputs has scan start before m) (houtputs : outputs ⊆ outputs')
    (hhas : has' → has) : Cut outputs' has' scan start before m := by
  obtain ⟨pieces, heq, htiles, hmem, hpieces⟩ := hm
  exact ⟨pieces, heq, htiles, fun piece hpiece ↦ houtputs (hmem piece hpiece), hpieces ∘ hhas⟩

end Tiling

namespace Pairing

variable {allowed : Fault → Prop}

/-- The leading pattern of a pairing stays in the phrase. -/
theorem probeInside_leading (hrefs : ∀ number, allowed (.of (.unboundCapture number)))
    (inv : Inventory) (p : Pairing) :
    ∀ probe ∈ p.leading?.map (fun q ↦ q.finder inv none), Finder.ProbeInside allowed probe := by
  intro probe hprobe
  obtain ⟨q, -, rfl⟩ := Option.map_eq_some_iff.mp hprobe
  exact (q.finder_inside inv fun _ ↦ hrefs).alone

mutual

/-- The tiling of a pairing cuts its matches into pieces with outputs of the pairing. -/
theorem tiling_cuts (hrefs : ∀ number, allowed (.of (.unboundCapture number)))
    (inv : Inventory) : (p : Pairing) → (p.tiling inv).Cuts allowed p.outputs p.hasPieces
  | single pattern output =>
    Tiling.cuts_single (pattern.finder_inside inv fun _ ↦ hrefs) pattern output
  | sequence items => sequence_cuts hrefs inv items
  | alternative options => alternative_cuts hrefs inv options

/-- Tilings in sequence cut matches into the pieces of all of them. -/
theorem sequence_cuts (hrefs : ∀ number, allowed (.of (.unboundCapture number)))
    (inv : Inventory) : (items : List Pairing) →
    (Tiling.sequence (tilings inv items)).Cuts allowed (outputsOf items) (someHasPieces items)
  | [] => by
    intro following _ scan start b before _ _
    refine .pure ⟨[], (List.append_nil before).symm, rfl, ?_, fun h ↦ nomatch h⟩
    intro piece hpiece
    cases hpiece
  | p :: rest => by
    intro following hfollowing scan start b before hmirrors hstart
    have hafter : ∀ probe ∈ (match tilings inv rest with
        | [] => following
        | (leading, _) :: _ => leading), Finder.ProbeInside allowed probe := by
      cases rest with
      | nil => exact hfollowing
      | cons next _ => exact probeInside_leading hrefs inv next
    refine (tiling_cuts hrefs inv p _ hafter scan start b before hmirrors hstart).bind fun m hm ↦ ?_
    have hposition : scan.phrase.isPosition m.stop := by
      obtain ⟨_, _, htiles, _⟩ := hm
      exact htiles.isPosition_stop hstart
    have hrest := sequence_cuts hrefs inv rest following hfollowing scan m.stop m.bindings m.pieces
      hmirrors hposition
    exact hrest.mono fun n hn ↦ hm.append hn

/-- Alternative tilings cut matches into the pieces of one of them. -/
theorem alternative_cuts (hrefs : ∀ number, allowed (.of (.unboundCapture number)))
    (inv : Inventory) : (options : List Pairing) →
    (Tiling.alternative (tilings inv options)).Cuts allowed (outputsOf options)
      (allHavePieces options)
  | [] => by
    intro following _ scan start b before _ _
    exact .done
  | p :: rest => by
    intro following hfollowing scan start b before hmirrors hstart
    refine .choice (.append ?_ ?_)
    · refine (tiling_cuts hrefs inv p following hfollowing scan start b before hmirrors hstart).mono
        fun m hm ↦ hm.mono (List.subset_append_left _ _) fun hhas ↦ ?_
      exact ((Bool.and_eq_true _ _).mp hhas).1
    · have hrest :=
        alternative_cuts hrefs inv rest following hfollowing scan start b before hmirrors hstart
      refine hrest.mono fun m hm ↦ hm.mono (List.subset_append_right _ _) fun hhas ↦ ?_
      exact ((Bool.and_eq_true _ _).mp hhas).2

end

end Pairing

end Diachrony
