import Diachrony.Proofs.Change.Tiling

/-!
# The edits of an expression

Every edit that an expression finds in a phrase stands at a position of the phrase and has
replacements that tile its match. One pass finds edits from left to right that do not reach into one
another; a search from one side finds an edit on the right side of its bound.
-/

namespace Diachrony

/-- Whether an output gives a product of every span, apart from faults that are allowed. -/
def Output.Produces (allowed : Fault → Prop) (inv : Inventory) (o : Output) : Prop :=
  ∀ b pattern span, Ensures (fun _ ↦ True) allowed (o.produce inv b pattern span)

namespace Edit

/-- Whether an edit stands in a phrase: its replacements tile its match, and there is one if that is
asked for. -/
structure Fits (p : Phrase) (hasPieces : Bool) (e : Edit) : Prop where
  /-- The match starts in the phrase. -/
  isPosition_start : p.isPosition e.start
  /-- The replacements lie one after the other from its start to its end. -/
  tiles : Tiles p e.start (e.replacements.map Replacement.span) e.stop
  /-- There is a replacement. -/
  replaces : hasPieces → e.replacements ≠ []

namespace Fits

variable {p : Phrase} {hasPieces : Bool} {e : Edit}

/-- An edit does not end before its start. -/
theorem le (h : e.Fits p hasPieces) : e.start ≤ e.stop := h.tiles.le

/-- An edit ends in the phrase. -/
theorem isPosition_stop (h : e.Fits p hasPieces) : p.isPosition e.stop :=
  h.tiles.isPosition_stop h.isPosition_start

/-- The first replacement starts where the match does. -/
theorem start_head (h : e.Fits p hasPieces) : ∀ r ∈ e.replacements.head?, r.start = e.start := by
  intro r hr
  refine h.tiles.head_eq r.span ?_
  rw [List.head?_map, hr]
  rfl

/-- The last replacement ends where the match does. -/
theorem stop_getLast (h : e.Fits p hasPieces) : ∀ r ∈ e.replacements.getLast?, r.stop = e.stop := by
  intro r hr
  refine h.tiles.getLast_eq r.span ?_
  rw [List.getLast?_map, hr]
  rfl

end Fits

variable {allowed : Fault → Prop} {inv : Inventory} {p : Phrase}

/-- The replacements of tiled pieces keep the spans of the pieces. -/
theorem resolve_ensures {priority : Nat} {start stop : Position} {pieces : List Piece}
    (hstart : p.isPosition start) (htiles : Tiles p start (pieces.map Piece.span) stop)
    (houtputs : ∀ piece ∈ pieces, piece.output.Produces allowed inv) (b : Bindings) :
    Ensures (fun e ↦ e.priority = priority ∧ e.start = start ∧ e.stop = stop ∧
      e.replacements.map Replacement.span = pieces.map Piece.span) allowed
      (Edit.resolve inv p priority start stop pieces b) := by
  have hpiece : ∀ piece ∈ pieces, Ensures (fun r ↦ r.span = piece.span) allowed
      (piece.resolve inv b p) := by
    intro piece hmem
    obtain ⟨hfirst, hlast, -, hle, -⟩ := htiles.of_mem hstart (List.mem_map_of_mem hmem)
    have hslice : p.slice? piece.start piece.stop = some (p.slice piece.start piece.stop) :=
      if_pos ⟨hfirst, hlast, hle⟩
    rw [Piece.resolve, hslice]
    exact (houtputs piece hmem b _ _).bind fun product _ ↦ .ok rfl
  rw [Edit.resolve]
  refine (Ensures.mapM hpiece).bind fun replacements h ↦ .ok ⟨rfl, rfl, rfl, ?_⟩
  clear htiles houtputs hpiece
  induction h with
  | nil => rfl
  | cons hspan _ ih => exact congrArg₂ List.cons hspan ih

end Edit

/-- Edits of one pass over some positions from a cursor: each stands in the phrase and is due to one
expression, each starts at the cursor or after it, and none reaches into the next. -/
structure Pass (p : Phrase) (hasPieces : Bool) (priority : Nat) (positions : List Position)
    (cursor : Position) (edits : List Edit) : Prop where
  /-- Every edit stands in the phrase. -/
  fits : ∀ edit ∈ edits, edit.priority = priority ∧ edit.Fits p hasPieces
  /-- Every edit starts at one of the positions. -/
  placed : ∀ edit ∈ edits, cursor ≤ edit.start ∧ edit.start ∈ positions
  /-- No edit reaches into the next. -/
  apart : edits.Pairwise fun a b ↦ a.start < b.start ∧ a.stop ≤ b.start

/-- A position without an edit may be passed over. -/
theorem Pass.skip {p : Phrase} {hasPieces : Bool} {priority : Nat} {positions : List Position}
    {cursor : Position} {edits : List Edit}
    (h : Pass p hasPieces priority positions cursor edits) (start : Position) :
    Pass p hasPieces priority (start :: positions) cursor edits where
  fits := h.fits
  placed edit hedit := (h.placed edit hedit).imp_right (List.mem_cons_of_mem start)
  apart := h.apart

/-- A pass goes on behind its first edit. -/
theorem Pass.tail {p : Phrase} {hasPieces : Bool} {priority : Nat} {positions : List Position}
    {cursor : Position} {e : Edit} {rest : List Edit}
    (h : Pass p hasPieces priority positions cursor (e :: rest)) :
    Pass p hasPieces priority positions e.stop rest where
  fits edit hedit := h.fits edit (List.mem_cons_of_mem e hedit)
  placed edit hedit := ⟨((List.pairwise_cons.mp h.apart).1 edit hedit).2,
    (h.placed edit (List.mem_cons_of_mem e hedit)).2⟩
  apart := (List.pairwise_cons.mp h.apart).2

namespace Expression

/-- Whether a position is excluded is decided, unless the budget or a reference to a capture does
not allow it. -/
theorem isExcluded_ensures {allowed : Fault → Prop} (lang : Language) (e : Expression)
    (hbudget : allowed (lang.budget e.text).exceeded)
    (hrefs : ∀ number, allowed (.of (.unboundCapture number))) {scan : Scan}
    (hmirrors : scan.Mirrors) {start : Position} (hstart : scan.phrase.isPosition start) :
    Ensures (fun _ ↦ True) allowed (e.isExcluded lang scan start) := by
  rw [isExcluded]
  split
  · exact .ok trivial
  · have hkeeps : (e.exclusionsAt lang scan start).Keeps (fun _ ↦ True) allowed := by
      refine (Pattern.keeps_candidates (fun _ ↦ hrefs) hmirrors hstart .empty).bind fun m hm ↦ ?_
      exact Finder.keeps_inSome (Surroundings.finders_inside _ e.exclusions fun _ ↦ hrefs) hmirrors
        hstart hm.1 m.bindings
    exact (hkeeps.first? hbudget).bind fun found _ ↦ .ok trivial

variable {allowed : Fault → Prop} (hmistake : ∀ fault : Fault, fault.isMistake → allowed fault)
  (lang : Language) (e : Expression)

include hmistake

/-- The open positions are positions of the phrase, in order. -/
theorem openPositions_ensures {scan : Scan} (hmirrors : scan.Mirrors) :
    Ensures (fun open' ↦ open'.Sublist scan.phrase.positions) allowed
      (e.openPositions lang scan) := by
  refine (Ensures.filterM fun start hstart ↦ ?_).mono fun _ _ h ↦ h.1
  have hposition := Phrase.mem_positions.mp hstart
  exact (e.isExcluded_ensures lang (hmistake _ rfl) (fun _ ↦ hmistake _ rfl) hmirrors
    hposition).bind fun _ _ ↦ .ok trivial

/-- A match under a condition is cut into pieces and does not reach over a limit. -/
theorem matchesAt_keeps {scan : Scan} (hmirrors : scan.Mirrors) (limit : Option Position)
    {start : Position} (hstart : scan.phrase.isPosition start) (condition : Surroundings) :
    (e.matchesAt lang scan limit start condition).Keeps
      (Tiling.Cut e.pairing.outputs e.pairing.hasPieces scan start []) allowed := by
  have hrefs (number : Nat) : allowed (.of (.unboundCapture number)) := hmistake _ rfl
  have hback : scan.turned.phrase.isPosition (scan.phrase.turn start) :=
    Phrase.isPosition_turn hmirrors hstart
  rw [matchesAt, Phrase.turn?_of_isPosition hstart]
  refine (Pattern.keeps_candidates (fun _ ↦ hrefs) hmirrors.turned hback .empty).bind
    fun behind _ ↦ ?_
  refine (e.pairing.tiling_cuts hrefs lang.inventory none (fun _ h ↦ (nomatch h)) scan start
    behind.bindings [] hmirrors hstart).bind fun tiled htiled ↦ ?_
  split
  · exact .done
  · have hstop : scan.phrase.isPosition tiled.stop := by
      obtain ⟨_, _, htiles, _⟩ := htiled
      exact htiles.isPosition_stop hstart
    exact (Pattern.keeps_candidates (fun _ ↦ hrefs) hmirrors hstop tiled.bindings).map
      fun ahead _ ↦ htiled

variable (houtputs : ∀ o ∈ e.pairing.outputs, o.Produces allowed lang.inventory)
include houtputs

/-- The edit at a position stands there. -/
theorem editUnder_ensures {scan : Scan} (hmirrors : scan.Mirrors) (limit : Option Position)
    (priority : Nat) {start : Position} (hstart : scan.phrase.isPosition start)
    (conditions : List Surroundings) :
    Ensures (fun found ↦ ∀ edit ∈ found, edit.priority = priority ∧ edit.start = start ∧
        edit.Fits scan.phrase e.pairing.hasPieces) allowed
      (e.editUnder lang scan limit priority start conditions) := by
  induction conditions with
  | nil => exact .ok fun _ h ↦ (nomatch h)
  | cons condition rest ih =>
    rw [editUnder]
    refine ((e.matchesAt_keeps hmistake lang hmirrors limit hstart condition).first?
      (hmistake _ rfl)).bind fun found hfound ↦ ?_
    cases found with
    | none => exact ih
    | some m =>
      obtain ⟨pieces, heq, htiles, houtput, hhas⟩ := hfound m rfl
      rw [List.nil_append] at heq
      subst heq
      have hresolve := @Edit.resolve_ensures _ _ _ priority _ _ _ hstart htiles
        (fun piece hpiece ↦ houtputs _ (houtput piece hpiece)) m.bindings
      refine hresolve.map fun edit hedit found hfound ↦ ?_
      cases hfound
      obtain ⟨hpriority, rfl, hstop, hspans⟩ := hedit
      refine ⟨hpriority, rfl, hstart, ?_, fun hpieces hnil ↦ ?_⟩
      · rw [hspans, hstop]
        exact htiles
      · rw [hnil, List.map_nil, eq_comm, List.map_eq_nil_iff] at hspans
        exact hhas hpieces hspans

/-- Edits of one pass from a cursor: each stands in the phrase, at the cursor or after it, and none
reaches into the next. -/
theorem editsFrom_ensures {scan : Scan} (hmirrors : scan.Mirrors) (priority : Nat)
    {positions : List Position} (hpositions : ∀ i ∈ positions, scan.phrase.isPosition i)
    (hsorted : positions.Pairwise (· < ·)) (cursor : Position) :
    Ensures (Pass scan.phrase e.pairing.hasPieces priority positions cursor) allowed
      (e.editsFrom lang scan priority cursor positions) := by
  induction positions generalizing cursor with
  | nil =>
    rw [editsFrom]
    exact .ok ⟨fun _ h ↦ (nomatch h), fun _ h ↦ (nomatch h), .nil⟩
  | cons start rest ih =>
    rw [List.forall_mem_cons] at hpositions
    rw [List.pairwise_cons] at hsorted
    have hskip (cursor : Position) := (ih hpositions.2 hsorted.2 cursor).mono
      fun edits _ hedits ↦ hedits.skip start
    rw [editsFrom]
    split
    · exact hskip cursor
    · next hcursor =>
      have hcursor := not_lt.mp hcursor
      refine (e.editUnder_ensures hmistake lang houtputs hmirrors none priority hpositions.1
        e.settings).bind fun found hfound ↦ ?_
      cases found with
      | none => exact hskip cursor
      | some edit =>
        obtain ⟨hpriority, rfl, hfits⟩ := hfound edit rfl
        refine (ih hpositions.2 hsorted.2 edit.stop).bind fun others hothers ↦ .ok ⟨?_, ?_, ?_⟩
        · exact List.forall_mem_cons.mpr ⟨⟨hpriority, hfits⟩, hothers.fits⟩
        · rw [List.forall_mem_cons]
          refine ⟨⟨hcursor, List.mem_cons_self⟩, fun other hother ↦ ?_⟩
          obtain ⟨hle, hmem⟩ := hothers.placed other hother
          exact ⟨hcursor.trans (hfits.le.trans hle), List.mem_cons_of_mem _ hmem⟩
        · rw [List.pairwise_cons]
          refine ⟨fun other hother ↦ ?_, hothers.apart⟩
          obtain ⟨hle, hmem⟩ := hothers.placed other hother
          exact ⟨hsorted.1 _ hmem, hle⟩

/-- The edits of one pass over a phrase. -/
theorem edits_ensures (p : Phrase) (priority : Nat) :
    Ensures (Pass p e.pairing.hasPieces priority p.positions p.start) allowed
      (e.edits lang p priority) := by
  have hmirrors := Scan.mirrors_of p
  rw [edits]
  refine (e.openPositions_ensures hmistake lang hmirrors).bind fun positions hpositions ↦ ?_
  have hmem : ∀ i ∈ positions, p.isPosition i := fun i hi ↦
    Phrase.mem_positions.mp (hpositions.subset hi)
  refine (e.editsFrom_ensures hmistake lang houtputs hmirrors priority hmem
    (p.pairwise_positions.sublist hpositions) p.start).mono fun edits _ hedits ↦ ?_
  exact ⟨hedits.fits, fun edit hedit ↦
    (hedits.placed edit hedit).imp_right fun h ↦ hpositions.subset h, hedits.apart⟩

/-- The edit at the first of some positions that has one. -/
theorem firstAmong_ensures {scan : Scan} (hmirrors : scan.Mirrors) (limit : Option Position)
    (priority : Nat) {positions : List Position}
    (hpositions : ∀ i ∈ positions, scan.phrase.isPosition i) :
    Ensures (fun found ↦ ∀ edit ∈ found, edit.start ∈ positions ∧
        edit.Fits scan.phrase e.pairing.hasPieces) allowed
      (e.firstAmong lang scan limit priority positions) := by
  induction positions with
  | nil => exact .ok fun _ h ↦ (nomatch h)
  | cons start rest ih =>
    rw [List.forall_mem_cons] at hpositions
    rw [firstAmong]
    refine (e.editUnder_ensures hmistake lang houtputs hmirrors limit priority hpositions.1
      e.settings).bind fun found hfound ↦ ?_
    cases found with
    | none =>
      exact (ih hpositions.2).mono fun found _ h edit hedit ↦
        (h edit hedit).imp_left (List.mem_cons_of_mem start)
    | some edit =>
      obtain ⟨-, rfl, hfits⟩ := hfound edit rfl
      refine .ok fun other hother ↦ ?_
      cases hother
      exact ⟨List.mem_cons_self, hfits⟩

/-- The first edit from a position on stands at the position or after it. -/
theorem firstEdit?_ensures (p : Phrase) (start : Position) (priority : Nat) :
    Ensures (fun found ↦ ∀ edit ∈ found, start ≤ edit.start ∧
        edit.Fits p e.pairing.hasPieces) allowed (e.firstEdit? lang p start priority) := by
  have hmirrors := Scan.mirrors_of p
  rw [firstEdit?]
  refine (e.openPositions_ensures hmistake lang hmirrors).bind fun positions hpositions ↦ ?_
  refine (e.firstAmong_ensures hmistake lang houtputs hmirrors none priority fun i hi ↦ ?_).mono
    fun found _ h edit hedit ↦ ?_
  · exact Phrase.mem_positions.mp (hpositions.subset (List.mem_filter.mp hi).1)
  · obtain ⟨hmem, hfits⟩ := h edit hedit
    exact ⟨of_decide_eq_true (List.mem_filter.mp hmem).2, hfits⟩

/-- The last edit before a limit starts before it. -/
theorem lastEdit?_ensures (p : Phrase) (limit : Option Position) (priority : Nat) :
    Ensures (fun found ↦ ∀ edit ∈ found, (∀ l ∈ limit, edit.start < l) ∧
        edit.Fits p e.pairing.hasPieces) allowed (e.lastEdit? lang p limit priority) := by
  have hmirrors := Scan.mirrors_of p
  rw [lastEdit?]
  refine (e.openPositions_ensures hmistake lang hmirrors).bind fun positions hpositions ↦ ?_
  refine (e.firstAmong_ensures hmistake lang houtputs hmirrors limit priority fun i hi ↦ ?_).mono
    fun found _ h edit hedit ↦ ?_
  · have hopen := (List.mem_filter.mp (List.mem_reverse.mp hi)).1
    exact Phrase.mem_positions.mp (hpositions.subset hopen)
  · obtain ⟨hmem, hfits⟩ := h edit hedit
    have hlimit := (List.mem_filter.mp (List.mem_reverse.mp hmem)).2
    refine ⟨fun l hl ↦ ?_, hfits⟩
    cases hl
    simpa using hlimit

end Expression

end Diachrony
