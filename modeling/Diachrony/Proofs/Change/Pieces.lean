import Diachrony.Proofs.Change.Tiling
import Diachrony.Proofs.Pattern.Hints

/-!
# The pieces of a match

There are ways through a pairing: of a sequence the pairs of all items in order, of an alternative
those of one option. A match of a pairing goes one of these ways. It has a piece for every pair on
the way, found where the piece before it ends and with what is bound there, and nothing is left in
it of options that were given up. A search without a fault offers the matches on every way.
-/

namespace Diachrony

namespace Pairing

/-- A pattern and its output on a way through a pairing. -/
structure Leg where
  /-- The pattern that is matched. -/
  pattern : Pattern
  /-- What takes the place of its span. -/
  output : Output
  /-- The pattern that its search is told to come next, if any. -/
  next : Option Pattern

/-- The pattern that comes next in front of some pairings, where one may be known behind them. -/
def nextBefore (next : Option Pattern) : List Pairing → Option Pattern
  | [] => next
  | p :: _ => p.leading?

mutual

/-- The ways through a pairing, where a pattern may be known to come next. -/
def ways (next : Option Pattern) : Pairing → List (List Leg)
  | single pattern output => [[⟨pattern, output, next⟩]]
  | sequence items => waysInTurn next items
  | alternative options => waysOfOne next options

/-- The ways through pairings one after the other. -/
def waysInTurn (next : Option Pattern) : List Pairing → List (List Leg)
  | [] => [[]]
  | p :: rest => (p.ways (nextBefore next rest)).flatMap fun way ↦
    (waysInTurn next rest).map (way ++ ·)

/-- The ways through one of some pairings. -/
def waysOfOne (next : Option Pattern) : List Pairing → List (List Leg)
  | [] => []
  | p :: rest => p.ways next ++ waysOfOne next rest

end

/-- What a search is told if a pattern is known to come next. -/
def told (inv : Inventory) (next : Option Pattern) : Option Probe :=
  next.map fun q ↦ q.candidates inv

section Trails

variable (inv : Inventory) (scan : Scan)

/-- Whether a piece is a match of its pattern that leads from bindings to bindings. The search that
is told what comes next offers its end, and so does the one that is told nothing, unless it has a
fault. -/
structure Found (next : Option Pattern) (b after : Bindings) (piece : Piece) : Prop where
  /-- The search for the pattern offers the end of the piece. -/
  offered : ⟨piece.stop, after⟩ ∈
    (piece.pattern.finder inv (told inv next) scan piece.start b).offers
  /-- It does so too where nothing is known to come next. -/
  alone : (piece.pattern.candidates inv scan piece.start b).ending = none →
    ⟨piece.stop, after⟩ ∈ (piece.pattern.candidates inv scan piece.start b).offers

/-- Whether pieces are found on a way, one for every leg, each with what the one before it leaves
bound. -/
inductive Trail : Bindings → List Leg → List Piece → Bindings → Prop
  /-- Nothing is found where the way ends. -/
  | stop (b : Bindings) : Trail b [] [] b
  /-- A piece is found for the first leg. -/
  | step {b between after : Bindings} {leg : Leg} {way : List Leg}
      {pieces : List Piece} (first last : Position)
      (found : Found inv scan leg.next b between ⟨first, last, leg.pattern, leg.output⟩)
      (rest : Trail between way pieces after) :
      Trail b (leg :: way) (⟨first, last, leg.pattern, leg.output⟩ :: pieces) after

variable {inv scan} {b between after : Bindings} {way more : List Leg} {pieces others : List Piece}

/-- Pieces on one way after another. -/
theorem Trail.append (h : Trail inv scan b way pieces between)
    (hmore : Trail inv scan between more others after) :
    Trail inv scan b (way ++ more) (pieces ++ others) after := by
  induction h with
  | stop b => exact hmore
  | step first last found _ ih => exact .step first last found (ih hmore)

/-- Pieces on two ways are those on the first and then those on the second. -/
theorem Trail.of_append (h : Trail inv scan b (way ++ more) pieces after) :
    ∃ front back between, pieces = front ++ back ∧ Trail inv scan b way front between ∧
      Trail inv scan between more back after := by
  induction way generalizing b pieces with
  | nil => exact ⟨[], pieces, b, rfl, .stop b, h⟩
  | cons leg way ih =>
    cases h with
    | step first last found rest =>
      obtain ⟨front, back, between, rfl, hfront, hback⟩ := ih rest
      exact ⟨_ :: front, back, between, rfl, .step first last found hfront, hback⟩

end Trails

/-! ### Searches along ways -/

/-- Whether a search that extends pieces offers the matches that are found on some ways: nothing
else, and unless it has a fault all of them. -/
structure Goes (inv : Inventory) (scan : Scan) (ways : List (List Leg))
    (search : Position → Bindings → List Piece → Candidates TiledMatch) : Prop where
  /-- What is offered is found on a way. -/
  sound {start : Position} {b : Bindings} {before : List Piece} {m : TiledMatch}
    (offered : m ∈ (search start b before).offers) : ∃ way ∈ ways, ∃ pieces,
      m.pieces = before ++ pieces ∧ Trail inv scan b way pieces m.bindings
  /-- What is found on a way is offered. -/
  complete {start stop : Position} {b after : Bindings} {before pieces : List Piece}
    {way : List Leg} (noFault : (search start b before).ending = none) (mem : way ∈ ways)
    (tiles : Tiles scan.phrase start (pieces.map Piece.span) stop)
    (trail : Trail inv scan b way pieces after) :
      ⟨⟨stop, after⟩, before ++ pieces⟩ ∈ (search start b before).offers

namespace Goes

variable {inv : Inventory} {scan : Scan} {ways ways' : List (List Leg)}
  {search search' : Position → Bindings → List Piece → Candidates TiledMatch}

/-- A search for a single pair. -/
theorem single (pattern : Pattern) (output : Output) (next : Option Pattern) :
    Goes inv scan [[⟨pattern, output, next⟩]]
      (Tiling.single (pattern.finder inv) pattern output (told inv next) scan) where
  sound {start b before m} hm := by
    rw [Tiling.single, Candidates.offers_map] at hm
    obtain ⟨found, hfound, rfl⟩ := List.mem_map.mp hm
    -- a hint changes the order of what is offered, and hides nothing unless there is a fault
    have halone := pattern.finder_steady inv none (told inv next) scan start b
    exact ⟨_, List.mem_singleton_self _, _, rfl,
      .step start found.stop ⟨hfound, fun hnone ↦ halone hnone hfound⟩ (.stop _)⟩
  complete {start stop b after before pieces way} _ hway htiles htrail := by
    cases List.mem_singleton.mp hway
    cases htrail with
    | step first last found rest =>
      cases rest
      obtain ⟨rfl, -, -, rfl⟩ := htiles
      rw [Tiling.single, Candidates.offers_map]
      exact List.mem_map.mpr ⟨⟨stop, after⟩, found.offered, rfl⟩

/-- A search that adds no piece. -/
theorem stop : Goes inv scan [[]] fun start b before ↦ .pure ⟨⟨start, b⟩, before⟩ where
  sound {start b before m} hm := by
    cases List.mem_singleton.mp hm
    exact ⟨[], List.mem_singleton_self _, [], (List.append_nil before).symm, .stop b⟩
  complete {start stop b after before pieces way} _ hway htiles htrail := by
    cases List.mem_singleton.mp hway
    cases htrail
    cases htiles
    rw [List.append_nil]
    exact List.mem_singleton_self _

/-- A search that goes on behind the matches of another one. -/
theorem bind (h : Goes inv scan ways search) (h' : Goes inv scan ways' search') :
    Goes inv scan (ways.flatMap fun way ↦ ways'.map (way ++ ·)) fun start b before ↦
      (search start b before).bind fun m ↦ search' m.stop m.bindings m.pieces where
  sound {start b before m} hm := by
    obtain ⟨between, hbetween, hm⟩ := Candidates.exists_of_mem_offers_bind hm
    obtain ⟨way, hway, pieces, hpieces, htrail⟩ := h.sound hbetween
    obtain ⟨more, hmore, others, hothers, htrail'⟩ := h'.sound hm
    refine ⟨way ++ more, ?_, pieces ++ others, ?_, htrail.append htrail'⟩
    · exact List.mem_flatMap.mpr ⟨way, hway, List.mem_map_of_mem hmore⟩
    · rw [hothers, hpieces, List.append_assoc]
  complete {start stop b after before pieces way} hnone hway htiles htrail := by
    obtain ⟨hfirst, hrest⟩ := Candidates.ending_bind_eq_none.mp hnone
    obtain ⟨way, hmem, hjoined⟩ := List.mem_flatMap.mp hway
    obtain ⟨more, hmore, rfl⟩ := List.mem_map.mp hjoined
    obtain ⟨front, back, between, rfl, hfront, hback⟩ := htrail.of_append
    rw [List.map_append] at htiles
    obtain ⟨middle, htilesFront, htilesBack⟩ := htiles.of_append
    have hoffered := h.complete hfirst hmem htilesFront hfront
    refine Candidates.mem_offers_bind hnone hoffered ?_
    rw [← List.append_assoc]
    exact h'.complete (hrest _ hoffered) hmore htilesBack hback

/-- A search without matches. -/
theorem done : Goes inv scan [] fun _ _ _ ↦ .done where
  sound hm := nomatch hm
  complete _ hway := nomatch hway

/-- One search and then, behind a choice point, another one. -/
theorem append (h : Goes inv scan ways search) (h' : Goes inv scan ways' search') :
    Goes inv scan (ways ++ ways') fun start b before ↦ .choice fun _ ↦
      .append (fun _ ↦ search start b before) fun _ ↦ search' start b before where
  sound {start b before m} hm := by
    rcases List.mem_append.mp (Candidates.offers_append_sublist.subset hm) with hm | hm
    · obtain ⟨way, hway, htrail⟩ := h.sound hm
      exact ⟨way, List.mem_append_left ways' hway, htrail⟩
    · obtain ⟨way, hway, htrail⟩ := h'.sound hm
      exact ⟨way, List.mem_append_right ways hway, htrail⟩
  complete {start stop b after before pieces way} hnone hway htiles htrail := by
    rw [Candidates.ending, Candidates.ending_append, Option.or_eq_none_iff] at hnone
    rw [Candidates.offers, Candidates.offers_append_of_ending hnone.1, List.mem_append]
    rcases List.mem_append.mp hway with hway | hway
    · exact .inl (h.complete hnone.1 hway htiles htrail)
    · exact .inr (h'.complete hnone.2 hway htiles htrail)

end Goes

/-! ### The search for a pairing -/

variable (inv : Inventory) (scan : Scan)

mutual

/-- The search for a pairing goes the ways through it. -/
theorem tiling_goes (next : Option Pattern) :
    (p : Pairing) → Goes inv scan (p.ways next) (p.tiling inv (told inv next) scan)
  | single pattern output => .single pattern output next
  | sequence items => sequence_goes next items
  | alternative options => alternative_goes next options

/-- The search for pairings one after the other goes the ways through all of them. -/
theorem sequence_goes (next : Option Pattern) : (items : List Pairing) →
    Goes inv scan (waysInTurn next items) (Tiling.sequence (tilings inv items) (told inv next) scan)
  | [] => .stop
  | p :: rest => by
    have h := (tiling_goes (nextBefore next rest) p).bind (sequence_goes next rest)
    -- what the first is told depends on whether there is a second
    cases rest with
    | nil => exact h
    | cons q others => exact h

/-- The search for alternative pairings goes the ways through each of them. -/
theorem alternative_goes (next : Option Pattern) : (options : List Pairing) →
    Goes inv scan (waysOfOne next options)
      (Tiling.alternative (tilings inv options) (told inv next) scan)
  | [] => .done
  | p :: rest => (tiling_goes next p).append (alternative_goes next rest)

end

/-- The pieces of a match tile it. Whatever its bound, a search for a pairing from a position of a
phrase offers only matches that extend the pieces it was given by those found on one way through the
pairing: they lie one after the other without gaps from the start of the match to its end, which is
its start if there are none, and each is a match of its own pattern from where it starts, with what
the one before it leaves bound. A search that comes to its end without a fault offers all of these
matches. -/
theorem search_tiles_matches (inv : Inventory) (p : Pairing) (phrase : Phrase) {start : Position}
    (hstart : phrase.isPosition start) (b : Bindings) (before : List Piece) (budget : Budget) :
    let course := (p.tiling inv none (.of phrase) start b before).course budget
    (∀ m ∈ course.offered, ∃ way ∈ p.ways none, ∃ pieces, m.pieces = before ++ pieces ∧
      Tiles phrase start (pieces.map Piece.span) m.stop ∧
      Trail inv (.of phrase) b way pieces m.bindings) ∧
    (course.fault = none → ∀ way ∈ p.ways none, ∀ pieces stop after,
      Tiles phrase start (pieces.map Piece.span) stop →
      Trail inv (.of phrase) b way pieces after →
      ⟨⟨stop, after⟩, before ++ pieces⟩ ∈ course.offered) := by
  intro course
  have hgoes := p.tiling_goes inv (.of phrase) none
  constructor
  · intro m hm
    have hm := Candidates.mem_offers_of_mem_offered hm
    obtain ⟨way, hway, pieces, hpieces, htrail⟩ := hgoes.sound hm
    have hcuts := @tiling_cuts (fun _ ↦ True) (fun _ ↦ trivial) inv p none (fun _ h ↦ nomatch h)
      (.of phrase) start b before (Scan.mirrors_of phrase) hstart
    obtain ⟨cut, hcut, htiles, -⟩ := hcuts.offers m hm
    have hsame : cut = pieces := List.append_cancel_left (hcut.symm.trans hpieces)
    exact ⟨way, hway, pieces, hpieces, hsame ▸ htiles, htrail⟩
  · intro hnone way hway pieces stop after htiles htrail
    obtain ⟨hoffered, hending⟩ := Candidates.offered_course hnone
    rw [show course.offered = _ from hoffered]
    exact hgoes.complete hending hway htiles htrail

/-- In `ab` the pairing of `{ab, a} b` with `{x, y} z` is found once: the option `ab` is given up,
and its piece is not left among those of the match. -/
theorem search_tiles_matches_ab :
    let seen (text : List Char) : Pattern := .text ⟨text.map fun c ↦ .literal [c], none⟩
    let written (c : Char) : Output := .text ⟨[.literal [c]], none⟩
    let p : Pairing := .sequence [.alternative [.single (seen ['a', 'b']) (written 'x'),
      .single (seen ['a']) (written 'y')], .single (seen ['b']) (written 'z')]
    let phrase : Phrase := .ofWord ⟨[.literal ['a'], .literal ['b']], none⟩
    let earlier : Piece := ⟨{}, {}, .empty, .empty⟩
    let course := (p.tiling .empty none (.of phrase) {} .empty [earlier]).course ⟨100, "rule"⟩
    ∃ m way pieces, course.offered = [m] ∧ way ∈ p.ways none ∧ m.pieces = earlier :: pieces ∧
      Tiles phrase {} (pieces.map Piece.span) m.stop ∧
      Trail .empty (.of phrase) .empty way pieces m.bindings ∧
      pieces.map Piece.span = [(⟨0, 0⟩, ⟨0, 1⟩), (⟨0, 1⟩, ⟨0, 2⟩)] ∧
      ⟨⟨m.stop, m.bindings⟩, earlier :: pieces⟩ ∈ course.offered := by
  intro seen written p phrase earlier course
  obtain ⟨hsound, hcomplete⟩ := search_tiles_matches .empty p phrase
    (show phrase.isPosition {} by decide) .empty [earlier] ⟨100, "rule"⟩
  let m : TiledMatch := ⟨⟨⟨0, 2⟩, .empty⟩, [earlier, ⟨⟨0, 0⟩, ⟨0, 1⟩, seen ['a'], written 'y'⟩,
    ⟨⟨0, 1⟩, ⟨0, 2⟩, seen ['b'], written 'z'⟩]⟩
  have hcourse : course.offered = [m] := rfl
  obtain ⟨way, hway, pieces, hpieces, htiles, htrail⟩ := hsound m List.mem_cons_self
  have hspans : pieces = m.pieces.tail := (congrArg List.tail hpieces).symm
  refine ⟨m, way, pieces, hcourse, hway, hpieces, htiles, htrail, by rw [hspans]; rfl, ?_⟩
  exact hcomplete rfl way hway pieces m.stop m.bindings htiles htrail

end Pairing

end Diachrony
