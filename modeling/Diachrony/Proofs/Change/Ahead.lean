import Diachrony.Proofs.Change.Exhaustive
import Diachrony.Proofs.Pattern.Ahead

/-!
# Changes that look ahead

An expression without conditions and exclusions whose pattern looks at nothing but what lies ahead
finds behind a fragment the edits that it finds in the phrase alone. So a pass over a phrase is its
first edit and the pass over what is left behind that edit.
-/

namespace Diachrony

/-- A piece of a match in a phrase that is joined behind a fragment. -/
def Piece.behind (t : Phrase) (piece : Piece) : Piece :=
  { piece with start := t.behind piece.start, stop := t.behind piece.stop }

/-- A tiled match in a phrase that is joined behind a fragment. -/
def TiledMatch.behind (t : Phrase) (m : TiledMatch) : TiledMatch :=
  ⟨m.toMatch.behind t, m.pieces.map (Piece.behind t)⟩

/-- A replacement in a phrase that is joined behind a fragment. -/
def Replacement.behind (t : Phrase) (r : Replacement) : Replacement :=
  { r with start := t.behind r.start, stop := t.behind r.stop }

/-- An edit in a phrase that is joined behind a fragment. -/
def Edit.behind (t : Phrase) (e : Edit) : Edit :=
  { e with
    start := t.behind e.start
    stop := t.behind e.stop
    replacements := e.replacements.map (Replacement.behind t) }

variable {t p : Phrase} {inv : Inventory}

/-- An edit is taken along by one fragment after the other. -/
theorem Edit.behind_append (t q : Phrase) (e : Edit) :
    e.behind (t ++ q) = (e.behind q).behind t := by
  simp [behind, Replacement.behind, Phrase.behind_append, Function.comp_def]

/-- An insertion stays an insertion. -/
theorem Edit.isInsertion_behind (t : Phrase) (e : Edit) :
    (e.behind t).isInsertion = e.isInsertion := by
  rw [isInsertion, isInsertion, decide_eq_decide]
  exact Phrase.behind_inj

/-- Where a search goes on after an edit that ends somewhere: there, or behind one more position if
the edit was an insertion. -/
def Edit.resume (e : Edit) (p : Phrase) (stop : Position) : Option Position :=
  if e.isInsertion then p.next? stop else some stop

/-- A search goes on behind a fragment where it does in the phrase. -/
theorem Edit.resume_behind (e : Edit) (t p : Phrase) (stop : Position) :
    e.resume (t ++ p) (t.behind stop) = (e.resume p stop).map t.behind := by
  rw [resume, resume, Phrase.next?_behind]
  split <;> rfl

/-- A search goes on at a position. -/
theorem Edit.isPosition_resume {e : Edit} {p : Phrase} {stop c : Position} (h : p.isPosition stop)
    (hc : e.resume p stop = some c) : p.isPosition c := by
  rw [resume] at hc
  split at hc
  · exact (Phrase.isPosition_of_next? h hc).1
  · cases hc
    exact h

section Resolving

variable (ht : t.IsUndivided) (hp : p.IsUndivided)
include ht hp

/-- A piece is replaced behind a fragment as it is in the phrase. -/
theorem Piece.resolve_behind (b : Bindings) (piece : Piece) :
    (piece.behind t).resolve inv b (t ++ p) = Replacement.behind t <$> piece.resolve inv b p := by
  have hslice : (t ++ p).slice? (piece.behind t).start (piece.behind t).stop =
      p.slice? piece.start piece.stop := Phrase.slice?_behind ht hp _ _
  rw [resolve, resolve, hslice]
  cases p.slice? piece.start piece.stop with
  | none => rfl
  | some span =>
    show (piece.output.produce inv b piece.pattern span >>= _) = _ <$> (_ >>= _)
    cases piece.output.produce inv b piece.pattern span <;> rfl

/-- A match becomes behind a fragment the edit that it becomes in the phrase. -/
theorem Edit.resolve_behind (priority : Nat) (start stop : Position) (pieces : List Piece)
    (b : Bindings) :
    Edit.resolve inv (t ++ p) priority (t.behind start) (t.behind stop)
        (pieces.map (Piece.behind t)) b =
      Edit.behind t <$> Edit.resolve inv p priority start stop pieces b := by
  have hpieces : (pieces.map (Piece.behind t)).mapM (Piece.resolve inv b (t ++ p)) =
      List.map (Replacement.behind t) <$> pieces.mapM (Piece.resolve inv b p) := by
    induction pieces with
    | nil => rfl
    | cons piece rest ih =>
      rw [List.map_cons, List.mapM_cons, List.mapM_cons, ih, Piece.resolve_behind ht hp]
      cases piece.resolve inv b p with
      | error fault => rfl
      | ok r => cases rest.mapM (Piece.resolve inv b p) <;> rfl
  rw [resolve, resolve, hpieces]
  cases pieces.mapM (Piece.resolve inv b p) <;> rfl

end Resolving

namespace Tiling

/-- A tiling that looks at nothing but what lies ahead, as long as what follows does. -/
def LooksAhead (tiling : Tiling) : Prop :=
  ∀ following, (∀ probe ∈ following, Finder.ProbeLooksAhead probe) →
    ∀ {t p : Phrase}, t.IsUndivided → p.IsUndivided → ∀ {start b} before, p.isPosition start →
      b.IsUndivided → (tiling following (.of p) start b before).Tracks (TiledMatch.behind t)
        (fun m ↦ Finder.Keeps p start m.toMatch)
        (tiling following (.of (t ++ p)) (t.behind start) b (before.map (Piece.behind t)))

/-- A single piece. -/
theorem looksAhead_single {finder : Finder} (h : finder.LooksAhead) (pattern : Pattern)
    (output : Output) : (single finder pattern output).LooksAhead := by
  intro following hfollowing t p ht hp start b before hstart hb
  refine (h following hfollowing ht hp hstart hb).map fun m hm ↦ ⟨?_, hm⟩
  rw [TiledMatch.behind, List.map_append]
  rfl

/-- Tilings one after the other, if what they are told looks ahead. -/
theorem looksAhead_sequence {tilings : List (Option Probe × Tiling)}
    (h : ∀ x ∈ tilings, (∀ probe ∈ x.1, Finder.ProbeLooksAhead probe) ∧ x.2.LooksAhead) :
    (sequence tilings).LooksAhead := by
  induction tilings with
  | nil =>
    intro following _ t p _ _ start b before hstart hb
    exact ⟨rfl, .pure ⟨hstart, le_refl _, hb⟩⟩
  | cons first rest ih =>
    obtain ⟨leading, first⟩ := first
    intro following hfollowing t p ht hp start b before hstart hb
    rw [List.forall_mem_cons] at h
    refine (h.1.2 _ ?_ ht hp before hstart hb).bind fun m hm ↦ ?_
    · cases rest with
      | nil => exact hfollowing
      | cons next _ => exact (h.2 next List.mem_cons_self).1
    · exact (ih h.2 following hfollowing ht hp m.pieces hm.1 hm.3).mono fun n hn ↦ hm.trans hn

/-- One of some tilings. -/
theorem looksAhead_alternative {tilings : List (Option Probe × Tiling)}
    (h : ∀ x ∈ tilings, x.2.LooksAhead) : (alternative tilings).LooksAhead := by
  induction tilings with
  | nil =>
    intro following _ t p _ _ start b before _ _
    exact .done
  | cons first rest ih =>
    intro following hfollowing t p ht hp start b before hstart hb
    rw [List.forall_mem_cons] at h
    exact .choice (.append (h.1 following hfollowing ht hp before hstart hb)
      (ih h.2 following hfollowing ht hp before hstart hb))

end Tiling

namespace Pairing

variable (inv)

mutual

/-- The leading pattern of a pairing whose pattern looks ahead does. -/
theorem leading_looksAhead : (pairing : Pairing) → pairing.pattern.looksAhead →
    ∀ pattern ∈ pairing.leading?, pattern.looksAhead
  | single pattern _, h => by
    rintro _ ⟨⟩
    exact h
  | sequence items, h => firstLeading_looksAhead items h
  | alternative _, _ => by rintro _ ⟨⟩

/-- The leading pattern of the first pairing of a list whose patterns look ahead does. -/
theorem firstLeading_looksAhead : (items : List Pairing) → Pattern.allLookAhead (patterns items) →
    ∀ pattern ∈ firstLeading? items, pattern.looksAhead
  | [], _ => by rintro _ ⟨⟩
  | first :: _, h => leading_looksAhead first ((Bool.and_eq_true _ _).mp h).1

end

mutual

/-- The tiling of a pairing whose pattern looks ahead does. -/
theorem tiling_looksAhead : (pairing : Pairing) → pairing.pattern.looksAhead →
    (pairing.tiling inv).LooksAhead
  | single pattern output, h =>
    Tiling.looksAhead_single (pattern.finder_looksAhead inv h) pattern output
  | sequence items, h => Tiling.looksAhead_sequence (tilings_lookAhead items h)
  | alternative options, h =>
    Tiling.looksAhead_alternative fun x hx ↦ (tilings_lookAhead options h x hx).2

/-- The tilings of a list of pairings whose patterns look ahead do, and so do their leading
patterns. -/
theorem tilings_lookAhead : (items : List Pairing) → Pattern.allLookAhead (patterns items) →
    ∀ x ∈ tilings inv items, (∀ probe ∈ x.1, Finder.ProbeLooksAhead probe) ∧ x.2.LooksAhead
  | [], _ => List.forall_mem_nil _
  | first :: rest, h => by
    have h := (Bool.and_eq_true _ _).mp h
    refine List.forall_mem_cons.mpr ⟨⟨fun probe hprobe ↦ ?_, tiling_looksAhead first h.1⟩,
      tilings_lookAhead rest h.2⟩
    obtain ⟨pattern, hpattern, rfl⟩ := Option.map_eq_some_iff.mp hprobe
    exact (pattern.finder_looksAhead inv (leading_looksAhead first h.1 pattern hpattern)).alone

end

end Pairing

namespace Expression

variable {lang : Language} {e : Expression} (hconditions : e.conditions = [])
  (hlook : e.pattern.looksAhead) {priority : Nat}

include hconditions in
/-- Without conditions an edit is due to the first match at its position. -/
theorem editAt_eq (scan : Scan) (start : Position) :
    e.editAt lang scan none priority start = do
      match ← (e.matchesAt lang scan none start .always).first? (lang.budget e.text) with
      | some m => some <$>
        Edit.resolve lang.inventory scan.phrase priority start m.stop m.pieces m.bindings
      | none => return none := by
  rw [editAt, settings, hconditions]
  rfl

section Edits

variable (ht : t.IsUndivided) (hp : p.IsUndivided) {start : Position}
  (hstart : p.isPosition start)
include hlook ht hp hstart

/-- The matches at a position. -/
theorem tracks_matchesAt : (e.matchesAt lang (.of p) none start .always).Tracks
    (TiledMatch.behind t) (fun m ↦ Finder.Keeps p start m.toMatch)
    (e.matchesAt lang (.of (t ++ p)) none (t.behind start) .always) := by
  have hturn : (Scan.of p).phrase.turn? start = some (p.turn start) :=
    Phrase.turn?_of_isPosition hstart
  have hturn' : (Scan.of (t ++ p)).phrase.turn? (t.behind start) =
      some ((t ++ p).turn (t.behind start)) :=
    Phrase.turn?_of_isPosition ((Phrase.isPosition_behind t p start).trans hstart)
  have hback (q : Phrase) (i j : Position) :
      (Surroundings.always.behind.candidates lang.inventory (Scan.of q).turned i .empty).Tracks
        (fun _ ↦ ⟨j, .empty⟩) (fun m ↦ m.bindings = .empty)
        (Surroundings.always.behind.candidates lang.inventory (Scan.of (t ++ q)).turned j .empty) :=
    ⟨rfl, .pure rfl⟩
  rw [matchesAt, matchesAt, hturn, hturn']
  refine (hback p _ _).bind fun behind hbehind ↦ ?_
  rw [hbehind]
  refine (Pairing.tiling_looksAhead lang.inventory e.pairing hlook none (fun _ h ↦ by cases h) ht hp
    [] hstart Bindings.isUndivided_empty).bind fun tiled htiled ↦ ?_
  exact ⟨rfl, .pure htiled⟩

include hconditions

/-- The edit at a position. -/
theorem editAt_behind : e.editAt lang (.of (t ++ p)) none priority (t.behind start) =
    Option.map (Edit.behind t) <$> e.editAt lang (.of p) none priority start := by
  rw [editAt_eq hconditions, editAt_eq hconditions, (tracks_matchesAt hlook ht hp hstart).map_eq,
    Candidates.first?_map]
  cases (e.matchesAt lang (.of p) none start .always).first? (lang.budget e.text) with
  | error fault => rfl
  | ok found =>
    cases found with
    | none => rfl
    | some m =>
      show some <$> Edit.resolve lang.inventory (t ++ p) priority (t.behind start)
          (t.behind m.stop) (m.pieces.map (Piece.behind t)) m.bindings =
        _ <$> some <$> Edit.resolve lang.inventory p priority start m.stop m.pieces m.bindings
      rw [Edit.resolve_behind ht hp]
      cases Edit.resolve lang.inventory p priority start m.stop m.pieces m.bindings <;> rfl

end Edits

section Passes

variable (ht : t.IsUndivided)
  (hp : p.IsUndivided) {positions : List Position} (hpositions : ∀ i ∈ positions, p.isPosition i)
include hconditions hlook ht hp hpositions

/-- The first edit at some positions. -/
theorem firstAmong_behind :
    e.firstAmong lang (.of (t ++ p)) none priority (positions.map t.behind) =
      Option.map (Edit.behind t) <$> e.firstAmong lang (.of p) none priority positions := by
  induction positions with
  | nil => rfl
  | cons i rest ih =>
    rw [List.forall_mem_cons] at hpositions
    rw [List.map_cons, firstAmong, firstAmong, ih hpositions.2,
      editAt_behind hconditions hlook ht hp hpositions.1]
    cases e.editAt lang (.of p) none priority i with
    | error fault => rfl
    | ok found =>
      cases found with
      | none => rfl
      | some edit => rfl

/-- The edits at some positions. -/
theorem editsFrom_behind (cursor : Position) :
    e.editsFrom lang (.of (t ++ p)) priority (t.behind cursor) (positions.map t.behind) =
      List.map (Edit.behind t) <$> e.editsFrom lang (.of p) priority cursor positions := by
  induction positions generalizing cursor with
  | nil => rfl
  | cons i rest ih =>
    rw [List.forall_mem_cons] at hpositions
    replace ih := ih hpositions.2
    rw [List.map_cons, editsFrom, editsFrom, editAt_behind hconditions hlook ht hp hpositions.1]
    by_cases hskip : i < cursor
    · rw [if_pos hskip, if_pos (Phrase.behind_lt_behind.mpr hskip)]
      exact ih cursor
    · rw [if_neg hskip, if_neg (Phrase.behind_lt_behind.not.mpr hskip)]
      cases e.editAt lang (.of p) none priority i with
      | error fault => rfl
      | ok found =>
        cases found with
        | none => exact ih cursor
        | some edit =>
          show e.editsFrom lang (.of (t ++ p)) priority (t.behind edit.stop) (rest.map t.behind) >>=
            _ = _
          rw [ih edit.stop]
          show (_ >>= _) = List.map _ <$> (e.editsFrom lang (.of p) priority edit.stop rest >>= _)
          cases e.editsFrom lang (.of p) priority edit.stop rest <;> rfl

end Passes

section Unrolling

variable {positions : List Position} (hpositions : ∀ i ∈ positions, p.isPosition i)

include hpositions in
/-- Positions in front of a cursor are passed over. -/
theorem editsFrom_filter {k cursor : Position} (hle : k ≤ cursor) :
    e.editsFrom lang (.of p) priority cursor (positions.filter fun i ↦ k ≤ i) =
      e.editsFrom lang (.of p) priority cursor positions := by
  induction positions generalizing cursor with
  | nil => rfl
  | cons i rest ih =>
    rw [List.forall_mem_cons] at hpositions
    replace ih {cursor : Position} (hle : k ≤ cursor) := ih hpositions.2 hle
    by_cases hi : k ≤ i
    · have hkept : (i :: rest).filter (fun j ↦ k ≤ j) = i :: rest.filter fun j ↦ k ≤ j :=
        List.filter_cons_of_pos (decide_eq_true hi)
      rw [hkept, editsFrom, editsFrom]
      split
      · exact ih hle
      · next hcursor =>
        cases hfound : e.editAt lang (.of p) none priority i with
        | error fault => rfl
        | ok found =>
          cases found with
          | none => exact ih hle
          | some edit =>
            obtain ⟨-, rfl, hfits⟩ := fits_of_editAt hpositions.1 hfound
            exact congrArg (· >>= fun others ↦ Except.ok (edit :: others)) (ih (hi.trans hfits.le))
    · rw [List.filter_cons_of_neg (by simpa using hi), ih hle, editsFrom,
        if_pos (lt_of_lt_of_le (not_le.mp hi) hle)]

/-- It does not matter which cursor all positions have passed. -/
theorem editsFrom_eq_of_le {k cursor : Position} (hk : ∀ i ∈ positions, k ≤ i)
    (hcursor : ∀ i ∈ positions, cursor ≤ i) :
    e.editsFrom lang (.of p) priority k positions =
      e.editsFrom lang (.of p) priority cursor positions := by
  induction positions with
  | nil => rfl
  | cons i rest ih =>
    rw [List.forall_mem_cons] at hk hcursor
    rw [editsFrom, editsFrom, if_neg (not_lt.mpr hk.1), if_neg (not_lt.mpr hcursor.1),
      ih hk.2 hcursor.2]

include hpositions in
/-- The edits from a cursor are the first one and those behind it. -/
theorem editsFrom_eq {cursor : Position} (hsorted : positions.Pairwise (· < ·))
    (hcursor : ∀ i ∈ positions, cursor ≤ i) :
    e.editsFrom lang (.of p) priority cursor positions =
      e.firstAmong lang (.of p) none priority positions >>= fun found ↦
        found.elim (.ok []) fun edit ↦ (edit :: ·) <$> e.editsFrom lang (.of p) priority edit.stop
          (positions.filter fun i ↦ edit.start < i) := by
  induction positions with
  | nil => rfl
  | cons i rest ih =>
    rw [List.forall_mem_cons] at hpositions hcursor
    rw [List.pairwise_cons] at hsorted
    have hbehind : (i :: rest).filter (fun j ↦ i < j) = rest := by
      rw [List.filter_cons_of_neg (by simp), List.filter_eq_self]
      exact fun j hj ↦ decide_eq_true (hsorted.1 j hj)
    rw [editsFrom, firstAmong, if_neg (not_lt.mpr hcursor.1)]
    cases hfound : e.editAt lang (.of p) none priority i with
    | error fault => rfl
    | ok found =>
      cases found with
      | some edit =>
        obtain ⟨-, rfl, -⟩ := fits_of_editAt hpositions.1 hfound
        show (e.editsFrom lang (.of p) priority edit.stop rest >>= fun others ↦ _) =
          (edit :: ·) <$> e.editsFrom lang (.of p) priority edit.stop _
        rw [hbehind]
        cases e.editsFrom lang (.of p) priority edit.stop rest <;> rfl
      | none =>
        show e.editsFrom lang (.of p) priority cursor rest =
          e.firstAmong lang (.of p) none priority rest >>= _
        rw [ih hpositions.2 hsorted.2 hcursor.2]
        cases hfirst : e.firstAmong lang (.of p) none priority rest with
        | error fault => rfl
        | ok found =>
          cases found with
          | none => rfl
          | some edit =>
            have hmem := ((@firstAmong_ensures (fun _ ↦ True) (fun _ _ ↦ trivial) lang e
              (fun o _ _ _ _ ↦ .anything _) _ (Scan.mirrors_of p) none priority _
              hpositions.2).of_ok hfirst edit rfl).1
            have hskip : (i :: rest).filter (fun j ↦ edit.start < j) =
                rest.filter fun j ↦ edit.start < j :=
              List.filter_cons_of_neg (by simpa using le_of_lt (hsorted.1 _ hmem))
            show (edit :: ·) <$> e.editsFrom lang (.of p) priority edit.stop _ =
              (edit :: ·) <$> e.editsFrom lang (.of p) priority edit.stop _
            rw [hskip]

end Unrolling

/-- The positions at which a pass may go on after an edit are those from one position on, or
none. -/
theorem mem_resume_iff {edit : Edit} (hstart : p.isPosition edit.start)
    (hle : edit.start ≤ edit.stop) {j : Position} (hj : p.isPosition j) :
    edit.start < j ∧ edit.stop ≤ j ↔ ∃ c ∈ edit.resume p edit.stop, c ≤ j := by
  rw [Edit.resume]
  by_cases hinsertion : edit.start = edit.stop
  · rw [if_pos (edit.isInsertion_iff.mpr hinsertion), ← hinsertion]
    constructor
    · rintro ⟨hlt, -⟩
      rcases Phrase.eq_or_next?_le hstart hj (le_of_lt hlt) with rfl | hnext
      · exact absurd hlt (lt_irrefl _)
      · exact hnext
    · rintro ⟨c, hc, hle⟩
      have hlt := lt_of_lt_of_le (Phrase.isPosition_of_next? hstart hc).2 hle
      exact ⟨hlt, le_of_lt hlt⟩
  · rw [if_neg (edit.isInsertion_iff.not.mpr hinsertion)]
    constructor
    · rintro ⟨-, hstop⟩
      exact ⟨_, rfl, hstop⟩
    · rintro ⟨c, ⟨⟩, hstop⟩
      exact ⟨lt_of_lt_of_le (lt_of_le_of_ne hle hinsertion) hstop, hstop⟩

/-- Positions behind an edit from which a pass goes on. -/
private theorem isPosition_of_mem_filter {edit : Edit} :
    ∀ i ∈ p.positions.filter fun i ↦ edit.start < i, p.isPosition i :=
  fun _ hi ↦ Phrase.mem_positions.mp (List.mem_filter.mp hi).1

section Resuming

variable {edit : Edit} (hstart : p.isPosition edit.start) (hle : edit.start ≤ edit.stop)
include hstart hle

/-- A pass goes on after an edit at the positions from one position on, or nowhere. -/
theorem editsFrom_resume : e.editsFrom lang (.of p) priority edit.stop
      (p.positions.filter fun i ↦ edit.start < i) =
    e.editsFrom lang (.of p) priority edit.stop
      (p.positions.filter fun i ↦ (edit.resume p edit.stop).any (· ≤ i)) := by
  rw [← editsFrom_filter isPosition_of_mem_filter (le_refl edit.stop), List.filter_filter]
  refine congrArg _ (List.filter_congr fun j hj ↦ ?_)
  have hiff := mem_resume_iff hstart hle (Phrase.mem_positions.mp hj)
  rw [Bool.eq_iff_iff, Bool.and_eq_true, decide_eq_true_eq, decide_eq_true_eq, and_comm, hiff]
  cases edit.resume p edit.stop <;> simp

/-- After an edit at the end a pass is over. -/
theorem editsFrom_of_resume_eq_none (hnone : edit.resume p edit.stop = none) :
    e.editsFrom lang (.of p) priority edit.stop
      (p.positions.filter fun i ↦ edit.start < i) = .ok [] := by
  rw [editsFrom_resume hstart hle, hnone]
  simp only [Option.any_none, List.filter_false]
  rfl

end Resuming

include hconditions hlook in
/-- After an edit a pass finds what a pass over the rest of the phrase finds. -/
theorem editsFrom_of_resume_eq_some {edit : Edit} (ht : t.IsUndivided) (hp : p.IsUndivided)
    (hstart : (t ++ p).isPosition edit.start) (hle : edit.start ≤ edit.stop)
    (hsome : edit.resume (t ++ p) edit.stop = some t.stop) :
    e.editsFrom lang (.of (t ++ p)) priority edit.stop
        ((t ++ p).positions.filter fun i ↦ edit.start < i) =
      List.map (Edit.behind t) <$> e.editsFrom lang (.of p) priority p.start p.positions := by
  have hreached : ∀ i ∈ p.positions.map t.behind, edit.stop ≤ i := by
    intro i hi
    rw [← Phrase.filter_positions_append, List.mem_filter, decide_eq_true_eq,
      Phrase.mem_positions] at hi
    exact ((mem_resume_iff hstart hle hi.1).mpr ⟨t.stop, hsome, hi.2⟩).2
  have hbehind : ∀ i ∈ p.positions.map t.behind, t.behind p.start ≤ i := by
    intro i hi
    obtain ⟨j, -, rfl⟩ := List.mem_map.mp hi
    exact Phrase.behind_le_behind.mpr (Phrase.start_le j)
  have hpositions : ∀ i ∈ p.positions, p.isPosition i := fun i hi ↦ Phrase.mem_positions.mp hi
  rw [editsFrom_resume hstart hle, hsome]
  simp only [Option.any_some]
  rw [Phrase.filter_positions_append, editsFrom_eq_of_le hreached hbehind,
    editsFrom_behind hconditions hlook ht hp hpositions]

end Expression

end Diachrony
