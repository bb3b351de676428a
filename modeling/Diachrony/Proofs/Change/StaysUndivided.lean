import Diachrony.Proofs.Change.Backwards
import Diachrony.Proofs.Change.Forwards
import Diachrony.Proofs.Change.Found
import Diachrony.Proofs.Change.Writing
import Diachrony.Proofs.Pattern.Captures

/-!
# Undivided phrases stay undivided

Outputs without breaks between syllables and without changes to syllables write undivided text in
an undivided phrase, for all that is captured in such a phrase is undivided. So every edit of a rule
with such outputs leaves an undivided phrase undivided, and so does every round of a pass.
-/

namespace Diachrony

namespace Tiling

/-- Whether a search for tiled matches leaves bindings undivided in undivided phrases. -/
def BindsUndivided (t : Tiling) : Prop :=
  ∀ following scan start b pieces, scan.IsUndivided → b.IsUndivided →
    (t following scan start b pieces).Keeps (fun m ↦ m.bindings.IsUndivided) fun _ ↦ True

end Tiling

namespace Pairing

variable (inv : Inventory)

mutual

/-- The tiling of a pairing leaves bindings undivided in undivided phrases. -/
theorem tiling_bindsUndivided : (p : Pairing) → (p.tiling inv).BindsUndivided
  | single pattern _ => fun following scan start _ _ hscan hb ↦
    (pattern.finder_bindsUndivided inv following scan start _ hscan hb).map fun _ hm ↦ hm
  | sequence items => sequence_bindsUndivided items
  | alternative options => alternative_bindsUndivided options

/-- Tilings in sequence bind what all of them bind. -/
theorem sequence_bindsUndivided : (items : List Pairing) →
    (Tiling.sequence (tilings inv items)).BindsUndivided
  | [] => fun _ _ _ _ _ _ hb ↦ .pure hb
  | p :: rest => by
    intro following scan start b pieces hscan hb
    refine (tiling_bindsUndivided p _ scan start b pieces hscan hb).bind fun m hm ↦ ?_
    exact sequence_bindsUndivided rest following scan m.stop m.bindings m.pieces hscan hm

/-- Alternative tilings bind what one of them binds. -/
theorem alternative_bindsUndivided : (options : List Pairing) →
    (Tiling.alternative (tilings inv options)).BindsUndivided
  | [] => fun _ _ _ _ _ _ _ ↦ .done
  | p :: rest => fun following scan start b pieces hscan hb ↦
    .choice (.append (tiling_bindsUndivided p following scan start b pieces hscan hb)
      (alternative_bindsUndivided rest following scan start b pieces hscan hb))

end

end Pairing

/-- Whether the text that an edit writes is undivided, and the edit changes no syllables. -/
def Edit.IsUndivided (e : Edit) : Prop :=
  ∀ r ∈ e.replacements, r.result.IsUndivided ∧ r.syllable = ∅

namespace Expression

variable {lang : Language} {e : Expression} {p : Phrase} {i : Position}
  (houtputs : ∀ o ∈ e.pairing.outputs, o.isUndivided) (hp : p.IsUndivided)

include hp in
/-- Matches in an undivided phrase bind undivided text. -/
theorem isUndivided_of_mem_matchesAt (hi : p.isPosition i) {limit : Option Position}
    {condition : Surroundings} {m : TiledMatch}
    (hm : m ∈ (e.matchesAt lang (.of p) limit i condition).offers) : m.bindings.IsUndivided := by
  have hscan := Scan.IsUndivided.of hp
  obtain ⟨⟨behind, hbehind, tiled, htiled, ahead, hahead, rfl⟩, -⟩ := isMatch_of_mem_offers hi hm
  have hback := (condition.behind.finder_bindsUndivided lang.inventory none _ _ _ hscan.turned
    Bindings.isUndivided_empty).offers behind hbehind
  have hmatch := (e.pairing.tiling_bindsUndivided lang.inventory none _ _ _ _ hscan
    hback).offers tiled htiled
  exact (condition.ahead.finder_bindsUndivided lang.inventory none _ _ _ hscan hmatch).offers ahead
    hahead

include houtputs hp

/-- The edit at a position of an undivided phrase writes undivided text. -/
theorem editAt_isUndivided (hi : p.isPosition i) (limit : Option Position) (priority : Nat) :
    Ensures (fun found ↦ ∀ edit ∈ found, edit.IsUndivided) (fun _ ↦ True)
      (e.editAt lang (.of p) limit priority i) := by
  let suits (m : TiledMatch) : Prop := m.bindings.IsUndivided ∧
    ∀ piece ∈ m.pieces, piece.output.LeavesUndivided lang.inventory
  refine @editAt_of_matches _ _ _ _ _ _ _ suits (fun condition _ ↦ ?_) fun m hm ↦ ?_
  · refine ⟨fun m hm ↦ ⟨isUndivided_of_mem_matchesAt hp hi hm, ?_⟩, fun _ _ ↦ trivial⟩
    obtain ⟨pieces, hpieces, -, hmem, -⟩ := (@matchesAt_keeps (fun _ ↦ True) (fun _ _ ↦ trivial)
      lang e _ (Scan.mirrors_of p) limit i hi condition).offers m hm
    rw [List.nil_append] at hpieces
    rw [hpieces]
    exact fun piece hpiece ↦
      Output.leavesUndivided_of_isUndivided _ (houtputs _ (hmem piece hpiece))
  · refine Ensures.bind (Ensures.mapM_all fun piece hpiece ↦ ?_) fun rs hrs ↦ .ok hrs
    exact Piece.resolve_isUndivided hp (hm.2 piece hpiece) hm.1

/-- The first edit among positions of an undivided phrase writes undivided text. -/
theorem firstAmong_isUndivided {positions : List Position}
    (hpositions : ∀ i ∈ positions, p.isPosition i) (limit : Option Position) (priority : Nat) :
    Ensures (fun found ↦ ∀ edit ∈ found, edit.IsUndivided) (fun _ ↦ True)
      (e.firstAmong lang (.of p) limit priority positions) := by
  induction positions with
  | nil => exact .ok fun _ h ↦ nomatch h
  | cons i rest ih =>
    rw [List.forall_mem_cons] at hpositions
    rw [firstAmong]
    refine (editAt_isUndivided houtputs hp hpositions.1 limit priority).bind fun found hfound ↦ ?_
    cases found with
    | none => exact ih hpositions.2
    | some edit => exact .ok hfound

/-- The first edit from a position of an undivided phrase on writes undivided text. -/
theorem firstEdit?_isUndivided (start : Position) (priority : Nat) :
    Ensures (fun found ↦ ∀ edit ∈ found, edit.IsUndivided) (fun _ ↦ True)
      (e.firstEdit? lang p start priority) := by
  rw [firstEdit?]
  refine (e.openPositions_ensures (fun _ _ ↦ trivial) lang (Scan.mirrors_of p)).bind
    fun positions hpositions ↦ ?_
  exact firstAmong_isUndivided houtputs hp (fun i hi ↦
    Phrase.mem_positions.mp (hpositions.subset (List.mem_filter.mp hi).1)) none priority

/-- The last edit before a limit in an undivided phrase writes undivided text. -/
theorem lastEdit?_isUndivided (limit : Option Position) (priority : Nat) :
    Ensures (fun found ↦ ∀ edit ∈ found, edit.IsUndivided) (fun _ ↦ True)
      (e.lastEdit? lang p limit priority) := by
  rw [lastEdit?]
  refine (e.openPositions_ensures (fun _ _ ↦ trivial) lang (Scan.mirrors_of p)).bind
    fun positions hpositions ↦ ?_
  exact firstAmong_isUndivided houtputs hp (fun i hi ↦ Phrase.mem_positions.mp
    (hpositions.subset (List.mem_filter.mp (List.mem_reverse.mp hi)).1)) limit priority

end Expression

namespace Splicing

variable {p : Phrase} (hp : p.IsUndivided)
include hp

/-- Undivided text is written behind undivided text, and no change to a syllable is kept for
later. -/
theorem foldl_written_isUndivided {rs : List Replacement}
    (hrs : ∀ r ∈ rs, r.result.IsUndivided ∧ r.syllable = ∅) {s : Splicing}
    (houtput : s.output.IsUndivided) (hchanges : s.changes = []) :
    (rs.foldl (written p) s).output.IsUndivided ∧ (rs.foldl (written p) s).changes = [] := by
  induction rs generalizing s with
  | nil => exact ⟨houtput, hchanges⟩
  | cons r rest ih =>
    rw [List.forall_mem_cons] at hrs
    have hwritten := s.sameText_written hp hrs.1.2
    refine ih hrs.2 ?_ (hwritten.changes.trans hchanges)
    rw [hwritten.output]
    exact (houtput.append (hp.slice _ _)).append hrs.1.1

end Splicing

/-- Splicing an edit that writes undivided text leaves an undivided phrase undivided. -/
theorem Phrase.isUndivided_of_spliceOne {inv : Inventory} {p q : Phrase} {e : Edit}
    {start stop last : Position} (hp : p.IsUndivided) (he : e.IsUndivided)
    (hfollows : Follows p e.start (e.replacements.map Replacement.span) last)
    (h : p.spliceOne inv e = .ok (q, start, stop)) : q.IsUndivided := by
  obtain ⟨-, hcursor, -⟩ := @Splicing.foldlM_replace_eq p { cursor := p.start } _ _
    isPosition_start (hfollows.of_le (@start_le p e.start))
  obtain ⟨houtput, hchanges⟩ := @Splicing.foldl_written_isUndivided p hp _ he { cursor := p.start }
    .empty rfl
  rw [spliceOne_eq inv hfollows] at h
  generalize e.replacements.foldl (Splicing.written p) { cursor := p.start } = t at *
  have hwhole := houtput.append (hp.slice t.cursor p.stop)
  obtain ⟨text, hfinish, heq⟩ := exists_of_bind_eq_ok h
  rw [Splicing.finish_of_changes_eq_nil hcursor hchanges, hwhole.normalized_eq] at hfinish
  cases hfinish
  cases heq
  exact hwhole

namespace SimpleRule

variable {lang : Language} {r : SimpleRule} {p q : Phrase} {e : Edit}

/-- Splicing a found edit that writes undivided text leaves an undivided phrase undivided. -/
theorem IsFound.isUndivided_spliceOne (h : r.IsFound p e) (hp : p.IsUndivided)
    (he : e.IsUndivided) {inv : Inventory} {start stop : Position}
    (hmade : p.spliceOne inv e = .ok (q, start, stop)) : q.IsUndivided := by
  obtain ⟨seen, found, hseen, hfits, rfl⟩ := h
  have hfollows := follows_widenIn hseen hfits
  exact Phrase.isUndivided_of_spliceOne hp he (hfollows.1.symm ▸ hfollows.2) hmade

variable (hfilter : r.filter = none)
  (houtputs : ∀ e ∈ r.expressions, ∀ o ∈ e.pairing.outputs, o.isUndivided) (hp : p.IsUndivided)
include hfilter houtputs hp

/-- A round from the left leaves an undivided phrase undivided. -/
theorem ForwardsStep.isUndivided {cursor : Position} {next : Option Position}
    (h : r.ForwardsStep lang p cursor e q next) (hcursor : p.isPosition cursor) :
    q.IsUndivided := by
  obtain ⟨-, hfound⟩ := isFound_of_nextEdit? hcursor h.found
  obtain ⟨start, stop, hmade, -⟩ := h.made
  have hsearch : Ensures (fun found ↦ ∀ edit ∈ found, edit.IsUndivided) (fun _ ↦ True)
      (r.nextEdit? lang p cursor) := by
    rw [nextEdit?, selection?_of_unfiltered hfilter]
    exact bestEdit?_ensures _ fun e he priority ↦
      Expression.firstEdit?_isUndivided (houtputs e he) hp cursor priority
  exact hfound.isUndivided_spliceOne hp (hsearch.of_ok h.found e rfl) hmade

/-- A round from the right leaves an undivided phrase undivided. -/
theorem BackwardsStep.isUndivided {limit : Option Position} {next : Position}
    (h : r.BackwardsStep lang p limit e q next) (hlimit : ∀ l ∈ limit, p.isPosition l) :
    q.IsUndivided := by
  have hfound := isFound_of_previousEdit? hlimit h.found
  obtain ⟨stop, hmade⟩ := h.made
  have hsearch : Ensures (fun found ↦ ∀ edit ∈ found, edit.IsUndivided) (fun _ ↦ True)
      (r.previousEdit? lang p limit) := by
    rw [previousEdit?, selection?_of_unfiltered hfilter]
    exact bestEdit?_ensures _ fun e he priority ↦
      Expression.lastEdit?_isUndivided (houtputs e he) hp limit priority
  exact hfound.isUndivided_spliceOne hp (hsearch.of_ok h.found e rfl) hmade

end SimpleRule

end Diachrony
