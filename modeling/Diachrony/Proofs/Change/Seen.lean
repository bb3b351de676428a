import Diachrony.Change.SimpleRule
import Diachrony.Proofs.Change.Acceptance
import Diachrony.Proofs.Change.Selection
import Diachrony.Proofs.Change.Splice

/-!
# What a rule sees

A rule with a filter sees a selection of a phrase, and one without a filter sees the phrase itself.
Either way an edit that stands in what the rule sees has a place in the full phrase, where its
replacements lie in order and edits keep the order that they have.

The positions of a selection embed in those of the full phrase: they keep their order, the way there
and back leads to where it started, and the end of a span goes to a place behind its start and not
behind the start of what follows it. So edits overlap in the full phrase if and only if they do in
the selection, and edits that come by position come by position in the full phrase too.
-/

namespace Diachrony

/-- The spans of tiled replacements lie in order in the full phrase. -/
theorem Selection.Within.follows {s : Selection} {p : Phrase} (h : s.Within p)
    {rs : List Replacement} {start stop : Position} (hstart : s.phrase.isPosition start)
    (htiles : Tiles s.phrase start (rs.map Replacement.span) stop) :
    Follows p (s.fullStart start) ((rs.map s.widenReplacement).map Replacement.span)
      (s.fullStart stop) := by
  induction rs generalizing start with
  | nil => exact le_of_eq (congrArg s.fullStart htiles).symm
  | cons r rest ih =>
    obtain ⟨rfl, hle, hposition, hrest⟩ := htiles
    refine ⟨le_refl _, h.fullStart_le_fullStop hposition hle, h.isPosition_fullStart hstart,
      h.isPosition_fullStop hposition hle, ?_⟩
    exact (ih hposition hrest).of_le (h.fullStop_le_fullStart hposition hle)

/-- An edit that fits in a selection goes to the full phrase. -/
theorem Selection.widen?_eq {s : Selection} {hasPieces : Bool} {e : Edit}
    (h : e.Fits s.phrase hasPieces) : s.widen? e = .ok (s.widen e) := by
  have hcontains : s.contains e := by
    rw [contains, Bool.and_eq_true, Bool.and_eq_true, List.all_eq_true]
    refine ⟨⟨h.isPosition_start, h.isPosition_stop⟩, fun r hr ↦ ?_⟩
    obtain ⟨hfirst, hlast, -⟩ := h.tiles.of_mem h.isPosition_start (List.mem_map_of_mem hr)
    exact (Bool.and_eq_true _ _).mpr ⟨hfirst, hlast⟩
  rw [widen?, if_pos hcontains]

namespace SimpleRule

/-- Edits that fit in a selection go to the full phrase. -/
theorem mapM_widen?_eq {s : Selection} {hasPieces : Bool} {edits : List Edit}
    (h : ∀ e ∈ edits, e.Fits s.phrase hasPieces) :
    edits.mapM s.widen? = .ok (edits.map s.widen) :=
  mapM_eq_ok fun e he ↦ Selection.widen?_eq (h e he)

/-- The phrase that a rule sees. -/
def seenPhrase (p : Phrase) : Option Selection → Phrase
  | none => p
  | some s => s.phrase

/-- Where a start in what a rule sees lies in the full phrase. -/
def placeIn : Option Selection → Position → Position
  | none, i => i
  | some s, i => s.fullStart i

/-- An edit of what a rule sees as an edit of the full phrase. -/
def widenIn : Option Selection → Edit → Edit
  | none, e => e
  | some s, e => s.widen e

/-- What a rule sees of a phrase is the phrase or holds segments of it. -/
theorem selection?_ensures {allowed : Fault → Prop}
    (hmistake : ∀ fault : Fault, fault.isMistake → allowed fault) (lang : Language)
    (r : SimpleRule) (p : Phrase) :
    Ensures (fun seen ↦ ∀ s ∈ seen, s.Within p) allowed (r.selection? lang p) := by
  rw [selection?]
  split
  · refine (Selection.of_ensures hmistake lang _ p).map fun s hs seen hseen ↦ ?_
    cases hseen
    exact hs
  · exact .ok fun _ h ↦ (nomatch h)

section Widening

variable {p : Phrase} {seen : Option Selection} (hseen : ∀ s ∈ seen, s.Within p)
include hseen

/-- Starts in what a rule sees keep their order. -/
theorem placeIn_le_placeIn {i j : Position} (hij : i ≤ j) : placeIn seen i ≤ placeIn seen j := by
  cases seen with
  | none => exact hij
  | some s => exact (hseen s rfl).fullStart_le_fullStart hij

/-- A start in what a rule sees lies in the full phrase. -/
theorem isPosition_placeIn {i : Position} (hi : (seenPhrase p seen).isPosition i) :
    p.isPosition (placeIn seen i) := by
  cases seen with
  | none => exact hi
  | some s => exact (hseen s rfl).isPosition_fullStart hi

variable {e : Edit} {hasPieces : Bool} (h : e.Fits (seenPhrase p seen) hasPieces)
include h

/-- An edit of what a rule sees has its replacements in order in the full phrase. -/
theorem follows_widenIn : (widenIn seen e).start = placeIn seen e.start ∧
    Follows p (placeIn seen e.start) ((widenIn seen e).replacements.map Replacement.span)
      (placeIn seen e.stop) := by
  cases seen with
  | none => exact ⟨rfl, h.tiles.follows h.isPosition_start⟩
  | some s => exact ⟨rfl, (hseen s rfl).follows h.isPosition_start h.tiles⟩

/-- The end of an edit of what a rule sees does not reach over the start of what follows it. -/
theorem stop_widenIn_le : (widenIn seen e).stop ≤ placeIn seen e.stop := by
  cases seen with
  | none => exact le_refl _
  | some s => exact (hseen s rfl).fullStop_le_fullStart h.isPosition_stop h.le

/-- An edit of what a rule sees ends in the full phrase. -/
theorem isPosition_stop_widenIn : p.isPosition (widenIn seen e).stop := by
  cases seen with
  | none => exact h.isPosition_stop
  | some s => exact (hseen s rfl).isPosition_fullStop h.isPosition_stop h.le

omit hseen in
/-- An edit of what a rule sees keeps its replacements. -/
theorem replacements_widenIn_ne_nil (hpieces : hasPieces) :
    (widenIn seen e).replacements ≠ [] := by
  have hne := h.replaces hpieces
  cases seen with
  | none => exact hne
  | some s => exact fun hnil ↦ hne (List.map_eq_nil_iff.mp hnil)

/-- An edit of what a rule sees is not turned around. -/
theorem start_widenIn_le : (widenIn seen e).start ≤ (widenIn seen e).stop := by
  cases seen with
  | none => exact h.le
  | some s => exact (hseen s rfl).fullStart_le_fullStop h.isPosition_stop h.le

omit hseen in
/-- An edit of what a rule sees starts with its first replacement. -/
theorem start_head_widenIn :
    ∀ r ∈ (widenIn seen e).replacements.head?, r.start = (widenIn seen e).start := by
  cases seen with
  | none => exact h.start_head
  | some s =>
    intro widened hwidened
    obtain ⟨r, hr, rfl⟩ := Option.map_eq_some_iff.mp (List.head?_map.symm.trans hwidened)
    exact congrArg s.fullStart (h.start_head r hr)

/-- The last replacement of an edit of what a rule sees reaches to its end. -/
theorem stop_getLast_widenIn :
    ∀ r ∈ (widenIn seen e).replacements.getLast?, (widenIn seen e).stop ≤ r.stop := by
  cases seen with
  | none => exact fun r hr ↦ (h.stop_getLast r hr).ge
  | some s =>
    intro widened hwidened
    obtain ⟨r, hr, rfl⟩ := Option.map_eq_some_iff.mp (List.getLast?_map.symm.trans hwidened)
    obtain ⟨-, -, hge, hle, -⟩ := h.tiles.of_mem h.isPosition_start
      (List.mem_map_of_mem (List.mem_of_getLast? hr))
    have hstop : r.stop = e.stop := h.stop_getLast r hr
    show s.fullStop e.start e.stop ≤ s.fullStop r.start r.stop
    rw [hstop]
    exact (hseen s rfl).fullStop_le_fullStop h.isPosition_stop hge (hstop ▸ hle)

omit h in
/-- Edits of what a rule sees that do not reach into one another lie in order in the full phrase,
with all of their replacements. -/
theorem inOrder_map_widenIn {edits : List Edit}
    (hfits : ∀ e ∈ edits, e.Fits (seenPhrase p seen) hasPieces)
    (hapart : edits.Pairwise fun a b ↦ a.stop ≤ b.start) :
    InOrder p p.start (edits.map (widenIn seen)) p.stop := by
  refine inOrder_map (placeIn_le_placeIn hseen) (fun e he ↦ follows_widenIn hseen (hfits e he))
    hapart (fun _ _ ↦ Phrase.start_le _) (fun e he ↦ ?_) (Phrase.start_le _)
  exact Phrase.le_stop (isPosition_placeIn hseen (hfits e he).isPosition_stop)

end Widening

end SimpleRule

namespace Selection

section Overlapping

variable {s : Selection} {p : Phrase} (h : s.Within p) {e f : Edit} {hasPieces : Bool}
  (he : e.Fits s.phrase hasPieces)
include h he

/-- An insertion stays one, and nothing else becomes one. -/
theorem isInsertion_widen : (s.widen e).isInsertion = e.isInsertion := by
  rw [Edit.isInsertion, Edit.isInsertion, decide_eq_decide]
  constructor
  · intro heq
    by_contra hne
    have hlt := h.fullStart_lt_fullStop he.isPosition_stop (lt_of_le_of_ne he.le hne)
    exact hlt.ne heq
  · intro heq
    exact (if_pos heq).symm

/-- Starts stand to the end of an edit that is no insertion as they do in the selection. -/
theorem lt_stop_widen_iff (hspan : e.isInsertion = false) {i : Position} :
    s.fullStart i < (s.widen e).stop ↔ i < e.stop :=
  h.lt_fullStop_iff he.isPosition_stop (lt_of_le_of_ne he.le (of_decide_eq_false hspan))

/-- Edits overlap in the full phrase if and only if they do in the selection. -/
theorem overlaps_widen (hf : f.Fits s.phrase hasPieces) :
    (s.widen e).overlaps (s.widen f) = e.overlaps f := by
  have hstart {i j : Position} (hj : s.phrase.isPosition j) :
      s.fullStart i < s.fullStart j ↔ i < j := h.fullStart_lt_iff hj
  rw [Edit.overlaps, Edit.overlaps, isInsertion_widen h he, isInsertion_widen h hf]
  cases hspan : e.isInsertion <;> cases hspan' : f.isInsertion
  case false.false =>
    exact decide_eq_decide.mpr
      (and_congr (lt_stop_widen_iff h hf hspan') (lt_stop_widen_iff h he hspan))
  case false.true =>
    exact decide_eq_decide.mpr
      (and_congr (hstart hf.isPosition_start) (lt_stop_widen_iff h he hspan))
  case true.false =>
    exact decide_eq_decide.mpr
      (and_congr (hstart he.isPosition_start) (lt_stop_widen_iff h hf hspan'))
  case true.true =>
    exact decide_eq_decide.mpr (h.fullStart_inj he.isPosition_start hf.isPosition_start)

end Overlapping

section Widening

variable {s : Selection} {p : Phrase} (h : s.Within p) {edits : List Edit} {hasPieces : Bool}
  (hfits : ∀ e ∈ edits, e.Fits s.phrase hasPieces)
include h hfits

/-- Edits that do not overlap in a selection do not overlap in the full phrase. -/
theorem disjoint_map_widen (hdisjoint : Disjoint edits) : Disjoint (edits.map s.widen) := by
  rw [Disjoint, List.pairwise_map]
  refine hdisjoint.imp_of_mem fun {e f} he hf hef ↦ ?_
  rw [overlaps_widen h (hfits e he) (hfits f hf), hef]

variable (hdisjoint : Disjoint edits) (hsorted : Sorted edits)
include hdisjoint hsorted

/-- Edits that do not overlap come by position in the full phrase if they do in a selection. -/
theorem sorted_map_widen : Sorted (edits.map s.widen) := by
  have hapart := hdisjoint.apart hsorted fun e he ↦ (hfits e he).le
  rw [Sorted, List.pairwise_map]
  refine (hsorted.and hapart).imp_of_mem fun {e f} he hf hef ↦ ?_
  obtain ⟨hlt | ⟨heq, -⟩, -, hle⟩ := hef
  · exact .inl (h.fullStart_lt_fullStart (hfits f hf).isPosition_start hlt)
  · refine .inr ⟨congrArg s.fullStart heq, ?_⟩
    have hstop := h.fullStop_le_fullStart (hfits e he).isPosition_stop (hfits e he).le
    have hstart := h.fullStart_le_fullStop (hfits f hf).isPosition_stop (hfits f hf).le
    exact hstop.trans ((h.fullStart_le_fullStart hle).trans hstart)

/-- Edits of a selection that do not overlap lie in order in the full phrase. -/
theorem inOrder_map_widen : InOrder p p.start (edits.map s.widen) p.stop := by
  have hseen : ∀ seen ∈ some s, seen.Within p := fun _ hmem ↦ Option.mem_some.mp hmem ▸ h
  have hapart := hdisjoint.apart hsorted fun e he ↦ (hfits e he).le
  exact SimpleRule.inOrder_map_widenIn hseen hfits (hapart.imp And.right)

end Widening

/-- What a filter leaves of a phrase embeds in the phrase. A start goes to a position from which the
way back leads to the start, starts keep their strict order, and no position stands behind the start
that it comes to. The end of a span that is not empty stands behind its start and not behind the
start of what follows it. Edits that come by position, do not overlap and are tiled by their
replacements can all be made in the full phrase: they come by position there, do not overlap, and
have their replacements in order. -/
theorem positions_embed {lang : Language} {filter : Pattern} {p : Phrase} {s : Selection}
    (h : Selection.of lang filter p = .ok s) :
    (∀ i, s.phrase.isPosition i → p.isPosition (s.fullStart i) ∧ s.narrow (s.fullStart i) = i) ∧
    (∀ i j, s.phrase.isPosition i → s.phrase.isPosition j → i < j →
      s.fullStart i < s.fullStart j) ∧
    (∀ j, p.isPosition j → s.phrase.isPosition (s.narrow j) ∧ j ≤ s.fullStart (s.narrow j)) ∧
    (∀ i j, s.phrase.isPosition i → s.phrase.isPosition j → i < j →
      p.isPosition (s.fullStop i j) ∧ s.fullStart i < s.fullStop i j ∧
        s.fullStop i j ≤ s.fullStart j) ∧
    ∀ edits : List Edit, Sorted edits → Disjoint edits → (∀ e ∈ edits, e.Fits s.phrase false) →
      edits.mapM s.widen? = .ok (edits.map s.widen) ∧ Sorted (edits.map s.widen) ∧
      Disjoint (edits.map s.widen) ∧ InOrder p p.start (edits.map s.widen) p.stop := by
  have hwithin : s.Within p := (of_ensures (fun _ _ ↦ trivial) lang filter p).of_ok h
  refine ⟨fun i hi ↦ ⟨hwithin.isPosition_fullStart hi, hwithin.narrow_fullStart hi⟩,
    fun i j _ hj hij ↦ hwithin.fullStart_lt_fullStart hj hij,
    fun j hj ↦ ⟨hwithin.isPosition_narrow hj, hwithin.le_fullStart_of_narrow_le hj (le_refl _)⟩,
    fun i j _ hj hij ↦ ⟨hwithin.isPosition_fullStop hj hij.le,
      hwithin.fullStart_lt_fullStop hj hij, hwithin.fullStop_le_fullStart hj hij.le⟩, ?_⟩
  intro edits hsorted hdisjoint hfits
  exact ⟨SimpleRule.mapM_widen?_eq hfits, sorted_map_widen hwithin hfits hdisjoint hsorted,
    disjoint_map_widen hwithin hfits hdisjoint, inOrder_map_widen hwithin hfits hdisjoint hsorted⟩

/-- A filter that accepts only `a` leaves `aa` and `a` of the words `tata` and `at`. An edit of the
first `a`, an insertion behind it and an edit from there to the next word go to the first `a` of
`tata`, to the place in front of its second `a`, and from there to the start of `at`. -/
theorem positions_embed_tata :
    let a := Segment.literal ['a']
    let t := Segment.literal ['t']
    let lang : Language := { inventory := .empty }
    let filter : Pattern := .text ⟨[a], none⟩
    let p : Phrase := .ofWords [⟨[t, a, t, a], none⟩, ⟨[a, t], none⟩]
    let s : Selection := ⟨.ofWords [⟨[a, a], none⟩, ⟨[a], none⟩], [[1, 3], [0]], [4, 2]⟩
    let edits : List Edit :=
      [⟨0, ⟨0, 0⟩, ⟨0, 1⟩, [⟨⟨0, 0⟩, ⟨0, 1⟩, .empty, ∅⟩]⟩,
        ⟨0, ⟨0, 1⟩, ⟨0, 1⟩, [⟨⟨0, 1⟩, ⟨0, 1⟩, .ofWord ⟨[t], none⟩, ∅⟩]⟩,
        ⟨0, ⟨0, 1⟩, ⟨1, 0⟩, [⟨⟨0, 1⟩, ⟨0, 2⟩, .empty, ∅⟩, ⟨⟨0, 2⟩, ⟨1, 0⟩, .empty, ∅⟩]⟩]
    Selection.of lang filter p = .ok s ∧
      s.narrow (s.fullStart ⟨0, 2⟩) = ⟨0, 2⟩ ∧
      (edits.map s.widen).map (fun e ↦ (e.start, e.stop)) =
        [(⟨0, 1⟩, ⟨0, 2⟩), (⟨0, 3⟩, ⟨0, 3⟩), (⟨0, 3⟩, ⟨1, 0⟩)] ∧
      edits.mapM s.widen? = .ok (edits.map s.widen) ∧ Sorted (edits.map s.widen) ∧
      Disjoint (edits.map s.widen) ∧ InOrder p p.start (edits.map s.widen) p.stop := by
  intro a t lang filter p s edits
  have hof : Selection.of lang filter p = .ok s := rfl
  have hsorted : Sorted edits := by
    unfold Sorted
    decide
  have hdisjoint : Disjoint edits := by
    unfold Disjoint
    decide
  have hfits : ∀ e ∈ edits, e.Fits s.phrase false := by
    rw [List.forall_mem_cons, List.forall_mem_cons, List.forall_mem_singleton]
    refine ⟨⟨by decide, ?_, nofun⟩, ⟨by decide, ?_, nofun⟩, ⟨by decide, ?_, nofun⟩⟩
    · exact ⟨rfl, by decide, by decide, rfl⟩
    · exact ⟨rfl, by decide, by decide, rfl⟩
    · exact ⟨rfl, by decide, by decide, rfl, by decide, by decide, rfl⟩
  obtain ⟨hback, -, -, -, hedits⟩ := positions_embed hof
  exact ⟨hof, (hback ⟨0, 2⟩ (by decide)).2, by decide, hedits edits hsorted hdisjoint hfits⟩

end Selection

end Diachrony
