import Diachrony.Proofs.Change.Found
import Diachrony.Proofs.Pattern.Reach

/-!
# Narrow pieces

A pattern is narrow if its matches take at most one step. If all patterns that are paired by
themselves are narrow, a match is cut into pieces of at most one step each, and so is every edit.
-/

namespace Diachrony

/-- Whether a span takes at most one step. -/
def Phrase.IsShort (p : Phrase) (span : Position × Position) : Prop :=
  p.offset span.2 ≤ p.offset span.1 + 1

/-- Whether every match of the pattern takes at most one step. -/
def Pattern.isNarrow (p : Pattern) : Bool := p.reach.any (· ≤ 1)

/-- What is offered for a narrow pattern ends within one step. -/
theorem Pattern.reaches_of_isNarrow (inv : Inventory) {p : Pattern} (h : p.isNarrow) :
    (p.finder inv).Reaches 1 := by
  obtain ⟨n, hn, hle⟩ := (Option.any_eq_true _ _).mp h
  exact (p.finder_reaches inv hn).mono (of_decide_eq_true hle)

namespace Pairing

mutual

/-- The patterns of a pairing that are paired by themselves. -/
def parts : Pairing → List Pattern
  | single pattern _ => [pattern]
  | sequence items | alternative items => partsOf items

/-- The patterns of a list of pairings that are paired by themselves. -/
def partsOf : List Pairing → List Pattern
  | [] => []
  | p :: rest => p.parts ++ partsOf rest

end

/-- Whether a tiling adds short pieces only. -/
def AddsShort (t : Tiling) : Prop :=
  ∀ following scan start b before, (∀ piece ∈ before, scan.phrase.IsShort piece.span) →
    (t following scan start b before).Keeps
      (fun m ↦ ∀ piece ∈ m.pieces, scan.phrase.IsShort piece.span) fun _ ↦ True

mutual

/-- The tiling of a pairing with narrow parts adds short pieces. -/
theorem tiling_addsShort (inv : Inventory) : (p : Pairing) → (∀ q ∈ p.parts, q.isNarrow) →
    AddsShort (p.tiling inv)
  | single pattern output, h => by
    intro following scan start b before hbefore
    have hreach := pattern.reaches_of_isNarrow inv (h pattern (List.mem_singleton_self pattern))
    refine (hreach following scan start b).map fun m hm ↦ ?_
    exact List.forall_mem_append.mpr ⟨hbefore, List.forall_mem_singleton.mpr hm⟩
  | sequence items, h => sequence_addsShort inv items h
  | alternative options, h => alternative_addsShort inv options h

/-- Tilings in sequence add short pieces if all their parts are narrow. -/
theorem sequence_addsShort (inv : Inventory) : (items : List Pairing) →
    (∀ q ∈ partsOf items, q.isNarrow) → AddsShort (.sequence (tilings inv items))
  | [], _ => fun _ _ _ _ _ hbefore ↦ .pure hbefore
  | p :: rest, h => by
    intro following scan start b before hbefore
    obtain ⟨hfirst, hrest⟩ := List.forall_mem_append.mp h
    refine (tiling_addsShort inv p hfirst _ scan start b before hbefore).bind fun m hm ↦ ?_
    exact sequence_addsShort inv rest hrest following scan m.stop m.bindings m.pieces hm

/-- Alternative tilings add short pieces if all their parts are narrow. -/
theorem alternative_addsShort (inv : Inventory) : (options : List Pairing) →
    (∀ q ∈ partsOf options, q.isNarrow) → AddsShort (.alternative (tilings inv options))
  | [], _ => fun _ _ _ _ _ _ ↦ .done
  | p :: rest, h => by
    intro following scan start b before hbefore
    obtain ⟨hfirst, hrest⟩ := List.forall_mem_append.mp h
    exact .choice (.append (tiling_addsShort inv p hfirst following scan start b before hbefore)
      (alternative_addsShort inv rest hrest following scan start b before hbefore))

end

end Pairing

/-- Whether all replacements of an edit take the place of short spans. -/
def Edit.IsShort (p : Phrase) (e : Edit) : Prop := ∀ r ∈ e.replacements, p.IsShort r.span

/-- An edit has the spans of its pieces. -/
theorem Edit.isShort_resolve (inv : Inventory) {p : Phrase} {pieces : List Piece}
    (h : ∀ piece ∈ pieces, p.IsShort piece.span) (priority : Nat) (start stop : Position)
    (b : Bindings) : Ensures (fun e ↦ e.IsShort p) (fun _ ↦ True)
      (Edit.resolve inv p priority start stop pieces b) := by
  have hpiece : ∀ piece ∈ pieces, Ensures (fun r ↦ p.IsShort r.span) (fun _ ↦ True)
      (piece.resolve inv b p) := by
    intro piece hmem
    rw [Piece.resolve]
    split
    · exact .error trivial
    · next span _ =>
      cases piece.output.produce inv b piece.pattern span with
      | error fault => exact .error trivial
      | ok product => exact .ok (h piece hmem)
  refine (Ensures.mapM hpiece).bind fun rs hrs ↦ .ok (?_ : ∀ r ∈ rs, p.IsShort r.span)
  clear h hpiece
  induction hrs with
  | nil => exact List.forall_mem_nil _
  | cons hshort _ ih => exact List.forall_mem_cons.mpr ⟨hshort, ih⟩

/-- An expression with narrow parts finds short edits only. -/
theorem Expression.findsOnly_isShort (lang : Language) {e : Expression}
    (h : ∀ q ∈ e.pairing.parts, q.isNarrow) : e.FindsOnly lang fun p edit ↦ edit.IsShort p := by
  let suits (scan : Scan) (_ : Position) (m : TiledMatch) : Prop :=
    ∀ piece ∈ m.pieces, scan.phrase.IsShort piece.span
  refine @findsOnly_of_matches _ _ _ suits (fun scan limit start condition _ ↦ ?_)
    fun scan priority start m hm ↦ Edit.isShort_resolve _ hm _ _ _ _
  rw [matchesAt]
  split
  · exact .fail trivial
  · refine (Candidates.keeps_anything _).bind fun behind _ ↦ ?_
    refine (e.pairing.tiling_addsShort lang.inventory h none scan start behind.bindings []
      (List.forall_mem_nil _)).bind fun tiled htiled ↦ ?_
    split
    · exact .done
    · exact (Candidates.keeps_anything _).map fun ahead _ ↦ htiled

/-- Whether all patterns that are paired by themselves in the expressions of a rule are narrow. -/
def SimpleRule.isNarrow (r : SimpleRule) : Bool :=
  r.expressions.all fun e ↦ e.pairing.parts.all Pattern.isNarrow

end Diachrony
