import Mathlib.Data.List.Forall2
import Diachrony.Change.SimpleRule
import Diachrony.Proofs.Pattern.Offers

/-!
# Rules that act alike

Two pairings act alike if they have the same pattern and offer the same matches, and what takes the
place of the pieces of these is the same. Then expressions with these pairings make the same edits,
and rules with these expressions change every phrase in the same way.
-/

namespace Diachrony

/-- A match with what takes the place of its pieces, for the final bindings and the phrase. -/
structure MatchEffect extends Match where
  /-- The replacements of the pieces in order. -/
  writes : List (Bindings → Phrase → Except Fault Replacement)

/-- The effect of a match. -/
def TiledMatch.effect (inv : Inventory) (m : TiledMatch) : MatchEffect :=
  ⟨m.toMatch, m.pieces.map fun piece b p ↦ piece.resolve inv b p⟩

/-- The edit of a match with an effect. -/
def MatchEffect.resolve (p : Phrase) (priority : Nat) (start : Position) (m : MatchEffect) :
    Except Fault Edit := do
  return ⟨priority, start, m.stop, ← m.writes.mapM fun write ↦ write m.bindings p⟩

/-- An edit depends on the effect of its match. -/
theorem TiledMatch.resolve_effect (inv : Inventory) (p : Phrase) (priority : Nat)
    (start : Position) (m : TiledMatch) :
    (m.effect inv).resolve p priority start =
      Edit.resolve inv p priority start m.stop m.pieces m.bindings := by
  rw [MatchEffect.resolve, effect, List.mapM_map]
  rfl

/-- Whether two pairings match the same spans and write the same in their place. -/
structure Pairing.ActsLike (inv : Inventory) (p q : Pairing) : Prop where
  /-- They have the same pattern. -/
  pattern_eq : p.pattern = q.pattern
  /-- They offer matches with the same effect. -/
  tiling_eq : ∀ scan start b, (p.tiling inv none scan start b []).map (TiledMatch.effect inv) =
    (q.tiling inv none scan start b []).map (TiledMatch.effect inv)

namespace Expression

/-- Whether two expressions find the same edits in every phrase. -/
structure ActsLike (lang : Language) (e f : Expression) : Prop where
  /-- They find the same edits in a pass. -/
  edits_eq : ∀ p priority, e.edits lang p priority = f.edits lang p priority
  /-- They find the same first edit after a position. -/
  firstEdit?_eq : ∀ p start priority, e.firstEdit? lang p start priority =
    f.firstEdit? lang p start priority
  /-- They find the same last edit before a limit. -/
  lastEdit?_eq : ∀ p limit priority, e.lastEdit? lang p limit priority =
    f.lastEdit? lang p limit priority

/-- An expression acts like itself. -/
theorem ActsLike.refl (lang : Language) (e : Expression) : e.ActsLike lang e :=
  ⟨fun _ _ ↦ rfl, fun _ _ _ ↦ rfl, fun _ _ _ ↦ rfl⟩

/-- The edit under conditions comes from the effects of matches. -/
private theorem editUnder_cons (lang : Language) (e : Expression) (scan : Scan)
    (limit : Option Position) (priority : Nat) (start : Position) (condition : Surroundings)
    (rest : List Surroundings) :
    e.editUnder lang scan limit priority start (condition :: rest) = (do
      match ← ((e.matchesAt lang scan limit start condition).map
          (TiledMatch.effect lang.inventory)).first? (lang.budget e.text) with
      | some m => some <$> m.resolve scan.phrase priority start
      | none => e.editUnder lang scan limit priority start rest) := by
  rw [editUnder, Candidates.first?_map]
  cases (e.matchesAt lang scan limit start condition).first? (lang.budget e.text) with
  | error fault => rfl
  | ok found =>
    cases found with
    | none => rfl
    | some m => exact congrArg (some <$> ·) (m.resolve_effect lang.inventory _ _ _).symm

/-- Effects of matches under a condition come from the effects of a tiling. -/
private theorem map_effect_matchesAt (lang : Language) (e : Expression) (scan : Scan)
    (limit : Option Position) (start : Position) (condition : Surroundings) :
    (e.matchesAt lang scan limit start condition).map (TiledMatch.effect lang.inventory) =
      match scan.phrase.turn? start with
      | none => .fail Finder.outside
      | some back =>
        (condition.behind.candidates lang.inventory scan.turned back .empty).bind fun behind ↦
          ((e.pairing.tiling lang.inventory none scan start behind.bindings []).map
            (TiledMatch.effect lang.inventory)).bind fun m ↦
              if limit.any (· < m.stop) then .done
              else (condition.ahead.candidates lang.inventory scan m.stop m.bindings).map
                fun ahead ↦ { m with bindings := ahead.bindings } := by
  rw [matchesAt]
  cases scan.phrase.turn? start with
  | none => rfl
  | some back =>
    simp only [Candidates.map_bind, Candidates.bind_map, apply_ite (Candidates.map _),
      Candidates.map_map]
    rfl

section Pairings

variable {lang : Language} {p q : Pairing} (h : p.ActsLike lang.inventory q) (e : Expression)
include h

private theorem editUnder_congr (scan : Scan) (limit : Option Position) (priority : Nat)
    (start : Position) (conditions : List Surroundings) :
    { e with pairing := p }.editUnder lang scan limit priority start conditions =
      { e with pairing := q }.editUnder lang scan limit priority start conditions := by
  induction conditions with
  | nil => rfl
  | cons condition rest ih =>
    simp only [editUnder_cons, map_effect_matchesAt, h.tiling_eq, ih]

private theorem openPositions_congr (scan : Scan) :
    { e with pairing := p }.openPositions lang scan =
      { e with pairing := q }.openPositions lang scan := by
  simp only [openPositions, isExcluded, exclusionsAt, pattern, h.pattern_eq]

private theorem editAt_congr (scan : Scan) (limit : Option Position) (priority : Nat) :
    { e with pairing := p }.editAt lang scan limit priority =
      { e with pairing := q }.editAt lang scan limit priority :=
  funext fun start ↦ editUnder_congr h e scan limit priority start _

private theorem editsFrom_congr (scan : Scan) (priority : Nat) (cursor : Position)
    (positions : List Position) :
    { e with pairing := p }.editsFrom lang scan priority cursor positions =
      { e with pairing := q }.editsFrom lang scan priority cursor positions := by
  induction positions generalizing cursor with
  | nil => rfl
  | cons start rest ih => simp only [editsFrom, editAt_congr h, ih]

private theorem firstAmong_congr (scan : Scan) (limit : Option Position) (priority : Nat)
    (positions : List Position) :
    { e with pairing := p }.firstAmong lang scan limit priority positions =
      { e with pairing := q }.firstAmong lang scan limit priority positions := by
  induction positions with
  | nil => rfl
  | cons start rest ih => simp only [firstAmong, editAt_congr h, ih]

/-- An expression with another pairing that acts alike acts alike. -/
theorem actsLike_of_pairing : { e with pairing := p }.ActsLike lang { e with pairing := q } where
  edits_eq phrase priority := by
    simp only [edits, openPositions_congr h, editsFrom_congr h]
  firstEdit?_eq phrase start priority := by
    simp only [firstEdit?, openPositions_congr h, firstAmong_congr h]
  lastEdit?_eq phrase limit priority := by
    simp only [lastEdit?, openPositions_congr h, firstAmong_congr h]

end Pairings

end Expression

namespace SimpleRule

variable {lang : Language} {es fs : List Expression}

private theorem acceptFrom_congr (h : List.Forall₂ (Expression.ActsLike lang) es fs) (p : Phrase)
    (priority : Nat) (accepted : List Edit) :
    acceptFrom lang p priority accepted es = acceptFrom lang p priority accepted fs := by
  induction h generalizing priority accepted with
  | nil => rfl
  | cons hfirst _ ih => simp only [acceptFrom, hfirst.edits_eq, ih]

private theorem bestEdit?_congr {offer : Expression → Nat → Except Fault (Option Edit)}
    {R : Expression → Expression → Prop} (h : List.Forall₂ R es fs)
    (hoffer : ∀ e f, R e f → offer e = offer f) (better : Edit → Edit → Bool) :
    bestEdit? better offer es = bestEdit? better offer fs := by
  rw [bestEdit?, bestEdit?]
  generalize (none : Option Edit) = best
  generalize 0 = priority
  induction h generalizing best priority with
  | nil => rfl
  | cons hfirst _ ih =>
    simp only [List.zipIdx_cons, List.foldlM_cons, hoffer _ _ hfirst, ih]

variable (h : List.Forall₂ (Expression.ActsLike lang) es fs) (r : SimpleRule)
include h

private theorem nextEdit?_congr (p : Phrase) (cursor : Position) :
    { r with expressions := es }.nextEdit? lang p cursor =
      { r with expressions := fs }.nextEdit? lang p cursor := by
  have hbest : ∀ (better : Edit → Edit → Bool) (p : Phrase) (cursor : Position),
      bestEdit? better (fun e ↦ e.firstEdit? lang p cursor) es =
        bestEdit? better (fun e ↦ e.firstEdit? lang p cursor) fs :=
    fun better p cursor ↦ bestEdit?_congr h
      (fun _ _ hlike ↦ funext (hlike.firstEdit?_eq p cursor)) better
  simp only [nextEdit?, selection?, hbest]

private theorem previousEdit?_congr (p : Phrase) (limit : Option Position) :
    { r with expressions := es }.previousEdit? lang p limit =
      { r with expressions := fs }.previousEdit? lang p limit := by
  have hbest : ∀ (better : Edit → Edit → Bool) (p : Phrase) (limit : Option Position),
      bestEdit? better (fun e ↦ e.lastEdit? lang p limit) es =
        bestEdit? better (fun e ↦ e.lastEdit? lang p limit) fs :=
    fun better p limit ↦ bestEdit?_congr h
      (fun _ _ hlike ↦ funext (hlike.lastEdit?_eq p limit)) better
  simp only [previousEdit?, selection?, hbest]

private theorem forwardsRound_congr (p : Phrase) (cursor : Position) :
    { r with expressions := es }.forwardsRound lang p cursor =
      { r with expressions := fs }.forwardsRound lang p cursor := by
  simp only [forwardsRound, nextEdit?_congr h]

private theorem backwardsRound_congr (p : Phrase) (limit : Option Position) :
    { r with expressions := es }.backwardsRound lang p limit =
      { r with expressions := fs }.backwardsRound lang p limit := by
  simp only [backwardsRound, previousEdit?_congr h]

private theorem forwardsFrom_congr (n : Nat) (p : Phrase) (cursor : Option Position) :
    { r with expressions := es }.forwardsFrom lang n p cursor =
      { r with expressions := fs }.forwardsFrom lang n p cursor := by
  induction n generalizing p cursor with
  | zero => cases cursor <;> rfl
  | succ n ih =>
    cases cursor with
    | none => rfl
    | some cursor => simp only [forwardsFrom, forwardsRound_congr h, ih]

private theorem backwardsFrom_congr (n : Nat) (p : Phrase) (limit : Position) :
    { r with expressions := es }.backwardsFrom lang n p limit =
      { r with expressions := fs }.backwardsFrom lang n p limit := by
  induction n generalizing p limit with
  | zero => rfl
  | succ n ih => simp only [backwardsFrom, backwardsRound_congr h, ih]

/-- A rule whose expressions act like those of another changes every phrase like it. -/
theorem apply_eq_of_actsLike (p : Phrase) :
    { r with expressions := es }.apply lang p = { r with expressions := fs }.apply lang p := by
  have hatOnce : { r with expressions := es }.applyAtOnce lang p =
      { r with expressions := fs }.applyAtOnce lang p := by
    simp only [applyAtOnce, acceptedEdits, selection?, acceptFrom_congr h]
  have hforwards : { r with expressions := es }.applyForwards lang p =
      { r with expressions := fs }.applyForwards lang p := by
    simp only [applyForwards, forwardsRound_congr h, forwardsFrom_congr h]
  have hbackwards : { r with expressions := es }.applyBackwards lang p =
      { r with expressions := fs }.applyBackwards lang p := by
    simp only [applyBackwards, backwardsRound_congr h, backwardsFrom_congr h]
  simp only [apply, hatOnce, hforwards, hbackwards]

end SimpleRule

end Diachrony
