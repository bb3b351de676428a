import Diachrony.Proofs.Change.ContextFree
import Diachrony.Proofs.Change.Reordering

/-!
# Expressions that never match

An alternative without branches matches nowhere. An expression with that input, of which nothing
else is asked, finds no edit and never fails, so a rule does the same with it and without it. The
expressions behind it get other indices, but what a rule writes does not depend on these.
-/

namespace Diachrony

/-- Results that are alike up to a change are taken to results that are, if the change may as well
be made before. -/
theorem map_bind_congr {α : Type} {change : α → α} {f : α → Except Fault α}
    (hf : ∀ a, change <$> f a = f (change a)) {x y : Except Fault α}
    (h : change <$> x = change <$> y) : change <$> (x >>= f) = change <$> (y >>= f) := by
  have hbefore (x : Except Fault α) : change <$> (x >>= f) = change <$> x >>= f := by
    cases x with
    | error fault => rfl
    | ok a => exact hf a
  rw [hbefore, hbefore, h]

namespace Expression

/-- Whether an expression matches nowhere: its input is an alternative without branches, and it has
neither conditions nor exclusions. -/
def isIdle (e : Expression) : Bool :=
  match e with
  | ⟨.single (.alternative []) _, [], [], _⟩ => true
  | _ => false

/-- An idle expression is given by its output and its text. -/
theorem exists_eq_of_isIdle {e : Expression} (h : e.isIdle) :
    ∃ output text, e = ⟨.single (.alternative []) output, [], [], text⟩ := by
  unfold isIdle at h
  split at h
  · exact ⟨_, _, rfl⟩
  · cases h

/-- The expressions that are not idle. -/
def active (expressions : List Expression) : List Expression := expressions.filter (!·.isIdle)

/-- An idle expression is left out. -/
theorem active_cons_of_isIdle {e : Expression} (h : e.isIdle = true) (rest : List Expression) :
    active (e :: rest) = active rest :=
  List.filter_cons_of_neg (by simp [h])

/-- Any other expression is not. -/
theorem active_cons_of_not_isIdle {e : Expression} (h : e.isIdle = false)
    (rest : List Expression) : active (e :: rest) = e :: active rest :=
  List.filter_cons_of_pos (by simp [h])

/-- The active ones among expressions in two parts. -/
theorem active_append (expressions others : List Expression) :
    active (expressions ++ others) = active expressions ++ active others :=
  List.filter_append ..

section Idle

variable {lang : Language} {e : Expression} (h : e.isIdle)
include h

/-- An idle expression has no edit at a position. -/
theorem editAt_of_isIdle {scan : Scan} {i : Position} (hi : scan.phrase.isPosition i)
    (limit : Option Position) (priority : Nat) :
    e.editAt lang scan limit priority i = .ok none := by
  obtain ⟨output, text, rfl⟩ := exists_eq_of_isIdle h
  have hmatches : matchesAt lang ⟨.single (.alternative []) output, [], [], text⟩ scan limit i
      .always = .done := by
    rw [matchesAt, Phrase.turn?_of_isPosition hi]
    rfl
  show editUnder _ _ _ _ _ _ [.always] = _
  rw [editUnder, hmatches]
  rfl

/-- Every position is open to an idle expression. -/
theorem openPositions_of_isIdle (scan : Scan) :
    e.openPositions lang scan = .ok scan.phrase.positions := by
  obtain ⟨output, text, rfl⟩ := exists_eq_of_isIdle h
  exact openPositions_eq rfl scan

/-- An idle expression makes no edits in a pass. -/
theorem edits_of_isIdle (p : Phrase) (priority : Nat) : e.edits lang p priority = .ok [] := by
  have hfrom : ∀ positions : List Position, (∀ i ∈ positions, p.isPosition i) → ∀ cursor,
      e.editsFrom lang (.of p) priority cursor positions = .ok [] := by
    intro positions hpositions cursor
    induction positions with
    | nil => rfl
    | cons i rest ih =>
      rw [List.forall_mem_cons] at hpositions
      have hi : (Scan.of p).phrase.isPosition i := hpositions.1
      rw [editsFrom, editAt_of_isIdle h hi, ih hpositions.2]
      split <;> rfl
  rw [edits, openPositions_of_isIdle h]
  exact hfrom _ (fun i hi ↦ Phrase.mem_positions.mp hi) _

/-- An idle expression has no edit among positions. -/
theorem firstAmong_of_isIdle {scan : Scan} {positions : List Position}
    (hpositions : ∀ i ∈ positions, i ∈ scan.phrase.positions) (limit : Option Position)
    (priority : Nat) : e.firstAmong lang scan limit priority positions = .ok none := by
  induction positions with
  | nil => rfl
  | cons i rest ih =>
    rw [List.forall_mem_cons] at hpositions
    rw [firstAmong, editAt_of_isIdle h (Phrase.mem_positions.mp hpositions.1)]
    exact ih hpositions.2

/-- An idle expression has no first edit. -/
theorem firstEdit?_of_isIdle (p : Phrase) (start : Position) (priority : Nat) :
    e.firstEdit? lang p start priority = .ok none := by
  rw [firstEdit?, openPositions_of_isIdle h]
  exact firstAmong_of_isIdle h (fun i hi ↦ (List.mem_filter.mp hi).1) none priority

/-- An idle expression has no last edit. -/
theorem lastEdit?_of_isIdle (p : Phrase) (limit : Option Position) (priority : Nat) :
    e.lastEdit? lang p limit priority = .ok none := by
  rw [lastEdit?, openPositions_of_isIdle h]
  refine firstAmong_of_isIdle h (fun i hi ↦ ?_) limit priority
  exact (List.mem_filter.mp (List.mem_reverse.mp hi)).1

end Idle

section Ranks

variable (lang : Language) (e : Expression) (priority priority' : Nat)

/-- The edit at the first of some positions is the same under every index. -/
theorem firstAmong_ranked (scan : Scan) (limit : Option Position) (positions : List Position) :
    e.firstAmong lang scan limit priority positions =
      Option.map (Edit.ranked priority) <$> e.firstAmong lang scan limit priority' positions := by
  induction positions with
  | nil => rfl
  | cons start rest ih =>
    rw [firstAmong, firstAmong, editAt, editAt, e.editUnder_ranked lang scan priority priority']
    cases e.editUnder lang scan limit priority' start e.settings with
    | error fault => rfl
    | ok found =>
      cases found with
      | none => exact ih
      | some edit => rfl

/-- The first edit behind a position is the same under every index. -/
theorem firstEdit?_ranked (p : Phrase) (start : Position) :
    e.firstEdit? lang p start priority =
      Option.map (Edit.ranked priority) <$> e.firstEdit? lang p start priority' := by
  rw [firstEdit?, firstEdit?]
  cases e.openPositions lang (Scan.of p) with
  | error fault => rfl
  | ok positions => exact e.firstAmong_ranked lang priority priority' _ _ _

/-- The last edit before a limit is the same under every index. -/
theorem lastEdit?_ranked (p : Phrase) (limit : Option Position) :
    e.lastEdit? lang p limit priority =
      Option.map (Edit.ranked priority) <$> e.lastEdit? lang p limit priority' := by
  rw [lastEdit?, lastEdit?]
  cases e.openPositions lang (Scan.of p) with
  | error fault => rfl
  | ok positions => exact e.firstAmong_ranked lang priority priority' _ _ _

end Ranks

end Expression

namespace SimpleRule

/-- The rule without its idle expressions. -/
def active (r : SimpleRule) : SimpleRule :=
  { r with expressions := Expression.active r.expressions }

section Accepting

/-- Which edits are accepted does not depend on their indices. -/
theorem map_ranked_accept (priority : Nat) (accepted candidates : List Edit) :
    (accept accepted candidates).map (Edit.ranked priority) =
      accept (accepted.map (Edit.ranked priority)) (candidates.map (Edit.ranked priority)) := by
  induction candidates generalizing accepted with
  | nil => rfl
  | cons e rest ih =>
    have hany : (accepted.map (Edit.ranked priority)).any (·.overlaps (e.ranked priority)) =
        accepted.any (·.overlaps e) := List.any_map
    show (accept (if accepted.any (·.overlaps e) then accepted else accepted ++ [e]) rest).map _ =
      accept (if (accepted.map (Edit.ranked priority)).any (·.overlaps (e.ranked priority)) then _
        else _) (rest.map (Edit.ranked priority))
    rw [ih, hany]
    split
    · rfl
    · rw [List.map_append]
      rfl

/-- Up to the indices of the expressions, the same edits are accepted without idle expressions. -/
theorem acceptFrom_active (lang : Language) (p : Phrase) (expressions : List Expression)
    (i j : Nat) {accepted accepted' : List Edit}
    (h : accepted.map (Edit.ranked 0) = accepted'.map (Edit.ranked 0)) :
    List.map (Edit.ranked 0) <$> acceptFrom lang p i accepted (Expression.active expressions) =
      List.map (Edit.ranked 0) <$> acceptFrom lang p j accepted' expressions := by
  induction expressions generalizing i j accepted accepted' with
  | nil => exact congrArg Except.ok h
  | cons e rest ih =>
    cases hidle : e.isIdle with
    | true =>
      rw [Expression.active_cons_of_isIdle hidle, acceptFrom, Expression.edits_of_isIdle hidle]
      exact ih i (j + 1) h
    | false =>
      rw [Expression.active_cons_of_not_isIdle hidle, acceptFrom, acceptFrom,
        e.edits_ranked lang i j]
      cases e.edits lang p j with
      | error fault => rfl
      | ok es =>
        refine ih (i + 1) (j + 1) ?_
        rw [map_ranked_accept, map_ranked_accept, h, List.map_map]
        rfl

/-- An edit goes to the full phrase whatever its index. -/
theorem widen?_ranked (priority : Nat) (s : Selection) (e : Edit) :
    s.widen? (e.ranked priority) = Edit.ranked priority <$> s.widen? e := by
  rw [Selection.widen?, Selection.widen?]
  show (if s.contains e then _ else _) = _
  split <;> rfl

/-- Edits go to the full phrase whatever their indices. -/
theorem map_ranked_mapM_widen? (priority : Nat) (s : Selection) (edits : List Edit) :
    List.map (Edit.ranked priority) <$> edits.mapM s.widen? =
      (edits.map (Edit.ranked priority)).mapM s.widen? := by
  induction edits with
  | nil => rfl
  | cons e rest ih =>
    rw [List.map_cons, List.mapM_cons, List.mapM_cons, ← ih, widen?_ranked]
    cases s.widen? e with
    | error fault => rfl
    | ok first => cases rest.mapM s.widen? <;> rfl

/-- Up to the indices of the expressions, a rule makes the same edits at once without its idle
expressions. -/
theorem acceptedEdits_active (lang : Language) (r : SimpleRule) (p : Phrase) :
    List.map (Edit.ranked 0) <$> r.active.acceptedEdits lang p =
      List.map (Edit.ranked 0) <$> r.acceptedEdits lang p := by
  have hfrom (q : Phrase) : List.map (Edit.ranked 0) <$> acceptFrom lang q 0 [] r.active.expressions
      = List.map (Edit.ranked 0) <$> acceptFrom lang q 0 [] r.expressions :=
    acceptFrom_active lang q r.expressions 0 0 rfl
  rw [acceptedEdits, acceptedEdits, show r.active.selection? lang p = r.selection? lang p from rfl]
  cases r.selection? lang p with
  | error fault => rfl
  | ok seen =>
    cases seen with
    | none =>
      refine map_bind_congr (fun edits ↦ ?_) (hfrom p)
      exact congrArg Except.ok (map_ranked_byPosition 0 edits)
    | some s =>
      refine map_bind_congr (fun edits ↦ ?_) (hfrom s.phrase)
      rw [map_ranked_mapM_widen?, map_ranked_byPosition]

/-- A rule that applies its expressions at once does the same without the idle ones. -/
theorem applyAtOnce_active (lang : Language) (r : SimpleRule) (p : Phrase) :
    r.active.applyAtOnce lang p = r.applyAtOnce lang p := by
  have hsame := acceptedEdits_active lang r p
  cases hactive : r.active.acceptedEdits lang p with
  | error fault =>
    cases hall : r.acceptedEdits lang p with
    | error fault' =>
      rw [hactive, hall] at hsame
      cases hsame
      rw [applyAtOnce, applyAtOnce, hactive, hall]
    | ok edits =>
      rw [hactive, hall] at hsame
      cases hsame
  | ok edits =>
    rw [hactive] at hsame
    obtain ⟨edits', hall, hranked⟩ := map_eq_ok_iff.mp hsame.symm
    exact applyAtOnce_congr hactive hall hranked.symm

end Accepting

section Best

/-- The better one of two edits, if there are two; the one that was found first of equals. -/
def betterOf (better : Edit → Edit → Bool) : Option Edit → Option Edit → Option Edit
  | some b, some found => some (if better found b then found else b)
  | none, found => found
  | some b, none => some b

/-- The best edit is found by comparing offers in turn. -/
theorem bestEdit?_eq (better : Edit → Edit → Bool)
    (offer : Expression → Nat → Except Fault (Option Edit)) (expressions : List Expression) :
    bestEdit? better offer expressions = expressions.zipIdx.foldlM (fun best entry ↦
      betterOf better best <$> offer entry.1 entry.2) none := by
  rw [bestEdit?]
  congr 1
  funext best entry
  obtain ⟨e, priority⟩ := entry
  dsimp only
  cases offer e priority with
  | error fault => cases best <;> rfl
  | ok found => cases best <;> cases found <;> rfl

variable (better : Edit → Edit → Bool)
  (hbetter : ∀ a b, better (a.ranked 0) (b.ranked 0) = better a b)
include hbetter

/-- Which of two edits is better does not depend on their indices. -/
theorem map_ranked_betterOf (best found : Option Edit) :
    (betterOf better best found).map (Edit.ranked 0) =
      betterOf better (best.map (Edit.ranked 0)) (found.map (Edit.ranked 0)) := by
  cases best with
  | none => rfl
  | some b =>
    cases found with
    | none => rfl
    | some f =>
      show some (Edit.ranked 0 (if better f b then f else b)) =
        some (if better (f.ranked 0) (b.ranked 0) then f.ranked 0 else b.ranked 0)
      rw [hbetter]
      split <;> rfl

/-- Up to the indices of the expressions, idle expressions do not change which edit is best. -/
theorem bestEdit?_active {offer : Expression → Nat → Except Fault (Option Edit)}
    (hoffer : ∀ e i j, offer e i = Option.map (Edit.ranked i) <$> offer e j)
    (hidle : ∀ e : Expression, e.isIdle → ∀ i, offer e i = .ok none)
    (expressions : List Expression) :
    Option.map (Edit.ranked 0) <$> bestEdit? better offer (Expression.active expressions) =
      Option.map (Edit.ranked 0) <$> bestEdit? better offer expressions := by
  rw [bestEdit?_eq, bestEdit?_eq]
  have hfold (i j : Nat) (best best' : Option Edit)
      (h : best.map (Edit.ranked 0) = best'.map (Edit.ranked 0)) :
      Option.map (Edit.ranked 0) <$> ((Expression.active expressions).zipIdx i).foldlM
          (fun best entry ↦ betterOf better best <$> offer entry.1 entry.2) best =
        Option.map (Edit.ranked 0) <$> (expressions.zipIdx j).foldlM
          (fun best entry ↦ betterOf better best <$> offer entry.1 entry.2) best' := by
    induction expressions generalizing i j best best' with
    | nil => exact congrArg Except.ok h
    | cons e rest ih =>
      cases he : e.isIdle with
      | true =>
        rw [Expression.active_cons_of_isIdle he, List.zipIdx_cons, List.foldlM_cons, hidle e he]
        have hkeeps : betterOf better best' none = best' := by cases best' <;> rfl
        refine ih i (j + 1) best _ (h.trans ?_)
        rw [hkeeps]
      | false =>
        rw [Expression.active_cons_of_not_isIdle he, List.zipIdx_cons, List.zipIdx_cons,
          List.foldlM_cons, List.foldlM_cons, hoffer e i j]
        cases offer e j with
        | error fault => rfl
        | ok found =>
          refine ih (i + 1) (j + 1) _ _ ?_
          rw [map_ranked_betterOf better hbetter, map_ranked_betterOf better hbetter, h, Option.map_map]
          rfl
  exact hfold 0 0 none none rfl

end Best

section Directions

variable (lang : Language) (r : SimpleRule)

private theorem map_ranked_widened (s : Selection) (e : Edit) :
    Option.map (Edit.ranked 0) <$> (do return some (← s.widen? e) : Except Fault (Option Edit)) =
      (do return some (← s.widen? (e.ranked 0))) := by
  rw [widen?_ranked]
  cases s.widen? e <;> rfl

/-- Up to the indices of the expressions, the next edit is the same without idle expressions. -/
theorem nextEdit?_active (p : Phrase) (cursor : Position) :
    Option.map (Edit.ranked 0) <$> r.active.nextEdit? lang p cursor =
      Option.map (Edit.ranked 0) <$> r.nextEdit? lang p cursor := by
  have hbest (q : Phrase) (i : Position) := bestEdit?_active
    (fun a b ↦ a.start < b.start) (fun _ _ ↦ rfl)
    (fun e priority priority' ↦ e.firstEdit?_ranked lang priority priority' q i)
    (fun _ he ↦ Expression.firstEdit?_of_isIdle he q i) r.expressions
  rw [nextEdit?, nextEdit?, show r.active.selection? lang p = r.selection? lang p from rfl]
  cases r.selection? lang p with
  | error fault => rfl
  | ok seen =>
    cases seen with
    | none => exact hbest p cursor
    | some s =>
      show Option.map (Edit.ranked 0) <$> (if !p.isPosition cursor then _ else _) =
        Option.map (Edit.ranked 0) <$> (if !p.isPosition cursor then _ else _)
      split
      · rfl
      · refine map_bind_congr (fun found ↦ ?_) (hbest s.phrase (s.narrow cursor))
        cases found with
        | none => rfl
        | some e => exact map_ranked_widened s e

/-- Up to the indices of the expressions, the previous edit is the same without idle
expressions. -/
theorem previousEdit?_active (p : Phrase) (limit : Option Position) :
    Option.map (Edit.ranked 0) <$> r.active.previousEdit? lang p limit =
      Option.map (Edit.ranked 0) <$> r.previousEdit? lang p limit := by
  have hbest (q : Phrase) (limit : Option Position) := bestEdit?_active
    (fun a b ↦ b.start < a.start) (fun _ _ ↦ rfl)
    (fun e priority priority' ↦ e.lastEdit?_ranked lang priority priority' q limit)
    (fun _ he ↦ Expression.lastEdit?_of_isIdle he q limit) r.expressions
  rw [previousEdit?, previousEdit?,
    show r.active.selection? lang p = r.selection? lang p from rfl]
  cases r.selection? lang p with
  | error fault => rfl
  | ok seen =>
    cases seen with
    | none => exact hbest p limit
    | some s =>
      show Option.map (Edit.ranked 0) <$> (if !limit.all p.isPosition then _ else _) =
        Option.map (Edit.ranked 0) <$> (if !limit.all p.isPosition then _ else _)
      split
      · rfl
      · refine map_bind_congr (fun found ↦ ?_) (hbest s.phrase (limit.map s.narrow))
        cases found with
        | none => rfl
        | some e => exact map_ranked_widened s e

/-- Computations that look at an edit but not at its index have the same results if the edits are
the same up to their indices. -/
theorem bind_congr_of_ranked {α : Type} {f : Option Edit → Except Fault α}
    (hf : ∀ found, f (found.map (Edit.ranked 0)) = f found) {x y : Except Fault (Option Edit)}
    (h : Option.map (Edit.ranked 0) <$> x = Option.map (Edit.ranked 0) <$> y) :
    x >>= f = y >>= f := by
  have hranked (x : Except Fault (Option Edit)) :
      Option.map (Edit.ranked 0) <$> x >>= f = x >>= f := by
    cases x with
    | error fault => rfl
    | ok found => exact hf found
  rw [← hranked x, h, hranked y]

/-- A round from the left is the same without idle expressions. -/
theorem forwardsRound_active (p : Phrase) (cursor : Position) :
    r.active.forwardsRound lang p cursor = r.forwardsRound lang p cursor := by
  refine bind_congr_of_ranked (fun found ↦ ?_) (nextEdit?_active lang r p cursor)
  cases found <;> rfl

/-- A round from the right is the same without idle expressions. -/
theorem backwardsRound_active (p : Phrase) (limit : Option Position) :
    r.active.backwardsRound lang p limit = r.backwardsRound lang p limit := by
  refine bind_congr_of_ranked (fun found ↦ ?_) (previousEdit?_active lang r p limit)
  cases found <;> rfl

/-- Rounds from the left are the same without idle expressions. -/
theorem forwardsFrom_active (n : Nat) (p : Phrase) (cursor : Option Position) :
    r.active.forwardsFrom lang n p cursor = r.forwardsFrom lang n p cursor := by
  induction n generalizing p cursor with
  | zero => cases cursor <;> rfl
  | succ n ih =>
    cases cursor with
    | none => rfl
    | some cursor => simp only [forwardsFrom, forwardsRound_active, ih]

/-- Rounds from the right are the same without idle expressions. -/
theorem backwardsFrom_active (n : Nat) (p : Phrase) (limit : Position) :
    r.active.backwardsFrom lang n p limit = r.backwardsFrom lang n p limit := by
  induction n generalizing p limit with
  | zero => rfl
  | succ n ih => simp only [backwardsFrom, backwardsRound_active, ih]

/-- A rule does the same without its idle expressions, whatever its mode. -/
theorem apply_active (p : Phrase) : r.active.apply lang p = r.apply lang p := by
  have hforwards : r.active.applyForwards lang p = r.applyForwards lang p := by
    simp only [applyForwards, forwardsRound_active, forwardsFrom_active]
  have hbackwards : r.active.applyBackwards lang p = r.applyBackwards lang p := by
    simp only [applyBackwards, backwardsRound_active, backwardsFrom_active]
  rw [apply, apply, applyAtOnce_active, hforwards, hbackwards]
  rfl

/-- Rules with the same active expressions do the same. -/
theorem apply_eq_of_active_eq {expressions expressions' : List Expression}
    (h : Expression.active expressions = Expression.active expressions') (p : Phrase) :
    { r with expressions }.apply lang p = { r with expressions := expressions' }.apply lang p := by
  rw [← apply_active lang { r with expressions }, ← apply_active lang { r with expressions := _ }]
  simp only [active, h]

end Directions

end SimpleRule

end Diachrony
