import Diachrony.Change.Rule
import Diachrony.Proofs.Language.Limits

/-!
# Rules under greater limits

A rule that gives a result gives the same one under greater limits. Every search that the rule makes
starts with its whole budget, a fault of a search is a fault of the rule, and a rule that settles
within a number of steps settles within a greater number.
-/

namespace Diachrony

variable {limits limits' : Limits} (h : limits ≤ limits') (lang : Language)

namespace Expression

variable (e : Expression)
include h

/-- Whether a position is excluded does not change under greater limits. -/
theorem isExcluded_persists (scan : Scan) (start : Position) :
    Persists (e.isExcluded (lang.withLimits limits) scan start)
      (e.isExcluded (lang.withLimits limits') scan start) := by
  rw [isExcluded, isExcluded]
  split
  · exact .refl _
  · exact (Candidates.first?_persists h lang _ _).bind fun _ ↦ .refl _

/-- The open positions do not change under greater limits. -/
theorem openPositions_persists (scan : Scan) :
    Persists (e.openPositions (lang.withLimits limits) scan)
      (e.openPositions (lang.withLimits limits') scan) :=
  .filterM _ fun start ↦ (e.isExcluded_persists h lang scan start).bind fun _ ↦ .refl _

/-- The edit at a position does not change under greater limits. -/
theorem editUnder_persists (scan : Scan) (limit : Option Position) (priority : Nat)
    (start : Position) (conditions : List Surroundings) :
    Persists (e.editUnder (lang.withLimits limits) scan limit priority start conditions)
      (e.editUnder (lang.withLimits limits') scan limit priority start conditions) := by
  induction conditions with
  | nil => exact .refl _
  | cons condition rest ih =>
    rw [editUnder, editUnder]
    refine (Candidates.first?_persists h lang _ _).bind fun found ↦ ?_
    cases found with
    | none => exact ih
    | some m => exact .refl _

/-- The edits of one pass do not change under greater limits. -/
theorem editsFrom_persists (scan : Scan) (priority : Nat) (cursor : Position)
    (positions : List Position) :
    Persists (e.editsFrom (lang.withLimits limits) scan priority cursor positions)
      (e.editsFrom (lang.withLimits limits') scan priority cursor positions) := by
  induction positions generalizing cursor with
  | nil => exact .refl _
  | cons start rest ih =>
    rw [editsFrom, editsFrom]
    split
    · exact ih cursor
    · refine (e.editUnder_persists h lang scan none priority start e.settings).bind fun found ↦ ?_
      cases found with
      | none => exact ih cursor
      | some edit => exact (ih edit.stop).bind fun _ ↦ .refl _

/-- The edits of a pass over a phrase do not change under greater limits. -/
theorem edits_persists (p : Phrase) (priority : Nat) :
    Persists (e.edits (lang.withLimits limits) p priority)
      (e.edits (lang.withLimits limits') p priority) :=
  (e.openPositions_persists h lang _).bind fun positions ↦
    e.editsFrom_persists h lang _ priority p.start positions

/-- The edit at the first of some positions does not change under greater limits. -/
theorem firstAmong_persists (scan : Scan) (limit : Option Position) (priority : Nat)
    (positions : List Position) :
    Persists (e.firstAmong (lang.withLimits limits) scan limit priority positions)
      (e.firstAmong (lang.withLimits limits') scan limit priority positions) := by
  induction positions with
  | nil => exact .refl _
  | cons start rest ih =>
    rw [firstAmong, firstAmong]
    refine (e.editUnder_persists h lang scan limit priority start e.settings).bind fun found ↦ ?_
    cases found with
    | none => exact ih
    | some edit => exact .refl _

/-- The first edit from a position on does not change under greater limits. -/
theorem firstEdit?_persists (p : Phrase) (start : Position) (priority : Nat) :
    Persists (e.firstEdit? (lang.withLimits limits) p start priority)
      (e.firstEdit? (lang.withLimits limits') p start priority) :=
  (e.openPositions_persists h lang _).bind fun _ ↦ e.firstAmong_persists h lang _ none priority _

/-- The last edit before a limit does not change under greater limits. -/
theorem lastEdit?_persists (p : Phrase) (limit : Option Position) (priority : Nat) :
    Persists (e.lastEdit? (lang.withLimits limits) p limit priority)
      (e.lastEdit? (lang.withLimits limits') p limit priority) :=
  (e.openPositions_persists h lang _).bind fun _ ↦ e.firstAmong_persists h lang _ limit priority _

end Expression

namespace Selection

include h

/-- What a filter leaves of a phrase does not change under greater limits. -/
theorem of_persists (filter : Pattern) (p : Phrase) :
    Persists (Selection.of (lang.withLimits limits) filter p)
      (Selection.of (lang.withLimits limits') filter p) := by
  have haccepts (scan : Scan) (start : Position) :
      Persists (accepts (lang.withLimits limits) filter scan start)
        (accepts (lang.withLimits limits') filter scan start) :=
    (Candidates.first?_persists h lang _ _).bind fun _ ↦ .refl _
  refine (Persists.mapM _ ?_).bind fun kept ↦ .refl _
  exact fun (word, w) ↦ .filterM _ fun i ↦ haccepts (.of p) ⟨w, i⟩

end Selection

namespace SimpleRule

variable (r : SimpleRule)

section Offering

variable {offer offer' : Expression → Nat → Except Fault (Option Edit)}

/-- The best edit persists if the edits that are offered do. -/
theorem bestEdit?_persists (better : Edit → Edit → Bool)
    (hoffer : ∀ e priority, Persists (offer e priority) (offer' e priority))
    (expressions : List Expression) :
    Persists (bestEdit? better offer expressions) (bestEdit? better offer' expressions) :=
  .foldlM _ none fun _ (e, priority) ↦ (hoffer e priority).bind fun _ ↦ .refl _

end Offering

include h

/-- What a rule sees does not change under greater limits. -/
theorem selection?_persists (p : Phrase) :
    Persists (r.selection? (lang.withLimits limits) p)
      (r.selection? (lang.withLimits limits') p) := by
  rw [selection?, selection?]
  split
  · exact (Selection.of_persists h lang _ p).map some
  · exact .refl _

/-- Which edits are accepted does not change under greater limits. -/
theorem acceptFrom_persists (p : Phrase) (priority : Nat) (accepted : List Edit)
    (expressions : List Expression) :
    Persists (acceptFrom (lang.withLimits limits) p priority accepted expressions)
      (acceptFrom (lang.withLimits limits') p priority accepted expressions) := by
  induction expressions generalizing priority accepted with
  | nil => exact .refl _
  | cons e rest ih => exact (e.edits_persists h lang p priority).bind fun _ ↦ ih _ _

/-- What a rule makes of a phrase at once does not change under greater limits. -/
theorem applyAtOnce_persists (p : Phrase) :
    Persists (r.applyAtOnce (lang.withLimits limits) p)
      (r.applyAtOnce (lang.withLimits limits') p) := by
  have haccepted : Persists (r.acceptedEdits (lang.withLimits limits) p)
      (r.acceptedEdits (lang.withLimits limits') p) := by
    refine (r.selection?_persists h lang p).bind fun seen ↦ ?_
    cases seen with
    | none => exact (acceptFrom_persists h lang p 0 [] r.expressions).bind fun _ ↦ .refl _
    | some s => exact (acceptFrom_persists h lang s.phrase 0 [] r.expressions).bind fun _ ↦ .refl _
  refine haccepted.bind fun edits ↦ ?_
  cases edits with
  | nil => exact .refl _
  | cons e rest => exact .refl _

/-- The next change from the left does not change under greater limits. -/
theorem forwardsRound_persists (p : Phrase) (cursor : Position) :
    Persists (r.forwardsRound (lang.withLimits limits) p cursor)
      (r.forwardsRound (lang.withLimits limits') p cursor) := by
  have hnext : Persists (r.nextEdit? (lang.withLimits limits) p cursor)
      (r.nextEdit? (lang.withLimits limits') p cursor) := by
    refine (r.selection?_persists h lang p).bind fun seen ↦ ?_
    cases seen with
    | none => exact bestEdit?_persists _ (fun e ↦ e.firstEdit?_persists h lang p cursor) _
    | some s =>
      dsimp only
      split
      · exact .refl _
      · refine (bestEdit?_persists _ (fun e ↦ e.firstEdit?_persists h lang s.phrase _) _).bind
          fun found ↦ ?_
        cases found with
        | none => exact .refl _
        | some e => exact .refl _
  refine hnext.bind fun found ↦ ?_
  cases found with
  | none => exact .refl _
  | some e => exact .refl _

/-- What a rule makes of a phrase from the left does not change under greater limits. -/
theorem applyForwards_persists (p : Phrase) :
    Persists (r.applyForwards (lang.withLimits limits) p)
      (r.applyForwards (lang.withLimits limits') p) := by
  have hfrom (n : Nat) (q : Phrase) (cursor : Option Position) :
      Persists (r.forwardsFrom (lang.withLimits limits) n q cursor)
        (r.forwardsFrom (lang.withLimits limits') n q cursor) := by
    induction n generalizing q cursor with
    | zero =>
      cases cursor with
      | none => exact .refl _
      | some _ => exact .refl _
    | succ n ih =>
      cases cursor with
      | none => exact .refl _
      | some cursor =>
        refine (r.forwardsRound_persists h lang q cursor).bind fun found ↦ ?_
        cases found with
        | none => exact .refl _
        | some next => exact ih next.1 next.2
  refine (r.forwardsRound_persists h lang p p.start).bind fun found ↦ ?_
  cases found with
  | none => exact .refl _
  | some next => exact (hfrom _ next.1 next.2).bind fun _ ↦ .refl _

/-- The next change from the right does not change under greater limits. -/
theorem backwardsRound_persists (p : Phrase) (limit : Option Position) :
    Persists (r.backwardsRound (lang.withLimits limits) p limit)
      (r.backwardsRound (lang.withLimits limits') p limit) := by
  have hprevious : Persists (r.previousEdit? (lang.withLimits limits) p limit)
      (r.previousEdit? (lang.withLimits limits') p limit) := by
    refine (r.selection?_persists h lang p).bind fun seen ↦ ?_
    cases seen with
    | none => exact bestEdit?_persists _ (fun e ↦ e.lastEdit?_persists h lang p limit) _
    | some s =>
      dsimp only
      split
      · exact .refl _
      · refine (bestEdit?_persists _ (fun e ↦ e.lastEdit?_persists h lang s.phrase _) _).bind
          fun found ↦ ?_
        cases found with
        | none => exact .refl _
        | some e => exact .refl _
  refine hprevious.bind fun found ↦ ?_
  cases found with
  | none => exact .refl _
  | some e => exact .refl _

/-- What a rule makes of a phrase from the right does not change under greater limits. -/
theorem applyBackwards_persists (p : Phrase) :
    Persists (r.applyBackwards (lang.withLimits limits) p)
      (r.applyBackwards (lang.withLimits limits') p) := by
  have hfrom (n : Nat) (q : Phrase) (limit : Position) :
      Persists (r.backwardsFrom (lang.withLimits limits) n q limit)
        (r.backwardsFrom (lang.withLimits limits') n q limit) := by
    induction n generalizing q limit with
    | zero => exact .refl _
    | succ n ih =>
      refine (r.backwardsRound_persists h lang q (some limit)).bind fun found ↦ ?_
      cases found with
      | none => exact .refl _
      | some next => exact ih next.1 next.2
  refine (r.backwardsRound_persists h lang p none).bind fun found ↦ ?_
  cases found with
  | none => exact .refl _
  | some next => exact (hfrom _ next.1 next.2).bind fun _ ↦ .refl _

/-- What a rule makes of a phrase does not change under greater limits. -/
theorem apply_persists (p : Phrase) :
    Persists (r.apply (lang.withLimits limits) p) (r.apply (lang.withLimits limits') p) := by
  rw [apply, apply]
  split
  · exact r.applyAtOnce_persists h lang p
  · exact r.applyForwards_persists h lang p
  · exact r.applyBackwards_persists h lang p

end SimpleRule

namespace Rule

section Combining

variable {step step' : Phrase → Except Fault (Option Phrase)}
  (hstep : ∀ p, Persists (step p) (step' p))
include hstep

/-- A step that settles within a number of rounds settles alike within a greater number. The states
that were seen decide when it settles, and not how many rounds are left. -/
theorem settle_persists (write : Phrase → String) (limit limit' : Nat) {n n' : Nat} (hn : n ≤ n')
    (seen : List String) (p : Phrase) :
    Persists (settle write limit step n seen p) (settle write limit' step' n' seen p) := by
  induction n generalizing n' seen p with
  | zero => exact .error
  | succ n ih =>
    obtain ⟨m, rfl⟩ : ∃ m, n' = m + 1 := ⟨n' - 1, by omega⟩
    rw [settle, settle]
    refine (hstep p).bind fun found ↦ ?_
    cases found with
    | none => exact .refl _
    | some q =>
      dsimp only
      split
      · exact .refl _
      · split
        · exact .error
        · exact ih (Nat.le_of_succ_le_succ hn) _ q

include h in
/-- A propagated step that settles settles alike under greater limits. -/
theorem propagated_persists (p : Phrase) :
    Persists (propagated (lang.withLimits limits) step p)
      (propagated (lang.withLimits limits') step' p) := by
  have hsteps := h.2
  rw [propagated, propagated]
  simp only [Language.limits_withLimits, Language.write_withLimits]
  cases hlimit : limits.maxPropagateSteps with
  | zero => exact .error
  | succ n =>
    obtain ⟨m, hm⟩ : ∃ m, limits'.maxPropagateSteps = m + 1 :=
      ⟨limits'.maxPropagateSteps - 1, by omega⟩
    rw [hm]
    refine (hstep p).bind fun found ↦ ?_
    cases found with
    | none => exact .refl _
    | some q =>
      refine .ite .rfl (.refl _) ?_
      exact (settle_persists hstep _ _ _ (by omega) _ q).bind fun _ ↦ .refl _

/-- A step that is applied to every word gives what the step gives. -/
theorem wordwise_persists (p : Phrase) : Persists (wordwise step p) (wordwise step' p) :=
  (Persists.mapM p.words fun word ↦ (hstep (.ofWord word)).bind fun _ ↦ .refl _).bind
    fun _ ↦ .refl _

include h in
/-- A step under a name gives what the step gives. -/
theorem underName_persists (name : String) (p : Phrase) :
    Persists (underName (lang.withLimits limits) name step p)
      (underName (lang.withLimits limits') name step' p) := by
  refine Persists.mapError ((hstep p).bind fun found ↦ ?_) _ _
  cases found with
  | none => exact .refl _
  | some q => exact (lang.syllabify_persists h q).bind fun _ ↦ .refl _

end Combining

mutual

/-- What a rule makes of a phrase does not change under greater limits. -/
theorem apply_persists {limits limits' : Limits} (h : limits ≤ limits') (lang : Language) :
    (rule : Rule) → (p : Phrase) →
      Persists (apply (lang.withLimits limits) rule p) (apply (lang.withLimits limits') rule p)
  | simple rule, p => rule.apply_persists h lang p
  | sequential rules, p => applyInTurn_persists h lang rules p
  | firstMatching rules, p => applyFirst_persists h lang rules p
  | withinWord rule, p => wordwise_persists (apply_persists h lang rule) p
  | propagate rule, p => propagated_persists h lang (apply_persists h lang rule) p
  | named name rule, p =>
    (underName_persists h lang (apply_persists h lang rule) name p).bind fun _ ↦ .refl _

/-- What rules in turn make of a phrase does not change under greater limits. -/
theorem applyInTurn_persists {limits limits' : Limits} (h : limits ≤ limits') (lang : Language) :
    (rules : List Rule) → (p : Phrase) →
      Persists (applyInTurn (lang.withLimits limits) rules p)
        (applyInTurn (lang.withLimits limits') rules p)
  | [], _ => .refl _
  | rule :: rest, p => by
    rw [applyInTurn, applyInTurn]
    refine (apply_persists h lang rule p).bind fun found ↦ ?_
    cases found with
    | none => exact applyInTurn_persists h lang rest p
    | some q => exact (applyInTurn_persists h lang rest q).bind fun _ ↦ .refl _

/-- What the first rule that fires makes of a phrase does not change under greater limits. -/
theorem applyFirst_persists {limits limits' : Limits} (h : limits ≤ limits') (lang : Language) :
    (rules : List Rule) → (p : Phrase) →
      Persists (applyFirst (lang.withLimits limits) rules p)
        (applyFirst (lang.withLimits limits') rules p)
  | [], _ => .refl _
  | rule :: rest, p => by
    rw [applyFirst, applyFirst]
    refine (apply_persists h lang rule p).bind fun found ↦ ?_
    cases found with
    | none => exact applyFirst_persists h lang rest p
    | some q => exact .refl _

end

end Rule

include h in
/-- What a rule of a program makes of a phrase does not change under greater limits. -/
theorem NamedRule.fire_persists (r : NamedRule) (p : Phrase) :
    Persists (r.fire (lang.withLimits limits) p) (r.fire (lang.withLimits limits') p) :=
  Rule.underName_persists h lang (r.rule.apply_persists h lang) r.name p

end Diachrony
