import Diachrony.Pipeline.Course
import Diachrony.Proofs.Change.Firing

/-!
# What moves make of a phrase

A move takes a phrase to another one, but a record leaves it as it was, if the word can be recorded.
The names of rules and the log of a word have no part in that, and a rule only has one through what
it makes of a phrase. So moves are alike if they take every phrase to the same one or fail on it.
-/

namespace Diachrony

namespace Move

/-- What the move leaves of a phrase. -/
def outcome (p : Phrase) (move : Move) : Except Fault Phrase :=
  match move with
  | record .. => (fun _ ↦ p) <$> move.result p
  | apply .. | divide _ => move.result p

/-- What moves leave of a phrase one after the other. -/
def outcomes (moves : List Move) (p : Phrase) : Except Fault Phrase := moves.foldlM outcome p

/-- Of a phrase is left what is left of the first part of the moves by the second part. -/
theorem outcomes_append (moves others : List Move) (p : Phrase) :
    outcomes (moves ++ others) p = outcomes moves p >>= outcomes others :=
  List.foldlM_append

/-- Whether lists of moves leave the same of every phrase or fail on it. -/
def Alike (moves moves' : List Move) : Prop := ∀ p, Agree (outcomes moves p) (outcomes moves' p)

namespace Alike

variable {moves moves' others others' : List Move}

/-- Moves are like themselves. -/
theorem refl (moves : List Move) : Alike moves moves := fun _ ↦ .refl _

/-- Moves in two parts. -/
theorem append (h : Alike moves moves') (h' : Alike others others') :
    Alike (moves ++ others) (moves' ++ others') := by
  intro p
  rw [outcomes_append, outcomes_append]
  exact (h p).bind h'

/-- Single moves. -/
theorem singleton {move move' : Move} (h : ∀ p, Agree (outcome p move) (outcome p move')) :
    Alike [move] [move'] := by
  intro p
  simpa [outcomes] using h p

end Alike

end Move

/-- The log of a word and what the word was have no part in what moves leave of it. -/
theorem runMoves_agree (given : String) (moves : List Move) (p : Phrase) (log : Log) :
    Agree (runMoves given moves p log).1 (Move.outcomes moves p) := by
  induction moves generalizing p log with
  | nil => exact .refl _
  | cons move rest ih =>
    rw [runMoves, Move.outcomes, List.foldlM_cons]
    cases move with
    | apply _ _ | divide _ =>
      rw [Move.outcome]
      split
      · next fault hresult =>
        rw [hresult]
        exact .error
      · next q hresult =>
        rw [hresult]
        exact ih q _
    | record _ _ _ =>
      rw [Move.outcome]
      split
      · next fault hresult =>
        rw [hresult]
        exact .error
      · next q hresult =>
        rw [hresult]
        exact ih p _

/-- A word comes to the form that the last language of a plan writes of what the moves leave. -/
theorem Plan.run_agree (plan : Plan) (initial : Language) (word : String) :
    Agree (plan.run initial word).1
      (plan.language.write <$> Move.outcomes plan.moves (initial.read word)) := by
  exact (runMoves_agree word plan.moves (initial.read word) {}).map _

/-- Plans whose moves are alike bring every word to the same form. -/
theorem Plan.run_agree_of_alike {moves moves' : List Move} (h : Move.Alike moves moves')
    (language initial : Language) (word : String) :
    Agree ((Plan.mk moves language).run initial word).1
      ((Plan.mk moves' language).run initial word).1 :=
  have hafter := run_agree ⟨moves', language⟩ initial word
  (run_agree _ _ word).trans (((h _).map _).trans hafter.symm)

/-- Whether rules have the same name and make the same of every phrase. -/
def NamedRule.Alike (lang : Language) (r s : NamedRule) : Prop :=
  r.name = s.name ∧ Rule.WritesLike lang r.rule s.rule

/-- Whether rules have the same name and act alike under it in all languages of a kind. -/
def NamedRule.StandsLike (admissible : Language → Prop) (r s : NamedRule) : Prop :=
  s.name = r.name ∧ ∀ lang, admissible lang → Rule.StandsLike lang r.rule s.rule

section Standing

variable {admissible : Language → Prop} {lang : Language} (hlang : admissible lang)
  {r s : NamedRule}
include hlang

/-- Rules that act alike under their name make the same of every phrase. -/
theorem NamedRule.StandsLike.applied_agree (h : r.StandsLike admissible s) (p : Phrase) :
    Agree (Move.applied lang r p) (Move.applied lang s p) := by
  have hstands := h.2 lang hlang r.name p
  rw [Rule.apply_named, Rule.apply_named, Rule.surely, Rule.surely] at hstands
  rw [Move.applied, Move.applied, NamedRule.fire, NamedRule.fire, h.1]
  exact hstands.of_map fun _ _ ↦ Option.some.inj

/-- Rules that act alike under their name are alike as moves. -/
theorem Move.Alike.apply_of_standsLike (h : r.StandsLike admissible s) :
    Alike [.apply lang r] [.apply lang s] := .singleton (h.applied_agree hlang)

/-- Rules that act alike under their name are alike as records. -/
theorem Move.Alike.record_of_standsLike (h : r.StandsLike admissible s) (romanize : Bool) :
    Alike [.record lang r romanize] [.record lang s romanize] := by
  refine .singleton fun p ↦ ?_
  simp only [outcome, result]
  split
  · exact (h.applied_agree hlang p).map _
  · exact .refl _

/-- Rules that act alike under their names one by one are alike one after the other. -/
theorem Move.Alike.map_apply_of_standsLike {rules rules' : List NamedRule}
    (h : List.Forall₂ (NamedRule.StandsLike admissible) rules rules') :
    Alike (rules.map (.apply lang)) (rules'.map (.apply lang)) := by
  induction h with
  | nil => exact .refl _
  | cons hfirst _ ih => exact (apply_of_standsLike hlang hfirst).append ih

end Standing

section Applied

variable {lang : Language} (hlang : lang.syllabifier = none) {r s : NamedRule}
include hlang

/-- A rule of a program makes what the rule makes without its name. -/
theorem Move.applied_agree (r : NamedRule) (p : Phrase) :
    Agree (applied lang r p) (Rule.outcome (r.rule.apply lang) p) := by
  refine Agree.trans (.of_eq ?_) ((Rule.underName_agree hlang r.name p).map (·.getD p))
  rw [applied, NamedRule.fire]
  cases Rule.underName lang r.name (r.rule.apply lang) p with
  | error fault => rfl
  | ok found => rfl

/-- Rules that write alike are alike as moves. -/
theorem Move.Alike.apply (h : Rule.WritesLike lang r.rule s.rule) :
    Alike [.apply lang r] [.apply lang s] :=
  .singleton fun p ↦ (applied_agree hlang r p).trans ((h p).trans (applied_agree hlang s p).symm)

/-- Rules that write alike one by one are alike one after the other. -/
theorem Move.Alike.map_apply {rules rules' : List NamedRule}
    (h : List.Forall₂ (fun r s ↦ Rule.WritesLike lang r.rule s.rule) rules rules') :
    Alike (rules.map (.apply lang)) (rules'.map (.apply lang)) := by
  induction h with
  | nil => exact .refl _
  | cons hfirst _ ih => exact (Alike.apply hlang hfirst).append ih

end Applied

end Diachrony
