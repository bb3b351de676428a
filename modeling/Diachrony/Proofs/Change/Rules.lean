import Diachrony.Change.Rule
import Diachrony.Proofs.Change.AtOnce
import Diachrony.Proofs.Change.Directed
import Diachrony.Proofs.Language.Syllabify

/-!
# The faults of rules

A rule fails because of a mistake in the rules or the words, because an output that it made holds an
alternative without a partner, or because a pass from the left does not come to an end. The ways of
building rules from rules add nothing to that.
-/

namespace Diachrony

/-- A mistake is not the fault of a pass that does not come to an end. -/
theorem Fault.ne_stalled_of_isMistake (fault : Fault) (h : fault.isMistake) :
    fault ≠ Finder.stalled := by
  rintro rfl
  cases h

/-- The fault of an output is not that of a pass that does not come to an end. -/
theorem Output.produces_ne_stalled (o : Output) (inv : Inventory) :
    o.Produces (· ≠ Finder.stalled) inv := fun b pattern span ↦
  o.produce_ensures Fault.ne_stalled_of_isMistake inv b pattern span fun _ ↦ by decide

namespace SimpleRule

/-- Whether the faults of a rule that are no mistakes are allowed: alternatives without partners in
its outputs, and matches without anything that is replaced in a pass from the left. -/
structure Tolerated (allowed : Fault → Prop) (r : SimpleRule) : Prop where
  /-- An alternative without a partner. -/
  unpaired : ∀ e ∈ r.expressions, ∀ o ∈ e.pairing.outputs, o.holdsAlternative →
    allowed Output.unpaired
  /-- A pass that does not come to an end. -/
  stalled : r.mode = .leftToRight → ¬r.hasPieces → allowed Finder.stalled

variable {allowed : Fault → Prop} (hmistake : ∀ fault : Fault, fault.isMistake → allowed fault)
  (lang : Language) {r : SimpleRule}
include hmistake

/-- A rule that applies its expressions at once makes the edits that it accepts. -/
theorem applyAtOnce_ensures
    (houtputs : ∀ e ∈ r.expressions, ∀ o ∈ e.pairing.outputs, o.Produces allowed lang.inventory)
    (p : Phrase) : Ensures (fun _ ↦ True) allowed (r.applyAtOnce lang p) := by
  rw [applyAtOnce]
  refine (acceptedEdits_ensures hmistake lang houtputs p).bind fun edits hedits ↦ ?_
  obtain ⟨seen, claimed, accepted, hsettles⟩ := hedits
  cases edits with
  | nil => exact .ok trivial
  | cons e rest =>
    have hcursor := (@Splicing.foldlM_makeEdit_eq p { cursor := p.start } _ _ _
      Phrase.isPosition_start (le_refl _) hsettles.inOrder).2.1
    have hsplice : Ensures (fun _ ↦ True) allowed (p.splice lang.inventory (e :: rest)) := by
      rw [Phrase.splice_eq lang.inventory hsettles.inOrder]
      exact (Splicing.finish_ensures hmistake lang.inventory hcursor).bind fun _ _ ↦ .ok trivial
    exact hsplice.bind fun _ _ ↦ .ok trivial

/-- A rule fails only as it is tolerated. -/
theorem apply_ensures (h : r.Tolerated allowed) (p : Phrase) :
    Ensures (fun _ ↦ True) allowed (r.apply lang p) := by
  have houtputs : ∀ e ∈ r.expressions, ∀ o ∈ e.pairing.outputs,
      o.Produces allowed lang.inventory := fun e he o ho b pattern span ↦
    Output.produce_ensures hmistake lang.inventory b pattern span o (h.unpaired e he o ho)
  rw [apply]
  split
  · exact applyAtOnce_ensures hmistake lang houtputs p
  · next hmode => exact applyForwards_ensures hmistake lang houtputs (h.stalled hmode) p
  · exact applyBackwards_ensures hmistake lang houtputs p

end SimpleRule

namespace Rule

variable {allowed : Fault → Prop} (hmistake : ∀ fault : Fault, fault.isMistake → allowed fault)
  {step : Phrase → Except Fault (Option Phrase)}
  (hstep : ∀ p, Ensures (fun _ ↦ True) allowed (step p))

section Combining

include hmistake hstep

/-- A step that is applied until nothing changes fails as the step, or by not settling. -/
theorem settle_ensures (write : Phrase → String) (limit n : Nat) (seen : List String) (p : Phrase) :
    Ensures (fun _ ↦ True) allowed (settle write limit step n seen p) := by
  induction n generalizing seen p with
  | zero => exact .error (hmistake _ rfl)
  | succ n ih =>
    rw [settle]
    refine (hstep p).bind fun found _ ↦ ?_
    cases found with
    | none => exact .ok trivial
    | some q =>
      dsimp only
      split
      · exact .ok trivial
      · split
        · exact .error (hmistake _ rfl)
        · exact ih _ q

/-- A propagated step fails as the step, or by not settling. -/
theorem propagated_ensures (lang : Language) (p : Phrase) :
    Ensures (fun _ ↦ True) allowed (propagated lang step p) := by
  rw [propagated]
  dsimp only
  split
  · exact .error (hmistake _ rfl)
  · next n _ =>
    refine (hstep p).bind fun found _ ↦ ?_
    cases found with
    | none => exact .ok trivial
    | some q =>
      dsimp only
      split
      · exact .ok trivial
      · exact (settle_ensures hmistake hstep _ _ n _ q).bind fun _ _ ↦ .ok trivial

omit hmistake in
/-- A step that is applied to every word fails as the step. -/
theorem wordwise_ensures (p : Phrase) :
    Ensures (fun _ ↦ True) allowed (wordwise step p) := by
  rw [wordwise]
  have hwords : Ensures (fun _ ↦ True) allowed
      (p.words.mapM fun word ↦ do return (word, ← step (.ofWord word))) :=
    .forM fun word _ ↦ (hstep (.ofWord word)).bind fun _ _ ↦ .ok trivial
  refine hwords.bind fun results _ ↦ ?_
  split
  · exact .ok trivial
  · exact .ok trivial

/-- A step under a name fails as the step or by mistake, inside of the name. -/
theorem underName_ensures (hinside : ∀ name fault, allowed fault → allowed (fault.inside name))
    (lang : Language) (name : String) (p : Phrase) :
    Ensures (fun _ ↦ True) allowed (underName lang name step p) := by
  rw [underName]
  refine Ensures.mapError ((hstep p).bind fun found _ ↦ ?_) (hinside name)
  cases found with
  | none => exact .ok trivial
  | some q => exact (lang.syllabify_ensures hmistake q).bind fun _ _ ↦ .ok trivial

end Combining

mutual

/-- A rule fails only as its simple rules are tolerated. -/
theorem apply_ensures {allowed : Fault → Prop}
    (hmistake : ∀ fault : Fault, fault.isMistake → allowed fault)
    (hinside : ∀ name fault, allowed fault → allowed (fault.inside name)) (lang : Language) :
    (rule : Rule) → (∀ r ∈ rule.simpleRules, r.Tolerated allowed) → (p : Phrase) →
      Ensures (fun _ ↦ True) allowed (apply lang rule p)
  | simple rule, h, p => rule.apply_ensures hmistake lang (h rule (List.mem_singleton_self rule)) p
  | sequential rules, h, p => applyInTurn_ensures hmistake hinside lang rules h p
  | firstMatching rules, h, p => applyFirst_ensures hmistake hinside lang rules h p
  | withinWord rule, h, p => wordwise_ensures (apply_ensures hmistake hinside lang rule h) p
  | propagate rule, h, p =>
    propagated_ensures hmistake (apply_ensures hmistake hinside lang rule h) lang p
  | named name rule, h, p => by
    have hrule := apply_ensures hmistake hinside lang rule h
    exact (underName_ensures hmistake hrule hinside lang name p).bind fun _ _ ↦ .ok trivial

/-- Rules one after the other fail only as their simple rules are tolerated. -/
theorem applyInTurn_ensures {allowed : Fault → Prop}
    (hmistake : ∀ fault : Fault, fault.isMistake → allowed fault)
    (hinside : ∀ name fault, allowed fault → allowed (fault.inside name)) (lang : Language) :
    (rules : List Rule) → (∀ r ∈ simpleRulesOf rules, r.Tolerated allowed) → (p : Phrase) →
      Ensures (fun _ ↦ True) allowed (applyInTurn lang rules p)
  | [], _, _ => .ok trivial
  | rule :: rest, h, p => by
    rw [simpleRulesOf, List.forall_mem_append] at h
    rw [applyInTurn]
    refine (apply_ensures hmistake hinside lang rule h.1 p).bind fun found _ ↦ ?_
    cases found with
    | none => exact applyInTurn_ensures hmistake hinside lang rest h.2 p
    | some q =>
      exact (applyInTurn_ensures hmistake hinside lang rest h.2 q).bind fun _ _ ↦ .ok trivial

/-- The first rule that fires fails only as its simple rules are tolerated. -/
theorem applyFirst_ensures {allowed : Fault → Prop}
    (hmistake : ∀ fault : Fault, fault.isMistake → allowed fault)
    (hinside : ∀ name fault, allowed fault → allowed (fault.inside name)) (lang : Language) :
    (rules : List Rule) → (∀ r ∈ simpleRulesOf rules, r.Tolerated allowed) → (p : Phrase) →
      Ensures (fun _ ↦ True) allowed (applyFirst lang rules p)
  | [], _, _ => .ok trivial
  | rule :: rest, h, p => by
    rw [simpleRulesOf, List.forall_mem_append] at h
    rw [applyFirst]
    refine (apply_ensures hmistake hinside lang rule h.1 p).bind fun found _ ↦ ?_
    cases found with
    | none => exact applyFirst_ensures hmistake hinside lang rest h.2 p
    | some q => exact .ok trivial

end

end Rule

/-- A rule of a program fails only as its simple rules are tolerated. -/
theorem NamedRule.fire_ensures {allowed : Fault → Prop}
    (hmistake : ∀ fault : Fault, fault.isMistake → allowed fault)
    (hinside : ∀ name fault, allowed fault → allowed (fault.inside name)) (lang : Language)
    {r : NamedRule} (h : ∀ s ∈ r.rule.simpleRules, s.Tolerated allowed) (p : Phrase) :
    Ensures (fun _ ↦ True) allowed (r.fire lang p) :=
  Rule.underName_ensures hmistake (r.rule.apply_ensures hmistake hinside lang h) hinside lang r.name
    p

end Diachrony
