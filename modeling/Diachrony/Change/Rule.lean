import Diachrony.Language.Syllabify
import Diachrony.Change.SimpleRule

/-!
# Rules

Rules are built from simple rules: one after the other, the first that fires, word by word, or again
and again until nothing changes. A rule that does not fire is told apart from one that fires and
leaves the phrase as it was.

A named rule divides the words of its result into syllables, and faults inside it name it.
-/

namespace Diachrony

/-- A rule or a block of rules. -/
inductive Rule where
  /-- Expressions that are applied together. -/
  | simple (rule : SimpleRule)
  /-- Every rule in turn; it fires if one of them does. -/
  | sequential (rules : List Rule)
  /-- The first rule that fires. -/
  | firstMatching (rules : List Rule)
  /-- A rule applied to every word by itself. -/
  | withinWord (rule : Rule)
  /-- A rule applied until nothing changes. -/
  | propagate (rule : Rule)
  /-- A rule with a name. -/
  | named (name : String) (rule : Rule)

instance : Inhabited Rule := ⟨.sequential []⟩

namespace Rule

/-- Number of states that are shown when a propagating rule does not settle. -/
def shownStates : Nat := 5

/-- The fault of a propagating rule that does not settle, with the last of the states it went
through, given from the last one back. -/
def unsettled (limit : Nat) (cycle : Bool) (seen : List String) : Fault :=
  .of (.limitExceeded (.divergingPropagation limit cycle (seen.take shownStates).reverse))

/-- Applies a step a number of times at most, until it does not fire or what is written stays the
same. `seen` holds what was written before, the last one first. -/
def settle (write : Phrase → String) (limit : Nat) (step : Phrase → Except Fault (Option Phrase)) :
    Nat → List String → Phrase → Except Fault Phrase
  | 0, seen, _ => throw (unsettled limit false seen)
  | n + 1, seen, p => do
    match ← step p with
    | none => return p
    | some q =>
      let written := write q
      if seen.head? = some written then return q
      else if seen.contains written then throw (unsettled limit true (written :: seen))
      else settle write limit step n (written :: seen) q

/-- Applies a step until nothing changes, within the bound of the language. -/
def propagated (lang : Language) (step : Phrase → Except Fault (Option Phrase)) (p : Phrase) :
    Except Fault (Option Phrase) := do
  let limit := lang.limits.maxPropagateSteps
  match limit with
  | 0 => throw (unsettled limit false [lang.write p])
  | n + 1 =>
    match ← step p with
    | none => return none
    | some q =>
      let start := lang.write p
      let written := lang.write q
      if written = start then return some q
      else return some (← settle lang.write limit step n [written, start] q)

/-- Applies a step to every word by itself. -/
def wordwise (step : Phrase → Except Fault (Option Phrase)) (p : Phrase) :
    Except Fault (Option Phrase) := do
  let results ← p.words.mapM fun word ↦ do return (word, ← step (.ofWord word))
  if results.any (·.2.isSome) then
    return some (.ofWords (results.flatMap fun (word, changed) ↦
      match changed with
      | some q => q.words
      | none => [word]))
  else return none

/-- Applies a step under a name and divides the words of the result. -/
def underName (lang : Language) (name : String) (step : Phrase → Except Fault (Option Phrase))
    (p : Phrase) : Except Fault (Option Phrase) :=
  (do match ← step p with
      | none => return none
      | some q => return some (← lang.syllabify q)).mapError (Fault.inside name)

mutual

/-- Applies a rule to a phrase, unless it does not fire. A named rule inside another always
fires. -/
def apply (lang : Language) : Rule → Phrase → Except Fault (Option Phrase)
  | simple rule, p => rule.apply lang p
  | sequential rules, p => applyInTurn lang rules p
  | firstMatching rules, p => applyFirst lang rules p
  | withinWord rule, p => wordwise (fun q ↦ apply lang rule q) p
  | propagate rule, p => propagated lang (fun q ↦ apply lang rule q) p
  | named name rule, p => do
    return some ((← underName lang name (fun q ↦ apply lang rule q) p).getD p)

/-- Applies rules one after the other; they fire if one of them does. -/
def applyInTurn (lang : Language) : List Rule → Phrase → Except Fault (Option Phrase)
  | [], _ => return none
  | rule :: rest, p => do
    match ← apply lang rule p with
    | none => applyInTurn lang rest p
    | some q => return some ((← applyInTurn lang rest q).getD q)

/-- Applies the first rule that fires. -/
def applyFirst (lang : Language) : List Rule → Phrase → Except Fault (Option Phrase)
  | [], _ => return none
  | rule :: rest, p => do
    match ← apply lang rule p with
    | none => applyFirst lang rest p
    | some q => return some q

end

section Equations

variable (lang : Language) (rule : Rule) (rules : List Rule)

@[simp] theorem apply_sequential : apply lang (.sequential rules) = applyInTurn lang rules := rfl

@[simp] theorem apply_firstMatching :
    apply lang (.firstMatching rules) = applyFirst lang rules := rfl

@[simp] theorem apply_withinWord : apply lang (.withinWord rule) = wordwise (apply lang rule) := rfl

@[simp] theorem apply_propagate :
    apply lang (.propagate rule) = propagated lang (apply lang rule) := rfl

end Equations

mutual

/-- The simple rules of which the rule is made, in order. -/
def simpleRules : Rule → List SimpleRule
  | simple rule => [rule]
  | sequential rules | firstMatching rules => simpleRulesOf rules
  | withinWord rule | propagate rule | named _ rule => rule.simpleRules

/-- The simple rules of which the rules of a list are made. -/
def simpleRulesOf : List Rule → List SimpleRule
  | [] => []
  | rule :: rest => rule.simpleRules ++ simpleRulesOf rest

end

end Rule

/-- A rule of a program. -/
structure NamedRule where
  /-- Name of the rule. -/
  name : String
  /-- The rule. -/
  rule : Rule

/-- Applies a rule of a program and divides the words of the result, unless it does not fire. -/
def NamedRule.fire (lang : Language) (r : NamedRule) (p : Phrase) : Except Fault (Option Phrase) :=
  Rule.underName lang r.name (r.rule.apply lang) p

end Diachrony
