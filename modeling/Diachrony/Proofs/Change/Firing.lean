import Mathlib.Data.List.Forall2
import Diachrony.Proofs.Agreement
import Diachrony.Proofs.Change.Limits

/-!
# What is seen of a rule

A rule is seen in two ways. A program only looks at what the rule makes of a phrase, whether it
fires or not; a block also looks at whether it fires. Rules that act alike can take each other's
place everywhere, and rules that write alike can do so where nothing hangs on firing: as rules of a
program, and under a name.

A name hides whether a rule fires, for a named rule always does. A block with a member that always
fires always fires itself, and of the rules behind such a member in a choice none is ever tried.
Words are not divided into syllables here.
-/

namespace Diachrony

/-- Phrases stay as they are where words are not divided. -/
theorem Language.syllabify_eq {lang : Language} (h : lang.syllabifier = none) (p : Phrase) :
    lang.syllabify p = .ok p := by
  rw [syllabify, h]

/-- The words of a phrase make the phrase. -/
theorem Phrase.ofWords_words (p : Phrase) : Phrase.ofWords p.words = p := by
  obtain ⟨words, hwords⟩ := p
  cases words with
  | nil => contradiction
  | cons w rest => rfl

namespace Rule

section Steps

variable (step : Phrase → Except Fault (Option Phrase))

/-- What a step makes of a phrase, whether it fires or not. -/
def outcome (p : Phrase) : Except Fault Phrase := (·.getD p) <$> step p

/-- The step that does the same and always fires. -/
def surely (p : Phrase) : Except Fault (Option Phrase) := some <$> outcome step p

/-- Whether a step fires is not seen in what it makes of a phrase. -/
theorem outcome_surely : outcome (surely step) = outcome step := by
  funext p
  simp only [outcome, surely]
  cases step p with
  | error fault => rfl
  | ok found => rfl

variable {step}

/-- A step fails if it fails. -/
theorem surely_of_error {p : Phrase} {fault : Fault} (h : step p = .error fault) :
    surely step p = .error fault := by
  rw [surely, outcome, h]
  rfl

/-- Where a step does not fire the phrase stays as it is. -/
theorem surely_of_none {p : Phrase} (h : step p = .ok none) : surely step p = .ok (some p) := by
  rw [surely, outcome, h]
  rfl

/-- Where a step fires nothing changes. -/
theorem surely_of_some {p q : Phrase} (h : step p = .ok (some q)) :
    surely step p = .ok (some q) := by
  rw [surely, outcome, h]
  rfl

variable (step)

private theorem settle_surely (write : Phrase → String) (limit n : Nat) (seen : List String)
    (p : Phrase) (hseen : seen.head? = some (write p)) :
    settle write limit (surely step) n seen p = settle write limit step n seen p := by
  induction n generalizing seen p with
  | zero => rfl
  | succ n ih =>
    rw [settle, settle]
    cases hstep : step p with
    | error fault => rw [surely_of_error hstep]; rfl
    | ok found =>
      cases found with
      | none =>
        -- the last state is written once more, which ends the propagation as not firing does
        rw [surely_of_none hstep]
        exact if_pos hseen
      | some q =>
        have hnext := ih (write q :: seen) q rfl
        rw [surely_of_some hstep]
        simp only [hnext, bind, Except.bind]

/-- Propagating a step that always fires is a step that always fires. A step that does not fire
leaves the phrase as it was, and then what is written stays the same. -/
theorem propagated_surely (lang : Language) :
    propagated lang (surely step) = surely (propagated lang step) := by
  funext p
  rw [surely, outcome, propagated, propagated]
  cases lang.limits.maxPropagateSteps with
  | zero => rfl
  | succ n =>
    dsimp only
    cases hstep : step p with
    | error fault => rw [surely_of_error hstep]; rfl
    | ok found =>
      cases found with
      | none =>
        rw [surely_of_none hstep]
        exact if_pos rfl
      | some q =>
        have hsettle := settle_surely step lang.write (n + 1) n [lang.write q, lang.write p] q rfl
        rw [surely_of_some hstep]
        simp only [bind, Except.bind, hsettle]
        split
        · rfl
        · cases settle lang.write (n + 1) step n [lang.write q, lang.write p] q with
          | error fault => rfl
          | ok r => rfl

/-- What every word of a list becomes, if anything. -/
private def onWords (words : List Word) : Except Fault (List (Word × Option Phrase)) :=
  words.mapM fun word ↦ do return (word, ← step (.ofWord word))

/-- The words that a word has become. -/
private def made (found : Word × Option Phrase) : List Word :=
  match found.2 with
  | some q => q.words
  | none => [found.1]

/-- The word has become something, be it itself. -/
private def fired (found : Word × Option Phrase) : Word × Option Phrase :=
  (found.1, some (found.2.getD (.ofWord found.1)))

private theorem onWords_surely (words : List Word) :
    onWords (surely step) words = List.map fired <$> onWords step words := by
  induction words with
  | nil => rfl
  | cons w rest ih =>
    rw [onWords, onWords, List.mapM_cons, List.mapM_cons, ← onWords, ← onWords, ih, surely, outcome]
    cases step (.ofWord w) with
    | error fault => rfl
    | ok found =>
      cases onWords step rest with
      | error fault => rfl
      | ok others => rfl

private theorem map_fst_of_onWords {words : List Word} {results : List (Word × Option Phrase)}
    (h : onWords step words = .ok results) : results.map Prod.fst = words := by
  induction words generalizing results with
  | nil => cases h; rfl
  | cons w rest ih =>
    rw [onWords, List.mapM_cons] at h
    obtain ⟨first, hfirst, h⟩ := exists_of_bind_eq_ok h
    obtain ⟨others, hothers, h⟩ := exists_of_bind_eq_ok h
    obtain ⟨found, -, hfound⟩ := exists_of_bind_eq_ok hfirst
    cases h
    cases hfound
    exact congrArg (w :: ·) (ih hothers)

private theorem made_fired (found : Word × Option Phrase) : made (fired found) = made found := by
  obtain ⟨w, found⟩ := found
  cases found <;> rfl

private theorem flatMap_made_of_all_none {results : List (Word × Option Phrase)}
    (h : results.any (·.2.isSome) = false) : results.flatMap made = results.map Prod.fst := by
  induction results with
  | nil => rfl
  | cons found rest ih =>
    obtain ⟨w, found⟩ := found
    cases found with
    | none => exact congrArg (w :: ·) (ih h)
    | some q => simp at h

/-- Applying a step that always fires to every word is a step that always fires, for a phrase has a
word. -/
theorem wordwise_surely : wordwise (surely step) = surely (wordwise step) := by
  have heq (step : Phrase → Except Fault (Option Phrase)) (p : Phrase) :
      wordwise step p = (onWords step p.words >>= fun results ↦
        if results.any (·.2.isSome) then .ok (some (.ofWords (results.flatMap made)))
        else .ok none) := rfl
  funext p
  rw [surely, outcome, heq, heq, onWords_surely]
  cases hresults : onWords step p.words with
  | error fault => rfl
  | ok results =>
    have hwords := map_fst_of_onWords step hresults
    have hany : (results.map fired).any (·.2.isSome) = true := by
      have hne : results ≠ [] := by
        rintro rfl
        exact p.words_ne_nil hwords.symm
      obtain ⟨found, rest, rfl⟩ := List.exists_cons_of_ne_nil hne
      rfl
    have hmade : (results.map fired).flatMap made = results.flatMap made := by
      simp only [List.flatMap_map, made_fired]
    show (if (results.map fired).any (·.2.isSome) then _ else _) =
      _ <$> _ <$> (if results.any (·.2.isSome) then _ else _)
    rw [if_pos hany, hmade]
    cases hfires : results.any (·.2.isSome) with
    | true => rfl
    | false =>
      rw [flatMap_made_of_all_none hfires, hwords, Phrase.ofWords_words]
      rfl

variable (rest : Phrase → Except Fault (Option Phrase))

/-- Two steps in turn, which fire if one of them does. -/
def inTurn (p : Phrase) : Except Fault (Option Phrase) := do
  match ← step p with
  | none => rest p
  | some q => return some ((← rest q).getD q)

/-- A step or, where it does not fire, another one. -/
def orElse (p : Phrase) : Except Fault (Option Phrase) := do
  match ← step p with
  | none => rest p
  | some q => return some q

/-- What two steps make of a phrase in turn, the second makes of what the first makes of it. -/
theorem outcome_inTurn (p : Phrase) :
    outcome (inTurn step rest) p = outcome step p >>= outcome rest := by
  simp only [outcome, inTurn]
  cases step p with
  | error fault => rfl
  | ok found =>
    cases found with
    | none => rfl
    | some q =>
      show _ <$> (rest q >>= _) = _ <$> rest q
      cases rest q with
      | error fault => rfl
      | ok found => rfl

/-- Two steps in turn always fire if the first one does. -/
theorem inTurn_surely_left : inTurn (surely step) rest = surely (inTurn step rest) := by
  funext p
  rw [surely, outcome_inTurn, inTurn, surely]
  cases outcome step p with
  | error fault => rfl
  | ok q =>
    show (rest q >>= _) = _ <$> _ <$> rest q
    cases rest q with
    | error fault => rfl
    | ok found => rfl

/-- Two steps in turn always fire if the second one does. -/
theorem inTurn_surely_right : inTurn step (surely rest) = surely (inTurn step rest) := by
  funext p
  rw [surely, outcome_inTurn, inTurn, outcome]
  cases step p with
  | error fault => rfl
  | ok found =>
    cases found with
    | none => rfl
    | some q =>
      show (surely rest q >>= _) = _ <$> outcome rest q
      rw [surely]
      cases outcome rest q with
      | error fault => rfl
      | ok r => rfl

/-- Behind a step that always fires no other is tried. -/
theorem orElse_surely_left : orElse (surely step) rest = surely step := by
  funext p
  rw [orElse, surely]
  cases outcome step p with
  | error fault => rfl
  | ok q => rfl

/-- A step or another one always fires if the other one does. -/
theorem orElse_surely_right : orElse step (surely rest) = surely (orElse step rest) := by
  funext p
  rw [surely, outcome, orElse, orElse]
  cases step p with
  | error fault => rfl
  | ok found =>
    cases found with
    | none => rfl
    | some q => rfl

end Steps

section Pairs

variable {step step' : Phrase → Except Fault (Option Phrase)}

/-- Steps that agree leave the same outcome. -/
theorem outcome_agree (h : ∀ p, Agree (step p) (step' p)) (p : Phrase) :
    Agree (outcome step p) (outcome step' p) := (h p).map _

/-- Steps with outcomes that agree are alike if they always fire. -/
theorem surely_agree (h : ∀ p, Agree (outcome step p) (outcome step' p)) (p : Phrase) :
    Agree (surely step p) (surely step' p) := (h p).map _

/-- Steps that agree are alike in front of steps that agree. -/
theorem inTurn_agree {rest rest' : Phrase → Except Fault (Option Phrase)}
    (h : ∀ p, Agree (step p) (step' p)) (hrest : ∀ p, Agree (rest p) (rest' p)) (p : Phrase) :
    Agree (inTurn step rest p) (inTurn step' rest' p) := by
  refine (h p).bind fun found ↦ ?_
  cases found with
  | none => exact hrest p
  | some q => exact (hrest q).bind fun _ ↦ .refl _

/-- Steps that agree are alike as a choice with steps that agree. -/
theorem orElse_agree {rest rest' : Phrase → Except Fault (Option Phrase)}
    (h : ∀ p, Agree (step p) (step' p)) (hrest : ∀ p, Agree (rest p) (rest' p)) (p : Phrase) :
    Agree (orElse step rest p) (orElse step' rest' p) := by
  refine (h p).bind fun found ↦ ?_
  cases found with
  | none => exact hrest p
  | some q => exact .refl _

/-- Steps that agree are alike when they are propagated. -/
theorem propagated_agree (lang : Language) (h : ∀ p, Agree (step p) (step' p)) (p : Phrase) :
    Agree (propagated lang step p) (propagated lang step' p) :=
  have hle : lang.limits ≤ lang.limits := ⟨Nat.le_refl _, Nat.le_refl _⟩
  ⟨propagated_persists hle lang (fun p ↦ (h p).1) p,
    propagated_persists hle lang (fun p ↦ (h p).2) p⟩

/-- Steps that agree are alike when they are applied to every word. -/
theorem wordwise_agree (h : ∀ p, Agree (step p) (step' p)) (p : Phrase) :
    Agree (wordwise step p) (wordwise step' p) :=
  ⟨wordwise_persists (fun p ↦ (h p).1) p, wordwise_persists (fun p ↦ (h p).2) p⟩

/-- A step is the same under a name, but for faults. -/
theorem underName_agree {lang : Language} (hlang : lang.syllabifier = none) (name : String)
    (p : Phrase) : Agree (underName lang name step p) (step p) := by
  refine (Agree.mapError _ _).trans ?_
  simp only [Language.syllabify_eq hlang]
  cases step p with
  | error fault => exact .error
  | ok found => cases found <;> exact .refl _

/-- Steps that agree are alike under a name. -/
theorem underName_congr (lang : Language) (name : String) (h : ∀ p, Agree (step p) (step' p))
    (p : Phrase) : Agree (underName lang name step p) (underName lang name step' p) := by
  refine (Agree.mapError _ _).trans (.trans ?_ (Agree.mapError _ _).symm)
  exact (h p).bind fun _ ↦ .refl _

end Pairs

variable (lang : Language)

/-- Two rules fire on the same phrases and make the same of them. -/
def ActsLike (r s : Rule) : Prop := ∀ p, Agree (r.apply lang p) (s.apply lang p)

/-- Two rules make the same of every phrase, whether they fire or not. -/
def WritesLike (r s : Rule) : Prop :=
  ∀ p, Agree (outcome (r.apply lang) p) (outcome (s.apply lang) p)

/-- Two rules act alike under every name. -/
def StandsLike (r s : Rule) : Prop := ∀ name, ActsLike lang (.named name r) (.named name s)

/-- A rule always fires and makes of every phrase what another one does. -/
def SurelyActsLike (r s : Rule) : Prop := ∀ p, Agree (r.apply lang p) (surely (s.apply lang) p)

variable {lang} {r s : Rule}

/-- A rule acts like itself. -/
theorem ActsLike.refl (r : Rule) : ActsLike lang r r := fun _ ↦ .refl _

/-- Simple rules that apply alike act alike. -/
theorem ActsLike.simple {r s : SimpleRule} (h : ∀ p, r.apply lang p = s.apply lang p) :
    ActsLike lang (.simple r) (.simple s) := by
  intro p
  unfold apply
  exact .of_eq (h p)

/-- Rules that act alike write alike. -/
theorem ActsLike.writesLike (h : ActsLike lang r s) : WritesLike lang r s := outcome_agree h

/-- A rule that always fires writes like the other. -/
theorem SurelyActsLike.writesLike (h : SurelyActsLike lang r s) : WritesLike lang r s := by
  intro p
  have houtcome := outcome_agree h p
  rwa [outcome_surely] at houtcome

/-- A named rule inside of another always fires. -/
theorem apply_named (name : String) (rule : Rule) :
    apply lang (.named name rule) = surely (underName lang name (apply lang rule)) := by
  funext p
  change (underName lang name (apply lang rule) p >>= fun found ↦ pure (some (found.getD p))) = _
  rw [surely, outcome]
  cases underName lang name (apply lang rule) p with
  | error fault => rfl
  | ok found => rfl

/-- A named rule always fires and makes what the rule makes. -/
theorem WritesLike.surely_named (hlang : lang.syllabifier = none) (h : WritesLike lang r s)
    (name : String) : SurelyActsLike lang (.named name r) s := by
  intro p
  rw [apply_named]
  exact surely_agree (fun q ↦ (outcome_agree (underName_agree hlang name) q).trans (h q)) p

/-- Rules that write alike act alike under names. -/
theorem WritesLike.named (hlang : lang.syllabifier = none) (h : WritesLike lang r s)
    (name name' : String) : ActsLike lang (.named name r) (.named name' s) := by
  intro p
  have hname := WritesLike.surely_named hlang (fun p ↦ .refl _) name' (r := s) (s := s) p
  exact (h.surely_named hlang name p).trans hname.symm

/-- Rules that act alike do so under every name. -/
theorem ActsLike.standsLike (h : ActsLike lang r s) : StandsLike lang r s := by
  intro name p
  rw [apply_named, apply_named]
  exact surely_agree (outcome_agree (underName_congr lang name h)) p

/-- Where words are not divided, rules that write alike act alike under every name. -/
theorem WritesLike.standsLike (hlang : lang.syllabifier = none) (h : WritesLike lang r s) :
    StandsLike lang r s := fun name ↦ h.named hlang name name

/-- Where words are not divided, rules that act alike under every name write alike. -/
theorem StandsLike.writesLike (hlang : lang.syllabifier = none) (h : StandsLike lang r s) :
    WritesLike lang r s := by
  have hnamed (t : Rule) : WritesLike lang (.named "" t) t :=
    (WritesLike.surely_named hlang (fun _ ↦ .refl _) "").writesLike
  exact fun p ↦ (hnamed r p).symm.trans (((h "").writesLike p).trans (hnamed s p))

section Blocks

variable {rules rules' : List Rule}

/-- Rules in turn are the first rule and the others in turn. -/
theorem applyInTurn_cons (rule : Rule) (rest : List Rule) :
    applyInTurn lang (rule :: rest) = inTurn (apply lang rule) (applyInTurn lang rest) :=
  rfl

/-- A choice is the first rule or, where it does not fire, a choice of the others. -/
theorem applyFirst_cons (rule : Rule) (rest : List Rule) :
    applyFirst lang (rule :: rest) = orElse (apply lang rule) (applyFirst lang rest) :=
  rfl

/-- Rules that act alike one by one act alike one after the other. -/
theorem ActsLike.sequential (h : List.Forall₂ (ActsLike lang) rules rules') :
    ActsLike lang (.sequential rules) (.sequential rules') := by
  intro p
  rw [apply_sequential, apply_sequential]
  induction h generalizing p with
  | nil => exact .refl _
  | cons hfirst _ ih =>
    rw [applyInTurn_cons, applyInTurn_cons]
    exact inTurn_agree hfirst ih p

/-- Rules that act alike one by one act alike as a choice. -/
theorem ActsLike.firstMatching (h : List.Forall₂ (ActsLike lang) rules rules') :
    ActsLike lang (.firstMatching rules) (.firstMatching rules') := by
  intro p
  rw [apply_firstMatching, apply_firstMatching]
  induction h generalizing p with
  | nil => exact .refl _
  | cons hfirst _ ih =>
    rw [applyFirst_cons, applyFirst_cons]
    exact orElse_agree hfirst ih p

/-- Rules that act alike do so on every word. -/
theorem ActsLike.withinWord (h : ActsLike lang r s) :
    ActsLike lang (.withinWord r) (.withinWord s) := by
  intro p
  rw [apply_withinWord, apply_withinWord]
  exact wordwise_agree h p

/-- Rules that act alike are propagated alike. -/
theorem ActsLike.propagate (h : ActsLike lang r s) :
    ActsLike lang (.propagate r) (.propagate s) := by
  intro p
  rw [apply_propagate, apply_propagate]
  exact propagated_agree lang h p

variable {before before' after after' : List Rule}

/-- Rules one after the other always fire if one of them does. -/
theorem SurelyActsLike.sequential (hbefore : List.Forall₂ (ActsLike lang) before before')
    (h : SurelyActsLike lang r s) (hafter : List.Forall₂ (ActsLike lang) after after') :
    SurelyActsLike lang (.sequential (before ++ r :: after))
      (.sequential (before' ++ s :: after')) := by
  suffices hturn : ∀ p, Agree (applyInTurn lang (before ++ r :: after) p)
      (surely (applyInTurn lang (before' ++ s :: after')) p) by
    intro p
    rw [apply_sequential, apply_sequential]
    exact hturn p
  induction hbefore with
  | nil =>
    intro p
    have hrest (q : Phrase) : Agree (applyInTurn lang after q) (applyInTurn lang after' q) := by
      have hblock := ActsLike.sequential hafter q
      rwa [apply_sequential, apply_sequential] at hblock
    rw [List.nil_append, List.nil_append, applyInTurn_cons, applyInTurn_cons, ← inTurn_surely_left]
    exact inTurn_agree h hrest p
  | cons hfirst _ ih =>
    intro p
    rw [List.cons_append, List.cons_append, applyInTurn_cons, applyInTurn_cons,
      ← inTurn_surely_right]
    exact inTurn_agree hfirst ih p

/-- A choice always fires if one of its rules does, and the rules behind it are never tried. -/
theorem SurelyActsLike.firstMatching (hbefore : List.Forall₂ (ActsLike lang) before before')
    (h : SurelyActsLike lang r s) (after : List Rule) :
    SurelyActsLike lang (.firstMatching (before ++ r :: after))
      (.firstMatching (before' ++ [s])) := by
  suffices hchoice : ∀ p, Agree (applyFirst lang (before ++ r :: after) p)
      (surely (applyFirst lang (before' ++ [s])) p) by
    intro p
    rw [apply_firstMatching, apply_firstMatching]
    exact hchoice p
  induction hbefore with
  | nil =>
    intro p
    have hfirst := orElse_agree h (fun q ↦ .refl (applyFirst lang after q)) p
    have hlast : applyFirst lang [s] = apply lang s := by
      funext q
      rw [applyFirst_cons, orElse]
      cases apply lang s q with
      | error fault => rfl
      | ok found => cases found <;> rfl
    rw [orElse_surely_left] at hfirst
    rwa [List.nil_append, List.nil_append, applyFirst_cons, hlast]
  | cons hfirst _ ih =>
    intro p
    rw [List.cons_append, List.cons_append, applyFirst_cons, applyFirst_cons,
      ← orElse_surely_right]
    exact orElse_agree hfirst ih p

/-- A rule that always fires does so on every word. -/
theorem SurelyActsLike.withinWord (h : SurelyActsLike lang r s) :
    SurelyActsLike lang (.withinWord r) (.withinWord s) := by
  intro p
  have hwords := wordwise_agree h p
  rwa [wordwise_surely] at hwords

/-- A rule that always fires does so when it is propagated. -/
theorem SurelyActsLike.propagate (h : SurelyActsLike lang r s) :
    SurelyActsLike lang (.propagate r) (.propagate s) := by
  intro p
  have hsteps := propagated_agree lang h p
  rwa [propagated_surely] at hsteps

end Blocks

end Rule

end Diachrony
