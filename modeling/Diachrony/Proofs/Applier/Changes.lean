import Diachrony.Proofs.Applier.Undivided
import Diachrony.Proofs.Linking.Abreast

/-!
# Programs with related rules

If the rules and romanizers of two programs are related one by one, and related ones are linked to
rules that act alike under their names in every language that may be in force, then both programs
change words alike, whether words are divided into syllables or not.
-/

namespace Diachrony

namespace Syntax

variable {rules : RuleDeclaration → RuleDeclaration → Prop}
  {romanizers : RomanizerDeclaration → RomanizerDeclaration → Prop}
  {admissible : Language → Prop} {p p' : Program} {base : Language}

/-- Words are read in the same language. -/
theorem Program.Changes.initialLanguage_eq (h : p.Changes rules romanizers p') (base : Language) :
    p'.initialLanguage base = p.initialLanguage base := by
  have hfind : ∀ {statements statements' : List Statement},
      List.Forall₂ (Statement.Changes rules romanizers) statements statements' →
      Option.Rel (Statement.Changes rules romanizers) (statements.find? (!·.isNaming))
        (statements'.find? (!·.isNaming)) := by
    intro statements statements' hforall
    induction hforall with
    | nil => exact .none
    | @cons s s' rest rest' hfirst _ ih =>
      have hnaming : s'.isNaming = s.isNaming := by cases hfirst <;> rfl
      rw [List.find?_cons, List.find?_cons, hnaming]
      split
      · exact .some hfirst
      · exact ih
  have hfirst := hfind h.statements
  rw [initialLanguage, initialLanguage]
  generalize p.statements.find? (!·.isNaming) = found at hfirst
  generalize p'.statements.find? (!·.isNaming) = found' at hfirst
  cases hfirst with
  | none => rfl
  | some hfirst => cases hfirst <;> rfl

/-- Words are read in a language that may be in force, if those in which they are divided may. -/
theorem Program.admissible_initialLanguage (hbase : admissible base)
    (hdivides : ∀ s ∈ p.statements, s.isSyllables →
      ∀ syllabifier, admissible { base with syllabifier }) :
    admissible (p.initialLanguage base) := by
  rw [initialLanguage]
  split
  · next declaration hfind => exact hdivides _ (List.mem_of_find?_eq_some hfind) rfl _
  · exact hbase

/-- Optional romanizers that are related are alike as moves. -/
theorem LinkAlike.mapM_romanizer {deferred deferred' : List RuleDeclaration}
    (hlinks : LinkAlike admissible deferred deferred' rules romanizers) {lang runs : Language}
    (hlang : admissible lang) (hruns : admissible runs) (names : Scope)
    {declaration declaration' : Option RomanizerDeclaration}
    (h : Option.Rel romanizers declaration declaration') {rule rule' : Option NamedRule}
    (hrule : declaration.mapM (·.link lang names deferred) = .ok rule)
    (hrule' : declaration'.mapM (·.link lang names deferred') = .ok rule') :
    Move.Alike (rule.toList.map (.apply runs)) (rule'.toList.map (.apply runs)) := by
  cases h with
  | none =>
    cases hrule
    cases hrule'
    exact .refl _
  | some h =>
    have hmoves : Correspond (fun rule rule' : Option NamedRule ↦
        Move.Alike (rule.toList.map (.apply runs)) (rule'.toList.map (.apply runs)))
        (some <$> _) (some <$> _) :=
      (hlinks.romanizer hlang h names).map fun _ _ hstands ↦ .apply_of_standsLike hruns hstands
    exact hmoves rule rule' hrule hrule'

end Syntax

namespace Applier

open Syntax

variable {rules : RuleDeclaration → RuleDeclaration → Prop}
  {romanizers : RomanizerDeclaration → RomanizerDeclaration → Prop}
  {admissible : Language → Prop} {inv : Inventory} {program program' : Program} {config : Config}
  {a a' : Applier}

/-- Programs with related rules and romanizers change words alike. -/
theorem toOption_applyTo_eq_of_changes (h : compile inv program config = .ok a)
    (h' : compile inv program' config = .ok a')
    (hchanges : program.Changes rules romanizers program')
    (hlinks : LinkAlike admissible program.deferredRules program'.deferredRules rules romanizers)
    (hbase : admissible (undivided inv config))
    (hdivides : ∀ s ∈ program.statements, s.isSyllables →
      ∀ syllabifier, admissible { undivided inv config with syllabifier }) (word : String) :
    (a.applyTo word).toOption = (a'.applyTo word).toOption := by
  have hlink : program.link (undivided inv config) = .ok a.pipeline :=
    (compile_iff_isCompiled.mp h).link
  have hlink' : program'.link (undivided inv config) = .ok a'.pipeline :=
    (compile_iff_isCompiled.mp h').link
  obtain ⟨deromanizer, linked, romanizer, hderomanizer, hlinked, hromanizer, hpipeline⟩ :=
    Program.exists_of_link hlink
  obtain ⟨deromanizer', linked', romanizer', hderomanizer', hlinked', hromanizer', hpipeline'⟩ :=
    Program.exists_of_link hlink'
  have hstart : admissible (program.initialLanguage (undivided inv config)) :=
    Program.admissible_initialLanguage hbase hdivides
  rw [hchanges.initialLanguage_eq] at hderomanizer' hlinked' hpipeline'
  have habreast := (Linked.Abreast.initial hstart).foldlM hlinks hchanges.statements hdivides
    hlinked hlinked'
  rw [habreast.language, habreast.names] at hromanizer'
  have hfirst := hlinks.mapM_romanizer hstart hstart [] hchanges.deromanizer hderomanizer
    hderomanizer'
  have hlast := hlinks.mapM_romanizer habreast.admits habreast.regime.admits linked.names
    hchanges.romanizer hromanizer hromanizer'
  rw [← Agree.iff_toOption, applyTo, applyTo, hpipeline, hpipeline', plan_of_linked, plan_of_linked,
    habreast.regime.language]
  exact Plan.run_agree_of_alike ((hfirst.append habreast.moves).append hlast) _ _ word

end Applier

end Diachrony
