import Diachrony.Proofs.Applier.Compiling
import Diachrony.Proofs.Linking.Course

/-!
# Words that are never divided

In a program that divides no words one language is in force from the start to the end. A word then
comes to what the moves of the deromanizer, of the statements and of the romanizer leave of it, so
programs change words alike if these moves are alike.
-/

namespace Diachrony

namespace Syntax.Program

variable {p : Program} {base : Language}

/-- Words that are never divided are read without breaks. -/
theorem NeverDivides.initialLanguage_eq (h : p.NeverDivides) (base : Language) :
    p.initialLanguage base = base := by
  rw [initialLanguage]
  split
  · next declaration hfind => cases h _ (List.mem_of_find?_eq_some hfind)
  · rfl

/-- The parts of a linked program. -/
theorem exists_of_link {pipeline : Pipeline} (h : p.link base = .ok pipeline) :
    ∃ deromanizer linked romanizer,
      p.deromanizer.mapM (·.link (p.initialLanguage base) [] p.deferredRules) = .ok deromanizer ∧
      p.statements.foldlM (Linked.statement base p.deferredRules)
        { language := p.initialLanguage base } = .ok linked ∧
      p.romanizer.mapM (·.link linked.language linked.names p.deferredRules) = .ok romanizer ∧
      pipeline = ⟨p.initialLanguage base, deromanizer, linked.allStages, romanizer⟩ := by
  obtain ⟨deromanizer, hderomanizer, h⟩ := exists_of_bind_eq_ok h
  obtain ⟨linked, hlinked, h⟩ := exists_of_bind_eq_ok h
  obtain ⟨romanizer, hromanizer, h⟩ := exists_of_bind_eq_ok h
  cases h
  exact ⟨deromanizer, linked, romanizer, hderomanizer, hlinked, hromanizer, rfl⟩

/-- A program that never divides words is linked in one language. -/
theorem NeverDivides.exists_of_link (h : p.NeverDivides) {pipeline : Pipeline}
    (hlink : p.link base = .ok pipeline) :
    ∃ deromanizer linked romanizer, p.LinksTo base deromanizer linked romanizer ∧
      linked.Keeps base ∧ pipeline = ⟨base, deromanizer, linked.allStages, romanizer⟩ := by
  obtain ⟨deromanizer, linked, romanizer, hderomanizer, hlinked, hromanizer, hpipeline⟩ :=
    p.exists_of_link hlink
  rw [h.initialLanguage_eq] at hderomanizer hlinked hpipeline
  have hkeeps := (Linked.Keeps.initial base).foldlM h hlinked
  rw [hkeeps.language] at hromanizer
  exact ⟨deromanizer, linked, romanizer, ⟨hderomanizer, hlinked, hromanizer⟩, hkeeps, hpipeline⟩

end Syntax.Program

namespace Applier

open Syntax

variable {inv : Inventory} {program program' : Program} {config : Config} {a a' : Applier}

/-- The language of a program that divides no words. -/
def undivided (inv : Inventory) (config : Config) : Language :=
  { inventory := inv, limits := config.limits }

/-- The moves of a whole run where one language is in force. -/
def wholeMoves (base : Language) (deromanizer : Option NamedRule) (linked : Linked)
    (romanizer : Option NamedRule) : List Move :=
  deromanizer.toList.map (.apply base) ++ linked.moves true (.initial base) ++
    romanizer.toList.map (.apply base)

/-- The moves of whole runs are alike if those of the statements are, and the programs have the same
deromanizer, romanizer, deferred rules and names. -/
theorem alike_wholeMoves {base : Language} {deromanizer deromanizer' : Option NamedRule}
    {linked linked' : Linked} {romanizer romanizer' : Option NamedRule}
    (hlinks : program.LinksTo base deromanizer linked romanizer)
    (hlinks' : program'.LinksTo base deromanizer' linked' romanizer')
    (hfirst : program'.deromanizer = program.deromanizer)
    (hlast : program'.romanizer = program.romanizer)
    (hdeferred : program'.deferredRules = program.deferredRules)
    (hnames : linked'.names = linked.names)
    (hmoves : Move.Alike (linked.moves true (.initial base)) (linked'.moves true (.initial base))) :
    Move.Alike (wholeMoves base deromanizer linked romanizer)
      (wholeMoves base deromanizer' linked' romanizer') := by
  have hderomanizer := hlinks'.deromanizer
  rw [hfirst, hdeferred] at hderomanizer
  cases hlinks.deromanizer.symm.trans hderomanizer
  have hromanizer := hlinks'.romanizer
  rw [hlast, hdeferred, hnames] at hromanizer
  cases hlinks.romanizer.symm.trans hromanizer
  exact ((Move.Alike.refl _).append hmoves).append (.refl _)

/-- The plan of a whole run, by the parts of the program. -/
theorem plan_of_linked (language : Language) (deromanizer : Option NamedRule) (linked : Linked)
    (romanizer : Option NamedRule) :
    Pipeline.plan ⟨language, deromanizer, linked.allStages, romanizer⟩ {} true =
      ⟨deromanizer.toList.map (.apply language) ++ linked.moves true (.initial language) ++
          romanizer.toList.map (.apply (linked.regime (.initial language)).language),
        (linked.regime (.initial language)).language⟩ := by
  rw [Pipeline.plan_eq]
  simp only [Linked.stagesMoves_allStages, Linked.afterStages_allStages, Pipeline.lastMoves,
    if_true]

/-- The plan of a whole run where one language is in force. -/
theorem plan_of_keeps {base : Language} {linked : Linked} (h : linked.Keeps base)
    (deromanizer romanizer : Option NamedRule) :
    Pipeline.plan ⟨base, deromanizer, linked.allStages, romanizer⟩ {} true =
      ⟨wholeMoves base deromanizer linked romanizer, base⟩ := by
  rw [plan_of_linked, h.inForce, wholeMoves]

/-- A word of a program that divides no words comes to what the moves of its parts leave of it. -/
theorem exists_moves_of_compile (h : compile inv program config = .ok a)
    (hdivides : program.NeverDivides) :
    ∃ deromanizer linked romanizer, program.check inv = .ok () ∧
      program.LinksTo (undivided inv config) deromanizer linked romanizer ∧
      linked.Keeps (undivided inv config) ∧
      ∀ word, Agree (a.applyTo word) ((undivided inv config).write <$>
        Move.outcomes (wholeMoves (undivided inv config) deromanizer linked romanizer)
          ((undivided inv config).read word)) := by
  have hcompiled := compile_iff_isCompiled.mp h
  obtain ⟨deromanizer, linked, romanizer, hlinks, hkeeps, hpipeline⟩ :=
    hdivides.exists_of_link hcompiled.link
  refine ⟨deromanizer, linked, romanizer, hcompiled.check, hlinks, hkeeps, fun word ↦ ?_⟩
  rw [applyTo, hpipeline, plan_of_keeps hkeeps]
  exact Plan.run_agree _ _ word

/-- Two programs that divide no words change words alike if the moves of their parts are alike. -/
theorem toOption_applyTo_eq (h : compile inv program config = .ok a)
    (h' : compile inv program' config = .ok a') (hdivides : program.NeverDivides)
    (hdivides' : program'.NeverDivides)
    (hmoves : ∀ deromanizer linked romanizer deromanizer' linked' romanizer',
      program.check inv = .ok () →
      program.LinksTo (undivided inv config) deromanizer linked romanizer →
      program'.LinksTo (undivided inv config) deromanizer' linked' romanizer' →
      Move.Alike (wholeMoves (undivided inv config) deromanizer linked romanizer)
        (wholeMoves (undivided inv config) deromanizer' linked' romanizer')) (word : String) :
    (a.applyTo word).toOption = (a'.applyTo word).toOption := by
  obtain ⟨deromanizer, linked, romanizer, hcheck, hlinks, -, hword⟩ :=
    exists_moves_of_compile h hdivides
  obtain ⟨deromanizer', linked', romanizer', -, hlinks', -, hword'⟩ :=
    exists_moves_of_compile h' hdivides'
  rw [← Agree.iff_toOption]
  have hlike := hmoves _ _ _ _ _ _ hcheck hlinks hlinks'
  exact (hword word).trans (((hlike _).map _).trans (hword' word).symm)

end Applier

end Diachrony
