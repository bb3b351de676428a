import Diachrony.Applier.Basic
import Diachrony.Proofs.Ensures

/-!
# Accepted programs

A program is accepted if it passes its checks and is linked to rules of different names, and then
the applier has what it is linked to.
-/

namespace Diachrony.Applier

/-- Whether an applier is what an accepted program comes to. -/
structure IsCompiled (inv : Inventory) (program : Syntax.Program) (config : Config) (a : Applier) :
    Prop where
  /-- The program passes its checks. -/
  check : program.check inv = .ok ()
  /-- The program is linked to the pipeline. -/
  link : program.link { inventory := inv, limits := config.limits } = .ok a.pipeline
  /-- The rules have different names. -/
  names : firstRepeated? [] a.pipeline.ruleNames = none
  /-- The configuration is that with which the program is compiled. -/
  config : a.config = config

variable {inv : Inventory} {program : Syntax.Program} {config : Config} {a : Applier}

/-- An applier is given exactly if a program comes to it. -/
theorem compile_iff_isCompiled :
    compile inv program config = .ok a ↔ IsCompiled inv program config a := by
  constructor
  · intro h
    obtain ⟨pipeline, hpipeline, ha⟩ := exists_of_bind_eq_ok h
    obtain ⟨⟨⟩, hcheck, hlink⟩ := exists_of_bind_eq_ok hpipeline
    rw [ofPipeline] at ha
    split at ha
    · cases ha
    · next hnames =>
      cases ha
      exact ⟨hcheck, hlink, hnames, rfl⟩
  · rintro ⟨hcheck, hlink, hnames, rfl⟩
    refine bind_eq_ok (bind_eq_ok hcheck hlink) ?_
    rw [ofPipeline, hnames]
    rfl

end Diachrony.Applier
