import Diachrony.Change.Rule

/-!
# Pipelines

A pipeline is a linked program: stages that each run one rule, with steps in front of the rule that
change what is in force or record the words.
-/

namespace Diachrony

/-- What happens in front of a rule. -/
inductive Step where
  /-- Another language is in force, and words are divided anew. -/
  | syllables (language : Language)
  /-- A rule runs now and after every later rule. -/
  | cleanup (rule : NamedRule)
  /-- A cleanup rule runs no longer. -/
  | cleanupOff (name : String)
  /-- Words are recorded as a rule writes them. -/
  | romanizer (rule : NamedRule)

/-- A rule with the steps in front of it. The last stage may be without a rule. -/
structure Stage where
  /-- The steps in order. -/
  anchored : List Step
  /-- The rule. -/
  rule : Option NamedRule

/-- Name of the rule of a stage. -/
def Stage.name? (s : Stage) : Option String := s.rule.map (·.name)

/-- A linked program. -/
structure Pipeline where
  /-- The language in which words are read. -/
  language : Language
  /-- The rule that runs first. -/
  deromanizer : Option NamedRule := none
  /-- The stages in order. -/
  stages : List Stage := []
  /-- The rule that runs last. -/
  romanizer : Option NamedRule := none

namespace Pipeline

/-- Whether some stage has a rule of a name. -/
def hasRule (p : Pipeline) (name : String) : Bool := p.stages.any (·.name? == some name)

/-- Names of the rules of all stages. -/
def ruleNames (p : Pipeline) : List String := p.stages.filterMap Stage.name?

end Pipeline

end Diachrony
