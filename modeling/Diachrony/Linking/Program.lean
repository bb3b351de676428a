import Diachrony.Linking.Rule
import Diachrony.Pipeline.Basic

/-!
# Linking programs

A program is checked and then linked statement by statement. Every rule is linked in the scope and
the language that the statements before it leave. Steps wait for the next rule; those after the last
rule form a stage without one.
-/

namespace Diachrony.Syntax

/-- Links a shape of a syllable, which knows of no syllables itself. -/
def SyllableShape.link (base : Language) (names : Scope) (s : SyllableShape) :
    Except Fault SyllablePattern := do
  let pattern ← names.pattern base .input s.element
  if s.context.isEmpty then return ⟨pattern, s.matrix⟩
  let (conditions, exclusions) ← names.surroundings base s.context
  return ⟨.environment pattern conditions exclusions, s.matrix⟩

/-- Links a change of the division into syllables. -/
def SyllableDeclaration.link (base : Language) (names : Scope) :
    SyllableDeclaration → Except Fault (Option Syllabifier)
  | clear => return none
  | explicit => return some .explicit
  | shapes list => return some ⟨← list.mapM (SyllableShape.link base names)⟩

/-- Whether a statement only gives names. -/
def Statement.isNaming : Statement → Bool
  | soundClass .. | element .. => true
  | _ => false

/-- The language in which words are read. The breaks of words are kept if the first thing that
happens to words is that they are divided. -/
def Program.initialLanguage (base : Language) (p : Program) : Language :=
  match p.statements.find? (!·.isNaming) with
  | some (.syllables _) => { base with syllabifier := some .explicit }
  | _ => base

/-- What the statements so far have come to. -/
structure Linked where
  /-- The classes and elements that are known. -/
  names : Scope := []
  /-- The language in force. -/
  language : Language
  /-- The steps that wait for a rule. -/
  waiting : List Step := []
  /-- The stages that are complete. -/
  stages : List Stage := []

namespace Linked

/-- Adds a step that waits for a rule. -/
def withStep (l : Linked) (step : Step) : Linked := { l with waiting := l.waiting ++ [step] }

/-- Adds a rule with the steps that wait for it. -/
def withRule (l : Linked) (rule : NamedRule) : Linked :=
  { l with stages := l.stages ++ [⟨l.waiting, some rule⟩], waiting := [] }

/-- All stages, the steps that still wait included. -/
def allStages (l : Linked) : List Stage :=
  if l.waiting.isEmpty then l.stages else l.stages ++ [⟨l.waiting, none⟩]

/-- Links a statement after others. -/
def statement (base : Language) (deferred : List RuleDeclaration) (l : Linked) :
    Statement → Except Fault Linked
  | .syllables declaration => do
    let language := { base with syllabifier := ← declaration.link base l.names }
    return { l with language }.withStep (.syllables language)
  | .rule r => do
    if r.deferred then return l
    let rule ← r.link l.language l.names deferred
    return if r.cleanup then l.withStep (.cleanup rule) else l.withRule rule
  | .cleanupOff name => return l.withStep (.cleanupOff name)
  | .romanizer r => return l.withStep (.romanizer (← r.link l.language l.names deferred))
  | naming => return { l with names := l.names.after naming }

end Linked

namespace Program

/-- Links a program. -/
def link (base : Language) (p : Program) : Except Fault Pipeline := do
  let deferred := p.deferredRules
  let language := p.initialLanguage base
  let deromanizer ← p.deromanizer.mapM (·.link language [] deferred)
  let linked ← p.statements.foldlM (Linked.statement base deferred) { language }
  let romanizer ← p.romanizer.mapM (·.link linked.language linked.names deferred)
  return { language, deromanizer, stages := linked.allStages, romanizer }

/-- Checks and links a program for an inventory. -/
def compile (inv : Inventory) (limits : Limits) (p : Program) : Except Fault Pipeline := do
  p.check inv
  p.link { inventory := inv, limits }

end Program

end Diachrony.Syntax
