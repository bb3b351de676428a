/-!
# Faults

What can go wrong when rules are read, linked and applied. A `Cause` says what happened and has one
wording; a `Fault` is a cause with the place where it was noticed. Causes that come from the rules
or the words are told apart from those that would be a defect of this library.
-/

namespace Diachrony

/-- The part of a rule in which a construct stands. -/
inductive RulePart where
  /-- The pattern of a rule. -/
  | input
  /-- The pattern of a rule that has a filter. -/
  | filteredInput
  /-- The replacement of a rule. -/
  | output
  /-- A condition or an exclusion. -/
  | environment
deriving DecidableEq, Repr

/-- How a part is named in messages. -/
def RulePart.describe : RulePart → String
  | input => "the input of a rule"
  | filteredInput => "the input of a filtered rule"
  | output => "the output of a rule"
  | environment => "an environment"

/-- A bound on the work of one search or one rule that was exceeded. -/
inductive Excess where
  /-- A search met more choice points than allowed while matching a text. -/
  | tooManyOptions (limit : Nat) (text : String)
  /-- A propagating rule repeated a state or did not settle; the last states are listed. -/
  | divergingPropagation (limit : Nat) (cycle : Bool) (states : List String)
deriving DecidableEq, Repr

/-- The wording of an excess. -/
def Excess.message : Excess → String
  | tooManyOptions limit text =>
    "too many options (" ++ toString limit ++ ") while matching \"" ++ text
      ++ "\"; try a more specific pattern"
  | divergingPropagation limit cycle states =>
    (if cycle then "propagation entered a cycle"
      else "propagation didn't settle within " ++ toString limit ++ " steps")
      ++ (if states.isEmpty then "" else ": " ++ " => ".intercalate states)

/-- Where a fault was noticed: a rule, a word, and the enclosing rules from the inside out. -/
structure Setting where
  /-- The rule that was linked or applied. -/
  rule : Option String := none
  /-- The word that was changed. -/
  word : Option String := none
  /-- The enclosing rules, innermost first. -/
  frames : List String := []
deriving DecidableEq, Repr, Inhabited

/-- A setting as text; each frame ends its own line. -/
def Setting.describe (s : Setting) : String :=
  (match s.rule with | some rule => "in rule " ++ rule | none => "")
    ++ (match s.word with | some word => " on word " ++ word | none => "")
    ++ (if s.frames.isEmpty then ""
      else "\n" ++ String.join (s.frames.map fun frame ↦ "  in " ++ frame ++ "\n"))

/-- What went wrong. Texts of rules and words are kept as they are shown. -/
inductive Cause where
  /-- A name was declared twice. -/
  | duplicateName (what name : String)
  /-- A name was used and never declared. -/
  | undefinedName (what name : String)
  /-- Two symbols have the same features. -/
  | ambiguousSymbols (first second matrix : String)
  /-- A construct stands where it has no use. -/
  | illegalStructure (part : RulePart) (construct text : String)
  /-- A word boundary stands inside an environment. -/
  | interiorWordBoundary (environment : String)
  /-- A repeater stands at the edge of an environment. -/
  | peripheralRepeater (repeater environment suggestion : String)
  /-- A block combines its parts in two ways. -/
  | mixedBlock (first second : String)
  /-- An element combines its parts in two ways. -/
  | mixedInterfix (first second : String)
  /-- A modifier conflicts with one of an enclosing rule. -/
  | illegalNestedModifier (modifier target : String)
  /-- A replacement has a value that only a pattern can have. -/
  | invalidOutputMatrix (matrix value : String)
  /-- A pattern and a replacement have different shapes. -/
  | invalidTransformation (source target : String)
  /-- An expression of a rule is at fault. -/
  | inExpression (rule : String) (number : Nat) (expression : String) (source : Cause)
      (setting : Option Setting)
  /-- A capture is referred to before it is bound. -/
  | unboundCapture (number : Nat)
  /-- A feature variable of a replacement is never bound. -/
  | unboundFeatureVariable (feature : String)
  /-- No symbol and diacritics have the features. -/
  | invalidMatrix (matrix : String)
  /-- No sequence of syllable patterns covers the word. -/
  | unsyllabifiable (word : String)
  /-- A bound was exceeded. -/
  | limitExceeded (excess : Excess)
  /-- A rule at which to start or stop does not exist. -/
  | ruleNotFound (name purpose : String)
  /-- A rule failed on a word. -/
  | ruleNotApplicable (rule given current : String) (source : Cause)
      (setting : Option Setting)
  /-- A rule met a defect on a word. -/
  | ruleCrashed (rule given current message : String)
  /-- A configuration has no meaning. -/
  | invalidConfig (message : String)
  /-- A state that should not arise. -/
  | internal (message : String)
deriving DecidableEq, Repr

/-- The wording of a cause. -/
def Cause.message : Cause → String
  | duplicateName what name => "duplicate " ++ what ++ " name: " ++ name
  | undefinedName what name => "undefined " ++ what ++ ": " ++ name
  | ambiguousSymbols first second matrix =>
    "symbols \"" ++ first ++ "\" and \"" ++ second ++ "\" both have the features " ++ matrix
  | illegalStructure part construct text =>
    construct ++ " like \"" ++ text ++ "\" can't be used in " ++ part.describe
  | interiorWordBoundary environment =>
    "word boundaries must be at the start or end of an environment, as in \"" ++ environment
      ++ "\""
  | peripheralRepeater repeater environment suggestion =>
    "the repeater \"" ++ repeater ++ "\" is at the edge of the environment \"" ++ environment
      ++ "\", so it has no effect; " ++ suggestion
  | mixedBlock first second =>
    "a block can't mix \"" ++ first ++ "\" and \"" ++ second ++ "\"; use nested blocks instead"
  | mixedInterfix first second =>
    "can't mix \"" ++ first ++ "\" and \"" ++ second ++ "\" in one element; use parentheses"
  | illegalNestedModifier modifier target =>
    "the modifier \"" ++ modifier ++ "\" can't be applied to " ++ target
  | invalidOutputMatrix matrix value =>
    "the value \"" ++ value ++ "\" in \"" ++ matrix
      ++ "\" can only be used on the match side of a rule"
  | invalidTransformation source target =>
    "can't change \"" ++ source ++ "\" into \"" ++ target ++ "\""
  | inExpression rule number expression source _ =>
    "Error in expression " ++ toString number ++ " (\"" ++ expression ++ "\") of rule \"" ++ rule
      ++ "\": " ++ source.message
  | unboundCapture number =>
    "capture $" ++ toString number ++ " is referenced before it is bound"
  | unboundFeatureVariable feature =>
    "feature variable $" ++ feature ++ " is never bound on the match side"
  | invalidMatrix matrix => "no symbol or diacritic combination matches " ++ matrix
  | unsyllabifiable word => "the word \"" ++ word ++ "\" can't be divided into syllables"
  | limitExceeded excess => "limit exceeded: " ++ excess.message
  | ruleNotFound name purpose => "couldn't find a rule named \"" ++ name ++ "\" to " ++ purpose
  | ruleNotApplicable rule given current source _ =>
    "Rule " ++ rule ++ " could not be applied to word " ++ current ++ " (originally " ++ given
      ++ "): " ++ source.message
  | ruleCrashed rule given current message =>
    "Rule " ++ rule ++ " crashed on word " ++ current ++ " (originally " ++ given ++ "): "
      ++ message
  | invalidConfig message => "invalid configuration: " ++ message
  | internal message => "internal error: " ++ message

/-- Whether the rules or the words are at fault. A cause that holds another is judged by it. -/
def Cause.isMistake : Cause → Bool
  | internal _ | ruleCrashed .. => false
  | inExpression _ _ _ source _ | ruleNotApplicable _ _ _ source _ => source.isMistake
  | _ => true

/-- A cause and, once it is known, the place where it was noticed. -/
structure Fault where
  /-- What went wrong. -/
  cause : Cause
  /-- Where it was noticed. -/
  setting : Option Setting := none
deriving DecidableEq, Repr

namespace Fault

/-- A fault without a place. -/
def of (cause : Cause) : Fault := ⟨cause, none⟩

instance : Coe Cause Fault := ⟨of⟩

instance : Inhabited Fault := ⟨of (.internal "")⟩

/-- The wording of the cause. -/
def message (f : Fault) : String := f.cause.message

/-- Whether the rules or the words are at fault. -/
def isMistake (f : Fault) : Bool := f.cause.isMistake

/-- The fault as noticed in an enclosing rule. -/
def inside (frame : String) (f : Fault) : Fault :=
  let setting := f.setting.getD {}
  { f with setting := some { setting with frames := setting.frames ++ [frame] } }

/-- The fault as the fault of one expression of a rule, counted from one. -/
def inExpression (rule : String) (number : Nat) (expression : String) (f : Fault) : Fault :=
  of (.inExpression rule number expression f.cause f.setting)

end Fault

end Diachrony
