/-!
# Trace records

What happens to a word on its way through the rules is recorded as events. A record is an event with
the word to which it happened and a number of its own.
-/

namespace Diachrony.Trace

/-- Something that happened to a word. -/
inductive Event where
  /-- A step changed the word. -/
  | applied (step before after : String)
  /-- A romanizer on the way wrote the word. -/
  | romanized (stage form : String)
  /-- A step failed on the word. -/
  | failed (step message : String)
deriving DecidableEq, Repr

namespace Event

/-- The kind of an event as it is named in output. -/
def kind : Event → String
  | applied .. => "step-applied"
  | romanized .. => "romanizer-snapshot"
  | failed .. => "word-failed"

/-- The step to which an event belongs. -/
def step : Event → String
  | applied step .. | romanized step _ | failed step _ => step

/-- Whether the event is a failure. -/
def isFailure : Event → Bool
  | failed .. => true
  | _ => false

end Event

/-- An event that happened to a word. -/
structure Record where
  /-- Number of the record. -/
  id : Nat
  /-- The word as it was given. -/
  word : String
  /-- What happened. -/
  event : Event
deriving DecidableEq, Repr

end Diachrony.Trace
