import Diachrony.Trace.History
import Diachrony.Trace.Writing

/-!
# Recorders

A recorder records events while it is enabled and writes records in the form that is set.
-/

namespace Diachrony.Trace

/-- Where records are shown as they are made. -/
inductive Echo where
  /-- Nowhere. -/
  | silent
  /-- On standard error. -/
  | standardError
deriving DecidableEq, Repr

/-- How events are traced. -/
structure Settings where
  /-- Whether events are recorded. -/
  enabled : Bool := false
  /-- Number of records that are kept. -/
  capacity : Nat := 10000
  /-- Where records are shown as they are made. -/
  echo : Echo := .silent
  /-- Whether records are written as JSON. -/
  json : Bool := false
deriving DecidableEq, Repr

/-- Settings and the latest records. -/
structure Recorder where
  /-- The settings. -/
  settings : Settings
  /-- The records. -/
  history : History

namespace Recorder

/-- A recorder without records. -/
def new (settings : Settings) : Recorder := ⟨settings, { capacity := settings.capacity }⟩

/-- Starts or stops recording. Records are kept. -/
def setEnabled (enabled : Bool) (t : Recorder) : Recorder :=
  { t with settings := { t.settings with enabled } }

/-- Records an event, if events are recorded. -/
def record (word : String) (t : Recorder) (event : Event) : Recorder :=
  if t.settings.enabled then { t with history := (t.history.push word event).2 } else t

/-- Records events in order. -/
def recordAll (word : String) (events : List Event) (t : Recorder) : Recorder :=
  events.foldl (record word) t

/-- Drops all records. -/
def clear (t : Recorder) : Recorder := { t with history := t.history.clear }

/-- A record in the form that is set; lines name the word. -/
def format (t : Recorder) (r : Record) : String :=
  if t.settings.json then r.jsonText else r.line { words := true }

/-- Records in the form that is set. -/
def formatAll (t : Recorder) (records : List Record) : String :=
  if t.settings.json then Record.jsonArray records else Record.lines { words := true } records

end Recorder

end Diachrony.Trace
