import Diachrony.Config.Basic
import Diachrony.Toml.Reader

/-!
# Reading configurations

A configuration is a TOML document with the settings that differ from the defaults. Settings that
are not known are refused, except among those of the trace. The trace is a table, or an array of its
settings in order. A date counts as a table that has none of the settings.
-/

namespace Diachrony

namespace Toml.Value

/-- A natural number. -/
def natural? : Value → Option Nat
  | integer n => if 0 ≤ n then some n.toNat else none
  | _ => none

/-- A truth value. -/
def boolean? : Value → Option Bool
  | boolean b => some b
  | _ => none

/-- Whether a value has no content, as the value of a choice in a table. -/
def isVoid : Value → Bool
  | array [] | table _ [] => true
  | _ => false

/-- A choice: its name, or a table with the name as its key. -/
def choice? : Value → Option String
  | string s => some s
  | table .inline [(name, content)] => if content.isVoid then some name else none
  | table .inline _ => none
  | table _ ((name, content) :: _) => if content.isVoid then some name else none
  | _ => none

end Toml.Value

namespace Trace

/-- Where records are shown, as it is written in configurations. -/
def Echo.ofName? : String → Option Echo
  | "none" => some .silent
  | "stderr" => some .standardError
  | _ => none

namespace Settings

/-- The settings with one of them replaced, if it is known. -/
def withEntry? (s : Settings) : String × Toml.Value → Option Settings
  | ("enabled", value) => do return { s with enabled := ← value.boolean? }
  | ("buffer_size", value) => do return { s with capacity := ← value.natural? }
  | ("output", value) => do return { s with echo := ← Echo.ofName? (← value.choice?) }
  | ("json", value) => do return { s with json := ← value.boolean? }
  | _ => some s

/-- The names of the settings in the order in which an array gives them. -/
def names : List String := ["enabled", "buffer_size", "output", "json"]

/-- The settings that a value gives. -/
def ofToml? : Toml.Value → Option Settings
  | .table _ entries => entries.foldlM withEntry? {}
  | .array items => (names.zip items).foldlM withEntry? {}
  | .tables items => (names.zip items).foldlM withEntry? {}
  | .datetime => some {}
  | _ => none

end Settings

end Trace

namespace Config

/-- The configuration with one setting replaced, which must be known. -/
def withEntry? (c : Config) : String × Toml.Value → Option Config
  | ("max_options", value) => do
    return { c with limits := { c.limits with maxOptions := ← value.natural? } }
  | ("max_propagate_steps", value) => do
    return { c with limits := { c.limits with maxPropagateSteps := ← value.natural? } }
  | ("parallel", value) => do return { c with parallel := ← value.boolean? }
  | ("trace", value) => do return { c with trace := ← Trace.Settings.ofToml? value }
  | _ => none

/-- The configuration that a document gives. -/
def parse (text : String) : Except Fault Config :=
  match Toml.parse? text with
  | none => throw (.of (.invalidConfig "the document is malformed"))
  | some entries =>
    match entries.foldlM withEntry? {} with
    | none => throw (.of (.invalidConfig "a setting is unknown or of the wrong type"))
    | some config => return config

end Config

end Diachrony
