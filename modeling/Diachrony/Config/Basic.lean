import Diachrony.Language.Basic
import Diachrony.Trace.Recorder

/-!
# Configurations

How words are changed: the bounds on the work of rules, whether words may be changed side by side,
and how they are traced.
-/

namespace Diachrony

/-- How words are changed. -/
structure Config where
  /-- Bounds on the work of rules. -/
  limits : Limits := {}
  /-- Whether words may be changed side by side, which changes no answer. -/
  parallel : Bool := true
  /-- How words are traced. -/
  trace : Trace.Settings := {}
deriving DecidableEq, Repr

end Diachrony
