import Diachrony.Pattern.Basic
import Diachrony.Pattern.Finder

/-!
# Searching for a pattern

`Pattern.finder` gives every pattern its finder, by the operation that belongs to its form. The
preferred match at a position is the first candidate that the finder offers.
-/

namespace Diachrony

mutual

/-- The spans that a pattern describes. -/
def Pattern.finder (inv : Inventory) : Pattern → Finder
  | .empty => .emptyIf fun _ _ ↦ true
  | .never => .emptyIf fun _ _ ↦ false
  | .wordStart => .emptyIf Phrase.isWordStart
  | .wordEnd => .emptyIf Phrase.isWordEnd
  | .betweenWords => .ofEnd Phrase.nextWord?
  | .text literal => .ofEnd (Phrase.afterLiteral? (fun a b ↦ a.symbol = b.symbol) literal)
  | .symbol literal => .ofEnd (Phrase.afterLiteral? inv.spells literal)
  | .matrix values => .segmentWith inv values Finder.segmentMatrix?
  | .syllableMatrix values => .segmentWith inv values Finder.syllableMatrix?
  | .negated inner => .negated (inner.finder inv)
  | .syllable => .ofEnd Finder.syllableEnd?
  | .syllableBoundary => .emptyIf Finder.isSyllableEdge
  | .sequence items => .sequence (Pattern.finders inv items)
  | .alternative options => .alternative (Pattern.finders inv options)
  | .repeater inner min max => .repeater (inner.finder inv) min max
  | .capture inner number reversed => .capture (inner.finder inv) number reversed
  | .intersection initial checks =>
    .intersection (initial.finder inv) (Check.finders inv checks)
  | .environment core conditions exclusions =>
    .environment (core.finder inv) (Surroundings.finders inv conditions)
      (Surroundings.finders inv exclusions)
  | .captureReference number exact reversed => .captureReference inv number exact reversed

/-- The finders of a list of patterns. -/
def Pattern.finders (inv : Inventory) : List Pattern → List Finder
  | [] => []
  | p :: rest => p.finder inv :: Pattern.finders inv rest

/-- The finders of a list of checks, and whether each must not hold. -/
def Check.finders (inv : Inventory) : List Check → List (Finder × Bool)
  | [] => []
  | .mk p negated :: rest => (p.finder inv, negated) :: Check.finders inv rest

/-- The finders of both sides of surroundings. -/
def Surroundings.finders (inv : Inventory) : List Surroundings → List (Finder × Finder)
  | [] => []
  | .mk behind ahead :: rest =>
    (behind.finder inv, ahead.finder inv) :: Surroundings.finders inv rest

end

namespace Pattern

/-- The candidates of a pattern at a position, where nothing is known to follow. -/
def candidates (inv : Inventory) (p : Pattern) (scan : Scan) (start : Position) (b : Bindings) :
    Candidates Match := p.finder inv none scan start b

/-- The preferred end of a match at a position. -/
def firstStop? (inv : Inventory) (limit : Nat) (p : Pattern) (phrase : Phrase) (start : Position) :
    Except Fault (Option Position) := do
  let m ← (p.candidates inv (.of phrase) start .empty).first? ⟨limit, "pattern"⟩
  return m.map Match.stop

end Pattern

/-- The bindings that surroundings make around a span. -/
def Surroundings.candidates (inv : Inventory) (s : Surroundings) (scan : Scan)
    (start stop : Position) (b : Bindings) : Candidates Bindings :=
  Finder.around (s.behind.finder inv, s.ahead.finder inv) scan start stop b

end Diachrony
