import Diachrony.Change.Output
import Diachrony.Pattern.Search

/-!
# Pairings and edits

A pattern and an output are paired element by element as far as their shapes agree. A match of a
pairing is cut into pieces, one for each pair, and each piece is replaced by the output of its pair.

An edit is a match together with what takes its place, piece by piece. Two edits overlap when they
can not both be made; an empty span overlaps only an equal one and a span that holds it inside.
-/

namespace Diachrony

/-- A pattern and an output, paired as deeply as their shapes allow. -/
inductive Pairing where
  /-- A pattern and what takes the place of its span. -/
  | single (pattern : Pattern) (output : Output)
  /-- Pairs one after the other. -/
  | sequence (items : List Pairing)
  /-- One of some pairs; earlier ones are preferred. -/
  | alternative (options : List Pairing)

instance : Inhabited Pairing := ⟨.sequence []⟩

mutual

/-- Pairs a pattern with an output. Alternatives in the output must have the branches of the pattern
as partners, and outputs in sequence that depend on their span must have the items of the pattern.
The texts of both sides are for the fault. -/
def Pattern.pair (source target : String) : Pattern → Output → Except Fault Pairing
  | .sequence ps, .sequence os => do
    if ps.length = os.length then return .sequence (← Pattern.pairEach source target ps os)
    else if Output.allIgnoreSpan os then return .single (.sequence ps) (.sequence os)
    else throw (.of (.invalidTransformation source target))
  | .alternative ps, .alternative os => do
    if ps.length = os.length then return .alternative (← Pattern.pairEach source target ps os)
    else throw (.of (.invalidTransformation source target))
  | _, .alternative _ => throw (.of (.invalidTransformation source target))
  | .alternative ps, o => do
    if o.ignoresSpan then return .single (.alternative ps) o
    else return .alternative (← Pattern.pairAll source target o ps)
  | p, .sequence os => do
    if Output.allIgnoreSpan os then return .single p (.sequence os)
    else throw (.of (.invalidTransformation source target))
  | p, o => return .single p o

/-- Pairs the patterns of a list with the outputs of a list. -/
def Pattern.pairEach (source target : String) :
    List Pattern → List Output → Except Fault (List Pairing)
  | p :: ps, o :: os => do
    return (← p.pair source target o) :: (← Pattern.pairEach source target ps os)
  | _, _ => return []

/-- Pairs every pattern of a list with one output. -/
def Pattern.pairAll (source target : String) (o : Output) :
    List Pattern → Except Fault (List Pairing)
  | [] => return []
  | p :: ps => do return (← p.pair source target o) :: (← Pattern.pairAll source target o ps)

end

/-- A part of a match that is replaced as a whole. -/
structure Piece where
  /-- Where the part starts. -/
  start : Position
  /-- Where it ends. -/
  stop : Position
  /-- The pattern that matched it. -/
  pattern : Pattern
  /-- What takes its place. -/
  output : Output

/-- A match cut into pieces. -/
structure TiledMatch extends Match where
  /-- The pieces in order. -/
  pieces : List Piece

/-- A search that extends a list of pieces and may be told what follows. -/
abbrev Tiling := Option Probe → Scan → Position → Bindings → List Piece → Candidates TiledMatch

namespace Tiling

/-- The spans of a finder, each as one piece. -/
def single (finder : Finder) (pattern : Pattern) (output : Output) : Tiling :=
  fun following scan start b pieces ↦ (finder following scan start b).map fun m ↦
    ⟨m, pieces ++ [⟨start, m.stop, pattern, output⟩]⟩

/-- Tilings one after the other, each told how the next one starts. -/
def sequence : List (Option Probe × Tiling) → Tiling
  | [] => fun _ _ start b pieces ↦ .pure ⟨⟨start, b⟩, pieces⟩
  | (_, first) :: rest => fun following scan start b pieces ↦
    let after := match rest with
      | [] => following
      | (leading, _) :: _ => leading
    (first after scan start b pieces).bind fun m ↦
      sequence rest following scan m.stop m.bindings m.pieces

/-- One of some tilings, a choice point before each. -/
def alternative : List (Option Probe × Tiling) → Tiling
  | [] => fun _ _ _ _ _ ↦ .done
  | (_, option) :: rest => fun following scan start b pieces ↦
    .choice fun _ ↦ .append (fun _ ↦ option following scan start b pieces) fun _ ↦
      alternative rest following scan start b pieces

end Tiling

namespace Pairing

mutual

/-- The pattern of a pairing, without the outputs. -/
def pattern : Pairing → Pattern
  | single pattern _ => pattern
  | sequence items => .sequence (patterns items)
  | alternative options => .alternative (patterns options)

/-- The patterns of a list of pairings. -/
def patterns : List Pairing → List Pattern
  | [] => []
  | p :: rest => p.pattern :: patterns rest

end

mutual

/-- The pattern that a match starts with, if there is only one. -/
def leading? : Pairing → Option Pattern
  | single pattern _ => some pattern
  | sequence items => firstLeading? items
  | alternative _ => none

/-- The pattern that a match of the first pairing starts with. -/
def firstLeading? : List Pairing → Option Pattern
  | [] => none
  | p :: _ => p.leading?

end

mutual

/-- The tiled spans that a pairing matches. -/
def tiling (inv : Inventory) : Pairing → Tiling
  | single pattern output => .single (pattern.finder inv) pattern output
  | sequence items => .sequence (tilings inv items)
  | alternative options => .alternative (tilings inv options)

/-- The tilings of a list of pairings, each with the probe of its leading pattern. -/
def tilings (inv : Inventory) : List Pairing → List (Option Probe × Tiling)
  | [] => []
  | p :: rest => (p.leading?.map fun q ↦ q.finder inv none, p.tiling inv) :: tilings inv rest

end

end Pairing

/-! ### Edits -/

/-- What takes the place of a piece. -/
structure Replacement where
  /-- Start of the replaced span. -/
  start : Position
  /-- End of the replaced span. -/
  stop : Position
  /-- The fragment that takes its place. -/
  result : Phrase
  /-- The changes to the syllables that the span touches. -/
  syllable : Matrix
deriving DecidableEq

/-- A match with its replacements. -/
structure Edit where
  /-- Index of the expression that made it. -/
  priority : Nat
  /-- Start of the match. -/
  start : Position
  /-- End of the match. -/
  stop : Position
  /-- The replacements in order. -/
  replacements : List Replacement
deriving DecidableEq

/-- The replacement of a piece. -/
def Piece.resolve (inv : Inventory) (b : Bindings) (p : Phrase) (piece : Piece) :
    Except Fault Replacement := do
  match p.slice? piece.start piece.stop with
  | none => throw Finder.outside
  | some span =>
    let product ← piece.output.produce inv b piece.pattern span
    return ⟨piece.start, piece.stop, product.phrase, product.syllable⟩

namespace Edit

/-- The edit of a tiled match with its final bindings. -/
def resolve (inv : Inventory) (p : Phrase) (priority : Nat) (start stop : Position)
    (pieces : List Piece) (b : Bindings) : Except Fault Edit := do
  return ⟨priority, start, stop, ← pieces.mapM (Piece.resolve inv b p)⟩

/-- Whether the match is empty. -/
def isInsertion (e : Edit) : Bool := e.start = e.stop

/-- Whether two edits can not both be made. -/
def overlaps (e f : Edit) : Bool :=
  match e.isInsertion, f.isInsertion with
  | true, true => e.start = f.start
  | true, false => f.start < e.start ∧ e.start < f.stop
  | false, true => e.start < f.start ∧ f.start < e.stop
  | false, false => e.start < f.stop ∧ f.start < e.stop

/-- All replacements joined. -/
def result (e : Edit) : Phrase := .join (e.replacements.map Replacement.result)

end Edit

end Diachrony
