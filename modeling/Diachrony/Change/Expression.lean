import Diachrony.Language.Basic
import Diachrony.Change.Pairing

/-!
# Expressions

An expression changes the matches of a pairing for which one of its conditions holds. Where an
exclusion holds around some match of the pattern no edit starts.

`edits` makes one pass over a phrase: from left to right it takes the preferred match at each
position that is not excluded and goes on after it. `firstEdit?` and `lastEdit?` look for a single
edit from one side.
-/

namespace Diachrony

/-- A change with its conditions and exclusions. -/
structure Expression where
  /-- What is matched and what takes its place. -/
  pairing : Pairing
  /-- Surroundings of which one must hold; none means that all do. -/
  conditions : List Surroundings := []
  /-- Surroundings of which none may hold. -/
  exclusions : List Surroundings := []
  /-- The expression as written. -/
  text : String

namespace Expression

/-- The pattern that is matched. -/
def pattern (e : Expression) : Pattern := e.pairing.pattern

/-- The surroundings to try in order. -/
def settings (e : Expression) : List Surroundings :=
  if e.conditions.isEmpty then [.always] else e.conditions

/-- The matches of the pattern at a position around which some exclusion holds. -/
def exclusionsAt (lang : Language) (e : Expression) (scan : Scan) (start : Position) :
    Candidates Bindings :=
  (e.pattern.candidates lang.inventory scan start .empty).bind fun m ↦
    Finder.inSome scan start m.stop m.bindings (Surroundings.finders lang.inventory e.exclusions)

/-- Whether an exclusion keeps edits from starting at a position. -/
def isExcluded (lang : Language) (e : Expression) (scan : Scan) (start : Position) :
    Except Fault Bool := do
  if e.exclusions.isEmpty then return false
  return (← (e.exclusionsAt lang scan start).first? (lang.budget e.text)).isSome

/-- The positions of a phrase that are excluded, and those that are not. -/
def openPositions (lang : Language) (e : Expression) (scan : Scan) :
    Except Fault (List Position) :=
  scan.phrase.positions.filterM fun start ↦ do return !(← e.isExcluded lang scan start)

/-- The matches at a position under one condition, none of which ends after a limit. -/
def matchesAt (lang : Language) (e : Expression) (scan : Scan) (limit : Option Position)
    (start : Position) (condition : Surroundings) : Candidates TiledMatch :=
  match scan.phrase.turn? start with
  | none => .fail Finder.outside
  | some back =>
    (condition.behind.candidates lang.inventory scan.turned back .empty).bind fun behind ↦
      (e.pairing.tiling lang.inventory none scan start behind.bindings []).bind fun tiled ↦
        if limit.any (· < tiled.stop) then .done
        else (condition.ahead.candidates lang.inventory scan tiled.stop tiled.bindings).map
          fun ahead ↦ { tiled with bindings := ahead.bindings }

/-- The first edit at a position under one of some conditions. -/
def editUnder (lang : Language) (e : Expression) (scan : Scan) (limit : Option Position)
    (priority : Nat) (start : Position) : List Surroundings → Except Fault (Option Edit)
  | [] => return none
  | condition :: rest => do
    match ← (e.matchesAt lang scan limit start condition).first? (lang.budget e.text) with
    | some m =>
      some <$> Edit.resolve lang.inventory scan.phrase priority start m.stop m.pieces m.bindings
    | none => editUnder lang e scan limit priority start rest

/-- The edit at a position, unless it would end after a limit. -/
def editAt (lang : Language) (e : Expression) (scan : Scan) (limit : Option Position)
    (priority : Nat) (start : Position) : Except Fault (Option Edit) :=
  e.editUnder lang scan limit priority start e.settings

/-- The edits at some positions in order, each after the end of the one before. -/
def editsFrom (lang : Language) (e : Expression) (scan : Scan) (priority : Nat)
    (cursor : Position) : List Position → Except Fault (List Edit)
  | [] => return []
  | start :: rest => do
    if start < cursor then editsFrom lang e scan priority cursor rest
    else match ← e.editAt lang scan none priority start with
      | some edit => return edit :: (← editsFrom lang e scan priority edit.stop rest)
      | none => editsFrom lang e scan priority cursor rest

/-- The edits of one pass over a phrase. -/
def edits (lang : Language) (e : Expression) (p : Phrase) (priority : Nat) :
    Except Fault (List Edit) := do
  let scan := Scan.of p
  e.editsFrom lang scan priority p.start (← e.openPositions lang scan)

/-- The edit at the first of some positions that has one. -/
def firstAmong (lang : Language) (e : Expression) (scan : Scan) (limit : Option Position)
    (priority : Nat) : List Position → Except Fault (Option Edit)
  | [] => return none
  | start :: rest => do
    match ← e.editAt lang scan limit priority start with
    | some edit => return some edit
    | none => firstAmong lang e scan limit priority rest

/-- The first edit that starts at a position or after it. -/
def firstEdit? (lang : Language) (e : Expression) (p : Phrase) (start : Position)
    (priority : Nat) : Except Fault (Option Edit) := do
  let scan := Scan.of p
  let positions ← e.openPositions lang scan
  e.firstAmong lang scan none priority (positions.filter fun i ↦ start ≤ i)

/-- The edit with the last start among those that lie before a limit. -/
def lastEdit? (lang : Language) (e : Expression) (p : Phrase) (limit : Option Position)
    (priority : Nat) : Except Fault (Option Edit) := do
  let scan := Scan.of p
  let positions ← e.openPositions lang scan
  e.firstAmong lang scan limit priority
    (positions.filter fun i ↦ limit.all (i < ·)).reverse

end Expression

end Diachrony
