/-!
# TOML values

A document is a table of values. Tables can be written in parts, and how a table came to be decides
what may still be added to it: a table has at most one header, the tables that a dotted key goes
through are closed to headers, and nothing is added to a table that is written inline.
-/

namespace Diachrony.Toml

/-- How a table came to be. -/
inductive Origin where
  /-- By a header of its own, or as the whole document. -/
  | header
  /-- On the way to a table with a header. -/
  | passing
  /-- On the way of a dotted key. -/
  | dotted
  /-- Written inline. -/
  | inline
deriving DecidableEq, Repr

/-- A value. Of floating point numbers and dates only the type is kept. -/
inductive Value where
  /-- A string. -/
  | string (s : String)
  /-- An integer. -/
  | integer (n : Int)
  /-- A truth value. -/
  | boolean (b : Bool)
  /-- A floating point number. -/
  | float
  /-- A date, a time or both. -/
  | datetime
  /-- A list of values. -/
  | array (items : List Value)
  /-- A table with its entries in order. -/
  | table (origin : Origin) (entries : List (String × Value))
  /-- The tables that have one header in turn. -/
  | tables (items : List Value)

instance : Inhabited Value := ⟨.boolean false⟩

namespace Value

/-- Entries with the value of a key replaced. -/
def replaceEntry (key : String) (value : Value) (entries : List (String × Value)) :
    List (String × Value) :=
  entries.map fun e ↦ if e.1 = key then (key, value) else e

/-- Changes the table at a path; tables that are missing on the way are made. A dotted key does not
go through tables with a header, and nothing goes through what is not a table or is written
inline. -/
def changeAt (dotted : Bool) (change : Value → Option Value) : List String → Value → Option Value
  | [], t => change t
  | key :: rest, .table origin entries =>
    match entries.lookup key with
    | none => do
      let t ← changeAt dotted change rest (.table (if dotted then .dotted else .passing) [])
      return .table origin (entries ++ [(key, t)])
    | some (.table own inner) =>
      if own = .inline ∨ dotted ∧ own = .header then none
      else do
        let t ← changeAt dotted change rest (.table own inner)
        return .table origin (replaceEntry key t entries)
    | some (.tables items) => do
      let t ← changeAt dotted change rest (← items.getLast?)
      return .table origin (replaceEntry key (.tables (items.dropLast ++ [t])) entries)
    | some _ => none
  | _ :: _, _ => none

/-- Adds an entry under a dotted key, given as the way and the last key. A table that a dotted key
made only gets entries by dotted keys, and other tables only get plain keys. -/
def addEntry (way : List String) (key : String) (value : Value) : Value → Option Value :=
  changeAt true (fun
    | .table origin entries =>
      if (origin = .dotted) = way.isEmpty ∨ (entries.lookup key).isSome then none
      else some (.table origin (entries ++ [(key, value)]))
    | _ => none) way

/-- Opens a table by its header. -/
def openTable (way : List String) (key : String) : Value → Option Value :=
  changeAt false (fun
    | .table origin entries =>
      match entries.lookup key with
      | none => some (.table origin (entries ++ [(key, .table .header [])]))
      | some (.table .passing inner) =>
        some (.table origin (replaceEntry key (.table .header inner) entries))
      | some _ => none
    | _ => none) way

/-- Adds a table to the tables of a header. -/
def openElement (way : List String) (key : String) : Value → Option Value :=
  changeAt false (fun
    | .table origin entries =>
      match entries.lookup key with
      | none => some (.table origin (entries ++ [(key, .tables [.table .header []])]))
      | some (.tables items) =>
        some (.table origin
          (replaceEntry key (.tables (items ++ [.table .header []])) entries))
      | some _ => none
    | _ => none) way

end Value

end Diachrony.Toml
