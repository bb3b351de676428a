import Diachrony.Trace.Record

/-!
# Written records

Records are written as lines to be read by people, or as JSON objects without blanks. In strings of
JSON the quotation mark, the backslash and every control character are escaped; all else stands for
itself.
-/

namespace Diachrony.Trace

/-- The JSON values that are written. -/
inductive Json where
  /-- A natural number. -/
  | number (n : Nat)
  /-- A string. -/
  | string (s : String)
  /-- An object with its fields in order. -/
  | object (fields : List (String × Json))

namespace Json

/-- Whether a character is a control character. -/
def isControl (c : Char) : Bool := c.toNat < 0x20 || (0x7f ≤ c.toNat && c.toNat < 0xa0)

/-- A number below 65536 in four hexadecimal digits. -/
def hexadecimal (n : Nat) : List Char :=
  [n / 4096 % 16, n / 256 % 16, n / 16 % 16, n % 16].map Nat.digitChar

/-- A character as it stands in a string. -/
def escapeChar (c : Char) : List Char :=
  if c = '\\' then ['\\', '\\']
  else if c = '"' then ['\\', '"']
  else if c = '\n' then ['\\', 'n']
  else if c = '\r' then ['\\', 'r']
  else if c = '\t' then ['\\', 't']
  else if isControl c then '\\' :: 'u' :: hexadecimal c.toNat
  else [c]

/-- A string with its quotation marks. -/
def quoted (s : String) : String :=
  "\"" ++ String.ofList (s.toList.flatMap escapeChar) ++ "\""

mutual

/-- The text of a value. -/
def toText : Json → String
  | number n => toString n
  | string s => quoted s
  | object fields => "\x7b" ++ ",".intercalate (fieldTexts fields) ++ "\x7d"

/-- The texts of fields. -/
def fieldTexts : List (String × Json) → List String
  | [] => []
  | (name, value) :: rest => (quoted name ++ ":" ++ value.toText) :: fieldTexts rest

end

end Json

/-- What a line tells apart from the event. -/
structure LineStyle where
  /-- Whether lines name the word. -/
  words : Bool := false
  /-- Whether lines begin with the number of the record. -/
  ids : Bool := false
deriving DecidableEq, Repr

/-- Number of digits to which numbers of records are filled up in lines. -/
def idWidth : Nat := 6

namespace Event

/-- An event in words. -/
def describe : Event → String
  | applied step before after => "Applied " ++ step ++ ": " ++ before ++ " -> " ++ after
  | romanized stage form => "Romanized " ++ stage ++ ": " ++ form
  | failed step message => "Failed " ++ step ++ ": " ++ message

/-- The parts of an event as fields. -/
def fields : Event → List (String × Json)
  | applied step before after =>
    [("step", .string step), ("before", .string before), ("after", .string after)]
  | romanized stage form => [("stage", .string stage), ("form", .string form)]
  | failed step message => [("step", .string step), ("message", .string message)]

end Event

namespace Record

/-- The number of a record, filled up with zeros. -/
def paddedId (r : Record) : String :=
  String.ofList ((Nat.toDigits 10 r.id).leftpad idWidth '0')

/-- A record as a line. -/
def line (style : LineStyle) (r : Record) : String :=
  (if style.ids then "[" ++ r.paddedId ++ "] " else "")
    ++ (if style.words then r.word ++ ": " else "") ++ r.event.describe

/-- Records as lines. -/
def lines (style : LineStyle) (records : List Record) : String :=
  "\n".intercalate (records.map (line style))

/-- A record as a JSON object. -/
def json (r : Record) : Json :=
  .object ([("id", .number r.id), ("word", .string r.word), ("type", .string r.event.kind)]
    ++ r.event.fields)

/-- The text of a record as a JSON object. -/
def jsonText (r : Record) : String := r.json.toText

/-- Records as a JSON array on one line. -/
def jsonArray (records : List Record) : String :=
  "[" ++ ",".intercalate (records.map jsonText) ++ "]"

/-- Records as a JSON array with a line for each. -/
def jsonLines (records : List Record) : String :=
  "[\n  " ++ ",\n  ".intercalate (records.map jsonText) ++ "\n]"

end Record

end Diachrony.Trace
