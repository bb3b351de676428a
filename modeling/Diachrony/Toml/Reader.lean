import Diachrony.Toml.Quoted

/-!
# Reading TOML

A document is read line by line into a table. Every reader takes what it reads from the front of the
text, and the length of the text bounds the number of its steps. Keys have a greatest length, and
values a greatest depth.
-/

namespace Diachrony.Toml

/-- A reader takes what it reads from the front of a text. -/
abbrev Reader := StateT (List Char) Option

namespace Reader

/-- Number of parts that a key may have, and of arrays and inline tables that may lie in one
another. -/
def maxDepth : Nat := 79

/-- Takes a character from the text, if it is next. -/
def accept (c : Char) : Reader Bool := do
  match ← get with
  | d :: rest => if c = d then do set rest; return true else return false
  | [] => return false

/-- Takes a character from the text. -/
def expect (c : Char) : Reader Unit := do
  if !(← accept c) then failure

/-- Leaves out spaces and tabs. -/
def skipBlanks : Reader Unit := modify (·.dropWhile fun c ↦ c = ' ' || c = '\t')

/-- The text behind blanks, ends of lines and comments. -/
def behindVoid (inComment : Bool) : List Char → Option (List Char)
  | [] => some []
  | '\r' :: '\n' :: rest => behindVoid false rest
  | '\n' :: rest => behindVoid false rest
  | c :: rest =>
    if inComment then if isTextChar c then behindVoid true rest else none
    else if c = ' ' || c = '\t' then behindVoid false rest
    else if c = '#' then behindVoid true rest
    else some (c :: rest)

/-- Leaves out blanks, ends of lines and comments. -/
def skipVoid : Reader Unit := do set (← behindVoid false (← get))

/-- Reads what may follow on a line, and its end. -/
def lineEnd : Reader Unit := do
  skipBlanks
  if ← accept '#' then modify (·.dropWhile isTextChar)
  match ← get with
  | [] => return ()
  | '\r' :: '\n' :: rest | '\n' :: rest => set rest
  | _ => failure

/-- Reads a key without points. -/
def simpleKey : Reader String := do
  match ← get with
  | '"' :: rest =>
    let (key, rest) ← basic? rest
    set rest
    return String.ofList key
  | '\'' :: rest =>
    let (key, rest) ← literal? rest
    set rest
    return String.ofList key
  | cs =>
    let (key, rest) := cs.span fun c ↦ c.isAlphanum || c = '_' || c = '-'
    if key.isEmpty then failure
    set rest
    return String.ofList key

/-- Reads a key with points: the keys on the way, and the last one. -/
def dottedKey : Nat → Reader (List String × String)
  | 0 => failure
  | bound + 1 => do
    skipBlanks
    let key ← simpleKey
    skipBlanks
    if ← accept '.' then
      let (way, last) ← dottedKey bound
      return (key :: way, last)
    return ([], key)

/-- Reads a value without quotation marks. A date may be followed by a space and a time. -/
def scalar : Reader Value := do
  let (cs, rest) := (← get).span isScalarChar
  set rest
  if isDate cs then
    if let ' ' :: behind := rest then
      let (time, behind) := behind.span isScalarChar
      if isTimeWithOffset time then set behind
  scalar? cs

/-- Reads a key and the mark behind it. -/
def keyOfEntry : Reader (List String × String) := do
  let key ← dottedKey maxDepth
  expect '='
  skipBlanks
  return key

mutual

/-- Reads a value that has some room for values in values. -/
def value : Nat → Nat → Reader Value
  | 0, _ => failure
  | bound + 1, room => do
    match ← get with
    | '"' :: _ | '\'' :: _ =>
      let (s, rest) ← string? (← get)
      set rest
      return .string (String.ofList s)
    | '[' :: rest =>
      if room = 0 then failure
      set rest
      return .array (← elements bound (room - 1))
    | '\x7b' :: rest =>
      if room = 0 then failure
      set rest
      skipBlanks
      if ← accept '\x7d' then return .table .inline []
      entries bound (room - 1) (.table .inline [])
    | _ => scalar

/-- Reads the rest of an array. -/
def elements : Nat → Nat → Reader (List Value)
  | 0, _ => failure
  | bound + 1, room => do
    skipVoid
    if ← accept ']' then return []
    let first ← value bound room
    skipVoid
    if ← accept ',' then return first :: (← elements bound room)
    expect ']'
    return [first]

/-- Reads the rest of an inline table into the entries before. -/
def entries : Nat → Nat → Value → Reader Value
  | 0, _, _ => failure
  | bound + 1, room, table => do
    let (way, key) ← keyOfEntry
    let entry ← value bound room
    let table ← Value.addEntry way key entry table
    skipBlanks
    if ← accept ',' then entries bound room table
    else do
      expect '\x7d'
      return table

end

/-- What a line of a document does. -/
inductive Line where
  /-- Adds an entry to the table of the last header. -/
  | entry (way : List String) (key : String) (value : Value)
  /-- Opens a table. -/
  | header (way : List String) (key : String)
  /-- Opens one more table of a list. -/
  | element (way : List String) (key : String)

/-- Reads a line that says something. -/
def line : Reader Line := do
  let bound := 2 * (← get).length + 2
  if ← accept '[' then
    if ← accept '[' then
      let (way, key) ← dottedKey maxDepth
      expect ']'
      expect ']'
      return .element way key
    let (way, key) ← dottedKey maxDepth
    expect ']'
    return .header way key
  let (way, key) ← keyOfEntry
  return .entry way key (← value bound maxDepth)

/-- Reads lines up to the end of the text. -/
def lines : Nat → Reader (List Line)
  | 0 => failure
  | bound + 1 => do
    skipVoid
    if (← get).isEmpty then return []
    let first ← line
    lineEnd
    return first :: (← lines bound)

end Reader

/-- What has been read of a document. -/
structure Draft where
  /-- The whole document. -/
  root : Value
  /-- The path of the last header. -/
  current : List String

/-- Goes on with a line. -/
def Draft.addLine (d : Draft) : Reader.Line → Option Draft
  | .entry way key value => do
    return { d with root := ← d.root.changeAt false (Value.addEntry way key value) d.current }
  | .header way key => do return ⟨← d.root.openTable way key, way ++ [key]⟩
  | .element way key => do return ⟨← d.root.openElement way key, way ++ [key]⟩

/-- Text without the mark of its encoding. -/
def dropMark : List Char → List Char
  | '\uFEFF' :: rest => rest
  | cs => cs

/-- The table that a document is. -/
def parse? (text : String) : Option (List (String × Value)) := do
  let cs := dropMark text.toList
  let (lines, _) ← Reader.lines (cs.length + 1) cs
  match (← lines.foldlM Draft.addLine ⟨.table .header [], []⟩).root with
  | .table _ entries => return entries
  | _ => none

end Diachrony.Toml
