import Diachrony.Toml.Value

/-!
# Numbers, dates and truth values of TOML

These values are written without quotation marks, as one run of letters, digits and some signs.
-/

namespace Diachrony.Toml

/-- Whether a character can stand in a value without quotation marks. -/
def isScalarChar (c : Char) : Bool := c.isAlphanum || "_-+.:".toList.contains c

/-- The digits of a number, whose groups are separated by single underscores. -/
def digits? (isDigit : Char → Bool) (cs : List Char) : Option (List Char) :=
  let groups := cs.splitOn '_'
  if groups.all fun group ↦ !group.isEmpty && group.all isDigit then some groups.flatten else none

/-- The digits of a decimal number, which has no zeros in front. -/
def decimal? (cs : List Char) : Option (List Char) := do
  let ds ← digits? Char.isDigit cs
  if 1 < ds.length ∧ ds.head? = some '0' then none else return ds

/-- Whether a character is a hexadecimal digit. -/
def isHexDigit (c : Char) : Bool :=
  c.isDigit || ('a' ≤ c && c ≤ 'f') || ('A' ≤ c && c ≤ 'F')

/-- The value of a digit. -/
def digitValue (c : Char) : Nat :=
  if c.isDigit then c.toNat - 0x30 else if c.isUpper then c.toNat - 0x37 else c.toNat - 0x57

/-- The number that digits stand for. -/
def ofDigits (base : Nat) (ds : List Char) : Nat :=
  ds.foldl (fun n d ↦ base * n + digitValue d) 0

/-- A number as an integer, if it fits into 64 bits. -/
def bounded? (n : Int) : Option Int :=
  if -0x8000000000000000 ≤ n ∧ n < 0x8000000000000000 then some n else none

/-- What follows the sign of a number. -/
def unsigned : List Char → List Char
  | '+' :: cs | '-' :: cs => cs
  | cs => cs

/-- An integer in one of four bases. -/
def integer? : List Char → Option Int
  | '0' :: 'x' :: cs => do bounded? (ofDigits 16 (← digits? isHexDigit cs))
  | '0' :: 'o' :: cs => do bounded? (ofDigits 8 (← digits? (fun c ↦ '0' ≤ c && c ≤ '7') cs))
  | '0' :: 'b' :: cs => do bounded? (ofDigits 2 (← digits? (fun c ↦ c = '0' || c = '1') cs))
  | '-' :: cs => do bounded? (-(ofDigits 10 (← decimal? cs) : Int))
  | cs => do bounded? (ofDigits 10 (← decimal? (unsigned cs)))

/-- Whether a character starts an exponent. -/
def startsExponent (c : Char) : Bool := c = 'e' || c = 'E'

/-- The power of ten that an exponent stands for; no exponent stands for none. -/
def exponent? : List Char → Option Int
  | [] => some 0
  | e :: cs => do
    if !startsExponent e then failure
    let power := ofDigits 10 (← digits? Char.isDigit (unsigned cs))
    return if cs.head? = some '-' then -power else power

/-- The digits and the power of ten of a floating point number, which has places or an exponent. The
sign is left out. -/
def float? (cs : List Char) : Option (Nat × Int) := do
  let (whole, rest) := (unsigned cs).span fun c ↦ c ≠ '.' && !startsExponent c
  let ds ← decimal? whole
  match rest with
  | [] => none
  | '.' :: rest =>
    let (part, exponent) := rest.span fun c ↦ !startsExponent c
    let places ← digits? Char.isDigit part
    return (ofDigits 10 (ds ++ places), (← exponent? exponent) - places.length)
  | exponent => return (ofDigits 10 ds, ← exponent? exponent)

/-- The least number that is rounded to infinity when 53 binary digits and the exponent 1023 are all
there is to hold it. -/
def leastInfinite : Nat := Nat.pow 2 1024 - Nat.pow 2 970

/-- Whether the number of some digits and a power of ten is rounded to infinity. Far from the limit
the count of digits decides. -/
def isInfinite (digits : Nat) (power : Int) : Bool :=
  let size := power + (Nat.toDigits 10 digits).length
  if digits = 0 || size < 300 then false
  else if 320 < size then true
  else leastInfinite * Nat.pow 10 (-power).toNat ≤ digits * Nat.pow 10 power.toNat

/-- Whether a text is a floating point number. One above zero must not be rounded to infinity. -/
def isFloat (cs : List Char) : Bool :=
  unsigned cs = "inf".toList || unsigned cs = "nan".toList ||
    match float? cs with
    | some (digits, power) => cs.head? = some '-' || !isInfinite digits power
    | none => false

/-- The number that two digits stand for. -/
def twoDigits? (a b : Char) : Option Nat :=
  if a.isDigit && b.isDigit then some (ofDigits 10 [a, b]) else none

/-- Number of days of a month. -/
def daysInMonth (year month : Nat) : Nat :=
  if month = 2 then
    if year % 4 = 0 ∧ (year % 100 ≠ 0 ∨ year % 400 = 0) then 29 else 28
  else if [4, 6, 9, 11].contains month then 30
  else 31

/-- Whether a text is a date. -/
def isDate : List Char → Bool
  | [y₁, y₂, y₃, y₄, '-', m₁, m₂, '-', d₁, d₂] =>
    match twoDigits? y₁ y₂, twoDigits? y₃ y₄, twoDigits? m₁ m₂, twoDigits? d₁ d₂ with
    | some century, some year, some month, some day =>
      1 ≤ month && month ≤ 12 && 1 ≤ day && day ≤ daysInMonth (100 * century + year) month
    | _, _, _, _ => false
  | _ => false

/-- Whether a text is an hour and a minute. -/
def isHourMinute : List Char → Bool
  | [h₁, h₂, ':', m₁, m₂] =>
    match twoDigits? h₁ h₂, twoDigits? m₁ m₂ with
    | some hour, some minute => hour < 24 && minute < 60
    | _, _ => false
  | _ => false

/-- Whether a text is a second with any number of places behind a point. -/
def isSecond : List Char → Bool
  | s₁ :: s₂ :: places =>
    (match twoDigits? s₁ s₂ with
      | some second => second ≤ 60
      | none => false) &&
    match places with
    | [] => true
    | '.' :: places => !places.isEmpty && places.all Char.isDigit
    | _ => false
  | _ => false

/-- Whether a text is a time of a day. -/
def isTime (cs : List Char) : Bool :=
  isHourMinute (cs.take 5) && (match cs.drop 5 with
    | ':' :: rest => isSecond rest
    | _ => false)

/-- Whether a text says how far a time is from universal time. -/
def isOffset : List Char → Bool
  | ['Z'] | ['z'] => true
  | '+' :: cs | '-' :: cs => isHourMinute cs
  | _ => false

/-- Whether a text is a time of a day, an offset allowed. -/
def isTimeWithOffset (cs : List Char) : Bool :=
  let (time, offset) := cs.span fun c ↦ !"Zz+-".toList.contains c
  isTime time && (offset.isEmpty || isOffset offset)

/-- Whether a text is a date, a time or both. -/
def isDatetime (cs : List Char) : Bool :=
  isTime cs || isDate (cs.take 10) && match cs.drop 10 with
    | [] => true
    | c :: rest => (c = 'T' || c = 't') && isTimeWithOffset rest

/-- A value that is written without quotation marks. -/
def scalar? (cs : List Char) : Option Value :=
  if cs = "true".toList then some (.boolean true)
  else if cs = "false".toList then some (.boolean false)
  else if isDatetime cs then some .datetime
  else if isFloat cs then some .float
  else .integer <$> integer? cs

end Diachrony.Toml
