import Diachrony.Toml.Scalar

/-!
# Strings of TOML

Strings stand between quotation marks, one for strings on one line and three for others. Between
double marks a backslash starts an escape, and a backslash at the end of a line leaves out the
blanks up to the next character. Between single marks every character stands for itself.
-/

namespace Diachrony.Toml

/-- Whether a character can stand in strings and comments. -/
def isTextChar (c : Char) : Bool := c = '\t' || (0x20 ≤ c.toNat && c.toNat ≠ 0x7f)

/-- The character with a number that is written in hexadecimal digits. -/
def unicode? (ds : List Char) : Option Char :=
  let n := ofDigits 16 ds
  if ds.all isHexDigit ∧ n.isValidChar then some (Char.ofNat n) else none

/-- The character that an escape of one letter stands for. -/
def escaped? : Char → Option Char
  | 'b' => some '\x08'
  | 't' => some '\t'
  | 'n' => some '\n'
  | 'f' => some '\x0c'
  | 'r' => some '\r'
  | '"' => some '"'
  | '\\' => some '\\'
  | _ => none

/-- A string that was read, with one more character in front. -/
def push (c : Char) (read : List Char × List Char) : List Char × List Char :=
  (c :: read.1, read.2)

/-- What is between double marks, and the text behind them. -/
def basic? : List Char → Option (List Char × List Char)
  | [] => none
  | '"' :: rest => some ([], rest)
  | '\\' :: 'u' :: a :: b :: c :: d :: rest => do
    let u ← unicode? [a, b, c, d]
    push u <$> basic? rest
  | '\\' :: 'U' :: a :: b :: c :: d :: e :: f :: g :: h :: rest => do
    let u ← unicode? [a, b, c, d, e, f, g, h]
    push u <$> basic? rest
  | '\\' :: c :: rest => do
    let u ← escaped? c
    push u <$> basic? rest
  | c :: rest => if isTextChar c then push c <$> basic? rest else none

/-- What is between single marks, and the text behind them. -/
def literal? : List Char → Option (List Char × List Char)
  | [] => none
  | '\'' :: rest => some ([], rest)
  | c :: rest => if isTextChar c then push c <$> literal? rest else none

/-- Where a string of several lines is at a backslash. -/
inductive Fold where
  /-- At no backslash. -/
  | off
  /-- Behind a backslash, in front of the end of its line. -/
  | pending
  /-- In front of the next character. -/
  | skipping
deriving DecidableEq, Repr

/-- What is between three double marks, and the text behind them. Up to two marks in front of the
last three belong to the string. -/
def multilineBasic? : Fold → List Char → Option (List Char × List Char)
  | _, [] => none
  | .off, '\r' :: '\n' :: rest => push '\n' <$> multilineBasic? .off rest
  | .off, '\n' :: rest => push '\n' <$> multilineBasic? .off rest
  | _, '\r' :: '\n' :: rest => multilineBasic? .skipping rest
  | _, '\n' :: rest => multilineBasic? .skipping rest
  | .pending, c :: rest => if c = ' ' || c = '\t' then multilineBasic? .pending rest else none
  | .skipping, ' ' :: rest => multilineBasic? .skipping rest
  | .skipping, '\t' :: rest => multilineBasic? .skipping rest
  | _, '"' :: '"' :: '"' :: '"' :: '"' :: rest => some (['"', '"'], rest)
  | _, '"' :: '"' :: '"' :: '"' :: rest => some (['"'], rest)
  | _, '"' :: '"' :: '"' :: rest => some ([], rest)
  | _, '\\' :: '\r' :: '\n' :: rest => multilineBasic? .skipping rest
  | _, '\\' :: '\n' :: rest => multilineBasic? .skipping rest
  | _, '\\' :: ' ' :: rest => multilineBasic? .pending rest
  | _, '\\' :: '\t' :: rest => multilineBasic? .pending rest
  | _, '\\' :: 'u' :: a :: b :: c :: d :: rest => do
    let u ← unicode? [a, b, c, d]
    push u <$> multilineBasic? .off rest
  | _, '\\' :: 'U' :: a :: b :: c :: d :: e :: f :: g :: h :: rest => do
    let u ← unicode? [a, b, c, d, e, f, g, h]
    push u <$> multilineBasic? .off rest
  | _, '\\' :: c :: rest => do
    let u ← escaped? c
    push u <$> multilineBasic? .off rest
  | _, c :: rest => if isTextChar c then push c <$> multilineBasic? .off rest else none

/-- What is between three single marks, and the text behind them. Up to two marks in front of the
last three belong to the string. -/
def multilineLiteral? : List Char → Option (List Char × List Char)
  | [] => none
  | '\r' :: '\n' :: rest => push '\n' <$> multilineLiteral? rest
  | '\n' :: rest => push '\n' <$> multilineLiteral? rest
  | '\'' :: '\'' :: '\'' :: '\'' :: '\'' :: rest => some (['\'', '\''], rest)
  | '\'' :: '\'' :: '\'' :: '\'' :: rest => some (['\''], rest)
  | '\'' :: '\'' :: '\'' :: rest => some ([], rest)
  | c :: rest => if isTextChar c then push c <$> multilineLiteral? rest else none

/-- The text behind the end of a line, if it starts with one. -/
def dropNewline : List Char → List Char
  | '\r' :: '\n' :: rest | '\n' :: rest => rest
  | cs => cs

/-- A string at the start of a text, and the text behind it. -/
def string? : List Char → Option (List Char × List Char)
  | '"' :: '"' :: '"' :: rest => multilineBasic? .off (dropNewline rest)
  | '"' :: rest => basic? rest
  | '\'' :: '\'' :: '\'' :: rest => multilineLiteral? (dropNewline rest)
  | '\'' :: rest => literal? rest
  | _ => none

end Diachrony.Toml
