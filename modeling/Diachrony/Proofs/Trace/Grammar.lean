import Mathlib.Data.List.Basic
import Mathlib.Data.Rat.Defs
import Mathlib.Algebra.Field.Rat
import Diachrony.Toml.Scalar
import Diachrony.Trace.Writing

/-!
# Reading JSON

The grammar of RFC 8259, independent of the text that is written here. A text is cut into tokens,
and a text denotes a value if its tokens are those of the value. There is one such value at most.
Strings hold characters only: a surrogate without its partner is refused.
-/

namespace Diachrony.Trace.Json

open Toml (isHexDigit ofDigits startsExponent unsigned)

/-- The values that JSON texts denote. -/
inductive Value where
  /-- Nothing. -/
  | null
  /-- A truth value. -/
  | boolean (b : Bool)
  /-- A number, however it is written. -/
  | number (q : ℚ)
  /-- A string. -/
  | string (s : String)
  /-- An array. -/
  | array (items : List Value)
  /-- An object with its members in order. -/
  | object (members : List (String × Value))

/-- What a text consists of, apart from blanks. -/
inductive Token where
  /-- A structural character. -/
  | mark (c : Char)
  /-- The literal name of nothing. -/
  | null
  /-- The literal name of a truth value. -/
  | boolean (b : Bool)
  /-- A number. -/
  | number (q : ℚ)
  /-- A string. -/
  | string (s : String)
deriving DecidableEq

section Grammar

/-! ### Values -/

mutual

/-- The tokens of a value. -/
def Value.tokens : Value → List Token
  | .null => [.null]
  | .boolean b => [.boolean b]
  | .number q => [.number q]
  | .string s => [.string s]
  | .array items => .mark '[' :: ([.mark ','].intercalate (itemTokens items) ++ [.mark ']'])
  | .object members =>
    .mark '\x7b' :: ([.mark ','].intercalate (memberTokens members) ++ [.mark '\x7d'])

/-- The tokens of each item of an array. -/
def itemTokens : List Value → List (List Token)
  | [] => []
  | v :: rest => v.tokens :: itemTokens rest

/-- The tokens of each member of an object. -/
def memberTokens : List (String × Value) → List (List Token)
  | [] => []
  | (name, v) :: rest => (.string name :: .mark ':' :: v.tokens) :: memberTokens rest

end

/-! ### Strings -/

/-- What a string spells at a place. -/
inductive Spelling where
  /-- A character. -/
  | char (c : Char)
  /-- A unit of UTF-16, by its number. -/
  | unit (n : Nat)
deriving DecidableEq

/-- Whether a unit is the first half of a character. -/
def isHighSurrogate (n : Nat) : Bool := 0xd800 ≤ n && n < 0xdc00

/-- Whether a unit is the second half of a character. -/
def isLowSurrogate (n : Nat) : Bool := 0xdc00 ≤ n && n < 0xe000

/-- The characters that are spelled. -/
def characters? : List Spelling → Option (List Char)
  | [] => some []
  | .char c :: rest => (c :: ·) <$> characters? rest
  | .unit n :: rest =>
    if isHighSurrogate n then
      match rest with
      | .unit m :: rest' =>
        if isLowSurrogate m then
          (Char.ofNat (0x10000 + 0x400 * (n - 0xd800) + (m - 0xdc00)) :: ·) <$> characters? rest'
        else none
      | _ => none
    else if isLowSurrogate n then none
    else (Char.ofNat n :: ·) <$> characters? rest

/-- The character that an escape of one letter stands for. -/
def escaped? : Char → Option Char
  | '"' => some '"'
  | '\\' => some '\\'
  | '/' => some '/'
  | 'b' => some '\x08'
  | 'f' => some '\x0c'
  | 'n' => some '\n'
  | 'r' => some '\r'
  | 't' => some '\t'
  | _ => none

/-- The unit that is written in hexadecimal digits. -/
def unit? (ds : List Char) : Option Nat :=
  if ds.all isHexDigit then some (ofDigits 16 ds) else none

/-! ### Numbers and literal names -/

/-- The places behind the point, and the text behind them. No point stands for no places. -/
def places? : List Char → Option (List Char × List Char)
  | '.' :: cs =>
    let (places, rest) := cs.span Char.isDigit
    if places = [] then none else some (places, rest)
  | cs => some ([], cs)

/-- The power of ten that an exponent stands for. No exponent stands for none. -/
def power? : List Char → Option Int
  | [] => some 0
  | e :: cs =>
    let ds := unsigned cs
    if startsExponent e ∧ ds ≠ [] ∧ ds.all Char.isDigit then
      some (if cs.head? = some '-' then -ofDigits 10 ds else ofDigits 10 ds)
    else none

/-- A number without sign, whose whole part has no zeros in front. -/
def magnitude? (cs : List Char) : Option ℚ := do
  let (whole, rest) := cs.span Char.isDigit
  if whole = [] ∨ 1 < whole.length ∧ whole.head? = some '0' then none
  let (places, rest) ← places? rest
  let power ← power? rest
  return ofDigits 10 (whole ++ places) * 10 ^ (power - places.length)

/-- A number. -/
def number? : List Char → Option ℚ
  | '-' :: cs => (- ·) <$> magnitude? cs
  | cs => magnitude? cs

/-- The token of a word, which is what stands between blanks, structural characters and strings. -/
def word? (cs : List Char) : Option Token :=
  if cs = ['n', 'u', 'l', 'l'] then some .null
  else if cs = ['t', 'r', 'u', 'e'] then some (.boolean true)
  else if cs = ['f', 'a', 'l', 's', 'e'] then some (.boolean false)
  else .number <$> number? cs

/-- The token of a word, and none if there is no word. -/
def ended? (word : List Char) : Option (List Token) :=
  if word = [] then some [] else ([·]) <$> word? word

/-! ### Texts -/

/-- Whether a character is a blank. -/
def isBlank (c : Char) : Bool := [' ', '\t', '\n', '\r'].contains c

/-- Whether a character is a structural character. -/
def isMark (c : Char) : Bool := ['[', ']', '\x7b', '\x7d', ':', ','].contains c

mutual

/-- The tokens of a text behind the beginning of a word. -/
def tokens? (word : List Char) : List Char → Option (List Token)
  | [] => ended? word
  | c :: cs =>
    if isBlank c then do return (← ended? word) ++ (← tokens? [] cs)
    else if isMark c then do return (← ended? word) ++ .mark c :: (← tokens? [] cs)
    else if c = '"' then do return (← ended? word) ++ (← string? [] cs)
    else tokens? (word ++ [c]) cs

/-- The tokens of a text within a string. -/
def string? (read : List Spelling) : List Char → Option (List Token)
  | [] => none
  | c :: cs =>
    if c = '"' then do return .string (String.ofList (← characters? read)) :: (← tokens? [] cs)
    else if c = '\\' then escape? read cs
    else if c.toNat < 0x20 then none
    else string? (read ++ [.char c]) cs

/-- The tokens of a text within a string behind a backslash. -/
def escape? (read : List Spelling) : List Char → Option (List Token)
  | 'u' :: a :: b :: c :: d :: cs => do string? (read ++ [.unit (← unit? [a, b, c, d])]) cs
  | c :: cs => do string? (read ++ [.char (← escaped? c)]) cs
  | [] => none

end

/-- A text denotes a value if its tokens are those of the value. -/
def Denotes (text : String) (v : Value) : Prop := tokens? [] text.toList = some v.tokens

end Grammar

section Unambiguity

/-! ### Unambiguity -/

section Nesting

variable {P : Value → Prop} (null : P .null) (boolean : ∀ b, P (.boolean b))
  (number : ∀ q, P (.number q)) (string : ∀ s, P (.string s))
  (array : ∀ items, (∀ v ∈ items, P v) → P (.array items))
  (object : ∀ members, (∀ m ∈ members, P m.2) → P (.object members))
include null boolean number string array object

set_option linter.unusedSectionVars false in
mutual

/-- What holds of arrays and objects if it holds of what they consist of holds of all values. -/
@[elab_as_elim] theorem Value.nested : ∀ v, P v
  | .null => null
  | .boolean b => boolean b
  | .number q => number q
  | .string s => string s
  | .array items => array items (Value.nestedItems items)
  | .object members => object members (Value.nestedMembers members)

/-- The part of `Value.nested` that is about the items of an array. -/
theorem Value.nestedItems : ∀ items : List Value, ∀ v ∈ items, P v
  | [] => by simp
  | v :: rest => List.forall_mem_cons.mpr ⟨Value.nested v, Value.nestedItems rest⟩

/-- The part of `Value.nested` that is about the members of an object. -/
theorem Value.nestedMembers : ∀ members : List (String × Value), ∀ m ∈ members, P m.2
  | [] => by simp
  | (_, v) :: rest => List.forall_mem_cons.mpr ⟨Value.nested v, Value.nestedMembers rest⟩

end

end Nesting

/-- The tokens of a member of an object. -/
def ofMember (m : String × Value) : List Token := .string m.1 :: .mark ':' :: m.2.tokens

theorem itemTokens_eq_map (items : List Value) : itemTokens items = items.map Value.tokens := by
  induction items with
  | nil => rfl
  | cons v rest ih => simp [itemTokens, ih]

theorem memberTokens_eq_map (members : List (String × Value)) :
    memberTokens members = members.map ofMember := by
  induction members with
  | nil => rfl
  | cons m rest ih => simp [memberTokens, ofMember, ih]

/-- The first tokens of a text tell what they are of. -/
def IsPrefixCode {α : Type} (code : α → List Token) (a : α) : Prop :=
  ∀ b rest rest', code a ++ rest = code b ++ rest' → a = b ∧ rest = rest'

/-- A separated list is its first item and the others with a separator in front of each. -/
theorem intercalate_cons_eq_append_flatMap {α : Type*} (sep first : List α) (rest : List (List α)) :
    sep.intercalate (first :: rest) = first ++ rest.flatMap (sep ++ ·) := by
  induction rest generalizing first with
  | nil => simp
  | cons next rest ih => simp [List.intercalate_cons_cons, ih]

section Lists

variable {α : Type} {code : α → List Token} {close : Char}

/-- Whatever is followed by items with a comma in front of each tells which items these are. -/
theorem items_inj_of_commas (hclose : close ≠ ',') {l : List α}
    (hl : ∀ a ∈ l, IsPrefixCode code a) :
    ∀ (l' : List α) {rest rest' : List Token},
      (l.map code).flatMap ([.mark ','] ++ ·) ++ .mark close :: rest =
        (l'.map code).flatMap ([.mark ','] ++ ·) ++ .mark close :: rest' →
      l = l' ∧ rest = rest' := by
  induction l with
  | nil =>
    intro l' rest rest' h
    cases l' with
    | nil => simpa using h
    | cons b l' => simp [hclose] at h
  | cons a l ih =>
    intro l' rest rest' h
    cases l' with
    | nil => simp [hclose.symm] at h
    | cons b l' =>
      simp only [List.map_cons, List.flatMap_cons, List.cons_append, List.nil_append,
        List.append_assoc, List.cons.injEq, true_and] at h
      obtain ⟨rfl, htail⟩ := hl a (by simp) b _ _ h
      obtain ⟨rfl, rfl⟩ := ih (fun a ha ↦ hl a (by simp [ha])) l' htail
      exact ⟨rfl, rfl⟩

/-- The text between the brackets tells which items it is of. -/
theorem items_inj (hclose : close ≠ ',')
    (hcode : ∀ a, ∃ t rest, code a = t :: rest ∧ t ≠ .mark close)
    {l : List α} (hl : ∀ a ∈ l, IsPrefixCode code a) (l' : List α) {rest rest' : List Token}
    (h : [Token.mark ','].intercalate (l.map code) ++ .mark close :: rest =
      [Token.mark ','].intercalate (l'.map code) ++ .mark close :: rest') :
    l = l' ∧ rest = rest' := by
  cases l with
  | nil =>
    cases l' with
    | nil => simpa using h
    | cons b l' =>
      obtain ⟨t, more, hb, ht⟩ := hcode b
      simp [intercalate_cons_eq_append_flatMap, hb, ht.symm] at h
  | cons a l =>
    cases l' with
    | nil =>
      obtain ⟨t, more, ha, ht⟩ := hcode a
      simp [intercalate_cons_eq_append_flatMap, ha, ht] at h
    | cons b l' =>
      simp only [List.map_cons, intercalate_cons_eq_append_flatMap, List.append_assoc] at h
      obtain ⟨rfl, htail⟩ := hl a (by simp) b _ _ h
      obtain ⟨rfl, rfl⟩ :=
        items_inj_of_commas hclose (fun a ha ↦ hl a (List.mem_cons_of_mem _ ha)) l' htail
      exact ⟨rfl, rfl⟩

end Lists

/-- A value has a first token, which does not end an array. -/
theorem exists_tokens_eq_cons (v : Value) : ∃ t rest, v.tokens = t :: rest ∧ t ≠ .mark ']' := by
  cases v <;> simp [Value.tokens]

/-- The first tokens of a text tell which value they are of. -/
theorem isPrefixCode_tokens (v : Value) : IsPrefixCode Value.tokens v := by
  induction v using Value.nested with
  | null | boolean | number | string =>
    intro w rest rest' h
    cases w <;> simp_all [Value.tokens]
  | array items ih =>
    intro w rest rest' h
    cases w with
    | array items' =>
      simp only [Value.tokens, itemTokens_eq_map, List.cons_append, List.append_assoc,
        List.nil_append, List.cons.injEq, true_and] at h
      obtain ⟨rfl, rfl⟩ := items_inj (by decide) exists_tokens_eq_cons ih items' h
      exact ⟨rfl, rfl⟩
    | _ => simp [Value.tokens] at h
  | object members ih =>
    intro w rest rest' h
    have hmembers : ∀ m ∈ members, IsPrefixCode ofMember m := by
      intro m hm m' rest rest' h
      simp only [ofMember, List.cons_append, List.cons.injEq, Token.string.injEq, true_and] at h
      obtain ⟨hvalue, hrest⟩ := ih m hm _ _ _ h.2
      exact ⟨Prod.ext h.1 hvalue, hrest⟩
    cases w with
    | object members' =>
      simp only [Value.tokens, memberTokens_eq_map, List.cons_append, List.append_assoc,
        List.nil_append, List.cons.injEq, true_and] at h
      obtain ⟨rfl, rfl⟩ := items_inj (by decide) (by simp [ofMember]) hmembers members' h
      exact ⟨rfl, rfl⟩
    | _ => simp [Value.tokens] at h

/-- A text denotes one value at most. -/
theorem Denotes.unique {text : String} {v w : Value} (hv : Denotes text v) (hw : Denotes text w) :
    v = w := by
  have h : v.tokens ++ [] = w.tokens ++ [] :=
    congrArg (· ++ []) (Option.some.inj (hv.symm.trans hw))
  exact (isPrefixCode_tokens v w [] [] h).1

/-- A text that denotes a value denotes nothing else. -/
theorem Denotes.iff_eq {text : String} {v w : Value} (hv : Denotes text v) :
    Denotes text w ↔ w = v :=
  ⟨fun hw ↦ hw.unique hv, fun hw ↦ hw ▸ hv⟩

end Unambiguity

end Diachrony.Trace.Json
