import Mathlib.Data.List.Forall2
import Mathlib.Data.List.TakeDrop
import Mathlib.Data.List.TakeWhile
import Diachrony.Proofs.Trace.Grammar
import Diachrony.Trace.Writing

/-!
# Records read back

The JSON text of records denotes what was recorded, and nothing else, whatever their strings are.
Texts are read piece by piece: a piece lexes as tokens if these come first, whatever follows it that
can not go on a number.
-/

namespace Diachrony.Trace

open Toml (isHexDigit digitValue ofDigits)

namespace Json

section Strings

/-! ### Strings -/

/-- How a string spells a character that is written. -/
def spelled (c : Char) : Spelling :=
  if isControl c ∧ c ≠ '\n' ∧ c ≠ '\r' ∧ c ≠ '\t' then .unit c.toNat else .char c

/-- A digit that is written has its value. -/
theorem digitValue_digitChar : ∀ d < 16, isHexDigit d.digitChar ∧ digitValue d.digitChar = d := by
  decide

/-- Four hexadecimal digits stand for the number that was written. -/
theorem unit?_hexadecimal {n : Nat} (hn : n < 0x10000) : unit? (hexadecimal n) = some n := by
  have hdigit (m : Nat) := digitValue_digitChar (m % 16) (Nat.mod_lt m (by decide))
  simp only [unit?, hexadecimal, List.map_cons, List.map_nil, List.all_cons, List.all_nil, hdigit,
    Bool.and_true, if_true, ofDigits, List.foldl_cons, List.foldl_nil]
  congr 1
  omega

/-- A unit that is written in hexadecimal digits is read as itself. -/
theorem escape?_hexadecimal (read : List Spelling) {n : Nat} (hn : n < 0x10000) (cs : List Char) :
    escape? read ('u' :: (hexadecimal n ++ cs)) = string? (read ++ [.unit n]) cs := by
  have hunit : escape? read ('u' :: (hexadecimal n ++ cs)) =
      (unit? (hexadecimal n)).bind fun unit ↦ string? (read ++ [.unit unit]) cs := by
    simp [escape?, hexadecimal]
  simpa [unit?_hexadecimal hn] using hunit

/-- A character that is written in a string is read as itself. -/
theorem string?_escapeChar (read : List Spelling) (c : Char) (cs : List Char) :
    string? read (escapeChar c ++ cs) = string? (read ++ [spelled c]) cs := by
  by_cases hescaped : c ∈ ['\\', '"', '\n', '\r', '\t']
  · simp only [List.mem_cons, List.not_mem_nil, or_false] at hescaped
    rcases hescaped with rfl | rfl | rfl | rfl | rfl <;> rfl
  · simp only [List.mem_cons, List.not_mem_nil, or_false, not_or] at hescaped
    obtain ⟨hbackslash, hquote, hnewline, hreturn, htab⟩ := hescaped
    by_cases hcontrol : isControl c
    · have hsmall : c.toNat < 0x10000 := by
        simp only [isControl, Bool.or_eq_true, Bool.and_eq_true, decide_eq_true_eq] at hcontrol
        omega
      simp [escapeChar, string?, spelled, hbackslash, hquote, hnewline, hreturn, htab, hcontrol,
        escape?_hexadecimal read hsmall]
    · have hraw : ¬ c.toNat < 0x20 := by
        simp only [isControl, Bool.or_eq_true, decide_eq_true_eq] at hcontrol
        omega
      simp [escapeChar, string?, spelled, hbackslash, hquote, hnewline, hreturn, htab, hcontrol,
        hraw]

/-- Characters that are spelled as they are written are the ones that were written. -/
theorem characters?_map_spelled (cs : List Char) : characters? (cs.map spelled) = some cs := by
  induction cs with
  | nil => rfl
  | cons c cs ih =>
    by_cases hunit : isControl c ∧ c ≠ '\n' ∧ c ≠ '\r' ∧ c ≠ '\t'
    · have hsmall : c.toNat < 0xa0 := by
        have hcontrol := hunit.1
        simp only [isControl, Bool.or_eq_true, Bool.and_eq_true, decide_eq_true_eq] at hcontrol
        omega
      have hhigh : isHighSurrogate c.toNat = false := by simp [isHighSurrogate]; omega
      have hlow : isLowSurrogate c.toNat = false := by simp [isLowSurrogate]; omega
      simp only [List.map_cons, spelled, hunit, if_true, ne_eq, not_false_eq_true, and_self]
      rw [characters?.eq_def]
      simp [hhigh, hlow, ih]
    · simp [spelled, hunit, characters?, ih]

/-- Characters that are written in a string are read one after the other. -/
theorem string?_flatMap_escapeChar (read : List Spelling) (cs rest : List Char) :
    string? read (cs.flatMap escapeChar ++ rest) = string? (read ++ cs.map spelled) rest := by
  induction cs generalizing read with
  | nil => simp
  | cons c cs ih => simp [string?_escapeChar, ih]

end Strings

section Numbers

/-! ### Numbers -/

/-- Decimal digits stand for the number that was written. -/
theorem ofDigits_toDigits (n : Nat) : ofDigits 10 (Nat.toDigits 10 n) = n := by
  have hdigits : ofDigits 10 (Nat.toDigits 10 n) = Nat.ofDigitChars 10 (Nat.toDigits 10 n) 0 := by
    apply List.foldl_ext
    intro m c hc
    simp [digitValue, Nat.isDigit_of_mem_toDigits (by decide) (by decide) hc]
  rw [hdigits, Nat.ofDigitChars_toDigits (by decide) (by decide)]

/-- A number other than zero has no zeros in front. -/
theorem head?_toDigits_ne {n : Nat} (hn : n ≠ 0) : (Nat.toDigits 10 n).head? ≠ some '0' := by
  induction n using Nat.strongRecOn with
  | ind n ih =>
    by_cases hlt : n < 10
    · simpa [Nat.toDigits_of_lt_base hlt, Nat.digitChar_eq_zero] using hn
    · have hhead := ih (n / 10) (by omega) (by omega)
      rw [Nat.toDigits_of_base_le (by decide) (by omega), List.head?_append_of_ne_nil]
      · exact hhead
      · exact Nat.toDigits_ne_nil

/-- A natural number is read as itself. -/
theorem word?_toDigits (n : Nat) : word? (Nat.toDigits 10 n) = some (.number n) := by
  have hdigits : ∀ c ∈ Nat.toDigits 10 n, c.isDigit := fun c ↦
    Nat.isDigit_of_mem_toDigits (by decide) (by decide)
  have hzeros : ¬ (1 < (Nat.toDigits 10 n).length ∧ (Nat.toDigits 10 n).head? = some '0') := by
    rintro ⟨hlength, hhead⟩
    by_cases hn : n = 0
    · simp [hn] at hlength
    · exact head?_toDigits_ne hn hhead
  have htake := List.takeWhile_eq_self_iff.mpr hdigits
  have hdrop := List.dropWhile_eq_nil_iff.mpr hdigits
  have hmagnitude : magnitude? (Nat.toDigits 10 n) = some (n : ℚ) := by
    simp [magnitude?, htake, hdrop, hzeros, Nat.toDigits_ne_nil, places?, power?,
      ofDigits_toDigits]
  -- The first digit tells a number from a literal name and from one with a sign.
  cases hcs : Nat.toDigits 10 n with
  | nil => exact absurd hcs Nat.toDigits_ne_nil
  | cons c cs =>
    have hc : c.isDigit := hdigits c (by simp [hcs])
    rw [hcs] at hmagnitude
    have hnumber : number? (c :: cs) = some (n : ℚ) := by
      rw [number?.eq_2, hmagnitude]
      rintro _ ⟨⟩
      simp at hc
    have hname : c ≠ 'n' ∧ c ≠ 't' ∧ c ≠ 'f' := by
      refine ⟨?_, ?_, ?_⟩ <;> rintro rfl <;> simp at hc
    simp [word?, hname, hnumber]

end Numbers

section Pieces

/-! ### Pieces of texts -/

/-- Whether a character ends a word. -/
def endsWord (c : Char) : Bool := isBlank c || isMark c || c = '"'

/-- A digit goes on a word. -/
theorem endsWord_of_isDigit {c : Char} (hc : c.isDigit) : endsWord c = false := by
  have hne : ∀ d ∈ [' ', '\t', '\n', '\r', '[', ']', '\x7b', '\x7d', ':', ',', '"'], c ≠ d := by
    intro d hd hcd
    have hnone : ∀ d ∈ [' ', '\t', '\n', '\r', '[', ']', '\x7b', '\x7d', ':', ',', '"'],
        d.isDigit = false := by
      simp
    simp [hcd, hnone d hd] at hc
  simpa [endsWord, isBlank, isMark, and_assoc] using hne

/-- Whether a text can not go on a word. -/
def Stops (cs : List Char) : Prop := ∀ c ∈ cs.head?, endsWord c

/-- A text stops words by its first character. -/
theorem stops_cons {c : Char} {cs : List Char} (hc : endsWord c) : Stops (c :: cs) := by
  simpa [Stops] using hc

/-- Blanks stop words, and no blanks leave what follows. -/
theorem stops_append {blanks cs : List Char} (hblanks : ∀ c ∈ blanks, isBlank c)
    (hcs : Stops cs) : Stops (blanks ++ cs) := by
  cases blanks with
  | nil => exact hcs
  | cons c blanks => exact stops_cons (by simp [endsWord, hblanks c])

/-- A piece of a text lexes as tokens if these come first, whatever follows that does not go on a
word. -/
def Lexes (cs : List Char) (ts : List Token) : Prop :=
  ∀ rest, Stops rest → tokens? [] (cs ++ rest) = (ts ++ ·) <$> tokens? [] rest

/-- No word has no token. -/
@[simp] theorem ended?_nil : ended? [] = some [] := rfl

/-- A piece in front of one that stops words lexes as it would alone. -/
theorem Lexes.append {cs ds : List Char} {ts us : List Token} (hcs : Lexes cs ts)
    (hds : Lexes ds us) (hstops : Stops ds) : Lexes (cs ++ ds) (ts ++ us) := by
  intro rest hrest
  have hstops : Stops (ds ++ rest) := by
    cases ds with
    | nil => exact hrest
    | cons => exact hstops
  rw [List.append_assoc, hcs _ hstops, hds _ hrest]
  simp [Function.comp_def]

/-- Nothing has no tokens. -/
theorem lexes_nil : Lexes [] [] := fun rest _ ↦ by simp

/-- A structural character is a token. -/
theorem Lexes.cons_mark {c : Char} (hc : isMark c) {cs : List Char} {ts : List Token}
    (hcs : Lexes cs ts) : Lexes (c :: cs) (.mark c :: ts) := by
  intro rest hrest
  have hblank : isBlank c = false := by
    simp only [isMark, List.contains_iff_mem, List.mem_cons, List.not_mem_nil, or_false] at hc
    rcases hc with rfl | rfl | rfl | rfl | rfl | rfl <;> rfl
  simp [tokens?, hblank, hc, hcs rest hrest, Option.map_eq_bind, Option.bind_assoc]

/-- Blanks are passed over. -/
theorem Lexes.append_blanks {blanks cs : List Char} {ts : List Token}
    (hblanks : ∀ c ∈ blanks, isBlank c) (hcs : Lexes cs ts) : Lexes (blanks ++ cs) ts := by
  intro rest hrest
  induction blanks with
  | nil => exact hcs rest hrest
  | cons c blanks ih =>
    rw [List.forall_mem_cons] at hblanks
    simpa [tokens?, hblanks.1] using ih hblanks.2

/-- A string is a token. -/
theorem lexes_quoted (s : String) : Lexes (quoted s).toList [.string s] := by
  intro rest hrest
  have hquote : isBlank '"' = false ∧ isMark '"' = false := by decide
  simp [quoted, tokens?, hquote, string?_flatMap_escapeChar, string?,
    characters?_map_spelled, Option.map_eq_bind]

/-- Characters that do not end a word go on it. -/
theorem tokens?_append (read cs rest : List Char) (hcs : ∀ c ∈ cs, endsWord c = false) :
    tokens? read (cs ++ rest) = tokens? (read ++ cs) rest := by
  induction cs generalizing read with
  | nil => simp
  | cons c cs ih =>
    rw [List.forall_mem_cons] at hcs
    obtain ⟨⟨hblank, hmark⟩, hquote⟩ : (isBlank c = false ∧ isMark c = false) ∧ c ≠ '"' := by
      simpa [endsWord] using hcs.1
    simp [tokens?, hblank, hmark, hquote, ih _ hcs.2]

/-- Where a word is ended, its token comes first. -/
theorem tokens?_of_stops (word : List Char) {rest : List Char} (hrest : Stops rest) :
    tokens? word rest = do return (← ended? word) ++ (← tokens? [] rest) := by
  cases rest with
  | nil => simp [tokens?]
  | cons c rest =>
    have hc : endsWord c := hrest c rfl
    by_cases hblank : isBlank c
    · simp [tokens?, hblank]
    by_cases hmark : isMark c
    · simp [tokens?, hblank, hmark, Option.bind_assoc]
    have hquote : c = '"' := by simpa [endsWord, hblank, hmark] using hc
    subst hquote
    simp [tokens?, hblank, hmark]

/-- A word is a token. -/
theorem lexes_of_word? {word : List Char} {t : Token} (hne : word ≠ [])
    (hword : ∀ c ∈ word, endsWord c = false) (ht : word? word = some t) : Lexes word [t] := by
  intro rest hrest
  rw [tokens?_append [] word rest hword, List.nil_append, tokens?_of_stops word hrest]
  simp [ended?, hne, ht, Option.map_eq_bind]

/-- Pieces that are separated by commas, with or without blanks behind these, lex one after the
other. -/
theorem Lexes.intercalate (blanks : List Char) (hblanks : ∀ c ∈ blanks, isBlank c)
    {texts : List (List Char)} {tokens : List (List Token)}
    (htexts : List.Forall₂ Lexes texts tokens) :
    Lexes ((',' :: blanks).intercalate texts) ([.mark ','].intercalate tokens) := by
  induction htexts with
  | nil => exact fun rest _ ↦ by simp
  | cons htext hrest ih =>
    cases hrest with
    | nil => simpa using htext
    | cons =>
      rw [List.intercalate_cons_cons, List.intercalate_cons_cons, List.append_assoc,
        List.append_assoc]
      exact htext.append ((ih.append_blanks hblanks).cons_mark rfl) (stops_cons rfl)

/-- Pieces between two structural characters, with or without blanks within these, lex as they do
between these. -/
theorem Lexes.between {first last : Char} (hfirst : isMark first) (hlast : isMark last)
    (blanks blanks' : List Char) (hblanks : ∀ c ∈ blanks, isBlank c)
    (hblanks' : ∀ c ∈ blanks', isBlank c) {cs : List Char} {ts : List Token} (hcs : Lexes cs ts) :
    Lexes (first :: (blanks ++ (cs ++ (blanks' ++ [last]))))
      (.mark first :: (ts ++ [.mark last])) := by
  have hend : Stops (blanks' ++ [last]) :=
    stops_append hblanks' (stops_cons (by simp [endsWord, hlast]))
  have hlast := (lexes_nil.cons_mark hlast).append_blanks hblanks'
  exact ((hcs.append hlast hend).append_blanks hblanks).cons_mark hfirst

end Pieces

section Texts

/-! ### Texts of values -/

mutual

/-- The value that is written. -/
def value : Json → Value
  | number n => .number n
  | string s => .string s
  | object fields => .object (fieldValues fields)

/-- The values of fields. -/
def fieldValues : List (String × Json) → List (String × Value)
  | [] => []
  | (name, field) :: rest => (name, field.value) :: fieldValues rest

end

mutual

/-- The text of a value lexes as its tokens. -/
theorem lexes_toText : ∀ j : Json, Lexes j.toText.toList j.value.tokens
  | number n => by
    have hdigits : ∀ c ∈ Nat.toDigits 10 n, endsWord c = false := fun c hc ↦
      endsWord_of_isDigit (Nat.isDigit_of_mem_toDigits (by decide) (by decide) hc)
    simpa [toText, value, Value.tokens] using
      lexes_of_word? Nat.toDigits_ne_nil hdigits (word?_toDigits n)
  | string s => lexes_quoted s
  | object fields => by
    have hfields := Lexes.intercalate [] (by simp) (lexes_fieldTexts fields)
    have hmarks : isMark '\x7b' ∧ isMark '\x7d' := by decide
    have hobject := hfields.between hmarks.1 hmarks.2 [] [] (by simp) (by simp)
    simpa [toText, value, Value.tokens] using hobject

/-- The texts of fields lex as their tokens. -/
theorem lexes_fieldTexts : ∀ fields : List (String × Json),
    List.Forall₂ Lexes ((fieldTexts fields).map String.toList) (memberTokens (fieldValues fields))
  | [] => .nil
  | (name, field) :: rest => by
    have hfield := (lexes_toText field).cons_mark (c := ':') rfl
    have hmember := (lexes_quoted name).append hfield (stops_cons rfl)
    exact .cons (by simpa using hmember) (lexes_fieldTexts rest)

end

/-- The text of a value denotes this value. -/
theorem denotes_of_lexes {text : String} {v : Value} (h : Lexes text.toList v.tokens) :
    Denotes text v := by
  simpa [Denotes, tokens?, Stops] using h []

end Texts

end Json

namespace Record

open Json (Value Denotes)

/-- What a record says, as the members of an object. -/
def members (r : Record) : List (String × Value) :=
  ("id", .number r.id) :: ("word", .string r.word) ::
    match r.event with
    | .applied step before after =>
      [("type", .string "step-applied"), ("step", .string step), ("before", .string before),
        ("after", .string after)]
    | .romanized stage form =>
      [("type", .string "romanizer-snapshot"), ("stage", .string stage), ("form", .string form)]
    | .failed step message =>
      [("type", .string "word-failed"), ("step", .string step), ("message", .string message)]

/-- The value that is written for a record is the object of what it says. -/
theorem value_json (r : Record) : r.json.value = .object r.members := by
  cases hevent : r.event <;>
    simp [json, members, Json.value, Json.fieldValues, Event.fields, Event.kind, hevent]

/-- No name stands twice in what a record says. -/
theorem nodup_members (r : Record) : (r.members.map Prod.fst).Nodup := by
  cases hevent : r.event <;> simp [members, hevent]

/-- The text of a record lexes as the object of what it says. -/
theorem lexes_jsonText (r : Record) :
    Json.Lexes r.jsonText.toList (Value.object r.members).tokens := by
  rw [← value_json]
  exact Json.lexes_toText r.json

/-- The texts of records lex as the objects of what they say, between brackets and with or without
blanks between them. -/
theorem lexes_array (records : List Record) (blanks blanks' blanks'' : List Char)
    (hblanks : ∀ c ∈ blanks, Json.isBlank c) (hblanks' : ∀ c ∈ blanks', Json.isBlank c)
    (hblanks'' : ∀ c ∈ blanks'', Json.isBlank c) :
    Json.Lexes ('[' :: (blanks ++ ((',' :: blanks').intercalate
        (records.map fun r ↦ r.jsonText.toList) ++ (blanks'' ++ [']']))))
      (Value.array (records.map fun r ↦ .object r.members)).tokens := by
  have hrecords : List.Forall₂ Json.Lexes (records.map fun r ↦ r.jsonText.toList)
      (records.map fun r ↦ (Value.object r.members).tokens) := by
    simp [List.forall₂_map_left_iff, List.forall₂_map_right_iff, List.forall₂_same, lexes_jsonText]
  simpa [Value.tokens, Json.itemTokens_eq_map, Function.comp_def] using
    (Json.Lexes.intercalate blanks' hblanks' hrecords).between rfl rfl blanks blanks'' hblanks
      hblanks''

/-- What is written for records denotes what they say, and only this: the text of a record denotes
the object of its number, its word, its kind and the parts of its event, under names of which no two
are the same, and the text of several records, on one line or on several, the array of their objects
in order. This is because a string is read as the characters that were written, whichever these
are. -/
theorem json_denotes_what_is_recorded :
    (∀ (r : Record) (v : Value), Denotes r.jsonText v ↔ v = .object r.members) ∧
      (∀ r : Record, (r.members.map Prod.fst).Nodup) ∧
      (∀ (records : List Record) (v : Value),
        (Denotes (jsonArray records) v ↔ v = .array (records.map fun r ↦ .object r.members)) ∧
          (Denotes (jsonLines records) v ↔ v = .array (records.map fun r ↦ .object r.members))) ∧
      ∀ (s : String) (v : Value), Denotes (Json.quoted s) v ↔ v = .string s := by
  refine ⟨fun r v ↦ ?_, nodup_members, fun records v ↦ ⟨?_, ?_⟩, fun s v ↦ ?_⟩
  · exact (Json.denotes_of_lexes (lexes_jsonText r)).iff_eq
  · have harray := lexes_array records [] [] [] (by simp) (by simp) (by simp)
    exact (Json.denotes_of_lexes (by simpa [jsonArray, Function.comp_def] using harray)).iff_eq
  · have hlines := lexes_array records ['\n', ' ', ' '] ['\n', ' ', ' '] ['\n']
      (by simp [Json.isBlank]) (by simp [Json.isBlank]) (by simp [Json.isBlank])
    exact (Json.denotes_of_lexes (by simpa [jsonLines, Function.comp_def] using hlines)).iff_eq
  · exact (Json.denotes_of_lexes (v := .string s) (Json.lexes_quoted s)).iff_eq

end Record

end Diachrony.Trace
