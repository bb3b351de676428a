import Diachrony.Data.SortedSet

/-!
# Feature matrices

A matrix is a finite set of assertions about features. The order of assertions, first by kind and
then by name, is the order in which a matrix is shown.
-/

namespace Diachrony

/-- One assertion of a matrix. -/
inductive Assertion where
  /-- The named value is present. -/
  | simple (value : String)
  /-- The named value is not present. -/
  | negated (value : String)
  /-- No value of the named feature is present. -/
  | absent (feature : String)
  /-- Whatever value the named feature has, which is bound to the feature. -/
  | binds (feature : String)
deriving DecidableEq, Repr

namespace Assertion

/-- Place of a kind of assertion in the order of assertions. -/
def rank : Assertion → Nat
  | simple _ => 0
  | negated _ => 1
  | absent _ => 2
  | binds _ => 3

/-- The value or feature that an assertion names. -/
def name : Assertion → String
  | simple name | negated name | absent name | binds name => name

/-- An assertion is fixed by its kind and its name. -/
theorem ext {a b : Assertion} (hrank : a.rank = b.rank) (hname : a.name = b.name) : a = b := by
  cases a <;> cases b <;> simp_all [rank, name]

instance : LT Assertion := ⟨fun a b ↦ a.rank < b.rank ∨ a.rank = b.rank ∧ a.name < b.name⟩

/-- Assertions are ordered by kind, then by name. -/
theorem lt_iff {a b : Assertion} :
    a < b ↔ a.rank < b.rank ∨ a.rank = b.rank ∧ a.name < b.name := Iff.rfl

instance : DecidableLT Assertion := fun a b ↦
  inferInstanceAs (Decidable (a.rank < b.rank ∨ a.rank = b.rank ∧ a.name < b.name))

instance : Trans (α := Assertion) (· < ·) (· < ·) (· < ·) where
  trans {a b c} hab hbc := by
    rw [lt_iff] at *
    rcases hab with hab | ⟨hab, hab'⟩ <;> rcases hbc with hbc | ⟨hbc, hbc'⟩
    · exact .inl (by omega)
    · exact .inl (by omega)
    · exact .inl (by omega)
    · exact .inr ⟨by omega, String.lt_trans hab' hbc'⟩

instance : Std.Asymm (α := Assertion) (· < ·) where
  asymm a b hab hba := by
    rw [lt_iff] at *
    rcases hab with hab | ⟨hab, hab'⟩ <;> rcases hba with hba | ⟨hba, hba'⟩
    · omega
    · omega
    · omega
    · exact String.lt_irrefl _ (String.lt_trans hab' hba')

instance : Std.Trichotomous (α := Assertion) (· < ·) where
  trichotomous a b hab hba := by
    simp only [lt_iff, not_or, not_and] at hab hba
    have hrank : a.rank = b.rank := by omega
    exact ext hrank
      (Std.Trichotomous.trichotomous (r := (· < ·)) _ _ (hab.2 hrank) (hba.2 hrank.symm))

/-- Whether an assertion only has a meaning in a pattern. -/
def isPatternOnly : Assertion → Bool
  | negated _ => true
  | _ => false

/-- Whether an assertion binds a feature. -/
def isBinding : Assertion → Bool
  | binds _ => true
  | _ => false

/-- Whether an assertion says that a value is present. -/
def isSimple : Assertion → Bool
  | simple _ => true
  | _ => false

/-- The value that an assertion says is present. -/
def simpleValue? : Assertion → Option String
  | simple value => some value
  | _ => none

/-- An assertion as text, marked by its kind. -/
def toText : Assertion → String
  | simple value => value
  | negated value => "!" ++ value
  | absent feature => "*" ++ feature
  | binds feature => "$" ++ feature

end Assertion

/-- A finite set of assertions. -/
abbrev Matrix := SortedSet Assertion

namespace Matrix

/-- The matrix that says that values are present. -/
def ofValues (values : List String) : Matrix := SortedSet.ofList (values.map .simple)

/-- Whether a value is said to be present. -/
def has (m : Matrix) (value : String) : Bool := .simple value ∈ m

/-- The values that are said to be present, in order. -/
def values (m : Matrix) : List String := m.toList.filterMap Assertion.simpleValue?

/-- The first assertion that only has a meaning in a pattern. -/
def patternOnly? (m : Matrix) : Option Assertion := m.toList.find? Assertion.isPatternOnly

/-- Whether some assertion binds a feature. -/
def isBinding (m : Matrix) : Bool := m.toList.any Assertion.isBinding

/-- Whether every assertion says that a value is present. -/
def allSimple (m : Matrix) : Bool := m.toList.all Assertion.isSimple

/-- A matrix as text, in brackets. -/
def toText (m : Matrix) : String :=
  "[" ++ " ".intercalate (m.toList.map Assertion.toText) ++ "]"

end Matrix

end Diachrony
