import Diachrony.Language.Syllabify
import Diachrony.Proofs.Persists

/-!
# Greater limits

A search that finds its first candidate within a bound finds the same one within a greater bound,
and one that finds nothing still finds nothing. So a word that can be divided into syllables is
divided alike under greater limits.
-/

namespace Diachrony

namespace Limits

/-- Limits that allow no less. -/
instance : LE Limits :=
  ⟨fun a b ↦ a.maxOptions ≤ b.maxOptions ∧ a.maxPropagateSteps ≤ b.maxPropagateSteps⟩

end Limits

namespace Language

/-- The language with other limits. -/
def withLimits (limits : Limits) (lang : Language) : Language := { lang with limits }

variable (limits : Limits) (lang : Language)

@[simp] theorem limits_withLimits : (lang.withLimits limits).limits = limits := rfl

@[simp] theorem syllabifier_withLimits :
    (lang.withLimits limits).syllabifier = lang.syllabifier := rfl

/-- Phrases are written alike under other limits. -/
@[simp] theorem write_withLimits : (lang.withLimits limits).write = lang.write := rfl

end Language

namespace Candidates

variable {α : Type}

private theorem firstAfter_persists {limit limit' : Nat} (h : limit ≤ limit') (label : String)
    (used : Nat) (cs : Candidates α) :
    Persists (cs.firstAfter ⟨limit, label⟩ used) (cs.firstAfter ⟨limit', label⟩ used) := by
  induction cs generalizing used with
  | done => exact .refl _
  | fail fault => exact .error
  | choice rest ih =>
    rw [firstAfter, firstAfter]
    split
    · exact .error
    · next hwithin =>
      have hwithin' : ¬limit' < used + 1 := Nat.not_lt.mpr (Nat.le_trans (Nat.not_lt.mp hwithin) h)
      rw [if_neg hwithin']
      exact ih () (used + 1)
  | offer a rest _ => exact .refl _

/-- The first candidate of a search stays the first within a greater bound. -/
theorem first?_persists {limits limits' : Limits} (h : limits ≤ limits') (lang : Language)
    (label : String) (cs : Candidates α) :
    Persists (cs.first? ((lang.withLimits limits).budget label))
      (cs.first? ((lang.withLimits limits').budget label)) :=
  firstAfter_persists h.1 label 0 cs

end Candidates

section Dividing

variable {limits limits' : Limits} (h : limits ≤ limits') (lang : Language)
include h

/-- A word that is divided is divided alike under greater limits. -/
theorem Syllabifier.syllabify_persists (s : Syllabifier) (w : Word) :
    Persists (s.syllabify (lang.withLimits limits) w)
      (s.syllabify (lang.withLimits limits') w) := by
  rw [syllabify, syllabify]
  split
  · exact .refl _
  · refine (Candidates.first?_persists h lang _ _).bind fun found ↦ ?_
    cases found with
    | none => exact .error
    | some starts => exact .refl _

/-- A phrase that is divided is divided alike under greater limits. -/
theorem Language.syllabify_persists (p : Phrase) :
    Persists ((lang.withLimits limits).syllabify p) ((lang.withLimits limits').syllabify p) := by
  rw [Language.syllabify, Language.syllabify]
  simp only [syllabifier_withLimits]
  split
  · next s _ =>
    exact (Persists.mapM p.words fun w ↦ s.syllabify_persists h lang w).map Phrase.ofWords
  · exact .refl _

end Dividing

end Diachrony
