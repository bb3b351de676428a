/-!
# The best of a list

The first element with the greatest score.
-/

namespace Diachrony

universe u

variable {α : Type u}

/-- The first element with the greatest score. -/
def firstBest? (score : α → Nat) : List α → Option α
  | [] => none
  | a :: rest =>
    match firstBest? score rest with
    | some b => if score a < score b then some b else some a
    | none => some a

/-- Only an empty list has no best element. -/
theorem firstBest?_eq_none {score : α → Nat} {l : List α} :
    firstBest? score l = none ↔ l = [] := by
  cases l with
  | nil => simp [firstBest?]
  | cons a rest => rw [firstBest?]; split <;> (try split) <;> simp

/-- The best element is one of the list, and no element has a greater score. -/
theorem firstBest?_eq_some {score : α → Nat} {l : List α} {b : α}
    (h : firstBest? score l = some b) : b ∈ l ∧ ∀ a ∈ l, score a ≤ score b := by
  induction l generalizing b with
  | nil => simp [firstBest?] at h
  | cons a rest ih =>
    rw [firstBest?] at h
    split at h
    · next c hc =>
      have := ih hc
      grind
    · next hc =>
      obtain rfl : a = b := by simpa using h
      simp [firstBest?_eq_none.mp hc]

end Diachrony
