import Diachrony.Proofs.Ensures

/-!
# Results that persist

A computation that is bounded gives the same result under a greater bound, if it gives one at all.
Such a result persists from the first computation to the second. The operations of which rules are
made take computations whose results persist to such computations, as long as none of them turns a
fault into a result.
-/

namespace Diachrony

variable {α β : Type}

/-- The result of a computation, if it has one, is the result of another. -/
def Persists (x y : Except Fault α) : Prop := ∀ a, x = .ok a → y = .ok a

namespace Persists

variable {x y : Except Fault α}

/-- A result persists in the same computation. -/
theorem refl (x : Except Fault α) : Persists x x := fun _ h ↦ h

/-- Of a fault nothing has to persist. -/
theorem error {fault : Fault} : Persists (.error fault) y := fun _ h ↦ nomatch h

/-- A computation after another. -/
theorem bind {f g : α → Except Fault β} (h : Persists x y) (hf : ∀ a, Persists (f a) (g a)) :
    Persists (x >>= f) (y >>= g) := by
  intro b hb
  obtain ⟨a, ha, hb⟩ := exists_of_bind_eq_ok hb
  rw [h a ha]
  exact hf a b hb

/-- A changed result. -/
theorem map (h : Persists x y) (f : α → β) : Persists (f <$> x) (f <$> y) := by
  intro b hb
  cases x with
  | error fault => cases hb
  | ok a =>
    rw [h a rfl]
    exact hb

/-- Changed faults. -/
theorem mapError (h : Persists x y) (f g : Fault → Fault) :
    Persists (x.mapError f) (y.mapError g) := by
  intro a ha
  cases x with
  | error fault => cases ha
  | ok b =>
    rw [h b rfl]
    exact ha

/-- A choice between computations, made alike on both sides. -/
theorem ite {c c' : Prop} [Decidable c] [Decidable c'] {x' y' : Except Fault α} (hc : c ↔ c')
    (h : Persists x y) (h' : Persists x' y') :
    Persists (if c then x else x') (if c' then y else y') := by
  by_cases hholds : c
  · rw [if_pos hholds, if_pos (hc.mp hholds)]
    exact h
  · rw [if_neg hholds, if_neg (mt hc.mpr hholds)]
    exact h'

/-- A computation for every member of a list. -/
theorem mapM {f g : α → Except Fault β} (l : List α) (h : ∀ a, Persists (f a) (g a)) :
    Persists (l.mapM f) (l.mapM g) := by
  induction l with
  | nil => exact refl _
  | cons a rest ih =>
    rw [List.mapM_cons, List.mapM_cons]
    exact (h a).bind fun b ↦ ih.bind fun _ ↦ refl _

/-- A test of every member of a list. -/
theorem forM {f g : α → Except Fault Unit} (l : List α) (h : ∀ a, Persists (f a) (g a)) :
    Persists (l.forM f) (l.forM g) := by
  induction l with
  | nil => exact refl _
  | cons a rest ih => exact (h a).bind fun _ ↦ ih

/-- A computation for every member of a list, each from the result of the one before. -/
theorem foldlM {f g : β → α → Except Fault β} (l : List α) (b : β)
    (h : ∀ b a, Persists (f b a) (g b a)) : Persists (l.foldlM f b) (l.foldlM g b) := by
  induction l generalizing b with
  | nil => exact refl _
  | cons a rest ih =>
    rw [List.foldlM_cons, List.foldlM_cons]
    exact (h b a).bind ih

private theorem filterAuxM {f g : α → Except Fault Bool} (l tested : List α)
    (h : ∀ a, Persists (f a) (g a)) :
    Persists (List.filterAuxM f l tested) (List.filterAuxM g l tested) := by
  induction l generalizing tested with
  | nil => exact refl _
  | cons a rest ih =>
    rw [List.filterAuxM, List.filterAuxM]
    exact (h a).bind fun _ ↦ ih _

/-- A choice of the members of a list. -/
theorem filterM {f g : α → Except Fault Bool} (l : List α) (h : ∀ a, Persists (f a) (g a)) :
    Persists (l.filterM f) (l.filterM g) :=
  (filterAuxM l [] h).bind fun _ ↦ refl _

end Persists

end Diachrony
