import Diachrony.Proofs.Persists

/-!
# Computations that agree

Two computations agree if they give the same result or if both fail, for whatever reason. Agreement
is persistence in both directions, so every operation that keeps results keeps agreement.

Two computations correspond if their results are related whenever both have one. This is what is
left of agreement when the computations look at different things and may fail apart.
-/

namespace Diachrony

variable {α β γ δ : Type}

/-- A changed result is the change of a result. -/
theorem map_eq_ok_iff {x : Except Fault α} {f : α → β} {b : β} :
    f <$> x = .ok b ↔ ∃ a, x = .ok a ∧ f a = b := by
  constructor
  · intro h
    cases x with
    | error fault => cases h
    | ok a => exact ⟨a, rfl, Except.ok.inj h⟩
  · rintro ⟨a, rfl, rfl⟩
    rfl

/-- Two computations give the same result, or both fail. -/
def Agree (x y : Except Fault α) : Prop := Persists x y ∧ Persists y x

namespace Agree

variable {x y z : Except Fault α}

/-- A computation agrees with itself. -/
theorem refl (x : Except Fault α) : Agree x x := ⟨.refl x, .refl x⟩

/-- Equal computations agree. -/
theorem of_eq (h : x = y) : Agree x y := h ▸ refl x

/-- Agreement does not depend on the order. -/
theorem symm (h : Agree x y) : Agree y x := ⟨h.2, h.1⟩

/-- Agreement with a third computation. -/
theorem trans (h : Agree x y) (h' : Agree y z) : Agree x z :=
  ⟨fun a ha ↦ h'.1 a (h.1 a ha), fun a ha ↦ h.2 a (h'.2 a ha)⟩

/-- Two faults agree. -/
theorem error {fault fault' : Fault} : Agree (.error fault : Except Fault α) (.error fault') :=
  ⟨.error, .error⟩

/-- Computations that agree give the same result. -/
theorem eq_ok_iff (h : Agree x y) {a : α} : x = .ok a ↔ y = .ok a := ⟨h.1 a, h.2 a⟩

/-- Computations agree if they are the same but for faults. -/
theorem iff_toOption : Agree x y ↔ x.toOption = y.toOption := by
  constructor
  · intro h
    cases x with
    | ok a => rw [h.1 a rfl]
    | error fault =>
      cases y with
      | ok b => cases h.2 b rfl
      | error fault' => rfl
  · intro h
    cases x with
    | ok a => rw [eq_ok_of_toOption h.symm]; exact refl _
    | error fault =>
      cases y with
      | ok b => cases h
      | error fault' => exact error

/-- A computation after another. -/
theorem bind {f g : α → Except Fault β} (h : Agree x y) (hf : ∀ a, Agree (f a) (g a)) :
    Agree (x >>= f) (y >>= g) :=
  ⟨h.1.bind fun a ↦ (hf a).1, h.2.bind fun a ↦ (hf a).2⟩

/-- A changed result. -/
theorem map (h : Agree x y) (f : α → β) : Agree (f <$> x) (f <$> y) := ⟨h.1.map f, h.2.map f⟩

/-- Computations agree if their results do after a change that keeps results apart. -/
theorem of_map {f : α → β} (hf : ∀ a b, f a = f b → a = b) (h : Agree (f <$> x) (f <$> y)) :
    Agree x y := by
  rw [iff_toOption] at h ⊢
  cases x with
  | error fault =>
    cases y with
    | error fault' => rfl
    | ok b => cases h
  | ok a =>
    cases y with
    | error fault => cases h
    | ok b => exact congrArg some (hf a b (Option.some.inj h))

/-- Faults may be changed. -/
theorem mapError (x : Except Fault α) (f : Fault → Fault) : Agree (x.mapError f) x := by
  cases x with
  | ok a => exact refl _
  | error fault => exact error

end Agree

/-- The results of two computations are related, if both have one. -/
def Correspond (related : α → β → Prop) (x : Except Fault α) (y : Except Fault β) : Prop :=
  ∀ a b, x = .ok a → y = .ok b → related a b

namespace Correspond

variable {related : α → β → Prop} {related' : γ → δ → Prop} {x : Except Fault α}
  {y : Except Fault β}

/-- Given results. -/
theorem ok {a : α} {b : β} (h : related a b) : Correspond related (.ok a) (.ok b) := by
  rintro _ _ ⟨⟩ ⟨⟩
  exact h

/-- Of a fault nothing has to correspond. -/
theorem error {fault : Fault} : Correspond related (.error fault) y := fun _ _ h ↦ nomatch h

/-- Nothing has to correspond to a fault. -/
theorem error_right {fault : Fault} : Correspond related x (.error fault) :=
  fun _ _ _ h ↦ nomatch h

/-- More may be said of related results. -/
theorem mono {other : α → β → Prop} (h : Correspond related x y)
    (himp : ∀ a b, related a b → other a b) : Correspond other x y :=
  fun a b hx hy ↦ himp a b (h a b hx hy)

/-- Computations after others. -/
theorem bind {f : α → Except Fault γ} {g : β → Except Fault δ} (h : Correspond related x y)
    (hf : ∀ a b, related a b → Correspond related' (f a) (g b)) :
    Correspond related' (x >>= f) (y >>= g) := by
  intro c d hc hd
  obtain ⟨a, ha, hc⟩ := exists_of_bind_eq_ok hc
  obtain ⟨b, hb, hd⟩ := exists_of_bind_eq_ok hd
  exact hf a b (h a b ha hb) c d hc hd

/-- Changed results. -/
theorem map {f : α → γ} {g : β → δ} (h : Correspond related x y)
    (hf : ∀ a b, related a b → related' (f a) (g b)) : Correspond related' (f <$> x) (g <$> y) := by
  cases x with
  | error fault => exact error
  | ok a =>
    cases y with
    | error fault => exact error_right
    | ok b => exact ok (hf a b (h a b rfl rfl))

/-- The result of a computation that persists corresponds to itself. -/
theorem of_persists {y : Except Fault α} (h : Persists x y) : Correspond Eq x y := by
  intro a b ha hb
  rw [h a ha] at hb
  exact Except.ok.inj hb

/-- Faults may be changed on both sides. -/
theorem mapError (h : Correspond related x y) (f g : Fault → Fault) :
    Correspond related (x.mapError f) (y.mapError g) := by
  intro a b ha hb
  refine h a b ?_ ?_
  · exact (Agree.mapError x f).1 a ha
  · exact (Agree.mapError y g).1 b hb

end Correspond

end Diachrony
