import Mathlib.Data.List.Forall2
import Diachrony.Proofs.Pattern.Search

/-!
# What a computation ensures

A computation that may fail ensures a condition on its result and a condition on its faults. Both
are carried through the operations of which rules are made, so what is known about results and what
is known about faults come from one argument.
-/

namespace Diachrony

variable {α β : Type} {allowed : Fault → Prop}

/-- A computation after another gives a result only if both do. -/
theorem exists_of_bind_eq_ok {x : Except Fault α} {f : α → Except Fault β} {b : β}
    (h : x >>= f = .ok b) : ∃ a, x = .ok a ∧ f a = .ok b := by
  cases x with
  | error fault => cases h
  | ok a => exact ⟨a, rfl, h⟩

/-- A computation after another gives a result if both do. -/
theorem bind_eq_ok {x : Except Fault α} {f : α → Except Fault β} {a : α} {b : β} (hx : x = .ok a)
    (hf : f a = .ok b) : x >>= f = .ok b := by
  rw [hx]
  exact hf

/-- Computations after another are the same if they are for its result. -/
theorem bind_congr_ok {x : Except Fault α} {f g : α → Except Fault β}
    (h : ∀ a, x = .ok a → f a = g a) : x >>= f = x >>= g := by
  cases x with
  | error fault => rfl
  | ok a => exact h a rfl

/-- A computation gives the result that is found in it. -/
theorem eq_ok_of_toOption {x : Except Fault α} {a : α} (h : x.toOption = some a) : x = .ok a := by
  cases x with
  | error fault => cases h
  | ok b => exact congrArg Except.ok (Option.some.inj h)

/-- A computation over a list gives results only if it does for every member. -/
theorem exists_of_mapM_eq_ok {f : α → Except Fault β} {l : List α} {bs : List β}
    (h : l.mapM f = .ok bs) {a : α} (ha : a ∈ l) : ∃ b, f a = .ok b := by
  induction l generalizing bs with
  | nil => cases ha
  | cons first rest ih =>
    rw [List.mapM_cons] at h
    obtain ⟨b, hb, h⟩ := exists_of_bind_eq_ok h
    obtain ⟨others, hothers, -⟩ := exists_of_bind_eq_ok h
    rcases List.mem_cons.mp ha with rfl | ha
    · exact ⟨b, hb⟩
    · exact ih hothers ha

private theorem filterAuxM_eq_ok {f : α → Except Fault Bool} {l tested kept : List α}
    (h : List.filterAuxM f l tested = .ok kept) :
    (∀ a ∈ l, f a = .ok ((f a).toOption.getD false)) ∧
      kept = (l.filter fun a ↦ (f a).toOption.getD false).reverse ++ tested := by
  induction l generalizing tested with
  | nil =>
    cases h
    exact ⟨List.forall_mem_nil _, rfl⟩
  | cons first rest ih =>
    rw [List.filterAuxM] at h
    obtain ⟨keep, hkeep, h⟩ := exists_of_bind_eq_ok h
    obtain ⟨htests, rfl⟩ := ih h
    refine ⟨List.forall_mem_cons.mpr ⟨by rw [hkeep]; rfl, htests⟩, ?_⟩
    cases keep <;> simp [hkeep, Except.toOption]

/-- A test of every member of a list that gives a result keeps those members that it accepts. -/
theorem exists_of_filterM_eq_ok {f : α → Except Fault Bool} {l kept : List α}
    (h : l.filterM f = .ok kept) :
    ∃ test : α → Bool, (∀ a ∈ l, f a = .ok (test a)) ∧ kept = l.filter test := by
  rw [List.filterM] at h
  obtain ⟨found, hfound, h⟩ := exists_of_bind_eq_ok h
  cases h
  obtain ⟨htests, rfl⟩ := filterAuxM_eq_ok hfound
  exact ⟨_, htests, by rw [List.append_nil, List.reverse_reverse]⟩

/-- A test that accepts every member of a list keeps the list. -/
theorem filterM_eq_self {f : α → Except Fault Bool} {l : List α} (h : ∀ a ∈ l, f a = .ok true) :
    l.filterM f = .ok l := by
  have hall (tested : List α) : List.filterAuxM f l tested = .ok (l.reverse ++ tested) := by
    induction l generalizing tested with
    | nil => rfl
    | cons a rest ih =>
      rw [List.forall_mem_cons] at h
      rw [List.filterAuxM, h.1]
      exact (ih h.2 (a :: tested)).trans (by rw [List.reverse_cons, List.append_assoc]; rfl)
  rw [List.filterM, hall, List.append_nil]
  exact congrArg Except.ok l.reverse_reverse

/-- A computation over a list gives the results for its members. -/
theorem mapM_eq_ok {f : α → Except Fault β} {g : α → β} {l : List α}
    (h : ∀ a ∈ l, f a = .ok (g a)) : l.mapM f = .ok (l.map g) := by
  induction l with
  | nil => rfl
  | cons a rest ih =>
    rw [List.forall_mem_cons] at h
    rw [List.mapM_cons, h.1, ih h.2]
    rfl

/-- A test of every member of a list succeeds only if it does for every member. -/
theorem forall_of_forM_eq_ok {f : α → Except Fault Unit} {l : List α} (h : l.forM f = .ok ()) :
    ∀ a ∈ l, f a = .ok () := by
  induction l with
  | nil => exact List.forall_mem_nil _
  | cons first rest ih =>
    have h : (f first >>= fun _ ↦ rest.forM f) = .ok () := h
    obtain ⟨⟨⟩, hfirst, hrest⟩ := exists_of_bind_eq_ok h
    exact List.forall_mem_cons.mpr ⟨hfirst, ih hrest⟩

/-- A test of every member of a list succeeds if it does for every member. -/
theorem forM_eq_ok_of_forall {f : α → Except Fault Unit} {l : List α} (h : ∀ a ∈ l, f a = .ok ()) :
    l.forM f = .ok () := by
  induction l with
  | nil => rfl
  | cons first rest ih =>
    obtain ⟨hfirst, hrest⟩ := List.forall_mem_cons.mp h
    exact bind_eq_ok hfirst (ih hrest)

/-- A computation gives only what is promised and fails only as allowed. -/
def Ensures (promised : α → Prop) (allowed : Fault → Prop) : Except Fault α → Prop
  | .ok a => promised a
  | .error fault => allowed fault

namespace Ensures

variable {promised : α → Prop} {promised' : β → Prop} {x : Except Fault α}

/-- A result is as promised. -/
theorem of_ok {a : α} (h : Ensures promised allowed x) (hx : x = .ok a) : promised a := by
  rw [hx] at h
  exact h

/-- A fault is allowed. -/
theorem of_error {fault : Fault} (h : Ensures promised allowed x) (hx : x = .error fault) :
    allowed fault := by
  rw [hx] at h
  exact h

/-- Results and faults may be looked at one by one. -/
theorem intro (hok : ∀ a, x = .ok a → promised a)
    (herror : ∀ fault, x = .error fault → allowed fault) : Ensures promised allowed x := by
  cases x with
  | ok a => exact hok a rfl
  | error fault => exact herror fault rfl

/-- Less may be promised, and more of a computation may be remembered. -/
theorem mono {other : α → Prop} (h : Ensures promised allowed x)
    (himp : ∀ a, x = .ok a → promised a → other a) : Ensures other allowed x :=
  intro (fun a hx ↦ himp a hx (h.of_ok hx)) fun _ hx ↦ h.of_error hx

/-- It may be remembered of what a promise is kept. -/
theorem withEq (h : Ensures promised allowed x) :
    Ensures (fun a ↦ x = .ok a ∧ promised a) allowed x :=
  h.mono fun _ heq ha ↦ ⟨heq, ha⟩

/-- More faults may be allowed. -/
theorem allow {allowed' : Fault → Prop} (h : Ensures promised allowed x)
    (himp : ∀ fault, allowed fault → allowed' fault) : Ensures promised allowed' x :=
  intro (fun _ hx ↦ h.of_ok hx) fun fault hx ↦ himp fault (h.of_error hx)

/-- A computation of which nothing is asked. -/
theorem anything (x : Except Fault α) : Ensures (fun _ ↦ True) (fun _ ↦ True) x :=
  intro (fun _ _ ↦ trivial) fun _ _ ↦ trivial

/-- A given result. -/
theorem ok {a : α} (h : promised a) : Ensures promised allowed (.ok a) := h

/-- A given fault. -/
theorem error {fault : Fault} (h : allowed fault) : Ensures promised allowed (.error fault) := h

/-- One computation after another. -/
theorem bind {f : α → Except Fault β} (h : Ensures promised allowed x)
    (hf : ∀ a, promised a → Ensures promised' allowed (f a)) :
    Ensures promised' allowed (x >>= f) := by
  cases x with
  | ok a => exact hf a h
  | error fault => exact h

/-- A changed result. -/
theorem map {f : α → β} (h : Ensures promised allowed x) (hf : ∀ a, promised a → promised' (f a)) :
    Ensures promised' allowed (f <$> x) := by
  cases x with
  | ok a => exact hf a h
  | error fault => exact h

/-- A changed fault. -/
theorem mapError {allowed' : Fault → Prop} {f : Fault → Fault} (h : Ensures promised allowed x)
    (hf : ∀ fault, allowed fault → allowed' (f fault)) :
    Ensures promised allowed' (x.mapError f) := by
  cases x with
  | ok a => exact h
  | error fault => exact hf fault h

/-- A computation for every member of a list. -/
theorem mapM {related : α → β → Prop} {f : α → Except Fault β} {l : List α}
    (h : ∀ a ∈ l, Ensures (related a) allowed (f a)) :
    Ensures (List.Forall₂ related l) allowed (l.mapM f) := by
  induction l with
  | nil => exact ok .nil
  | cons a rest ih =>
    rw [List.forall_mem_cons] at h
    rw [List.mapM_cons]
    refine h.1.bind fun b hb ↦ (ih h.2).bind fun bs hbs ↦ ok (.cons hb hbs)

/-- A computation for every member of a list, if the same is promised of every result. -/
theorem mapM_all {f : α → Except Fault β} {l : List α}
    (h : ∀ a ∈ l, Ensures promised' allowed (f a)) :
    Ensures (fun bs ↦ ∀ b ∈ bs, promised' b) allowed (l.mapM f) := by
  induction l with
  | nil => exact ok (List.forall_mem_nil _)
  | cons a rest ih =>
    rw [List.forall_mem_cons] at h
    rw [List.mapM_cons]
    refine h.1.bind fun b hb ↦ (ih h.2).bind fun bs hbs ↦ ok ?_
    exact List.forall_mem_cons.mpr ⟨hb, hbs⟩

/-- A computation for every member of a list, if nothing is to be remembered of the results. -/
theorem forM {f : α → Except Fault β} {l : List α}
    (h : ∀ a ∈ l, Ensures (fun _ ↦ True) allowed (f a)) :
    Ensures (fun _ ↦ True) allowed (l.mapM f) :=
  (mapM h).mono fun _ _ _ ↦ trivial

/-- A computation for every member of a list, each from the result of the one before. -/
theorem foldlM {f : β → α → Except Fault β} {l : List α} {b : β} (hb : promised' b)
    (h : ∀ a ∈ l, ∀ b, promised' b → Ensures promised' allowed (f b a)) :
    Ensures promised' allowed (l.foldlM f b) := by
  induction l generalizing b with
  | nil => exact ok hb
  | cons a rest ih =>
    rw [List.forall_mem_cons] at h
    rw [List.foldlM_cons]
    exact (h.1 b hb).bind fun c hc ↦ ih hc h.2

private theorem filterAuxM {f : α → Except Fault Bool} {l tested : List α}
    (h : ∀ a ∈ l, Ensures (fun _ ↦ True) allowed (f a)) :
    Ensures (fun kept ↦ ∃ part : List α, part.Sublist l ∧ (∀ a ∈ part, f a = .ok true) ∧
        kept = part.reverse ++ tested) allowed (List.filterAuxM f l tested) := by
  induction l generalizing tested with
  | nil => exact ok ⟨[], .refl _, fun _ h ↦ (nomatch h), rfl⟩
  | cons a rest ih =>
    rw [List.forall_mem_cons] at h
    rw [List.filterAuxM]
    refine (h.1.mono fun keep hkeep _ ↦ hkeep).bind fun keep hkeep ↦
      (ih h.2).mono fun kept _ hkept ↦ ?_
    obtain ⟨part, hpart, htrue, rfl⟩ := hkept
    cases keep with
    | false => exact ⟨part, hpart.cons a, htrue, rfl⟩
    | true =>
      exact ⟨a :: part, hpart.cons_cons a, List.forall_mem_cons.mpr ⟨hkeep, htrue⟩, by simp⟩

/-- A test of every member of a list leaves the part of the list that it accepts. -/
theorem filterM {f : α → Except Fault Bool} {l : List α}
    (h : ∀ a ∈ l, Ensures (fun _ ↦ True) allowed (f a)) :
    Ensures (fun kept ↦ kept.Sublist l ∧ ∀ a ∈ kept, f a = .ok true) allowed (l.filterM f) := by
  rw [List.filterM]
  refine (filterAuxM h).bind fun kept hkept ↦ ok ?_
  obtain ⟨part, hpart, htrue, rfl⟩ := hkept
  rw [List.append_nil, List.reverse_reverse]
  exact ⟨hpart, htrue⟩

end Ensures

/-- The first candidate of a search is one that the search keeps to, and a fault is the fault of
the budget or one that the search may have. -/
theorem Candidates.Keeps.first? {cs : Candidates α} {kept : α → Prop} (h : cs.Keeps kept allowed)
    {budget : Budget} (hbudget : allowed budget.exceeded) :
    Ensures (fun found ↦ ∀ a ∈ found, kept a) allowed (cs.first? budget) := by
  apply Ensures.intro
  · intro found hfound a ha
    cases ha
    exact h.offers a (List.mem_of_head? (Candidates.head_offers_of_firstAfter hfound))
  · intro fault hfault
    rcases Candidates.ending_of_firstAfter hfault with rfl | hending
    · exact hbudget
    · exact h.ending fault hending

end Diachrony
