import Diachrony.Proofs.Pattern.Offers

/-!
# First candidates

The first candidate of a search that is made of others is the first candidate of the first part that
has one. Every part in front of that one was searched in vain: it came to its end without a fault
and offered nothing.
-/

namespace Diachrony.Candidates

universe u v

variable {α : Type u} {β : Type v}

/-- Whether a search comes to its end without a fault and offers nothing. -/
structure IsVain (cs : Candidates α) : Prop where
  /-- Nothing is offered. -/
  offers : cs.offers = []
  /-- There is no fault. -/
  ending : cs.ending = none

/-- Where a bounded search finds nothing, the search is in vain. -/
theorem isVain_of_first? {cs : Candidates α} {budget : Budget} (h : cs.first? budget = .ok none) :
    cs.IsVain := by
  have hnothing := offers_eq_nil_of_firstAfter h
  exact ⟨hnothing.1, hnothing.2⟩

/-- A choice point makes no difference. -/
theorem isVain_choice {rest : Unit → Candidates α} :
    (choice rest).IsVain ↔ (rest ()).IsVain := ⟨fun h ↦ ⟨h.1, h.2⟩, fun h ↦ ⟨h.1, h.2⟩⟩

/-- Two searches are in vain if both are. -/
theorem isVain_append {first second : Unit → Candidates α} :
    (append first second).IsVain ↔ (first ()).IsVain ∧ (second ()).IsVain := by
  constructor
  · intro h
    have hending := h.ending
    rw [ending_append, Option.or_eq_none_iff] at hending
    have hoffers := h.offers
    rw [offers_append, if_pos hending.1, List.append_eq_nil_iff] at hoffers
    exact ⟨⟨hoffers.1, hending.1⟩, ⟨hoffers.2, hending.2⟩⟩
  · intro h
    constructor
    · rw [offers_append, if_pos h.1.ending, h.1.offers, h.2.offers, List.append_nil]
    · rw [ending_append, h.1.ending, h.2.ending, Option.or_none]

/-- A chained search is in vain if all that it leads to is. -/
theorem isVain_bind {cs : Candidates α} {f : α → Candidates β} :
    (cs.bind f).IsVain ↔ cs.ending = none ∧ ∀ a ∈ cs.offers, (f a).IsVain := by
  constructor
  · intro h
    have hending := ending_bind_eq_none.mp h.ending
    constructor
    · exact hending.1
    · intro a ha
      constructor
      · rw [List.eq_nil_iff_forall_not_mem]
        intro b hb
        have hmem := mem_offers_bind h.ending ha hb
        rw [h.offers] at hmem
        cases hmem
      · exact hending.2 a ha
  · intro h
    constructor
    · rw [List.eq_nil_iff_forall_not_mem]
      intro b hb
      obtain ⟨a, ha, hb⟩ := exists_of_mem_offers_bind hb
      rw [(h.2 a ha).offers] at hb
      cases hb
    · exact ending_bind_eq_none.mpr ⟨h.1, fun a ha ↦ (h.2 a ha).ending⟩

/-- Changed candidates are none if there are none. -/
theorem isVain_map {cs : Candidates α} {f : α → β} : (cs.map f).IsVain ↔ cs.IsVain := by
  constructor
  · intro h
    exact ⟨List.map_eq_nil_iff.mp (offers_map ▸ h.offers), ending_map ▸ h.ending⟩
  · intro h
    exact ⟨by rw [offers_map, h.offers, List.map_nil], by rw [ending_map, h.ending]⟩

/-- Whether the member of a list at an index leads to a first candidate, where all members in front
of it are searched in vain. -/
structure IsFirst (l : List α) (f : α → Candidates β) (n : Nat) (a : α) (b : β) : Prop where
  /-- The member stands at the index. -/
  member : l[n]? = some a
  /-- It leads to the candidate first. -/
  head : (f a).offers.head? = some b
  /-- The members in front of it lead nowhere. -/
  vain : ∀ k < n, ∀ c, l[k]? = some c → (f c).IsVain

/-- The first member of a list leads to a first candidate. -/
theorem IsFirst.zero {l : List α} {f : α → Candidates β} {a : α} {b : β}
    (h : (f a).offers.head? = some b) : IsFirst (a :: l) f 0 a b :=
  ⟨rfl, h, fun k hk ↦ absurd hk (Nat.not_lt_zero k)⟩

/-- A member that is searched in vain may stand in front. -/
theorem IsFirst.succ {l : List α} {f : α → Candidates β} {n : Nat} {a c : α} {b : β}
    (h : IsFirst l f n a b) (hc : (f c).IsVain) : IsFirst (c :: l) f (n + 1) a b := by
  constructor
  · exact h.member
  · exact h.head
  · intro k hk d hd
    cases k with
    | zero =>
      cases hd
      exact hc
    | succ k => exact h.vain k (Nat.lt_of_succ_lt_succ hk) d hd

/-- The first candidate of two searches is that of the first one, or that of the second one if the
first one is in vain. -/
theorem head?_offers_append {first second : Unit → Candidates α} {a : α}
    (h : (append first second).offers.head? = some a) :
    (first ()).offers.head? = some a ∨
      (first ()).IsVain ∧ (second ()).offers.head? = some a := by
  rw [offers_append] at h
  cases hoffers : (first ()).offers with
  | cons b rest =>
    rw [hoffers] at h
    exact .inl h
  | nil =>
    rw [hoffers, List.nil_append] at h
    by_cases hending : (first ()).ending = none
    · rw [if_pos hending] at h
      exact .inr ⟨⟨hoffers, hending⟩, h⟩
    · rw [if_neg hending] at h
      cases h

/-- The first candidate of a chained search comes from the first candidate that leads to one. -/
theorem exists_isFirst_of_bind {cs : Candidates α} {f : α → Candidates β} {b : β}
    (h : (cs.bind f).offers.head? = some b) : ∃ n a, IsFirst cs.offers f n a b := by
  induction cs with
  | done => cases h
  | fail fault => cases h
  | choice rest ih => exact ih () h
  | offer a rest ih =>
    rcases head?_offers_append h with hfirst | ⟨hvain, hrest⟩
    · exact ⟨0, a, .zero hfirst⟩
    · obtain ⟨n, c, hc⟩ := ih () hrest
      exact ⟨n + 1, c, hc.succ hvain⟩

section EachInTurn

/-! Searches for the members of a list, one after the other, with a choice point before each. -/

variable {l : List α} {f : α → Candidates β}

/-- The first candidate comes from the first member that leads to one. -/
theorem exists_isFirst_of_foldr {b : β}
    (h : (l.foldr (fun a others ↦ fun _ ↦ choice fun _ ↦ append (fun _ ↦ f a) others)
      (fun _ ↦ done) ()).offers.head? = some b) : ∃ n a, IsFirst l f n a b := by
  induction l with
  | nil => cases h
  | cons a rest ih =>
    rw [List.foldr_cons] at h
    rcases head?_offers_append h with hfirst | ⟨hvain, hrest⟩
    · exact ⟨0, a, .zero hfirst⟩
    · obtain ⟨n, c, hc⟩ := ih hrest
      exact ⟨n + 1, c, hc.succ hvain⟩

/-- All is in vain only if every member is searched in vain. -/
theorem isVain_of_foldr
    (h : (l.foldr (fun a others ↦ fun _ ↦ choice fun _ ↦ append (fun _ ↦ f a) others)
      (fun _ ↦ done) ()).IsVain) : ∀ a ∈ l, (f a).IsVain := by
  induction l with
  | nil => exact List.forall_mem_nil _
  | cons a rest ih =>
    rw [List.foldr_cons, isVain_choice, isVain_append] at h
    exact List.forall_mem_cons.mpr ⟨h.1, ih h.2⟩

end EachInTurn

end Diachrony.Candidates
