import Diachrony.Pattern.Candidates

/-!
# What a search offers

Without a bound every search comes to an end: `offers` lists its candidates, `ending` is the fault
that ends it, and `choices` is the number of its choice points. A bounded search that stays within
its bound has the same course, and one that does not ends with the fault of its bound.

Changing every candidate of a search leaves its course as it is: the choice points, the faults and
the order of the candidates. So two searches whose candidates look alike through a function are
followed by searches that look alike, as long as these see the candidates through the function too.
-/

namespace Diachrony.Candidates

universe u v w

variable {α : Type u} {β : Type v} {γ : Type w}

/-- The candidates of a search in order, if no bound counts. -/
def offers : Candidates α → List α
  | done | fail _ => []
  | choice rest => offers (rest ())
  | offer a rest => a :: offers (rest ())

/-- The fault that ends a search, if no bound counts. -/
def ending : Candidates α → Option Fault
  | done => none
  | fail fault => some fault
  | choice rest => ending (rest ())
  | offer _ rest => ending (rest ())

/-- Number of choice points of a search, if no bound counts. -/
def choices : Candidates α → Nat
  | done | fail _ => 0
  | choice rest => choices (rest ()) + 1
  | offer _ rest => choices (rest ())

section Bounds

variable {budget : Budget}

/-- Within its bound a search has the course that it has without one. -/
theorem courseAfter_of_choices_le {used : Nat} {cs : Candidates α}
    (h : used + cs.choices ≤ budget.limit) :
    cs.courseAfter budget used = ⟨cs.offers, used + cs.choices, cs.ending⟩ := by
  induction cs generalizing used with
  | done => rfl
  | fail fault => rfl
  | choice rest ih =>
    simp only [choices] at h
    rw [courseAfter, if_neg (by omega), ih () (by omega)]
    simp only [offers, choices, ending, Course.mk.injEq, true_and, and_true]
    omega
  | offer a rest ih => rw [courseAfter, ih () h]; rfl

/-- Beyond its bound a search ends with the fault of the bound. -/
theorem fault_courseAfter_of_lt_choices {used : Nat} {cs : Candidates α}
    (hused : used ≤ budget.limit) (h : budget.limit < used + cs.choices) :
    (cs.courseAfter budget used).fault = some budget.exceeded := by
  induction cs generalizing used with
  | done => simp only [choices] at h; omega
  | fail fault => simp only [choices] at h; omega
  | choice rest ih =>
    simp only [choices] at h
    rw [courseAfter]
    split
    · rfl
    · exact ih () (by omega) (by omega)
  | offer a rest ih => rw [courseAfter]; exact ih () hused h

/-- A search without a fault has offered everything. -/
theorem offered_course {cs : Candidates α} (h : (cs.course budget).fault = none) :
    (cs.course budget).offered = cs.offers ∧ cs.ending = none := by
  rw [course] at h ⊢
  by_cases hle : 0 + cs.choices ≤ budget.limit
  · rw [courseAfter_of_choices_le hle] at h ⊢
    exact ⟨rfl, h⟩
  · rw [fault_courseAfter_of_lt_choices (Nat.zero_le _) (by omega)] at h
    cases h

/-- A fault of a search is the fault of the bound or one that ends the search anyway. -/
theorem fault_course (cs : Candidates α) (budget : Budget) :
    (cs.course budget).fault = some budget.exceeded ∨ (cs.course budget).fault = cs.ending := by
  rw [course]
  by_cases hle : 0 + cs.choices ≤ budget.limit
  · rw [courseAfter_of_choices_le hle]
    exact .inr rfl
  · exact .inl (fault_courseAfter_of_lt_choices (Nat.zero_le _) (by omega))

/-- What a bounded search offers would be offered without a bound. -/
theorem mem_offers_of_mem_offered {used : Nat} {cs : Candidates α} {a : α}
    (h : a ∈ (cs.courseAfter budget used).offered) : a ∈ cs.offers := by
  induction cs generalizing used with
  | done => cases h
  | fail fault => cases h
  | choice rest ih =>
    rw [courseAfter] at h
    split at h
    · cases h
    · exact ih () h
  | offer b rest ih =>
    rw [courseAfter] at h
    rcases List.mem_cons.mp h with rfl | h
    · exact List.mem_cons_self
    · exact List.mem_cons_of_mem b (ih () h)

/-- The first candidate within a bound is the first of all. -/
theorem head_offers_of_firstAfter {used : Nat} {cs : Candidates α} {a : α}
    (h : cs.firstAfter budget used = .ok (some a)) : cs.offers.head? = some a := by
  induction cs generalizing used with
  | done => cases h
  | fail fault => cases h
  | choice rest ih =>
    rw [firstAfter] at h
    split at h
    · cases h
    · exact ih () h
  | offer b rest ih => rw [firstAfter] at h; cases h; rfl

/-- Where a bounded search finds nothing there is nothing. -/
theorem offers_eq_nil_of_firstAfter {used : Nat} {cs : Candidates α}
    (h : cs.firstAfter budget used = .ok none) : cs.offers = [] ∧ cs.ending = none := by
  induction cs generalizing used with
  | done => exact ⟨rfl, rfl⟩
  | fail fault => cases h
  | choice rest ih =>
    rw [firstAfter] at h
    split at h
    · cases h
    · exact ih () h
  | offer b rest ih => rw [firstAfter] at h; cases h

/-- What the search for a first candidate finds is the first of all. -/
theorem head?_offers_of_first? {cs : Candidates α} {found : Option α}
    (h : cs.first? budget = .ok found) : cs.offers.head? = found := by
  cases found with
  | none => rw [(offers_eq_nil_of_firstAfter h).1, List.head?_nil]
  | some a => exact head_offers_of_firstAfter h

/-- A fault in the search for a first candidate is the fault of the bound or ends the search
anyway. -/
theorem ending_of_firstAfter {used : Nat} {cs : Candidates α} {fault : Fault}
    (h : cs.firstAfter budget used = .error fault) :
    fault = budget.exceeded ∨ cs.ending = some fault := by
  induction cs generalizing used with
  | done => cases h
  | fail f => cases h; exact .inr rfl
  | choice rest ih =>
    rw [firstAfter] at h
    split at h
    · cases h; exact .inl rfl
    · exact ih () h
  | offer b rest ih => rw [firstAfter] at h; cases h

end Bounds

section Operations

private theorem offers_append_go {second : Unit → Candidates α} {cs : Candidates α} :
    (append.go second cs).offers =
      cs.offers ++ if cs.ending = none then (second ()).offers else [] := by
  induction cs with
  | done => simp [append.go, offers, ending]
  | fail fault => simp [append.go, offers, ending]
  | choice rest ih => exact ih ()
  | offer a rest ih => exact congrArg (a :: ·) (ih ())

private theorem ending_append_go {second : Unit → Candidates α} {cs : Candidates α} :
    (append.go second cs).ending = cs.ending.or (second ()).ending := by
  induction cs with
  | done => simp [append.go, ending]
  | fail fault => simp [append.go, ending]
  | choice rest ih => simpa [append.go, ending] using ih ()
  | offer a rest ih => simpa [append.go, ending] using ih ()

/-- A second search follows a first one that has no fault. -/
theorem offers_append {first second : Unit → Candidates α} :
    (append first second).offers =
      (first ()).offers ++ if (first ()).ending = none then (second ()).offers else [] :=
  offers_append_go

/-- Without a fault of the first of two searches, what both offer is offered. -/
theorem offers_append_of_ending {first second : Unit → Candidates α}
    (h : (first ()).ending = none) :
    (append first second).offers = (first ()).offers ++ (second ()).offers := by
  rw [offers_append, if_pos h]

/-- Two searches offer no more than both of them. -/
theorem offers_append_sublist {first second : Unit → Candidates α} :
    (append first second).offers.Sublist ((first ()).offers ++ (second ()).offers) := by
  rw [offers_append]
  refine List.Sublist.append (List.Sublist.refl _) ?_
  split
  · exact List.Sublist.refl _
  · exact List.nil_sublist _

/-- The first fault of two searches ends both. -/
theorem ending_append {first second : Unit → Candidates α} :
    (append first second).ending = (first ()).ending.or (second ()).ending := ending_append_go

/-- A chained search offers no more than its candidates lead to. -/
theorem offers_bind_sublist {cs : Candidates α} {f : α → Candidates β} :
    (cs.bind f).offers.Sublist (cs.offers.flatMap fun a ↦ (f a).offers) := by
  induction cs with
  | done => exact List.Sublist.refl _
  | fail fault => exact List.Sublist.refl _
  | choice rest ih => exact ih ()
  | offer a rest ih =>
    rw [bind, offers, List.flatMap_cons]
    exact offers_append_sublist.trans (List.Sublist.append (List.Sublist.refl _) (ih ()))

/-- Every candidate of a chained search comes from a candidate of the first one. -/
theorem exists_of_mem_offers_bind {cs : Candidates α} {f : α → Candidates β} {c : β}
    (h : c ∈ (cs.bind f).offers) : ∃ a ∈ cs.offers, c ∈ (f a).offers :=
  List.mem_flatMap.mp (offers_bind_sublist.subset h)

/-- A chained search has no fault when none of its parts has one. -/
theorem ending_bind_eq_none {cs : Candidates α} {f : α → Candidates β} :
    (cs.bind f).ending = none ↔ cs.ending = none ∧ ∀ a ∈ cs.offers, (f a).ending = none := by
  induction cs with
  | done => simp [bind, ending, offers]
  | fail fault => simp [bind, ending]
  | choice rest ih => simpa [bind, ending, offers] using ih ()
  | offer a rest ih =>
    simp only [bind, ending_append, Option.or_eq_none_iff, ih (), ending, offers,
      List.forall_mem_cons]
    exact and_left_comm

/-- A fault of a chained search is a fault of one of its parts. -/
theorem ending_bind_eq_some {cs : Candidates α} {f : α → Candidates β} {fault : Fault}
    (h : (cs.bind f).ending = some fault) :
    cs.ending = some fault ∨ ∃ a ∈ cs.offers, (f a).ending = some fault := by
  induction cs with
  | done => cases h
  | fail _ => exact .inl h
  | choice rest ih => exact ih () h
  | offer a rest ih =>
    simp only [bind, ending_append, Option.or_eq_some_iff] at h
    rcases h with h | ⟨-, h⟩
    · exact .inr ⟨a, List.mem_cons_self, h⟩
    · rcases ih () h with h | ⟨b, hb, hf⟩
      · exact .inl h
      · exact .inr ⟨b, List.mem_cons_of_mem a hb, hf⟩

/-- A chained search without a fault offers all that its candidates lead to, one after the other. -/
theorem offers_bind {cs : Candidates α} {f : α → Candidates β} (h : (cs.bind f).ending = none) :
    (cs.bind f).offers = cs.offers.flatMap fun a ↦ (f a).offers := by
  induction cs with
  | done => rfl
  | fail fault => rfl
  | choice rest ih => exact ih () h
  | offer a rest ih =>
    rw [bind, ending_append, Option.or_eq_none_iff] at h
    rw [bind, offers_append_of_ending h.1, ih () h.2, offers, List.flatMap_cons]

/-- A chained search without a fault offers what each of its candidates leads to. -/
theorem mem_offers_bind {cs : Candidates α} {f : α → Candidates β} {a : α} {c : β}
    (h : (cs.bind f).ending = none) (ha : a ∈ cs.offers) (hc : c ∈ (f a).offers) :
    c ∈ (cs.bind f).offers := by
  rw [offers_bind h]
  exact List.mem_flatMap.mpr ⟨a, ha, hc⟩

/-- What candidates lead to counts for those that are offered. -/
theorem bind_eq_of_offers {cs : Candidates α} {f g : α → Candidates β}
    (h : ∀ a ∈ cs.offers, f a = g a) : cs.bind f = cs.bind g := by
  induction cs with
  | done => rfl
  | fail fault => rfl
  | choice rest ih => exact congrArg choice (funext fun _ ↦ ih () h)
  | offer a rest ih =>
    rw [offers, List.forall_mem_cons] at h
    rw [bind, bind, h.1, ih () h.2]

/-- What candidates are changed to counts for those that are offered. -/
theorem map_eq_of_offers {cs : Candidates α} {f g : α → β} (h : ∀ a ∈ cs.offers, f a = g a) :
    cs.map f = cs.map g := by
  induction cs with
  | done => rfl
  | fail fault => rfl
  | choice rest ih => exact congrArg choice (funext fun _ ↦ ih () h)
  | offer a rest ih =>
    rw [offers, List.forall_mem_cons] at h
    rw [map, map, h.1, ih () h.2]

/-- What a search for an accepted candidate goes on with counts for what is offered. -/
theorem find_eq_of_offers {accept : α → Bool} {cs : Candidates α}
    {next next' : Option α → Candidates β}
    (h : ∀ found, (∀ a ∈ found, a ∈ cs.offers) → next found = next' found) :
    cs.find accept next = cs.find accept next' := by
  induction cs with
  | done => exact h none fun _ ha ↦ nomatch ha
  | fail fault => rfl
  | choice rest ih => exact congrArg choice (funext fun _ ↦ ih () h)
  | offer a rest ih =>
    rw [find, find]
    split
    · refine h (some a) fun b hb ↦ ?_
      cases hb
      exact List.mem_cons_self
    · exact ih () fun found hfound ↦ h found fun b hb ↦ List.mem_cons_of_mem a (hfound b hb)

/-- Changing candidates changes what is offered. -/
theorem offers_map {f : α → β} {cs : Candidates α} : (cs.map f).offers = cs.offers.map f := by
  induction cs with
  | done => rfl
  | fail fault => rfl
  | choice rest ih => exact ih ()
  | offer a rest ih => exact congrArg (f a :: ·) (ih ())

/-- Changing candidates changes no fault. -/
theorem ending_map {f : α → β} {cs : Candidates α} : (cs.map f).ending = cs.ending := by
  induction cs with
  | done => rfl
  | fail fault => rfl
  | choice rest ih => exact ih ()
  | offer a rest ih => exact ih ()

/-- What a search for an accepted candidate goes on with. -/
inductive Found (accept : α → Bool) (cs : Candidates α) (next : Option α → Candidates β) : Prop
  /-- It goes on with an accepted candidate. -/
  | accepted (a : α) (mem : a ∈ cs.offers) (accepts : accept a = true)
      (offers : (cs.find accept next).offers = (next (some a)).offers)
      (ending : (cs.find accept next).ending = (next (some a)).ending)
  /-- No candidate is accepted. -/
  | refused (none : ∀ a ∈ cs.offers, accept a = false) (complete : cs.ending = Option.none)
      (offers : (cs.find accept next).offers = (next Option.none).offers)
      (ending : (cs.find accept next).ending = (next Option.none).ending)
  /-- A fault comes before an accepted candidate. -/
  | failed (fault : Fault) (faulty : cs.ending = some fault)
      (offers : (cs.find accept next).offers = [])
      (ending : (cs.find accept next).ending = some fault)

/-- A search for an accepted candidate goes on with one, or with none, or fails. -/
theorem find_found (accept : α → Bool) (cs : Candidates α) (next : Option α → Candidates β) :
    Found accept cs next := by
  induction cs with
  | done => exact .refused (by simp [offers]) rfl rfl rfl
  | fail fault => exact .failed fault rfl rfl rfl
  | choice rest ih =>
    cases ih () with
    | accepted a mem accepts offers ending => exact .accepted a mem accepts offers ending
    | refused none complete offers ending => exact .refused none complete offers ending
    | failed fault faulty offers ending => exact .failed fault faulty offers ending
  | offer a rest ih =>
    by_cases ha : accept a = true
    · refine .accepted a List.mem_cons_self ha ?_ ?_ <;> simp [find, ha]
    · have hfind : (offer a rest).find accept next = (rest ()).find accept next := by
        simp [find, ha]
      cases ih () with
      | accepted b mem accepts offers ending =>
        exact .accepted b (List.mem_cons_of_mem a mem) accepts (hfind ▸ offers) (hfind ▸ ending)
      | refused none complete offers ending =>
        refine .refused ?_ complete (hfind ▸ offers) (hfind ▸ ending)
        simpa [Candidates.offers, ha] using none
      | failed fault faulty offers ending =>
        exact .failed fault faulty (hfind ▸ offers) (hfind ▸ ending)

end Operations

section Mapping

/-- Changing candidates twice. -/
theorem map_map (f : α → β) (g : β → γ) (cs : Candidates α) :
    (cs.map f).map g = cs.map fun a ↦ g (f a) := by
  induction cs with
  | done => rfl
  | fail fault => rfl
  | choice rest ih => exact congrArg choice (funext fun _ ↦ ih ())
  | offer a rest ih => exact congrArg (offer _) (funext fun _ ↦ ih ())

/-- Candidates that are left as they are. -/
theorem map_id (cs : Candidates α) : cs.map (fun a ↦ a) = cs := by
  induction cs with
  | done => rfl
  | fail fault => rfl
  | choice rest ih => exact congrArg choice (funext fun _ ↦ ih ())
  | offer a rest ih => exact congrArg (offer _) (funext fun _ ↦ ih ())

/-- Changing candidates of two searches. -/
theorem map_append (f : α → β) (first second : Unit → Candidates α) :
    (append first second).map f = append (fun _ ↦ (first ()).map f) fun _ ↦ (second ()).map f := by
  rw [append, append]
  induction first () with
  | done => rfl
  | fail fault => rfl
  | choice rest ih => exact congrArg choice (funext fun _ ↦ ih ())
  | offer a rest ih => exact congrArg (offer _) (funext fun _ ↦ ih ())

/-- Changing candidates after following them. -/
theorem map_bind (f : α → Candidates β) (g : β → γ) (cs : Candidates α) :
    (cs.bind f).map g = cs.bind fun a ↦ (f a).map g := by
  induction cs with
  | done => rfl
  | fail fault => rfl
  | choice rest ih => exact congrArg choice (funext fun _ ↦ ih ())
  | offer a rest ih =>
    rw [bind, map_append, ih ()]
    rfl

/-- Following changed candidates. -/
theorem bind_map (f : α → β) (g : β → Candidates γ) (cs : Candidates α) :
    (cs.map f).bind g = cs.bind fun a ↦ g (f a) := by
  induction cs with
  | done => rfl
  | fail fault => rfl
  | choice rest ih => exact congrArg choice (funext fun _ ↦ ih ())
  | offer a rest ih =>
    rw [map, bind, ih ()]
    rfl

/-- Changing candidates after a search for an accepted one. -/
theorem map_find (accept : α → Bool) (next : Option α → Candidates β) (g : β → γ)
    (cs : Candidates α) :
    (cs.find accept next).map g = cs.find accept fun found ↦ (next found).map g := by
  induction cs with
  | done => rfl
  | fail fault => rfl
  | choice rest ih => exact congrArg choice (funext fun _ ↦ ih ())
  | offer a rest ih =>
    rw [find, find]
    split
    · rfl
    · exact ih ()

/-- A search for an accepted candidate among changed ones. -/
theorem find_map (f : α → β) (accept : β → Bool) (next : Option β → Candidates γ)
    (cs : Candidates α) : (cs.map f).find accept next =
      cs.find (fun a ↦ accept (f a)) fun found ↦ next (found.map f) := by
  induction cs with
  | done => rfl
  | fail fault => rfl
  | choice rest ih => exact congrArg choice (funext fun _ ↦ ih ())
  | offer a rest ih =>
    rw [map, find, find, ih ()]
    rfl

/-- The first of changed candidates is the first candidate, changed. -/
theorem first?_map {α β : Type} (f : α → β) (budget : Budget) (cs : Candidates α) :
    (cs.map f).first? budget = Option.map f <$> cs.first? budget := by
  rw [first?, first?]
  generalize 0 = used
  induction cs generalizing used with
  | done => rfl
  | fail fault => rfl
  | choice rest ih =>
    rw [map, firstAfter, firstAfter]
    split
    · rfl
    · exact ih () (used + 1)
  | offer a rest ih => rfl

end Mapping

end Diachrony.Candidates
