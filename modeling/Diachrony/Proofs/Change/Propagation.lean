import Mathlib.Data.List.DropRight
import Mathlib.Data.Set.Function
import Mathlib.Order.Interval.Set.Basic
import Diachrony.Change.Rule
import Diachrony.Proofs.Ensures

/-!
# Propagation

A propagating rule is applied again and again. Of the phrases that it goes through only what is
written of them counts: it goes on as long as every application writes something new, and ends with
the first one that does not. `Settles` lists the ways to end, each with the number of applications
before it, and the propagation ends in the one way that applies.
-/

namespace Diachrony.Rule

/-- The phrase after a number of applications of a step, if all of them fire. -/
def iterate (step : Phrase → Except Fault (Option Phrase)) (p : Phrase) : Nat → Option Phrase
  | 0 => some p
  | n + 1 => (iterate step p n).bind fun q ↦ (step q).toOption.join

section Run

variable (write : Phrase → String) (step : Phrase → Except Fault (Option Phrase)) (p : Phrase)

/-- What is written after a number of applications, if all of them fire. -/
def written (n : Nat) : Option String := (iterate step p n).map write

/-- What is written at first and after each application up to a number of them. -/
def history (n : Nat) : List String := (List.range (n + 1)).filterMap (written write step p)

/-- Whether a number of applications comes to a phrase and each of them writes something new. -/
structure ComesTo (n : Nat) (q : Phrase) : Prop where
  /-- The applications fire and come to the phrase. -/
  reached : iterate step p n = some q
  /-- Nothing is written twice. -/
  distinct : Set.InjOn (written write step p) (Set.Iic n)

/-- How a propagation within a bound ends. -/
inductive Settles (limit n : Nat) : Except Fault Phrase → Prop
  /-- The next application fails. -/
  | fails {k : Nat} {q : Phrase} {fault : Fault} (run : ComesTo write step p k q) (lt : k < n)
      (next : step q = .error fault) : Settles limit n (.error fault)
  /-- The next application does not fire. -/
  | stops {k : Nat} {q : Phrase} (run : ComesTo write step p k q) (lt : k < n)
      (next : step q = .ok none) : Settles limit n (.ok q)
  /-- The next application writes what was written last. -/
  | rests {k : Nat} {q r : Phrase} (run : ComesTo write step p k q) (lt : k < n)
      (next : step q = .ok (some r)) (same : write r = write q) : Settles limit n (.ok r)
  /-- The next application writes what was written before, but not last. -/
  | recurs {k i : Nat} {q r : Phrase} (run : ComesTo write step p k q) (lt : k < n)
      (next : step q = .ok (some r)) (earlier : i < k)
      (same : written write step p i = some (write r)) :
      Settles limit n (.error (unsettled limit true (history write step p (k + 1)).reverse))
  /-- All applications that are allowed write something new. -/
  | exhausts {q : Phrase} (run : ComesTo write step p n q) :
      Settles limit n (.error (unsettled limit false (history write step p n).reverse))

end Run

variable {write : Phrase → String} {step : Phrase → Except Fault (Option Phrase)} {p q r : Phrase}

/-! ### What is written -/

/-- One application more. -/
theorem iterate_succ_eq_some {n : Nat} :
    iterate step p (n + 1) = some r ↔
      ∃ q, iterate step p n = some q ∧ step q = .ok (some r) := by
  have hfires (q : Phrase) : (step q).toOption.join = some r ↔ step q = .ok (some r) := by
    cases step q with
    | error fault => simp [Except.toOption]
    | ok result => simp [Except.toOption]
  simp only [iterate, Option.bind_eq_some_iff, hfires]

/-- Where the first application fires, the others go on from there. -/
theorem iterate_succ_of_fires (h : step p = .ok (some q)) (n : Nat) :
    iterate step p (n + 1) = iterate step q n := by
  induction n with
  | zero => exact iterate_succ_eq_some.mpr ⟨p, rfl, h⟩
  | succ n ih => rw [iterate, ih, ← iterate]

theorem history_succ {n : Nat} {text : String} (h : written write step p (n + 1) = some text) :
    history write step p (n + 1) = history write step p n ++ [text] := by
  rw [history, List.range_succ, List.filterMap_append, List.filterMap_cons_some h,
    List.filterMap_nil, ← history]

/-- The history holds what was written at some time. -/
theorem mem_history {n : Nat} {text : String} :
    text ∈ history write step p n ↔ ∃ i ≤ n, written write step p i = some text := by
  simp only [history, List.mem_filterMap, List.mem_range, Nat.lt_succ_iff]

/-- The history lists what was written, one text for each application. -/
theorem map_some_history {n : Nat} (h : written write step p n ≠ none) :
    (history write step p n).map some = (List.range (n + 1)).map (written write step p) := by
  induction n with
  | zero => rfl
  | succ n ih =>
    obtain ⟨text, htext⟩ := Option.ne_none_iff_exists'.mp h
    obtain ⟨r, hr, -⟩ := Option.map_eq_some_iff.mp htext
    obtain ⟨q, hq, -⟩ := iterate_succ_eq_some.mp hr
    have hbefore : written write step p n ≠ none := by simp [written, hq]
    rw [history_succ htext, List.map_append, ih hbefore, List.range_succ (n := n + 1),
      List.map_append, List.map_singleton, List.map_singleton, htext]

namespace ComesTo

/-- A propagation starts with the phrase. -/
theorem start : ComesTo write step p 0 p :=
  ⟨rfl, fun i hi j hj _ ↦ by rw [Nat.le_zero.mp hi, Nat.le_zero.mp hj]⟩

theorem written_eq {n : Nat} (h : ComesTo write step p n q) :
    written write step p n = some (write q) := by
  rw [written, h.reached]
  rfl

/-- A propagation goes on with an application that writes something new. -/
theorem succ_iff {n : Nat} :
    ComesTo write step p (n + 1) r ↔ ∃ q, ComesTo write step p n q ∧ step q = .ok (some r) ∧
      ∀ i ≤ n, written write step p i ≠ some (write r) := by
  constructor
  · intro h
    obtain ⟨q, hq, hstep⟩ := iterate_succ_eq_some.mp h.reached
    refine ⟨q, ⟨hq, h.distinct.mono (Set.Iic_subset_Iic.mpr (Nat.le_succ n))⟩, hstep, ?_⟩
    intro i hi heq
    have := h.distinct (Set.mem_Iic.mpr (Nat.le_succ_of_le hi)) (Set.mem_Iic.mpr (Nat.le_refl _))
      (heq.trans h.written_eq.symm)
    omega
  · rintro ⟨q, hq, hstep, hnew⟩
    have hreached := iterate_succ_eq_some.mpr ⟨q, hq.reached, hstep⟩
    have hwritten : written write step p (n + 1) = some (write r) := by
      rw [written, hreached]
      rfl
    refine ⟨hreached, fun i hi j hj heq ↦ ?_⟩
    rcases Nat.le_succ_iff.mp hi with hi | rfl <;> rcases Nat.le_succ_iff.mp hj with hj | rfl
    · exact hq.distinct hi hj heq
    · exact (hnew i hi (heq.trans hwritten)).elim
    · exact (hnew j hj (heq.symm.trans hwritten)).elim
    · rfl

/-- The history ends with what was written last. -/
theorem head?_history {n : Nat} (h : ComesTo write step p n q) :
    (history write step p n).reverse.head? = some (write q) := by
  cases n with
  | zero =>
    obtain rfl : p = q := Option.some.inj h.reached
    rfl
  | succ n => rw [history_succ h.written_eq, List.reverse_concat, List.head?_cons]

/-- As long as something new is written a propagation goes on. -/
theorem settle_eq {limit k n : Nat} (h : ComesTo write step p k q) (hk : k ≤ n) :
    settle write limit step n [write p] p =
      settle write limit step (n - k) (history write step p k).reverse q := by
  induction k generalizing q with
  | zero =>
    obtain rfl : p = q := Option.some.inj h.reached
    rfl
  | succ k ih =>
    obtain ⟨v, hv, hstep, hnew⟩ := succ_iff.mp h
    have hlast : (history write step p k).reverse.head? ≠ some (write q) := by
      rw [hv.head?_history, ← hv.written_eq]
      exact hnew k (Nat.le_refl k)
    have hbefore : (history write step p k).reverse.contains (write q) = false := by
      rw [← Bool.not_eq_true, List.contains_iff_mem, List.mem_reverse, mem_history]
      exact fun ⟨i, hi, heq⟩ ↦ hnew i hi heq
    rw [ih hv (by omega), history_succ h.written_eq, List.reverse_concat,
      show n - k = (n - (k + 1)) + 1 by omega, settle, hstep]
    exact (if_neg hlast).trans (by rw [hbefore]; rfl)

/-- A propagation comes to a last phrase from which it does not go on within its bound. -/
theorem exists_last (write : Phrase → String) (step : Phrase → Except Fault (Option Phrase))
    (p : Phrase) (n : Nat) :
    ∃ k ≤ n, ∃ q, ComesTo write step p k q ∧
      (k < n → ∀ r, ¬ComesTo write step p (k + 1) r) := by
  induction n with
  | zero => exact ⟨0, Nat.le_refl 0, p, .start, fun h ↦ (Nat.lt_irrefl 0 h).elim⟩
  | succ n ih =>
    obtain ⟨k, hk, q, hq, hlast⟩ := ih
    by_cases hnext : ∃ r, ComesTo write step p (k + 1) r
    · obtain ⟨r, hr⟩ := hnext
      have hkn : k = n := Nat.le_antisymm hk (Nat.not_lt.mp fun hlt ↦ hlast hlt r hr)
      exact ⟨k + 1, Nat.succ_le_succ hk, r, hr, fun hlt ↦ by omega⟩
    · exact ⟨k, Nat.le_succ_of_le hk, q, hq, fun _ r hr ↦ hnext ⟨r, hr⟩⟩

end ComesTo

/-! ### Ways to end -/

/-- A propagation ends as soon as there is a reason. -/
theorem Settles.settle_eq {limit n : Nat} {x : Except Fault Phrase}
    (h : Settles write step p limit n x) : settle write limit step n [write p] p = x := by
  have hgoes {k : Nat} {q : Phrase} (run : ComesTo write step p k q) (lt : k < n) :
      settle write limit step n [write p] p =
        settle write limit step (n - (k + 1) + 1) (history write step p k).reverse q := by
    rw [run.settle_eq (Nat.le_of_lt lt), show n - k = n - (k + 1) + 1 by omega]
  cases h with
  | fails run lt next =>
    rw [hgoes run lt, settle, next]
    rfl
  | stops run lt next =>
    rw [hgoes run lt, settle, next]
    rfl
  | rests run lt next same =>
    rw [hgoes run lt, settle, next]
    exact if_pos (by rw [run.head?_history, same])
  | @recurs k i q r run lt next earlier same =>
    have hlast : (history write step p k).reverse.head? ≠ some (write r) := by
      rw [run.head?_history, ← run.written_eq, ← same]
      intro heq
      have := run.distinct (Set.mem_Iic.mpr (Nat.le_refl k)) (Set.mem_Iic.mpr earlier.le) heq
      omega
    have hbefore : (history write step p k).reverse.contains (write r) := by
      rw [List.contains_iff_mem, List.mem_reverse, mem_history]
      exact ⟨i, earlier.le, same⟩
    have hwritten : written write step p (k + 1) = some (write r) := by
      rw [written, iterate_succ_eq_some.mpr ⟨q, run.reached, next⟩]
      rfl
    rw [hgoes run lt, settle, next, history_succ hwritten, List.reverse_concat]
    exact (if_neg hlast).trans (if_pos hbefore)
  | exhausts run =>
    rw [run.settle_eq (Nat.le_refl n), Nat.sub_self]
    rfl

/-- A propagation ends in one of these ways. -/
theorem settles_settle (write : Phrase → String) (step : Phrase → Except Fault (Option Phrase))
    (p : Phrase) (limit n : Nat) :
    Settles write step p limit n (settle write limit step n [write p] p) := by
  obtain ⟨k, hk, q, hq, hlast⟩ := ComesTo.exists_last write step p n
  have hsettles : ∃ x, Settles write step p limit n x := by
    rcases Nat.eq_or_lt_of_le hk with rfl | hlt
    · exact ⟨_, .exhausts hq⟩
    · cases hstep : step q with
      | error fault => exact ⟨_, .fails hq hlt hstep⟩
      | ok result =>
        cases result with
        | none => exact ⟨_, .stops hq hlt hstep⟩
        | some r =>
          have hold : ¬∀ i ≤ k, written write step p i ≠ some (write r) := fun hnew ↦
            hlast hlt r (ComesTo.succ_iff.mpr ⟨q, hq, hstep, hnew⟩)
          push Not at hold
          obtain ⟨i, hi, hsame⟩ := hold
          rcases Nat.eq_or_lt_of_le hi with rfl | hi
          · exact ⟨_, .rests hq hlt hstep (Option.some.inj (hsame.symm.trans hq.written_eq))⟩
          · exact ⟨_, .recurs hq hlt hstep hi hsame⟩
  obtain ⟨x, hx⟩ := hsettles
  exact hx.settle_eq ▸ hx

/-- How a propagation ends is fixed by the run. -/
theorem settle_eq_iff {limit n : Nat} {x : Except Fault Phrase} :
    settle write limit step n [write p] p = x ↔ Settles write step p limit n x :=
  ⟨fun h ↦ h ▸ settles_settle write step p limit n, Settles.settle_eq⟩

/-! ### Propagation within the bound of a language -/

section Language

variable {lang : Language}

/-- A propagation settles within its bound, apart from a step that does not fire at all. -/
theorem propagated_eq (lang : Language) (step : Phrase → Except Fault (Option Phrase))
    (p : Phrase) :
    propagated lang step p =
      if 0 < lang.limits.maxPropagateSteps ∧ step p = .ok none then .ok none
      else some <$> settle lang.write lang.limits.maxPropagateSteps step
        lang.limits.maxPropagateSteps [lang.write p] p := by
  rw [propagated]
  dsimp only
  cases hlimit : lang.limits.maxPropagateSteps with
  | zero => rfl
  | succ n =>
    dsimp only
    rw [settle]
    cases step p with
    | error fault => rfl
    | ok result =>
      cases result with
      | none => rfl
      | some q =>
        by_cases hsame : lang.write q = lang.write p
        · simp [hsame, bind, Except.bind, pure, Except.pure]
        · simp [hsame, Ne.symm hsame, bind, Except.bind, pure, Except.pure]
          rfl

/-- A propagation does not fire when its step does not. -/
theorem propagated_eq_none_iff :
    propagated lang step p = .ok none ↔
      0 < lang.limits.maxPropagateSteps ∧ step p = .ok none := by
  rw [propagated_eq]
  split
  · next h => simp [h]
  · next h =>
    refine iff_of_false (fun hmap ↦ ?_) h
    obtain ⟨_, _, hnone⟩ := exists_of_bind_eq_ok hmap
    cases hnone

/-- A propagation that fires comes to what it settles on. -/
theorem propagated_eq_some_iff :
    propagated lang step p = .ok (some q) ↔
      ¬(0 < lang.limits.maxPropagateSteps ∧ step p = .ok none) ∧
      Settles lang.write step p lang.limits.maxPropagateSteps lang.limits.maxPropagateSteps
        (.ok q) := by
  rw [propagated_eq, ← settle_eq_iff]
  split
  · next h => simp [h]
  · next h =>
    rw [and_iff_right h]
    cases settle lang.write _ step _ [lang.write p] p with
    | error fault => exact ⟨nofun, nofun⟩
    | ok r => exact ⟨fun h ↦ by cases h; rfl, fun h ↦ by cases h; rfl⟩

/-- A propagation fails when it settles on a fault. -/
theorem propagated_eq_error_iff {fault : Fault} :
    propagated lang step p = .error fault ↔
      Settles lang.write step p lang.limits.maxPropagateSteps lang.limits.maxPropagateSteps
        (.error fault) := by
  rw [propagated_eq, ← settle_eq_iff]
  split
  · next h =>
    have hstops : Settles lang.write step p lang.limits.maxPropagateSteps
      lang.limits.maxPropagateSteps (.ok p) := .stops .start h.1 h.2
    rw [hstops.settle_eq]
    exact ⟨nofun, nofun⟩
  · cases settle lang.write _ step _ [lang.write p] p with
    | error other => exact ⟨fun h ↦ by cases h; rfl, fun h ↦ by cases h; rfl⟩
    | ok r => exact ⟨nofun, nofun⟩

end Language

/-! ### The applications that count -/

private theorem settle_congr {limit n : Nat} {seen : List String}
    {step' : Phrase → Except Fault (Option Phrase)}
    (h : ∀ j < n, ∀ r, iterate step q j = some r → step' r = step r) :
    settle write limit step' n seen q = settle write limit step n seen q := by
  induction n generalizing seen q with
  | zero => rfl
  | succ n ih =>
    rw [settle, settle, h 0 (Nat.succ_pos n) q rfl]
    cases hstep : step q with
    | error fault => rfl
    | ok result =>
      cases result with
      | none => rfl
      | some r =>
        have hrest : settle write limit step' n (write r :: seen) r =
            settle write limit step n (write r :: seen) r :=
          ih fun j hj v hv ↦
            h (j + 1) (Nat.succ_lt_succ hj) v (iterate_succ_of_fires hstep j ▸ hv)
        simp only [bind, Except.bind, hrest]

/-- A propagation rests on no more applications than it is allowed: a step that does the same on the
phrases before these comes to the same result. -/
theorem propagated_congr {lang : Language} {step' : Phrase → Except Fault (Option Phrase)}
    (h : ∀ j < lang.limits.maxPropagateSteps, ∀ q, iterate step p j = some q → step' q = step q) :
    propagated lang step' p = propagated lang step p := by
  have hfirst : 0 < lang.limits.maxPropagateSteps ∧ step' p = .ok none ↔
      0 < lang.limits.maxPropagateSteps ∧ step p = .ok none :=
    and_congr_right fun hpos ↦ by rw [h 0 hpos p rfl]
  simp only [propagated_eq, hfirst, settle_congr h]

end Diachrony.Rule
