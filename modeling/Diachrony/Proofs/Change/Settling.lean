import Diachrony.Proofs.Change.Propagation

/-!
# Where propagation ends

A propagating rule ends with a phrase that its rule does not change any more, or one that is written
as the phrase before it. States count as the same when they are written alike, so a rule that tells
apart phrases that are written alike may change the last phrase again.

It fails when a text comes back, when the applications that are allowed have all written something
new, or when its rule fails, in which case the fault is the rule's own.
-/

namespace Diachrony.Rule

section Fixpoints

variable {lang : Language} {step : Phrase → Except Fault (Option Phrase)} {p q : Phrase}

/-- A propagation that fires comes to its result by an application that writes something new, after
which the step does not fire, or by one that writes nothing new. -/
theorem exists_of_propagated (h : propagated lang step p = .ok (some q)) :
    ∃ n < lang.limits.maxPropagateSteps, ∃ v, ComesTo lang.write step p n v ∧
      step v = .ok (some q) ∧
      (ComesTo lang.write step p (n + 1) q ∧ step q = .ok none ∨ lang.write v = lang.write q) := by
  obtain ⟨hfires, hsettles⟩ := propagated_eq_some_iff.mp h
  cases hsettles with
  | @stops k _ run lt next =>
    cases k with
    | zero =>
      obtain rfl : p = q := Option.some.inj run.reached
      exact (hfires ⟨lt, next⟩).elim
    | succ n =>
      obtain ⟨v, hv, hstep, -⟩ := ComesTo.succ_iff.mp run
      exact ⟨n, by omega, v, hv, hstep, .inl ⟨run, next⟩⟩
  | @rests k v _ run lt next same => exact ⟨k, lt, v, run, next, .inr same.symm⟩

/-- A step that does not fire, or that writes again what is written, is what a propagation that
changes nothing to be seen consists of. -/
theorem propagated_unseen_iff (hpos : 0 < lang.limits.maxPropagateSteps) :
    (∃ again, propagated lang step q = .ok again ∧ lang.write (again.getD q) = lang.write q) ↔
      step q = .ok none ∨ ∃ r, step q = .ok (some r) ∧ lang.write r = lang.write q := by
  constructor
  · rintro ⟨again, hagain, hsame⟩
    cases again with
    | none => exact .inl (propagated_eq_none_iff.mp hagain).2
    | some r =>
      obtain ⟨n, -, v, hv, hstep, hlast⟩ := exists_of_propagated hagain
      have hstart : written lang.write step q 0 = some (lang.write r) := congrArg some hsame.symm
      rcases hlast with ⟨hr, -⟩ | hlast
      · have := hr.distinct (Set.mem_Iic.mpr (Nat.zero_le _)) (Set.mem_Iic.mpr (Nat.le_refl _))
          (hstart.trans hr.written_eq.symm)
        omega
      · have hzero := hv.distinct (Set.mem_Iic.mpr (Nat.zero_le _))
          (Set.mem_Iic.mpr (Nat.le_refl _))
          (hstart.trans (hlast ▸ hv.written_eq.symm))
        subst hzero
        obtain rfl : q = v := Option.some.inj hv.reached
        exact .inr ⟨r, hstep, hsame⟩
  · rintro (hnone | ⟨r, hstep, hsame⟩)
    · exact ⟨none, propagated_eq_none_iff.mpr ⟨hpos, hnone⟩, rfl⟩
    · refine ⟨some r, propagated_eq_some_iff.mpr ⟨fun ⟨_, hnone⟩ ↦ ?_, ?_⟩, hsame⟩
      · rw [hstep] at hnone
        cases hnone
      · exact .rests .start hpos hstep hsame

end Fixpoints

/-- A propagating rule that fires comes to a phrase `q` by applications of which each but the last
writes something new. Either its rule does not fire on `q`, or `q` is written as the phrase `v`
before it. So the rule changes nothing that is written of `q` exactly if it does not fire on `q` or
writes for `q` what it wrote for `v`, and exactly then propagating again changes nothing that is
written. -/
theorem propagate_settled {lang : Language} {rule : Rule} {p q : Phrase}
    (h : (propagate rule).apply lang p = .ok (some q)) :
    let step := rule.apply lang
    let settled := step q = .ok none ∨ ∃ r, step q = .ok (some r) ∧ lang.write r = lang.write q
    ∃ n < lang.limits.maxPropagateSteps, ∃ v,
      ComesTo lang.write step p n v ∧ step v = .ok (some q) ∧
      (step q = .ok none ∨ lang.write v = lang.write q) ∧
      (settled ↔
        step q = .ok none ∨ Option.map lang.write <$> step q = Option.map lang.write <$> step v) ∧
      (settled ↔ ∃ again, (propagate rule).apply lang q = .ok again ∧
        lang.write (again.getD q) = lang.write q) := by
  intro step settled
  have h : propagated lang step p = .ok (some q) := h
  obtain ⟨n, hn, v, hv, hstep, hlast⟩ := exists_of_propagated h
  refine ⟨n, hn, v, hv, hstep, hlast.imp_left And.right, or_congr_right ?_,
    (propagated_unseen_iff (by omega)).symm⟩
  have hwritten : Option.map lang.write <$> step v = .ok (some (lang.write q)) := by
    rw [hstep]
    rfl
  rw [hwritten]
  constructor
  · rintro ⟨r, hr, hsame⟩
    rw [hr, ← hsame]
    rfl
  · intro hmap
    cases hresult : step q with
    | error fault =>
      rw [hresult] at hmap
      cases hmap
    | ok result =>
      rw [hresult] at hmap
      obtain ⟨r, rfl, hsame⟩ := Option.map_eq_some_iff.mp (Except.ok.inj hmap)
      exact ⟨r, rfl, hsame⟩

/-- Sorting `aab` by `ab => ba` ends with `baa`, on which the rule does not fire. -/
theorem propagate_settled_aab :
    let word (text : List Char) : Word := ⟨text.map fun c ↦ .literal [c], none⟩
    let swap : Expression :=
      { pairing := .single (.text (word ['a', 'b'])) (.text (word ['b', 'a'])), text := "ab => ba" }
    let lang : Language := { inventory := .empty }
    let sort : Rule := .simple { expressions := [swap] }
    let q : Phrase := .ofWord (word ['b', 'a', 'a'])
    (propagate sort).apply lang (.ofWord (word ['a', 'a', 'b'])) = .ok (some q) ∧
      (sort.apply lang q = .ok none ∨
        ∃ r, sort.apply lang q = .ok (some r) ∧ lang.write r = lang.write q) ∧
      ∃ again, (propagate sort).apply lang q = .ok again ∧
        lang.write (again.getD q) = lang.write q := by
  intro word swap lang sort q
  have happly : (propagate sort).apply lang (.ofWord (word ['a', 'a', 'b'])) = .ok (some q) := by
    decide +kernel
  have hsettled : sort.apply lang q = .ok none := by decide +kernel
  obtain ⟨_, _, _, _, _, _, _, hunseen⟩ := propagate_settled happly
  exact ⟨happly, .inl hsettled, hunseen.mp (.inl hsettled)⟩

/-- Joining `a` and `b` to one segment `ab` leaves what is written, so propagation ends there,
although the rule makes `d` of the joined segment. -/
theorem not_settled_ab :
    let word (symbols : List (List Char)) : Word := ⟨symbols.map .literal, none⟩
    let change (old new : List (List Char)) : Expression :=
      { pairing := .single (.text (word old)) (.text (word new)), text := "" }
    let lang : Language := { inventory := .empty }
    let rule : Rule := .simple
      { expressions := [change [['a'], ['b']] [['a', 'b']], change [['a', 'b']] [['d']]] }
    let q : Phrase := .ofWord (word [['a', 'b']])
    (propagate rule).apply lang (.ofWord (word [['a'], ['b']])) = .ok (some q) ∧
      ∃ r, rule.apply lang q = .ok (some r) ∧ lang.write r ≠ lang.write q := by
  intro word change lang rule q
  exact ⟨by decide +kernel, .ofWord (word [['d']]), by decide +kernel, by decide +kernel⟩

/-! ### Verdicts -/

section Verdicts

variable {write : Phrase → String} {step : Phrase → Except Fault (Option Phrase)} {p : Phrase}

/-- Whether what is written after a number of applications was written before, but not last, while
all that was written until then is different. -/
def Recurs (state : Nat → Option String) (j : Nat) : Prop :=
  Set.InjOn state (Set.Iio j) ∧ state j ≠ none ∧ ∃ i, i + 1 < j ∧ state i = state j

/-- A text comes back with an application that writes what was written before, but not last. -/
theorem recurs_succ_iff {k : Nat} :
    Recurs (written write step p) (k + 1) ↔ ∃ q r i, ComesTo write step p k q ∧
      step q = .ok (some r) ∧ i < k ∧ written write step p i = some (write r) := by
  have hrange : Set.Iio (k + 1) = Set.Iic k := Set.ext fun i ↦ Nat.lt_succ_iff
  constructor
  · rintro ⟨hdistinct, hsome, i, hi, hsame⟩
    obtain ⟨text, htext⟩ := Option.ne_none_iff_exists'.mp hsome
    obtain ⟨r, hr, rfl⟩ := Option.map_eq_some_iff.mp htext
    obtain ⟨q, hq, hstep⟩ := iterate_succ_eq_some.mp hr
    exact ⟨q, r, i, ⟨hq, hrange ▸ hdistinct⟩, hstep, by omega, hsame.trans htext⟩
  · rintro ⟨q, r, i, hq, hstep, hi, hsame⟩
    have hwritten : written write step p (k + 1) = some (write r) := by
      rw [written, iterate_succ_eq_some.mpr ⟨q, hq.reached, hstep⟩]
      rfl
    exact ⟨hrange ▸ hq.distinct, by simp [hwritten], i, by omega, hsame.trans hwritten.symm⟩

/-- The states that a fault shows are the last five. -/
theorem unsettled_reverse (limit : Nat) (cycle : Bool) (texts : List String) :
    unsettled limit cycle texts.reverse =
      .of (.limitExceeded (.divergingPropagation limit cycle (texts.rtake 5))) := by
  rw [unsettled, List.rtake_eq_reverse_take_reverse]
  rfl

end Verdicts

/-- A propagating rule rests on no more applications of its rule than its bound. It does not fire
exactly if one application is allowed and the rule does not fire on the phrase. It fails exactly if
a text comes back that was not written last, if all applications that are allowed write something
new, or if the rule fails on a phrase that it comes to before. In the first two cases the fault
shows the last five of the texts that were written, in order; in the last one it is the fault of
the rule. -/
theorem propagate_verdicts (lang : Language) (rule : Rule) (p : Phrase) :
    let limit := lang.limits.maxPropagateSteps
    let step := rule.apply lang
    let state := written lang.write step p
    let shown (n : Nat) := (history lang.write step p n).rtake 5
    let result := (propagate rule).apply lang p
    (∀ step', (∀ j < limit, ∀ q, iterate step p j = some q → step' q = step q) →
      propagated lang step' p = result) ∧
    (result = .ok none ↔ 0 < limit ∧ step p = .ok none) ∧
    (∀ fault, result = .error fault ↔
      (∃ j ≤ limit, Recurs state j ∧
        fault = .of (.limitExceeded (.divergingPropagation limit true (shown j)))) ∨
      (state limit ≠ none ∧ Set.InjOn state (Set.Iic limit) ∧
        fault = .of (.limitExceeded (.divergingPropagation limit false (shown limit)))) ∨
      ∃ j < limit, ∃ q, ComesTo lang.write step p j q ∧ step q = .error fault) ∧
    ∀ j, state j ≠ none →
      (history lang.write step p j).map some = (List.range (j + 1)).map state := by
  intro limit step state shown result
  refine ⟨fun step' h ↦ propagated_congr h, propagated_eq_none_iff, fun fault ↦ ?_,
    fun j ↦ map_some_history⟩
  refine propagated_eq_error_iff.trans ⟨fun h ↦ ?_, ?_⟩
  · cases h with
    | fails run lt next => exact .inr (.inr ⟨_, lt, _, run, next⟩)
    | recurs run lt next earlier same =>
      exact .inl ⟨_, lt, recurs_succ_iff.mpr ⟨_, _, _, run, next, earlier, same⟩,
        unsettled_reverse _ _ _⟩
    | exhausts run =>
      have hsome : state limit ≠ none := Option.ne_none_iff_exists'.mpr ⟨_, run.written_eq⟩
      exact .inr (.inl ⟨hsome, run.distinct, unsettled_reverse _ _ _⟩)
  · rintro (⟨j, hj, hrecurs, rfl⟩ | ⟨hsome, hdistinct, rfl⟩ | ⟨j, hj, q, hq, hstep⟩)
    · cases j with
      | zero =>
        obtain ⟨_, _, i, hi, _⟩ := hrecurs
        omega
      | succ k =>
        obtain ⟨q, r, i, hq, hstep, hi, hsame⟩ := recurs_succ_iff.mp hrecurs
        rw [← unsettled_reverse]
        exact .recurs hq hj hstep hi hsame
    · obtain ⟨text, htext⟩ := Option.ne_none_iff_exists'.mp hsome
      obtain ⟨q, hq, rfl⟩ := Option.map_eq_some_iff.mp htext
      rw [← unsettled_reverse]
      exact .exhausts ⟨hq, hdistinct⟩
    · exact .fails hq hj hstep

/-- A propagating rule inside of one that propagates: the text `a` comes back in the inner one, and
the outer one fails with the fault of it, though it has come to no state but the first. -/
theorem verdict_of_inner :
    let a : Phrase := .ofWord ⟨[.literal ['a']], none⟩
    let change (old new : Char) : Expression :=
      { pairing := .single (.text ⟨[.literal [old]], none⟩) (.text ⟨[.literal [new]], none⟩)
        text := "" }
    let lang : Language := { inventory := .empty }
    let rule : Rule := .propagate (.simple { expressions := [change 'a' 'b', change 'b' 'a'] })
    (propagate rule).apply lang a =
        .error (.of (.limitExceeded (.divergingPropagation 100 true ["a", "b", "a"]))) ∧
      (∀ n, written lang.write (rule.apply lang) a (n + 1) = none) ∧
      ¬∃ j, Recurs (written lang.write (rule.apply lang) a) j := by
  intro a change lang rule
  have hfails : rule.apply lang a =
      .error (.of (.limitExceeded (.divergingPropagation 100 true ["a", "b", "a"]))) := by
    decide +kernel
  have hnone (n : Nat) : written lang.write (rule.apply lang) a (n + 1) = none := by
    rw [written, Option.map_eq_none_iff, Option.eq_none_iff_forall_ne_some]
    intro q hq
    induction n generalizing q with
    | zero =>
      obtain ⟨v, hv, hstep⟩ := iterate_succ_eq_some.mp hq
      obtain rfl : a = v := Option.some.inj hv
      rw [hfails] at hstep
      cases hstep
    | succ n ih =>
      obtain ⟨v, hv, -⟩ := iterate_succ_eq_some.mp hq
      exact ih v hv
  refine ⟨propagated_eq_error_iff.mpr (.fails .start (by decide) hfails), hnone, ?_⟩
  rintro ⟨j, -, hsome, i, hi, -⟩
  obtain ⟨n, rfl⟩ := Nat.exists_eq_succ_of_ne_zero (by omega : j ≠ 0)
  exact hsome (hnone n)

end Diachrony.Rule
