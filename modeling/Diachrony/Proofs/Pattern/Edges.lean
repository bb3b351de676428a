import Mathlib.Data.List.Forall2
import Diachrony.Proofs.Ensures
import Diachrony.Proofs.Pattern.Intersections

/-!
# The edges of surroundings

Of a side of surroundings it only counts whether something starts at the span, not where it ends.
So at the edge of a side, where nothing is read on, a pattern may be replaced by another one that
starts at the same positions. A repetition starts where as many copies start as it needs at least,
if its bounds allow for that many; so at an edge the most that it may take is no matter.

Inside of a sequence, in front of another repetition, or in a core whose own surroundings look at
where it ends, it does count where a span ends. There only patterns with the same spans are alike.
-/

namespace Diachrony

namespace Spans

/-- Whether spans of two kinds start at the same positions. -/
def StartAlike (a b : Spans) : Prop :=
  ∀ scan start, (∃ stop, a scan start stop) ↔ ∃ stop, b scan start stop

namespace StartAlike

variable {a b c : Spans}

/-- A kind starts where it starts. -/
theorem refl (a : Spans) : StartAlike a a := fun _ _ ↦ Iff.rfl

/-- Kinds that start where a third one does start alike. -/
theorem trans (h : StartAlike a b) (h' : StartAlike b c) : StartAlike a c :=
  fun scan start ↦ (h scan start).trans (h' scan start)

/-- Kinds start alike in either order. -/
theorem symm (h : StartAlike a b) : StartAlike b a := fun scan start ↦ (h scan start).symm

end StartAlike

/-- The empty span starts everywhere. -/
theorem exists_emptyIf_true (scan : Scan) (start : Position) :
    ∃ stop, emptyIf (fun _ _ ↦ True) scan start stop := ⟨start, trivial, rfl⟩

/-- The rest of some spans in sequence may be replaced by the same spans. -/
theorem sequence_cons_congr (first : Spans) {rest rest' : List Spans}
    (h : sequence rest = sequence rest') :
    sequence (first :: rest) = sequence (first :: rest') := by
  funext scan start stop
  rw [sequence, sequence, h]

/-- The spans in front of the last may be replaced by the same spans. -/
theorem sequence_concat_congr {front front' : List Spans} (last : Spans)
    (h : sequence front = sequence front') :
    sequence (front ++ [last]) = sequence (front' ++ [last]) := by
  funext scan start stop
  simp only [sequence_concat, h]

/-- It counts where the last of some spans in sequence starts. -/
theorem startAlike_concat (front : List Spans) {a b : Spans} (h : StartAlike a b) :
    StartAlike (sequence (front ++ [a])) (sequence (front ++ [b])) := by
  intro scan start
  have hlast (kind : Spans) : (∃ stop, sequence (front ++ [kind]) scan start stop) ↔
      ∃ middle, sequence front scan start middle ∧ ∃ stop, kind scan middle stop := by
    simp only [sequence_concat, ← exists_and_left]
    exact exists_comm
  rw [hlast, hlast]
  exact exists_congr fun middle ↦ and_congr_right fun _ ↦ h scan middle

/-- It counts where the rest of some spans in sequence starts. -/
theorem startAlike_cons (first : Spans) {rest rest' : List Spans}
    (h : StartAlike (sequence rest) (sequence rest')) :
    StartAlike (sequence (first :: rest)) (sequence (first :: rest')) := by
  intro scan start
  have hrest (kinds : List Spans) : (∃ stop, sequence (first :: kinds) scan start stop) ↔
      ∃ middle, first scan start middle ∧ ∃ stop, sequence kinds scan middle stop := by
    simp only [sequence, ← exists_and_left]
    exact exists_comm
  rw [hrest, hrest]
  exact exists_congr fun middle ↦ and_congr_right fun _ ↦ h scan middle

/-- One span in sequence starts where it starts. -/
theorem startAlike_singleton (a : Spans) : StartAlike (sequence [a]) a := by
  intro scan start
  simp only [sequence, exists_eq_right']

/-- Alternatives start alike if each of them does. -/
theorem startAlike_alternative {options options' : List Spans}
    (h : List.Forall₂ StartAlike options options') :
    StartAlike (alternative options) (alternative options') := by
  intro scan start
  simp only [alternative]
  induction h with
  | nil => simp
  | cons hfirst _ ih =>
    simp only [List.exists_mem_cons_iff, exists_or, ih, hfirst scan start]

/-- Intersections start alike if all of their parts do. -/
theorem startAlike_intersection {initial initial' : Spans} {checks checks' : List (Spans × Bool)}
    (hinitial : StartAlike initial initial')
    (hchecks : List.Forall₂ (fun c c' ↦ StartAlike c.1 c'.1 ∧ c.2 = c'.2) checks checks') :
    StartAlike (intersection initial checks) (intersection initial' checks') := by
  intro scan start
  simp only [intersection, exists_and_right, hinitial scan start]
  refine and_congr_right fun _ ↦ ?_
  induction hchecks with
  | nil => simp
  | cons hfirst _ ih =>
    simp only [List.forall_mem_cons, ih, hfirst.1 scan start, hfirst.2]

section Surrounded

variable {core core' : Spans} {conditions exclusions : List (Spans × Spans)}

/-- Whether spans of both sides start alike. -/
def SidesAlike (sides sides' : Spans × Spans) : Prop :=
  StartAlike sides.1 sides'.1 ∧ StartAlike sides.2 sides'.2

/-- Around a span it only counts where the sides start. -/
theorem around_congr {sides sides' : Spans × Spans} (h : SidesAlike sides sides') (scan : Scan)
    (start stop : Position) : Around sides scan start stop ↔ Around sides' scan start stop :=
  and_congr (h.1 _ _) (h.2 _ _)

/-- Surroundings with sides that start alike leave the same spans. -/
theorem environment_congr (core : Spans) {conditions' exclusions' : List (Spans × Spans)}
    (hconditions : List.Forall₂ SidesAlike conditions conditions')
    (hexclusions : List.Forall₂ SidesAlike exclusions exclusions') :
    environment core conditions exclusions = environment core conditions' exclusions' := by
  funext scan start stop
  have hsome : (∃ sides ∈ conditions, Around sides scan start stop) ↔
      ∃ sides ∈ conditions', Around sides scan start stop := by
    induction hconditions with
    | nil => rfl
    | cons hfirst _ ih =>
      simp only [List.exists_mem_cons_iff, ih, around_congr hfirst scan start stop]
  have hnone : (∀ sides ∈ exclusions, ¬Around sides scan start stop) ↔
      ∀ sides ∈ exclusions', ¬Around sides scan start stop := by
    induction hexclusions with
    | nil => rfl
    | cons hfirst _ ih =>
      simp only [List.forall_mem_cons, ih, around_congr hfirst scan start stop]
  have hempty : conditions ≠ [] ↔ conditions' ≠ [] := by
    cases hconditions <;> simp
  rw [environment, environment, hsome, hnone, hempty]

/-- A core starts where it did if its surroundings do not look at where it ends. -/
theorem startAlike_environment (h : StartAlike core core')
    (hsides : ∀ sides ∈ conditions ++ exclusions, ∀ scan stop, ∃ other, sides.2 scan stop other) :
    StartAlike (environment core conditions exclusions)
      (environment core' conditions exclusions) := by
  have haround : ∀ sides ∈ conditions ++ exclusions, ∀ scan start stop,
      Around sides scan start stop ↔
        ∃ other, sides.1 scan.turned (scan.phrase.turn start) other :=
    fun sides hmem scan start stop ↦ and_iff_left (hsides sides hmem scan stop)
  simp only [List.forall_mem_append] at haround
  -- What stands around a span is now a condition on its start alone.
  have hstart (kind : Spans) (scan : Scan) (start : Position) :
      (∃ stop, environment kind conditions exclusions scan start stop) ↔
        (∃ stop, kind scan start stop) ∧
          (∀ sides ∈ exclusions, ¬∃ other, sides.1 scan.turned (scan.phrase.turn start) other) ∧
          (conditions ≠ [] →
            ∃ sides ∈ conditions, ∃ other, sides.1 scan.turned (scan.phrase.turn start) other) := by
    rw [← exists_and_right]
    refine exists_congr fun stop ↦ and_congr_right fun _ ↦ and_congr ?_ (imp_congr_right fun _ ↦ ?_)
    · exact forall₂_congr fun sides hmem ↦ not_congr (haround.2 sides hmem scan start stop)
    · exact exists_congr fun sides ↦ and_congr_right fun hmem ↦ haround.1 sides hmem scan start stop
  intro scan start
  rw [hstart core, hstart core', h scan start]

end Surrounded

section Copies

variable {inner : Spans} {scan : Scan} {start stop : Position}

/-- As many copies as are asked for start where there are that many steps, or fewer of them and an
empty span behind them. -/
theorem exists_copies_of_steps {count : Nat} (h : Steps (inner scan) count start stop) {n : Nat}
    (henough : n ≤ count ∨ inner scan stop stop) :
    ∃ other, sequence (List.replicate n inner) scan start other := by
  induction h generalizing n with
  | none start =>
    have hempty : n = 0 ∨ inner scan start start := henough.imp_left Nat.le_zero.mp
    rcases hempty with rfl | hempty
    · exact ⟨start, rfl⟩
    · refine ⟨start, ?_⟩
      induction n with
      | zero => rfl
      | succ n ih => exact ⟨start, hempty, ih (.inr hempty)⟩
  | @next count start middle stop hfirst _ _ ih =>
    cases n with
    | zero => exact ⟨start, rfl⟩
    | succ n =>
      obtain ⟨other, hrest⟩ := ih (henough.imp_left Nat.le_of_succ_le_succ)
      exact ⟨other, middle, hfirst, hrest⟩

/-- Where copies start there are as many steps, or fewer of them and an empty span behind them. -/
theorem exists_steps_of_copies {n : Nat}
    (h : sequence (List.replicate n inner) scan start stop) :
    ∃ count other, Steps (inner scan) count start other ∧
      (count = n ∨ count < n ∧ inner scan other other) := by
  induction n generalizing start with
  | zero => exact ⟨0, start, .none start, .inl rfl⟩
  | succ n ih =>
    obtain ⟨middle, hfirst, hrest⟩ := h
    by_cases hmoves : middle = start
    · exact ⟨0, start, .none start, .inr ⟨n.succ_pos, hmoves ▸ hfirst⟩⟩
    · obtain ⟨count, other, hsteps, hcount⟩ := ih hrest
      refine ⟨count + 1, other, .next hfirst hmoves hsteps, ?_⟩
      exact hcount.imp (congrArg (· + 1)) (And.imp_left Nat.succ_lt_succ)

/-- A repetition starts where as many copies start as it needs at least, if it may take as many. -/
theorem startAlike_copies (inner : Spans) {min : Nat} {max : Option Nat}
    (hmax : ∀ most ∈ max, min ≤ most) :
    StartAlike (repeated inner min max) (sequence (List.replicate min inner)) := by
  intro scan start
  constructor
  · rintro ⟨stop, count, hsteps, ⟨hle, -⟩ | ⟨-, -, hempty⟩⟩
    · exact exists_copies_of_steps hsteps (.inl hle)
    · exact exists_copies_of_steps hsteps (.inr hempty)
  · rintro ⟨stop, hcopies⟩
    obtain ⟨count, other, hsteps, rfl | ⟨hlt, hempty⟩⟩ := exists_steps_of_copies hcopies
    · exact ⟨other, count, hsteps, .inl ⟨Nat.le_refl _, hmax⟩⟩
    · exact ⟨other, count, hsteps, .inr ⟨hlt, fun most h ↦ Nat.lt_of_lt_of_le hlt (hmax most h),
        hempty⟩⟩

end Copies

end Spans

namespace Surroundings

variable {inv : Inventory} {s s' : Surroundings} {p : Phrase} {start stop : Position}

/-- Whether every search for surroundings of a span, whatever is bound before and whatever its
budget, finds them exactly if a statement holds, or exceeds its budget. -/
def Decides (inv : Inventory) (s : Surroundings) (p : Phrase) (start stop : Position)
    (holds : Prop) : Prop :=
  ∀ b budget, Ensures (fun found ↦ found.isSome ↔ holds) (· = budget.exceeded)
    ((s.candidates inv (.of p) start stop b).first? budget)

/-- Whether surroundings hold around the same spans of every phrase, as far as budgets allow for
finding out. -/
def HoldAlike (inv : Inventory) (s s' : Surroundings) : Prop :=
  ∀ (p : Phrase) (start stop : Position), p.isPosition start → p.isPosition stop →
    ∃ holds, s.Decides inv p start stop holds ∧ s'.Decides inv p start stop holds

/-- Without references to captures a search decides whether something starts on both sides. -/
theorem decides_around (hbehind : s.behind.isReferenceFree) (hahead : s.ahead.isReferenceFree)
    (hstart : p.isPosition start) (hstop : p.isPosition stop) :
    s.Decides inv p start stop
      (Spans.Around (s.behind.spans inv, s.ahead.spans inv) (.of p) start stop) := by
  intro b budget
  have hkeeps : (s.candidates inv (.of p) start stop b).Keeps (fun _ ↦ True)
      (· = budget.exceeded) := by
    refine Finder.keeps_around ⟨?_, ?_⟩ (Scan.mirrors_of p) hstart hstop b
    · exact s.behind.finder_inside inv fun hnot ↦ absurd hbehind (Bool.eq_false_iff.mp hnot)
    · exact s.ahead.finder_inside inv fun hnot ↦ absurd hahead (Bool.eq_false_iff.mp hnot)
  exact (hkeeps.first? rfl).mono fun found hfound _ ↦ isSome_of_first? hbehind hahead hfound

/-- Surroundings whose sides start alike hold around the same spans. -/
theorem holdAlike_of_startAlike (hfree : s.behind.isReferenceFree ∧ s.ahead.isReferenceFree)
    (hfree' : s'.behind.isReferenceFree ∧ s'.ahead.isReferenceFree)
    (hbehind : Spans.StartAlike (s.behind.spans inv) (s'.behind.spans inv))
    (hahead : Spans.StartAlike (s.ahead.spans inv) (s'.ahead.spans inv)) :
    s.HoldAlike inv s' := by
  intro p start stop hstart hstop
  refine ⟨_, decides_around hfree.1 hfree.2 hstart hstop, ?_⟩
  have haround : Spans.Around (s.behind.spans inv, s.ahead.spans inv) (.of p) start stop ↔
      Spans.Around (s'.behind.spans inv, s'.ahead.spans inv) (.of p) start stop :=
    Spans.around_congr ⟨hbehind, hahead⟩ (.of p) start stop
  rw [haround]
  exact decides_around hfree'.1 hfree'.2 hstart hstop

end Surroundings

end Diachrony
