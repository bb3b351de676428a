import Diachrony.Proofs.Pattern.Lookbehind

/-!
# Intersections behind a span

The checks of an intersection look at the place where its match starts. Read backwards, the match
and the checks start at the span: the first pattern must match something that ends there, and every
check is asked for something that ends there too, whatever its length. For patterns of one length it
makes no difference at which end the checks look.
-/

namespace Diachrony

namespace Check

/-- What is looked for. -/
def pattern : Check → Pattern
  | mk p _ => p

/-- Whether it must not be there. -/
def negated : Check → Bool
  | mk _ negated => negated

/-- The spans of checks are the spans of their patterns. -/
theorem spansOfAll_eq_map (inv : Inventory) (checks : List Check) :
    spansOfAll inv checks = checks.map fun check ↦ (check.pattern.spans inv, check.negated) := by
  induction checks with
  | nil => rfl
  | cons check rest ih =>
    obtain ⟨p, negated⟩ := check
    rw [spansOfAll, ih]
    rfl

/-- Reversed checks look for reversed patterns. -/
theorem reversedAll_eq_map (checks : List Check) :
    reversedAll checks = checks.map fun check ↦ .mk check.pattern.reversed check.negated := by
  induction checks with
  | nil => rfl
  | cons check rest ih =>
    obtain ⟨p, negated⟩ := check
    rw [reversedAll, ih]
    rfl

/-- No check of a list refers to captures when none of their patterns does. -/
theorem allReferenceFree_iff {checks : List Check} :
    allReferenceFree checks ↔ ∀ check ∈ checks, check.pattern.isReferenceFree := by
  induction checks with
  | nil => simp [allReferenceFree]
  | cons check rest ih =>
    obtain ⟨p, negated⟩ := check
    rw [allReferenceFree, Bool.and_eq_true, ih, List.forall_mem_cons]
    rfl

end Check

namespace Pattern

/-- Whether all spans of a pattern have a number of segments of one word. -/
def HasLength (inv : Inventory) (n : Nat) (p : Pattern) : Prop :=
  ∀ scan start stop, p.spans inv scan start stop → stop = ⟨start.word, start.segment + n⟩

/-- Whether a pattern matches something that starts at a position. -/
def MatchesFrom (inv : Inventory) (p : Pattern) (scan : Scan) (start : Position) : Prop :=
  ∃ stop, p.IsOffered inv scan start stop

/-- Whether a pattern matches something that ends at a position of a phrase. -/
def MatchesUpTo (inv : Inventory) (p : Pattern) (phrase : Phrase) (stop : Position) : Prop :=
  ∃ start ≤ stop, phrase.isPosition start ∧ p.IsOffered inv (.of phrase) start stop

variable {inv : Inventory} {phrase : Phrase} {start stop : Position}

/-- Spans of one length that end at one position start at one position. -/
theorem HasLength.start_eq {p q : Pattern} {n : Nat} (hp : p.HasLength inv n)
    (hq : q.HasLength inv n) {scan scan' : Scan} {i j : Position}
    (hi : p.spans inv scan i stop) (hj : q.spans inv scan' j stop) : i = j := by
  have heq := (hp scan i stop hi).symm.trans (hq scan' j stop hj)
  rw [Position.ext_iff] at heq ⊢
  exact ⟨heq.1, Nat.add_right_cancel heq.2⟩

/-- Where a span ends, a pattern of its length matches what ends there if it matches from the start
of the span. -/
theorem matchesUpTo_iff_of_hasLength {p q : Pattern} {n : Nat} (hp : p.HasLength inv n)
    (hq : q.HasLength inv n) (hfree : p.isReferenceFree) (hfree' : q.isReferenceFree)
    (hstart : phrase.isPosition start) (hle : start ≤ stop)
    (h : p.IsOffered inv (.of phrase) start stop) :
    q.MatchesUpTo inv phrase stop ↔ q.MatchesFrom inv (.of phrase) start := by
  have hscan := Scan.mirrors_of phrase
  have hspan := (isOffered_iff hfree hscan hstart).mp h
  constructor
  · rintro ⟨j, -, hj, hoffered⟩
    have hspan' := (isOffered_iff hfree' hscan hj).mp hoffered
    obtain rfl := hp.start_eq hq hspan hspan'
    exact ⟨stop, hoffered⟩
  · rintro ⟨other, hoffered⟩
    have hspan' := (isOffered_iff hfree' hscan hstart).mp hoffered
    obtain rfl : other = stop := (hq _ _ _ hspan').trans (hp _ _ _ hspan).symm
    exact ⟨start, hle, hstart, hoffered⟩

end Pattern

namespace Surroundings

variable {inv : Inventory} {initial : Pattern} {checks : List Check}

section Behind

variable {phrase : Phrase} {i : Position}

/-- An intersection behind a position has its spans and those of its checks end there. -/
theorem around_intersection : Spans.Around
    ((Pattern.intersection initial checks).reversed.spans inv, Pattern.empty.spans inv)
      (.of phrase) i i ↔
    (∃ stop, initial.reversed.spans inv (Scan.of phrase).turned (phrase.turn i) stop) ∧
      ∀ check ∈ checks, (∃ stop, check.pattern.reversed.spans inv (Scan.of phrase).turned
        (phrase.turn i) stop) ↔ check.negated = false := by
  have hahead : ∃ other, Pattern.empty.spans inv (.of phrase) i other := ⟨i, trivial, rfl⟩
  rw [Spans.Around, and_iff_left hahead]
  simp only [Pattern.reversed, Pattern.spans, Check.reversedAll_eq_map, Check.spansOfAll_eq_map,
    List.map_map, Spans.intersection, exists_and_right, List.forall_mem_map]
  rfl

/-- Something starts at a turned position exactly if some span does. -/
private theorem matchesFrom_reversed {p : Pattern} (hfree : p.isReferenceFree)
    (hi : phrase.isPosition i) :
    p.reversed.MatchesFrom inv (Scan.of phrase).turned (phrase.turn i) ↔
      ∃ stop, p.reversed.spans inv (Scan.of phrase).turned (phrase.turn i) stop := by
  have hscan := (Scan.mirrors_of phrase).turned
  have hmirror : (Scan.of phrase).turned.phrase = (Scan.of phrase).phrase.reversed := rfl
  have hturned : (Scan.of phrase).turned.phrase.isPosition (phrase.turn i) :=
    Spans.isPosition_mirror hmirror hi
  have hfree' : p.reversed.isReferenceFree := p.isReferenceFree_reversed_eq ▸ hfree
  exact exists_congr fun stop ↦ Pattern.isOffered_iff hfree' hscan hturned

variable (hinitial : initial.isReferenceFree)
  (hchecks : ∀ check ∈ checks, check.pattern.isReferenceFree) (hi : phrase.isPosition i)
  {budget : Budget} {b : Bindings} {found : Option Bindings}
  (h : ((of (.intersection initial checks) .empty).candidates inv (.of phrase) i i b).first?
    budget = .ok found)
include hinitial hchecks hi h

/-- The search for an intersection behind a position finds out whether the reversed patterns match
from the turned position. -/
theorem isSome_intersection_behind : found.isSome ↔
    initial.reversed.MatchesFrom inv (Scan.of phrase).turned (phrase.turn i) ∧
      ∀ check ∈ checks, check.pattern.reversed.MatchesFrom inv (Scan.of phrase).turned
        (phrase.turn i) ↔ check.negated = false := by
  have hfree : (Pattern.intersection initial checks).isReferenceFree := by
    rw [Pattern.isReferenceFree, Bool.and_eq_true]
    exact ⟨hinitial, Check.allReferenceFree_iff.mpr hchecks⟩
  have hbehind : (of (.intersection initial checks) .empty).behind.isReferenceFree := by
    rw [← (Pattern.intersection initial checks).isReferenceFree_reversed_eq] at hfree
    exact hfree
  rw [isSome_of_first? hbehind rfl h, matchesFrom_reversed hinitial hi]
  refine Iff.trans around_intersection (and_congr_right fun _ ↦ ?_)
  exact forall₂_congr fun check hcheck ↦ by rw [matchesFrom_reversed (hchecks check hcheck) hi]

/-- For patterns that read both ways it finds out whether they match up to the position. -/
theorem isSome_intersection_upTo (hboth : initial.ReadsBothWays inv)
    (hboth' : ∀ check ∈ checks, check.pattern.ReadsBothWays inv) :
    found.isSome ↔ initial.MatchesUpTo inv phrase i ∧
      ∀ check ∈ checks, check.pattern.MatchesUpTo inv phrase i ↔ check.negated = false := by
  have hupTo : ∀ p : Pattern, p.isReferenceFree → p.ReadsBothWays inv →
      (p.reversed.MatchesFrom inv (Scan.of phrase).turned (phrase.turn i) ↔
        p.MatchesUpTo inv phrase i) := by
    intro p hfree hp
    rw [matchesFrom_reversed hfree hi]
    exact Pattern.exists_behind_iff hp hi
  rw [isSome_intersection_behind hinitial hchecks hi h, hupTo initial hinitial hboth]
  apply and_congr_right
  intro _
  apply forall₂_congr
  intro check hcheck
  rw [hupTo check.pattern (hchecks check hcheck) (hboth' check hcheck)]

omit hi h in
/-- For patterns of one length it makes no difference at which end the checks look. -/
theorem matchesUpTo_checks_iff {n : Nat} (hlength : initial.HasLength inv n)
    (hlength' : ∀ check ∈ checks, check.pattern.HasLength inv n) :
    (initial.MatchesUpTo inv phrase i ∧
      ∀ check ∈ checks, check.pattern.MatchesUpTo inv phrase i ↔ check.negated = false) ↔
    ∃ start ≤ i, phrase.isPosition start ∧ initial.IsOffered inv (.of phrase) start i ∧
      ∀ check ∈ checks, check.pattern.MatchesFrom inv (.of phrase) start ↔
        check.negated = false := by
  have hsame : ∀ start ≤ i, phrase.isPosition start → initial.IsOffered inv (.of phrase) start i →
      ∀ check ∈ checks, check.pattern.MatchesUpTo inv phrase i ↔
        check.pattern.MatchesFrom inv (.of phrase) start := by
    intro start hle hstart hoffered check hcheck
    exact Pattern.matchesUpTo_iff_of_hasLength hlength (hlength' check hcheck) hinitial
      (hchecks check hcheck) hstart hle hoffered
  constructor
  · rintro ⟨⟨start, hle, hstart, hoffered⟩, hall⟩
    refine ⟨start, hle, hstart, hoffered, ?_⟩
    intro check hcheck
    rw [← hsame start hle hstart hoffered check hcheck]
    exact hall check hcheck
  · rintro ⟨start, hle, hstart, hoffered, hall⟩
    refine ⟨⟨start, hle, hstart, hoffered⟩, ?_⟩
    intro check hcheck
    rw [hsame start hle hstart hoffered check hcheck]
    exact hall check hcheck

end Behind

end Surroundings

/-- An intersection behind a position has its first pattern and its checks match up to the position.
The search there finds the reversed patterns at the turned position. For patterns that look at
nothing but their own spans this means that the first pattern and every check, unless it is negated,
match something that ends at the position, and that no negated check does. If all that they match
has one length, the checks match from where the first pattern does, as they must in front of a
position. -/
theorem intersection_behind (inv : Inventory) (initial : Pattern) (checks : List Check)
    (hinitial : initial.isReferenceFree)
    (hchecks : ∀ check ∈ checks, check.pattern.isReferenceFree) (phrase : Phrase) (i : Position)
    (hi : phrase.isPosition i) (budget : Budget) (b : Bindings) (found : Option Bindings)
    (h : ((Surroundings.of (.intersection initial checks) .empty).candidates inv (.of phrase) i i
      b).first? budget = .ok found) :
    (found.isSome ↔
      initial.reversed.MatchesFrom inv (Scan.of phrase).turned (phrase.turn i) ∧
        ∀ check ∈ checks, check.pattern.reversed.MatchesFrom inv (Scan.of phrase).turned
          (phrase.turn i) ↔ check.negated = false) ∧
    (initial.ReadsBothWays inv → (∀ check ∈ checks, check.pattern.ReadsBothWays inv) →
      (found.isSome ↔ initial.MatchesUpTo inv phrase i ∧
        ∀ check ∈ checks, check.pattern.MatchesUpTo inv phrase i ↔ check.negated = false) ∧
      ∀ n, initial.HasLength inv n → (∀ check ∈ checks, check.pattern.HasLength inv n) →
        (found.isSome ↔ ∃ start ≤ i, phrase.isPosition start ∧
          initial.IsOffered inv (.of phrase) start i ∧
          ∀ check ∈ checks, check.pattern.MatchesFrom inv (.of phrase) start ↔
            check.negated = false)) := by
  constructor
  · exact Surroundings.isSome_intersection_behind hinitial hchecks hi h
  · intro hboth hboth'
    have hfound := Surroundings.isSome_intersection_upTo hinitial hchecks hi h hboth hboth'
    constructor
    · exact hfound
    · intro n hlength hlength'
      exact hfound.trans (Surroundings.matchesUpTo_checks_iff hinitial hchecks hlength hlength')

/-- Behind the `pa` of `pat` the intersection of `pa` and `p` is not found, though both match from
the start: no `p` ends there. -/
theorem intersection_behind_pat :
    let p := Segment.literal ['p']
    let a := Segment.literal ['a']
    let phrase := Phrase.ofWord ⟨[p, a, .literal ['t']], none⟩
    let initial := Pattern.text ⟨[p, a], none⟩
    let check := Pattern.text ⟨[p], none⟩
    initial.IsOffered .empty (.of phrase) ⟨0, 0⟩ ⟨0, 2⟩ ∧
      check.MatchesFrom .empty (.of phrase) ⟨0, 0⟩ ∧
      ((Surroundings.of (.intersection initial [.mk check false]) .empty).candidates .empty
        (.of phrase) ⟨0, 2⟩ ⟨0, 2⟩ .empty).first? ⟨10, ""⟩ = .ok none ∧
      ¬check.MatchesUpTo .empty phrase ⟨0, 2⟩ := by
  intro p a phrase initial check
  have hinitial : initial.IsOffered .empty (.of phrase) ⟨0, 0⟩ ⟨0, 2⟩ :=
    ⟨⟨10, ""⟩, .empty, by decide +kernel⟩
  have hcheck : check.MatchesFrom .empty (.of phrase) ⟨0, 0⟩ :=
    ⟨⟨0, 1⟩, ⟨10, ""⟩, .empty, by decide +kernel⟩
  have hfound : ((Surroundings.of (.intersection initial [.mk check false]) .empty).candidates
      .empty (.of phrase) ⟨0, 2⟩ ⟨0, 2⟩ .empty).first? ⟨10, ""⟩ = .ok none :=
    rfl
  have hupTo := ((intersection_behind .empty initial [.mk check false] rfl
    (List.forall_mem_singleton.mpr rfl) phrase ⟨0, 2⟩ rfl ⟨10, ""⟩ .empty none hfound).2 trivial
    (List.forall_mem_singleton.mpr trivial)).1
  refine ⟨hinitial, hcheck, hfound, fun hends ↦ ?_⟩
  have hall : initial.MatchesUpTo .empty phrase ⟨0, 2⟩ := ⟨⟨0, 0⟩, by decide, rfl, hinitial⟩
  exact absurd (hupTo.mpr ⟨hall, List.forall_mem_singleton.mpr (iff_of_true hends rfl)⟩) nofun

end Diachrony
