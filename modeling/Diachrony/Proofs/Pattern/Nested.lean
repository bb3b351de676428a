import Mathlib.Data.List.Forall2
import Diachrony.Proofs.Pattern.Bounds

/-!
# Nested searches

While a pattern is searched for, its parts are searched for: ahead of a span, behind it in the
reversed phrase, and as a hint of what follows. Each of these searches starts at a position of the
phrase that it reads.

To say so, a watch is put on every search that is started. A watch may do what it likes with a
search that starts outside the phrase, such as fail, and it leaves the others alone. Under every
watch a search from a position of the phrase has the same course, so no search that it starts is
ever outside. What is proved for each operation is that its finder depends only on what the finders
of its parts do at positions of the phrase.
-/

namespace Diachrony

section Watches

/-- The finder that fails where it is started outside the phrase. -/
def Finder.guarded (f : Finder) : Finder := fun following scan start b ↦
  if scan.phrase.isPosition start then f following scan start b else .fail outside

variable (watch : Finder → Finder) (inv : Inventory)

mutual

/-- The search for a pattern with a watch on every search that it starts, itself included. -/
def Pattern.watched : Pattern → Finder
  | .negated inner => watch (.negated inner.watched)
  | .sequence items => watch (.sequence (Pattern.allWatched items))
  | .alternative options => watch (.alternative (Pattern.allWatched options))
  | .repeater inner min max => watch (.repeater inner.watched min max)
  | .capture inner number reversed => watch (.capture inner.watched number reversed)
  | .intersection initial checks =>
    watch (.intersection initial.watched (Check.allWatched checks))
  | .environment core conditions exclusions =>
    watch (.environment core.watched (Surroundings.allWatched conditions)
      (Surroundings.allWatched exclusions))
  | p => watch (p.finder inv)

/-- The searches for a list of patterns with a watch on them. -/
def Pattern.allWatched : List Pattern → List Finder
  | [] => []
  | p :: rest => p.watched :: Pattern.allWatched rest

/-- The searches for a list of checks with a watch on them. -/
def Check.allWatched : List Check → List (Finder × Bool)
  | [] => []
  | .mk p negated :: rest => (p.watched, negated) :: Check.allWatched rest

/-- The searches for both sides of surroundings with a watch on them. -/
def Surroundings.allWatched : List Surroundings → List (Finder × Finder)
  | [] => []
  | .mk behind ahead :: rest => (behind.watched, ahead.watched) :: Surroundings.allWatched rest

end

end Watches

namespace Finder

/-- A watch leaves searches alone that start at positions of the phrase. -/
def IsWatch (watch : Finder → Finder) : Prop := ∀ f following scan start b,
  scan.phrase.isPosition start → watch f following scan start b = f following scan start b

/-- No watch at all is a watch. -/
theorem isWatch_id : IsWatch fun f ↦ f := fun _ _ _ _ _ _ ↦ rfl

/-- To fail outside the phrase is a watch. -/
theorem isWatch_guarded : IsWatch guarded := fun _ _ _ _ _ hstart ↦ if_pos hstart

/-- Probes that do the same at positions of the phrase, which the first one does not leave. -/
structure ProbesAgree (probe probe' : Probe) : Prop where
  /-- The first probe stays in the phrase. -/
  inside : ProbeInside (fun _ ↦ True) probe
  /-- At positions of the phrase both probes have one course. -/
  eq : ∀ {scan : Scan} {start : Position} (b : Bindings), scan.Mirrors →
    scan.phrase.isPosition start → probe' scan start b = probe scan start b

/-- Hints that do the same at positions of the phrase. -/
def HintsAgree : Option Probe → Option Probe → Prop := Option.Rel ProbesAgree

/-- Finders that do the same at positions of the phrase when they are told the same. -/
def Agrees (f g : Finder) : Prop := ∀ following other, HintsAgree following other →
  ProbesAgree (f following) (g other)

section Hints

variable {following other : Option Probe}

/-- A hint that agrees with another one stays in the phrase. -/
theorem HintsAgree.inside (h : HintsAgree following other) :
    ∀ probe ∈ following, ProbeInside (fun _ ↦ True) probe := by
  intro probe hprobe
  cases h with
  | none => cases hprobe
  | some hagree =>
    cases hprobe
    exact hagree.inside

variable {f g : Finder} {scan : Scan} {start : Position}

/-- Finders that agree do so where nothing is known to follow. -/
theorem Agrees.alone (h : f.Agrees g) : ProbesAgree (f none) (g none) := h none none .none

/-- What candidates lead to counts for ends at positions of the phrase. -/
theorem ProbesAgree.bind_eq {probe probe' : Probe} (h : ProbesAgree probe probe')
    (hmirrors : scan.Mirrors) (hstart : scan.phrase.isPosition start) (b : Bindings)
    {next next' : Match → Candidates α}
    (hnext : ∀ m : Match, scan.phrase.isPosition m.stop → next' m = next m) :
    (probe' scan start b).bind next' = (probe scan start b).bind next := by
  rw [h.eq b hmirrors hstart]
  refine Candidates.bind_eq_of_offers fun m hm ↦ hnext m ?_
  exact ((h.inside scan start b hmirrors hstart).offers m hm).1

end Hints

section Operations

variable {f g : Finder} {finders finders' : List Finder}

/-- A finder that does not listen agrees with itself. -/
theorem agrees_self (hinside : f.Inside fun _ ↦ True)
    (h : ∀ following other, f following = f other) : f.Agrees f := by
  intro following other hhints
  refine ⟨hinside following hhints.inside, fun b _ _ ↦ ?_⟩
  rw [h other following]

/-- Of finders that agree the first one stays in the phrase. -/
theorem Agrees.inside (h : f.Agrees g) : f.Inside fun _ ↦ True := by
  intro following hfollowing
  have hself : HintsAgree following following := by
    cases following with
    | none => exact .none
    | some probe => exact .some ⟨hfollowing probe rfl, fun _ _ _ ↦ rfl⟩
  exact (h following following hself).inside

/-- A finder of parts that stays in the phrase agrees with that of other parts if it does the same
with them at positions of the phrase. -/
theorem agrees_of_eq (hinside : f.Inside fun _ ↦ True)
    (h : ∀ following other scan start b, HintsAgree following other → scan.Mirrors →
      scan.phrase.isPosition start → g other scan start b = f following scan start b) :
    f.Agrees g := by
  intro following other hhints
  refine ⟨hinside following hhints.inside, fun {scan start} b hmirrors hstart ↦ ?_⟩
  exact h following other scan start b hhints hmirrors hstart

/-- A watch changes nothing at positions of the phrase. -/
theorem Agrees.watch {watch : Finder → Finder} (hwatch : IsWatch watch) (h : f.Agrees g) :
    f.Agrees (watch g) := by
  refine agrees_of_eq h.inside fun following other scan start b hhints hmirrors hstart ↦ ?_
  rw [hwatch g other scan start b hstart, (h following other hhints).eq b hmirrors hstart]

/-- Negations of finders that agree. -/
theorem agrees_negated (h : f.Agrees g) : f.negated.Agrees g.negated := by
  refine agrees_of_eq (inside_negated h.inside)
    fun following other scan start b _ hmirrors hstart ↦ ?_
  rw [negated, negated, h.alone.eq b hmirrors hstart]

private theorem forall_left {α β : Type} {related : α → β → Prop} {P : α → Prop} {l : List α}
    {l' : List β} (h : List.Forall₂ related l l') (himp : ∀ a b, related a b → P a) :
    ∀ a ∈ l, P a := by
  induction h with
  | nil => exact fun _ ha ↦ nomatch ha
  | cons hfirst _ ih => exact List.forall_mem_cons.mpr ⟨himp _ _ hfirst, ih⟩

/-- Sequences of finders that agree: each starts where the one before ends, and is the hint of
that one. -/
theorem agrees_sequence (h : List.Forall₂ Agrees finders finders') :
    (sequence finders).Agrees (sequence finders') := by
  refine agrees_of_eq (inside_sequence (forall_left h fun _ _ ↦ Agrees.inside))
    fun following other scan start b hhints hmirrors hstart ↦ ?_
  induction h generalizing following other start b with
  | nil => rfl
  | @cons first first' rest rest' hfirst hrest ih =>
    have hnext : HintsAgree (rest.head?.map (· none)) (rest'.head?.map (· none)) := by
      cases hrest with
      | nil => exact .none
      | cons hhead _ => exact .some hhead.alone
    refine (hfirst _ _ hnext).bind_eq hmirrors hstart b fun m hm ↦ ?_
    exact ih none none m.stop m.bindings .none hm

/-- Alternatives of finders that agree. -/
theorem agrees_alternative (h : List.Forall₂ Agrees finders finders') :
    (alternative finders).Agrees (alternative finders') := by
  refine agrees_of_eq (inside_alternative (forall_left h fun _ _ ↦ Agrees.inside))
    fun following other scan start b hhints hmirrors hstart ↦ ?_
  induction h with
  | nil => rfl
  | cons hfirst _ ih =>
    simp only [alternative, (hfirst following other hhints).eq b hmirrors hstart, ih]

variable {following other : Option Probe} {scan : Scan} {start : Position}

/-- A look at what follows depends on what it does at the position. -/
theorem takesOver_eq_of_agree (hhints : HintsAgree following other) (hmirrors : scan.Mirrors)
    (hstart : scan.phrase.isPosition start) (b : Bindings) (next : Bool → Candidates Match) :
    takesOver other scan start b next = takesOver following scan start b next := by
  cases hhints with
  | none => rfl
  | some hagree => rw [takesOver, takesOver, hagree.eq b hmirrors hstart]

/-- Repetitions of finders that agree: each starts where the one before ends. -/
theorem repeatAfter_eq_of_agree (h : f.Agrees g) (min : Nat) (max : Option Nat)
    (hhints : HintsAgree following other) (hmirrors : scan.Mirrors) (bound count : Nat)
    (b : Bindings) (hstart : scan.phrase.isPosition start) :
    repeatAfter g min max other scan bound count start b =
      repeatAfter f min max following scan bound count start b := by
  induction bound generalizing count start b with
  | zero => rfl
  | succ bound ih =>
    have hextend : oneMore g min max other scan bound count start b =
        oneMore f min max following scan bound count start b := by
      refine h.alone.bind_eq hmirrors hstart b fun m hm ↦ ?_
      rw [ih (count + 1) m.bindings hm]
    rw [repeatAfter_succ, repeatAfter_succ]
    simp only [hextend, takesOver_eq_of_agree hhints hmirrors hstart b]

/-- Repeaters of finders that agree. -/
theorem agrees_repeater (h : f.Agrees g) (min : Nat) (max : Option Nat) :
    (f.repeater min max).Agrees (g.repeater min max) := by
  refine agrees_of_eq (inside_repeater h.inside min max)
    fun following other scan start b hhints hmirrors hstart ↦ ?_
  exact repeatAfter_eq_of_agree h min max hhints hmirrors _ 0 b hstart

/-- Captures of finders that agree. -/
theorem agrees_capture (h : f.Agrees g) (number : Nat) (reversed : Bool) :
    (f.capture number reversed).Agrees (g.capture number reversed) := by
  refine agrees_of_eq (inside_capture h.inside number reversed)
    fun following other scan start b hhints hmirrors hstart ↦ ?_
  rw [capture, capture, (h following other hhints).eq b hmirrors hstart]

/-- Checks of finders that agree. -/
def ChecksAgree : List (Finder × Bool) → List (Finder × Bool) → Prop :=
  List.Forall₂ fun check check' ↦ check.1.Agrees check'.1 ∧ check.2 = check'.2

/-- Checks start at the position where they are made. -/
theorem checksHold_eq_of_agree {checks checks' : List (Finder × Bool)}
    (h : ChecksAgree checks checks') (hmirrors : scan.Mirrors)
    (hstart : scan.phrase.isPosition start) (b : Bindings) :
    checksHold scan start checks' b = checksHold scan start checks b := by
  induction h generalizing b with
  | nil => rfl
  | @cons check check' rest rest' hfirst _ ih =>
    obtain ⟨finder, negated⟩ := check
    obtain ⟨finder', negated'⟩ := check'
    obtain ⟨hagree, rfl⟩ : finder.Agrees finder' ∧ negated = negated' := hfirst
    simp only [checksHold, hagree.alone.eq b hmirrors hstart, ih]

/-- Intersections of finders and checks that agree. -/
theorem agrees_intersection {checks checks' : List (Finder × Bool)} (h : f.Agrees g)
    (hchecks : ChecksAgree checks checks') :
    (intersection f checks).Agrees (intersection g checks') := by
  have hinside := forall_left hchecks fun _ _ hagree ↦ hagree.1.inside
  refine agrees_of_eq (inside_intersection h.inside hinside)
    fun following other scan start b hhints hmirrors hstart ↦ ?_
  refine (h following other hhints).bind_eq hmirrors hstart b fun m _ ↦ ?_
  rw [checksHold_eq_of_agree hchecks hmirrors hstart]

/-- Both sides of surroundings agree. -/
def SidesAgree (sides sides' : Finder × Finder) : Prop :=
  sides.1.Agrees sides'.1 ∧ sides.2.Agrees sides'.2

variable {stop : Position}

/-- The search around a span starts at its turned start and at its end. -/
theorem around_eq_of_agree {sides sides' : Finder × Finder} (h : SidesAgree sides sides')
    (hmirrors : scan.Mirrors) (hstart : scan.phrase.isPosition start)
    (hstop : scan.phrase.isPosition stop) (b : Bindings) :
    around sides' scan start stop b = around sides scan start stop b := by
  have hback : scan.turned.phrase.isPosition (scan.phrase.turn start) :=
    Phrase.isPosition_turn hmirrors hstart
  rw [around, around, Phrase.turn?_of_isPosition hstart]
  refine h.1.alone.bind_eq hmirrors.turned hback b fun m _ ↦ ?_
  rw [h.2.alone.eq m.bindings hmirrors hstop]

variable {sides sides' : List (Finder × Finder)}

/-- Exclusions are searched for around the span. -/
theorem unlessAround_eq_of_agree (h : List.Forall₂ SidesAgree sides sides')
    (hmirrors : scan.Mirrors) (hstart : scan.phrase.isPosition start)
    (hstop : scan.phrase.isPosition stop) (b : Bindings) (next : Unit → Candidates Match) :
    unlessAround scan start stop b next sides' = unlessAround scan start stop b next sides := by
  induction h with
  | nil => rfl
  | cons hfirst _ ih =>
    simp only [unlessAround, around_eq_of_agree hfirst hmirrors hstart hstop b, ih]

/-- Conditions are searched for around the span. -/
theorem inSome_eq_of_agree (h : List.Forall₂ SidesAgree sides sides') (hmirrors : scan.Mirrors)
    (hstart : scan.phrase.isPosition start) (hstop : scan.phrase.isPosition stop) (b : Bindings) :
    inSome scan start stop b sides' = inSome scan start stop b sides := by
  induction h with
  | nil => rfl
  | cons hfirst _ ih =>
    simp only [inSome, around_eq_of_agree hfirst hmirrors hstart hstop b, ih]

/-- Environments of finders that agree. -/
theorem agrees_environment {conditions conditions' : List (Finder × Finder)} (h : f.Agrees g)
    (hconditions : List.Forall₂ SidesAgree conditions conditions')
    (hexclusions : List.Forall₂ SidesAgree sides sides') :
    (environment f conditions sides).Agrees (environment g conditions' sides') := by
  have hinside {l l' : List (Finder × Finder)} (hsides : List.Forall₂ SidesAgree l l') :=
    forall_left hsides fun _ _ hagree ↦ And.intro hagree.1.inside hagree.2.inside
  refine agrees_of_eq (inside_environment h.inside (hinside hconditions) (hinside hexclusions))
    fun following other scan start b hhints hmirrors hstart ↦ ?_
  have hempty : conditions'.isEmpty = conditions.isEmpty := by cases hconditions <;> rfl
  refine (h following other hhints).bind_eq hmirrors hstart b fun m hm ↦ ?_
  rw [unlessAround_eq_of_agree hexclusions hmirrors hstart hm, hempty,
    inSome_eq_of_agree hconditions hmirrors hstart hm]

end Operations

end Finder

section Patterns

variable {watch : Finder → Finder}

mutual

/-- The search for a pattern under a watch agrees with the search for the pattern. -/
theorem Pattern.finder_agrees (hwatch : Finder.IsWatch watch) (inv : Inventory) : (p : Pattern) →
    (p.finder inv).Agrees (p.watched watch inv)
  | .negated inner => (Finder.agrees_negated (inner.finder_agrees hwatch inv)).watch hwatch
  | .sequence items =>
    (Finder.agrees_sequence (Pattern.finders_agree hwatch inv items)).watch hwatch
  | .alternative options =>
    (Finder.agrees_alternative (Pattern.finders_agree hwatch inv options)).watch hwatch
  | .repeater inner min max =>
    (Finder.agrees_repeater (inner.finder_agrees hwatch inv) min max).watch hwatch
  | .capture inner number reversed =>
    (Finder.agrees_capture (inner.finder_agrees hwatch inv) number reversed).watch hwatch
  | .intersection initial checks =>
    (Finder.agrees_intersection (initial.finder_agrees hwatch inv)
      (Check.finders_agree hwatch inv checks)).watch hwatch
  | .environment core conditions exclusions =>
    (Finder.agrees_environment (core.finder_agrees hwatch inv)
      (Surroundings.finders_agree hwatch inv conditions)
      (Surroundings.finders_agree hwatch inv exclusions)).watch hwatch
  | .empty | .never | .wordStart | .wordEnd | .betweenWords | .text _ | .symbol _ | .matrix _
  | .syllableMatrix _ | .syllable | .syllableBoundary | .captureReference _ _ _ =>
    (Finder.agrees_self (Pattern.finder_inside inv _ fun _ _ ↦ trivial) fun _ _ ↦ rfl).watch hwatch

/-- The searches for a list of patterns under a watch agree with those for the patterns. -/
theorem Pattern.finders_agree (hwatch : Finder.IsWatch watch) (inv : Inventory) :
    (ps : List Pattern) →
      List.Forall₂ Finder.Agrees (Pattern.finders inv ps) (Pattern.allWatched watch inv ps)
  | [] => .nil
  | p :: rest => .cons (p.finder_agrees hwatch inv) (Pattern.finders_agree hwatch inv rest)

/-- The searches for a list of checks under a watch agree with those for the checks. -/
theorem Check.finders_agree (hwatch : Finder.IsWatch watch) (inv : Inventory) :
    (checks : List Check) →
      Finder.ChecksAgree (Check.finders inv checks) (Check.allWatched watch inv checks)
  | [] => .nil
  | .mk p _ :: rest =>
    .cons ⟨p.finder_agrees hwatch inv, rfl⟩ (Check.finders_agree hwatch inv rest)

/-- The searches for surroundings under a watch agree with those for the surroundings. -/
theorem Surroundings.finders_agree (hwatch : Finder.IsWatch watch) (inv : Inventory) :
    (list : List Surroundings) → List.Forall₂ Finder.SidesAgree (Surroundings.finders inv list)
      (Surroundings.allWatched watch inv list)
  | [] => .nil
  | .mk behind ahead :: rest =>
    .cons ⟨behind.finder_agrees hwatch inv, ahead.finder_agrees hwatch inv⟩
      (Surroundings.finders_agree hwatch inv rest)

end

namespace Pattern

variable {inv : Inventory} {p : Pattern} {hint : Option Pattern} {scan : Scan} {start : Position}

/-- Under a watch a search from a position of the phrase has the course that it has without. -/
theorem watched_eq (hwatch : Finder.IsWatch watch) (hmirrors : scan.Mirrors)
    (hstart : scan.phrase.isPosition start) (b : Bindings) :
    p.watched watch inv (hint.map fun q ↦ q.watched watch inv none) scan start b =
      p.finder inv (hint.map fun q ↦ q.candidates inv) scan start b := by
  have hhints : Finder.HintsAgree (hint.map fun q ↦ q.candidates inv)
      (hint.map fun q ↦ q.watched watch inv none) := by
    cases hint with
    | none => exact .none
    | some q => exact .some (q.finder_agrees hwatch inv).alone
  exact (p.finder_agrees hwatch inv _ _ hhints).eq b hmirrors hstart

/-- A search with a hint stays in the phrase; what may fail is a reference to a capture. -/
theorem keeps_hinted (hmirrors : scan.Mirrors) (hstart : scan.phrase.isPosition start)
    (b : Bindings) : (p.finder inv (hint.map fun q ↦ q.candidates inv) scan start b).Keeps
      (Finder.Ahead scan start) fun fault ↦ ∃ number, fault = .of (.unboundCapture number) := by
  have hinside (q : Pattern) : (q.finder inv).Inside fun fault ↦
      ∃ number, fault = .of (.unboundCapture number) :=
    q.finder_inside inv fun _ number ↦ ⟨number, rfl⟩
  refine hinside p _ (fun probe hprobe ↦ ?_) scan start b hmirrors hstart
  obtain ⟨q, -, rfl⟩ := Option.map_eq_some_iff.mp hprobe
  exact (hinside q).alone

/-- A search from a position of the phrase stays inside. Every end that it offers is a position of
the phrase and not before the start. Every search that it starts, in either direction, starts at a
position: under every watch that leaves such searches alone it has the same course, under the one
too that fails outside the phrase. And the faults that are left are references to captures that are
not bound and the budget, so no position outside is ever turned and no span outside or backwards is
ever captured. -/
theorem search_stays_inside (inv : Inventory) (p : Pattern) (hint : Option Pattern)
    (phrase : Phrase) {start : Position} (hstart : phrase.isPosition start) (b : Bindings) :
    let search := p.finder inv (hint.map fun q ↦ q.candidates inv) (.of phrase) start b
    (∀ watch, Finder.IsWatch watch →
      p.watched watch inv (hint.map fun q ↦ q.watched watch inv none) (.of phrase) start b =
        search) ∧
    p.watched .guarded inv (hint.map fun q ↦ q.watched .guarded inv none) (.of phrase) start b =
      search ∧
    ∀ budget : Budget,
      (∀ m ∈ (search.course budget).offered, phrase.isPosition m.stop ∧ start ≤ m.stop) ∧
      ∀ fault ∈ (search.course budget).fault, fault ≠ Finder.outside ∧ fault ≠ Finder.stalled ∧
        (fault = budget.exceeded ∨ ∃ number, fault = .of (.unboundCapture number)) := by
  intro search
  have hmirrors := Scan.mirrors_of phrase
  have hkeeps : search.Keeps _ _ := keeps_hinted hmirrors hstart b
  refine ⟨fun watch hwatch ↦ watched_eq hwatch hmirrors hstart b,
    watched_eq Finder.isWatch_guarded hmirrors hstart b, fun budget ↦ ⟨fun m hm ↦ ?_, ?_⟩⟩
  · exact hkeeps.offers m (Candidates.mem_offers_of_mem_offered hm)
  · intro fault hfault
    have hallowed : fault = budget.exceeded ∨ ∃ number, fault = .of (.unboundCapture number) := by
      rcases search.fault_course budget with h | h
      · rw [h] at hfault
        exact .inl (Option.some.inj hfault).symm
      · rw [h] at hfault
        exact .inr (hkeeps.ending fault hfault)
    refine ⟨?_, ?_, hallowed⟩
    · rcases hallowed with rfl | ⟨number, rfl⟩ <;> exact nofun
    · rcases hallowed with rfl | ⟨number, rfl⟩ <;> exact nofun

/-- In `ab` the search for some captured `b` after an `a` and before the end of the word looks
behind itself and ahead without leaving the phrase, whether it is guarded or not; started behind the
word it would fail. -/
theorem search_stays_inside_ab :
    let seen (c : Char) : Pattern := .text ⟨[.literal [c]], none⟩
    let p : Pattern := .environment (.capture (.repeater (seen 'b') 1 none) 1 false)
      [.mk (seen 'a') .wordEnd] []
    let phrase : Phrase := .ofWord ⟨[.literal ['a'], .literal ['b']], none⟩
    let search := p.candidates .empty (.of phrase) ⟨0, 1⟩ .empty
    p.watched (fun f ↦ f) .empty none (.of phrase) ⟨0, 1⟩ .empty = search ∧
      p.watched .guarded .empty none (.of phrase) ⟨0, 1⟩ .empty = search ∧
      (search.course ⟨100, "rule"⟩).offered.map Match.stop = [⟨0, 2⟩] ∧
      p.watched .guarded .empty none (.of phrase) ⟨0, 3⟩ .empty = .fail Finder.outside := by
  intro seen p phrase search
  obtain ⟨hwatched, hguarded, -⟩ := search_stays_inside .empty p none phrase
    (show phrase.isPosition ⟨0, 1⟩ by decide) .empty
  exact ⟨hwatched _ Finder.isWatch_id, hguarded, by decide +kernel, rfl⟩

end Pattern

end Patterns

end Diachrony
