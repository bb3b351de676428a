import Diachrony.Proofs.Pattern.Bounds

/-!
# Searching finds the spans of a pattern

The two halves come together: what a search offers are the spans of its pattern, and nothing but
its budget keeps a search from offering all of them.
-/

namespace Diachrony

namespace Pattern

variable {inv : Inventory} {p : Pattern}

/-- The search for a pattern stays in the phrase; what may fail is a reference to a capture. -/
theorem keeps_candidates {allowed : Fault → Prop}
    (hrefs : ReferencesAllowed allowed p.isReferenceFree) {scan : Scan} (hmirrors : scan.Mirrors)
    {start : Position} (hstart : scan.phrase.isPosition start) (b : Bindings) :
    (p.candidates inv scan start b).Keeps (Finder.Ahead scan start) allowed :=
  (p.finder_inside inv hrefs).alone scan start b hmirrors hstart

section ReferenceFree

variable (hfree : p.isReferenceFree) {scan : Scan} (hmirrors : scan.Mirrors) {start : Position}
  (hstart : scan.phrase.isPosition start)
include hfree hmirrors hstart

/-- Without references to captures nothing fails. -/
theorem keeps_candidates_of_isReferenceFree (b : Bindings) :
    (p.candidates inv scan start b).Keeps (Finder.Ahead scan start) fun _ ↦ False := by
  refine keeps_candidates (fun hp ↦ ?_) hmirrors hstart b
  rw [hfree] at hp
  cases hp

/-- Without a bound no fault ends the search for a pattern without references to captures. -/
theorem ending_candidates (b : Bindings) : (p.candidates inv scan start b).ending = none := by
  have hkeeps : (p.candidates inv scan start b).Keeps _ _ :=
    keeps_candidates_of_isReferenceFree hfree hmirrors hstart b
  cases hending : (p.candidates inv scan start b).ending with
  | none => rfl
  | some fault => exact (hkeeps.ending fault hending).elim

/-- Without a bound the search offers the ends of the spans of its pattern. -/
theorem mem_offers_candidates (b : Bindings) {stop : Position} :
    (∃ m ∈ (p.candidates inv scan start b).offers, m.stop = stop) ↔
      p.spans inv scan start stop := by
  have hlists := p.finder_describes inv hfree none scan start b
  constructor
  · rintro ⟨m, hm, rfl⟩
    exact hlists.sound m hm
  · exact hlists.complete (ending_candidates hfree hmirrors hstart b) stop

/-- The spans of a pattern end in the phrase, at their start or ahead of it. -/
theorem ahead_of_spans {stop : Position} (h : p.spans inv scan start stop) :
    scan.phrase.isPosition stop ∧ start ≤ stop := by
  obtain ⟨m, hm, rfl⟩ := (mem_offers_candidates hfree hmirrors hstart .empty).mpr h
  exact (keeps_candidates_of_isReferenceFree hfree hmirrors hstart .empty).offers m hm

end ReferenceFree

/-- A pattern without references to captures is searched for soundly and completely: only the
budget can end the search early, and if it does not, the ends that are offered are exactly those of
the spans of the pattern. -/
theorem search_sound_and_complete (inv : Inventory) (budget : Budget) (p : Pattern)
    (hfree : p.isReferenceFree) (phrase : Phrase) (start : Position)
    (hstart : phrase.isPosition start) (b : Bindings) :
    let course := (p.candidates inv (.of phrase) start b).course budget
    (∀ fault ∈ course.fault, fault = budget.exceeded) ∧
      (course.fault = none → ∀ stop,
        stop ∈ course.offered.map Match.stop ↔ p.spans inv (.of phrase) start stop) := by
  intro course
  have hmirrors := Scan.mirrors_of phrase
  have hending : (p.candidates inv (.of phrase) start b).ending = none :=
    ending_candidates hfree hmirrors hstart b
  refine ⟨fun fault hfault ↦ ?_, fun hnone stop ↦ ?_⟩
  · rcases (p.candidates inv (.of phrase) start b).fault_course budget with h | h
    · rw [show course.fault = _ from h] at hfault
      exact (Option.some.inj hfault).symm
    · rw [show course.fault = _ from h, hending] at hfault
      cases hfault
  · rw [show course.offered = _ from (Candidates.offered_course hnone).1, List.mem_map]
    exact mem_offers_candidates hfree hmirrors hstart b

/-- In `aab` the search for some `a` and a `b` ends after the `b` and nowhere else. -/
theorem search_sound_and_complete_aab :
    let a := Segment.literal ['a']
    let phrase := Phrase.ofWord ⟨[a, a, .literal ['b']], none⟩
    let p := sequence [.repeater (.text ⟨[a], none⟩) 1 none, .text ⟨[.literal ['b']], none⟩]
    p.spans .empty (.of phrase) ⟨0, 0⟩ ⟨0, 3⟩ ∧ ¬p.spans .empty (.of phrase) ⟨0, 0⟩ ⟨0, 2⟩ := by
  intro a phrase p
  have h := (search_sound_and_complete .empty ⟨10, "pattern"⟩ p rfl phrase ⟨0, 0⟩ rfl .empty).2
    (by decide +kernel)
  constructor
  · exact (h ⟨0, 3⟩).mp (by decide +kernel)
  · intro hspan
    exact absurd ((h ⟨0, 2⟩).mpr hspan) (by decide +kernel)

end Pattern

end Diachrony
