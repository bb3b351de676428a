import Diachrony.Proofs.Agreement
import Diachrony.Proofs.Change.Edits

/-!
# The matches at a position

A match of an expression at a position is a match of its pairing there, with what a condition asks
for behind and ahead of it. A search among the matches finds one if it finds anything, and it finds
nothing only if there is none, or none that keeps to its limit.
-/

namespace Diachrony.Expression

variable {lang : Language} {e : Expression} {scan : Scan} {limit : Option Position} {i : Position}
  {condition : Surroundings} {priority : Nat}

/-- Whether a tiled match stands at a position under a condition. -/
def IsMatch (lang : Language) (e : Expression) (scan : Scan) (i : Position)
    (condition : Surroundings) (m : TiledMatch) : Prop :=
  ∃ behind ∈ (condition.behind.candidates lang.inventory scan.turned (scan.phrase.turn i)
      .empty).offers,
    ∃ tiled ∈ (e.pairing.tiling lang.inventory none scan i behind.bindings []).offers,
      ∃ ahead ∈ (condition.ahead.candidates lang.inventory scan tiled.stop tiled.bindings).offers,
        m = { tiled with bindings := ahead.bindings }

/-- A match ends in the phrase, at its start or ahead of it. -/
theorem IsMatch.ahead (hmirrors : scan.Mirrors) (hi : scan.phrase.isPosition i) {m : TiledMatch}
    (h : e.IsMatch lang scan i condition m) : scan.phrase.isPosition m.stop ∧ i ≤ m.stop := by
  obtain ⟨behind, -, tiled, htiled, ahead, -, rfl⟩ := h
  have hcuts := @Pairing.tiling_cuts (fun _ ↦ True) (fun _ ↦ trivial) lang.inventory e.pairing none
    (fun _ h ↦ by cases h) scan i behind.bindings [] hmirrors hi
  obtain ⟨_, _, htiles, _⟩ := hcuts.offers tiled htiled
  exact ⟨htiles.isPosition_stop hi, htiles.le⟩

/-- What a search offers is a match that keeps to the limit. -/
theorem isMatch_of_mem_offers (hi : scan.phrase.isPosition i) {m : TiledMatch}
    (h : m ∈ (e.matchesAt lang scan limit i condition).offers) :
    e.IsMatch lang scan i condition m ∧ ∀ l ∈ limit, m.stop ≤ l := by
  rw [matchesAt, Phrase.turn?_of_isPosition hi] at h
  obtain ⟨behind, hbehind, h⟩ := Candidates.exists_of_mem_offers_bind h
  obtain ⟨tiled, htiled, h⟩ := Candidates.exists_of_mem_offers_bind h
  split at h
  · cases h
  · next hlimit =>
    rw [Candidates.offers_map] at h
    obtain ⟨ahead, hahead, rfl⟩ := List.mem_map.mp h
    refine ⟨⟨behind, hbehind, tiled, htiled, ahead, hahead, rfl⟩, fun l hl ↦ ?_⟩
    cases hl
    simpa using hlimit

/-- A search that finds nothing misses only matches that end behind the limit. -/
theorem lt_stop_of_first? (hi : scan.phrase.isPosition i) {budget : Budget}
    (h : (e.matchesAt lang scan limit i condition).first? budget = .ok none) {m : TiledMatch}
    (hm : e.IsMatch lang scan i condition m) : ∃ l ∈ limit, l < m.stop := by
  obtain ⟨hoffers, hending⟩ := Candidates.offers_eq_nil_of_firstAfter h
  obtain ⟨behind, hbehind, tiled, htiled, ahead, hahead, rfl⟩ := hm
  rw [matchesAt, Phrase.turn?_of_isPosition hi] at hoffers hending
  have htiling := (Candidates.ending_bind_eq_none.mp hending).2 behind hbehind
  by_contra hlimit
  have hkeeps : ¬limit.any (· < tiled.stop) := by
    cases limit with
    | none => exact Bool.false_ne_true
    | some l => exact fun hlt ↦ hlimit ⟨l, rfl, of_decide_eq_true hlt⟩
  have hoffered := Candidates.mem_offers_bind htiling htiled
    (c := { tiled with bindings := ahead.bindings }) <| by
      rw [if_neg hkeeps, Candidates.offers_map]
      exact List.mem_map_of_mem hahead
  have hmem := Candidates.mem_offers_bind hending hbehind hoffered
  rw [hoffers] at hmem
  cases hmem

/-- Where an edit is found it is due to a match that keeps to the limit. -/
theorem exists_isMatch_of_editAt (hi : scan.phrase.isPosition i) {edit : Edit}
    (h : e.editAt lang scan limit priority i = .ok (some edit)) :
    ∃ condition ∈ e.settings, ∃ m, e.IsMatch lang scan i condition m ∧ m.stop = edit.stop ∧
      ∀ l ∈ limit, m.stop ≤ l := by
  rw [editAt] at h
  generalize e.settings = conditions at h
  induction conditions with
  | nil => cases h
  | cons condition rest ih =>
    rw [editUnder] at h
    obtain ⟨found, hfound, h⟩ := exists_of_bind_eq_ok h
    cases found with
    | none =>
      obtain ⟨other, hother, hmatch⟩ := ih h
      exact ⟨other, List.mem_cons_of_mem condition hother, hmatch⟩
    | some m =>
      obtain ⟨resolved, hresolve, heq⟩ := map_eq_ok_iff.mp h
      obtain ⟨replacements, -, hedit⟩ := exists_of_bind_eq_ok hresolve
      cases heq
      cases hedit
      have hoffered := List.mem_of_head? (Candidates.head_offers_of_firstAfter hfound)
      obtain ⟨hmatch, hlimit⟩ := isMatch_of_mem_offers hi hoffered
      exact ⟨condition, List.mem_cons_self, m, hmatch, rfl, hlimit⟩

/-- Where no edit is found all matches end behind the limit. -/
theorem lt_stop_of_editAt (hi : scan.phrase.isPosition i)
    (h : e.editAt lang scan limit priority i = .ok none) (hmem : condition ∈ e.settings)
    {m : TiledMatch} (hm : e.IsMatch lang scan i condition m) : ∃ l ∈ limit, l < m.stop := by
  rw [editAt] at h
  generalize e.settings = conditions at h hmem
  induction conditions with
  | nil => cases hmem
  | cons first rest ih =>
    rw [editUnder] at h
    obtain ⟨found, hfound, h⟩ := exists_of_bind_eq_ok h
    cases found with
    | none =>
      rcases List.mem_cons.mp hmem with rfl | hmem
      · exact lt_stop_of_first? hi hfound hm
      · exact ih h hmem
    | some other =>
      obtain ⟨edit, -, h⟩ := map_eq_ok_iff.mp h
      cases h

/-- A search among positions finds an edit at the first one that has one. -/
theorem exists_of_firstAmong {scan : Scan} {positions : List Position} {found : Option Edit}
    (h : e.firstAmong lang scan limit priority positions = .ok found) :
    (found = none ∧ ∀ i ∈ positions, e.editAt lang scan limit priority i = .ok none) ∨
      ∃ edit before i after, found = some edit ∧ positions = before ++ i :: after ∧
        (∀ j ∈ before, e.editAt lang scan limit priority j = .ok none) ∧
        e.editAt lang scan limit priority i = .ok (some edit) := by
  induction positions with
  | nil =>
    cases h
    exact .inl ⟨rfl, List.forall_mem_nil _⟩
  | cons i rest ih =>
    rw [firstAmong] at h
    obtain ⟨here, hhere, h⟩ := exists_of_bind_eq_ok h
    cases here with
    | some edit =>
      cases h
      exact .inr ⟨edit, [], i, rest, rfl, rfl, List.forall_mem_nil _, hhere⟩
    | none =>
      rcases ih h with ⟨hnone, hrest⟩ | ⟨edit, before, j, after, hfound, hsplit, hbefore, hedit⟩
      · exact .inl ⟨hnone, List.forall_mem_cons.mpr ⟨hhere, hrest⟩⟩
      · exact .inr ⟨edit, i :: before, j, after, hfound, by rw [hsplit, List.cons_append],
          List.forall_mem_cons.mpr ⟨hhere, hbefore⟩, hedit⟩

/-- Every edit of some positions was found at one of them. -/
theorem exists_of_mem_editsFrom {positions : List Position} {cursor : Position} {edits : List Edit}
    (h : e.editsFrom lang scan priority cursor positions = .ok edits) :
    ∀ edit ∈ edits, ∃ i ∈ positions, e.editAt lang scan none priority i = .ok (some edit) := by
  induction positions generalizing cursor edits with
  | nil =>
    cases h
    exact List.forall_mem_nil _
  | cons i rest ih =>
    have hlater {cursor : Position} {edits : List Edit}
        (h : e.editsFrom lang scan priority cursor rest = .ok edits) (edit : Edit)
        (hedit : edit ∈ edits) : ∃ j ∈ i :: rest,
          e.editAt lang scan none priority j = .ok (some edit) := by
      obtain ⟨j, hj, hfound⟩ := ih h edit hedit
      exact ⟨j, List.mem_cons_of_mem i hj, hfound⟩
    rw [editsFrom] at h
    split at h
    · exact hlater h
    · obtain ⟨found, hfound, h⟩ := exists_of_bind_eq_ok h
      cases found with
      | none => exact hlater h
      | some first =>
        obtain ⟨others, hothers, h⟩ := exists_of_bind_eq_ok h
        cases h
        exact List.forall_mem_cons.mpr ⟨⟨i, List.mem_cons_self, hfound⟩, hlater hothers⟩

end Diachrony.Expression
