import Diachrony.Proofs.Change.Frame
import Diachrony.Proofs.Change.Narrow

/-!
# What a filter hides

A rule with a filter finds its matches among the segments that the filter accepts, and its edits are
made in the full phrase. A segment that the filter rejects is lost only if it stands inside of a
span that is replaced as a whole. A span that takes at most one step in what the rule sees holds no
rejected segment, so a rule all of whose pieces are narrow keeps everything that it does not see.
-/

namespace Diachrony

namespace Selection

/-- Whether a filter rejects the segment at a place of a phrase. -/
def rejects (lang : Language) (filter : Pattern) (p : Phrase) (i : Position) : Bool :=
  accepts lang filter (Scan.of p) i matches .ok false

variable {lang : Language} {filter : Pattern} {p : Phrase} {s : Selection}

/-- What is kept of a word was accepted. -/
theorem accepts_of_mem_keptIn (h : Selection.of lang filter p = .ok s) {w k : Nat}
    (hk : k ∈ s.keptIn w) : accepts lang filter (Scan.of p) ⟨w, k⟩ = .ok true := by
  have hword : ∀ a ∈ p.words.zipIdx, Ensures
      (fun indices ↦ ∀ k ∈ indices, accepts lang filter (Scan.of p) ⟨a.2, k⟩ = .ok true)
      (fun _ ↦ True)
      ((List.range a.1.length).filterM fun i ↦ accepts lang filter (Scan.of p) ⟨a.2, i⟩) :=
    fun a _ ↦ (Ensures.filterM fun _ _ ↦ .intro (fun _ _ ↦ trivial) fun _ _ ↦ trivial).mono
      fun _ _ hkept ↦ hkept.2
  obtain ⟨kept, hkept, hs⟩ := exists_of_bind_eq_ok h
  have hall := (Ensures.mapM hword).of_ok hkept
  cases hs
  rw [keptIn] at hk
  cases hindices : kept[w]? with
  | none =>
    rw [hindices] at hk
    cases hk
  | some indices =>
    rw [hindices] at hk
    obtain ⟨hw, rfl⟩ := List.getElem?_eq_some_iff.mp hindices
    have hlength : w < p.words.zipIdx.length := hall.length_eq ▸ hw
    have hget := hall.get hlength hw k hk
    simpa using hget

end Selection

namespace Phrase

variable {p : Phrase} {i j : Position}

/-- A short span is empty, or it passes one segment, or it leads to the next word. -/
theorem IsShort.cases (h : p.IsShort (i, j)) (hi : p.isPosition i) (hj : p.isPosition j)
    (hij : i ≤ j) : j = i ∨ i.segment < p.wordLength i.word ∧ j = i.step ∨
      i.segment = p.wordLength i.word ∧ j = ⟨i.word + 1, 0⟩ := by
  rcases hij.lt_or_eq with hlt | rfl
  · have hoffset : p.offset j = p.offset i + 1 := Nat.le_antisymm h (offset_lt_offset hi hlt)
    have hinside := isPosition_iff.mp hi
    have hlast := isPosition_iff.mp hj
    rcases Nat.lt_or_ge i.segment (p.wordLength i.word) with hsegment | hend
    · have hstep : p.isPosition i.step := isPosition_iff.mpr ⟨hinside.1, hsegment⟩
      exact .inr (.inl ⟨hsegment, offset_inj hj hstep (hoffset.trans (p.offset_step i).symm)⟩)
    · have hsegment : i.segment = p.wordLength i.word := Nat.le_antisymm hinside.2 hend
      have hword : i.word < j.word := by
        rcases Position.lt_iff.mp hlt with hword | ⟨hword, hless⟩
        · exact hword
        · rw [← hword] at hlast
          omega
      have hnext : p.nextWord? i = some ⟨i.word + 1, 0⟩ :=
        nextWord?_eq_some.mpr ⟨decide_eq_true hsegment, Nat.lt_of_le_of_lt hword hlast.1, rfl⟩
      have hposition := (ahead_of_nextWord? hnext).1
      exact .inr (.inr ⟨hsegment,
        offset_inj hj hposition (hoffset.trans (offset_nextWord? hnext).symm)⟩)
  · exact .inl rfl

end Phrase

namespace Selection.Within

variable {s : Selection} {p : Phrase} {i j k : Position}

/-- A span that is short in a selection holds nothing in the full phrase but what is kept. -/
theorem mem_keptIn_of_between (h : s.Within p) (hshort : s.phrase.IsShort (i, j))
    (hi : s.phrase.isPosition i) (hj : s.phrase.isPosition j) (hij : i ≤ j)
    (hk : k.segment < p.wordLength k.word)
    (hbetween : Phrase.between (s.fullStart i) (s.fullStop i j) k) :
    k.segment ∈ s.keptIn k.word := by
  obtain ⟨hstart, hstop⟩ := of_decide_eq_true hbetween
  rcases hshort.cases hi hj hij with rfl | ⟨hsegment, rfl⟩ | ⟨hsegment, rfl⟩
  · rw [fullStop, if_pos rfl] at hstop
    exact absurd hstart (not_le_of_gt hstop)
  · have hlt : i.segment < (s.keptIn i.word).length := h.wordLength_eq i.word ▸ hsegment
    have hne : i ≠ i.step := fun heq ↦ Nat.ne_of_lt (Nat.lt_succ_self i.segment)
      (congrArg Position.segment heq)
    rw [h.fullStart_eq, List.getElem?_eq_getElem hlt, Option.getD_some, Position.le_iff] at hstart
    rw [fullStop, if_neg hne] at hstop
    simp only [Position.step, List.getElem?_eq_getElem hlt, Option.getD_some,
      Position.lt_iff] at hstop
    simp only at hstart
    have hword : k.word = i.word := by omega
    have hkept : k.segment = (s.keptIn i.word)[i.segment] := by omega
    rw [hword, hkept]
    exact List.getElem_mem hlt
  · have hnone : (s.keptIn i.word)[i.segment]? = none :=
      List.getElem?_eq_none (Nat.le_of_eq (h.wordLength_eq i.word ▸ hsegment).symm)
    have hne : i ≠ ⟨i.word + 1, 0⟩ := fun heq ↦ Nat.ne_of_lt (Nat.lt_succ_self i.word)
      (congrArg Position.word heq)
    rw [h.fullStart_eq, hnone, Option.getD_none, Position.le_iff] at hstart
    rw [fullStop, if_neg hne, Position.lt_iff] at hstop
    simp only at hstart hstop
    have hword : k.word = i.word := by omega
    rw [hword] at hk
    omega

end Selection.Within

namespace SimpleRule

variable {lang : Language} {r : SimpleRule} {p : Phrase} {result : Option Phrase} {filter : Pattern}

/-- A rule with a filter sees what the filter leaves. -/
theorem exists_of_selection? {seen : Option Selection} (hfilter : r.filter = some filter)
    (h : r.selection? lang p = .ok seen) :
    ∃ s, Selection.of lang filter p = .ok s ∧ seen = some s := by
  simp only [selection?, hfilter] at h
  cases hs : Selection.of lang filter p with
  | error fault =>
    rw [hs] at h
    cases h
  | ok s =>
    rw [hs] at h
    exact ⟨s, rfl, (Except.ok.inj h).symm⟩

/-- The segments that the filter of a narrow rule rejects stand in no replaced span. -/
theorem outside_of_rejects (hfilter : r.filter = some filter) (hnarrow : r.isNarrow)
    {seen : Option Selection} {claimed : List (List Edit)} {accepted edits : List Edit}
    (h : r.Settles lang p seen claimed accepted edits) {k : Position}
    (hk : k.segment < p.wordLength k.word) (hrejects : Selection.rejects lang filter p k) :
    outside (replacedSpans edits) k := by
  obtain ⟨s, hs, rfl⟩ := exists_of_selection? hfilter h.selection
  have hwithin := (Selection.of_ensures (fun _ _ ↦ trivial) lang filter p).of_ok hs
  have hexpressions : ∀ e ∈ r.expressions, e.FindsOnly lang fun p edit ↦ edit.IsShort p :=
    fun e he ↦ e.findsOnly_isShort lang
      (List.all_eq_true.mp (List.all_eq_true.mp hnarrow e he))
  have hclaims := (claims_findsOnly hexpressions s.phrase 0).of_ok h.claims
  refine List.all_eq_true.mpr fun span hspan ↦ ?_
  obtain ⟨widened, hwidened, rfl⟩ := List.mem_map.mp hspan
  obtain ⟨edit, hedit, hmem⟩ := List.mem_flatMap.mp hwidened
  obtain ⟨claim, hclaim, rfl⟩ := List.mem_map.mp (h.perm.subset hedit)
  obtain ⟨replacement, hreplacement, rfl⟩ := List.mem_map.mp hmem
  obtain ⟨claims, hmade, hmember⟩ := h.acceptance.claimed claim hclaim
  have hshort := hclaims claims hmade claim hmember replacement hreplacement
  have hfits := h.fits claim hclaim
  obtain ⟨hstart, hstop, -, hle, -⟩ := hfits.tiles.of_mem hfits.isPosition_start
    (List.mem_map_of_mem hreplacement)
  rw [Bool.not_eq_true', Bool.eq_false_iff]
  intro hbetween
  have hkept := hwithin.mem_keptIn_of_between hshort hstart hstop hle hk hbetween
  rw [Selection.rejects, Selection.accepts_of_mem_keptIn hs hkept] at hrejects
  cases hrejects

/-- Applying all expressions of a rule at once keeps, in their order, the segments that its filter
rejects and that stand in no replaced span. These are all that the filter rejects if the rule is
narrow. -/
theorem rejected_sublist (hmode : r.mode = .simultaneous) (hfilter : r.filter = some filter)
    (h : r.apply lang p = .ok result) :
    ∃ edits, r.acceptedEdits lang p = .ok edits ∧
      (p.segmentsWhere fun i ↦ Selection.rejects lang filter p i &&
        outside (replacedSpans edits) i).Sublist (result.getD p).segments ∧
      (r.isNarrow → (p.segmentsWhere (Selection.rejects lang filter p)).Sublist
        (result.getD p).segments) := by
  rw [apply, hmode] at h
  cases result with
  | none =>
    cases haccepted : r.acceptedEdits lang p with
    | error fault =>
      rw [applyAtOnce, haccepted] at h
      cases h
    | ok edits =>
      exact ⟨edits, rfl, p.segmentsWhere_sublist_segments _,
        fun _ ↦ p.segmentsWhere_sublist_segments _⟩
  | some q =>
    obtain ⟨seen, claimed, accepted, edits, haccepted, hsettles, -⟩ := exists_of_applyAtOnce h
    have hkept := unreplaced_sublist haccepted h
    refine ⟨edits, haccepted, List.Sublist.trans ?_ hkept,
      fun hnarrow ↦ List.Sublist.trans ?_ hkept⟩
    · exact Phrase.segmentsWhere_sublist fun x _ hx ↦ ((Bool.and_eq_true _ _).mp hx).2
    · refine Phrase.segmentsWhere_sublist fun x hx hrejects ↦ ?_
      exact outside_of_rejects hfilter hnarrow hsettles (Phrase.lt_wordLength_of_mem_placed hx).2
        hrejects

/-- A rule that sees `a` and `o` and changes them one by one keeps the `t` between them. -/
theorem rejected_sublist_ato :
    let a := Segment.literal ['a']
    let o := Segment.literal ['o']
    let t := Segment.literal ['t']
    let seen (s : Segment) : Pattern := .symbol ⟨[s], none⟩
    let p : Phrase := .ofWord ⟨[a, t, o], none⟩
    let r : SimpleRule := {
      expressions := [
        { pairing := .sequence [.single (seen a) .empty, .single (seen o) .empty], text := "" }]
      filter := some (.alternative [seen a, seen o]) }
    ∃ q, r.apply { inventory := .empty } p = .ok (some q) ∧ r.isNarrow ∧
      p.segmentsWhere (Selection.rejects { inventory := .empty }
        (.alternative [seen a, seen o]) p) = [t] ∧ [t].Sublist q.segments := by
  intro a o t seen p r
  have happly : (r.apply { inventory := .empty } p).toOption =
      some (some (.ofWord ⟨[t], none⟩)) := by
    decide +kernel
  have happly := eq_ok_of_toOption happly
  have hrejects : p.segmentsWhere (Selection.rejects { inventory := .empty }
      (.alternative [seen a, seen o]) p) = [t] := by
    decide +kernel
  obtain ⟨edits, -, -, hkept⟩ := rejected_sublist rfl rfl happly
  have hnarrow : r.isNarrow := by decide +kernel
  have hkept := hkept hnarrow
  rw [hrejects] at hkept
  exact ⟨.ofWord ⟨[t], none⟩, happly, hnarrow, hrejects, hkept⟩

/-- A rule that sees `a` and `o` and takes away both as one takes away the `t` between them. -/
theorem rejected_lost_ato :
    let a := Segment.literal ['a']
    let o := Segment.literal ['o']
    let t := Segment.literal ['t']
    let seen (s : Segment) : Pattern := .symbol ⟨[s], none⟩
    let p : Phrase := .ofWord ⟨[a, t, o], none⟩
    ∃ pairing, Pattern.pair "a o" "*" (.sequence [seen a, seen o]) .empty = .ok pairing ∧
      let r : SimpleRule := {
        expressions := [{ pairing, text := "a o => *" }]
        filter := some (.alternative [seen a, seen o]) }
      r.apply { inventory := .empty } p = .ok (some .empty) ∧
        p.segmentsWhere (Selection.rejects { inventory := .empty }
          (.alternative [seen a, seen o]) p) = [t] := by
  intro a o t seen p
  refine ⟨.single (.sequence [seen a, seen o]) .empty, ?_, ?_, ?_⟩
  · rw [Pattern.pair]
    · rfl
    all_goals
      intros
      contradiction
  · exact eq_ok_of_toOption (by decide +kernel)
  · decide +kernel

end SimpleRule

end Diachrony
