import Diachrony.Proofs.Change.Exhaustive
import Diachrony.Proofs.Change.Rules
import Diachrony.Proofs.Phrase.Retelling

/-!
# Passes from the right

A pass from the right makes one edit after the other, each in front of what the last one wrote. So
it never comes by its own output: up to the limit the text is still the text from which the pass
started, and fewer positions stand in front of each limit than in front of the last. Each edit has
the last start that is left to any expression, and of the expressions that share it the first.
-/

namespace Diachrony

namespace Expression

variable {lang : Language} {e : Expression} {p : Phrase} {limit : Option Position}
  {priority : Nat}

/-- Whether an expression has a match at a position that is not excluded, with start and end in
front of a limit. -/
def MayEdit (lang : Language) (e : Expression) (p : Phrase) (limit : Option Position)
    (i : Position) : Prop :=
  p.isPosition i ∧ e.isExcluded lang (.of p) i = .ok false ∧ (∀ l ∈ limit, i < l) ∧
    ∃ condition ∈ e.settings, ∃ m, e.IsMatch lang (.of p) i condition m ∧ ∀ l ∈ limit, m.stop ≤ l

/-- At a position where it may make an edit, an expression finds one. -/
theorem MayEdit.editAt_ne {i : Position} (h : e.MayEdit lang p limit i) :
    e.editAt lang (.of p) limit priority i ≠ .ok none := by
  obtain ⟨hi, -, -, condition, hcondition, m, hm, hstop⟩ := h
  intro hnone
  obtain ⟨l, hl, hlt⟩ := lt_stop_of_editAt hi hnone hcondition hm
  exact absurd (hstop l hl) (not_le.mpr hlt)

/-- The last edit before a limit is one that the expression may make there, and the expression may
make none behind its start. -/
theorem exists_of_lastEdit? {found : Option Edit}
    (h : e.lastEdit? lang p limit priority = .ok found) :
    (∀ edit ∈ found, edit.priority = priority ∧ e.MayEdit lang p limit edit.start ∧
      edit.Fits p e.pairing.hasPieces ∧ ∀ l ∈ limit, edit.stop ≤ l) ∧
    ∀ i, e.MayEdit lang p limit i → ∃ edit ∈ found, i ≤ edit.start := by
  rw [lastEdit?] at h
  obtain ⟨positions, hpositions, h⟩ := exists_of_bind_eq_ok h
  obtain ⟨isOpen, hopen, rfl⟩ := exists_of_openPositions hpositions
  have hbefore (i : Position) : limit.all (i < ·) ↔ ∀ l ∈ limit, i < l := by
    cases limit <;> simp
  have hmem (i : Position) : i ∈ ((p.positions.filter isOpen).filter fun i ↦
      limit.all (i < ·)).reverse ↔ p.isPosition i ∧ isOpen i ∧ ∀ l ∈ limit, i < l := by
    rw [List.mem_reverse, List.mem_filter, List.mem_filter, Phrase.mem_positions, hbefore,
      and_assoc]
  have hsorted : ((p.positions.filter isOpen).filter fun i ↦
      limit.all (i < ·)).reverse.Pairwise fun a b ↦ b < a :=
    List.pairwise_reverse.mpr ((p.pairwise_positions.filter isOpen).filter _)
  have hlisted {i : Position} (hi : e.MayEdit lang p limit i) : i ∈ ((p.positions.filter
      isOpen).filter fun i ↦ limit.all (i < ·)).reverse := by
    refine (hmem i).mpr ⟨hi.1, ?_, hi.2.2.1⟩
    have hfree := hopen i (Phrase.mem_positions.mpr hi.1)
    rw [hi.2.1] at hfree
    simpa using Except.ok.inj hfree
  rcases exists_of_firstAmong h with ⟨rfl, hnone⟩ | ⟨edit, before, i, after, rfl, hsplit, hnone, hi⟩
  · refine ⟨by rintro edit ⟨⟩, fun i hi ↦ ?_⟩
    exact absurd (hnone i (hlisted hi)) hi.editAt_ne
  · obtain ⟨hposition, hfree, hlimit⟩ := (hmem i).mp (by rw [hsplit]; simp)
    obtain ⟨hpriority, rfl, hfits⟩ := fits_of_editAt hposition hi
    obtain ⟨condition, hcondition, m, hm, hstop, hkeeps⟩ := exists_isMatch_of_editAt hposition hi
    refine ⟨fun other hother ↦ ?_, fun j hj ↦ ⟨edit, rfl, ?_⟩⟩
    · cases hother
      have hexcluded := hopen edit.start (Phrase.mem_positions.mpr hposition)
      rw [hfree, Bool.not_true] at hexcluded
      exact ⟨hpriority, ⟨hposition, hexcluded, hlimit, condition, hcondition, m, hm, hkeeps⟩, hfits,
        hstop ▸ hkeeps⟩
    · have hj' := hlisted hj
      rw [hsplit] at hj' hsorted
      rw [List.pairwise_append, List.pairwise_cons] at hsorted
      rcases List.mem_append.mp hj' with hj' | hj'
      · exact absurd (hnone j hj') hj.editAt_ne
      · rcases List.mem_cons.mp hj' with rfl | hj'
        · exact le_refl _
        · exact le_of_lt (hsorted.2.1.1 j hj')

end Expression

namespace Splicing

variable {p : Phrase} {x : Replacement} (hplace : p.isPosition x.start) (rest : List Replacement)
include hplace

/-- The first thing written is written where the first replacement starts. -/
theorem first_foldl_cons :
    ((x :: rest).foldl (written p) { cursor := p.start }).first = some x.start := by
  let s : Splicing := { cursor := p.start }
  have hbefore : (s.textBefore p x).stop = x.start := by
    rw [stop_textBefore, Phrase.empty_append,
      (Phrase.Retells.slice_start p x.start).stop_eq hplace]
  have hmark : (s.written p x).first = some (s.textBefore p x).stop := rfl
  have hwritten : (s.written p x).output.isPosition (s.textBefore p x).stop :=
    Phrase.isPosition_append x.result Phrase.isPosition_stop
  rw [List.foldl_cons, (first_foldl_written (p := p) hmark hwritten rest).1, hbefore]

/-- In front of the first replacement the segments of the phrase are written again. -/
theorem segmentAt?_foldl_cons (t : Phrase) {i : Position} (hi : i < x.start) :
    (((x :: rest).foldl (written p) { cursor := p.start }).output ++ t).segmentAt? i =
      p.segmentAt? i := by
  let s : Splicing := { cursor := p.start }
  obtain ⟨next, hnext⟩ := exists_output_written (p := p) s x
  obtain ⟨more, hmore⟩ := exists_output_foldl_written (p := p) rest (s.written p x)
  rw [List.foldl_cons, hmore, hnext, Phrase.empty_append, Phrase.append_assoc, Phrase.append_assoc]
  exact (Phrase.Retells.slice_start p x.start).segmentAt?_append hplace _ hi

end Splicing

namespace SimpleRule

/-- A member of a list with one more at its end is a member of the list, or it is the one at the
end. -/
private theorem getElem?_concat_cases {α : Type} {l : List α} {a b : α} {j : Nat}
    (h : (l ++ [a])[j]? = some b) : l[j]? = some b ∨ j = l.length ∧ b = a := by
  obtain ⟨hj, heq⟩ := List.getElem?_eq_some_iff.mp h
  rw [List.length_append, List.length_singleton] at hj
  rcases Nat.lt_or_eq_of_le (Nat.le_of_lt_succ hj) with hlt | rfl
  · exact .inl (by rwa [List.getElem?_append_left hlt] at h)
  · exact .inr ⟨rfl, by rw [List.getElem?_concat_length] at h; exact (Option.some.inj h).symm⟩

/-- Whether an edit is the best one that some expressions offer: the last one, and of equals the one
of the first expression. -/
def IsBest (offer : Expression → Nat → Except Fault (Option Edit)) (expressions : List Expression)
    (best : Option Edit) : Prop :=
  match best with
  | none => ∀ (j : Nat) (e : Expression), expressions[j]? = some e → offer e j = .ok none
  | some b => ∃ (k : Nat) (e : Expression), expressions[k]? = some e ∧ offer e k = .ok (some b) ∧
    ∀ (j : Nat) (e' : Expression), expressions[j]? = some e' → ∃ found, offer e' j = .ok found ∧
      ∀ f ∈ found, f.start < b.start ∨ f.start = b.start ∧ k ≤ j

section Concat

variable {offer : Expression → Nat → Except Fault (Option Edit)} {es : List Expression}
  {best : Option Edit} {last : Expression} (h : IsBest offer es best)
include h

/-- The best edit stays the best if one more expression offers none that stands behind it. -/
theorem IsBest.concat_of_le {found : Option Edit} (hoffer : offer last es.length = .ok found)
    (hle : ∀ f ∈ found, ∃ b ∈ best, f.start ≤ b.start) : IsBest offer (es ++ [last]) best := by
  cases best with
  | none =>
    intro j e he
    rcases getElem?_concat_cases he with he | ⟨rfl, rfl⟩
    · exact h j e he
    · cases found with
      | none => exact hoffer
      | some f =>
        obtain ⟨b, hb, -⟩ := hle f rfl
        cases hb
  | some b =>
    obtain ⟨k, e, he, hb, hall⟩ := h
    have hk : k < es.length := (List.getElem?_eq_some_iff.mp he).1
    refine ⟨k, e, by rw [List.getElem?_append_left hk, he], hb, fun j e' he' ↦ ?_⟩
    rcases getElem?_concat_cases he' with he' | ⟨rfl, rfl⟩
    · exact hall j e' he'
    · refine ⟨found, hoffer, fun f hf ↦ ?_⟩
      obtain ⟨_, hb, hle⟩ := hle f hf
      cases hb
      exact hle.lt_or_eq.imp_right fun heq ↦ ⟨heq, Nat.le_of_lt hk⟩

/-- An edit that stands behind the best one of the expressions before is the best. -/
theorem IsBest.concat_of_lt {f : Edit} (hoffer : offer last es.length = .ok (some f))
    (hlt : ∀ b ∈ best, b.start < f.start) : IsBest offer (es ++ [last]) (some f) := by
  refine ⟨es.length, last, List.getElem?_concat_length, hoffer, fun j e he ↦ ?_⟩
  rcases getElem?_concat_cases he with he | ⟨rfl, rfl⟩
  · cases best with
    | none => exact ⟨none, h j e he, fun f hf ↦ (nomatch hf)⟩
    | some b =>
      obtain ⟨k, _, -, -, hall⟩ := h
      obtain ⟨found, hfound, hle⟩ := hall j e he
      refine ⟨found, hfound, fun f' hf' ↦ .inl ?_⟩
      exact ((hle f' hf').elim le_of_lt fun h ↦ le_of_eq h.1).trans_lt (hlt b rfl)
  · refine ⟨some f, hoffer, fun f' hf' ↦ ?_⟩
    cases hf'
    exact .inr ⟨rfl, Nat.le_refl _⟩

end Concat

/-- The best of some edits is the last one, and of equals the one of the first expression. -/
theorem isBest_of_bestEdit? {offer : Expression → Nat → Except Fault (Option Edit)}
    {expressions : List Expression} {best : Option Edit}
    (h : bestEdit? (fun a b ↦ b.start < a.start) offer expressions = .ok best) :
    IsBest offer expressions best := by
  induction expressions using List.reverseRecOn generalizing best with
  | nil =>
    cases h
    exact fun j e he ↦ by simp at he
  | append_singleton es last ih =>
    rw [bestEdit?, List.zipIdx_append, List.foldlM_append] at h
    obtain ⟨before, hbefore, h⟩ := exists_of_bind_eq_ok h
    replace ih := ih hbefore
    obtain ⟨after, hstep, h⟩ := exists_of_bind_eq_ok h
    obtain rfl : after = best := Except.ok.inj h
    obtain ⟨found, hoffer, hstep⟩ := exists_of_bind_eq_ok hstep
    rw [Nat.zero_add] at hoffer
    cases found with
    | none =>
      have hbest : before = after := by cases before <;> exact Except.ok.inj hstep
      exact hbest ▸ ih.concat_of_le hoffer fun f hf ↦ by cases hf
    | some f =>
      cases before with
      | none =>
        obtain rfl : some f = after := Except.ok.inj hstep
        exact ih.concat_of_lt hoffer fun b hb ↦ by cases hb
      | some b =>
        obtain rfl : some (if b.start < f.start then f else b) = after := by
          simpa using Except.ok.inj hstep
        by_cases hlater : b.start < f.start
        · rw [if_pos hlater]
          refine ih.concat_of_lt hoffer fun b' hb ↦ ?_
          cases hb
          exact hlater
        · rw [if_neg hlater]
          refine ih.concat_of_le hoffer fun f' hf ↦ ⟨b, rfl, ?_⟩
          cases hf
          exact not_lt.mp hlater

/-- Where the end of a span of what a rule sees lies in the full phrase. -/
def stopIn : Option Selection → Position → Position → Position
  | none, _, j => j
  | some s, i, j => s.fullStop i j

/-- Where a limit of the full phrase lies in what a rule sees. -/
def limitIn : Option Selection → Option Position → Option Position
  | none, limit => limit
  | some s, limit => limit.map s.narrow

/-- Whether the expression with some index has a match in what a rule sees, at a position that is
not excluded, so that in the full phrase it starts before a limit and does not end behind it. -/
def Offers (lang : Language) (r : SimpleRule) (p : Phrase) (seen : Option Selection)
    (limit : Option Position) (k : Nat) (i : Position) : Prop :=
  ∃ e, r.expressions[k]? = some e ∧ (seenPhrase p seen).isPosition i ∧
    e.isExcluded lang (.of (seenPhrase p seen)) i = .ok false ∧
    (∀ l ∈ limit, placeIn seen i < l) ∧
    ∃ condition ∈ e.settings, ∃ m, e.IsMatch lang (.of (seenPhrase p seen)) i condition m ∧
      ∀ l ∈ limit, stopIn seen i m.stop ≤ l

/-- Whether an edit is the last one that a rule may make before a limit, and of those with the same
start one of the first expression that has one. -/
def IsLast (lang : Language) (r : SimpleRule) (p : Phrase) (limit : Option Position) (e : Edit) :
    Prop :=
  ∃ seen i, r.selection? lang p = .ok seen ∧ placeIn seen i = e.start ∧
    r.Offers lang p seen limit e.priority i ∧
    ∀ k j, r.Offers lang p seen limit k j →
      placeIn seen j < e.start ∨ placeIn seen j = e.start ∧ e.priority ≤ k

variable {lang : Language} {r : SimpleRule} {p q : Phrase} {seen : Option Selection}
  {limit : Option Position} {e : Edit}

section Places

variable (hseen : ∀ s ∈ seen, s.Within p) (hlimit : ∀ l ∈ limit, p.isPosition l)
include hseen hlimit

/-- An expression offers an edit before a limit of the full phrase if it may make one before the
limit in what the rule sees. -/
theorem offers_iff {k : Nat} {i : Position} : r.Offers lang p seen limit k i ↔
    ∃ e, r.expressions[k]? = some e ∧
      e.MayEdit lang (seenPhrase p seen) (limitIn seen limit) i := by
  cases seen with
  | none => exact Iff.rfl
  | some s =>
    have hwithin := hseen s rfl
    have hstart : (∀ l ∈ limit, s.fullStart i < l) ↔ ∀ l ∈ limit.map s.narrow, i < l := by
      cases limit with
      | none => simp
      | some l => simpa using (hwithin.lt_narrow_iff (hlimit l rfl)).symm
    have hstop {j : Position} (hj : s.phrase.isPosition j) (hij : i ≤ j)
        (hi : ∀ l ∈ limit.map s.narrow, i < l) :
        (∀ l ∈ limit, s.fullStop i j ≤ l) ↔ ∀ l ∈ limit.map s.narrow, j ≤ l := by
      cases limit with
      | none => simp
      | some l => simpa using hwithin.fullStop_le_iff (hlimit l rfl) hj hij (hi _ rfl)
    refine exists_congr fun e ↦ and_congr_right fun _ ↦ and_congr_right fun hi ↦
      and_congr_right fun _ ↦ ?_
    show (∀ l ∈ limit, s.fullStart i < l) ∧ _ ↔ _
    rw [hstart]
    refine and_congr_right fun hbefore ↦ exists_congr fun condition ↦ and_congr_right fun _ ↦
      exists_congr fun m ↦ and_congr_right fun hm ↦ ?_
    obtain ⟨hposition, hle⟩ := hm.ahead (Scan.mirrors_of _) hi
    exact hstop hposition hle hbefore

omit hlimit in
/-- Starts in what a rule sees that differ stay apart in the full phrase. -/
theorem placeIn_lt_placeIn {i j : Position} (hj : (seenPhrase p seen).isPosition j) (hij : i < j) :
    placeIn seen i < placeIn seen j := by
  cases seen with
  | none => exact hij
  | some s => exact (hseen s rfl).fullStart_lt_fullStart hj hij

end Places

section Choosing

variable (hlimit : ∀ l ∈ limit, p.isPosition l)
include hlimit

/-- What is found before a limit is the best of what the expressions find in what the rule sees. -/
theorem exists_of_previousEdit? {found : Option Edit}
    (h : r.previousEdit? lang p limit = .ok found) :
    ∃ seen best, r.selection? lang p = .ok seen ∧ found = best.map (widenIn seen) ∧
      IsBest (fun e ↦ e.lastEdit? lang (seenPhrase p seen) (limitIn seen limit)) r.expressions
        best := by
  rw [previousEdit?] at h
  obtain ⟨seen, hseen, h⟩ := exists_of_bind_eq_ok h
  cases seen with
  | none =>
    refine ⟨none, found, hseen, ?_, isBest_of_bestEdit? h⟩
    cases found <;> rfl
  | some s =>
    have hinside : limit.all p.isPosition = true := by
      cases limit with
      | none => rfl
      | some l => exact hlimit l rfl
    simp only [hinside, Bool.not_true, Bool.false_eq_true, if_false] at h
    obtain ⟨best, hbest, h⟩ := exists_of_bind_eq_ok h
    refine ⟨some s, best, hseen, ?_, isBest_of_bestEdit? hbest⟩
    cases best with
    | none => exact (Except.ok.inj h).symm
    | some b =>
      obtain ⟨widened, hwidened, h⟩ := exists_of_bind_eq_ok h
      rw [Selection.widen?] at hwidened
      split at hwidened
      · cases hwidened
        exact (Except.ok.inj h).symm
      · cases hwidened

omit hlimit in
private theorem within_of_selection? (h : r.selection? lang p = .ok seen) :
    ∀ s ∈ seen, s.Within p :=
  (@selection?_ensures (fun _ ↦ True) (fun _ _ ↦ trivial) lang r p).of_ok h

/-- What is found before a limit is the last edit that the rule may make there, and it does not end
behind the limit. -/
theorem isLast_of_previousEdit? (h : r.previousEdit? lang p limit = .ok (some e)) :
    r.IsLast lang p limit e ∧ ∀ l ∈ limit, e.start < l ∧ e.stop ≤ l := by
  obtain ⟨seen, best, hselection, hfound, hbest⟩ := exists_of_previousEdit? hlimit h
  have hseen := within_of_selection? hselection
  cases best with
  | none => cases hfound
  | some b =>
    obtain rfl : e = widenIn seen b := Option.some.inj hfound
    obtain ⟨k, expression, hk, hlast, hall⟩ := hbest
    obtain ⟨rfl, hmay, hfits, hstop⟩ := (Expression.exists_of_lastEdit? hlast).1 b rfl
    have hpriority : (widenIn seen b).priority = b.priority := by cases seen <;> rfl
    have hstart : (widenIn seen b).start = placeIn seen b.start := by cases seen <;> rfl
    have hoffers := (offers_iff hseen hlimit).mpr ⟨expression, hk, hmay⟩
    rw [IsLast, hpriority, hstart]
    refine ⟨⟨seen, b.start, hselection, rfl, hoffers, fun j i hi ↦ ?_⟩, fun l hl ↦ ⟨?_, ?_⟩⟩
    · obtain ⟨other, hj, hi⟩ := (offers_iff hseen hlimit).mp hi
      obtain ⟨found, hfound, hbetter⟩ := hall j other hj
      obtain ⟨f, hf, hle⟩ := (Expression.exists_of_lastEdit? hfound).2 i hi
      rcases hle.lt_or_eq with hlt | rfl
      · refine .inl (placeIn_lt_placeIn hseen hfits.isPosition_start (hlt.trans_le ?_))
        exact (hbetter f hf).elim le_of_lt fun h ↦ le_of_eq h.1
      · refine (hbetter f hf).imp (placeIn_lt_placeIn hseen hfits.isPosition_start) fun h ↦ ?_
        exact ⟨congrArg (placeIn seen) h.1, h.2⟩
    · obtain ⟨-, -, -, -, hbefore, -⟩ := hoffers
      exact hbefore l hl
    · cases seen with
      | none => exact hstop l hl
      | some s =>
        have hl' : s.narrow l ∈ limit.map s.narrow := Option.mem_map_of_mem _ hl
        exact ((hseen s rfl).fullStop_le_iff (hlimit l hl) hfits.isPosition_stop hfits.le
          (hmay.2.2.1 _ hl')).mpr (hstop _ hl')

/-- Where nothing is found before a limit no expression offers anything. -/
theorem not_offers_of_previousEdit? (h : r.previousEdit? lang p limit = .ok none) :
    ∃ seen, r.selection? lang p = .ok seen ∧ ∀ k i, ¬r.Offers lang p seen limit k i := by
  obtain ⟨seen, best, hselection, hfound, hbest⟩ := exists_of_previousEdit? hlimit h
  refine ⟨seen, hselection, fun k i hi ↦ ?_⟩
  cases best with
  | some b => cases hfound
  | none =>
    obtain ⟨e, hk, hi⟩ := (offers_iff (within_of_selection? hselection) hlimit).mp hi
    obtain ⟨f, hf, -⟩ := (Expression.exists_of_lastEdit? (hbest k e hk)).2 i hi
    cases hf

end Choosing

section Steps

variable (lang r)

/-- A round from the right makes the last edit before a limit, and what it wrote starts at the new
limit. -/
structure BackwardsStep (p : Phrase) (limit : Option Position) (e : Edit) (q : Phrase)
    (next : Position) : Prop where
  /-- The edit is the last one before the limit. -/
  found : r.previousEdit? lang p limit = .ok (some e)
  /-- The edit is spliced into the phrase, and what it wrote starts where the round ends. -/
  made : ∃ stop, p.spliceOne lang.inventory e = .ok (q, next, stop)

/-- Rounds from the right, one after the other, with the edits that they make. -/
inductive BackwardsRun : Phrase → Option Position → List Edit → Phrase → Option Position → Prop
  /-- No round is made. -/
  | none (p : Phrase) (limit : Option Position) : BackwardsRun p limit [] p limit
  /-- A round comes before others. -/
  | more {p q q' : Phrase} {limit limit' : Option Position} {next : Position} {e : Edit}
      {edits : List Edit} (first : r.BackwardsStep lang p limit e q next)
      (rest : BackwardsRun q (some next) edits q' limit') :
      BackwardsRun p limit (e :: edits) q' limit'

variable {lang r} {next : Position}

/-- An edit writes at its start, or at the start of the phrase if it replaces nothing, and leaves
the segments in front. -/
theorem IsFound.keepsFront (h : r.IsFound p e) {inv : Inventory} {start stop : Position}
    (hmade : p.spliceOne inv e = .ok (q, start, stop)) :
    (start = if e.replacements = [] then p.start else e.start) ∧
      ∀ i < start, q.segmentAt? i = p.segmentAt? i := by
  obtain ⟨seen, found, hseen, hfits, rfl⟩ := h
  have hfollows := follows_widenIn hseen hfits
  rw [← hfollows.1] at hfollows
  have hfirst := start_head_widenIn hfits
  generalize widenIn seen found = e at hmade hfollows hfirst ⊢
  rw [Phrase.spliceOne_eq inv hfollows.2] at hmade
  obtain ⟨q', hfinish, heq⟩ := exists_of_bind_eq_ok hmade
  cases heq
  cases hreplacements : e.replacements with
  | nil => exact ⟨rfl, fun i hi ↦ absurd hi (not_lt.mpr (@Phrase.start_le p i))⟩
  | cons x rest =>
    have hx : x.start = e.start := hfirst x (by rw [hreplacements]; rfl)
    rw [hreplacements] at hfollows hfinish
    have hplace : p.isPosition x.start := hfollows.2.2.2.1
    obtain ⟨-, hcursor, -⟩ := @Splicing.foldlM_replace_eq p { cursor := p.start } _ _
      Phrase.isPosition_start (hfollows.2.of_le (@Phrase.start_le p e.start))
    have hspelling := (@Splicing.finish_ensures _ _ (fun _ ↦ True) (fun _ _ ↦ trivial) inv
      hcursor).of_ok hfinish
    rw [Splicing.first_foldl_cons hplace rest, Option.getD_some, if_neg (List.cons_ne_nil x rest)]
    refine ⟨hx, fun i hi ↦ ?_⟩
    rw [Phrase.segmentAt?_eq_of_spelling_eq hspelling]
    exact Splicing.segmentAt?_foldl_cons hplace rest _ hi

/-- What is found before a limit is an edit that the rule may find. -/
theorem isFound_of_previousEdit? (hlimit : ∀ l ∈ limit, p.isPosition l)
    (h : r.previousEdit? lang p limit = .ok (some e)) : r.IsFound p e := by
  have hensures := @previousEdit?_ensures (fun _ ↦ True) (fun _ _ ↦ trivial) lang r
    (fun _ _ _ _ _ _ _ ↦ .anything _) _ _ hlimit
  exact (hensures.of_ok h e rfl).2

/-- A round leaves a limit in the phrase, with fewer positions in front of it than there were in
front of the last one, and with the segments in front of it as they were. -/
theorem BackwardsStep.moves (h : r.BackwardsStep lang p limit e q next)
    (hlimit : ∀ l ∈ limit, p.isPosition l) :
    q.isPosition next ∧ q.offset next < p.size ∧ (∀ l ∈ limit, q.offset next < p.offset l) ∧
      next ≤ e.start ∧ ∀ i < next, q.segmentAt? i = p.segmentAt? i := by
  have hfound := isFound_of_previousEdit? hlimit h.found
  obtain ⟨-, hbefore⟩ := isLast_of_previousEdit? hlimit h.found
  obtain ⟨stop, hmade⟩ := h.made
  have hlands : e.Lands p q next stop :=
    (@IsFound.spliceOne_ensures _ _ _ hfound (fun _ ↦ True) (fun _ _ ↦ trivial) _).of_ok hmade
  obtain ⟨hnext, hfront⟩ := hfound.keepsFront hmade
  have hle := hlands.offset_start
  refine ⟨hlands.isPosition_start, ?_, fun l hl ↦ ?_, ?_, hfront⟩
  · exact Nat.lt_of_le_of_lt hle (Phrase.offset_lt_size hfound.isPosition_start)
  · exact Nat.lt_of_le_of_lt hle
      (Phrase.offset_lt_offset hfound.isPosition_start (hbefore l hl).1)
  · rw [hnext]
    split
    · exact Phrase.start_le e.start
    · exact le_refl _

end Steps

section Runs

variable {edits : List Edit} {limit' : Option Position}

/-- A run leaves its limit in the phrase. -/
theorem BackwardsRun.isPosition (h : r.BackwardsRun lang p limit edits q limit')
    (hlimit : ∀ l ∈ limit, p.isPosition l) : ∀ l ∈ limit', q.isPosition l := by
  induction h with
  | none p limit => exact hlimit
  | more first rest ih =>
    refine ih fun l hl ↦ ?_
    cases hl
    exact (first.moves hlimit).1

/-- A run leaves the segments in front of its limit as they were. -/
theorem BackwardsRun.keepsFront (h : r.BackwardsRun lang p limit edits q limit')
    (hlimit : ∀ l ∈ limit, p.isPosition l) :
    ∀ l ∈ limit', (∀ k ∈ limit, l ≤ k) ∧ ∀ i < l, q.segmentAt? i = p.segmentAt? i := by
  induction h with
  | none p limit =>
    intro l hl
    refine ⟨fun k hk ↦ ?_, fun i _ ↦ rfl⟩
    rw [Option.mem_def, hk] at hl
    exact le_of_eq (Option.some.inj hl).symm
  | more first rest ih =>
    obtain ⟨hposition, -, -, hle, hfront⟩ := first.moves hlimit
    obtain ⟨-, hbefore⟩ := isLast_of_previousEdit? hlimit first.found
    intro l hl
    obtain ⟨hl, hrest⟩ := ih (by rintro _ ⟨⟩; exact hposition) l hl
    have hl := hl _ rfl
    refine ⟨fun k hk ↦ hl.trans (hle.trans (le_of_lt (hbefore k hk).1)), fun i hi ↦ ?_⟩
    exact (hrest i hi).trans (hfront i (lt_of_lt_of_le hi hl))

/-- A run has as many rounds as positions are left behind in front of its limit, at the most. -/
theorem BackwardsRun.length_le {l : Position} (h : r.BackwardsRun lang p limit edits q limit')
    (hlimit : p.isPosition l) (hsome : limit = some l) : edits.length ≤ p.offset l := by
  induction h generalizing l with
  | none p limit => exact Nat.zero_le _
  | more first rest ih =>
    subst hsome
    obtain ⟨hposition, -, hfewer, -⟩ := first.moves (by rintro _ ⟨⟩; exact hlimit)
    have := ih hposition rfl
    have := hfewer l rfl
    rw [List.length_cons]
    omega

/-- A run from the end has as many rounds as the phrase has positions, at the most. -/
theorem BackwardsRun.length_le_positions (h : r.BackwardsRun lang p .none edits q limit') :
    edits.length ≤ p.positions.length := by
  cases h with
  | none => exact Nat.zero_le _
  | more first rest =>
    obtain ⟨hposition, hlt, -⟩ := first.moves fun _ hl ↦ nomatch hl
    have hle := rest.length_le hposition rfl
    rw [List.length_cons, Phrase.length_positions]
    omega

end Runs

section Loop

variable (lang r)

/-- What is done before a limit is a round, or there is no edit before the limit. -/
theorem backwardsRound_makes (hlimit : ∀ l ∈ limit, p.isPosition l) :
    Ensures (fun result ↦ (result = none → r.previousEdit? lang p limit = .ok none) ∧
      ∀ q next, result = some (q, next) → ∃ e, r.BackwardsStep lang p limit e q next)
      (· ≠ Finder.stalled) (r.backwardsRound lang p limit) := by
  have hprevious := previousEdit?_ensures Fault.ne_stalled_of_isMistake lang (r := r)
    (fun _ _ o _ ↦ o.produces_ne_stalled lang.inventory) hlimit
  rw [backwardsRound]
  refine hprevious.withEq.bind fun found h ↦ ?_
  obtain ⟨hsearch, hfound⟩ := h
  cases found with
  | none => exact .ok ⟨fun _ ↦ hsearch, by rintro _ _ ⟨⟩⟩
  | some e =>
    have hsplice := (hfound e rfl).2.spliceOne_ensures Fault.ne_stalled_of_isMistake lang.inventory
    refine hsplice.withEq.bind fun spliced hspliced ↦ ?_
    obtain ⟨q, start, stop⟩ := spliced
    refine .ok ⟨(by rintro ⟨⟩), fun q' next heq ↦ ?_⟩
    cases heq
    exact ⟨e, hsearch, stop, hspliced.1⟩

/-- The loop makes rounds until there is no edit, if it has fuel for the positions in front of its
limit. -/
theorem backwardsFrom_makes (n : Nat) {l : Position} (hlimit : p.isPosition l)
    (hn : p.offset l < n) :
    Ensures (fun q ↦ ∃ edits limit', r.BackwardsRun lang p (some l) edits q limit' ∧
      r.previousEdit? lang q limit' = .ok none) (· ≠ Finder.stalled)
      (r.backwardsFrom lang n p l) := by
  induction n generalizing p l with
  | zero => exact absurd hn (Nat.not_lt_zero _)
  | succ n ih =>
    have hlimits : ∀ k ∈ some l, p.isPosition k := by
      rintro _ ⟨⟩
      exact hlimit
    rw [backwardsFrom]
    refine (backwardsRound_makes lang r hlimits).bind fun result hresult ↦ ?_
    cases result with
    | none => exact .ok ⟨[], some l, .none p _, hresult.1 rfl⟩
    | some result =>
      obtain ⟨q, next⟩ := result
      obtain ⟨e, hfirst⟩ := hresult.2 q next rfl
      obtain ⟨hposition, -, hfewer, -⟩ := hfirst.moves hlimits
      have hrest := ih hposition (Nat.lt_of_lt_of_le (hfewer l rfl) (Nat.le_of_lt_succ hn))
      refine hrest.mono fun q' _ h ↦ ?_
      obtain ⟨edits, limit', hruns, hlast⟩ := h
      exact ⟨e :: edits, limit', .more hfirst hruns, hlast⟩

/-- From the right a rule makes rounds until there is no edit, and is never out of fuel. -/
theorem applyBackwards_makes (p : Phrase) :
    Ensures (fun result ↦ ∃ edits q limit, r.BackwardsRun lang p none edits q limit ∧
        r.previousEdit? lang q limit = .ok none ∧ result = if edits = [] then none else some q)
      (· ≠ Finder.stalled) (r.applyBackwards lang p) := by
  have hnone : ∀ l ∈ (none : Option Position), p.isPosition l := by rintro _ ⟨⟩
  rw [applyBackwards]
  refine (backwardsRound_makes lang r hnone).bind fun result hresult ↦ ?_
  cases result with
  | none => exact .ok ⟨[], p, none, .none p none, hresult.1 rfl, rfl⟩
  | some result =>
    obtain ⟨q, next⟩ := result
    obtain ⟨e, hfirst⟩ := hresult.2 q next rfl
    obtain ⟨hposition, hlt, -⟩ := hfirst.moves hnone
    refine (backwardsFrom_makes lang r p.positions.length hposition
      (Phrase.length_positions ▸ hlt)).bind fun q' h ↦ ?_
    obtain ⟨edits, limit', hruns, hlast⟩ := h
    exact .ok ⟨e :: edits, q', limit', .more hfirst hruns, hlast, rfl⟩

end Loop

/-- A rule that is applied from the right makes at most as many edits as the phrase has positions,
and comes to an end when nothing is offered any more. Every edit lies in front of what the edit
before it wrote, in text that the rule has not changed, and is the last one that the rule may make
there. -/
theorem apply_backwards (lang : Language) (hmode : r.mode = .rightToLeft) (p : Phrase) :
    (∀ edits q limit e q' next, r.BackwardsRun lang p none edits q limit →
      r.BackwardsStep lang q limit e q' next → r.IsLast lang q limit e ∧
        ∀ l ∈ limit, e.start < l ∧ e.stop ≤ l ∧ ∀ i < l, q.segmentAt? i = p.segmentAt? i) ∧
    (∀ edits q limit, r.BackwardsRun lang p none edits q limit →
      edits.length ≤ p.positions.length) ∧
    (∀ result, r.apply lang p = .ok result → ∃ edits q limit,
      r.BackwardsRun lang p none edits q limit ∧
        (∃ seen, r.selection? lang q = .ok seen ∧ ∀ k i, ¬r.Offers lang q seen limit k i) ∧
        result = if edits = [] then none else some q) ∧
    r.apply lang p ≠ .error Finder.stalled := by
  have hnone : ∀ l ∈ (none : Option Position), p.isPosition l := by rintro _ ⟨⟩
  have heq : r.apply lang p = r.applyBackwards lang p := by rw [apply, hmode]
  have hends := applyBackwards_makes lang r p
  refine ⟨fun edits q limit e q' next hrun hstep ↦ ?_,
    fun edits q limit hrun ↦ hrun.length_le_positions, fun result hresult ↦ ?_,
    fun hfault ↦ hends.of_error (heq ▸ hfault) rfl⟩
  · have hposition := hrun.isPosition hnone
    have hfront := hrun.keepsFront hnone
    obtain ⟨hlast, hbefore⟩ := isLast_of_previousEdit? hposition hstep.found
    exact ⟨hlast, fun l hl ↦ ⟨(hbefore l hl).1, (hbefore l hl).2, (hfront l hl).2⟩⟩
  · obtain ⟨edits, q, limit, hrun, hlast, hresult⟩ := hends.of_ok (heq ▸ hresult)
    exact ⟨edits, q, limit, hrun, not_offers_of_previousEdit? (hrun.isPosition hnone) hlast,
      hresult⟩

/-- In `ab`, with `a` and `b` becoming each other, the rule turns the `b` and then the `a` in front
of it, and it does not come back to the `a` that it wrote first. -/
theorem apply_backwards_ab :
    let turn (old new : Char) : Expression :=
      { pairing := .single (.text ⟨[.literal [old]], none⟩) (.text ⟨[.literal [new]], none⟩)
        text := "" }
    let word (first last : Char) : Phrase := .ofWord ⟨[.literal [first], .literal [last]], none⟩
    let r : SimpleRule :=
      { expressions := [turn 'a' 'b', turn 'b' 'a'], mode := .rightToLeft }
    let lang : Language := { inventory := .empty }
    (∃ edits q limit, r.BackwardsRun lang (word 'a' 'b') none edits q limit ∧ edits ≠ [] ∧
      edits.length ≤ 3 ∧ q = word 'b' 'a') ∧
    ∃ e next, r.BackwardsStep lang (word 'a' 'a') (some ⟨0, 1⟩) e (word 'b' 'a') next ∧
      r.IsLast lang (word 'a' 'a') (some ⟨0, 1⟩) e ∧ e.start < ⟨0, 1⟩ ∧ e.stop ≤ ⟨0, 1⟩ := by
  intro turn word r lang
  have happly : r.apply lang (word 'a' 'b') = .ok (some (word 'b' 'a')) := by decide +kernel
  have hfirst : r.BackwardsStep lang (word 'a' 'b') none
      ⟨1, ⟨0, 1⟩, ⟨0, 2⟩, [⟨⟨0, 1⟩, ⟨0, 2⟩, .ofWord ⟨[.literal ['a']], none⟩, ∅⟩]⟩
      (word 'a' 'a') ⟨0, 1⟩ :=
    ⟨by decide +kernel, ⟨0, 2⟩, by decide +kernel⟩
  have hsecond : r.BackwardsStep lang (word 'a' 'a') (some ⟨0, 1⟩)
      ⟨0, ⟨0, 0⟩, ⟨0, 1⟩, [⟨⟨0, 0⟩, ⟨0, 1⟩, .ofWord ⟨[.literal ['b']], none⟩, ∅⟩]⟩
      (word 'b' 'a') ⟨0, 0⟩ :=
    ⟨by decide +kernel, ⟨0, 1⟩, by decide +kernel⟩
  have hbackwards := apply_backwards (r := r) lang rfl (word 'a' 'b')
  refine ⟨?_, _, _, hsecond, ?_⟩
  · obtain ⟨edits, q, limit, hrun, -, hq⟩ := hbackwards.2.2.1 _ happly
    have hne : edits ≠ [] := by
      rintro rfl
      cases hq
    rw [if_neg hne] at hq
    exact ⟨edits, q, limit, hrun, hne, hbackwards.2.1 _ _ _ hrun, (Option.some.inj hq).symm⟩
  · obtain ⟨hlast, hplace⟩ := hbackwards.1 _ _ _ _ _ _ (.more hfirst (.none _ _)) hsecond
    exact ⟨hlast, (hplace _ rfl).1, (hplace _ rfl).2.1⟩

end SimpleRule

end Diachrony
