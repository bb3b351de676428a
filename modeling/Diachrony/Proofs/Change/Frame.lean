import Diachrony.Proofs.Change.AtOnce
import Diachrony.Proofs.Change.SpliceOne

/-!
# What is not replaced stays

Splicing copies the text between replacements. So all segments that lie in no replaced span are
found in the phrase that comes out, in their order.
-/

namespace Diachrony

/-- Whether a place lies in none of some spans. -/
def outside (spans : List (Position × Position)) (i : Position) : Bool :=
  spans.all fun span ↦ !Phrase.between span.1 span.2 i

/-- What lies before spans in order lies outside of them. -/
theorem Follows.outside_of_lt {p : Phrase} {spans : List (Position × Position)}
    {start stop i : Position} (h : Follows p start spans stop) (hlt : i < start) :
    outside spans i := by
  induction spans generalizing start with
  | nil => rfl
  | cons span rest ih =>
    obtain ⟨hle, hspan, -, -, hrest⟩ := h
    have hbefore : i < span.1 := lt_of_lt_of_le hlt hle
    rw [outside, List.all_cons, Bool.and_eq_true]
    refine ⟨?_, ih hrest (lt_of_lt_of_le hbefore hspan)⟩
    simp [Phrase.between, not_le_of_gt hbefore]

/-- What lies outside of spans in order lies before the first of them, or behind it and outside of
the others. -/
theorem outside_cons {p : Phrase} {spans : List (Position × Position)}
    {start first next stop : Position} (hle : start ≤ first) (hspan : first ≤ next)
    (h : Follows p next spans stop) (i : Position) :
    (decide (start ≤ i) && outside ((first, next) :: spans) i) =
      (Phrase.between start first i || (decide (next ≤ i) && outside spans i)) := by
  rw [outside, List.all_cons, ← outside]
  rcases lt_or_ge i first with hbefore | hge
  · have hnext : ¬next ≤ i := not_le_of_gt (lt_of_lt_of_le hbefore hspan)
    have hrest := h.outside_of_lt (lt_of_lt_of_le hbefore hspan)
    simp [Phrase.between, hbefore, not_le_of_gt hbefore, hnext, hrest]
  · have hstart : start ≤ i := hle.trans hge
    simp [Phrase.between, hge, hstart, not_lt_of_ge hge, ← not_lt]

namespace Splicing

variable {p : Phrase} {s : Splicing} {r : Replacement}

/-- The text in front of a replacement has the segments up to its start. -/
theorem segments_textBefore (hcursor : p.isPosition s.cursor) (hstart : p.isPosition r.start)
    (hle : s.cursor ≤ r.start) : (s.textBefore p r).segments =
      s.output.segments ++ p.segmentsWhere (Phrase.between s.cursor r.start) := by
  have hslice := Phrase.segments_slice hcursor hstart hle
  rw [textBefore]
  split
  · next marker hmarker =>
    obtain ⟨-, -, -, -, rfl⟩ := Replacement.of_marker? hmarker
    rw [Phrase.segments_append, Phrase.segments_append, hslice]
    exact List.append_nil _
  · rw [Phrase.segments_append, hslice]

/-- The segments behind the cursor that lie in no replaced span are found behind the text so far. -/
theorem kept_sublist {rs : List Replacement} {stop : Position} (hcursor : p.isPosition s.cursor)
    (h : Follows p s.cursor (rs.map Replacement.span) stop) :
    (s.output.segments ++
      p.segmentsWhere fun i ↦ s.cursor ≤ i && outside (rs.map Replacement.span) i).Sublist
        ((rs.foldl (written p) s).output ++
          p.slice (rs.foldl (written p) s).cursor p.stop).segments := by
  induction rs generalizing s with
  | nil =>
    show List.Sublist _ (s.output ++ p.slice s.cursor p.stop).segments
    rw [Phrase.segments_append,
      Phrase.segments_slice hcursor Phrase.isPosition_stop (Phrase.le_stop hcursor)]
    refine (List.Sublist.refl _).append (Phrase.segmentsWhere_sublist fun x hx hbehind ↦ ?_)
    rw [Bool.and_eq_true, decide_eq_true_eq] at hbehind
    exact decide_eq_true ⟨hbehind.1, Phrase.lt_stop_of_mem_placed hx⟩
  | cons r rest ih =>
    obtain ⟨hle, hspan, hfirst, hnext, hrest⟩ := h
    have hparts : (p.segmentsWhere fun i ↦
        s.cursor ≤ i && outside ((r :: rest).map Replacement.span) i) =
        p.segmentsWhere (Phrase.between s.cursor r.start) ++
          p.segmentsWhere fun i ↦ r.stop ≤ i && outside (rest.map Replacement.span) i := by
      refine Phrase.segmentsWhere_or (outside_cons hle hspan hrest) fun i j hi hj ↦ ?_
      rw [Bool.and_eq_true, decide_eq_true_eq] at hj
      exact lt_of_lt_of_le (of_decide_eq_true hi).2 (hspan.trans hj.1)
    rw [hparts, ← List.append_assoc, ← segments_textBefore hcursor hfirst hle]
    refine List.Sublist.trans ?_ (ih (s := s.written p r) hnext hrest)
    refine List.Sublist.append ?_ (List.Sublist.refl _)
    show List.Sublist _ (s.textBefore p r ++ r.result).segments
    rw [Phrase.segments_append]
    exact List.sublist_append_left _ _

end Splicing

namespace SimpleRule

variable {lang : Language} {r : SimpleRule} {p q : Phrase}

/-- The spans that edits replace. -/
def replacedSpans (edits : List Edit) : List (Position × Position) :=
  (edits.flatMap Edit.replacements).map Replacement.span

/-- A phrase that a rule makes at once is the finished text of the replacements that it settles
on. -/
theorem exists_of_applyAtOnce (h : r.applyAtOnce lang p = .ok (some q)) :
    ∃ seen claimed accepted edits, r.acceptedEdits lang p = .ok edits ∧
      r.Settles lang p seen claimed accepted edits ∧
      ((edits.flatMap Edit.replacements).foldl (Splicing.written p)
        { cursor := p.start }).finish lang.inventory p = .ok q := by
  have hensures := @acceptedEdits_ensures (fun _ ↦ True) (fun _ _ ↦ trivial) lang r
    (fun _ _ _ _ _ _ _ ↦ .intro (fun _ _ ↦ trivial) fun _ _ ↦ trivial) p
  cases haccepted : r.acceptedEdits lang p with
  | error fault =>
    rw [applyAtOnce, haccepted] at h
    cases h
  | ok edits =>
    obtain ⟨seen, claimed, accepted, hsettles⟩ := hensures.of_ok haccepted
    refine ⟨seen, claimed, accepted, edits, rfl, hsettles, ?_⟩
    rw [applyAtOnce_eq haccepted hsettles.inOrder] at h
    split at h
    · cases h
    · cases hfinish : ((edits.flatMap Edit.replacements).foldl (Splicing.written p)
          { cursor := p.start }).finish lang.inventory p with
      | error fault =>
        rw [hfinish] at h
        cases h
      | ok made =>
        rw [hfinish] at h
        exact congrArg Except.ok (Option.some.inj (Except.ok.inj h))

/-- Applying all expressions of a rule at once keeps all segments that it does not replace. -/
theorem unreplaced_sublist {edits : List Edit} (haccepted : r.acceptedEdits lang p = .ok edits)
    (h : r.applyAtOnce lang p = .ok (some q)) :
    (p.segmentsWhere (outside (replacedSpans edits))).Sublist q.segments := by
  obtain ⟨seen, claimed, accepted, edits, hedits, hsettles, hfinish⟩ := exists_of_applyAtOnce h
  cases Except.ok.inj (hedits.symm.trans haccepted)
  have hfollows := hsettles.inOrder.follows
  obtain ⟨-, hcursor, -⟩ := @Splicing.foldlM_replace_eq p { cursor := p.start } _ p.stop
    Phrase.isPosition_start hfollows
  have hkept := @Splicing.kept_sublist p { cursor := p.start } _ p.stop
    Phrase.isPosition_start hfollows
  have hspelling := (Splicing.finish_ensures (fun _ _ ↦ trivial) lang.inventory hcursor).of_ok
    hfinish
  rw [Phrase.segments, hspelling, ← Phrase.segments]
  refine List.Sublist.trans (Phrase.segmentsWhere_sublist fun x _ hx ↦ ?_)
    ((List.sublist_append_right _ _).trans hkept)
  rw [Bool.and_eq_true, decide_eq_true_eq]
  exact ⟨p.start_le x.1, hx⟩

end SimpleRule

end Diachrony
