import Diachrony.Proofs.Change.AtOnce
import Diachrony.Proofs.Change.SpliceOne
import Diachrony.Proofs.Phrase.Kept

/-!
# Syllables that no edit touches

Edits that are made at once are spliced from left to right. The text that is written up to a
position of the phrase says where the segment there comes to stand. A syllable that all edits leave
alone comes to stand behind the text of what is in front of it, with nothing inside. It keeps its
matrix if a syllable starts there; otherwise its segments belong to the syllable of the text in
front.
-/

namespace Diachrony

/-- Whether a replacement leaves the syllables around it and notes nothing behind its end. -/
structure Replacement.IsPlain (r : Replacement) : Prop where
  /-- No syllables are changed. -/
  syllable : r.syllable.isEmpty
  /-- The words of the text note nothing behind their ends. -/
  closed : ∀ v ∈ r.result.words, v.IsClosed

/-- Whether a replacement leaves nothing of a span that starts a syllable with a matrix. -/
structure Replacement.Drops (p : Phrase) (m : Matrix) (r : Replacement) : Prop where
  /-- Something is replaced. -/
  ne : r.start ≠ r.stop
  /-- A syllable starts there. -/
  isSyllableStart : (p.wordAt r.start.word).isSyllableStart r.start.segment
  /-- The syllable has the matrix. -/
  syllableMatrix : (p.wordAt r.start.word).syllableMatrix r.start.segment = m
  /-- Nothing takes the place of the span. -/
  size : r.result.size = 1

namespace Splicing

variable {p : Phrase} {s : Splicing}

/-- Plain replacements ask for no changes. -/
theorem changes_foldl_written {rs : List Replacement} (h : ∀ r ∈ rs, r.IsPlain) :
    (rs.foldl (written p) s).changes = s.changes := by
  induction rs generalizing s with
  | nil => rfl
  | cons r rest ih =>
    rw [List.forall_mem_cons] at h
    rw [List.foldl_cons, ih h.2]
    exact if_pos h.1.syllable

/-- The text in front of a replacement ends closed. -/
theorem endsClosed_textBefore {r : Replacement} (hs : s.output.EndsClosed)
    (hstart : p.isPosition r.start) : (s.textBefore p r).EndsClosed := by
  have hkept := hs.append (Phrase.endsClosed_slice s.cursor hstart)
  rw [textBefore]
  split
  · next marker hmarker =>
    obtain ⟨-, -, -, -, rfl⟩ := Replacement.of_marker? hmarker
    exact hkept.append ⟨[], _, rfl, .syllableOpening _⟩
  · exact hkept

/-- The text behind a plain replacement ends closed. -/
theorem endsClosed_written {r : Replacement} (hs : s.output.EndsClosed) (hplain : r.IsPlain)
    (hstart : p.isPosition r.start) : (s.written p r).output.EndsClosed := by
  obtain ⟨front, v, hresult⟩ := r.result.exists_words_eq_concat
  refine (endsClosed_textBefore hs hstart).append ⟨front, v, hresult, hplain.closed v ?_⟩
  rw [hresult]
  exact List.mem_append_right front List.mem_cons_self

/-- Behind plain replacements the text ends closed. -/
theorem endsClosed_foldl_written {rs : List Replacement} {stop : Position}
    (hs : s.output.EndsClosed) (hplain : ∀ r ∈ rs, r.IsPlain)
    (h : Follows p s.cursor (rs.map Replacement.span) stop) :
    (rs.foldl (written p) s).output.EndsClosed := by
  induction rs generalizing s with
  | nil => exact hs
  | cons r rest ih =>
    rw [List.forall_mem_cons] at hplain
    obtain ⟨-, -, hfirst, -, hrest⟩ := h
    exact ih (endsClosed_written hs hplain.1 hfirst) hplain.2 hrest

variable {m : Matrix}

/-- A matrix that is noted at the end of the text behind a replacement was noted before, or the
replacement drops the start of a syllable with that matrix. -/
theorem pendingMatrix?_written {r : Replacement} (hs : s.output.EndsClosed)
    (hstart : p.isPosition r.start) (hresult : r.result.pendingMatrix? = none)
    (h : (s.written p r).output.pendingMatrix? = some m) :
    s.output.pendingMatrix? = some m ∨ r.Drops p m := by
  have hkept (h : (s.output ++ p.slice s.cursor r.start).pendingMatrix? = some m) :
      s.output.pendingMatrix? = some m := by
    rcases Phrase.pendingMatrix?_append hs h with hslice | ⟨-, houtput⟩
    · rw [Phrase.pendingMatrix?_slice _ hstart] at hslice
      cases hslice
    · exact houtput
  rcases Phrase.pendingMatrix?_append (endsClosed_textBefore hs hstart) h with
    hnoted | ⟨hsize, hbefore⟩
  · rw [hresult] at hnoted
    cases hnoted
  · rw [textBefore] at hbefore
    split at hbefore
    · next marker hmarker =>
      obtain ⟨hne, -, -, hstarts, rfl⟩ := Replacement.of_marker? hmarker
      have hclosed := hs.append (Phrase.endsClosed_slice s.cursor hstart)
      rcases Phrase.pendingMatrix?_append hclosed hbefore with hopening | ⟨-, hkept'⟩
      · obtain ⟨-, -, heq⟩ := Word.get?_modifiers_syllableOpening.mp hopening
        exact .inr ⟨hne, hstarts, heq.symm, hsize⟩
      · exact .inl (hkept hkept')
    · exact .inl (hkept hbefore)

/-- A matrix that is noted at the end of a text was noted at first, or a replacement drops the start
of a syllable with that matrix. -/
theorem pendingMatrix?_foldl_written {rs : List Replacement} {stop : Position}
    (hs : s.output.EndsClosed) (hplain : ∀ r ∈ rs, r.IsPlain)
    (hresult : ∀ r ∈ rs, r.result.pendingMatrix? = none)
    (h : Follows p s.cursor (rs.map Replacement.span) stop)
    (hm : (rs.foldl (written p) s).output.pendingMatrix? = some m) :
    s.output.pendingMatrix? = some m ∨ ∃ r ∈ rs, r.Drops p m := by
  induction rs generalizing s with
  | nil => exact .inl hm
  | cons r rest ih =>
    rw [List.forall_mem_cons] at hplain hresult
    obtain ⟨-, -, hfirst, -, hrest⟩ := h
    rcases ih (endsClosed_written hs hplain.1 hfirst) hplain.2 hresult.2 hrest hm with
      hwritten | ⟨t, ht, hdrops⟩
    · refine (pendingMatrix?_written hs hfirst hresult.1 hwritten).imp_right fun hdrops ↦ ?_
      exact ⟨r, List.mem_cons_self, hdrops⟩
    · exact .inr ⟨t, List.mem_cons_of_mem r ht, hdrops⟩

end Splicing

/-- How far the edits that end at or before a position have been made. -/
def splicedUpTo (p : Phrase) (edits : List Edit) (i : Position) : Splicing :=
  ((edits.filter (·.stop ≤ i)).flatMap Edit.replacements).foldl (Splicing.written p)
    { cursor := p.start }

/-- The text that is written for what stands in front of a position. -/
def textUpTo (p : Phrase) (edits : List Edit) (i : Position) : Phrase :=
  (splicedUpTo p edits i).output ++ p.slice (splicedUpTo p edits i).cursor i

section Sparing

variable {p : Phrase} {edits : List Edit} {a b i : Position}

/-- Edits in order that leave a span alone come before it or behind it. -/
theorem exists_split_of_spared
    (hsorted : edits.Pairwise fun e f ↦ e.start ≤ f.start ∧ e.stop ≤ f.start)
    (hspared : ∀ e ∈ edits, e.stop ≤ a ∨ b ≤ e.start) :
    ∃ before after, edits = before ++ after ∧ (∀ e ∈ before, e.stop ≤ a) ∧
      ∀ e ∈ after, b ≤ e.start := by
  induction edits with
  | nil => exact ⟨[], [], rfl, List.forall_mem_nil _, List.forall_mem_nil _⟩
  | cons e rest ih =>
    rw [List.forall_mem_cons] at hspared
    rw [List.pairwise_cons] at hsorted
    rcases hspared.1 with hbefore | hbehind
    · obtain ⟨before, after, rfl, hstop, hstart⟩ := ih hsorted.2 hspared.2
      exact ⟨e :: before, after, rfl, List.forall_mem_cons.mpr ⟨hbefore, hstop⟩, hstart⟩
    · refine ⟨[], e :: rest, rfl, List.forall_mem_nil _, List.forall_mem_cons.mpr ⟨hbehind, ?_⟩⟩
      exact fun f hf ↦ hbehind.trans (hsorted.1 f hf).1

/-- Wherever in a span that all edits leave alone, the same edits come before. -/
theorem splicedUpTo_eq {before after : List Edit} (hfits : ∀ e ∈ after, e.Fits p false)
    (hstop : ∀ e ∈ before, e.stop ≤ a) (hstart : ∀ e ∈ after, b ≤ e.start) (hai : a ≤ i)
    (hib : i < b) : splicedUpTo p (before ++ after) i =
      (before.flatMap Edit.replacements).foldl (Splicing.written p) { cursor := p.start } := by
  have hbefore : before.filter (·.stop ≤ i) = before := by
    refine List.filter_eq_self.mpr fun e he ↦ ?_
    exact decide_eq_true ((hstop e he).trans hai)
  have hafter : after.filter (·.stop ≤ i) = [] := by
    refine List.filter_eq_nil_iff.mpr fun e he hle ↦ ?_
    have hend : e.stop ≤ i := of_decide_eq_true hle
    exact absurd (((hstart e he).trans (hfits e he).le).trans hend) (not_le.mpr hib)
  rw [splicedUpTo, List.filter_append, hbefore, hafter, List.append_nil]

/-- The replacements of edits that end before a position lie in order up to there. -/
theorem follows_of_stop_le (hfits : ∀ e ∈ edits, e.Fits p false)
    (hsorted : edits.Pairwise fun e f ↦ e.start ≤ f.start ∧ e.stop ≤ f.start)
    (hstop : ∀ e ∈ edits, e.stop ≤ a) :
    Follows p p.start ((edits.flatMap Edit.replacements).map Replacement.span) a := by
  have horder : InOrder p p.start (edits.map id) a := by
    refine @inOrder_map p id _ id _ (fun e he ↦ ⟨rfl, ?_⟩) (hsorted.imp And.right) _ _
      (fun e _ ↦ Phrase.start_le _) hstop (Phrase.start_le a)
    exact (hfits e he).tiles.follows (hfits e he).isPosition_start
  rw [List.map_id] at horder
  exact horder.follows

/-- Edits that end before a position leave the cursor before it, unless they write nothing. -/
theorem cursor_lt_of_stop_lt (hfits : ∀ e ∈ edits, e.Fits p false)
    (hstop : ∀ e ∈ edits, e.stop < a) :
    let s := (edits.flatMap Edit.replacements).foldl (Splicing.written p) { cursor := p.start }
    s.cursor < a ∨ s.output = .empty ∧ s.cursor = p.start := by
  intro s
  have hcursor : s.cursor = _ := Splicing.cursor_foldl_written _
  cases hlast : (edits.flatMap Edit.replacements).getLast? with
  | none =>
    rw [List.getLast?_eq_none_iff] at hlast
    have hs : s = { cursor := p.start } := by
      show (edits.flatMap Edit.replacements).foldl _ _ = _
      rw [hlast, List.foldl_nil]
    rw [hs]
    exact .inr ⟨rfl, rfl⟩
  | some r =>
    obtain ⟨e, he, hr⟩ := List.mem_flatMap.mp (List.mem_of_getLast? hlast)
    have hspan := (hfits e he).tiles.of_mem (hfits e he).isPosition_start
      (List.mem_map_of_mem (f := Replacement.span) hr)
    rw [hcursor, hlast]
    exact .inl (hspan.2.2.2.2.trans_lt (hstop e he))

/-- Where edits start behind a position, the phrase up to there is not written over. -/
theorem exists_kept_of_le_start (hfits : ∀ e ∈ edits, e.Fits p false)
    (hstart : ∀ e ∈ edits, a ≤ e.start) (ha : p.isPosition a) (s : Splicing) :
    let t := (edits.flatMap Edit.replacements).foldl (Splicing.written p) s
    ∃ j more, a ≤ j ∧
      t.output ++ p.slice t.cursor p.stop = s.output ++ p.slice s.cursor j ++ more := by
  intro t
  cases hreplacements : edits.flatMap Edit.replacements with
  | nil =>
    have ht : t = s := by
      show (edits.flatMap Edit.replacements).foldl _ _ = _
      rw [hreplacements, List.foldl_nil]
    rw [ht]
    exact ⟨p.stop, .empty, Phrase.le_stop ha, (Phrase.append_empty _).symm⟩
  | cons r rest =>
    have hmem : r ∈ edits.flatMap Edit.replacements := hreplacements ▸ List.mem_cons_self
    obtain ⟨e, he, hr⟩ := List.mem_flatMap.mp hmem
    have hspan := (hfits e he).tiles.of_mem (hfits e he).isPosition_start
      (List.mem_map_of_mem (f := Replacement.span) hr)
    have ht : t = rest.foldl (Splicing.written p) (s.written p r) := by
      show (edits.flatMap Edit.replacements).foldl _ _ = _
      rw [hreplacements, List.foldl_cons]
    obtain ⟨next, hnext⟩ := Splicing.exists_output_written (p := p) s r
    obtain ⟨more, hmore⟩ := Splicing.exists_output_foldl_written (p := p) rest (s.written p r)
    refine ⟨r.start, next ++ more ++ p.slice t.cursor p.stop, (hstart e he).trans hspan.2.2.1, ?_⟩
    rw [ht, hmore, hnext, ← ht]
    simp only [Phrase.append_assoc]

end Sparing

namespace SimpleRule

variable {lang : Language} {r : SimpleRule} {p q : Phrase} {edits : List Edit}

/-- What a rule without a filter accepts fits in the phrase, in order. -/
theorem fits_of_acceptedEdits (hfilter : r.filter = none)
    (hedits : r.acceptedEdits lang p = .ok edits) : (∀ e ∈ edits, e.Fits p false) ∧
      edits.Pairwise (fun e f ↦ e.start ≤ f.start ∧ e.stop ≤ f.start) ∧
      InOrder p p.start edits p.stop := by
  obtain ⟨claimed, accepted, hsettles⟩ := exists_settles_of_unfiltered hfilter hedits
  exact ⟨fun e he ↦ hsettles.fits e (hsettles.perm_accepted.subset he), hsettles.sorted,
    hsettles.inOrder⟩

/-- Plain edits that are made at once give the text that they write. -/
theorem apply_eq_of_plain (hmode : r.mode = .simultaneous)
    (hedits : r.acceptedEdits lang p = .ok edits) (horder : InOrder p p.start edits p.stop)
    (hplain : ∀ e ∈ edits, ∀ x ∈ e.replacements, x.IsPlain) (h : r.apply lang p = .ok (some q)) :
    let s := (edits.flatMap Edit.replacements).foldl (Splicing.written p) { cursor := p.start }
    q = (s.output ++ p.slice s.cursor p.stop).normalized := by
  intro s
  have hcursor : p.isPosition s.cursor :=
    (@Splicing.foldlM_replace_eq p { cursor := p.start } _ p.stop Phrase.isPosition_start
      horder.follows).2.1
  have hchanges : s.changes = [] := by
    refine Splicing.changes_foldl_written fun x hx ↦ ?_
    obtain ⟨e, he, hx⟩ := List.mem_flatMap.mp hx
    exact hplain e he x hx
  rw [apply, hmode] at h
  replace h := (applyAtOnce_eq hedits horder).symm.trans h
  split at h
  · cases h
  · rw [Splicing.finish_of_changes_eq_nil hcursor hchanges] at h
    cases h
    rfl

/-- A single edit that is accepted needs no ordering. -/
theorem acceptedEdits_of_singleton {e : Edit} (hfilter : r.filter = none)
    (h : acceptFrom lang p 0 [] r.expressions = .ok [e]) : r.acceptedEdits lang p = .ok [e] := by
  rw [acceptedEdits, selection?_of_unfiltered hfilter]
  simp only [bind, Except.bind]
  rw [h]
  exact congrArg Except.ok (List.mergeSort_singleton _)

/-- A matrix that is noted at the end of the text up to a position is that of a syllable whose start
was dropped. -/
theorem exists_drops_of_pendingMatrix? (hfilter : r.filter = none)
    (hedits : r.acceptedEdits lang p = .ok edits)
    (hplain : ∀ e ∈ edits, ∀ x ∈ e.replacements, x.IsPlain)
    (hresult : ∀ e ∈ edits, ∀ x ∈ e.replacements, x.result.pendingMatrix? = none) {i : Position}
    (hi : p.isPosition i) {m : Matrix} (hm : (textUpTo p edits i).pendingMatrix? = some m) :
    ∃ e ∈ edits, e.stop ≤ i ∧ ∃ x ∈ e.replacements, x.Drops p m := by
  obtain ⟨hfits, hsorted, -⟩ := fits_of_acceptedEdits hfilter hedits
  have hmem {e : Edit} (he : e ∈ edits.filter (·.stop ≤ i)) : e ∈ edits ∧ e.stop ≤ i := by
    simpa using he
  have hbefore (P : Replacement → Prop) (h : ∀ e ∈ edits, ∀ x ∈ e.replacements, P x) :
      ∀ x ∈ (edits.filter (·.stop ≤ i)).flatMap Edit.replacements, P x :=
    List.forall_mem_flatMap.mpr fun e he ↦ h e (hmem he).1
  have hfollows := follows_of_stop_le (fun e he ↦ hfits e (hmem he).1) (hsorted.filter _)
    fun e he ↦ (hmem he).2
  have hempty : Phrase.empty.EndsClosed := ⟨[], .empty, rfl, .of_undivided rfl⟩
  have hclosed := @Splicing.endsClosed_foldl_written p { cursor := p.start } _ _ hempty
    (hbefore _ hplain) hfollows
  rcases Phrase.pendingMatrix?_append hclosed hm with hslice | ⟨-, hnoted⟩
  · rw [Phrase.pendingMatrix?_slice _ hi] at hslice
    cases hslice
  · rcases Splicing.pendingMatrix?_foldl_written hempty (hbefore _ hplain) (hbefore _ hresult)
      hfollows hnoted with hstart | ⟨x, hx, hdrops⟩
    · cases hstart
    · obtain ⟨e, he, hx⟩ := List.mem_flatMap.mp hx
      exact ⟨e, (hmem he).1, (hmem he).2, x, hx, hdrops⟩

variable {w start stop index : Nat}

/-- A syllable that no edit touches keeps its segments and, if a syllable starts with them, its
matrix. The rule makes its edits at once, and they change no syllables and write none of their own.
Each segment stands where the text up to it ends. If text in front of the syllable belongs to the
same syllable as its segments, they have the matrix of that syllable. This leaves out a text in
front that notes a matrix at its end, for a syllable that is to come, as only a dropped syllable
makes it do. If no edit ends right in front of the syllable, the matrix is kept in any case. -/
theorem apply_untouched (hmode : r.mode = .simultaneous) (hfilter : r.filter = none)
    (hedits : r.acceptedEdits lang p = .ok edits) (h : r.apply lang p = .ok (some q))
    (hplain : ∀ e ∈ edits, ∀ x ∈ e.replacements, x.IsPlain) (hw : w < p.wordCount)
    (hsyllable : (p.wordAt w).IsSyllable start stop)
    (hspared : ∀ e ∈ edits, e.stop ≤ ⟨w, start⟩ ∨ ⟨w, stop⟩ ≤ e.start)
    (hstart : start ≤ index) (hstop : index < stop) :
    let place := (textUpTo p edits ⟨w, start⟩).stop
    let kept := (textUpTo p edits ⟨w, index⟩).stop
    q.segmentAt? kept = p.segmentAt? ⟨w, index⟩ ∧
      ((textUpTo p edits ⟨w, start⟩).pendingMatrix? = none →
        Finder.syllableMatrix? q kept =
          if (q.wordAt place.word).isSyllableStart place.segment then
            Finder.syllableMatrix? p ⟨w, index⟩
          else Finder.syllableMatrix? q ⟨place.word, place.segment - 1⟩) ∧
      ((∀ e ∈ edits, e.stop ≠ ⟨w, start⟩) →
        Finder.syllableMatrix? q kept = Finder.syllableMatrix? p ⟨w, index⟩) := by
  intro place kept
  obtain ⟨hfits, hsorted, horder⟩ := fits_of_acceptedEdits hfilter hedits
  have hq := apply_eq_of_plain hmode hedits horder hplain h
  have hend : p.isPosition ⟨w, stop⟩ := Phrase.isPosition_iff.mpr ⟨hw, hsyllable.le_length⟩
  obtain ⟨before, after, rfl, hbefore, hafter⟩ := exists_split_of_spared hsorted hspared
  rw [List.forall_mem_append] at hfits hplain
  rw [List.pairwise_append] at hsorted
  -- The text in front of the syllable is what the edits before it write.
  have hfollows := follows_of_stop_le hfits.1 hsorted.1 hbefore
  obtain ⟨-, -, hle⟩ := @Splicing.foldlM_replace_eq p { cursor := p.start } _ _
    Phrase.isPosition_start hfollows
  have hclosed := @Splicing.endsClosed_foldl_written p { cursor := p.start } _ _
    ⟨[], .empty, rfl, .of_undivided rfl⟩ (List.forall_mem_flatMap.mpr hplain.1) hfollows
  have hupTo (i : Nat) (hge : start ≤ i) (hlt : i < stop) :=
    @splicedUpTo_eq p _ _ ⟨w, i⟩ before after hfits.2 hbefore hafter (.inr ⟨rfl, hge⟩)
      (.inr ⟨rfl, hlt⟩)
  have hcursor (hfree : ∀ e ∈ before ++ after, e.stop ≠ ⟨w, start⟩) :=
    @cursor_lt_of_stop_lt p before ⟨w, start⟩ hfits.1 fun e he ↦
      lt_of_le_of_ne (hbefore e he) (hfree e (List.mem_append_left after he))
  simp only [place, kept, textUpTo, hupTo start (Nat.le_refl _) hsyllable.lt,
    hupTo index hstart hstop]
  rw [List.flatMap_append, List.foldl_append] at hq
  generalize (before.flatMap Edit.replacements).foldl (Splicing.written p) { cursor := p.start } = s
    at *
  -- Behind it the phrase is not written over up to the end of the syllable.
  obtain ⟨j, more, hstopj, hmore⟩ := exists_kept_of_le_start hfits.2 hafter hend s
  obtain ⟨words, u, a, hgoes⟩ := Phrase.exists_goesOn s.output hle hw
  dsimp only at hq hmore
  rw [hmore] at hq
  subst hq
  refine ⟨?_, fun hpending ↦ ?_, fun hfree ↦ ?_⟩
  · exact hgoes.segmentAt?_kept hsyllable hle hstart hstop hstopj more
  · exact hgoes.syllableMatrix?_kept hclosed hsyllable hle hstart hstop hstopj more hpending
  · exact hgoes.syllableMatrix?_kept_of_lt hclosed hsyllable hle hstart hstop hstopj more
      (hcursor hfree)

/-- In `ba.ta` with stress on `ta` a change of `b` leaves the stress. -/
theorem apply_untouched_ba_ta :
    let syllables : Division :=
      ⟨SortedSet.ofList [2], SortedMap.insert 2 (.ofValues ["stressed"]) ∅⟩
    let p : Phrase := .ofWord
      ⟨[.literal ['b'], .literal ['a'], .literal ['t'], .literal ['a']], some syllables⟩
    let change : Expression :=
      { pairing := .single (.text ⟨[.literal ['b']], none⟩) (.text ⟨[.literal ['p']], none⟩)
        text := "" }
    let r : SimpleRule := { expressions := [change] }
    ∃ edits q, r.acceptedEdits { inventory := .empty } p = .ok edits ∧
      r.apply { inventory := .empty } p = .ok (some q) ∧
      Finder.syllableMatrix? q (textUpTo p edits ⟨0, 3⟩).stop =
        some (.ofValues ["stressed"]) := by
  intro syllables p change r
  have hedits : r.acceptedEdits { inventory := .empty } p =
      .ok [⟨0, ⟨0, 0⟩, ⟨0, 1⟩, [⟨⟨0, 0⟩, ⟨0, 1⟩, .ofWord ⟨[.literal ['p']], none⟩, ∅⟩]⟩] :=
    acceptedEdits_of_singleton rfl (by decide +kernel)
  have happly : r.apply { inventory := .empty } p = .ok (some (.ofWord
      ⟨[.literal ['p'], .literal ['a'], .literal ['t'], .literal ['a']], some syllables⟩)) := by
    show r.applyAtOnce _ _ = _
    rw [applyAtOnce, hedits]
    decide +kernel
  refine ⟨_, _, hedits, happly, ?_⟩
  have hsyllable : (p.wordAt 0).IsSyllable 2 4 := Word.isSyllable_iff.mpr (by decide +kernel)
  have hkept := @apply_untouched _ _ _ _ _ _ _ _ 3 rfl rfl hedits happly
    (List.forall_mem_singleton.mpr (List.forall_mem_singleton.mpr
      ⟨rfl, List.forall_mem_singleton.mpr (.of_undivided rfl)⟩))
    Nat.zero_lt_one hsyllable (List.forall_mem_singleton.mpr (.inl (by decide))) (by decide)
    (by decide)
  refine (hkept.2.2 (List.forall_mem_singleton.mpr (by decide))).trans ?_
  decide +kernel

/-- Where words are joined, a syllable may lose its matrix without being touched. In `ka ta` with
stress on `ta` the break between the words is dropped. -/
theorem not_untouched_across_words :
    let ka : Word := ⟨[.literal ['k'], .literal ['a']], some .empty⟩
    let ta : Word := ⟨[.literal ['t'], .literal ['a']],
      some ⟨∅, SortedMap.insert 0 (.ofValues ["stressed"]) ∅⟩⟩
    let p : Phrase := ⟨[ka, ta], List.cons_ne_nil _ _⟩
    let join : Expression := { pairing := .single .betweenWords .empty, text := "" }
    let r : SimpleRule := { expressions := [join] }
    ∃ edits q, r.acceptedEdits { inventory := .empty } p = .ok edits ∧
      r.apply { inventory := .empty } p = .ok (some q) ∧
      (∀ e ∈ edits, ∀ x ∈ e.replacements, x.syllable.isEmpty ∧
        ∀ v ∈ x.result.words, v.syllables = none) ∧
      ta.IsSyllable 0 2 ∧ (∀ e ∈ edits, e.stop ≤ ⟨1, 0⟩ ∨ ⟨1, 2⟩ ≤ e.start) ∧
      q.segmentAt? (textUpTo p edits ⟨1, 0⟩).stop = p.segmentAt? ⟨1, 0⟩ ∧
      Finder.syllableMatrix? q (textUpTo p edits ⟨1, 0⟩).stop ≠
        Finder.syllableMatrix? p ⟨1, 0⟩ := by
  intro ka ta p join r
  have hedits : r.acceptedEdits { inventory := .empty } p =
      .ok [⟨0, ⟨0, 2⟩, ⟨1, 0⟩, [⟨⟨0, 2⟩, ⟨1, 0⟩, .empty, ∅⟩]⟩] :=
    acceptedEdits_of_singleton rfl (by decide +kernel)
  have happly : r.apply { inventory := .empty } p = .ok (some (.ofWord
      ⟨[.literal ['k'], .literal ['a'], .literal ['t'], .literal ['a']], some .empty⟩)) := by
    show r.applyAtOnce _ _ = _
    rw [applyAtOnce, hedits]
    decide +kernel
  refine ⟨_, _, hedits, happly, ?_, ?_, ?_, ?_, ?_⟩
  · exact List.forall_mem_singleton.mpr (List.forall_mem_singleton.mpr
      ⟨rfl, List.forall_mem_singleton.mpr rfl⟩)
  · exact Word.isSyllable_iff.mpr (by decide +kernel)
  · exact List.forall_mem_singleton.mpr (.inl (by decide))
  · decide +kernel
  · decide +kernel

end SimpleRule

end Diachrony
