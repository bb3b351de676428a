import Diachrony.Proofs.Change.AtOnce
import Diachrony.Proofs.Change.Writing

/-!
# Rules without context

A rule of one expression without conditions and exclusions, whose pattern looks at nothing but what
lies ahead, does not see what it has written when it goes over an undivided phrase from the left:
behind the last change it finds what it would find in the rest of the phrase alone. So applied from
the left it makes the very edits that it makes at once, and gives the same phrase or fails with the
same fault.
-/

namespace Diachrony

namespace Expression

/-- Whether what an expression does at a place of an undivided phrase depends on the text ahead
alone, replaces something, and leaves the phrase undivided. -/
structure IsContextFree (lang : Language) (e : Expression) : Prop where
  /-- Nothing is asked of the surroundings. -/
  conditions : e.conditions = []
  /-- No position is excluded. -/
  exclusions : e.exclusions = []
  /-- The pattern looks at nothing but what lies ahead. -/
  looksAhead : e.pattern.looksAhead
  /-- Every match has a piece. -/
  replaces : ∀ p i m, p.isPosition i → e.IsMatch lang (.of p) i .always m → m.pieces ≠ []
  /-- No output divides into syllables or changes syllables. -/
  outputs : ∀ o ∈ e.pairing.outputs, o.LeavesUndivided lang.inventory

variable {lang : Language} {e : Expression} {p t : Phrase} {priority : Nat}

/-- An expression is free of context if that can be read off its pairing. -/
theorem isContextFree_of_pairing (lang : Language) (hconditions : e.conditions = [])
    (hexclusions : e.exclusions = []) (hlook : e.pattern.looksAhead)
    (hpieces : e.pairing.hasPieces) (houtputs : ∀ o ∈ e.pairing.outputs, o.isUndivided) :
    e.IsContextFree lang where
  conditions := hconditions
  exclusions := hexclusions
  looksAhead := hlook
  replaces := by
    rintro p i m hi ⟨behind, -, tiled, htiled, ahead, -, rfl⟩
    have hcuts := @Pairing.tiling_cuts (fun _ ↦ True) (fun _ ↦ trivial) lang.inventory e.pairing
      none (fun _ h ↦ by cases h) (.of p) i behind.bindings [] (Scan.mirrors_of p) hi
    obtain ⟨pieces, heq, -, -, hne⟩ := hcuts.offers tiled htiled
    exact heq ▸ hne hpieces
  outputs o ho := Output.leavesUndivided_of_isUndivided lang.inventory (houtputs o ho)

/-- Without exclusions all positions are open. -/
theorem openPositions_eq (hexclusions : e.exclusions = []) (scan : Scan) :
    e.openPositions lang scan = .ok scan.phrase.positions := by
  refine filterM_eq_self fun i _ ↦ ?_
  rw [isExcluded, hexclusions]
  rfl

/-- Without exclusions a pass goes over all positions. -/
theorem edits_eq (hexclusions : e.exclusions = []) (p : Phrase) (priority : Nat) :
    e.edits lang p priority = e.editsFrom lang (.of p) priority p.start p.positions := by
  rw [edits, openPositions_eq hexclusions]
  rfl

/-- An undivided phrase with the edits of one pass over it made. -/
def passOver (lang : Language) (e : Expression) (p : Phrase) : Except Fault Phrase :=
  p.edited p.start <$> e.edits lang p 0

namespace IsContextFree

variable (h : e.IsContextFree lang)
include h

/-- An edit that is found in an undivided phrase writes undivided text. -/
theorem writesUndivided (hp : p.IsUndivided) {i : Position} (hi : p.isPosition i) {edit : Edit}
    (hfound : e.editAt lang (.of p) none priority i = .ok (some edit)) :
    edit.WritesUndivided := by
  rw [editAt_eq h.conditions] at hfound
  obtain ⟨found, hfirst, hfound⟩ := exists_of_bind_eq_ok hfound
  cases found with
  | none => cases hfound
  | some m =>
    obtain ⟨resolved, hresolve, heq⟩ := map_eq_ok_iff.mp hfound
    cases heq
    have hoffered := List.mem_of_head? (Candidates.head_offers_of_firstAfter hfirst)
    have hne := h.replaces p i m hi (isMatch_of_mem_offers hi hoffered).1
    have hkept := (tracks_matchesAt h.looksAhead .empty hp hi).keeps.offers m hoffered
    obtain ⟨pieces, hpieces, -, houtputs, -⟩ := (@matchesAt_keeps (fun _ ↦ True) (fun _ _ ↦ trivial)
      lang e _ (Scan.mirrors_of p) none i hi .always).offers m hoffered
    rw [List.nil_append] at hpieces
    subst hpieces
    exact (Edit.resolve_writesUndivided hp priority i m.stop hne
      (fun piece hpiece ↦ h.outputs _ (houtputs piece hpiece)) hkept.isUndivided).of_ok hresolve

/-- The first edit at some positions of an undivided phrase stands there and writes undivided
text. -/
theorem of_firstAmong (hp : p.IsUndivided) {positions : List Position}
    (hpositions : ∀ i ∈ positions, p.isPosition i) {edit : Edit}
    (hfound : e.firstAmong lang (.of p) none priority positions = .ok (some edit)) :
    edit.Fits p e.pairing.hasPieces ∧ edit.WritesUndivided := by
  obtain ⟨hnone, -⟩ | ⟨_, before, i, after, heq, rfl, -, hedit⟩ := exists_of_firstAmong hfound
  · cases hnone
  · cases heq
    have hi := hpositions i (List.mem_append_right before List.mem_cons_self)
    obtain ⟨-, -, hfits⟩ := fits_of_editAt hi hedit
    exact ⟨hfits, h.writesUndivided hp hi hedit⟩

/-- The edits of a pass over an undivided phrase write undivided text. -/
theorem of_edits (hp : p.IsUndivided) {edits : List Edit}
    (hfound : e.edits lang p priority = .ok edits) :
    Pass p e.pairing.hasPieces priority p.positions p.start edits ∧
      ∀ edit ∈ edits, edit.WritesUndivided := by
  have hpass := (@edits_ensures (fun _ ↦ True) (fun _ _ ↦ trivial) lang e
    (fun _ _ _ _ _ ↦ .anything _) p priority).of_ok hfound
  refine ⟨hpass, fun edit hedit ↦ ?_⟩
  rw [edits_eq h.exclusions] at hfound
  obtain ⟨i, hi, hedit⟩ := exists_of_mem_editsFrom hfound edit hedit
  exact h.writesUndivided hp (Phrase.mem_positions.mp hi) hedit

/-- A pass makes the first edit and then those behind it. -/
theorem edits_eq_firstAmong (p : Phrase) (priority : Nat) :
    e.edits lang p priority = e.firstAmong lang (.of p) none priority p.positions >>= fun found ↦
      found.elim (.ok []) fun edit ↦ (edit :: ·) <$> e.editsFrom lang (.of p) priority edit.stop
        (p.positions.filter fun i ↦ edit.start < i) := by
  rw [edits_eq h.exclusions, editsFrom_eq (fun i hi ↦ Phrase.mem_positions.mp hi)
    p.pairwise_positions fun i _ ↦ Phrase.start_le i]

/-- Where no edit is found the phrase stays what it is. -/
theorem passOver_of_none (hp : p.IsUndivided)
    (hfirst : e.firstAmong lang (.of p) none 0 p.positions = .ok none) :
    e.passOver lang p = .ok p := by
  rw [passOver, h.edits_eq_firstAmong, hfirst]
  exact congrArg Except.ok (Phrase.slice_all hp)

section Resuming

variable {front rest kept more : Phrase} {edit : Edit}

/-- A pass is over if no position is left behind its first edit. -/
theorem passOver_of_resume_eq_none (hfront : front.IsUndivided) (hrest : rest.IsUndivided)
    (hstop : front.stop = edit.stop)
    (hfirst : e.firstAmong lang (.of (front ++ rest)) none 0 (front ++ rest).positions =
      .ok (some edit))
    (hover : edit.resume rest rest.start = none) :
    e.passOver lang (front ++ rest) = .ok
      ((front ++ rest).slice (front ++ rest).start edit.start ++ edit.result ++ rest) := by
  obtain ⟨hfits, -⟩ := h.of_firstAmong (hfront.append hrest)
    (fun i hi ↦ Phrase.mem_positions.mp hi) hfirst
  have hresume : edit.resume (front ++ rest) edit.stop = none := by
    rw [← hstop, ← Phrase.behind_start front rest, Edit.resume_behind, hover, Option.map_none]
  have hedits : e.edits lang (front ++ rest) 0 = .ok [edit] := by
    rw [h.edits_eq_firstAmong, hfirst]
    show (edit :: ·) <$> e.editsFrom lang (.of (front ++ rest)) 0 edit.stop _ = _
    rw [editsFrom_of_resume_eq_none hfits.isPosition_start hfits.le hresume]
    rfl
  rw [passOver, hedits]
  show Except.ok ((front ++ rest).edited _ [edit]) = _
  rw [Phrase.edited, Phrase.edited, ← hstop, Phrase.slice_back hfront hrest]

/-- Behind its first edit a pass goes over the rest of the phrase, and that is less than the
phrase. -/
theorem passOver_of_resume_eq_some (hfront : front.IsUndivided) (hkept : kept.IsUndivided)
    (hmore : more.IsUndivided) (hstop : front.stop = edit.stop)
    (hfirst : e.firstAmong lang (.of (front ++ kept ++ more)) none 0
      (front ++ kept ++ more).positions = .ok (some edit))
    (hgoes : edit.resume (kept ++ more) (kept ++ more).start = some kept.stop) :
    more.size < (front ++ kept ++ more).size ∧ e.passOver lang (front ++ kept ++ more) =
      ((front ++ kept ++ more).slice (front ++ kept ++ more).start edit.start ++ edit.result ++ kept
        ++ ·) <$> e.passOver lang more := by
  have hbefore := hfront.append hkept
  obtain ⟨hfits, -⟩ := h.of_firstAmong (hbefore.append hmore)
    (fun i hi ↦ Phrase.mem_positions.mp hi) hfirst
  have hresume : edit.resume (front ++ kept ++ more) edit.stop = some (front ++ kept).stop := by
    rw [← hstop, ← Phrase.behind_start front (kept ++ more), Phrase.append_assoc,
      Edit.resume_behind, hgoes, Option.map_some, Phrase.stop_append]
  refine ⟨?_, ?_⟩
  · have hposition := Phrase.isPosition_append more (front ++ kept).isPosition_stop
    exact Phrase.size_lt_size_append more ((mem_resume_iff hfits.isPosition_start hfits.le
      hposition).mpr ⟨_, hresume, le_refl _⟩).1
  · rw [passOver, passOver, h.edits_eq_firstAmong, hfirst]
    show _ <$> (edit :: ·) <$> e.editsFrom lang (.of (front ++ kept ++ more)) 0 edit.stop _ = _
    rw [editsFrom_of_resume_eq_some h.conditions h.looksAhead hbefore hmore hfits.isPosition_start
      hfits.le hresume, ← edits_eq h.exclusions]
    cases hedits : e.edits lang more 0 with
    | error fault => rfl
    | ok edits =>
      show Except.ok ((front ++ kept ++ more).edited _ (edit :: edits.map (Edit.behind _))) = _
      rw [Phrase.edited, ← hstop, Phrase.edited_append hkept hmore hfront
        (h.of_edits hmore hedits).1, ← Phrase.append_assoc]
      rfl

end Resuming

end IsContextFree

end Expression

namespace SimpleRule

variable {lang : Language} {e : Expression} {r : SimpleRule} (hfilter : r.filter = none)
  (hexpressions : r.expressions = [e]) (h : e.IsContextFree lang) {t p : Phrase}

include hfilter hexpressions in
/-- A rule of one expression makes the first edit of that expression next. -/
theorem nextEdit?_eq (p : Phrase) (cursor : Position) :
    r.nextEdit? lang p cursor = e.firstEdit? lang p cursor 0 := by
  rw [nextEdit?, selection?_of_unfiltered hfilter, hexpressions]
  show (e.firstEdit? lang p cursor 0 >>= fun found ↦ _) >>= _ = _
  cases e.firstEdit? lang p cursor 0 with
  | error fault => rfl
  | ok found => cases found <;> rfl

/-- A search makes a round and goes on from there. -/
theorem forwardsFrom_of_round {q : Phrase} {cursor : Position} {next : Option Position} (n : Nat)
    (hround : r.forwardsRound lang p cursor = .ok (some (q, next))) :
    r.forwardsFrom lang (n + 1) p (some cursor) = r.forwardsFrom lang n q next := by
  rw [forwardsFrom, hround]
  rfl

section Forwards

include hfilter hexpressions h

variable (ht : t.IsUndivided) (hp : p.IsUndivided)
include ht hp

/-- The first edit from the end of a fragment on is the first one of the phrase behind it. -/
theorem nextEdit?_append : r.nextEdit? lang (t ++ p) t.stop =
    Option.map (Edit.behind t) <$> e.firstAmong lang (.of p) none 0 p.positions := by
  rw [nextEdit?_eq hfilter hexpressions, Expression.firstEdit?,
    Expression.openPositions_eq h.exclusions]
  show e.firstAmong lang (.of (t ++ p)) none 0
    ((t ++ p).positions.filter fun i ↦ t.stop ≤ i) = _
  rw [Phrase.filter_positions_append, Expression.firstAmong_behind h.conditions h.looksAhead ht hp
    fun i hi ↦ Phrase.mem_positions.mp hi]

/-- A round from the end of a fragment on makes the first edit of the phrase behind it: the edit
writes behind what comes before it in the phrase. -/
theorem forwardsRound_append {edit : Edit}
    (hfirst : e.firstAmong lang (.of p) none 0 p.positions = .ok (some edit)) :
    let written := t ++ (p.slice p.start edit.start ++ edit.result)
    let q := written ++ p.slice edit.stop p.stop
    r.forwardsRound lang (t ++ p) t.stop = .ok (some (q, edit.resume q written.stop)) := by
  intro written q
  have hpositions : ∀ i ∈ p.positions, p.isPosition i := fun i hi ↦ Phrase.mem_positions.mp hi
  obtain ⟨hfits, -⟩ := h.of_firstAmong hp hpositions hfirst
  have hbehind : e.firstAmong lang (.of (t ++ p)) none 0 (p.positions.map t.behind) =
      .ok (some (edit.behind t)) := by
    rw [Expression.firstAmong_behind h.conditions h.looksAhead ht hp hpositions, hfirst]
    rfl
  obtain ⟨hfits', hwrites⟩ := h.of_firstAmong (ht.append hp) (List.forall_mem_map.mpr fun i hi ↦
    (Phrase.isPosition_behind t p i).trans (hpositions i hi)) hbehind
  obtain ⟨start, hsplice⟩ :=
    Phrase.spliceOne_of_writesUndivided lang.inventory (ht.append hp) hfits' hwrites
  have hfront : (t ++ p).slice (t ++ p).start (edit.behind t).start =
      t ++ p.slice p.start edit.start :=
    Phrase.slice_append_front ht hp hfits.isPosition_start
  have hback : (t ++ p).slice (edit.behind t).stop (t ++ p).stop = p.slice edit.stop p.stop := by
    rw [Phrase.stop_append]
    exact Phrase.slice_behind ht hp (Phrase.le_stop hfits.isPosition_stop)
  rw [hfront, hback, Edit.result_behind, Phrase.append_assoc t] at hsplice
  rw [forwardsRound, nextEdit?_append hfilter hexpressions h ht hp, hfirst]
  show (t ++ p).spliceOne lang.inventory (edit.behind t) >>= _ = _
  rw [hsplice]
  show Except.ok (some (q, if (edit.behind t).isInsertion then _ else _)) = _
  rw [Edit.isInsertion_behind]
  rfl

omit hp in
/-- A round makes the first edit of a phrase that is cut behind the match, and goes on in the part
behind the cut. -/
theorem forwardsRound_cut {front rest : Phrase} {edit : Edit} (hfront : front.IsUndivided)
    (hrest : rest.IsUndivided) (hstop : front.stop = edit.stop)
    (hfirst : e.firstAmong lang (.of (front ++ rest)) none 0 (front ++ rest).positions =
      .ok (some edit)) :
    let written := t ++ ((front ++ rest).slice (front ++ rest).start edit.start ++ edit.result)
    r.forwardsRound lang (t ++ (front ++ rest)) t.stop =
      .ok (some (written ++ rest, (edit.resume rest rest.start).map written.behind)) := by
  intro written
  have hround := forwardsRound_append hfilter hexpressions h ht (hfront.append hrest) hfirst
  rw [← hstop, Phrase.slice_back hfront hrest] at hround
  rw [hround, ← Edit.resume_behind, Phrase.behind_start]

end Forwards

include hfilter hexpressions h in
/-- A search from the end of a fragment on makes what a pass over the phrase behind it makes. -/
theorem forwardsFrom_append (n : Nat) (ht : t.IsUndivided) (hp : p.IsUndivided)
    (hsize : p.size ≤ n) :
    r.forwardsFrom lang n (t ++ p) (some t.stop) = (t ++ ·) <$> e.passOver lang p := by
  induction n generalizing t p with
  | zero => exact absurd (Phrase.offset_lt_size p.isPosition_start) (by omega)
  | succ n ih =>
    cases hfirst : e.firstAmong lang (.of p) none 0 p.positions with
    | error fault =>
      rw [forwardsFrom, forwardsRound, nextEdit?_append hfilter hexpressions h ht hp,
        Expression.passOver, h.edits_eq_firstAmong, hfirst]
      rfl
    | ok found =>
      cases found with
      | none =>
        rw [forwardsFrom, forwardsRound, nextEdit?_append hfilter hexpressions h ht hp,
          h.passOver_of_none hp hfirst, hfirst]
        rfl
      | some edit =>
        obtain ⟨hfits, hwrites⟩ := h.of_firstAmong hp (fun i hi ↦ Phrase.mem_positions.mp hi) hfirst
        -- The phrase is cut behind the match, and once more where the search goes on.
        obtain ⟨front, rest, hfront, hrest, rfl, hstop⟩ :=
          Phrase.exists_eq_append hp hfits.isPosition_stop
        have hround := forwardsRound_cut hfilter hexpressions h ht hfront hrest hstop hfirst
        have hundivided := (hp.slice (front ++ rest).start edit.start).append hwrites.result
        generalize hwritten :
          (front ++ rest).slice (front ++ rest).start edit.start ++ edit.result = written
          at hround hundivided
        rw [forwardsFrom_of_round n hround]
        cases hresume : edit.resume rest rest.start with
        | none =>
          rw [h.passOver_of_resume_eq_none hfront hrest hstop hfirst hresume, hwritten,
            Option.map_none, forwardsFrom, Phrase.append_assoc]
          rfl
        | some c =>
          have hposition := Edit.isPosition_resume rest.isPosition_start hresume
          obtain ⟨kept, more, hkept, hmore, rfl, rfl⟩ := Phrase.exists_eq_append hrest hposition
          rw [← Phrase.append_assoc front kept more] at hfirst hsize hwritten ⊢
          obtain ⟨hless, hpass⟩ :=
            h.passOver_of_resume_eq_some hfront hkept hmore hstop hfirst hresume
          rw [hpass, hwritten, Option.map_some, ← Phrase.append_assoc, ← Phrase.stop_append,
            ih ((ht.append hundivided).append hkept) hmore (by omega)]
          cases e.passOver lang more with
          | error fault => rfl
          | ok q =>
            show Except.ok (t ++ written ++ kept ++ q) = .ok (t ++ (written ++ kept ++ q))
            simp only [Phrase.append_assoc]

include hfilter hexpressions

include h in
/-- From the left a rule makes what a pass makes, if that finds an edit. -/
theorem applyForwards_eq (hp : p.IsUndivided) : r.applyForwards lang p =
    e.edits lang p 0 >>= fun edits ↦
      .ok (if edits = [] then none else some (p.edited p.start edits)) := by
  have hnext := nextEdit?_append hfilter hexpressions h .empty hp
  rw [Phrase.empty_append] at hnext
  change r.nextEdit? lang p p.start = _ at hnext
  obtain ⟨n, hn, hsize⟩ : ∃ n, p.positions.length + spareChanges = n ∧ p.size ≤ n + 1 := by
    refine ⟨_, rfl, ?_⟩
    rw [Phrase.length_positions]
    exact Nat.le_succ_of_le (Nat.le_add_right _ _)
  rw [applyForwards, hn, h.edits_eq_firstAmong]
  cases hfirst : e.firstAmong lang (.of p) none 0 p.positions with
  | error fault =>
    rw [forwardsRound, hnext, hfirst]
    rfl
  | ok found =>
    cases found with
    | none =>
      rw [forwardsRound, hnext, hfirst]
      rfl
    | some edit =>
      -- The first round of a pass is like the others, but that it tells if there is an edit at all.
      obtain ⟨q, next, hround⟩ : ∃ q next,
          r.forwardsRound lang p p.start = .ok (some (q, next)) := by
        have hround := forwardsRound_append hfilter hexpressions h .empty hp hfirst
        rw [Phrase.empty_append p] at hround
        exact ⟨_, _, hround⟩
      have hpass := forwardsFrom_append hfilter hexpressions h _ .empty hp hsize
      rw [Phrase.empty_append] at hpass
      change r.forwardsFrom lang (n + 1) p (some p.start) = _ at hpass
      rw [forwardsFrom_of_round n hround, Expression.passOver, h.edits_eq_firstAmong, hfirst]
        at hpass
      rw [hround]
      show some <$> r.forwardsFrom lang n q next = (edit :: ·) <$> _ >>= _
      rw [hpass]
      show some <$> _ <$> _ <$> (edit :: ·) <$> _ = _
      cases e.editsFrom lang (.of p) 0 edit.stop (p.positions.filter fun i ↦ edit.start < i) with
      | error fault => rfl
      | ok edits => exact congrArg (Except.ok ∘ some) (Phrase.empty_append _)

/-- At once a rule of one expression accepts all edits of that expression. -/
theorem acceptedEdits_eq (p : Phrase) : r.acceptedEdits lang p = e.edits lang p 0 := by
  rw [acceptedEdits, selection?_of_unfiltered hfilter, hexpressions]
  show (byPosition <$> (e.edits lang p 0 >>= fun edits ↦ Except.ok (accept [] edits))) = _
  cases hedits : e.edits lang p 0 with
  | error fault => rfl
  | ok edits =>
    have hpass := (@Expression.edits_ensures (fun _ ↦ True) (fun _ _ ↦ trivial) lang e
      (fun _ _ _ _ _ ↦ .anything _) p 0).of_ok hedits
    refine congrArg Except.ok ?_
    have hall : edits.filter (fun edit ↦ !([] : List Edit).any (·.overlaps edit)) = edits :=
      List.filter_eq_self.mpr fun _ _ ↦ rfl
    rw [accept_eq [] hpass.disjoint, List.nil_append, hall]
    refine List.mergeSort_of_pairwise (hpass.apart.imp fun hab ↦ ?_)
    exact decide_eq_true (.inl hab.1)

include h in
/-- At once a rule makes what a pass makes, if that finds an edit. -/
theorem applyAtOnce_eq_edited (hp : p.IsUndivided) : r.applyAtOnce lang p =
    e.edits lang p 0 >>= fun edits ↦
      .ok (if edits = [] then none else some (p.edited p.start edits)) := by
  have haccepted := @acceptedEdits_eq lang e r hfilter hexpressions p
  cases hedits : e.edits lang p 0 with
  | error fault =>
    rw [applyAtOnce, haccepted, hedits]
    rfl
  | ok edits =>
    rw [hedits] at haccepted
    obtain ⟨hpass, hwrites⟩ := h.of_edits hp hedits
    obtain ⟨_, _, hsettles⟩ := exists_settles_of_unfiltered hfilter haccepted
    have hfinish := Splicing.finish_of_edits hp lang.inventory
      (fun edit hedit ↦ ⟨(hpass.fits edit hedit).2, hwrites edit hedit⟩) { cursor := p.start }
      .empty p.isPosition_start rfl
    rw [SimpleRule.applyAtOnce_eq haccepted hsettles.inOrder, hfinish, Phrase.empty_append]
    show _ = Except.ok _
    split <;> rfl

include h in
/-- A rule of one expression that is free of context does to an undivided phrase from the left what
it does at once: it gives the same phrase, or none, or fails with the same fault. -/
theorem apply_leftToRight_eq_simultaneous (hp : p.IsUndivided) :
    { r with mode := .leftToRight }.apply lang p =
      { r with mode := .simultaneous }.apply lang p := by
  have hforwards := @applyForwards_eq lang e { r with mode := .leftToRight } hfilter hexpressions h
    p hp
  exact hforwards.trans (@applyAtOnce_eq_edited lang e { r with mode := .simultaneous } hfilter
    hexpressions h p hp).symm

omit hfilter hexpressions in
/-- In `aa` every `a` becomes `b` and the end of a word, in both ways: the first change moves the
rest to another word, and the second `a` is found there. -/
theorem apply_leftToRight_eq_simultaneous_aa :
    let a := Segment.literal ['a']
    let b := Segment.literal ['b']
    let e : Expression :=
      { pairing := .single (.text ⟨[a], none⟩) (.sequence [.text ⟨[b], none⟩, .betweenWords])
        text := "" }
    let r : SimpleRule := { expressions := [e] }
    let p : Phrase := .ofWord ⟨[a, a], none⟩
    let q : Phrase := .ofWords [⟨[b], none⟩, ⟨[b], none⟩, .empty]
    e.IsContextFree { inventory := .empty } ∧ p.IsUndivided ∧
      { r with mode := .leftToRight }.apply { inventory := .empty } p = .ok (some q) ∧
      { r with mode := .simultaneous }.apply { inventory := .empty } p = .ok (some q) := by
  intro a b e r p q
  have hfree : e.IsContextFree { inventory := .empty } :=
    Expression.isContextFree_of_pairing _ rfl rfl rfl rfl (by decide)
  have hp : p.IsUndivided := by decide
  have hforwards : { r with mode := .leftToRight }.apply { inventory := .empty } p =
      .ok (some q) := by decide +kernel
  have hsame := apply_leftToRight_eq_simultaneous (r := r) rfl rfl hfree hp
  exact ⟨hfree, hp, hforwards, hsame ▸ hforwards⟩

end SimpleRule

end Diachrony
