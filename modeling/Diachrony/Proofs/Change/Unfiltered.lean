import Diachrony.Proofs.Change.StaysUndivided

/-!
# Filters that hide nothing

A filter that accepts every segment of an undivided phrase leaves the phrase itself, with every
position where it is: the way to the selection and back changes nothing, at the ends of words and
for empty spans as everywhere else. If it accepts every segment of every phrase that a pass comes
by, a rule with the filter does what the rule does without it, down to its faults.
-/

namespace Diachrony

namespace Selection

/-- The members of a list, taken one by one. -/
theorem filterMap_getElem?_range {α : Type} (l : List α) :
    ((List.range l.length).filterMap fun i ↦ l[i]?) = l := by
  induction l using List.reverseRecOn with
  | nil => rfl
  | append_singleton l a ih =>
    have hfront : ((List.range l.length).filterMap fun i ↦ (l ++ [a])[i]?) = l := by
      refine (List.filterMap_congr fun i hi ↦ ?_).trans ih
      exact List.getElem?_append_left (List.mem_range.mp hi)
    rw [List.length_append, List.length_singleton, List.range_succ, List.filterMap_append, hfront]
    simp

/-- Whether a filter accepts every segment of a phrase. -/
def AcceptsAll (lang : Language) (filter : Pattern) (p : Phrase) : Prop :=
  ∀ i, (p.segmentAt? i).isSome → accepts lang filter (.of p) i = .ok true

/-- A matrix that asks for nothing accepts every segment. -/
theorem acceptsAll_matrix_empty (lang : Language) (p : Phrase) :
    AcceptsAll lang (.matrix ∅) p := by
  intro i hi
  obtain ⟨segment, hsegment⟩ := Option.isSome_iff_exists.mp hi
  have hmatrix : Finder.segmentMatrix? (Scan.of p).phrase i = some segment.matrix :=
    congrArg (Option.map Segment.matrix) hsegment
  rw [accepts, Pattern.candidates, Pattern.finder, Finder.segmentWith, hmatrix]
  show ((Candidates.pure (⟨i.step, .empty⟩ : Match)).find _ _).first? _ >>= _ = _
  rw [Candidates.pure, Candidates.find, if_pos (decide_eq_true rfl)]
  rfl

/-- All of a phrase. -/
def all (p : Phrase) : Selection :=
  ⟨p, p.words.map fun word ↦ List.range word.length, p.words.map Word.length⟩

/-- A filter that accepts every segment of an undivided phrase leaves all of it. -/
theorem of_eq_all {lang : Language} {filter : Pattern} {p : Phrase} (hp : p.IsUndivided)
    (h : AcceptsAll lang filter p) : Selection.of lang filter p = .ok (all p) := by
  have hword : ∀ a ∈ p.words.zipIdx, (List.range a.1.length).filterM
      (fun i ↦ accepts lang filter (.of p) ⟨a.2, i⟩) = .ok (List.range a.1.length) := by
    rintro ⟨word, w⟩ hmem
    refine filterM_eq_self fun i hi ↦ h ⟨w, i⟩ ?_
    have hword : p.word? w = some word := List.mem_zipIdx_iff_getElem?.mp hmem
    rw [Phrase.segmentAt?, hword]
    rw [Option.bind_some, Word.get?, List.getElem?_eq_getElem (List.mem_range.mp hi)]
    rfl
  have hkept := mapM_eq_ok (g := fun a : Word × Nat ↦ List.range a.1.length) hword
  have hindices : (p.words.zipIdx.map fun a : Word × Nat ↦ List.range a.1.length) =
      p.words.map fun word ↦ List.range word.length := by
    conv_rhs => rw [← List.zipIdx_map_fst 0 p.words, List.map_map]
    rfl
  have hwords : (p.words.zip (p.words.map fun word ↦ List.range word.length)).map
      (fun a ↦ (⟨a.2.filterMap a.1.get?, none⟩ : Word)) = p.words := by
    have hzip := @List.zip_map' _ _ _ id (fun word : Word ↦ List.range word.length) p.words
    rw [List.map_id] at hzip
    rw [hzip, List.map_map]
    refine (List.map_congr_left fun word hmem ↦ ?_).trans (List.map_id p.words)
    exact Word.eq_of_segments_eq rfl (hp word hmem) (filterMap_getElem?_range word.segments)
  rw [hindices] at hkept
  refine bind_eq_ok hkept ?_
  refine congrArg (fun q ↦ Except.ok (⟨q, _, _⟩ : Selection)) (Phrase.eq_of_words_eq ?_)
  refine (congrArg (fun words ↦ (Phrase.ofWords words).words) hwords).trans ?_
  exact Phrase.words_ofWords p.words_ne_nil

variable {p : Phrase} {i j : Position}

/-- All indices of a word are kept. -/
theorem keptIn_all (w : Nat) : (all p).keptIn w = List.range (p.wordLength w) := by
  rw [keptIn, all, List.getElem?_map, Phrase.wordLength, Phrase.wordAt, Phrase.word?]
  cases p.words[w]? <;> rfl

/-- A start stays where it is. -/
theorem fullStart_all (hi : p.isPosition i) : (all p).fullStart i = i := by
  have hle := (Phrase.isPosition_iff.mp hi).2
  have hlength : (all p).lengths[i.word]?.getD 0 = p.wordLength i.word :=
    (Phrase.wordLength_eq p i.word).symm
  rw [fullStart, keptIn_all, hlength, Position.ext_iff]
  refine ⟨rfl, ?_⟩
  rcases Nat.lt_or_eq_of_le hle with hlt | heq
  · rw [List.getElem?_range hlt, Option.getD_some]
  · rw [heq, List.getElem?_eq_none (by rw [List.length_range]), Option.getD_none]

/-- An end stays where it is. -/
theorem fullStop_all (hi : p.isPosition i) (hj : p.isPosition j) : (all p).fullStop i j = j := by
  have hle := (Phrase.isPosition_iff.mp hj).2
  rw [fullStop]
  split
  · next heq => rw [fullStart_all hi, heq]
  · rw [Position.ext_iff]
    cases hsegment : j.segment with
    | zero => exact ⟨rfl, rfl⟩
    | succ last =>
      have hlt : last < p.wordLength j.word := by omega
      refine ⟨rfl, ?_⟩
      show (((all p).keptIn j.word)[last]?.getD 0) + 1 = last + 1
      rw [keptIn_all, List.getElem?_range hlt, Option.getD_some]

/-- A cursor or a limit stays where it is. -/
theorem narrow_all (hi : p.isPosition i) : (all p).narrow i = i := by
  have hle := (Phrase.isPosition_iff.mp hi).2
  rw [narrow, keptIn_all, Position.ext_iff]
  obtain ⟨more, hmore⟩ := Nat.exists_eq_add_of_le hle
  have hfront : (List.range (p.wordLength i.word)).takeWhile (· < i.segment) =
      List.range i.segment := by
    rw [hmore, List.range_add, List.takeWhile_append_of_pos fun a ha ↦
      decide_eq_true (List.mem_range.mp ha)]
    cases more <;> simp [List.range_succ_eq_map]
  exact ⟨rfl, by rw [hfront, List.length_range]⟩

/-- An edit stays what it is. -/
theorem widen_all {e : Edit} {hasPieces : Bool} (h : e.Fits p hasPieces) : (all p).widen e = e := by
  have hreplacement (r : Replacement) (hr : r ∈ e.replacements) :
      (all p).widenReplacement r = r := by
    obtain ⟨hstart, hstop, -⟩ : p.isPosition r.start ∧ p.isPosition r.stop ∧ _ :=
      h.tiles.of_mem h.isPosition_start (List.mem_map_of_mem hr)
    rw [widenReplacement, fullStart_all hstart, fullStop_all hstart hstop]
  rw [widen, fullStart_all h.isPosition_start, fullStop_all h.isPosition_start h.isPosition_stop,
    List.map_congr_left hreplacement, List.map_id']

end Selection

namespace SimpleRule

variable {lang : Language} {r : SimpleRule} {filter : Pattern} {p : Phrase}

/-- The best edit that is found in all of a phrase is the same edit of the phrase. -/
theorem widen?_bestEdit? (better : Edit → Edit → Bool)
    {offer : Expression → Nat → Except Fault (Option Edit)} {expressions : List Expression}
    (hoffer : ∀ e ∈ expressions, ∀ priority, Ensures (fun found ↦ ∀ edit ∈ found,
      edit.Fits p e.pairing.hasPieces) (fun _ ↦ True) (offer e priority)) :
    (do match ← bestEdit? better offer expressions with
        | some e => return some (← (Selection.all p).widen? e)
        | none => return none) = bestEdit? better offer expressions := by
  have hbest : Ensures (fun found ↦ ∀ edit ∈ found, ∃ hasPieces, edit.Fits p hasPieces)
      (fun _ ↦ True) (bestEdit? better offer expressions) :=
    bestEdit?_ensures better fun e he priority ↦
      (hoffer e he priority).mono fun _ _ h edit hedit ↦ ⟨_, h edit hedit⟩
  cases hfound : bestEdit? better offer expressions with
  | error fault => rfl
  | ok found =>
    cases found with
    | none => rfl
    | some e =>
      obtain ⟨hasPieces, hfits⟩ := hbest.of_ok hfound e rfl
      show (do return some (← (Selection.all p).widen? e) : Except Fault _) = _
      rw [Selection.widen?_eq hfits, Selection.widen_all hfits]
      rfl

section Seeing

variable (hp : p.IsUndivided) (hall : Selection.AcceptsAll lang filter p)
include hp hall

/-- A rule whose filter accepts everything sees all of the phrase. -/
theorem selection?_of_acceptsAll :
    { r with filter := some filter }.selection? lang p = .ok (some (.all p)) := by
  show some <$> Selection.of lang filter p = _
  rw [Selection.of_eq_all hp hall]
  rfl

/-- It accepts the edits that it accepts without the filter. -/
theorem acceptedEdits_of_acceptsAll : { r with filter := some filter }.acceptedEdits lang p =
    { r with filter := none }.acceptedEdits lang p := by
  have hfull : { r with filter := some filter }.acceptedEdits lang p =
      acceptFrom lang p 0 [] r.expressions >>= fun accepted ↦
        (byPosition accepted).mapM (Selection.all p).widen? := by
    rw [acceptedEdits, selection?_of_acceptsAll hp hall]
    rfl
  have hnone : { r with filter := none }.acceptedEdits lang p =
      byPosition <$> acceptFrom lang p 0 [] r.expressions := by
    rw [acceptedEdits, selection?_of_unfiltered rfl]
    rfl
  rw [hfull]
  cases hfrom : acceptFrom lang p 0 [] r.expressions with
  | error fault => rw [hnone, hfrom]; rfl
  | ok accepted =>
    rw [hfrom] at hnone
    obtain ⟨_, _, hsettles⟩ := exists_settles_of_unfiltered rfl hnone
    have hfits : ∀ e ∈ byPosition accepted, e.Fits p false := fun e he ↦
      hsettles.fits e (hsettles.perm_accepted.subset he)
    rw [hnone]
    refine (mapM_widen?_eq hfits).trans (congrArg Except.ok ?_)
    exact (List.map_congr_left fun e he ↦ Selection.widen_all (hfits e he)).trans (List.map_id _)

/-- It finds the next edit that it finds without the filter. -/
theorem nextEdit?_of_acceptsAll {cursor : Position} (hcursor : p.isPosition cursor) :
    { r with filter := some filter }.nextEdit? lang p cursor =
      { r with filter := none }.nextEdit? lang p cursor := by
  have hoffer : ∀ e ∈ r.expressions, ∀ priority, Ensures (fun found ↦ ∀ edit ∈ found,
      edit.Fits p e.pairing.hasPieces) (fun _ ↦ True) (e.firstEdit? lang p cursor priority) :=
    fun e _ priority ↦ (e.firstEdit?_ensures (fun _ _ ↦ trivial) lang
      (fun _ _ _ _ _ ↦ .anything _) p cursor priority).mono fun _ _ h edit hedit ↦ (h edit hedit).2
  have hbest := widen?_bestEdit? (fun a b ↦ a.start < b.start) hoffer
  rw [nextEdit?, nextEdit?, selection?_of_acceptsAll hp hall, selection?_of_unfiltered rfl]
  show (if !p.isPosition cursor then _ else _ : Except Fault _) = _
  rw [hcursor, Selection.narrow_all hcursor]
  exact hbest

/-- It finds the last edit before a limit that it finds without the filter. -/
theorem previousEdit?_of_acceptsAll {limit : Option Position}
    (hlimit : ∀ l ∈ limit, p.isPosition l) :
    { r with filter := some filter }.previousEdit? lang p limit =
      { r with filter := none }.previousEdit? lang p limit := by
  have hoffer : ∀ e ∈ r.expressions, ∀ priority, Ensures (fun found ↦ ∀ edit ∈ found,
      edit.Fits p e.pairing.hasPieces) (fun _ ↦ True) (e.lastEdit? lang p limit priority) :=
    fun e _ priority ↦ (e.lastEdit?_ensures (fun _ _ ↦ trivial) lang
      (fun _ _ _ _ _ ↦ .anything _) p limit priority).mono fun _ _ h edit hedit ↦ (h edit hedit).2
  have hbest := widen?_bestEdit? (fun a b ↦ b.start < a.start) hoffer
  have hinside : limit.all p.isPosition = true ∧ limit.map (Selection.all p).narrow = limit := by
    cases limit with
    | none => exact ⟨rfl, rfl⟩
    | some l => exact ⟨hlimit l rfl, congrArg some (Selection.narrow_all (hlimit l rfl))⟩
  rw [previousEdit?, previousEdit?, selection?_of_acceptsAll hp hall, selection?_of_unfiltered rfl]
  show (if !limit.all p.isPosition then _ else _ : Except Fault _) = _
  rw [hinside.1, hinside.2]
  exact hbest

/-- It makes the round from the left that it makes without the filter. -/
theorem forwardsRound_of_acceptsAll {cursor : Position} (hcursor : p.isPosition cursor) :
    { r with filter := some filter }.forwardsRound lang p cursor =
      { r with filter := none }.forwardsRound lang p cursor := by
  rw [forwardsRound, nextEdit?_of_acceptsAll hp hall hcursor, forwardsRound]

/-- It makes the round from the right that it makes without the filter. -/
theorem backwardsRound_of_acceptsAll {limit : Option Position}
    (hlimit : ∀ l ∈ limit, p.isPosition l) :
    { r with filter := some filter }.backwardsRound lang p limit =
      { r with filter := none }.backwardsRound lang p limit := by
  rw [backwardsRound, previousEdit?_of_acceptsAll hp hall hlimit, backwardsRound]

end Seeing

section Passes

variable (houtputs : ∀ e ∈ r.expressions, ∀ o ∈ e.pairing.outputs, o.isUndivided)
include houtputs

/-- A pass from the left goes on as it does without the filter if the filter accepts all that it
comes by. -/
theorem forwardsFrom_of_acceptsAll (n : Nat) {cursor : Option Position} (hp : p.IsUndivided)
    (hcursor : ∀ c ∈ cursor, p.isPosition c)
    (hall : ∀ edits q cursor',
      { r with filter := none }.ForwardsRun lang p cursor edits q cursor' →
        Selection.AcceptsAll lang filter q) :
    { r with filter := some filter }.forwardsFrom lang n p cursor =
      { r with filter := none }.forwardsFrom lang n p cursor := by
  induction n generalizing p cursor with
  | zero => cases cursor <;> rfl
  | succ n ih =>
    cases cursor with
    | none => rfl
    | some c =>
      have hc := hcursor c rfl
      have hround := forwardsRound_makes lang { r with filter := none } hc
      rw [forwardsFrom, forwardsFrom, forwardsRound_of_acceptsAll hp (hall _ _ _ (.none p _)) hc]
      refine bind_congr_ok fun result hmade ↦ ?_
      cases result with
      | none => rfl
      | some result =>
        obtain ⟨q, next⟩ := result
        obtain ⟨e, hstep⟩ := (hround.of_ok hmade).2 q next rfl
        have hq := ForwardsStep.isUndivided (r := { r with filter := none }) rfl houtputs hp hstep
          hc
        exact ih hq (hstep.moves hc).1 fun edits q' cursor' hrun ↦
          hall _ q' cursor' (.more hstep hrun)

/-- A pass from the right goes on as it does without the filter if the filter accepts all that it
comes by. -/
theorem backwardsFrom_of_acceptsAll (n : Nat) {limit : Position} (hp : p.IsUndivided)
    (hlimit : p.isPosition limit)
    (hall : ∀ edits q limit',
      { r with filter := none }.BackwardsRun lang p (some limit) edits q limit' →
        Selection.AcceptsAll lang filter q) :
    { r with filter := some filter }.backwardsFrom lang n p limit =
      { r with filter := none }.backwardsFrom lang n p limit := by
  induction n generalizing p limit with
  | zero => rfl
  | succ n ih =>
    have hlimits : ∀ l ∈ some limit, p.isPosition l := by
      rintro _ ⟨⟩
      exact hlimit
    have hround := backwardsRound_makes lang { r with filter := none } hlimits
    rw [backwardsFrom, backwardsFrom,
      backwardsRound_of_acceptsAll hp (hall _ _ _ (.none p _)) hlimits]
    refine bind_congr_ok fun result hmade ↦ ?_
    cases result with
    | none => rfl
    | some result =>
      obtain ⟨q, next⟩ := result
      obtain ⟨e, hstep⟩ := (hround.of_ok hmade).2 q next rfl
      have hq := BackwardsStep.isUndivided (r := { r with filter := none }) rfl houtputs hp hstep
        hlimits
      exact ih hq (hstep.moves hlimits).1 fun edits q' limit' hrun ↦
        hall _ q' limit' (.more hstep hrun)

/-- From the left the rule does what it does without the filter if the filter accepts all that a
pass comes by. -/
theorem applyForwards_of_acceptsAll (hp : p.IsUndivided)
    (hall : ∀ edits q cursor,
      { r with filter := none }.ForwardsRun lang p (some p.start) edits q cursor →
        Selection.AcceptsAll lang filter q) :
    { r with filter := some filter }.applyForwards lang p =
      { r with filter := none }.applyForwards lang p := by
  have hstart : p.isPosition p.start := Phrase.isPosition_start
  have hround := forwardsRound_makes lang { r with filter := none } hstart
  rw [applyForwards, applyForwards,
    forwardsRound_of_acceptsAll hp (hall _ _ _ (.none p _)) hstart]
  refine bind_congr_ok fun result hmade ↦ ?_
  cases result with
  | none => rfl
  | some result =>
    obtain ⟨q, next⟩ := result
    obtain ⟨e, hstep⟩ := (hround.of_ok hmade).2 q next rfl
    have hq := ForwardsStep.isUndivided (r := { r with filter := none }) rfl houtputs hp hstep
      hstart
    have hrest := forwardsFrom_of_acceptsAll houtputs (p.positions.length + spareChanges) hq
      (hstep.moves hstart).1 fun edits q' cursor' hrun ↦ hall _ q' cursor' (.more hstep hrun)
    exact congrArg (fun x ↦ do return some (← x)) hrest

/-- From the right the rule does what it does without the filter if the filter accepts all that a
pass comes by. -/
theorem applyBackwards_of_acceptsAll (hp : p.IsUndivided)
    (hall : ∀ edits q limit,
      { r with filter := none }.BackwardsRun lang p none edits q limit →
        Selection.AcceptsAll lang filter q) :
    { r with filter := some filter }.applyBackwards lang p =
      { r with filter := none }.applyBackwards lang p := by
  have hnone : ∀ l ∈ (none : Option Position), p.isPosition l := fun _ h ↦ nomatch h
  have hround := backwardsRound_makes lang { r with filter := none } hnone
  rw [applyBackwards, applyBackwards,
    backwardsRound_of_acceptsAll hp (hall _ _ _ (.none p _)) hnone]
  refine bind_congr_ok fun result hmade ↦ ?_
  cases result with
  | none => rfl
  | some result =>
    obtain ⟨q, limit⟩ := result
    obtain ⟨e, hstep⟩ := (hround.of_ok hmade).2 q limit rfl
    have hq := BackwardsStep.isUndivided (r := { r with filter := none }) rfl houtputs hp hstep
      hnone
    have hrest := backwardsFrom_of_acceptsAll houtputs p.positions.length hq (hstep.moves hnone).1
      fun edits q' limit' hrun ↦ hall _ q' limit' (.more hstep hrun)
    exact congrArg (fun x ↦ do return some (← x)) hrest

end Passes

/-- Whether a pass of a rule over a phrase looks for edits in another phrase: in the one it starts
from, and in one direction in every phrase that it has after some of its rounds. -/
def LooksAt (lang : Language) (r : SimpleRule) (p q : Phrase) : Prop :=
  match r.mode with
  | .simultaneous => q = p
  | .leftToRight => ∃ edits cursor, r.ForwardsRun lang p (some p.start) edits q cursor
  | .rightToLeft => ∃ edits limit, r.BackwardsRun lang p none edits q limit

/-- A filter that keeps everything is no filter. If the outputs of a rule bring no syllables into an
undivided phrase, and the filter accepts every segment of every phrase in which the rule looks for
edits without the filter, the rule does the same with the filter and without it: it gives the same
phrase, it does not apply, or it fails with the same fault. -/
theorem apply_of_acceptsAll
    (houtputs : ∀ e ∈ r.expressions, ∀ o ∈ e.pairing.outputs, o.isUndivided) (hp : p.IsUndivided)
    (hall : ∀ q, { r with filter := none }.LooksAt lang p q →
      Selection.AcceptsAll lang filter q) :
    { r with filter := some filter }.apply lang p = { r with filter := none }.apply lang p := by
  obtain ⟨expressions, _, mode⟩ := r
  cases mode with
  | simultaneous =>
    have haccepted := acceptedEdits_of_acceptsAll (r := ⟨expressions, none, .simultaneous⟩) hp
      (hall p rfl)
    show applyAtOnce lang _ p = applyAtOnce lang _ p
    rw [applyAtOnce, haccepted, applyAtOnce]
  | leftToRight =>
    exact applyForwards_of_acceptsAll (r := ⟨expressions, none, .leftToRight⟩) houtputs hp
      fun edits q cursor hrun ↦ hall q ⟨edits, cursor, hrun⟩
  | rightToLeft =>
    exact applyBackwards_of_acceptsAll (r := ⟨expressions, none, .rightToLeft⟩) houtputs hp
      fun edits q limit hrun ↦ hall q ⟨edits, limit, hrun⟩

/-- In `aa` every `a` becomes `b` from the left, with a filter that asks for nothing as without. -/
theorem apply_of_acceptsAll_aa :
    let a := Segment.literal ['a']
    let b := Segment.literal ['b']
    let r : SimpleRule :=
      { expressions := [{ pairing := .single (.text ⟨[a], none⟩) (.text ⟨[b], none⟩), text := "" }]
        filter := some (.matrix ∅), mode := .leftToRight }
    r.apply { inventory := .empty } (.ofWord ⟨[a, a], none⟩) =
      .ok (some (.ofWord ⟨[b, b], none⟩)) := by
  intro a b r
  have hwithout : { r with filter := none }.apply { inventory := .empty }
      (.ofWord ⟨[a, a], none⟩) = .ok (some (.ofWord ⟨[b, b], none⟩)) := by decide +kernel
  exact (apply_of_acceptsAll (r := r) (by decide) (by decide)
    fun q _ ↦ Selection.acceptsAll_matrix_empty _ q).trans hwithout

end SimpleRule

end Diachrony
