import Mathlib.Data.List.Pairwise
import Diachrony.Proofs.Agreement
import Diachrony.Proofs.Change.AtOnce

/-!
# Expressions in another order

An earlier expression goes before a later one only where their edits overlap. If no edit of one
expression overlaps an edit of another, all edits are accepted in whatever order the expressions
come, and put in order of position they are the same up to the index of the expression that made
them. What is written does not depend on this index, so neither does the phrase that comes out.
-/

namespace Diachrony

/-- A list in another order has the same results in another order. -/
theorem exists_perm_of_mapM_eq_ok {α β : Type} {f : α → Except Fault β} {l l' : List α}
    {bs : List β} (hperm : l.Perm l') (h : l.mapM f = .ok bs) :
    ∃ bs', l'.mapM f = .ok bs' ∧ bs.Perm bs' := by
  induction hperm generalizing bs with
  | nil => exact ⟨bs, h, .refl bs⟩
  | cons a _ ih =>
    rw [List.mapM_cons] at h
    obtain ⟨b, hb, h⟩ := exists_of_bind_eq_ok h
    obtain ⟨others, hothers, h⟩ := exists_of_bind_eq_ok h
    cases h
    obtain ⟨others', hothers', hperm⟩ := ih hothers
    exact ⟨b :: others', by rw [List.mapM_cons, hb, hothers']; rfl, hperm.cons b⟩
  | swap a a' l =>
    rw [List.mapM_cons, List.mapM_cons] at h
    obtain ⟨b', hb', h⟩ := exists_of_bind_eq_ok h
    obtain ⟨tail, htail, h⟩ := exists_of_bind_eq_ok h
    obtain ⟨b, hb, htail⟩ := exists_of_bind_eq_ok htail
    obtain ⟨others, hothers, htail⟩ := exists_of_bind_eq_ok htail
    cases htail
    cases h
    exact ⟨b :: b' :: others, by rw [List.mapM_cons, List.mapM_cons, hb, hb', hothers]; rfl,
      .swap b b' others⟩
  | trans _ _ ih ih' =>
    obtain ⟨bs', hbs', hperm⟩ := ih h
    obtain ⟨bs'', hbs'', hperm'⟩ := ih' hbs'
    exact ⟨bs'', hbs'', hperm.trans hperm'⟩

namespace Edit

/-- An edit under the index of some expression. -/
def ranked (priority : Nat) (e : Edit) : Edit := { e with priority }

@[simp] theorem stop_ranked (priority : Nat) (e : Edit) : (e.ranked priority).stop = e.stop := rfl

/-- Edits of the same span overlap. -/
theorem overlaps_of_span_eq {e f : Edit} (hle : e.start ≤ e.stop) (hstart : e.start = f.start)
    (hstop : e.stop = f.stop) : e.overlaps f = true := by
  rw [overlaps, isInsertion, isInsertion, ← hstart, ← hstop]
  by_cases hempty : e.start = e.stop
  · simp [hempty]
  · simpa [hempty] using lt_of_le_of_ne hle hempty

/-- Whether no edit of a list overlaps an edit of another. -/
def Apart (es fs : List Edit) : Prop := ∀ e ∈ es, ∀ f ∈ fs, e.overlaps f = false

/-- Lying apart is mutual. -/
theorem Apart.symm {es fs : List Edit} (h : Apart es fs) : Apart fs es :=
  fun f hf e he ↦ (overlaps_comm f e).trans (h e he f hf)

/-- Edits lie apart whatever their indices. -/
theorem apart_map_ranked {priority : Nat} {es fs : List Edit} :
    Apart (es.map (ranked priority)) (fs.map (ranked priority)) ↔ Apart es fs := by
  simp only [Apart, List.forall_mem_map]
  rfl

/-- The index of the expression does not change what takes the place of a match. -/
theorem resolve_ranked (inv : Inventory) (p : Phrase) (priority priority' : Nat)
    (start stop : Position) (pieces : List Piece) (b : Bindings) :
    resolve inv p priority start stop pieces b =
      ranked priority <$> resolve inv p priority' start stop pieces b := by
  rw [resolve, resolve]
  cases pieces.mapM (Piece.resolve inv b p) <;> rfl

end Edit

namespace Expression

variable (lang : Language) (e : Expression) (scan : Scan) (priority priority' : Nat)

/-- The edit under conditions is the same under every index. -/
theorem editUnder_ranked (limit : Option Position) (start : Position)
    (conditions : List Surroundings) :
    e.editUnder lang scan limit priority start conditions =
      Option.map (Edit.ranked priority) <$> e.editUnder lang scan limit priority' start
        conditions := by
  induction conditions with
  | nil => rfl
  | cons condition rest ih =>
    rw [editUnder, editUnder]
    cases (e.matchesAt lang scan limit start condition).first? (lang.budget e.text) with
    | error fault => rfl
    | ok found =>
      cases found with
      | none => exact ih
      | some m =>
        simp only [bind, Except.bind]
        rw [Edit.resolve_ranked _ _ priority priority', Functor.map_map, Functor.map_map]
        rfl

/-- The edits of a pass are the same under every index. -/
theorem editsFrom_ranked (cursor : Position) (positions : List Position) :
    e.editsFrom lang scan priority cursor positions =
      List.map (Edit.ranked priority) <$> e.editsFrom lang scan priority' cursor positions := by
  induction positions generalizing cursor with
  | nil => rfl
  | cons start rest ih =>
    rw [editsFrom, editsFrom]
    split
    · exact ih cursor
    · rw [editAt, editAt, e.editUnder_ranked lang scan priority priority']
      cases e.editUnder lang scan none priority' start e.settings with
      | error fault => rfl
      | ok found =>
        cases found with
        | none => exact ih cursor
        | some edit =>
          simp only [bind, Except.bind, Functor.map, Except.map, Option.map]
          rw [ih, Edit.stop_ranked]
          cases e.editsFrom lang scan priority' edit.stop rest <;> rfl

/-- An expression makes the same edits under every index. -/
theorem edits_ranked (p : Phrase) :
    e.edits lang p priority = List.map (Edit.ranked priority) <$> e.edits lang p priority' := by
  rw [edits, edits]
  cases e.openPositions lang (Scan.of p) with
  | error fault => rfl
  | ok positions => exact e.editsFrom_ranked lang _ priority priority' _ positions

end Expression

namespace SimpleRule

/-- Edits that overlap neither what was accepted nor one another are all accepted. -/
theorem foldl_accept_eq_append {accepted : List Edit} {claimed : List (List Edit)}
    (hdisjoint : ∀ es ∈ claimed, Disjoint es)
    (hapart : claimed.Pairwise Edit.Apart) (haccepted : ∀ es ∈ claimed, Edit.Apart accepted es) :
    claimed.foldl accept accepted = accepted ++ claimed.flatten := by
  induction claimed generalizing accepted with
  | nil => exact (List.append_nil accepted).symm
  | cons es rest ih =>
    rw [List.forall_mem_cons] at hdisjoint haccepted
    rw [List.pairwise_cons] at hapart
    have hall : accept accepted es = accepted ++ es := by
      rw [accept_eq accepted hdisjoint.1, List.filter_eq_self.mpr fun e he ↦ ?_]
      rw [Bool.not_eq_true', List.any_eq_false]
      exact fun a ha ↦ Bool.eq_false_iff.mp (haccepted.1 a ha e he)
    rw [List.foldl_cons, hall, ih hdisjoint.2 hapart.2, List.flatten_cons, List.append_assoc]
    intro fs hfs a ha e he
    rcases List.mem_append.mp ha with ha | ha
    · exact haccepted.2 fs hfs a ha e he
    · exact hapart.1 fs hfs a ha e he

/-- Edits under another index come in the same order of position. -/
theorem map_ranked_byPosition (priority : Nat) (edits : List Edit) :
    (byPosition edits).map (Edit.ranked priority) =
      byPosition (edits.map (Edit.ranked priority)) :=
  List.map_mergeSort fun _ _ _ _ ↦ rfl

/-- Edits under another index go to the full phrase in the same order. -/
theorem map_ranked_widenIn (priority : Nat) (seen : Option Selection) (edits : List Edit) :
    ((byPosition edits).map (widenIn seen)).map (Edit.ranked priority) =
      (byPosition (edits.map (Edit.ranked priority))).map (widenIn seen) := by
  have hcomm (e : Edit) : (widenIn seen e).ranked priority = widenIn seen (e.ranked priority) := by
    cases seen <;> rfl
  rw [← map_ranked_byPosition, List.map_map, List.map_map]
  exact List.map_congr_left fun e _ ↦ hcomm e

/-- Edits that do not overlap have one order of position. -/
theorem byPosition_eq_of_perm {edits edits' : List Edit} (hperm : edits.Perm edits')
    (hdisjoint : Disjoint edits) (hle : ∀ e ∈ edits, e.start ≤ e.stop) :
    byPosition edits = byPosition edits' := by
  have hmem {e : Edit} (he : e ∈ byPosition edits) : e ∈ edits :=
    (List.mergeSort_perm _ _).subset he
  have hmem' {e : Edit} (he : e ∈ byPosition edits') : e ∈ edits :=
    hperm.symm.subset ((List.mergeSort_perm _ _).subset he)
  have hdisjoint' : Disjoint edits' :=
    (hperm.pairwise_iff fun {a b} h ↦ (Edit.overlaps_comm b a).trans h).mp hdisjoint
  have hsame : (byPosition edits).Perm (byPosition edits') :=
    (List.mergeSort_perm _ _).trans (hperm.trans (List.mergeSort_perm _ _).symm)
  refine hsame.eq_of_pairwise (fun a b ha hb hab hba ↦ ?_) (pairwise_byPosition hdisjoint hle)
    (pairwise_byPosition hdisjoint' fun e he ↦ hle e (hperm.symm.subset he))
  -- two edits each of which comes before the other are empty, at one place, so they overlap
  have hstart : a.start = b.start := le_antisymm hab.1 hba.1
  have hstop : a.stop = b.stop :=
    (le_antisymm (hab.2.trans hba.1) (hle a (hmem ha))).trans
      (hstart.trans (le_antisymm (hle b (hmem' hb)) (hba.2.trans hab.1)))
  have : Std.Symm fun e f : Edit ↦ e.overlaps f = false :=
    ⟨fun e f h ↦ (Edit.overlaps_comm f e).trans h⟩
  by_contra hne
  have hover := Edit.overlaps_of_span_eq (hle a (hmem ha)) hstart hstop
  rw [List.Pairwise.forall hdisjoint (hmem ha) (hmem' hb) hne] at hover
  cases hover

variable {lang : Language} {r : SimpleRule} {p : Phrase}

/-- Whether, in what a rule sees of a phrase, no edit of one expression overlaps an edit of
another. -/
def ClaimsApart (lang : Language) (r : SimpleRule) (p : Phrase) : Prop :=
  ∀ seen claimed, r.selection? lang p = .ok seen →
    claims lang (seenPhrase p seen) 0 r.expressions = .ok claimed →
    claimed.Pairwise Edit.Apart

/-- Up to the index of the expression, the claims are what every expression finds by itself. -/
theorem map_ranked_claims (lang : Language) (p : Phrase) (priority : Nat)
    (expressions : List Expression) :
    List.map (List.map (Edit.ranked 0)) <$> claims lang p priority expressions =
      expressions.mapM fun e ↦ e.edits lang p 0 := by
  induction expressions generalizing priority with
  | nil => rfl
  | cons e rest ih =>
    rw [claims, List.mapM_cons, ← ih (priority + 1), e.edits_ranked lang 0 priority]
    cases e.edits lang p priority with
    | error fault => rfl
    | ok es => cases claims lang p (priority + 1) rest <;> rfl

/-- Expressions in another order claim the same in another order, up to their indices. -/
theorem exists_claims_of_perm {expressions expressions' : List Expression}
    (hperm : expressions.Perm expressions') {claimed : List (List Edit)}
    (h : claims lang p 0 expressions = .ok claimed) :
    ∃ claimed', claims lang p 0 expressions' = .ok claimed' ∧
      (claimed.map (List.map (Edit.ranked 0))).Perm (claimed'.map (List.map (Edit.ranked 0))) := by
  have hall := map_ranked_claims lang p 0 expressions
  rw [h] at hall
  obtain ⟨found, hfound, hsame⟩ := exists_perm_of_mapM_eq_ok hperm hall.symm
  rw [← map_ranked_claims lang p 0 expressions'] at hfound
  obtain ⟨claimed', hclaimed', rfl⟩ := map_eq_ok_iff.mp hfound
  exact ⟨claimed', hclaimed', hsame⟩

/-- If the claims lie apart, a rule makes all of them at once, by position in the full phrase. -/
theorem acceptedEdits_of_apart {seen : Option Selection} {claimed : List (List Edit)}
    (hselection : r.selection? lang p = .ok seen)
    (hclaims : claims lang (seenPhrase p seen) 0 r.expressions = .ok claimed)
    (hapart : claimed.Pairwise Edit.Apart) :
    r.acceptedEdits lang p = .ok ((byPosition claimed.flatten).map (widenIn seen)) ∧
      Disjoint claimed.flatten ∧ ∀ e ∈ claimed.flatten, e.start ≤ e.stop := by
  have hfits := (claims_ensures (fun _ _ ↦ trivial) lang (seenPhrase p seen)
    (fun _ _ _ _ _ _ _ ↦ .anything _) 0).of_ok hclaims
  have hdisjoint (es : List Edit) (hes : es ∈ claimed) : Disjoint es := (hfits es hes).1
  have hall : claimed.foldl accept [] = claimed.flatten :=
    foldl_accept_eq_append hdisjoint hapart fun _ _ _ h ↦ nomatch h
  have hfrom : acceptFrom lang (seenPhrase p seen) 0 [] r.expressions = .ok claimed.flatten := by
    rw [acceptFrom_eq, hclaims, ← hall]
    rfl
  have hflatten (e : Edit) (he : e ∈ claimed.flatten) : e.Fits (seenPhrase p seen) false := by
    obtain ⟨es, hes, he⟩ := List.mem_flatten.mp he
    exact (hfits es hes).2 e he
  refine ⟨?_, List.pairwise_flatten.mpr ⟨hdisjoint, hapart⟩, fun e he ↦ (hflatten e he).le⟩
  rw [acceptedEdits, hselection]
  cases seen with
  | none =>
    rw [show widenIn none = id from rfl, List.map_id]
    exact bind_eq_ok rfl (bind_eq_ok hfrom rfl)
  | some s =>
    refine bind_eq_ok rfl (bind_eq_ok hfrom (mapM_widen?_eq fun e he ↦ hflatten e ?_))
    exact (List.mergeSort_perm _ _).subset he

/-- The text that edits make does not depend on the indices of the expressions. -/
theorem applyAtOnce_congr {r' : SimpleRule} {edits edits' : List Edit}
    (h : r.acceptedEdits lang p = .ok edits) (h' : r'.acceptedEdits lang p = .ok edits')
    (hsame : edits.map (Edit.ranked 0) = edits'.map (Edit.ranked 0)) :
    r.applyAtOnce lang p = r'.applyAtOnce lang p := by
  have hsplice : p.splice lang.inventory edits = p.splice lang.inventory edits' := by
    have hfold (edits : List Edit) (s : Splicing) : edits.foldlM (Splicing.makeEdit p) s =
        (edits.map (Edit.ranked 0)).foldlM (Splicing.makeEdit p) s := by
      rw [List.foldlM_map]
      rfl
    rw [Phrase.splice, Phrase.splice, hfold edits, hfold edits', hsame]
  rw [applyAtOnce, applyAtOnce, h, h']
  cases edits with
  | nil => rw [List.map_eq_nil_iff.mp hsame.symm]
  | cons e rest =>
    cases edits' with
    | nil => cases hsame
    | cons e' rest' => exact congrArg (fun x ↦ do return some (← x).phrase) hsplice

/-- Where no edit of one expression overlaps an edit of another, the expressions of a rule that
applies them at once may come in any order: the rule still applies, and to the same effect. -/
theorem apply_of_perm {expressions : List Expression} {result : Option Phrase}
    (hmode : r.mode = .simultaneous) (hperm : r.expressions.Perm expressions)
    (hapart : r.ClaimsApart lang p) (h : r.apply lang p = .ok result) :
    { r with expressions }.apply lang p = .ok result := by
  have happly (expressions : List Expression) : { r with expressions }.apply lang p =
      { r with expressions }.applyAtOnce lang p := by rw [apply, hmode]
  rw [happly r.expressions] at h
  rw [happly, ← h]
  obtain ⟨edits, haccepted, -⟩ := exists_of_bind_eq_ok h
  obtain ⟨seen, claimed, _, hsettles⟩ := (acceptedEdits_ensures (fun _ _ ↦ trivial) lang
    (fun _ _ _ _ _ _ _ ↦ .anything _) p).of_ok haccepted
  have hapart := hapart seen claimed hsettles.selection hsettles.claims
  obtain ⟨claimed', hclaims', hsame⟩ := exists_claims_of_perm hperm hsettles.claims
  have hapart' : claimed'.Pairwise Edit.Apart := by
    have hranked : (claimed.map (List.map (Edit.ranked 0))).Pairwise Edit.Apart :=
      List.pairwise_map.mpr (hapart.imp Edit.apart_map_ranked.mpr)
    exact (List.pairwise_map.mp ((hsame.pairwise_iff Edit.Apart.symm).mp hranked)).imp
      Edit.apart_map_ranked.mp
  obtain ⟨hedits, hdisjoint, hle⟩ :=
    acceptedEdits_of_apart hsettles.selection hsettles.claims hapart
  obtain ⟨hedits', -, -⟩ :=
    @acceptedEdits_of_apart lang { r with expressions } p seen claimed' hsettles.selection hclaims'
      hapart'
  have hflatten : (claimed.flatten.map (Edit.ranked 0)).Perm
      (claimed'.flatten.map (Edit.ranked 0)) := by
    rw [List.map_flatten, List.map_flatten]
    exact hsame.flatten
  refine applyAtOnce_congr hedits' hedits ?_
  rw [map_ranked_widenIn, map_ranked_widenIn]
  refine congrArg _ (byPosition_eq_of_perm hflatten ?_ ?_).symm
  · exact List.pairwise_map.mpr hdisjoint
  · exact List.forall_mem_map.mpr hle

/-- In `ab` the `a` is dropped and the `b` is doubled in either order: what is inserted in front of
`b` only touches the match of `a`. -/
theorem apply_of_perm_ab :
    let a := Segment.literal ['a']
    let b := Segment.literal ['b']
    let drop : Expression := { pairing := .single (.text ⟨[a], none⟩) .empty, text := "" }
    let double : Expression :=
      { pairing := .single .empty (.text ⟨[b], none⟩)
        conditions := [.mk .empty (.text ⟨[b], none⟩)], text := "" }
    ({ expressions := [double, drop] } : SimpleRule).apply { inventory := .empty }
        (.ofWord ⟨[a, b], none⟩) = .ok (some (.ofWord ⟨[b, b], none⟩)) := by
  intro a b drop double
  let r : SimpleRule := { expressions := [drop, double] }
  let p : Phrase := .ofWord ⟨[a, b], none⟩
  let dropped : Edit := ⟨0, ⟨0, 0⟩, ⟨0, 1⟩, [⟨⟨0, 0⟩, ⟨0, 1⟩, .empty, ∅⟩]⟩
  let doubled : Edit := ⟨1, ⟨0, 1⟩, ⟨0, 1⟩, [⟨⟨0, 1⟩, ⟨0, 1⟩, .ofWord ⟨[b], none⟩, ∅⟩]⟩
  have hclaims : claims { inventory := .empty } p 0 r.expressions = .ok [[dropped], [doubled]] := by
    decide +kernel
  have hapart : [[dropped], [doubled]].Pairwise Edit.Apart := by
    simp only [List.pairwise_pair, Edit.Apart, List.forall_mem_singleton]
    decide
  obtain ⟨haccepted, -⟩ := @acceptedEdits_of_apart { inventory := .empty } r p none _ rfl hclaims
    hapart
  have hsorted : byPosition [dropped, doubled] = [dropped, doubled] :=
    List.mergeSort_of_pairwise (by decide)
  have happly : r.apply { inventory := .empty } p = .ok (some (.ofWord ⟨[b, b], none⟩)) := by
    show r.applyAtOnce _ _ = _
    rw [applyAtOnce, haccepted, show [[dropped], [doubled]].flatten = [dropped, doubled] from rfl,
      hsorted]
    decide +kernel
  refine apply_of_perm rfl (.swap double drop []) ?_ happly
  intro seen claimed hselection h
  cases hselection
  cases hclaims.symm.trans h
  exact hapart

end SimpleRule

end Diachrony
