import Diachrony.Proofs.Change.Acceptance
import Diachrony.Proofs.Change.Seen

/-!
# Expressions applied at once

A rule that applies its expressions at once accepts what they claim greedily, puts what it accepted
in order and splices it. Claims that do not overlap in what the rule sees lie one after the other in
the full phrase, so none of them is lost on the way: each is spliced, once and in order.
-/

namespace Diachrony

namespace SimpleRule

/-- What the expressions of a list claim in a phrase, expression by expression. -/
def claims (lang : Language) (p : Phrase) (priority : Nat) :
    List Expression → Except Fault (List (List Edit))
  | [] => return []
  | e :: rest => do return (← e.edits lang p priority) :: (← claims lang p (priority + 1) rest)

/-- The edits of all expressions are accepted claim by claim. -/
theorem acceptFrom_eq (lang : Language) (p : Phrase) (priority : Nat) (accepted : List Edit)
    (expressions : List Expression) :
    acceptFrom lang p priority accepted expressions =
      (fun claims ↦ claims.foldl accept accepted) <$> claims lang p priority expressions := by
  induction expressions generalizing priority accepted with
  | nil => rfl
  | cons e rest ih =>
    rw [acceptFrom, claims]
    cases e.edits lang p priority with
    | error fault => rfl
    | ok es =>
      simp only [bind, Except.bind]
      rw [ih]
      cases claims lang p (priority + 1) rest <;> rfl

section

variable {allowed : Fault → Prop} (hmistake : ∀ fault : Fault, fault.isMistake → allowed fault)
  (lang : Language)
include hmistake

/-- Every expression claims edits that fit and do not overlap. -/
theorem claims_ensures (p : Phrase) {expressions : List Expression}
    (houtputs : ∀ e ∈ expressions, ∀ o ∈ e.pairing.outputs, o.Produces allowed lang.inventory)
    (priority : Nat) :
    Ensures (fun claims ↦ ∀ es ∈ claims, Disjoint es ∧ ∀ e ∈ es, e.Fits p false) allowed
      (claims lang p priority expressions) := by
  induction expressions generalizing priority with
  | nil => exact .ok fun _ h ↦ (nomatch h)
  | cons e rest ih =>
    rw [List.forall_mem_cons] at houtputs
    rw [claims]
    refine (e.edits_ensures hmistake lang houtputs.1 p priority).bind fun es hes ↦ ?_
    refine (ih houtputs.2 (priority + 1)).bind fun others hothers ↦ .ok ?_
    refine List.forall_mem_cons.mpr ⟨⟨hes.disjoint, fun e he ↦ ?_⟩, hothers⟩
    obtain ⟨-, hstart, htiles, -⟩ := hes.fits e he
    exact ⟨hstart, htiles, fun h ↦ nomatch h⟩

end

/-- What a rule makes of a phrase when it applies its expressions at once: what it sees, what the
expressions claim there, which claims are accepted, and the accepted claims in order in the full
phrase. -/
structure Settles (lang : Language) (r : SimpleRule) (p : Phrase) (seen : Option Selection)
    (claimed : List (List Edit)) (accepted edits : List Edit) : Prop where
  /-- What the rule sees. -/
  selection : r.selection? lang p = .ok seen
  /-- What the expressions claim there. -/
  claims : claims lang (seenPhrase p seen) 0 r.expressions = .ok claimed
  /-- Claims are accepted greedily. -/
  acceptance : Acceptance claimed accepted
  /-- What is accepted stands in what the rule sees. -/
  fits : ∀ e ∈ accepted, e.Fits (seenPhrase p seen) false
  /-- Every accepted claim goes to the full phrase once. -/
  perm : edits.Perm (accepted.map (widenIn seen))
  /-- In the full phrase they come by position, and none reaches into the next. -/
  sorted : edits.Pairwise fun a b ↦ a.start ≤ b.start ∧ a.stop ≤ b.start
  /-- Their replacements lie in order. -/
  inOrder : InOrder p p.start edits p.stop

/-- Claims that fit and do not overlap, expression by expression, are settled. -/
theorem settles_of_claims {lang : Language} {r : SimpleRule} {p : Phrase} {seen : Option Selection}
    {claimed : List (List Edit)} (hselection : r.selection? lang p = .ok seen)
    (hseen : ∀ s ∈ seen, s.Within p)
    (hclaims : claims lang (seenPhrase p seen) 0 r.expressions = .ok claimed)
    (hfits : ∀ es ∈ claimed, Disjoint es ∧ ∀ e ∈ es, e.Fits (seenPhrase p seen) false) :
    r.Settles lang p seen claimed (claimed.foldl accept [])
      ((byPosition (claimed.foldl accept [])).map (widenIn seen)) := by
  have hacceptance := acceptance_foldl fun es hes ↦ (hfits es hes).1
  generalize claimed.foldl accept [] = accepted at hacceptance
  have hperm : (byPosition accepted).Perm accepted := List.mergeSort_perm _ _
  have haccepted : ∀ e ∈ accepted, e.Fits (seenPhrase p seen) false := by
    intro e he
    obtain ⟨es, hes, hmem⟩ := hacceptance.claimed e he
    exact (hfits es hes).2 e hmem
  have hordered (e : Edit) (he : e ∈ byPosition accepted) := haccepted e (hperm.subset he)
  have hapart := pairwise_byPosition hacceptance.disjoint fun e he ↦ (haccepted e he).le
  refine ⟨hselection, hclaims, hacceptance, haccepted, hperm.map _, ?_, ?_⟩
  · rw [List.pairwise_map]
    refine hapart.imp_of_mem fun {a b} ha hb hab ↦ ?_
    rw [(follows_widenIn hseen (hordered a ha)).1, (follows_widenIn hseen (hordered b hb)).1]
    exact ⟨placeIn_le_placeIn hseen hab.1,
      (stop_widenIn_le hseen (hordered a ha)).trans (placeIn_le_placeIn hseen hab.2)⟩
  · exact inOrder_map_widenIn hseen hordered (hapart.imp And.right)

variable {allowed : Fault → Prop}

/-- The edits that a rule makes at once are the claims that it accepts, in order. -/
theorem acceptedEdits_ensures (hmistake : ∀ fault : Fault, fault.isMistake → allowed fault)
    (lang : Language) {r : SimpleRule}
    (houtputs : ∀ e ∈ r.expressions, ∀ o ∈ e.pairing.outputs, o.Produces allowed lang.inventory)
    (p : Phrase) :
    Ensures (fun edits ↦ ∃ seen claimed accepted, r.Settles lang p seen claimed accepted edits)
      allowed (r.acceptedEdits lang p) := by
  have haccepted (seen : Option Selection) (hselection : r.selection? lang p = .ok seen)
      (hseen : ∀ s ∈ seen, s.Within p) :
      Ensures (fun accepted ↦ ∃ claimed, r.Settles lang p seen claimed accepted
        ((byPosition accepted).map (widenIn seen))) allowed
        (acceptFrom lang (seenPhrase p seen) 0 [] r.expressions) := by
    rw [acceptFrom_eq]
    refine ((claims_ensures hmistake lang (seenPhrase p seen) houtputs 0).mono
      fun claimed hclaims hfits ↦ ?_).map fun claimed h ↦ h
    exact ⟨claimed, settles_of_claims hselection hseen hclaims hfits⟩
  rw [acceptedEdits]
  refine ((selection?_ensures hmistake lang r p).mono fun seen hselection hseen ↦
    (⟨hselection, hseen⟩ : r.selection? lang p = .ok seen ∧ _)).bind fun seen h ↦ ?_
  cases seen with
  | none =>
    refine (haccepted none h.1 h.2).bind fun accepted hsettles ↦ .ok ?_
    obtain ⟨claimed, hsettles⟩ := hsettles
    rw [show widenIn none = id from rfl, List.map_id] at hsettles
    exact ⟨none, claimed, accepted, hsettles⟩
  | some s =>
    refine (haccepted (some s) h.1 h.2).bind fun accepted hsettles ↦ ?_
    obtain ⟨claimed, hsettles⟩ := hsettles
    have hfits : ∀ e ∈ byPosition accepted, e.Fits s.phrase false := fun e he ↦
      hsettles.fits e ((List.mergeSort_perm _ _).subset he)
    rw [mapM_widen?_eq hfits]
    exact .ok ⟨some s, claimed, accepted, hsettles⟩

/-- A rule without a filter sees all of the phrase. -/
theorem selection?_of_unfiltered {r : SimpleRule} (hfilter : r.filter = none) (lang : Language)
    (p : Phrase) : r.selection? lang p = .ok none := by rw [selection?, hfilter]

/-- What a rule without a filter accepts is settled in the phrase. -/
theorem exists_settles_of_unfiltered {lang : Language} {r : SimpleRule} {p : Phrase}
    {edits : List Edit} (hfilter : r.filter = none) (h : r.acceptedEdits lang p = .ok edits) :
    ∃ claimed accepted, r.Settles lang p none claimed accepted edits := by
  obtain ⟨seen, claimed, accepted, hsettles⟩ := (acceptedEdits_ensures (fun _ _ ↦ trivial) lang
    (fun _ _ _ _ _ _ _ ↦ .anything _) p).of_ok h
  cases (selection?_of_unfiltered hfilter lang p).symm.trans hsettles.selection
  exact ⟨claimed, accepted, hsettles⟩

/-- If all of the phrase is seen, the edits that are made are those that are accepted. -/
theorem Settles.perm_accepted {lang : Language} {r : SimpleRule} {p : Phrase}
    {claimed : List (List Edit)} {accepted edits : List Edit}
    (h : r.Settles lang p none claimed accepted edits) : edits.Perm accepted := by
  have hperm := h.perm
  rwa [show widenIn none = id from rfl, List.map_id] at hperm

/-- A rule that applies its expressions at once gives the finished text of the replacements, unless
nothing is accepted. -/
theorem applyAtOnce_eq {lang : Language} {r : SimpleRule} {p : Phrase} {edits : List Edit}
    (haccepted : r.acceptedEdits lang p = .ok edits) (horder : InOrder p p.start edits p.stop) :
    r.applyAtOnce lang p = if edits = [] then .ok none else
      some <$> ((edits.flatMap Edit.replacements).foldl (Splicing.written p)
        { cursor := p.start }).finish lang.inventory p := by
  rw [applyAtOnce, haccepted]
  cases edits with
  | nil => rfl
  | cons e rest =>
    have hsame : Splicing.SameText { cursor := p.start } { cursor := p.start } := ⟨rfl, rfl, rfl⟩
    rw [if_neg (List.cons_ne_nil e rest), ← (hsame.edited (e :: rest)).finish_eq]
    show (do return some (← p.splice lang.inventory (e :: rest)).phrase) = _
    rw [Phrase.splice_eq _ horder]
    simp only [bind, Except.bind]
    cases ((e :: rest).foldl (Splicing.edited p) { cursor := p.start }).finish lang.inventory p <;>
      rfl

/-- Applying all expressions of a rule at once resolves overlaps greedily and loses nothing. What is
accepted does not overlap, holds all claims of the first expression, and for a claim that is refused
holds one of an earlier expression that overlaps it. The accepted claims, in order and in the full
phrase, all start at the cursor that those before them leave or after it, and the text that comes
out is that of all their replacements, written one after the other. -/
theorem apply_simultaneous {lang : Language} {r : SimpleRule} {p : Phrase} {result : Option Phrase}
    (hmode : r.mode = .simultaneous) (h : r.apply lang p = .ok result) :
    ∃ seen claimed accepted edits, r.acceptedEdits lang p = .ok edits ∧
      r.Settles lang p seen claimed accepted edits ∧
      (∀ before e after, edits = before ++ e :: after →
        ∃ s, before.foldlM (Splicing.makeEdit p) { cursor := p.start } = .ok s ∧
          ¬e.start < s.cursor) ∧
      ∃ text, (edits.flatMap Edit.replacements).foldlM (Splicing.replace p)
          { cursor := p.start } = .ok text ∧
        if edits = [] then result = none
        else ∃ q, text.finish lang.inventory p = .ok q ∧ result = some q := by
  have hensures := @acceptedEdits_ensures (fun _ ↦ True) (fun _ _ ↦ trivial) lang r
    (fun _ _ _ _ _ _ _ ↦ .intro (fun _ _ ↦ trivial) fun _ _ ↦ trivial) p
  rw [apply, hmode] at h
  cases haccepted : r.acceptedEdits lang p with
  | error fault =>
    rw [show r.applyAtOnce lang p = .error fault by rw [applyAtOnce, haccepted]; rfl] at h
    cases h
  | ok edits =>
    obtain ⟨seen, claimed, accepted, hsettles⟩ := hensures.of_ok haccepted
    have hwritten := (@Splicing.foldlM_replace_eq p { cursor := p.start } _ p.stop
      Phrase.isPosition_start hsettles.inOrder.follows).1
    rw [applyAtOnce_eq haccepted hsettles.inOrder] at h
    generalize (edits.flatMap Edit.replacements).foldl _ _ = text at hwritten h
    refine ⟨seen, claimed, accepted, edits, rfl, hsettles, ?_, text, hwritten, ?_⟩
    · intro before e after hsplit
      have hbefore := hsplit ▸ hsettles.inOrder
      obtain ⟨hmade, -, hle⟩ := @Splicing.foldlM_makeEdit_eq p { cursor := p.start } before p.start
        e.start Phrase.isPosition_start (le_refl _) hbefore.of_append
      exact ⟨_, hmade, not_lt.mpr hle⟩
    · split
      · next hnil =>
        rw [if_pos hnil] at h
        exact (Except.ok.inj h).symm
      · next hsome =>
        rw [if_neg hsome] at h
        cases hfinish : text.finish lang.inventory p with
        | error fault =>
          rw [hfinish] at h
          cases h
        | ok q =>
          rw [hfinish] at h
          exact ⟨q, rfl, (Except.ok.inj h).symm⟩

/-- In `ab` the claim of `ab` is accepted and the one of `b` is not. -/
theorem apply_simultaneous_ab :
    let a := Segment.literal ['a']
    let b := Segment.literal ['b']
    let drop (pattern : List Segment) : Expression :=
      { pairing := .single (.text ⟨pattern, none⟩) .empty, text := "" }
    let r : SimpleRule := { expressions := [drop [a, b], drop [b]] }
    ∃ seen claimed accepted edits,
      r.Settles { inventory := .empty } (.ofWord ⟨[a, b], none⟩) seen claimed accepted edits ∧
        edits ≠ [] := by
  intro a b drop r
  have hfrom : acceptFrom { inventory := .empty } (.ofWord ⟨[a, b], none⟩) 0 [] r.expressions =
      .ok [⟨0, ⟨0, 0⟩, ⟨0, 2⟩, [⟨⟨0, 0⟩, ⟨0, 2⟩, .empty, ∅⟩]⟩] := by
    decide +kernel
  have haccepted : r.acceptedEdits { inventory := .empty } (.ofWord ⟨[a, b], none⟩) =
      .ok [⟨0, ⟨0, 0⟩, ⟨0, 2⟩, [⟨⟨0, 0⟩, ⟨0, 2⟩, .empty, ∅⟩]⟩] := by
    rw [acceptedEdits, show r.selection? { inventory := .empty } _ = .ok none from rfl]
    simp only [bind, Except.bind]
    rw [hfrom]
    exact congrArg Except.ok (List.mergeSort_singleton _)
  have happly : r.apply { inventory := .empty } (.ofWord ⟨[a, b], none⟩) =
      .ok (some .empty) := by
    show r.applyAtOnce _ _ = _
    rw [applyAtOnce, haccepted]
    decide +kernel
  obtain ⟨seen, claimed, accepted, edits, -, hsettles, -, text, -, hresult⟩ :=
    apply_simultaneous rfl happly
  refine ⟨seen, claimed, accepted, edits, hsettles, fun hnil ↦ ?_⟩
  rw [if_pos hnil] at hresult
  cases hresult

end SimpleRule

end Diachrony
