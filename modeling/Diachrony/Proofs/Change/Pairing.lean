import Diachrony.Proofs.Change.Products

/-!
# The outputs of a pairing

Pairing a pattern with an output takes alternatives in the output apart and gives each branch its
partner. What is left as the output of a single piece is no alternative, and the parts of a sequence
among these do not depend on their span. So an alternative that is left in an output stands inside
of an output that changes spans in turn.
-/

namespace Diachrony

namespace Output

mutual

/-- Whether an alternative stands in an output inside of outputs in turn. -/
def hidesAlternative : Output → Bool
  | inTurn items => anyHoldsAlternative items
  | transforming initial transforms => initial.holdsAlternative || anyHoldsAlternative transforms
  | sequence items => anyHidesAlternative items
  | _ => false

/-- Whether an alternative stands in an output of a list inside of outputs in turn. -/
def anyHidesAlternative : List Output → Bool
  | [] => false
  | o :: rest => o.hidesAlternative || anyHidesAlternative rest

end

/-- Whether an output may be the output of a single piece. -/
def isSingle : Output → Bool
  | alternative _ => false
  | sequence items => allIgnoreSpan items
  | _ => true

mutual

/-- In an output that does not depend on its span alternatives are hidden. -/
theorem holdsAlternative_eq_of_ignoresSpan :
    (o : Output) → o.ignoresSpan → o.holdsAlternative = o.hidesAlternative
  | empty, _ | text _, _ | symbol _, _ | captureReference _, _ | betweenWords, _
  | syllableBoundary, _ | transforming _ _, _ => rfl
  | sequence items, h => anyHoldsAlternative_eq_of_allIgnoreSpan items h

/-- In outputs that do not depend on their spans alternatives are hidden. -/
theorem anyHoldsAlternative_eq_of_allIgnoreSpan :
    (items : List Output) → allIgnoreSpan items →
      anyHoldsAlternative items = anyHidesAlternative items
  | [], _ => rfl
  | o :: rest, h => by
    rw [allIgnoreSpan, Bool.and_eq_true] at h
    rw [anyHoldsAlternative, anyHidesAlternative, holdsAlternative_eq_of_ignoresSpan o h.1,
      anyHoldsAlternative_eq_of_allIgnoreSpan rest h.2]

end

mutual

/-- An output that hides an alternative holds it. -/
theorem holdsAlternative_of_hidesAlternative :
    (o : Output) → o.hidesAlternative → o.holdsAlternative
  | inTurn _, h | transforming _ _, h => h
  | sequence items, h => anyHoldsAlternative_of_anyHidesAlternative items h

/-- Outputs of which one hides an alternative hold it. -/
theorem anyHoldsAlternative_of_anyHidesAlternative :
    (items : List Output) → anyHidesAlternative items → anyHoldsAlternative items
  | o :: rest, h => by
    rw [anyHidesAlternative, Bool.or_eq_true] at h
    rw [anyHoldsAlternative, Bool.or_eq_true]
    exact h.imp (holdsAlternative_of_hidesAlternative o)
      (anyHoldsAlternative_of_anyHidesAlternative rest)

end

/-- In the output of a single piece alternatives are hidden. -/
theorem holdsAlternative_eq_of_isSingle {o : Output} (h : o.isSingle) :
    o.holdsAlternative = o.hidesAlternative := by
  cases o with
  | alternative options => cases h
  | sequence items => exact anyHoldsAlternative_eq_of_allIgnoreSpan items h
  | _ => rfl

end Output

namespace Pattern

private theorem isSingle_of_ignoresSpan {o : Output} (h : o.ignoresSpan) : o.isSingle := by
  cases o with
  | alternative options => cases h
  | sequence items => exact h
  | _ => rfl

/-- What is true of single pairings, and of pairings in sequence and alternative ones if it is true
of their parts, is true of what a pattern and an output are paired to. If they can not be paired,
the fault says so. -/
theorem pair_induction {motive : Pattern → Pairing → Prop}
    (single : ∀ p o, o.isSingle → motive p (.single p o))
    (sequence : ∀ ps items, List.Forall₂ motive ps items → motive (.sequence ps) (.sequence items))
    (alternative : ∀ ps options, List.Forall₂ motive ps options →
      motive (.alternative ps) (.alternative options))
    (source target : String) (p : Pattern) (o : Output) :
    Ensures (motive p) (· = .of (.invalidTransformation source target))
      (p.pair source target o) := by
  refine Pattern.pair.induct
    (fun p o ↦ Ensures (motive p) (· = .of (.invalidTransformation source target))
      (p.pair source target o))
    (fun o ps ↦ Ensures (List.Forall₂ motive ps) (· = .of (.invalidTransformation source target))
      (pairAll source target o ps))
    (fun ps os ↦ ps.length = os.length →
      Ensures (List.Forall₂ motive ps) (· = .of (.invalidTransformation source target))
        (pairEach source target ps os))
    ?sequences ?constantSequence ?unequalSequences ?alternatives ?unequalAlternatives
    ?lonelyAlternative ?constantForAll ?copyForEach ?sequenceForOther ?unequalOther ?other
    ?noBranch ?branch ?items ?noItems p o
  case sequences =>
    intro ps os hlength ih
    rw [pair, if_pos hlength]
    exact (ih hlength).bind fun items h ↦ .ok (sequence ps items h)
  case constantSequence =>
    intro ps os hlength hignore
    rw [pair, if_neg hlength, if_pos hignore]
    exact .ok (single _ _ hignore)
  case unequalSequences =>
    intro ps os hlength hignore
    rw [pair, if_neg hlength, if_neg hignore]
    exact .error rfl
  case alternatives =>
    intro ps os hlength ih
    rw [pair, if_pos hlength]
    exact (ih hlength).bind fun options h ↦ .ok (alternative ps options h)
  case unequalAlternatives =>
    intro ps os hlength
    rw [pair, if_neg hlength]
    exact .error rfl
  case lonelyAlternative =>
    intro p os hno
    rw [pair]
    · exact .error rfl
    · exact hno
  case constantForAll =>
    intro ps o hno hignore
    rw [pair, if_pos hignore]
    · exact .ok (single _ _ (isSingle_of_ignoresSpan hignore))
    · exact hno
  case copyForEach =>
    intro ps o hno hignore ih
    rw [pair, if_neg hignore]
    · exact ih.bind fun options h ↦ .ok (alternative ps options h)
    · exact hno
  case sequenceForOther =>
    intro p os hsequence halternative hignore
    rw [pair, if_pos hignore]
    · exact .ok (single _ _ hignore)
    · exact hsequence
    · exact halternative
  case unequalOther =>
    intro p os hsequence halternative hignore
    rw [pair, if_neg hignore]
    · exact .error rfl
    · exact hsequence
    · exact halternative
  case other =>
    intro p o hsequences halternatives halternative hpattern hsequence
    rw [pair]
    · refine .ok (single _ _ ?_)
      cases o with
      | alternative options => exact (halternative options rfl).elim
      | sequence items => exact (hsequence items rfl).elim
      | _ => rfl
    all_goals assumption
  case noBranch =>
    intro o
    exact .ok .nil
  case branch =>
    intro o p ps ihp ihps
    rw [pairAll]
    exact ihp.bind fun pairing h ↦ ihps.bind fun pairings hs ↦ .ok (.cons h hs)
  case items =>
    intro p ps o os ihp ihps hlength
    rw [pairEach]
    exact ihp.bind fun pairing h ↦ (ihps (Nat.succ.inj hlength)).bind fun pairings hs ↦
      .ok (.cons h hs)
  case noItems =>
    intro ps os hno hlength
    cases ps with
    | nil => exact .ok .nil
    | cons p ps =>
      cases os with
      | nil => cases hlength
      | cons o os => exact (hno p ps o os rfl rfl).elim

private theorem isSingle_of_mem_outputsOf {ps : List Pattern} {items : List Pairing}
    (h : List.Forall₂ (fun _ pairing ↦ ∀ o ∈ pairing.outputs, o.isSingle) ps items) :
    ∀ o ∈ Pairing.outputsOf items, o.isSingle := by
  induction h with
  | nil => exact fun _ h ↦ (nomatch h)
  | cons hfirst _ ih => exact List.forall_mem_append.mpr ⟨hfirst, ih⟩

/-- The outputs of a pairing may be outputs of single pieces. -/
theorem pair_ensures (source target : String) (p : Pattern) (o : Output) :
    Ensures (fun pairing ↦ ∀ o' ∈ pairing.outputs, o'.isSingle)
      (· = .of (.invalidTransformation source target)) (p.pair source target o) := by
  refine pair_induction ?_ (fun _ _ h ↦ isSingle_of_mem_outputsOf h)
    (fun _ _ h ↦ isSingle_of_mem_outputsOf h) source target p o
  intro p o h o' ho'
  rw [List.mem_singleton.mp ho']
  exact h

/-- The pattern of a pairing is the one that was paired. -/
theorem pattern_pair (source target : String) (p : Pattern) (o : Output) :
    Ensures (fun pairing ↦ pairing.pattern = p) (· = .of (.invalidTransformation source target))
      (p.pair source target o) := by
  have hpatterns : ∀ ps items, List.Forall₂ (fun p pairing ↦ Pairing.pattern pairing = p) ps items →
      Pairing.patterns items = ps := by
    intro ps items h
    induction h with
    | nil => rfl
    | cons hfirst _ ih => rw [Pairing.patterns, hfirst, ih]
  exact pair_induction (fun _ _ _ ↦ rfl)
    (fun ps items h ↦ congrArg Pattern.sequence (hpatterns ps items h))
    (fun ps options h ↦ congrArg Pattern.alternative (hpatterns ps options h)) source target p o

end Pattern

end Diachrony
