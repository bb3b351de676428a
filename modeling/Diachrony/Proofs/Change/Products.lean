import Diachrony.Proofs.Change.Edits

/-!
# What outputs give

An output that holds no alternative gives a product of every span, or fails because of a mistake in
the rules or the words. An output that holds an alternative never gives a product: the alternative
would need a partner in the pattern, and pairing only finds partners at the top and in sequences. So
in the outputs of a pairing alternatives are left inside of outputs that change a span in turn, and
nowhere else.
-/

namespace Diachrony

namespace Inventory

variable {allowed : Fault → Prop} (hmistake : ∀ fault : Fault, fault.isMistake → allowed fault)
  (inv : Inventory)
include hmistake

/-- Changes of a matrix fail only by mistake. -/
theorem changeAll_ensures (base changes : Matrix) :
    Ensures (fun _ ↦ True) allowed (inv.changeAll base changes) := by
  refine Ensures.foldlM trivial fun a _ m _ ↦ ?_
  cases a with
  | simple value =>
    rw [change]
    split
    · exact .ok trivial
    · exact .ok trivial
  | negated value => exact .ok trivial
  | absent feature =>
    rw [change]
    split
    · exact .ok trivial
    · exact .ok trivial
  | binds feature => exact .error (hmistake _ rfl)

private theorem complete_ensures (target : Matrix) (n : Nat) (unused : List Diacritic)
    (s : Spelled) : Ensures (fun _ ↦ True) allowed (inv.complete target n unused s) := by
  induction n generalizing unused s with
  | zero =>
    rw [complete]
    split
    · exact .ok trivial
    · exact .error (hmistake _ rfl)
  | succ n ih =>
    rw [complete]
    split
    · exact .ok trivial
    · dsimp only
      split
      · next hn _ =>
        cases hn
        exact ih _ _
      · exact .error (hmistake _ rfl)

/-- The search for a segment fails only by mistake. -/
theorem segmentOf_ensures (m : Matrix) : Ensures (fun _ ↦ True) allowed (inv.segmentOf m) := by
  rw [segmentOf]
  split
  · exact .error (hmistake _ rfl)
  · split
    · exact .error (hmistake _ rfl)
    · exact (inv.complete_ensures hmistake _ _ _ _).bind fun _ _ ↦ .ok trivial

end Inventory

namespace Output

/-- The fault of an alternative that has no partner in the pattern. -/
def unpaired : Fault :=
  .of (.internal "an alternative emitter must be paired with an alternative matcher")

mutual

/-- Whether an alternative stands somewhere in an output. -/
def holdsAlternative : Output → Bool
  | alternative _ => true
  | inTurn items | sequence items => anyHoldsAlternative items
  | transforming initial transforms => initial.holdsAlternative || anyHoldsAlternative transforms
  | _ => false

/-- Whether an alternative stands somewhere in an output of a list. -/
def anyHoldsAlternative : List Output → Bool
  | [] => false
  | o :: rest => o.holdsAlternative || anyHoldsAlternative rest

end

section Producing

variable {allowed : Fault → Prop} (hmistake : ∀ fault : Fault, fault.isMistake → allowed fault)
  (inv : Inventory) (b : Bindings)

include hmistake in
/-- Feature variables are bound, or not by mistake. -/
theorem bindMatrix_ensures (m : Matrix) : Ensures (fun _ ↦ True) allowed (bindMatrix b m) := by
  rw [bindMatrix]
  refine (Ensures.forM fun a _ ↦ ?_).bind fun _ _ ↦ .ok trivial
  cases a with
  | binds feature =>
    rw [bindAssertion]
    split
    · exact .ok trivial
    · exact .error (hmistake _ rfl)
  | simple _ | negated _ | absent _ => exact .ok trivial

include hmistake in
/-- A literal takes the place of a span, or its syllables are at fault. -/
theorem produceSymbol_ensures (pattern : Pattern) (span : Phrase) (literal : Word) :
    Ensures (fun _ ↦ True) allowed (produceSymbol inv pattern span literal) := by
  rw [produceSymbol]
  have hsyllable : Ensures (fun _ ↦ True) allowed
      ((literal.division.modifiers.entries.map Prod.snd).foldlM inv.changeAll ∅) :=
    .foldlM trivial fun m _ base _ ↦ inv.changeAll_ensures hmistake base m
  exact hsyllable.bind fun _ _ ↦ .ok trivial

include hmistake in
/-- A matrix changes a span, or a segment can not be spelled. -/
theorem produceMatrix_ensures (span : Phrase) (values : Matrix) :
    Ensures (fun _ ↦ True) allowed (produceMatrix inv span values) := by
  rw [produceMatrix]
  split
  · split
    · exact .ok trivial
    · exact .ok trivial
  · have hsegment (s : Segment) : Ensures (fun _ ↦ True) allowed (changeSegment inv values s) :=
      (inv.changeAll_ensures hmistake s.matrix values).bind fun m _ ↦
        inv.segmentOf_ensures hmistake m
    have hword : Ensures (fun _ ↦ True) allowed (span.mapWordsM fun word ↦ do
        return word.setSegments (← word.segments.mapM (changeSegment inv values))) := by
      rw [Phrase.mapWordsM]
      refine Ensures.map (.forM fun word _ ↦ ?_) fun _ _ ↦ trivial
      exact (Ensures.forM fun s _ ↦ hsegment s).bind fun _ _ ↦ .ok trivial
    exact hword.bind fun _ _ ↦ .ok trivial

end Producing

mutual

/-- An output gives a product, or it fails by mistake or holds an alternative without a partner. -/
theorem produce_ensures {allowed : Fault → Prop}
    (hmistake : ∀ fault : Fault, fault.isMistake → allowed fault) (inv : Inventory) (b : Bindings)
    (pattern : Pattern) (span : Phrase) :
    (o : Output) → (o.holdsAlternative → allowed unpaired) →
      Ensures (fun _ ↦ True) allowed (produce inv b pattern span o)
  | empty, _ | text _, _ | betweenWords, _ | syllableBoundary, _ => .ok trivial
  | symbol literal, _ => produceSymbol_ensures hmistake inv pattern span literal
  | matrix values, _ =>
    (bindMatrix_ensures hmistake b values).bind fun m _ ↦ produceMatrix_ensures hmistake inv span m
  | syllableMatrix values, _ => (bindMatrix_ensures hmistake b values).bind fun _ _ ↦ .ok trivial
  | inTurn items, h => produceInTurn_ensures hmistake inv b pattern items { phrase := span } h
  | transforming initial transforms, h => by
    rw [holdsAlternative, Bool.or_eq_true] at h
    rw [produce]
    refine (produce_ensures hmistake inv b .never .empty initial (h ∘ .inl)).bind fun current _ ↦ ?_
    exact produceInTurn_ensures hmistake inv b .never transforms current (h ∘ .inr)
  | captureReference number, _ => by
    rw [produce]
    split
    · exact .ok trivial
    · exact .error (hmistake _ rfl)
  | sequence items, h => produceParts_ensures hmistake inv b items [] ∅ h
  | alternative _, h => .error (h rfl)

/-- Outputs in turn give a product, or one of them fails. -/
theorem produceInTurn_ensures {allowed : Fault → Prop}
    (hmistake : ∀ fault : Fault, fault.isMistake → allowed fault) (inv : Inventory) (b : Bindings)
    (pattern : Pattern) : (items : List Output) → (current : Product) →
      (anyHoldsAlternative items → allowed unpaired) →
      Ensures (fun _ ↦ True) allowed (produceInTurn inv b pattern items current)
  | [], _, _ => .ok trivial
  | o :: rest, current, h => by
    rw [anyHoldsAlternative, Bool.or_eq_true] at h
    rw [produceInTurn]
    refine (produce_ensures hmistake inv b pattern current.phrase o (h ∘ .inl)).bind fun next _ ↦ ?_
    refine (inv.changeAll_ensures hmistake current.syllable next.syllable).bind fun syllable _ ↦ ?_
    exact produceInTurn_ensures hmistake inv b pattern rest ⟨next.phrase, syllable⟩ (h ∘ .inr)

/-- Outputs side by side give a product, or one of them fails. -/
theorem produceParts_ensures {allowed : Fault → Prop}
    (hmistake : ∀ fault : Fault, fault.isMistake → allowed fault) (inv : Inventory) (b : Bindings) :
    (items : List Output) → (parts : List Phrase) → (syllable : Matrix) →
      (anyHoldsAlternative items → allowed unpaired) →
      Ensures (fun _ ↦ True) allowed (produceParts inv b items parts syllable)
  | [], _, _, _ => .ok trivial
  | o :: rest, parts, syllable, h => by
    rw [anyHoldsAlternative, Bool.or_eq_true] at h
    rw [produceParts]
    refine (produce_ensures hmistake inv b .never .empty o (h ∘ .inl)).bind fun part _ ↦ ?_
    refine (inv.changeAll_ensures hmistake syllable part.syllable).bind fun changed _ ↦ ?_
    exact produceParts_ensures hmistake inv b rest (parts ++ [part.phrase]) changed (h ∘ .inr)

end

mutual

/-- An output that holds an alternative gives no product. -/
theorem produce_ne_ok (inv : Inventory) (b : Bindings) (pattern : Pattern) (span : Phrase)
    (product : Product) :
    (o : Output) → o.holdsAlternative → produce inv b pattern span o ≠ .ok product
  | inTurn items, h => produceInTurn_ne_ok inv b pattern product items { phrase := span } h
  | transforming initial transforms, h => by
    intro hok
    rw [produce] at hok
    obtain ⟨current, hinitial, htransforms⟩ := exists_of_bind_eq_ok hok
    rcases (Bool.or_eq_true _ _).mp h with h | h
    · exact produce_ne_ok inv b .never .empty current initial h hinitial
    · exact produceInTurn_ne_ok inv b .never product transforms current h htransforms
  | sequence items, h => produceParts_ne_ok inv b product items [] ∅ h
  | alternative _, _ => fun hok ↦ nomatch hok

/-- Outputs in turn give no product if one of them holds an alternative. -/
theorem produceInTurn_ne_ok (inv : Inventory) (b : Bindings) (pattern : Pattern)
    (product : Product) : (items : List Output) → (current : Product) →
      anyHoldsAlternative items → produceInTurn inv b pattern items current ≠ .ok product
  | o :: rest, current, h => by
    intro hok
    rw [produceInTurn] at hok
    obtain ⟨next, hnext, hrest⟩ := exists_of_bind_eq_ok hok
    obtain ⟨syllable, -, hrest⟩ := exists_of_bind_eq_ok hrest
    rcases (Bool.or_eq_true _ _).mp h with h | h
    · exact produce_ne_ok inv b pattern current.phrase next o h hnext
    · exact produceInTurn_ne_ok inv b pattern product rest _ h hrest

/-- Outputs side by side give no product if one of them holds an alternative. -/
theorem produceParts_ne_ok (inv : Inventory) (b : Bindings) (product : Product) :
    (items : List Output) → (parts : List Phrase) → (syllable : Matrix) →
      anyHoldsAlternative items → produceParts inv b items parts syllable ≠ .ok product
  | o :: rest, parts, syllable, h => by
    intro hok
    rw [produceParts] at hok
    obtain ⟨part, hpart, hrest⟩ := exists_of_bind_eq_ok hok
    obtain ⟨changed, -, hrest⟩ := exists_of_bind_eq_ok hrest
    rcases (Bool.or_eq_true _ _).mp h with h | h
    · exact produce_ne_ok inv b .never .empty part o h hpart
    · exact produceParts_ne_ok inv b product rest _ _ h hrest

end

end Output

end Diachrony
