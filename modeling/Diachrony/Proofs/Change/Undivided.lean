import Diachrony.Proofs.Change.Tiling
import Diachrony.Proofs.Pattern.Ahead

/-!
# Outputs that divide nothing

Only a break between syllables, a literal that is divided and changes to syllables bring syllables
into a phrase that has none. Other outputs give undivided text, as long as the span that they take
the place of and what was captured are undivided. So do edits that are resolved with them.
-/

namespace Diachrony

/-- Whether an output gives text without breaks between syllables. -/
structure Product.IsUndivided (product : Product) : Prop where
  /-- The text is undivided. -/
  phrase : product.phrase.IsUndivided
  /-- Syllables are left as they are. -/
  syllable : product.syllable = ∅

/-- Without changes a matrix stays what it is. -/
theorem Inventory.changeAll_empty (inv : Inventory) (m : Matrix) : inv.changeAll m ∅ = .ok m := rfl

namespace Output

/-- Whether an output gives undivided products in undivided phrases. -/
def LeavesUndivided (inv : Inventory) (o : Output) : Prop :=
  ∀ b pattern span, b.IsUndivided → span.IsUndivided →
    Ensures Product.IsUndivided (fun _ ↦ True) (o.produce inv b pattern span)

mutual

/-- Whether an output has neither breaks between syllables nor changes to them. -/
def isUndivided : Output → Bool
  | text literal | symbol literal => literal.syllables.isNone
  | syllableMatrix _ | syllableBoundary => false
  | inTurn items | sequence items => allUndivided items
  | transforming initial transforms => initial.isUndivided && allUndivided transforms
  | empty | matrix _ | captureReference _ | betweenWords | alternative _ => true

/-- Whether no output of a list has breaks between syllables or changes to them. -/
def allUndivided : List Output → Bool
  | [] => true
  | o :: rest => o.isUndivided && allUndivided rest

end

section Producing

variable (inv : Inventory)

/-- An undivided literal takes the place of an undivided span. -/
theorem produceSymbol_isUndivided (pattern : Pattern) {span : Phrase} (hspan : span.IsUndivided)
    {literal : Word} (hliteral : literal.syllables = none) :
    Ensures Product.IsUndivided (fun _ ↦ True) (produceSymbol inv pattern span literal) := by
  have hsyllable : (literal.division.modifiers.entries.map Prod.snd).foldlM inv.changeAll ∅ =
      .ok ∅ := by
    rw [Word.division, hliteral]
    rfl
  rw [produceSymbol, hsyllable]
  refine .ok ⟨List.forall_mem_singleton.mpr ?_, rfl⟩
  split
  · next word hwords =>
    rw [Phrase.IsUndivided, hwords, List.forall_mem_singleton] at hspan
    have hfresh (same : Bool) : ¬(word.isDivided && same) := by
      rw [Word.isDivided, hspan]
      exact Bool.false_ne_true
    unfold inheritWord
    rw [if_neg (hfresh _)]
  · exact hliteral

/-- The segments of an undivided span change, and there may be one where there was none. -/
theorem produceMatrix_isUndivided {span : Phrase} (hspan : span.IsUndivided) (values : Matrix) :
    Ensures Product.IsUndivided (fun _ ↦ True) (produceMatrix inv span values) := by
  rw [produceMatrix]
  split
  · split
    · exact .ok ⟨List.forall_mem_singleton.mpr rfl, rfl⟩
    · exact .ok ⟨.empty, rfl⟩
  · have hwords : Ensures Phrase.IsUndivided (fun _ ↦ True) (span.mapWordsM fun word ↦ do
        return word.setSegments (← word.segments.mapM (changeSegment inv values))) := by
      rw [Phrase.mapWordsM]
      have hall : Ensures (fun words : List Word ↦ ∀ w ∈ words, w.syllables = none) (fun _ ↦ True)
          (span.words.mapM fun word ↦ do
            return word.setSegments (← word.segments.mapM (changeSegment inv values))) :=
        Ensures.mapM_all fun word hword ↦
          (Ensures.anything _).bind fun segments _ ↦ .ok (hspan word hword)
      refine hall.map fun words hwords ↦ ?_
      cases words with
      | nil => exact .empty
      | cons w rest => exact hwords
    exact hwords.bind fun phrase hphrase ↦ .ok ⟨hphrase, rfl⟩

end Producing

mutual

/-- An output without syllables gives undivided products. -/
theorem produce_isUndivided (inv : Inventory) {b : Bindings} (hb : b.IsUndivided)
    (pattern : Pattern) {span : Phrase} (hspan : span.IsUndivided) : (o : Output) → o.isUndivided →
      Ensures Product.IsUndivided (fun _ ↦ True) (produce inv b pattern span o)
  | empty, _ => .ok ⟨.empty, rfl⟩
  | text literal, h => .ok ⟨List.forall_mem_singleton.mpr (Option.isNone_iff_eq_none.mp h), rfl⟩
  | symbol literal, h =>
    produceSymbol_isUndivided inv pattern hspan (Option.isNone_iff_eq_none.mp h)
  | matrix values, _ => (Ensures.anything _).bind fun m _ ↦ produceMatrix_isUndivided inv hspan m
  | inTurn items, h => produceInTurn_isUndivided inv hb pattern items ⟨hspan, rfl⟩ h
  | transforming initial transforms, h => by
    have h := (Bool.and_eq_true _ _).mp h
    rw [produce]
    refine (produce_isUndivided inv hb .never .empty initial h.1).bind fun current hcurrent ↦ ?_
    exact produceInTurn_isUndivided inv hb .never transforms hcurrent h.2
  | captureReference number, _ => by
    rw [produce]
    split
    · next fragment hfragment => exact .ok ⟨hb number fragment hfragment, rfl⟩
    · exact .error trivial
  | betweenWords, _ => .ok ⟨by decide, rfl⟩
  | sequence items, h =>
    produceParts_isUndivided inv hb items (List.forall_mem_nil _) h
  | alternative _, _ => .error trivial

/-- Outputs without syllables change an undivided product to another one. -/
theorem produceInTurn_isUndivided (inv : Inventory) {b : Bindings} (hb : b.IsUndivided)
    (pattern : Pattern) : (items : List Output) → {current : Product} → current.IsUndivided →
      allUndivided items →
      Ensures Product.IsUndivided (fun _ ↦ True) (produceInTurn inv b pattern items current)
  | [], _, hcurrent, _ => .ok hcurrent
  | o :: rest, current, hcurrent, h => by
    have h := (Bool.and_eq_true _ _).mp h
    rw [produceInTurn]
    refine (produce_isUndivided inv hb pattern hcurrent.phrase o h.1).bind fun next hnext ↦ ?_
    rw [hnext.syllable, inv.changeAll_empty]
    exact produceInTurn_isUndivided inv hb pattern rest ⟨hnext.phrase, hcurrent.syllable⟩ h.2

/-- Outputs without syllables side by side give an undivided product. -/
theorem produceParts_isUndivided (inv : Inventory) {b : Bindings} (hb : b.IsUndivided) :
    (items : List Output) → {parts : List Phrase} → (∀ part ∈ parts, part.IsUndivided) →
      allUndivided items →
      Ensures Product.IsUndivided (fun _ ↦ True) (produceParts inv b items parts ∅)
  | [], _, hparts, _ => .ok ⟨.join hparts, rfl⟩
  | o :: rest, parts, hparts, h => by
    have h := (Bool.and_eq_true _ _).mp h
    rw [produceParts]
    refine (produce_isUndivided inv hb .never .empty o h.1).bind fun part hpart ↦ ?_
    rw [hpart.syllable, inv.changeAll_empty]
    refine produceParts_isUndivided inv hb rest (List.forall_mem_append.mpr ⟨hparts, ?_⟩) h.2
    exact List.forall_mem_singleton.mpr hpart.phrase

end

/-- An output without syllables leaves phrases undivided. -/
theorem leavesUndivided_of_isUndivided (inv : Inventory) {o : Output} (h : o.isUndivided) :
    o.LeavesUndivided inv :=
  fun _ pattern _ hb hspan ↦ o.produce_isUndivided inv hb pattern hspan h

end Output

/-- Whether an edit writes something, without breaks between syllables, and changes no syllables. -/
structure Edit.WritesUndivided (e : Edit) : Prop where
  /-- Something is written. -/
  replaces : e.replacements ≠ []
  /-- It is undivided, and syllables are left as they are. -/
  isUndivided : ∀ r ∈ e.replacements, r.result.IsUndivided ∧ r.syllable = ∅

/-- The result of an edit that writes undivided text is undivided. -/
theorem Edit.WritesUndivided.result {e : Edit} (h : e.WritesUndivided) : e.result.IsUndivided := by
  refine .join fun part hpart ↦ ?_
  obtain ⟨r, hr, rfl⟩ := List.mem_map.mp hpart
  exact (h.isUndivided r hr).1

/-- A piece of an undivided phrase is replaced by undivided text if its output leaves phrases
undivided. -/
theorem Piece.resolve_isUndivided {inv : Inventory} {p : Phrase} (hp : p.IsUndivided)
    {piece : Piece} (houtput : piece.output.LeavesUndivided inv) {b : Bindings}
    (hb : b.IsUndivided) :
    Ensures (fun r : Replacement ↦ r.result.IsUndivided ∧ r.syllable = ∅) (fun _ ↦ True)
      (piece.resolve inv b p) := by
  rw [Piece.resolve]
  split
  · exact .error trivial
  · next span hspan =>
    have hspan : span.IsUndivided := by
      rw [Phrase.slice?] at hspan
      split at hspan
      · cases hspan
        exact hp.slice _ _
      · cases hspan
    refine (houtput b piece.pattern span hb hspan).bind fun product hproduct ↦ ?_
    exact .ok ⟨hproduct.phrase, hproduct.syllable⟩

/-- Pieces of an undivided phrase are resolved to an edit that writes undivided text if there is a
piece and their outputs leave phrases undivided. -/
theorem Edit.resolve_writesUndivided {inv : Inventory} {p : Phrase} (hp : p.IsUndivided)
    (priority : Nat) (start stop : Position) {pieces : List Piece} (hne : pieces ≠ [])
    (houtputs : ∀ piece ∈ pieces, piece.output.LeavesUndivided inv) {b : Bindings}
    (hb : b.IsUndivided) :
    Ensures Edit.WritesUndivided (fun _ ↦ True)
      (Edit.resolve inv p priority start stop pieces b) := by
  have hpiece (piece : Piece) (hmem : piece ∈ pieces) :=
    piece.resolve_isUndivided hp (houtputs piece hmem) hb
  obtain ⟨first, rest, rfl⟩ := List.exists_cons_of_ne_nil hne
  rw [List.forall_mem_cons] at hpiece
  have hwritten : Ensures (fun rs : List Replacement ↦
      rs ≠ [] ∧ ∀ r ∈ rs, r.result.IsUndivided ∧ r.syllable = ∅) (fun _ ↦ True)
      ((first :: rest).mapM (Piece.resolve inv b p)) := by
    rw [List.mapM_cons]
    refine hpiece.1.bind fun r hr ↦ (Ensures.mapM_all hpiece.2).bind fun rs hrs ↦ .ok ?_
    exact ⟨List.cons_ne_nil r rs, List.forall_mem_cons.mpr ⟨hr, hrs⟩⟩
  exact hwritten.bind fun rs hrs ↦ .ok ⟨hrs.1, hrs.2⟩

end Diachrony
