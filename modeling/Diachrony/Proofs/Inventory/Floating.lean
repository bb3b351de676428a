import Diachrony.Inventory.Floating

/-!
# Inventories without floating diacritics

The diacritics that are found on a segment are diacritics of the inventory. So where none of these
floats there is nothing for a segment to inherit from another.
-/

namespace Diachrony.Inventory

/-- Whether some diacritic of the inventory floats. -/
def hasFloating (inv : Inventory) : Bool := inv.diacritics.any Diacritic.floating

variable {inv : Inventory}

private theorem splitBefore_subset (n : Nat) (text : List Char) :
    (inv.splitBefore n text).1 ⊆ inv.diacritics := by
  induction n generalizing text with
  | zero => exact List.nil_subset _
  | succ n ih =>
    rw [splitBefore]
    split
    · next d hd =>
      have hmem := (diacriticAt?_eq_some (Option.filter_eq_some_iff.mp hd).1).1
      exact List.cons_subset.mpr ⟨hmem, ih _⟩
    · exact List.nil_subset _

private theorem splitAfter_subset (n : Nat) (text : List Char) :
    (inv.splitAfter n text).2 ⊆ inv.diacritics := by
  induction n generalizing text with
  | zero => exact List.nil_subset _
  | succ n ih =>
    cases text with
    | nil => exact List.nil_subset _
    | cons c rest =>
      rw [splitAfter]
      split
      · next d hd => exact List.cons_subset.mpr ⟨(diacriticAt?_eq_some hd).1, ih _⟩
      · exact ih _

/-- The diacritics of a segment are diacritics of the inventory. -/
theorem parts_subset (inv : Inventory) (symbol : List Char) :
    (inv.parts symbol).before ++ (inv.parts symbol).after ⊆ inv.diacritics :=
  List.append_subset.mpr ⟨splitBefore_subset _ _, splitAfter_subset _ _⟩

/-- Without floating diacritics there are none on a segment. -/
theorem floatingOn_eq_nil (h : inv.hasFloating = false) (s : Segment) : inv.floatingOn s = [] := by
  rw [floatingOn, List.filter_eq_nil_iff]
  intro d hd
  exact List.any_eq_false.mp h d (inv.parts_subset s.symbol hd)

/-- Without floating diacritics a segment inherits nothing. -/
theorem inheritFloating_eq (h : inv.hasFloating = false) (target source : Segment)
    (excluding : Option Segment) : inv.inheritFloating target source excluding = target := by
  rw [inheritFloating, floatingOn_eq_nil h source]
  rfl

end Diachrony.Inventory
