import Diachrony.Language.Syllabify
import Diachrony.Proofs.Ensures

/-!
# The division into syllables comes to an end

Every syllable of a division has a segment, so a word has no more syllables than segments and the
search for a division never runs out of the bound that it is given.
-/

namespace Diachrony

namespace Syllabifier

variable {allowed : Fault → Prop}

/-- The search for the divisions of a word from an index on comes to an end, if the bound is no less
than the number of segments behind the index. What may fail is a reference to a capture. -/
theorem divisions_keeps (hrefs : ∀ number, allowed (.of (.unboundCapture number)))
    (inv : Inventory) (s : Syllabifier) (w : Word) (bound : Nat) {start : Nat}
    (hstart : start ≤ w.length) (hbound : w.length ≤ bound + start) :
    (s.divisions inv (.of (.ofWord w)) w.length bound start).Keeps (fun _ ↦ True) allowed := by
  have hmirrors := Scan.mirrors_of (.ofWord w)
  induction bound generalizing start with
  | zero =>
    rw [divisions, if_pos (by omega)]
    exact .pure trivial
  | succ bound ih =>
    rw [divisions]
    split
    · exact .pure trivial
    · have hposition : (Phrase.ofWord w).isPosition ⟨0, start⟩ :=
        Phrase.isPosition_iff.mpr ⟨Nat.zero_lt_one, hstart⟩
      induction s.patterns with
      | nil => exact .done
      | cons shape shapes others =>
        rw [List.foldr_cons]
        refine .choice (.append ?_ others)
        refine (Pattern.keeps_candidates (fun _ ↦ hrefs) hmirrors hposition .empty).bind
          fun m hm ↦ ?_
        split
        · exact .done
        · next hinside =>
          rw [not_or, Decidable.not_not, Nat.not_le] at hinside
          have hstop : m.stop.segment ≤ (Phrase.ofWord w).wordLength m.stop.word :=
            (Phrase.isPosition_iff.mp hm.1).2
          rw [hinside.1] at hstop
          exact (ih hstop (by omega)).map fun _ _ ↦ trivial

/-- A word is divided, or that it can not be is a mistake. -/
theorem syllabify_ensures (hmistake : ∀ fault : Fault, fault.isMistake → allowed fault)
    (lang : Language) (s : Syllabifier) (w : Word) :
    Ensures (fun _ ↦ True) allowed (s.syllabify lang w) := by
  rw [syllabify]
  split
  · exact .ok trivial
  · have hkeeps := s.divisions_keeps (fun number ↦ hmistake _ rfl) lang.inventory w w.length
      (Nat.zero_le _) (Nat.le_refl _)
    refine (hkeeps.first? (hmistake _ rfl)).bind fun found _ ↦ ?_
    cases found with
    | some starts => exact .ok trivial
    | none => exact .error (hmistake _ rfl)

end Syllabifier

/-- Every word of a phrase is divided, or that one can not be is a mistake. -/
theorem Language.syllabify_ensures {allowed : Fault → Prop}
    (hmistake : ∀ fault : Fault, fault.isMistake → allowed fault) (lang : Language) (p : Phrase) :
    Ensures (fun _ ↦ True) allowed (lang.syllabify p) := by
  rw [syllabify]
  split
  · next s _ =>
    rw [Phrase.mapWordsM]
    have hwords := Ensures.forM fun word (_ : word ∈ p.words) ↦
      s.syllabify_ensures hmistake lang word
    exact hwords.map fun _ _ ↦ trivial
  · exact .ok trivial

end Diachrony
