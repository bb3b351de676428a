import Diachrony.Change.SimpleRule
import Diachrony.Proofs.Change.Edits

/-!
# Which edits are accepted

A rule that applies all its expressions at once accepts edits greedily: those of an expression that
do not overlap what earlier expressions have. What is refused overlaps an accepted edit of an
earlier expression, and what is accepted does not overlap, so by position no accepted edit reaches
into the next.
-/

namespace Diachrony

namespace Edit

variable {e f : Edit}

/-- Overlapping is mutual. -/
theorem overlaps_comm (e f : Edit) : e.overlaps f = f.overlaps e := by
  rw [overlaps, overlaps]
  cases e.isInsertion <;> cases f.isInsertion <;>
    simp only [Bool.decide_and, Bool.and_comm, decide_eq_decide]
  exact eq_comm

/-- Edits do not overlap if the second starts behind the start and not before the end of the
first. -/
theorem overlaps_eq_false (hstart : e.start < f.start) (hstop : e.stop ≤ f.start) :
    e.overlaps f = false := by
  have hno : ¬f.start < e.stop := not_lt.mpr hstop
  rw [overlaps]
  split
  · exact decide_eq_false (ne_of_lt hstart)
  · exact decide_eq_false fun h ↦ lt_asymm h.1 hstart
  · exact decide_eq_false fun h ↦ hno h.2
  · exact decide_eq_false fun h ↦ hno h.2

/-- By position, an edit does not reach into one that it does not overlap. -/
theorem stop_le_start (hf : f.start ≤ f.stop)
    (horder : e.start < f.start ∨ e.start = f.start ∧ e.stop ≤ f.stop)
    (h : e.overlaps f = false) : e.stop ≤ f.start := by
  have hle : e.start ≤ f.start := horder.elim le_of_lt fun h ↦ le_of_eq h.1
  by_contra hlt
  have hlt : f.start < e.stop := not_le.mp hlt
  have hmatch : e.start ≠ e.stop := fun heq ↦ not_lt.mpr hle (heq ▸ hlt)
  by_cases hinsertion : f.start = f.stop
  · have hstart : e.start ≠ f.start := fun heq ↦ by
      have := horder.resolve_left (heq ▸ lt_irrefl _)
      exact not_lt.mpr this.2 (hinsertion ▸ hlt)
    simp only [overlaps, isInsertion, hmatch, hinsertion, decide_false, decide_true] at h
    rw [← hinsertion] at h
    exact of_decide_eq_false h ⟨lt_of_le_of_ne hle hstart, hlt⟩
  · have hfstop : e.start < f.stop := lt_of_le_of_lt hle (lt_of_le_of_ne hf hinsertion)
    simp only [overlaps, isInsertion, hmatch, hinsertion, decide_false] at h
    exact of_decide_eq_false h ⟨hfstop, hlt⟩

end Edit

/-- Whether no two edits of a list overlap. -/
def Disjoint (edits : List Edit) : Prop := edits.Pairwise fun a b ↦ a.overlaps b = false

/-- Whether edits come by position, and where two start together the one that ends first. -/
def Sorted (edits : List Edit) : Prop :=
  edits.Pairwise fun a b ↦ a.start < b.start ∨ a.start = b.start ∧ a.stop ≤ b.stop

/-- By position, edits that do not overlap do not reach into one another. -/
theorem Disjoint.apart {edits : List Edit} (h : Disjoint edits) (hsorted : Sorted edits)
    (hle : ∀ e ∈ edits, e.start ≤ e.stop) :
    edits.Pairwise fun a b ↦ a.start ≤ b.start ∧ a.stop ≤ b.start := by
  refine (hsorted.and h).imp_of_mem fun {a b} _ hb hab ↦ ?_
  exact ⟨hab.1.elim le_of_lt fun h ↦ le_of_eq h.1, Edit.stop_le_start (hle b hb) hab.1 hab.2⟩

/-- The edits of one pass do not overlap. -/
theorem Pass.disjoint {p : Phrase} {hasPieces : Bool} {priority : Nat}
    {positions : List Position} {cursor : Position} {edits : List Edit}
    (h : Pass p hasPieces priority positions cursor edits) : Disjoint edits :=
  h.apart.imp fun hab ↦ Edit.overlaps_eq_false hab.1 hab.2

namespace SimpleRule

/-- Of edits that do not overlap those are accepted that overlap none that was accepted before. -/
theorem accept_eq (accepted : List Edit) {candidates : List Edit} (h : Disjoint candidates) :
    accept accepted candidates =
      accepted ++ candidates.filter fun e ↦ !accepted.any (·.overlaps e) := by
  induction candidates generalizing accepted with
  | nil => simp [accept]
  | cons e rest ih =>
    rw [Disjoint, List.pairwise_cons] at h
    have hcons (accepted : List Edit) : accept accepted (e :: rest) =
        accept (if accepted.any (·.overlaps e) then accepted else accepted ++ [e]) rest := rfl
    rw [hcons, ih _ h.2]
    by_cases hany : accepted.any (·.overlaps e) = true
    · rw [if_pos hany, List.filter_cons_of_neg (by simp [hany])]
    · rw [if_neg hany, List.filter_cons_of_pos (by simpa using hany), List.append_assoc,
        List.singleton_append]
      congr 2
      refine List.filter_congr fun f hf ↦ ?_
      rw [List.any_append, List.any_cons, h.1 f hf, List.any_nil, Bool.or_false, Bool.or_false]

section Accepting

variable (accepted : List Edit) {candidates : List Edit} (h : Disjoint candidates)
include h

/-- What was accepted stays accepted, and a candidate is accepted if it overlaps nothing of it. -/
theorem mem_accept {e : Edit} : e ∈ accept accepted candidates ↔
    e ∈ accepted ∨ e ∈ candidates ∧ ¬∃ f ∈ accepted, f.overlaps e := by
  rw [accept_eq accepted h, List.mem_append, List.mem_filter, Bool.not_eq_true',
    ← Bool.not_eq_true, List.any_eq_true]

/-- Accepted edits that do not overlap still do not overlap when candidates are accepted. -/
theorem disjoint_accept (haccepted : Disjoint accepted) :
    Disjoint (accept accepted candidates) := by
  rw [accept_eq accepted h, Disjoint, List.pairwise_append]
  refine ⟨haccepted, h.sublist List.filter_sublist, fun a ha b hb ↦ ?_⟩
  have hfree := (List.mem_filter.mp hb).2
  rw [Bool.not_eq_true', List.any_eq_false] at hfree
  exact Bool.eq_false_iff.mpr (hfree a ha)

/-- A candidate that is refused overlaps something that was accepted before. -/
theorem exists_overlaps_of_not_mem_accept {e : Edit} (he : e ∈ candidates)
    (hno : e ∉ accept accepted candidates) : ∃ f ∈ accepted, f.overlaps e := by
  by_contra hnone
  exact hno ((mem_accept accepted h).mpr (.inr ⟨he, hnone⟩))

end Accepting

/-- What is accepted of the edits of some expressions, given expression by expression, after edits
that were accepted before. -/
structure Greedy (before : List Edit) (claims : List (List Edit)) (accepted : List Edit) :
    Prop where
  /-- What was accepted before stays accepted. -/
  kept : before ⊆ accepted
  /-- What is accepted does not overlap. -/
  disjoint : Disjoint before → Disjoint accepted
  /-- Nothing else is accepted. -/
  claimed : ∀ e ∈ accepted, e ∈ before ∨ ∃ es ∈ claims, e ∈ es
  /-- What is refused overlaps something that was accepted of an earlier expression. -/
  refused : ∀ (k : Nat) (es : List Edit), claims[k]? = some es → ∀ e ∈ es, e ∉ accepted →
    ∃ f ∈ accepted, f.overlaps e ∧
      (f ∈ before ∨ ∃ j < k, ∃ fs : List Edit, claims[j]? = some fs ∧ f ∈ fs)

/-- Accepting the edits of one expression after another is greedy. -/
theorem greedy_foldl_accept (before : List Edit) {claims : List (List Edit)}
    (h : ∀ es ∈ claims, Disjoint es) : Greedy before claims (claims.foldl accept before) := by
  induction claims generalizing before with
  | nil =>
    exact ⟨List.Subset.refl _, id, fun e he ↦ .inl he, fun k es hes ↦ by simp at hes⟩
  | cons es rest ih =>
    rw [List.forall_mem_cons] at h
    have hgreedy := ih (accept before es) h.2
    have hmem {e : Edit} := mem_accept before h.1 (e := e)
    have hkept : before ⊆ rest.foldl accept (accept before es) := fun e he ↦
      hgreedy.kept (hmem.mpr (.inl he))
    rw [List.foldl_cons]
    refine ⟨hkept, hgreedy.disjoint ∘ disjoint_accept before h.1, fun e he ↦ ?_, fun k => ?_⟩
    · rcases hgreedy.claimed e he with he | ⟨fs, hfs, he⟩
      · rcases hmem.mp he with he | he
        · exact .inl he
        · exact .inr ⟨es, List.mem_cons_self, he.1⟩
      · exact .inr ⟨fs, List.mem_cons_of_mem es hfs, he⟩
    · intro fs hfs e he hno
      cases k with
      | zero =>
        rw [List.getElem?_cons_zero, Option.some.injEq] at hfs
        subst hfs
        obtain ⟨f, hf, hover⟩ := exists_overlaps_of_not_mem_accept before h.1 he
          fun hin ↦ hno (hgreedy.kept hin)
        exact ⟨f, hkept hf, hover, .inl hf⟩
      | succ k =>
        rw [List.getElem?_cons_succ] at hfs
        obtain ⟨f, hf, hover, hearlier⟩ := hgreedy.refused k fs hfs e he hno
        refine ⟨f, hf, hover, ?_⟩
        rcases hearlier with hearlier | ⟨j, hj, gs, hgs, hmem'⟩
        · rcases hmem.mp hearlier with hbefore | hes
          · exact .inl hbefore
          · exact .inr ⟨0, Nat.succ_pos k, es, rfl, hes.1⟩
        · exact .inr ⟨j + 1, Nat.succ_lt_succ hj, gs, hgs, hmem'⟩

/-- What is accepted of what some expressions claim, given expression by expression. -/
structure Acceptance (claims : List (List Edit)) (accepted : List Edit) : Prop where
  /-- What is accepted does not overlap. -/
  disjoint : Disjoint accepted
  /-- Only claims are accepted. -/
  claimed : ∀ e ∈ accepted, ∃ es ∈ claims, e ∈ es
  /-- All claims of the first expression are accepted. -/
  first : ∀ es, claims[0]? = some es → es ⊆ accepted
  /-- What is refused overlaps something that was accepted of an earlier expression. -/
  refused : ∀ (k : Nat) (es : List Edit), claims[k]? = some es → ∀ e ∈ es, e ∉ accepted →
    ∃ j < k, ∃ fs : List Edit, claims[j]? = some fs ∧ ∃ f ∈ fs, f ∈ accepted ∧ f.overlaps e

/-- Accepting claims expression by expression settles all of them. -/
theorem acceptance_foldl {claims : List (List Edit)} (h : ∀ es ∈ claims, Disjoint es) :
    Acceptance claims (claims.foldl accept []) := by
  have hgreedy := greedy_foldl_accept [] h
  have hrefused (k : Nat) (es : List Edit) (hes : claims[k]? = some es) (e : Edit) (he : e ∈ es)
      (hno : e ∉ claims.foldl accept []) : ∃ j < k, ∃ fs : List Edit, claims[j]? = some fs ∧
        ∃ f ∈ fs, f ∈ claims.foldl accept [] ∧ f.overlaps e := by
    obtain ⟨f, hf, hover, hnil | ⟨j, hj, fs, hfs, hmem⟩⟩ := hgreedy.refused k es hes e he hno
    · cases hnil
    · exact ⟨j, hj, fs, hfs, f, hmem, hf, hover⟩
  constructor
  · exact hgreedy.disjoint .nil
  · intro e he
    exact (hgreedy.claimed e he).resolve_left List.not_mem_nil
  · intro es hes e he
    by_contra hno
    obtain ⟨j, hj, -⟩ := hrefused 0 es hes e he hno
    exact Nat.not_lt_zero j hj
  · exact hrefused

private theorem inOrder_trans {a b c : Edit}
    (hab : a.start < b.start ∨ a.start = b.start ∧ a.stop ≤ b.stop)
    (hbc : b.start < c.start ∨ b.start = c.start ∧ b.stop ≤ c.stop) :
    a.start < c.start ∨ a.start = c.start ∧ a.stop ≤ c.stop := by
  rcases hab with hab | ⟨hab, hab'⟩ <;> rcases hbc with hbc | ⟨hbc, hbc'⟩
  · exact .inl (hab.trans hbc)
  · exact .inl (hbc ▸ hab)
  · exact .inl (hab ▸ hbc)
  · exact .inr ⟨hab.trans hbc, hab'.trans hbc'⟩

private theorem inOrder_total (a b : Edit) :
    (a.start < b.start ∨ a.start = b.start ∧ a.stop ≤ b.stop) ∨
      (b.start < a.start ∨ b.start = a.start ∧ b.stop ≤ a.stop) := by
  rcases lt_trichotomy a.start b.start with h | h | h
  · exact .inl (.inl h)
  · exact (le_total a.stop b.stop).imp (fun hle ↦ .inr ⟨h, hle⟩) fun hle ↦ .inr ⟨h.symm, hle⟩
  · exact .inr (.inl h)

/-- Edits that do not overlap do not reach into one another once they come by position. -/
theorem pairwise_byPosition {edits : List Edit} (hdisjoint : Disjoint edits)
    (hle : ∀ e ∈ edits, e.start ≤ e.stop) :
    (byPosition edits).Pairwise fun a b ↦ a.start ≤ b.start ∧ a.stop ≤ b.start := by
  have hsorted : Sorted (byPosition edits) := by
    refine (List.pairwise_mergeSort (fun a b c hab hbc ↦ ?_) (fun a b ↦ ?_) edits).imp
      of_decide_eq_true
    · exact decide_eq_true (inOrder_trans (of_decide_eq_true hab) (of_decide_eq_true hbc))
    · rw [Bool.or_eq_true, decide_eq_true_eq, decide_eq_true_eq]
      exact inOrder_total a b
  have hperm : (byPosition edits).Perm edits := List.mergeSort_perm _ _
  have hapart : Disjoint (byPosition edits) :=
    (hperm.pairwise_iff fun {a b} h ↦ (Edit.overlaps_comm b a).trans h).mpr hdisjoint
  exact hapart.apart hsorted fun e he ↦ hle e (hperm.subset he)

end SimpleRule

end Diachrony
