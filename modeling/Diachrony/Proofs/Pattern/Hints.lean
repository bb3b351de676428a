import Mathlib.Data.List.Flatten
import Mathlib.Data.List.Perm.Subperm
import Diachrony.Proofs.Pattern.Adequacy

/-!
# What a finder is told

A finder may be told what follows it, and only repetitions listen. Whatever they are told, a search
that has no fault offers the same as often, if maybe in another order: the hint decides whether a
repetition stops or goes on first, and it does both in the end. So a hint may change which match is
preferred, but not whether there is one.
-/

namespace Diachrony

namespace Candidates

universe u v w

variable {α : Type u} {β : Type v} {γ : Type w}

/-- Whether a search offers all that another one offers, unless it has a fault. -/
def Covers (cs ds : Candidates α) : Prop := cs.ending = none → ds.offers ⊆ cs.offers

namespace Covers

/-- A search covers itself. -/
protected theorem refl (cs : Candidates α) : cs.Covers cs := fun _ ↦ List.Subset.refl _

/-- A choice point before both searches. -/
theorem choice {rest rest' : Unit → Candidates α} (h : (rest ()).Covers (rest' ())) :
    (choice rest).Covers (choice rest') := h

/-- Two searches cover what each of them covers. -/
theorem append {first second first' second' : Unit → Candidates α}
    (hfirst : (first ()).Covers (first' ())) (hsecond : (second ()).Covers (second' ())) :
    (append first second).Covers (append first' second') := by
  intro hnone a ha
  rw [ending_append, Option.or_eq_none_iff] at hnone
  rw [offers_append_of_ending hnone.1, List.mem_append]
  have ha := offers_append_sublist.subset ha
  exact (List.mem_append.mp ha).imp (fun h ↦ hfirst hnone.1 h) fun h ↦ hsecond hnone.2 h

/-- A search covers another one if each candidate of that one has a partner that leads to all that
the candidate leads to. -/
theorem bind_of_partner {cs : Candidates α} {ds : Candidates β} {f : α → Candidates γ}
    {g : β → Candidates γ}
    (h : cs.ending = none → ∀ d ∈ ds.offers, ∃ c ∈ cs.offers, (f c).Covers (g d)) :
    (cs.bind f).Covers (ds.bind g) := by
  intro hnone a ha
  obtain ⟨hcs, hrest⟩ := ending_bind_eq_none.mp hnone
  obtain ⟨d, hd, ha⟩ := exists_of_mem_offers_bind ha
  obtain ⟨c, hc, hcovers⟩ := h hcs d hd
  exact mem_offers_bind hnone hc (hcovers (hrest c hc) ha)

/-- A search finds something if it covers one that does. -/
theorem isSome_of_first? {cs ds : Candidates α} (h : cs.Covers ds) {budget budget' : Budget}
    {found found' : Option α} (hcs : cs.first? budget = .ok found)
    (hds : ds.first? budget' = .ok found') (hfound : found'.isSome) : found.isSome := by
  cases found with
  | some a => rfl
  | none =>
    obtain ⟨hnil, hnone⟩ := offers_eq_nil_of_firstAfter hcs
    have hoffers : ds.offers = [] := List.subset_nil.mp (hnil ▸ h hnone)
    rw [← head?_offers_of_first? hds, hoffers] at hfound
    cases hfound

end Covers

/-- Whether a search offers all that another one offers, as often as that one does, unless it has a
fault. -/
def OffersAll (cs ds : Candidates α) : Prop := cs.ending = none → ds.offers.Subperm cs.offers

namespace OffersAll

/-- A search offers all that it offers. -/
protected theorem refl (cs : Candidates α) : cs.OffersAll cs := fun _ ↦ List.Subperm.refl _

/-- What is offered as often is offered. -/
theorem covers {cs ds : Candidates α} (h : cs.OffersAll ds) : cs.Covers ds :=
  fun hnone ↦ (h hnone).subset

/-- A choice point before both searches. -/
theorem choice {rest rest' : Unit → Candidates α} (h : (rest ()).OffersAll (rest' ())) :
    (choice rest).OffersAll (choice rest') := h

variable {first second first' second' : Unit → Candidates α}

/-- Two searches offer what each of them offers. -/
theorem append (hfirst : (first ()).OffersAll (first' ()))
    (hsecond : (second ()).OffersAll (second' ())) :
    (append first second).OffersAll (append first' second') := by
  intro hnone
  rw [ending_append, Option.or_eq_none_iff] at hnone
  rw [offers_append_of_ending hnone.1]
  exact offers_append_sublist.subperm.trans ((hfirst hnone.1).append (hsecond hnone.2))

/-- Two searches offer what each of them offers, in the other order too. -/
theorem append_swap (hfirst : (first ()).OffersAll (second' ()))
    (hsecond : (second ()).OffersAll (first' ())) :
    (Candidates.append first second).OffersAll (Candidates.append first' second') := by
  intro hnone
  rw [ending_append, Option.or_eq_none_iff] at hnone
  rw [offers_append_of_ending hnone.1]
  have hswapped := (hfirst hnone.1).append (hsecond hnone.2)
  exact (offers_append_sublist.subperm.trans List.perm_append_comm.subperm).trans hswapped

private theorem subperm_flatMap {l : List α} {f g : α → List β}
    (h : ∀ a ∈ l, (g a).Subperm (f a)) : (l.flatMap g).Subperm (l.flatMap f) := by
  induction l with
  | nil => exact List.Subperm.refl _
  | cons a rest ih =>
    rw [List.forall_mem_cons] at h
    rw [List.flatMap_cons, List.flatMap_cons]
    exact h.1.append (ih h.2)

/-- A search offers all of another one if what they lead to does. -/
theorem bind {cs ds : Candidates α} {f g : α → Candidates β} (h : cs.OffersAll ds)
    (hf : ∀ a, (f a).OffersAll (g a)) : (cs.bind f).OffersAll (ds.bind g) := by
  intro hnone
  obtain ⟨hcs, hrest⟩ := ending_bind_eq_none.mp hnone
  obtain ⟨kept, hperm, hsublist⟩ := h hcs
  have hleads : ((ds.offers.flatMap fun a ↦ (g a).offers)).Subperm
      (cs.offers.flatMap fun a ↦ (g a).offers) :=
    (hperm.flatMap_right _).symm.subperm.trans (hsublist.flatMap _).subperm
  rw [offers_bind hnone]
  exact (offers_bind_sublist.subperm.trans hleads).trans
    (subperm_flatMap fun a ha ↦ hf a (hrest a ha))

/-- Searches without a fault that offer all of each other offer the same in some order. -/
theorem perm_offered {cs ds : Candidates α} (h : cs.OffersAll ds) (h' : ds.OffersAll cs)
    {budget budget' : Budget} (hcs : (cs.course budget).fault = none)
    (hds : (ds.course budget').fault = none) :
    (cs.course budget).offered.Perm (ds.course budget').offered := by
  obtain ⟨hoffered, hnone⟩ := offered_course hcs
  obtain ⟨hoffered', hnone'⟩ := offered_course hds
  rw [hoffered, hoffered']
  exact (h' hnone').antisymm (h hnone)

end OffersAll

end Candidates

namespace Finder

/-- Whether what a finder is told decides on nothing but the order, unless there is a fault. -/
def Reorders (f : Finder) : Prop :=
  ∀ following other scan start b, (f following scan start b).OffersAll (f other scan start b)

/-- Whether a finder offers the same whatever it is told, unless it has a fault. -/
def Steady (f : Finder) : Prop :=
  ∀ following other scan start b, (f following scan start b).Covers (f other scan start b)

/-- A finder for which only the order depends on what it is told is steady. -/
theorem Reorders.steady {f : Finder} (h : f.Reorders) : f.Steady :=
  fun following other scan start b ↦ (h following other scan start b).covers

private theorem takesOver_eq (following : Option Probe) (scan : Scan) (start : Position)
    (b : Bindings) (next : Bool → Candidates Match) :
    ((takesOver following scan start b next).offers = [] ∧
        (takesOver following scan start b next).ending ≠ none) ∨
      ∃ refused, (takesOver following scan start b next).offers = (next refused).offers ∧
        (takesOver following scan start b next).ending = (next refused).ending := by
  cases following with
  | none => exact .inr ⟨false, rfl, rfl⟩
  | some probe =>
    rw [takesOver]
    cases Candidates.find_found (·.stop ≠ start) (probe scan start b)
      fun found ↦ next found.isSome with
    | accepted a _ _ hoffers hending => exact .inr ⟨true, hoffers, hending⟩
    | refused _ _ hoffers hending => exact .inr ⟨false, hoffers, hending⟩
    | failed fault _ hoffers hending => exact .inl ⟨hoffers, hending ▸ Option.some_ne_none fault⟩

/-- What repetitions are told decides on the order alone. -/
theorem offersAll_takesOver {following other : Option Probe} {scan : Scan} {start : Position}
    {b : Bindings} {next next' : Bool → Candidates Match}
    (h : ∀ refused refused', (next refused).OffersAll (next' refused')) :
    (takesOver following scan start b next).OffersAll (takesOver other scan start b next') := by
  intro hnone
  rcases takesOver_eq other scan start b next' with ⟨hnil, -⟩ | ⟨refused', hoffers', -⟩
  · rw [hnil]
    exact List.nil_subperm
  · rcases takesOver_eq following scan start b next with
      ⟨-, hfault⟩ | ⟨refused, hoffers, hending⟩
    · exact (hfault hnone).elim
    · rw [hoffers, hoffers']
      exact h refused refused' (hending ▸ hnone)

/-- Repetitions offer the same whatever they are told. -/
theorem offersAll_repeatAfter (inner : Finder) (min : Nat) (max : Option Nat)
    (following other : Option Probe) (scan : Scan) (bound count : Nat) (start : Position)
    (b : Bindings) : (repeatAfter inner min max following scan bound count start b).OffersAll
      (repeatAfter inner min max other scan bound count start b) := by
  induction bound generalizing count start b with
  | zero => exact .refl _
  | succ bound ih =>
    have hextend : (oneMore inner min max following scan bound count start b).OffersAll
        (oneMore inner min max other scan bound count start b) := by
      refine Candidates.OffersAll.bind (.refl _) fun m ↦ ?_
      split
      · exact .refl _
      · exact ih (count + 1) m.stop m.bindings
    rw [repeatAfter_succ, repeatAfter_succ]
    refine .choice ?_
    dsimp only
    split
    · split
      · refine offersAll_takesOver fun refused refused' ↦ ?_
        -- the same two searches, in one order or the other
        split
        · split
          · exact .append (.refl _) hextend
          · exact .append_swap (.refl _) hextend
        · split
          · exact .append_swap hextend (.refl _)
          · exact .append hextend (.refl _)
      · exact hextend
    · exact .refl _

/-- Finders one after the other do not listen. -/
theorem sequence_eq (finders : List Finder) (following other : Option Probe) (scan : Scan)
    (start : Position) (b : Bindings) :
    sequence finders following scan start b = sequence finders other scan start b := by
  cases finders <;> rfl

/-- For finders one after the other not even the order depends on what they are told. -/
theorem reorders_sequence (finders : List Finder) : (sequence finders).Reorders := by
  intro following other scan start b
  rw [sequence_eq finders following other scan start b]
  exact .refl _

/-- If only the order depends on what some finders are told, so it is for one of them. -/
theorem reorders_alternative {finders : List Finder} (h : ∀ f ∈ finders, f.Reorders) :
    (alternative finders).Reorders := by
  intro following other scan start b
  induction finders with
  | nil => exact .refl _
  | cons f rest ih =>
    rw [List.forall_mem_cons] at h
    exact .choice (.append (h.1 following other scan start b) (ih h.2))

/-- What follows the candidates of a finder comes in the order of the candidates. -/
theorem Reorders.bind {f : Finder} (h : f.Reorders)
    (next : Scan → Position → Bindings → Match → Candidates Match) :
    Finder.Reorders fun following scan start b ↦
      (f following scan start b).bind (next scan start b) :=
  fun following other scan start b ↦ (h following other scan start b).bind fun _ ↦ .refl _

end Finder

namespace Pattern

mutual

/-- Whether what follows may change the order in which a pattern is searched for. -/
def heeds : Pattern → Bool
  | repeater _ _ _ => true
  | alternative options => anyHeeds options
  | capture inner _ _ | intersection inner _ | environment inner _ _ => inner.heeds
  | _ => false

/-- Whether what follows may change the order for some pattern of a list. -/
def anyHeeds : List Pattern → Bool
  | [] => false
  | p :: rest => p.heeds || anyHeeds rest

end

variable (inv : Inventory)

mutual

/-- What follows a pattern decides on nothing but the order in which its matches are offered. -/
theorem finder_reorders : (p : Pattern) → (p.finder inv).Reorders
  | .repeater inner min max => fun following other scan start b ↦
    Finder.offersAll_repeatAfter (inner.finder inv) min max following other scan _ 0 start b
  | .alternative options => Finder.reorders_alternative (finders_reorder options)
  | .capture inner _ _ => (finder_reorders inner).bind _
  | .intersection initial _ => (finder_reorders initial).bind _
  | .environment core _ _ => (finder_reorders core).bind _
  | .sequence items => Finder.reorders_sequence (finders inv items)
  | .empty | .never | .wordStart | .wordEnd | .betweenWords | .text _ | .symbol _ | .matrix _
  | .syllableMatrix _ | .negated _ | .syllable | .syllableBoundary
  | .captureReference _ _ _ => fun _ _ _ _ _ ↦ .refl _

/-- What follows decides on nothing but the order for the patterns of a list. -/
theorem finders_reorder : (ps : List Pattern) → ∀ f ∈ finders inv ps, f.Reorders
  | [] => fun _ h ↦ (nomatch h)
  | p :: rest => List.forall_mem_cons.mpr ⟨finder_reorders p, finders_reorder rest⟩

end

/-- What is offered for a pattern does not depend on what follows, unless there is a fault. -/
theorem finder_steady (p : Pattern) : (p.finder inv).Steady := (p.finder_reorders inv).steady

/-- What is said to follow a pattern only reorders its matches: with and without it, searches that
come to an end without a fault offer the same ends and bindings, each as often, and searches for a
first match both find one or both find none. -/
theorem hint_only_reorders (p : Pattern) (hint : Option Pattern) (scan : Scan) (start : Position)
    (b : Bindings) (budget budget' : Budget) :
    let hinted := p.finder inv (hint.map fun q ↦ q.candidates inv) scan start b
    let plain := p.candidates inv scan start b
    ((hinted.course budget).fault = none → (plain.course budget').fault = none →
      (hinted.course budget).offered.Perm (plain.course budget').offered) ∧
    ∀ found found', hinted.first? budget = .ok found → plain.first? budget' = .ok found' →
      found.isSome = found'.isSome := by
  intro hinted plain
  have hall : hinted.OffersAll plain := p.finder_reorders inv _ _ scan start b
  have hall' : plain.OffersAll hinted := p.finder_reorders inv _ _ scan start b
  constructor
  · intro hhinted hplain
    exact hall.perm_offered hall' hhinted hplain
  · intro found found' hfound hfound'
    rw [Bool.eq_iff_iff]
    constructor
    · exact hall'.covers.isSome_of_first? hfound' hfound
    · exact hall.covers.isSome_of_first? hfound hfound'

/-- In `aa` the repetition `a*` alone offers its longest match first, and its shortest one first if
it is told that an `a` follows. -/
theorem hint_only_reorders_aa :
    let a : Pattern := .text ⟨[.literal ['a']], none⟩
    let scan : Scan := .of (.ofWord ⟨[.literal ['a'], .literal ['a']], none⟩)
    let course (hint : Option Pattern) := ((Pattern.repeater a 0 none).finder .empty
      (hint.map fun q ↦ q.candidates .empty) scan {} .empty).course ⟨100, "rule"⟩
    (course (some a)).offered.Perm (course none).offered ∧
      (course (some a)).offered.map (·.stop.segment) = [0, 1, 2] ∧
      (course none).offered.map (·.stop.segment) = [2, 1, 0] := by
  intro a scan course
  obtain ⟨hperm, -⟩ := hint_only_reorders .empty (.repeater a 0 none) (some a) scan {} .empty
    ⟨100, "rule"⟩ ⟨100, "rule"⟩
  exact ⟨hperm rfl rfl, by decide +kernel, by decide +kernel⟩

variable (following other : Option Probe) (scan : Scan) (start : Position) (b : Bindings)

mutual

/-- A pattern that does not listen is searched for in one way whatever follows. -/
theorem finder_eq_of_not_heeds : (p : Pattern) → p.heeds = false →
    p.finder inv following scan start b = p.finder inv other scan start b
  | .alternative options, h => alternative_eq_of_not_heeds options h
  | .capture inner _ _, h | .intersection inner _, h | .environment inner _ _, h =>
    congrArg (Candidates.bind · _) (finder_eq_of_not_heeds inner h)
  | .sequence items, _ =>
    Finder.sequence_eq (finders inv items) following other scan start b
  | .empty, _ | .never, _ | .wordStart, _ | .wordEnd, _ | .betweenWords, _ | .text _, _
  | .symbol _, _ | .matrix _, _ | .syllableMatrix _, _ | .negated _, _ | .syllable, _
  | .syllableBoundary, _ | .captureReference _ _ _, _ => rfl

/-- Patterns that do not listen are searched for in one way whatever follows. -/
theorem alternative_eq_of_not_heeds : (options : List Pattern) → anyHeeds options = false →
    Finder.alternative (finders inv options) following scan start b =
      Finder.alternative (finders inv options) other scan start b
  | [], _ => rfl
  | p :: rest, h => by
    obtain ⟨hfirst, hrest⟩ := Bool.or_eq_false_iff.mp h
    simp only [finders, Finder.alternative, finder_eq_of_not_heeds p hfirst,
      alternative_eq_of_not_heeds rest hrest]

end

end Pattern

end Diachrony
