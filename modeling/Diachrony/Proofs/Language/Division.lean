import Mathlib.Logic.Relation
import Diachrony.Proofs.Language.Divided
import Diachrony.Proofs.Language.Syllabify
import Diachrony.Proofs.Pattern.Firsts

/-!
# The preferred division of a word

A division of a word is a sequence of spans that patterns of syllables match, from the start of the
word to its end. Each of them was picked by its pattern and by the place of the span among the
candidates of the pattern, and divisions are compared by what was picked, syllable by syllable. A
word is divided if it has a division, and then by the one that comes before all others.
-/

namespace Diachrony

namespace Syllabifier

/-- What a syllable is picked by. -/
structure Pick where
  /-- Index of the pattern. -/
  pattern : Nat
  /-- Index of the span among the candidates of the pattern. -/
  candidate : Nat

/-- Whether a pick comes before another: the earlier pattern, then the earlier candidate. -/
def Pick.Before (a b : Pick) : Prop :=
  a.pattern < b.pattern ∨ a.pattern = b.pattern ∧ a.candidate < b.candidate

/-- Whether picks come before others, syllable by syllable. -/
def Before : List Pick → List Pick → Prop := List.Lex Pick.Before

section Divisions

variable (inv : Inventory) (s : Syllabifier) (w : Word)

/-- What a shape of syllables matches from an index of a word on. -/
def spansFrom (shape : SyllablePattern) (start : Nat) : Candidates Match :=
  shape.pattern.candidates inv (.of (.ofWord w)) ⟨0, start⟩ .empty

/-- Whether a syllable may go from an index of a word to another. -/
def MayStep (start stop : Nat) : Prop :=
  start < stop ∧ ∃ shape ∈ s.patterns, ∃ m ∈ (spansFrom inv w shape start).offers,
    m.stop = ⟨0, stop⟩

/-- Whether the word from an index on has a division by some picks into syllables with some
starts. -/
inductive Divides : Nat → List Pick → List SyllableStart → Prop
  /-- Nothing is left. -/
  | finished : Divides w.length [] []
  /-- A syllable and the division of what follows it. -/
  | syllable {start stop : Nat} {pick : Pick} {shape : SyllablePattern} {m : Match}
      {picks : List Pick} {starts : List SyllableStart}
      (hshape : s.patterns[pick.pattern]? = some shape)
      (hm : (spansFrom inv w shape start).offers[pick.candidate]? = some m)
      (hstop : m.stop = ⟨0, stop⟩) (hlt : start < stop) (rest : Divides stop picks starts) :
      Divides start (pick :: picks) (⟨start, shape.matrix⟩ :: starts)

/-- Whether a division of the word from an index on comes before all others. -/
structure IsPreferred (start : Nat) (picks : List Pick) (starts : List SyllableStart) : Prop where
  /-- It is a division. -/
  divides : Divides inv s w start picks starts
  /-- Other divisions come after it. -/
  least : ∀ {others starts'}, Divides inv s w start others starts' →
    others = picks ∨ Before picks others

end Divisions

variable {inv : Inventory} {s : Syllabifier} {w : Word} {start : Nat}

section Steps

/-- A syllable within a word ends in the word. -/
theorem le_length_of_mem_spansFrom {shape : SyllablePattern} {stop : Nat}
    (hstart : start ≤ w.length) {m : Match} (hm : m ∈ (spansFrom inv w shape start).offers)
    (hstop : m.stop = ⟨0, stop⟩) : stop ≤ w.length := by
  have hposition : (Phrase.ofWord w).isPosition ⟨0, start⟩ :=
    Phrase.isPosition_iff.mpr ⟨Nat.zero_lt_one, hstart⟩
  have hkeeps : (spansFrom inv w shape start).Keeps (Finder.Ahead (.of (.ofWord w)) ⟨0, start⟩)
      fun _ ↦ True :=
    Pattern.keeps_candidates (fun _ _ ↦ trivial) (Scan.mirrors_of (.ofWord w)) hposition .empty
  have hahead := (hkeeps.offers m hm).1
  rw [hstop] at hahead
  exact (Phrase.isPosition_iff.mp hahead).2

/-- A division goes from syllable to syllable. -/
theorem Divides.reaches {picks : List Pick} {starts : List SyllableStart}
    (h : Divides inv s w start picks starts) :
    Relation.ReflTransGen (MayStep inv s w) start w.length := by
  induction h with
  | finished => exact .refl
  | syllable hshape hm hstop hlt _ ih =>
    have hstep : MayStep inv s w _ _ :=
      ⟨hlt, _, List.mem_of_getElem? hshape, _, List.mem_of_getElem? hm, hstop⟩
    exact .head hstep ih

/-- From syllable to syllable there is a division. -/
theorem exists_divides (h : Relation.ReflTransGen (MayStep inv s w) start w.length) :
    ∃ picks starts, Divides inv s w start picks starts := by
  induction h using Relation.ReflTransGen.head_induction_on with
  | refl => exact ⟨[], [], .finished⟩
  | head hstep _ ih =>
    obtain ⟨picks, starts, hrest⟩ := ih
    obtain ⟨hlt, shape, hshape, m, hm, hstop⟩ := hstep
    obtain ⟨k, hk⟩ := List.getElem?_of_mem hshape
    obtain ⟨n, hn⟩ := List.getElem?_of_mem hm
    exact ⟨⟨k, n⟩ :: picks, _, .syllable hk hn hstop hlt hrest⟩

/-- The syllables of a division come one after the other, from where it starts. -/
theorem Divides.increasing {picks : List Pick} {starts : List SyllableStart}
    (h : Divides inv s w start picks starts) (hstart : start ≤ w.length) :
    (∀ x ∈ starts.head?, x.start = start) ∧ (∀ x ∈ starts, start ≤ x.start ∧ x.start < w.length) ∧
      (starts.map SyllableStart.start).Pairwise (· < ·) := by
  induction h with
  | finished => exact ⟨fun _ hx ↦ (nomatch hx), List.forall_mem_nil _, .nil⟩
  | syllable hshape hm hstop hlt _ ih =>
    have hle := le_length_of_mem_spansFrom hstart (List.mem_of_getElem? hm) hstop
    obtain ⟨-, hinside, hincreasing⟩ := ih hle
    refine ⟨?_, ?_, ?_⟩
    · intro x hx
      cases hx
      rfl
    · rw [List.forall_mem_cons]
      constructor
      · exact ⟨Nat.le_refl _, Nat.lt_of_lt_of_le hlt hle⟩
      · intro x hx
        have := hinside x hx
        omega
    · rw [List.map_cons, List.pairwise_cons]
      constructor
      · intro i hi
        obtain ⟨x, hx, rfl⟩ := List.mem_map.mp hi
        exact Nat.lt_of_lt_of_le hlt (hinside x hx).1
      · exact hincreasing

/-- A division of a whole word has the starts of its syllables. -/
theorem Divides.areStarts {picks : List Pick} {starts : List SyllableStart}
    (h : Divides inv s w 0 picks starts) : AreStarts w starts := by
  obtain ⟨hfirst, hinside, hincreasing⟩ := h.increasing (Nat.zero_le _)
  exact ⟨hfirst, hincreasing, fun x hx ↦ (hinside x hx).2⟩

end Steps

section Search

/-- The divisions that begin with one span of a shape. -/
private def onwards (inv : Inventory) (s : Syllabifier) (w : Word) (bound start : Nat)
    (shape : SyllablePattern) (m : Match) : Candidates (List SyllableStart) :=
  if m.stop.word ≠ 0 ∨ m.stop.segment ≤ start then .done
  else (s.divisions inv (.of (.ofWord w)) w.length bound m.stop.segment).map
    (⟨start, shape.matrix⟩ :: ·)

private theorem divisions_succ (bound : Nat) (hne : start ≠ w.length) :
    s.divisions inv (.of (.ofWord w)) w.length (bound + 1) start =
      s.patterns.foldr (fun shape others ↦ fun _ ↦ .choice fun _ ↦ .append (fun _ ↦
        (spansFrom inv w shape start).bind (onwards inv s w bound start shape)) others)
        (fun _ ↦ .done) () := by
  rw [divisions, if_neg hne]
  rfl

private theorem onwards_eq {bound stop : Nat} {shape : SyllablePattern} {m : Match}
    (hstop : m.stop = ⟨0, stop⟩) (hlt : start < stop) : onwards inv s w bound start shape m =
      (s.divisions inv (.of (.ofWord w)) w.length bound stop).map
        (⟨start, shape.matrix⟩ :: ·) := by
  rw [onwards, hstop, if_neg (by simp; omega)]

private theorem exists_of_head?_onwards {bound : Nat} {shape : SyllablePattern} {m : Match}
    {starts : List SyllableStart}
    (h : (onwards inv s w bound start shape m).offers.head? = some starts) :
    ∃ stop rest, m.stop = ⟨0, stop⟩ ∧ start < stop ∧ starts = ⟨start, shape.matrix⟩ :: rest ∧
      (s.divisions inv (.of (.ofWord w)) w.length bound stop).offers.head? = some rest := by
  rw [onwards] at h
  split at h
  · cases h
  · next hstop =>
    rw [not_or, Decidable.not_not, Nat.not_le] at hstop
    rw [Candidates.offers_map, List.head?_map, Option.map_eq_some_iff] at h
    obtain ⟨rest, hrest, rfl⟩ := h
    refine ⟨m.stop.segment, rest, ?_, hstop.2, rfl, hrest⟩
    rw [Position.ext_iff]
    exact ⟨hstop.1, rfl⟩

/-- Where the search for divisions is in vain there is none. -/
theorem not_divides_of_isVain {bound : Nat} (hstart : start ≤ w.length)
    (hbound : w.length ≤ bound + start)
    (h : (s.divisions inv (.of (.ofWord w)) w.length bound start).IsVain) {picks : List Pick}
    {starts : List SyllableStart} : ¬Divides inv s w start picks starts := by
  intro hdivides
  induction bound generalizing start picks starts with
  | zero =>
    rw [divisions, if_pos (by omega)] at h
    cases h.offers
  | succ bound ih =>
    cases hdivides with
    | finished =>
      rw [divisions, if_pos rfl] at h
      cases h.offers
    | @syllable _ stop pick shape m picks starts hshape hm hstop hlt hrest =>
      have hm := List.mem_of_getElem? hm
      have hle := le_length_of_mem_spansFrom hstart hm hstop
      rw [divisions_succ bound (by omega)] at h
      have hvain := Candidates.isVain_of_foldr h shape (List.mem_of_getElem? hshape)
      have honwards := (Candidates.isVain_bind.mp hvain).2 m hm
      rw [onwards_eq hstop hlt, Candidates.isVain_map] at honwards
      exact ih hle (by omega) honwards hrest

private theorem not_divides_of_onwards {bound stop : Nat} (hstart : start ≤ w.length)
    (hbound : w.length ≤ bound + 1 + start) {shape : SyllablePattern} {m : Match}
    (hvain : (onwards inv s w bound start shape m).IsVain)
    (hm : m ∈ (spansFrom inv w shape start).offers) (hstop : m.stop = ⟨0, stop⟩)
    (hlt : start < stop) {picks : List Pick} {starts : List SyllableStart} :
    ¬Divides inv s w stop picks starts := by
  rw [onwards_eq hstop hlt, Candidates.isVain_map] at hvain
  exact not_divides_of_isVain (le_length_of_mem_spansFrom hstart hm hstop) (by omega) hvain

/-- At the end of the word the division without syllables comes before all others. -/
private theorem isPreferred_finished : IsPreferred inv s w w.length [] [] := by
  constructor
  · exact .finished
  · intro others starts' hothers
    cases hothers with
    | finished => exact .inl rfl
    | syllable => exact .inr .nil

/-- The first span of the first shape that leads to a division, with the preferred division of what
follows it, comes before all others. -/
private theorem isPreferred_syllable {bound stop k n : Nat} (hstart : start ≤ w.length)
    (hbound : w.length ≤ bound + 1 + start) (hne : start ≠ w.length) {shape : SyllablePattern}
    {m : Match} {found : List SyllableStart}
    (hshape : Candidates.IsFirst s.patterns
      (fun shape ↦ (spansFrom inv w shape start).bind (onwards inv s w bound start shape)) k shape
      found)
    (hm : Candidates.IsFirst (spansFrom inv w shape start).offers
      (onwards inv s w bound start shape) n m found)
    (hstop : m.stop = ⟨0, stop⟩) (hlt : start < stop) {picks : List Pick}
    {starts : List SyllableStart} (hrest : IsPreferred inv s w stop picks starts) :
    IsPreferred inv s w start (⟨k, n⟩ :: picks) (⟨start, shape.matrix⟩ :: starts) := by
  constructor
  · exact .syllable hshape.member hm.member hstop hlt hrest.divides
  · intro others starts' hothers
    cases hothers with
    | finished => exact absurd rfl hne
    | @syllable _ stop' pick shape' m' others starts' hshape' hm' hstop' hlt' hrest' =>
      obtain ⟨k', n'⟩ := pick
      have hmem := List.mem_of_getElem? hm'
      have hearlier : ¬(onwards inv s w bound start shape' m').IsVain := fun hvain ↦
        not_divides_of_onwards hstart hbound hvain hmem hstop' hlt' hrest'
      rcases Nat.lt_trichotomy k' k with hk | rfl | hk
      · have hvain := hshape.vain k' hk shape' hshape'
        exact absurd ((Candidates.isVain_bind.mp hvain).2 m' hmem) hearlier
      · obtain rfl : shape' = shape := Option.some.inj (hshape'.symm.trans hshape.member)
        rcases Nat.lt_trichotomy n' n with hn | rfl | hn
        · exact absurd (hm.vain n' hn m' hm') hearlier
        · -- the same span leads to the same place, so the rest decides
          obtain rfl : m' = m := Option.some.inj (hm'.symm.trans hm.member)
          obtain rfl : stop' = stop := congrArg Position.segment (hstop'.symm.trans hstop)
          rcases hrest.least hrest' with rfl | hbefore
          · exact .inl rfl
          · exact .inr (.cons hbefore)
        · exact .inr (.rel (.inr ⟨rfl, hn⟩))
      · exact .inr (.rel (.inl hk))

/-- The first division that is found comes before all others. -/
theorem exists_isPreferred {bound : Nat} (hstart : start ≤ w.length)
    (hbound : w.length ≤ bound + start) {starts : List SyllableStart}
    (h : (s.divisions inv (.of (.ofWord w)) w.length bound start).offers.head? = some starts) :
    ∃ picks, IsPreferred inv s w start picks starts := by
  induction bound generalizing start starts with
  | zero =>
    obtain rfl : start = w.length := by omega
    rw [divisions, if_pos rfl] at h
    cases h
    exact ⟨[], isPreferred_finished⟩
  | succ bound ih =>
    by_cases hend : start = w.length
    · rw [divisions, if_pos hend] at h
      cases h
      subst hend
      exact ⟨[], isPreferred_finished⟩
    · rw [divisions_succ bound hend] at h
      obtain ⟨k, shape, hshape⟩ := Candidates.exists_isFirst_of_foldr h
      obtain ⟨n, m, hm⟩ := Candidates.exists_isFirst_of_bind hshape.head
      obtain ⟨stop, rest, hstop, hlt, rfl, hrest⟩ := exists_of_head?_onwards hm.head
      have hle := le_length_of_mem_spansFrom hstart (List.mem_of_getElem? hm.member) hstop
      obtain ⟨picks, hpicks⟩ := ih hle (by omega) hrest
      exact ⟨_, isPreferred_syllable hstart hbound hend hshape hm hstop hlt hpicks⟩

end Search

section Outcome

variable (lang : Language) (s : Syllabifier) (w : Word)

/-- A word is divided by patterns as the search for its divisions comes out. -/
theorem syllabify_of_patterns (hpatterns : s.isExplicit = false) : s.syllabify lang w =
    (s.divisions lang.inventory (.of (.ofWord w)) w.length w.length 0).first?
      (lang.budget "syllable patterns") >>= fun
    | some starts => .ok (applyDivision w starts)
    | none => .error (.of (.unsyllabifiable (String.ofList (lang.inventory.writeWord w)))) := by
  rw [syllabify, hpatterns]
  rfl

/-- What comes of dividing a word by patterns if no search fails. -/
inductive Outcome : Prop
  /-- The word has a division and is divided by the preferred one. -/
  | divided (picks : List Pick) (starts : List SyllableStart)
      (preferred : IsPreferred lang.inventory s w 0 picks starts)
      (eq : s.syllabify lang w = .ok (applyDivision w starts))
  /-- The word has no division. -/
  | undivided (none : ∀ picks starts, ¬Divides lang.inventory s w 0 picks starts)
      (eq : s.syllabify lang w =
        .error (.of (.unsyllabifiable (String.ofList (lang.inventory.writeWord w)))))

/-- A word is divided by the preferred division if it has one, unless a search fails. -/
theorem outcome (hpatterns : s.isExplicit = false)
    (hbudget : s.syllabify lang w ≠ .error (lang.budget "syllable patterns").exceeded)
    (hcaptures : ∀ number, s.syllabify lang w ≠ .error (.of (.unboundCapture number))) :
    Outcome lang s w := by
  have hlength : w.length ≤ w.length + 0 := Nat.le_refl _
  let search := s.divisions lang.inventory (.of (.ofWord w)) w.length w.length 0
  have heq := syllabify_of_patterns lang s w hpatterns
  cases hfound : search.first? (lang.budget "syllable patterns") with
  | error fault =>
    rw [hfound] at heq
    rcases Candidates.ending_of_firstAfter hfound with rfl | hending
    · exact absurd heq hbudget
    · have hkeeps : search.Keeps (fun _ ↦ True) fun fault ↦
          ∃ number, fault = .of (.unboundCapture number) :=
        s.divisions_keeps (fun number ↦ ⟨number, rfl⟩) lang.inventory w w.length (Nat.zero_le _)
          hlength
      obtain ⟨number, rfl⟩ := hkeeps.ending fault hending
      exact absurd heq (hcaptures number)
  | ok found =>
    rw [hfound] at heq
    cases found with
    | none =>
      have hvain := Candidates.isVain_of_first? hfound
      exact .undivided (fun _ _ ↦ not_divides_of_isVain (Nat.zero_le _) hlength hvain) heq
    | some starts =>
      have hfirst := Candidates.head?_offers_of_first? hfound
      obtain ⟨picks, hpreferred⟩ := exists_isPreferred (Nat.zero_le _) hlength hfirst
      exact .divided picks starts hpreferred heq

end Outcome

/-- Where no search fails, a word is divided exactly if spans of patterns lead from its start to its
end, by the division that comes before all others; else it is reported that it can not be divided. A
syllable has the matrix of its pattern, or the one that the word had at its start. -/
theorem syllabify_preferred (lang : Language) (s : Syllabifier) (w : Word)
    (hpatterns : s.isExplicit = false)
    (hbudget : s.syllabify lang w ≠ .error (lang.budget "syllable patterns").exceeded)
    (hcaptures : ∀ number, s.syllabify lang w ≠ .error (.of (.unboundCapture number))) :
    ((∃ v, s.syllabify lang w = .ok v) ↔
      Relation.ReflTransGen (MayStep lang.inventory s w) 0 w.length) ∧
    (¬Relation.ReflTransGen (MayStep lang.inventory s w) 0 w.length →
      s.syllabify lang w =
        .error (.of (.unsyllabifiable (String.ofList (lang.inventory.writeWord w))))) ∧
    ∀ v, s.syllabify lang w = .ok v → ∃ picks starts,
      IsPreferred lang.inventory s w 0 picks starts ∧ v.segments = w.segments ∧ v.isDivided ∧
      v.division.breaks.toList = (starts.map SyllableStart.start).tail ∧
      ∀ x ∈ starts, v.syllableMatrix x.start = x.matrix.getD (w.syllableMatrix x.start) := by
  cases outcome lang s w hpatterns hbudget hcaptures with
  | divided picks starts hpreferred heq =>
    have hreaches := hpreferred.divides.reaches
    have hstarts := hpreferred.divides.areStarts
    refine ⟨⟨fun _ ↦ hreaches, fun _ ↦ ⟨_, heq⟩⟩, fun hnone ↦ absurd hreaches hnone, ?_⟩
    intro v hv
    obtain rfl : applyDivision w starts = v := Except.ok.inj (heq.symm.trans hv)
    exact ⟨picks, starts, hpreferred, rfl, rfl, hstarts.toList_breaks,
      fun x hx ↦ hstarts.syllableMatrix hx⟩
  | undivided hnone heq =>
    have hunreached : ¬Relation.ReflTransGen (MayStep lang.inventory s w) 0 w.length := by
      intro hreaches
      obtain ⟨picks, starts, hdivides⟩ := exists_divides hreaches
      exact hnone picks starts hdivides
    have hfails : ∀ v, s.syllabify lang w ≠ .ok v := by
      intro v hv
      rw [heq] at hv
      cases hv
    refine ⟨⟨fun ⟨v, hv⟩ ↦ absurd hv (hfails v), fun h ↦ absurd h hunreached⟩, fun _ ↦ heq, ?_⟩
    intro v hv
    exact absurd hv (hfails v)

/-- With `ta` before `tat` the word `tatta` is divided before its second `ta`: after a first `ta`
nothing goes on. -/
theorem syllabify_preferred_tatta :
    let t := Segment.literal ['t']
    let a := Segment.literal ['a']
    let shapes := [SyllablePattern.mk (.text ⟨[t, a], none⟩) (some (.ofValues ["light"])),
      SyllablePattern.mk (.text ⟨[t, a, t], none⟩) none]
    let w : Word := ⟨[t, a, t, t, a], none⟩
    ∃ v, syllabify ⟨.empty, none, {}⟩ ⟨shapes⟩ w = .ok v ∧ v.division.breaks.toList = [3] ∧
      Relation.ReflTransGen (MayStep .empty ⟨shapes⟩ w) 0 5 ∧
      ∃ picks starts, IsPreferred .empty ⟨shapes⟩ w 0 picks starts ∧
        (starts.map SyllableStart.start).tail = [3] := by
  intro t a shapes w
  let v := w.divided (.ofBreaks [3] (.insert 3 (.ofValues ["light"]) ∅))
  have hv : syllabify ⟨.empty, none, {}⟩ ⟨shapes⟩ w = .ok v :=
    eq_ok_of_toOption (by decide +kernel)
  obtain ⟨hiff, -, hresult⟩ := syllabify_preferred ⟨.empty, none, {}⟩ ⟨shapes⟩ w rfl
    (by rw [hv]; nofun) (by rw [hv]; nofun)
  obtain ⟨picks, starts, hpreferred, -, -, hbreaks, -⟩ := hresult v hv
  exact ⟨v, hv, rfl, hiff.mp ⟨v, hv⟩, picks, starts, hpreferred, hbreaks.symm⟩

end Syllabifier

end Diachrony
