import Diachrony.Proofs.Change.Exhaustive
import Diachrony.Proofs.Change.Rules
import Diachrony.Proofs.Phrase.Retelling

/-!
# Passes from the left

A pass from the left is a run of rounds, each from a phrase and a cursor to a phrase and a cursor.
An edit that replaces something leaves fewer positions from the cursor on than there were, so a run
of such edits has at most as many rounds as the phrase has positions. An edit that replaces nothing
leaves the segments of the phrase and puts the cursor back behind the first position, wherever it
stood: then the pass comes by what it has written, and may go round forever.
-/

namespace Diachrony

/-- Number of positions of a phrase from a cursor on. -/
def Phrase.remaining (p : Phrase) : Option Position → Nat
  | none => 0
  | some cursor => (p.positions.filter fun i ↦ cursor ≤ i).length

/-- From a position on there are all positions but those before it. -/
theorem Phrase.remaining_some {p : Phrase} {i : Position} (hi : p.isPosition i) :
    p.remaining (some i) + p.offset i = p.size := by
  have hlt := offset_lt_size hi
  rw [remaining, length_filter_positions hi]
  omega

namespace SimpleRule

variable (lang : Language) (r : SimpleRule)

/-- A round from the left makes an edit at a cursor or behind it, and goes on behind what it
wrote. -/
structure ForwardsStep (p : Phrase) (cursor : Position) (e : Edit) (q : Phrase)
    (next : Option Position) : Prop where
  /-- The edit is the first one from the cursor on. -/
  found : r.nextEdit? lang p cursor = .ok (some e)
  /-- The edit is spliced into the phrase, and what it wrote tells where the round ends. -/
  made : ∃ start stop, p.spliceOne lang.inventory e = .ok (q, start, stop) ∧
    next = if e.isInsertion then q.next? stop else some stop

/-- Rounds from the left, one after the other, with the edits that they make. -/
inductive ForwardsRun : Phrase → Option Position → List Edit → Phrase → Option Position → Prop
  /-- No round is made. -/
  | none (p : Phrase) (cursor : Option Position) : ForwardsRun p cursor [] p cursor
  /-- A round comes before others. -/
  | more {p q q' : Phrase} {cursor : Position} {next cursor' : Option Position} {e : Edit}
      {edits : List Edit} (first : r.ForwardsStep lang p cursor e q next)
      (rest : ForwardsRun q next edits q' cursor') :
      ForwardsRun p (some cursor) (e :: edits) q' cursor'

variable {lang r} {p q : Phrase} {cursor : Position} {next : Option Position} {e : Edit}

section Steps

/-- An edit that replaces nothing leaves the segments of the phrase, and it counts as written at the
start. -/
theorem IsFound.spliceOne_of_replacements_eq_nil (h : r.IsFound p e) (hnil : e.replacements = [])
    (inv : Inventory) : e.isInsertion ∧
      ∃ q, p.spliceOne inv e = .ok (q, p.start, p.start) ∧ q.spelling = p.spelling := by
  obtain ⟨seen, found, hseen, hfits, rfl⟩ := h
  have hfollows := follows_widenIn hseen hfits
  have hplace : found.start = found.stop := by
    have htiles := hfits.tiles
    have hfound : found.replacements = [] := by
      cases seen with
      | none => exact hnil
      | some s => exact List.map_eq_nil_iff.mp hnil
    rw [hfound] at htiles
    exact Eq.symm htiles
  refine ⟨?_, (p.slice p.start p.stop).normalized, ?_, ?_⟩
  · rw [Edit.isInsertion_iff]
    cases seen with
    | none => exact hplace
    | some s => exact (if_pos hplace).symm
  · rw [Phrase.spliceOne_eq inv (hfollows.1.symm ▸ hfollows.2), hnil]
    simp only [List.foldl_nil]
    rw [Splicing.finish_of_changes_eq_nil Phrase.isPosition_start rfl inv, Phrase.empty_append]
    rfl
  · exact (Phrase.Retells.slice_start p p.stop).comesOut.spelling_eq

/-- The edit that a rule finds at a cursor or behind it is one that it may find. -/
theorem isFound_of_nextEdit? (hcursor : p.isPosition cursor)
    (h : r.nextEdit? lang p cursor = .ok (some e)) : cursor ≤ e.start ∧ r.IsFound p e := by
  have hensures := @nextEdit?_ensures (fun _ ↦ True) (fun _ _ ↦ trivial) lang r
    (fun _ _ _ _ _ _ _ ↦ .anything _) _ _ hcursor
  exact hensures.of_ok h e rfl

/-- A round leaves a cursor in the phrase. If its edit replaces something, fewer positions are left
from there on; if not, the segments stay, and the cursor goes behind the first position. -/
theorem ForwardsStep.moves (h : r.ForwardsStep lang p cursor e q next)
    (hcursor : p.isPosition cursor) :
    (∀ c ∈ next, q.isPosition c) ∧
    (e.replacements ≠ [] → q.remaining next < p.remaining (some cursor)) ∧
    (e.replacements = [] → q.spelling = p.spelling ∧ next = q.next? q.start) := by
  obtain ⟨hle, hfound⟩ := isFound_of_nextEdit? hcursor h.found
  obtain ⟨start, stop, hmade, hnext⟩ := h.made
  have hlands : e.Lands p q start stop :=
    (@IsFound.spliceOne_ensures _ _ _ hfound (fun _ ↦ True) (fun _ _ ↦ trivial) _).of_ok hmade
  have hgoesOn (c : Position) (hc : c ∈ next) :=
    hfound.goesOn hlands hcursor hle (hnext ▸ hc : c ∈ if e.isInsertion then _ else _)
  refine ⟨fun c hc ↦ (hgoesOn c hc).1, fun hne ↦ ?_, fun hnil ↦ ?_⟩
  · have hbefore := Phrase.remaining_some hcursor
    have hlt := Phrase.offset_lt_size hcursor
    cases next with
    | none =>
      rw [Phrase.remaining]
      omega
    | some c =>
      obtain ⟨hposition, hfewer⟩ := hgoesOn c rfl
      have hafter := Phrase.remaining_some hposition
      have := hfewer hne
      omega
  · obtain ⟨hinsertion, q', hq', hspelling⟩ :=
      hfound.spliceOne_of_replacements_eq_nil hnil lang.inventory
    rw [hmade] at hq'
    cases hq'
    exact ⟨hspelling, by rw [hnext, if_pos hinsertion]; rfl⟩

end Steps

section Runs

variable {edits : List Edit} {cursor cursor' : Option Position}

/-- A run leaves its cursor in the phrase. -/
theorem ForwardsRun.isPosition (h : r.ForwardsRun lang p cursor edits q cursor')
    (hcursor : ∀ c ∈ cursor, p.isPosition c) : ∀ c ∈ cursor', q.isPosition c := by
  induction h with
  | none p cursor => exact hcursor
  | more first rest ih => exact ih (first.moves (hcursor _ rfl)).1

/-- A run whose edits replace something has as many rounds as positions are left behind, at the
most. -/
theorem ForwardsRun.length_add_remaining_le (h : r.ForwardsRun lang p cursor edits q cursor')
    (hcursor : ∀ c ∈ cursor, p.isPosition c) (hne : ∀ e ∈ edits, e.replacements ≠ []) :
    edits.length + q.remaining cursor' ≤ p.remaining cursor := by
  induction h with
  | none p cursor => exact Nat.le_of_eq (Nat.zero_add _)
  | more first rest ih =>
    rw [List.forall_mem_cons] at hne
    obtain ⟨hposition, hfewer, -⟩ := first.moves (hcursor _ rfl)
    have := ih hposition hne.2
    have := hfewer hne.1
    rw [List.length_cons]
    omega

/-- A run from the start whose edits replace something has as many rounds as the phrase has
positions, at the most. -/
theorem ForwardsRun.length_le_positions (h : r.ForwardsRun lang p (some p.start) edits q cursor')
    (hne : ∀ e ∈ edits, e.replacements ≠ []) : edits.length ≤ p.positions.length := by
  have hle := h.length_add_remaining_le (fun _ hc ↦ by cases hc; exact Phrase.isPosition_start) hne
  have hall := Phrase.remaining_some (p := p) Phrase.isPosition_start
  rw [Phrase.length_positions]
  omega

end Runs

section Loop

variable (lang r)

/-- What is done at a cursor is a round, or there is no edit from the cursor on. -/
theorem forwardsRound_makes {cursor : Position} (hcursor : p.isPosition cursor) :
    Ensures (fun result ↦ (result = none → r.nextEdit? lang p cursor = .ok none) ∧
      ∀ q next, result = some (q, next) → ∃ e, r.ForwardsStep lang p cursor e q next)
      (· ≠ Finder.stalled) (r.forwardsRound lang p cursor) := by
  have hnext := nextEdit?_ensures Fault.ne_stalled_of_isMistake lang (r := r)
    (fun _ _ o _ ↦ o.produces_ne_stalled lang.inventory) hcursor
  rw [forwardsRound]
  refine hnext.withEq.bind fun found h ↦ ?_
  obtain ⟨hsearch, hfound⟩ := h
  cases found with
  | none => exact .ok ⟨fun _ ↦ hsearch, by rintro _ _ ⟨⟩⟩
  | some e =>
    have hsplice := (hfound e rfl).2.spliceOne_ensures Fault.ne_stalled_of_isMistake lang.inventory
    refine hsplice.withEq.bind fun spliced hspliced ↦ ?_
    obtain ⟨q, start, stop⟩ := spliced
    refine .ok ⟨(by rintro ⟨⟩), fun q' next heq ↦ ?_⟩
    cases heq
    exact ⟨e, hsearch, start, stop, hspliced.1, rfl⟩

/-- The loop makes rounds until there is no edit or no position left, or until it is out of fuel. -/
theorem forwardsFrom_makes (n : Nat) {cursor : Option Position}
    (hcursor : ∀ c ∈ cursor, p.isPosition c) :
    Ensures (fun q ↦ ∃ edits cursor', r.ForwardsRun lang p cursor edits q cursor' ∧
        ∀ c ∈ cursor', r.nextEdit? lang q c = .ok none)
      (fun fault ↦ fault = Finder.stalled → ∃ edits q cursor',
        r.ForwardsRun lang p cursor edits q cursor' ∧ edits.length = n)
      (r.forwardsFrom lang n p cursor) := by
  have hnone (p : Phrase) : ∃ edits cursor', r.ForwardsRun lang p none edits p cursor' ∧
      ∀ c ∈ cursor', r.nextEdit? lang p c = .ok none :=
    ⟨[], none, .none p none, fun _ h ↦ nomatch h⟩
  induction n generalizing p cursor with
  | zero =>
    cases cursor with
    | none => exact .ok (hnone p)
    | some c => exact .error fun _ ↦ ⟨[], p, some c, .none p (some c), rfl⟩
  | succ n ih =>
    cases cursor with
    | none => exact .ok (hnone p)
    | some c =>
      rw [forwardsFrom]
      have hround := forwardsRound_makes lang r (hcursor c rfl)
      refine (hround.allow fun fault hne heq ↦ absurd heq hne).bind fun result hresult ↦ ?_
      cases result with
      | none =>
        refine .ok ⟨[], some c, .none p (some c), fun i hi ↦ ?_⟩
        cases hi
        exact hresult.1 rfl
      | some result =>
        obtain ⟨q, next⟩ := result
        obtain ⟨e, hfirst⟩ := hresult.2 q next rfl
        have hrest := ih (hfirst.moves (hcursor c rfl)).1
        refine (hrest.mono fun q' _ h ↦ ?_).allow fun fault h heq ↦ ?_
        · obtain ⟨edits, cursor', hruns, hlast⟩ := h
          exact ⟨e :: edits, cursor', .more hfirst hruns, hlast⟩
        · obtain ⟨edits, q', cursor', hruns, hlength⟩ := h heq
          exact ⟨e :: edits, q', cursor', .more hfirst hruns, congrArg (· + 1) hlength⟩

/-- From the left a rule makes rounds until there is no edit or no position left. It is out of fuel
only behind a round whose edit replaces nothing. -/
theorem applyForwards_makes (p : Phrase) :
    Ensures (fun result ↦ ∃ edits q cursor,
        r.ForwardsRun lang p (some p.start) edits q cursor ∧
          (∀ c ∈ cursor, r.nextEdit? lang q c = .ok none) ∧
          result = if edits = [] then none else some q)
      (fun fault ↦ fault = Finder.stalled → ∃ edits q cursor,
        r.ForwardsRun lang p (some p.start) edits q cursor ∧ ∃ e ∈ edits, e.replacements = [])
      (r.applyForwards lang p) := by
  rw [applyForwards]
  have hround := forwardsRound_makes lang r (p := p) Phrase.isPosition_start
  refine (hround.allow fun fault hne heq ↦ absurd heq hne).bind fun result hresult ↦ ?_
  cases result with
  | none =>
    refine .ok ⟨[], p, some p.start, .none p (some p.start), fun c hc ↦ ?_, rfl⟩
    cases hc
    exact hresult.1 rfl
  | some result =>
    obtain ⟨q, next⟩ := result
    obtain ⟨e, hfirst⟩ := hresult.2 q next rfl
    have hrest := forwardsFrom_makes lang r (p.positions.length + spareChanges)
      (hfirst.moves Phrase.isPosition_start).1
    refine (hrest.allow fun fault h heq ↦ ?_).bind fun q' h ↦ ?_
    · obtain ⟨edits, q', cursor', hruns, hmany⟩ := h heq
      refine ⟨e :: edits, q', cursor', .more hfirst hruns, ?_⟩
      by_contra hnone
      simp only [not_exists, not_and] at hnone
      have hle := (ForwardsRun.more hfirst hruns).length_le_positions hnone
      rw [List.length_cons] at hle
      omega
    · obtain ⟨edits, cursor', hruns, hlast⟩ := h
      exact .ok ⟨e :: edits, q', cursor', .more hfirst hruns, hlast, rfl⟩

end Loop

/-- A rule that is applied from the left makes rounds until there is no edit or no position left.
A round whose edit replaces something leaves fewer positions from the cursor on, and a run of such
rounds has at most as many as the phrase has positions. A round whose edit replaces nothing leaves
the segments and goes on behind the first position; without such a round the rule does not fail to
come to an end. -/
theorem apply_forwards (lang : Language) (hmode : r.mode = .leftToRight) (p : Phrase) :
    (∀ q cursor e q' next, q.isPosition cursor → r.ForwardsStep lang q cursor e q' next →
      if e.replacements = [] then q'.spelling = q.spelling ∧ next = q'.next? q'.start
      else q'.remaining next < q.remaining (some cursor)) ∧
    (∀ edits q cursor, r.ForwardsRun lang p (some p.start) edits q cursor →
      (∀ e ∈ edits, e.replacements ≠ []) → edits.length ≤ p.positions.length) ∧
    (∀ result, r.apply lang p = .ok result → ∃ edits q cursor,
      r.ForwardsRun lang p (some p.start) edits q cursor ∧
        (∀ c ∈ cursor, r.nextEdit? lang q c = .ok none) ∧
        result = if edits = [] then none else some q) ∧
    (r.apply lang p = .error Finder.stalled → ∃ edits q cursor,
      r.ForwardsRun lang p (some p.start) edits q cursor ∧ ∃ e ∈ edits, e.replacements = []) := by
  have heq : r.apply lang p = r.applyForwards lang p := by rw [apply, hmode]
  have hends := applyForwards_makes lang r p
  refine ⟨fun q cursor e q' next hcursor hround ↦ ?_,
    fun edits q cursor hrun ↦ hrun.length_le_positions,
    fun result hresult ↦ hends.of_ok (heq ▸ hresult), fun hfault ↦ ?_⟩
  · obtain ⟨-, hfewer, hnil⟩ := hround.moves hcursor
    split
    · next h => exact hnil h
    · next h => exact hfewer h
  · exact hends.of_error (heq ▸ hfault) rfl

/-- In `xa`, with `a` becoming `b`, `b` becoming `c` and a match of nothing behind `b`, the rule
comes by the `b` that it has written: the round that matches nothing goes back from the end, where
one position is left, to the second of three. -/
theorem apply_forwards_xa :
    let x := Segment.literal ['x']
    let word (last : Char) : Word := ⟨[x, .literal [last]], none⟩
    let turn (old new : Char) : Expression :=
      { pairing := .single (.text ⟨[.literal [old]], none⟩) (.text ⟨[.literal [new]], none⟩)
        text := "" }
    let idle : Expression :=
      { pairing := .sequence [], conditions := [⟨.text ⟨[.literal ['b']], none⟩, .empty⟩]
        text := "" }
    let r : SimpleRule :=
      { expressions := [turn 'a' 'b', turn 'b' 'c', idle], mode := .leftToRight }
    (∃ edits q cursor,
      r.ForwardsRun { inventory := .empty } (.ofWord (word 'a')) (some ⟨0, 0⟩) edits q cursor ∧
        edits ≠ [] ∧ q = .ofWord (word 'c')) ∧
      ∃ e next, r.ForwardsStep { inventory := .empty } (.ofWord (word 'b')) ⟨0, 2⟩ e
          (.ofWord (word 'b')) next ∧ next = (Phrase.ofWord (word 'b')).next? ⟨0, 0⟩ ∧
        (Phrase.ofWord (word 'b')).remaining (some ⟨0, 2⟩) = 1 ∧
        (Phrase.ofWord (word 'b')).remaining next = 2 := by
  intro x word turn idle r
  have happly : r.apply { inventory := .empty } (.ofWord (word 'a')) =
      .ok (some (.ofWord (word 'c'))) := by decide +kernel
  have hround : r.ForwardsStep { inventory := .empty } (.ofWord (word 'b')) ⟨0, 2⟩
      ⟨2, ⟨0, 2⟩, ⟨0, 2⟩, []⟩ (.ofWord (word 'b')) (some ⟨0, 1⟩) :=
    ⟨by decide +kernel, ⟨0, 0⟩, ⟨0, 0⟩, by decide +kernel, by decide +kernel⟩
  have hforwards := apply_forwards (r := r) { inventory := .empty } rfl (.ofWord (word 'a'))
  refine ⟨?_, _, _, hround, ?_, by decide +kernel, by decide +kernel⟩
  · obtain ⟨edits, q, cursor, hruns, -, hq⟩ := hforwards.2.2.1 _ happly
    have hne : edits ≠ [] := by
      rintro rfl
      cases hq
    rw [if_neg hne] at hq
    exact ⟨edits, q, cursor, hruns, hne, (Option.some.inj hq).symm⟩
  · have hback := hforwards.1 _ _ _ _ _ (by decide +kernel) hround
    rw [if_pos rfl] at hback
    exact hback.2

/-- Over `xa` a match of nothing behind `a` is made again and again: there are runs of every
length. -/
theorem forwardsRun_without_end (n : Nat) :
    let p : Phrase := .ofWord ⟨[.literal ['x'], .literal ['a']], none⟩
    let idle : Expression :=
      { pairing := .sequence [], conditions := [⟨.text ⟨[.literal ['a']], none⟩, .empty⟩]
        text := "" }
    let r : SimpleRule := { expressions := [idle], mode := .leftToRight }
    ∃ edits, r.ForwardsRun { inventory := .empty } p (some ⟨0, 1⟩) edits p (some ⟨0, 1⟩) ∧
      edits.length = n := by
  intro p idle r
  have hround : r.ForwardsStep { inventory := .empty } p ⟨0, 1⟩ ⟨0, ⟨0, 2⟩, ⟨0, 2⟩, []⟩ p
      (some ⟨0, 1⟩) :=
    ⟨by decide +kernel, ⟨0, 0⟩, ⟨0, 0⟩, by decide +kernel, by decide +kernel⟩
  induction n with
  | zero => exact ⟨[], .none p _, rfl⟩
  | succ n ih =>
    obtain ⟨edits, hruns, hlength⟩ := ih
    exact ⟨_ :: edits, .more hround hruns, congrArg (· + 1) hlength⟩

end SimpleRule

end Diachrony
