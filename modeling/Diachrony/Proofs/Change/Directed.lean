import Diachrony.Proofs.Change.Seen
import Diachrony.Proofs.Change.SpliceOne

/-!
# Rules that make one edit after another

A rule that applies its expressions from one side makes one edit after another. Every edit moves its
place in the phrase on: from the left fewer positions are behind the cursor than before, and from
the right fewer positions are in front of the limit. So the positions of the phrase bound the number
of edits, and the rule comes to an end, if from the left every match has something that is replaced.
-/

namespace Diachrony

namespace SimpleRule

/-- Whether every match of every expression has a part that is replaced. -/
def hasPieces (r : SimpleRule) : Bool := r.expressions.all (·.pairing.hasPieces)

/-- Whether an edit of the full phrase is one that fits in what the rule sees. -/
def IsFound (r : SimpleRule) (p : Phrase) (e : Edit) : Prop :=
  ∃ seen found, (∀ s ∈ seen, s.Within p) ∧ found.Fits (seenPhrase p seen) r.hasPieces ∧
    e = widenIn seen found

namespace IsFound

variable {r : SimpleRule} {p q : Phrase} {e : Edit} {start stop : Position}

/-- A found edit is not turned around. -/
theorem le (h : r.IsFound p e) : e.start ≤ e.stop := by
  obtain ⟨seen, found, hseen, hfits, rfl⟩ := h
  exact start_widenIn_le hseen hfits

/-- A found edit starts in the phrase. -/
theorem isPosition_start (h : r.IsFound p e) : p.isPosition e.start := by
  obtain ⟨seen, found, hseen, hfits, rfl⟩ := h
  rw [(follows_widenIn hseen hfits).1]
  exact isPosition_placeIn hseen hfits.isPosition_start

/-- A found edit lands in the phrase. -/
theorem spliceOne_ensures (h : r.IsFound p e) {allowed : Fault → Prop}
    (hmistake : ∀ fault : Fault, fault.isMistake → allowed fault) (inv : Inventory) :
    Ensures (fun (q, start, stop) ↦ e.Lands p q start stop) allowed (p.spliceOne inv e) := by
  obtain ⟨seen, found, hseen, hfits, rfl⟩ := h
  have hfollows := follows_widenIn hseen hfits
  exact Phrase.spliceOne_ensures hmistake inv (hfollows.1.symm ▸ hfollows.2)
    (start_head_widenIn hfits)

/-- A found edit replaces something if every match has a part that is replaced. -/
theorem replaces (h : r.IsFound p e) (hpieces : r.hasPieces) : e.replacements ≠ [] := by
  obtain ⟨seen, found, hseen, hfits, rfl⟩ := h
  exact replacements_widenIn_ne_nil hfits hpieces

/-- Behind what a found edit wrote there are no more positions than behind its end, if it replaces
something. -/
theorem size_le (h : r.IsFound p e) (hlands : e.Lands p q start stop) (hne : e.replacements ≠ []) :
    q.size + p.offset e.stop ≤ p.size + q.offset stop := by
  obtain ⟨seen, found, hseen, hfits, rfl⟩ := h
  have hlast := List.getLast?_eq_some_getLast hne
  have hbehind := Phrase.offset_le_offset (isPosition_stop_widenIn hseen hfits)
    (stop_getLast_widenIn hseen hfits _ hlast)
  have := hlands.offset_stop _ hlast
  omega

/-- Behind an edit a pass from the left goes on at a position that has fewer positions behind it
than the cursor had, if the edit replaces something. -/
theorem goesOn (h : r.IsFound p e) (hlands : e.Lands p q start stop) {cursor next : Position}
    (hcursor : p.isPosition cursor) (hfrom : cursor ≤ e.start)
    (hnext : next ∈ if e.isInsertion then q.next? stop else some stop) :
    q.isPosition next ∧
      (e.replacements ≠ [] → q.size + p.offset cursor < p.size + q.offset next) := by
  have hstart := Phrase.offset_le_offset hcursor hfrom
  split at hnext
  · next hinsertion =>
    have heq : e.start = e.stop := of_decide_eq_true hinsertion
    obtain ⟨hposition, hlt⟩ := Phrase.isPosition_of_next? hlands.isPosition_stop hnext
    have hoffset := Phrase.offset_lt_offset hlands.isPosition_stop hlt
    refine ⟨hposition, fun hne ↦ ?_⟩
    have := h.size_le hlands hne
    rw [← heq] at this
    omega
  · next hmatch =>
    cases hnext
    have hlt : e.start < e.stop :=
      lt_of_le_of_ne h.le fun heq ↦ hmatch (decide_eq_true heq)
    have hoffset := Phrase.offset_lt_offset h.isPosition_start hlt
    refine ⟨hlands.isPosition_stop, fun hne ↦ ?_⟩
    have := h.size_le hlands hne
    omega

end IsFound

section Rounds

variable {allowed : Fault → Prop}

/-- The best of some edits is one of them. -/
theorem bestEdit?_ensures {good : Edit → Prop} (better : Edit → Edit → Bool)
    {offer : Expression → Nat → Except Fault (Option Edit)} {expressions : List Expression}
    (h : ∀ e ∈ expressions, ∀ priority,
      Ensures (fun found ↦ ∀ edit ∈ found, good edit) allowed (offer e priority)) :
    Ensures (fun found ↦ ∀ edit ∈ found, good edit) allowed
      (bestEdit? better offer expressions) := by
  refine Ensures.foldlM (fun _ h ↦ nomatch h) fun indexed hmem best hbest ↦ ?_
  refine (h indexed.1 (List.fst_mem_of_mem_zipIdx hmem) indexed.2).bind fun found hfound ↦ ?_
  cases best with
  | none => exact .ok hfound
  | some b =>
    cases found with
    | none => exact .ok hbest
    | some other =>
      refine .ok fun edit hedit ↦ ?_
      split at hedit
      · exact hfound edit hedit
      · exact hbest edit hedit

private theorem widen?_ensures {s : Selection} {edit : Edit} {hasPieces : Bool}
    (h : edit.Fits s.phrase hasPieces) :
    Ensures (fun widened ↦ widened = s.widen edit) allowed (s.widen? edit) := by
  rw [Selection.widen?_eq h]
  exact .ok rfl

private theorem fits_of_expression {r : SimpleRule} {p : Phrase} {e : Expression} {edit : Edit}
    (he : e ∈ r.expressions) (h : edit.Fits p e.pairing.hasPieces) : edit.Fits p r.hasPieces :=
  ⟨h.isPosition_start, h.tiles, fun hpieces ↦ h.replaces (List.all_eq_true.mp hpieces e he)⟩

variable (hmistake : ∀ fault : Fault, fault.isMistake → allowed fault)
  (lang : Language) {r : SimpleRule}
  (houtputs : ∀ e ∈ r.expressions, ∀ o ∈ e.pairing.outputs, o.Produces allowed lang.inventory)
include hmistake houtputs

/-- The next edit that a rule finds from a cursor on stands at the cursor or after it. -/
theorem nextEdit?_ensures {p : Phrase} {cursor : Position} (hcursor : p.isPosition cursor) :
    Ensures (fun found ↦ ∀ edit ∈ found, cursor ≤ edit.start ∧ r.IsFound p edit) allowed
      (r.nextEdit? lang p cursor) := by
  rw [nextEdit?]
  refine (r.selection?_ensures hmistake lang p).bind fun seen hseen ↦ ?_
  have hoffer (from' : Position) : ∀ e ∈ r.expressions, ∀ priority, Ensures
      (fun found ↦ ∀ edit ∈ found, from' ≤ edit.start ∧ edit.Fits (seenPhrase p seen) r.hasPieces)
      allowed (e.firstEdit? lang (seenPhrase p seen) from' priority) := by
    intro e he priority
    refine (e.firstEdit?_ensures hmistake lang (houtputs e he) _ from' priority).mono
      fun found _ h edit hedit ↦ ?_
    exact ⟨(h edit hedit).1, fits_of_expression he (h edit hedit).2⟩
  cases seen with
  | none =>
    refine (bestEdit?_ensures _ (hoffer cursor)).mono fun found _ h edit hedit ↦ ?_
    exact ⟨(h edit hedit).1, none, edit, hseen, (h edit hedit).2, rfl⟩
  | some s =>
    have hwithin := hseen s rfl
    rw [show (!p.isPosition cursor) = false by rw [hcursor, Bool.not_true]]
    refine (bestEdit?_ensures _ (hoffer (s.narrow cursor))).bind fun found hfound ↦ ?_
    cases found with
    | none => exact .ok fun _ h ↦ (nomatch h)
    | some edit =>
      obtain ⟨hfrom, hfits⟩ := hfound edit rfl
      refine (widen?_ensures hfits).bind fun widened hwidened ↦ .ok fun other hother ↦ ?_
      cases hother
      rw [hwidened]
      exact ⟨hwithin.le_fullStart_of_narrow_le hcursor hfrom, some s, edit, hseen, hfits, rfl⟩

/-- The last edit that a rule finds before a limit stands before it. -/
theorem previousEdit?_ensures {p : Phrase} {limit : Option Position}
    (hlimit : ∀ l ∈ limit, p.isPosition l) :
    Ensures (fun found ↦ ∀ edit ∈ found, (∀ l ∈ limit, edit.start < l) ∧ r.IsFound p edit) allowed
      (r.previousEdit? lang p limit) := by
  rw [previousEdit?]
  refine (r.selection?_ensures hmistake lang p).bind fun seen hseen ↦ ?_
  have hoffer (limit : Option Position) : ∀ e ∈ r.expressions, ∀ priority, Ensures
      (fun found ↦ ∀ edit ∈ found, (∀ l ∈ limit, edit.start < l) ∧
        edit.Fits (seenPhrase p seen) r.hasPieces)
      allowed (e.lastEdit? lang (seenPhrase p seen) limit priority) := by
    intro e he priority
    refine (e.lastEdit?_ensures hmistake lang (houtputs e he) _ limit priority).mono
      fun found _ h edit hedit ↦ ?_
    exact ⟨(h edit hedit).1, fits_of_expression he (h edit hedit).2⟩
  cases seen with
  | none =>
    refine (bestEdit?_ensures _ (hoffer limit)).mono fun found _ h edit hedit ↦ ?_
    exact ⟨(h edit hedit).1, none, edit, hseen, (h edit hedit).2, rfl⟩
  | some s =>
    have hwithin := hseen s rfl
    have hinside : limit.all p.isPosition = true := by
      cases limit with
      | none => rfl
      | some l => exact hlimit l rfl
    rw [show (!limit.all p.isPosition) = false by rw [hinside, Bool.not_true]]
    refine (bestEdit?_ensures _ (hoffer (limit.map s.narrow))).bind fun found hfound ↦ ?_
    cases found with
    | none => exact .ok fun _ h ↦ (nomatch h)
    | some edit =>
      obtain ⟨hbefore, hfits⟩ := hfound edit rfl
      refine (widen?_ensures hfits).bind fun widened hwidened ↦ .ok fun other hother ↦ ?_
      cases hother
      rw [hwidened]
      refine ⟨fun l hl ↦ ?_, some s, edit, hseen, hfits, rfl⟩
      exact hwithin.fullStart_lt_of_lt_narrow (hbefore _ (Option.mem_map_of_mem _ hl))

/-- A round from the left leaves a cursor in the phrase, with fewer positions behind it than before
if every match has something that is replaced. -/
theorem forwardsRound_ensures {p : Phrase} {cursor : Position} (hcursor : p.isPosition cursor) :
    Ensures (fun result ↦ ∀ q next, result = some (q, next) → ∀ c ∈ next, q.isPosition c ∧
      (r.hasPieces → q.size + p.offset cursor < p.size + q.offset c)) allowed
      (r.forwardsRound lang p cursor) := by
  rw [forwardsRound]
  refine (nextEdit?_ensures hmistake lang houtputs hcursor).bind fun found hfound ↦ ?_
  cases found with
  | none => exact .ok fun _ _ h ↦ (nomatch h)
  | some e =>
    obtain ⟨hfrom, hfound⟩ := hfound e rfl
    refine (hfound.spliceOne_ensures hmistake lang.inventory).bind fun (q, start, stop) hlands ↦ ?_
    refine .ok fun q' next heq c hc ↦ ?_
    cases heq
    obtain ⟨hposition, hfewer⟩ := hfound.goesOn hlands hcursor hfrom hc
    exact ⟨hposition, fun hpieces ↦ hfewer (hfound.replaces hpieces)⟩

/-- A pass from the left comes to an end within as many rounds as there are positions behind the
cursor, or some match has nothing that is replaced. -/
theorem forwardsFrom_ensures (hstalled : ¬r.hasPieces → allowed Finder.stalled) (n : Nat)
    {p : Phrase} {cursor : Option Position} (hcursor : ∀ c ∈ cursor, p.isPosition c)
    (hn : r.hasPieces → ∀ c ∈ cursor, p.size ≤ n + p.offset c) :
    Ensures (fun _ ↦ True) allowed (r.forwardsFrom lang n p cursor) := by
  induction n generalizing p cursor with
  | zero =>
    cases cursor with
    | none => exact .ok trivial
    | some c =>
      rw [forwardsFrom]
      refine .error (hstalled fun hpieces ↦ ?_)
      have := Phrase.offset_lt_size (hcursor c rfl)
      have := hn hpieces c rfl
      omega
  | succ n ih =>
    cases cursor with
    | none => exact .ok trivial
    | some c =>
      rw [forwardsFrom]
      refine (forwardsRound_ensures hmistake lang houtputs (hcursor c rfl)).bind
        fun result hresult ↦ ?_
      cases result with
      | none => exact .ok trivial
      | some result =>
        obtain ⟨q, next⟩ := result
        have hnext := hresult q next rfl
        refine ih (fun d hd ↦ (hnext d hd).1) fun hpieces d hd ↦ ?_
        have := (hnext d hd).2 hpieces
        have := hn hpieces c rfl
        omega

/-- A rule that is applied from the left comes to an end, or some match has nothing that is
replaced. -/
theorem applyForwards_ensures (hstalled : ¬r.hasPieces → allowed Finder.stalled) (p : Phrase) :
    Ensures (fun _ ↦ True) allowed (r.applyForwards lang p) := by
  rw [applyForwards]
  refine (forwardsRound_ensures hmistake lang houtputs Phrase.isPosition_start).bind
    fun result hresult ↦ ?_
  cases result with
  | none => exact .ok trivial
  | some result =>
    obtain ⟨q, next⟩ := result
    have hnext := hresult q next rfl
    have hfrom : Ensures (fun _ ↦ True) allowed
        (r.forwardsFrom lang (p.positions.length + spareChanges) q next) := by
      refine forwardsFrom_ensures hmistake lang houtputs hstalled _ (fun c hc ↦ (hnext c hc).1)
        fun hpieces c hc ↦ ?_
      have := (hnext c hc).2 hpieces
      rw [Phrase.length_positions]
      omega
    exact hfrom.bind fun _ _ ↦ .ok trivial

/-- A round from the right leaves a limit in the phrase that stands before the last one. -/
theorem backwardsRound_ensures {p : Phrase} {limit : Option Position}
    (hlimit : ∀ l ∈ limit, p.isPosition l) :
    Ensures (fun result ↦ ∀ q next, result = some (q, next) → q.isPosition next ∧
      q.offset next < p.size ∧ ∀ l ∈ limit, q.offset next < p.offset l) allowed
      (r.backwardsRound lang p limit) := by
  rw [backwardsRound]
  refine (previousEdit?_ensures hmistake lang houtputs hlimit).bind fun found hfound ↦ ?_
  cases found with
  | none => exact .ok fun _ _ h ↦ (nomatch h)
  | some e =>
    obtain ⟨hbefore, hfound⟩ := hfound e rfl
    refine (hfound.spliceOne_ensures hmistake lang.inventory).bind fun (q, start, stop) hlands ↦ ?_
    refine .ok fun q' next heq ↦ ?_
    cases heq
    have hle := hlands.offset_start
    refine ⟨hlands.isPosition_start, ?_, fun l hl ↦ ?_⟩
    · exact Nat.lt_of_le_of_lt hle (Phrase.offset_lt_size hfound.isPosition_start)
    · exact Nat.lt_of_le_of_lt hle
        (Phrase.offset_lt_offset hfound.isPosition_start (hbefore l hl))

/-- A pass from the right comes to an end within as many rounds as there are positions before the
limit. -/
theorem backwardsFrom_ensures (n : Nat) {p : Phrase} {limit : Position}
    (hlimit : p.isPosition limit) (hn : p.offset limit < n) :
    Ensures (fun _ ↦ True) allowed (r.backwardsFrom lang n p limit) := by
  induction n generalizing p limit with
  | zero => exact absurd hn (Nat.not_lt_zero _)
  | succ n ih =>
    rw [backwardsFrom]
    have hlimits : ∀ l ∈ some limit, p.isPosition l := by
      intro l hl
      cases hl
      exact hlimit
    refine (backwardsRound_ensures hmistake lang houtputs hlimits).bind fun result hresult ↦ ?_
    cases result with
    | none => exact .ok trivial
    | some result =>
      obtain ⟨hposition, -, hbefore⟩ := hresult result.1 result.2 rfl
      exact ih hposition (Nat.lt_of_lt_of_le (hbefore limit rfl) (Nat.le_of_lt_succ hn))

/-- A rule that is applied from the right comes to an end. -/
theorem applyBackwards_ensures (p : Phrase) :
    Ensures (fun _ ↦ True) allowed (r.applyBackwards lang p) := by
  rw [applyBackwards]
  have hnone : ∀ l ∈ (none : Option Position), p.isPosition l := fun _ h ↦ (nomatch h)
  refine (backwardsRound_ensures hmistake lang houtputs hnone).bind fun result hresult ↦ ?_
  cases result with
  | none => exact .ok trivial
  | some result =>
    obtain ⟨hposition, hlt, -⟩ := hresult result.1 result.2 rfl
    have hfrom := backwardsFrom_ensures hmistake lang houtputs p.positions.length hposition
      (Phrase.length_positions ▸ hlt)
    exact hfrom.bind fun _ _ ↦ .ok trivial

end Rounds

end SimpleRule

end Diachrony
