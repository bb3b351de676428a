import Diachrony.Proofs.Change.AtOnce
import Diachrony.Proofs.Change.Directed

/-!
# What is known of every edit

Every edit that an expression finds was resolved from a match at a position under one of its
conditions. So what holds of these holds of all edits: of those of a pass over a phrase, of the
first and the last one, and, for a rule that sees all of a phrase, of what it accepts and of what it
finds next.
-/

namespace Diachrony

variable {lang : Language} {good : Phrase → Edit → Prop}

namespace Expression

/-- The edit at a position is good if the matches under the conditions are resolved to such. -/
theorem editAt_of_matches {e : Expression} {scan : Scan} {limit : Option Position} {priority : Nat}
    {start : Position} {good : Edit → Prop} {suits : TiledMatch → Prop}
    (hmatches : ∀ condition ∈ e.settings,
      (e.matchesAt lang scan limit start condition).Keeps suits fun _ ↦ True)
    (hresolve : ∀ m, suits m → Ensures good (fun _ ↦ True)
      (Edit.resolve lang.inventory scan.phrase priority start m.stop m.pieces m.bindings)) :
    Ensures (fun found ↦ ∀ edit ∈ found, good edit) (fun _ ↦ True)
      (e.editAt lang scan limit priority start) := by
  rw [editAt]
  generalize e.settings = conditions at hmatches
  induction conditions with
  | nil =>
    refine .ok fun edit hedit ↦ ?_
    cases hedit
  | cons condition rest ih =>
    obtain ⟨hfirst, hrest⟩ := List.forall_mem_cons.mp hmatches
    rw [editUnder]
    refine (hfirst.first? trivial).bind fun found hfound ↦ ?_
    cases found with
    | none => exact ih hrest
    | some m =>
      refine (hresolve m (hfound m rfl)).map fun edit hedit found hfound ↦ ?_
      cases hfound
      exact hedit

/-- Whether all edits that an expression finds at positions of a phrase are good. -/
def FindsOnly (lang : Language) (e : Expression) (good : Phrase → Edit → Prop) : Prop :=
  ∀ (scan : Scan) limit priority start,
    Ensures (fun found ↦ ∀ edit ∈ found, good scan.phrase edit) (fun _ ↦ True)
      (e.editAt lang scan limit priority start)

variable {e : Expression}

/-- An expression finds only good edits if its matches under its conditions are resolved to such. -/
theorem findsOnly_of_matches {suits : Scan → Position → TiledMatch → Prop}
    (hmatches : ∀ scan limit start, ∀ condition ∈ e.settings,
      (e.matchesAt lang scan limit start condition).Keeps (suits scan start) fun _ ↦ True)
    (hresolve : ∀ scan priority start m, suits scan start m →
      Ensures (good scan.phrase) (fun _ ↦ True) (Edit.resolve lang.inventory scan.phrase priority
        start m.stop m.pieces m.bindings)) :
    e.FindsOnly lang good :=
  fun scan limit priority start ↦
    editAt_of_matches (hmatches scan limit start) (hresolve scan priority start)

namespace FindsOnly

variable (h : e.FindsOnly lang good)
include h

/-- The edits of one pass over some positions are good. -/
theorem editsFrom (scan : Scan) (priority : Nat) (cursor : Position) (positions : List Position) :
    Ensures (fun edits ↦ ∀ edit ∈ edits, good scan.phrase edit) (fun _ ↦ True)
      (e.editsFrom lang scan priority cursor positions) := by
  induction positions generalizing cursor with
  | nil => exact .ok (List.forall_mem_nil _)
  | cons start rest ih =>
    rw [Expression.editsFrom]
    split
    · exact ih cursor
    · refine (h scan none priority start).bind fun found hfound ↦ ?_
      cases found with
      | none => exact ih cursor
      | some edit =>
        refine (ih edit.stop).bind fun others hothers ↦ .ok ?_
        exact List.forall_mem_cons.mpr ⟨hfound edit rfl, hothers⟩

/-- The edits of one pass over a phrase are good. -/
theorem edits (p : Phrase) (priority : Nat) :
    Ensures (fun edits ↦ ∀ edit ∈ edits, good p edit) (fun _ ↦ True)
      (e.edits lang p priority) := by
  rw [Expression.edits]
  exact (Ensures.anything _).bind fun positions _ ↦
    h.editsFrom (Scan.of p) priority p.start positions

/-- The edit at the first of some positions that has one is good. -/
theorem firstAmong (scan : Scan) (limit : Option Position) (priority : Nat)
    (positions : List Position) :
    Ensures (fun found ↦ ∀ edit ∈ found, good scan.phrase edit) (fun _ ↦ True)
      (e.firstAmong lang scan limit priority positions) := by
  induction positions with
  | nil =>
    refine .ok fun edit hedit ↦ ?_
    cases hedit
  | cons start rest ih =>
    rw [Expression.firstAmong]
    refine (h scan limit priority start).bind fun found hfound ↦ ?_
    cases found with
    | none => exact ih
    | some edit => exact .ok hfound

/-- The first edit from a position on is good. -/
theorem firstEdit? (p : Phrase) (start : Position) (priority : Nat) :
    Ensures (fun found ↦ ∀ edit ∈ found, good p edit) (fun _ ↦ True)
      (e.firstEdit? lang p start priority) := by
  rw [Expression.firstEdit?]
  exact (Ensures.anything _).bind fun positions _ ↦ h.firstAmong (Scan.of p) none priority _

/-- The last edit before a limit is good. -/
theorem lastEdit? (p : Phrase) (limit : Option Position) (priority : Nat) :
    Ensures (fun found ↦ ∀ edit ∈ found, good p edit) (fun _ ↦ True)
      (e.lastEdit? lang p limit priority) := by
  rw [Expression.lastEdit?]
  exact (Ensures.anything _).bind fun positions _ ↦ h.firstAmong (Scan.of p) limit priority _

end FindsOnly

end Expression

namespace SimpleRule

/-- What expressions claim is good if they find only good edits. -/
theorem claims_findsOnly {expressions : List Expression}
    (h : ∀ e ∈ expressions, e.FindsOnly lang good) (p : Phrase) (priority : Nat) :
    Ensures (fun claimed ↦ ∀ edits ∈ claimed, ∀ edit ∈ edits, good p edit) (fun _ ↦ True)
      (claims lang p priority expressions) := by
  induction expressions generalizing priority with
  | nil => exact .ok (List.forall_mem_nil _)
  | cons e rest ih =>
    rw [List.forall_mem_cons] at h
    rw [claims]
    refine (h.1.edits p priority).bind fun edits hedits ↦ ?_
    exact (ih h.2 (priority + 1)).bind fun others hothers ↦
      .ok (List.forall_mem_cons.mpr ⟨hedits, hothers⟩)

variable {r : SimpleRule} (h : ∀ e ∈ r.expressions, e.FindsOnly lang good)
include h

/-- What a rule accepts in a phrase that it sees all of is good. -/
theorem Settles.findsOnly {p : Phrase} {claimed : List (List Edit)} {accepted edits : List Edit}
    (hsettles : r.Settles lang p none claimed accepted edits) : ∀ edit ∈ edits, good p edit := by
  intro edit hedit
  obtain ⟨es, hes, hmem⟩ :=
    hsettles.acceptance.claimed edit (hsettles.perm_accepted.subset hedit)
  exact (claims_findsOnly h p 0).of_ok hsettles.claims es hes edit hmem

variable (hfilter : r.filter = none)
include hfilter

/-- What a rule without a filter finds next is good. -/
theorem nextEdit?_findsOnly (p : Phrase) (cursor : Position) :
    Ensures (fun found ↦ ∀ edit ∈ found, good p edit) (fun _ ↦ True)
      (r.nextEdit? lang p cursor) := by
  rw [nextEdit?, selection?_of_unfiltered hfilter]
  exact bestEdit?_ensures _ fun e he priority ↦ (h e he).firstEdit? p cursor priority

/-- What a rule without a filter finds before a limit is good. -/
theorem previousEdit?_findsOnly (p : Phrase) (limit : Option Position) :
    Ensures (fun found ↦ ∀ edit ∈ found, good p edit) (fun _ ↦ True)
      (r.previousEdit? lang p limit) := by
  rw [previousEdit?, selection?_of_unfiltered hfilter]
  exact bestEdit?_ensures _ fun e he priority ↦ (h e he).lastEdit? p limit priority

section Relating

/-! A rule without a filter that finds only good edits relates a phrase to what it makes of it, if
every splice of good edits does and the relation is transitive. -/

variable {related : Phrase → Phrase → Prop}
  (htrans : ∀ p q s, related p q → related q s → related p s)
  (hfollows : ∀ p e, good p e →
    Follows p e.start (e.replacements.map Replacement.span) p.stop)
  (hsplice : ∀ p edits, (∀ e ∈ edits, good p e) → InOrder p p.start edits p.stop →
    Ensures (fun s ↦ related p s.phrase) (fun _ ↦ True) (p.splice lang.inventory edits))

include hsplice

/-- Edits that are made at once relate a phrase to the outcome. -/
theorem applyAtOnce_relates (p : Phrase) :
    Ensures (fun found ↦ ∀ q ∈ found, related p q) (fun _ ↦ True) (r.applyAtOnce lang p) := by
  have haccepted : Ensures (fun edits ↦ (∀ e ∈ edits, good p e) ∧ InOrder p p.start edits p.stop)
      (fun _ ↦ True) (r.acceptedEdits lang p) := by
    refine .intro (fun edits hedits ↦ ?_) fun _ _ ↦ trivial
    obtain ⟨claimed, accepted, hsettles⟩ := exists_settles_of_unfiltered hfilter hedits
    exact ⟨Settles.findsOnly h hsettles, hsettles.inOrder⟩
  rw [applyAtOnce]
  refine haccepted.bind fun edits hedits ↦ ?_
  obtain ⟨hgood, horder⟩ := hedits
  cases edits with
  | nil =>
    refine .ok fun q hq ↦ ?_
    cases hq
  | cons e rest =>
    refine (hsplice p _ hgood horder).bind fun s hs ↦ .ok fun q hq ↦ ?_
    cases hq
    exact hs

include hfollows

omit h hfilter in
private theorem spliceOne_relates {p : Phrase} {e : Edit} (he : good p e) :
    Ensures (fun result ↦ related p result.1) (fun _ ↦ True)
      (p.spliceOne lang.inventory e) := by
  have horder : InOrder p p.start [e] p.stop :=
    ⟨Phrase.start_le e.start, p.stop, hfollows p e he, le_refl _⟩
  rw [Phrase.spliceOne]
  refine (hsplice p [e] (List.forall_mem_singleton.mpr he) horder).bind fun s hs ↦ ?_
  cases s.spans with
  | nil => exact .error trivial
  | cons span _ => exact .ok hs

/-- A round from the left relates a phrase to the next one. -/
theorem forwardsRound_relates (p : Phrase) (cursor : Position) :
    Ensures (fun found ↦ ∀ result ∈ found, related p result.1) (fun _ ↦ True)
      (r.forwardsRound lang p cursor) := by
  rw [forwardsRound]
  refine (nextEdit?_findsOnly h hfilter p cursor).bind fun found hfound ↦ ?_
  cases found with
  | none =>
    refine .ok fun result hresult ↦ ?_
    cases hresult
  | some e =>
    refine (spliceOne_relates hfollows hsplice (hfound e rfl)).bind fun made hmade ↦ ?_
    refine .ok fun result hresult ↦ ?_
    cases hresult
    exact hmade

/-- A round from the right relates a phrase to the next one. -/
theorem backwardsRound_relates (p : Phrase) (limit : Option Position) :
    Ensures (fun found ↦ ∀ result ∈ found, related p result.1) (fun _ ↦ True)
      (r.backwardsRound lang p limit) := by
  rw [backwardsRound]
  refine (previousEdit?_findsOnly h hfilter p limit).bind fun found hfound ↦ ?_
  cases found with
  | none =>
    refine .ok fun result hresult ↦ ?_
    cases hresult
  | some e =>
    refine (spliceOne_relates hfollows hsplice (hfound e rfl)).bind fun made hmade ↦ ?_
    refine .ok fun result hresult ↦ ?_
    cases hresult
    exact hmade

include htrans

/-- A pass from the left goes on relating a phrase to what becomes of it. -/
theorem forwardsFrom_relates {p q : Phrase} (hq : related p q) (n : Nat)
    (cursor : Option Position) :
    Ensures (related p) (fun _ ↦ True) (r.forwardsFrom lang n q cursor) := by
  induction n generalizing q cursor with
  | zero =>
    cases cursor with
    | none => exact .ok hq
    | some c => exact .error trivial
  | succ n ih =>
    cases cursor with
    | none => exact .ok hq
    | some c =>
      rw [forwardsFrom]
      refine (forwardsRound_relates h hfilter hfollows hsplice q c).bind fun found hfound ↦ ?_
      cases found with
      | none => exact .ok hq
      | some result => exact ih (htrans p q _ hq (hfound result rfl)) result.2

/-- A pass from the right goes on relating a phrase to what becomes of it. -/
theorem backwardsFrom_relates {p q : Phrase} (hq : related p q) (n : Nat) (limit : Position) :
    Ensures (related p) (fun _ ↦ True) (r.backwardsFrom lang n q limit) := by
  induction n generalizing q limit with
  | zero => exact .error trivial
  | succ n ih =>
    rw [backwardsFrom]
    refine (backwardsRound_relates h hfilter hfollows hsplice q (some limit)).bind
      fun found hfound ↦ ?_
    cases found with
    | none => exact .ok hq
    | some result => exact ih (htrans p q _ hq (hfound result rfl)) result.2

/-- Whatever its mode, the rule relates a phrase to what it makes of it. -/
theorem apply_relates (p : Phrase) :
    Ensures (fun found ↦ ∀ q ∈ found, related p q) (fun _ ↦ True) (r.apply lang p) := by
  rw [apply]
  split
  · exact applyAtOnce_relates h hfilter hsplice p
  · rw [applyForwards]
    refine (forwardsRound_relates h hfilter hfollows hsplice p p.start).bind fun found hfound ↦ ?_
    cases found with
    | none =>
      refine .ok fun q hq ↦ ?_
      cases hq
    | some result =>
      have hpass := forwardsFrom_relates h hfilter htrans hfollows hsplice (hfound result rfl)
        (p.positions.length + spareChanges) result.2
      refine hpass.bind fun q hq ↦ .ok fun q' hq' ↦ ?_
      cases hq'
      exact hq
  · rw [applyBackwards]
    refine (backwardsRound_relates h hfilter hfollows hsplice p none).bind fun found hfound ↦ ?_
    cases found with
    | none =>
      refine .ok fun q hq ↦ ?_
      cases hq
    | some result =>
      have hpass := backwardsFrom_relates h hfilter htrans hfollows hsplice (hfound result rfl)
        p.positions.length result.2
      refine hpass.bind fun q hq ↦ .ok fun q' hq' ↦ ?_
      cases hq'
      exact hq

end Relating

end SimpleRule

end Diachrony
