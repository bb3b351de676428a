import Diachrony.Proofs.Pattern.Ahead
import Diachrony.Proofs.Pattern.Reach

/-!
# Captures in undivided phrases

Whatever a pattern looks at, all that it captures is cut from the phrase in which it is matched or
from the reversal of that phrase. So if the phrase is undivided, everything that a search binds is
undivided too.
-/

namespace Diachrony

/-- Whether a phrase is undivided in both directions of reading. -/
structure Scan.IsUndivided (scan : Scan) : Prop where
  /-- The phrase in the direction of reading. -/
  phrase : scan.phrase.IsUndivided
  /-- The phrase in the other direction. -/
  back : scan.back.IsUndivided

namespace Scan.IsUndivided

/-- An undivided phrase is undivided both ways. -/
theorem of {p : Phrase} (hp : p.IsUndivided) : (Scan.of p).IsUndivided := ⟨hp, hp.reversed⟩

/-- An undivided phrase read the other way. -/
theorem turned {scan : Scan} (h : scan.IsUndivided) : scan.turned.IsUndivided := ⟨h.back, h.phrase⟩

end Scan.IsUndivided

namespace Finder

/-- Whether a search leaves bindings undivided in undivided phrases, whatever follows. -/
def BindsUndivided (f : Finder) : Prop :=
  ∀ following scan start b, scan.IsUndivided → b.IsUndivided →
    (f following scan start b).Keeps (fun m ↦ m.bindings.IsUndivided) fun _ ↦ True

/-- An end that depends on the phrase alone binds nothing. -/
theorem bindsUndivided_ofEnd (stop? : Phrase → Position → Option Position) :
    (ofEnd stop?).BindsUndivided := by
  intro following scan start b _ hb
  rw [ofEnd]
  split
  · exact .pure hb
  · exact .done

/-- A tested empty span binds nothing. -/
theorem bindsUndivided_emptyIf (test : Phrase → Position → Bool) :
    (emptyIf test).BindsUndivided := bindsUndivided_ofEnd _

/-- A tested segment captures nothing. -/
theorem bindsUndivided_segmentWith (inv : Inventory) (values : Matrix)
    (matrixAt? : Phrase → Position → Option Matrix) :
    (segmentWith inv values matrixAt?).BindsUndivided := by
  intro following scan start b _ hb
  rw [segmentWith]
  split
  · next bound hbound =>
    obtain ⟨m, -, htest⟩ := Option.bind_eq_some_iff.mp hbound
    refine .pure fun number ↦ ?_
    rw [Bindings.capture?, Matrix.captures_test htest]
    exact hb number
  · exact .done

/-- A negation binds nothing. -/
theorem bindsUndivided_negated {inner : Finder} (h : inner.BindsUndivided) :
    inner.negated.BindsUndivided := by
  intro following scan start b hscan hb
  rw [negated]
  split
  · exact .done
  · refine (h none scan start b hscan hb).find fun found _ ↦ ?_
    cases found with
    | none => exact .pure hb
    | some m => exact .done

/-- A sequence binds what its parts bind. -/
theorem bindsUndivided_sequence {finders : List Finder} (h : ∀ f ∈ finders, f.BindsUndivided) :
    (sequence finders).BindsUndivided := by
  induction finders with
  | nil =>
    intro following scan start b _ hb
    exact .pure hb
  | cons first rest ih =>
    intro following scan start b hscan hb
    rw [List.forall_mem_cons] at h
    exact (h.1 _ scan start b hscan hb).bind fun m hm ↦
      ih h.2 none scan m.stop m.bindings hscan hm

/-- An alternative binds what one of its parts binds. -/
theorem bindsUndivided_alternative {finders : List Finder} (h : ∀ f ∈ finders, f.BindsUndivided) :
    (alternative finders).BindsUndivided := by
  induction finders with
  | nil =>
    intro following scan start b _ _
    exact .done
  | cons first rest ih =>
    intro following scan start b hscan hb
    rw [List.forall_mem_cons] at h
    exact .choice (.append (h.1 following scan start b hscan hb)
      (ih h.2 following scan start b hscan hb))

/-- A look at what follows binds nothing. -/
theorem bindsUndivided_takesOver {following : Option Probe} {scan : Scan} {start : Position}
    {b : Bindings} {next : Bool → Candidates Match} {kept : Match → Prop}
    (hnext : ∀ refused, (next refused).Keeps kept fun _ ↦ True) :
    (takesOver following scan start b next).Keeps kept fun _ ↦ True := by
  cases following with
  | none => exact hnext false
  | some probe => exact (Candidates.keeps_anything _).find fun found _ ↦ hnext found.isSome

/-- Repetitions bind what the repeated search binds. -/
theorem keeps_repeatAfter_isUndivided {inner : Finder} (h : inner.BindsUndivided) (min : Nat)
    (max : Option Nat) (following : Option Probe) {scan : Scan} (hscan : scan.IsUndivided)
    (bound count : Nat) (start : Position) {b : Bindings} (hb : b.IsUndivided) :
    (repeatAfter inner min max following scan bound count start b).Keeps
      (fun m ↦ m.bindings.IsUndivided) fun _ ↦ True := by
  induction bound generalizing count start b with
  | zero => exact .fail trivial
  | succ bound ih =>
    have hstay : (Candidates.pure (⟨start, b⟩ : Match)).Keeps (fun m ↦ m.bindings.IsUndivided)
        fun _ ↦ True := .pure hb
    have hextend : (oneMore inner min max following scan bound count start b).Keeps
        (fun m ↦ m.bindings.IsUndivided) fun _ ↦ True := by
      refine (h none scan start b hscan hb).bind fun m hm ↦ ?_
      split
      · split
        · exact .done
        · exact .pure hm
      · exact ih (count + 1) m.stop hm
    rw [repeatAfter_succ]
    refine .choice ?_
    dsimp only
    split
    · split
      · refine bindsUndivided_takesOver fun refused ↦ ?_
        split
        · exact .append hstay hextend
        · exact .append hextend hstay
      · exact hextend
    · split
      · exact hstay
      · exact .done

/-- A repeater binds what the repeated search binds. -/
theorem bindsUndivided_repeater {inner : Finder} (h : inner.BindsUndivided) (min : Nat)
    (max : Option Nat) : (inner.repeater min max).BindsUndivided :=
  fun following _ start _ hscan hb ↦
    keeps_repeatAfter_isUndivided h min max following hscan _ 0 start hb

/-- A capture binds a fragment of the phrase, or the reversal of one. -/
theorem bindsUndivided_capture {inner : Finder} (h : inner.BindsUndivided) (number : Nat)
    (reversed : Bool) : (inner.capture number reversed).BindsUndivided := by
  intro following scan start b hscan hb
  refine (h following scan start b hscan hb).bind fun m hm ↦ ?_
  split
  · exact .fail trivial
  · next span hspan =>
    have hspan : span.IsUndivided := by
      rw [Phrase.slice?] at hspan
      split at hspan
      · cases hspan
        exact hscan.phrase.slice _ _
      · cases hspan
    refine .pure (hm.bindCapture number ?_)
    split
    · exact hspan.reversed
    · exact hspan

/-- Checks bind what is bound in them. -/
theorem keeps_checksHold_isUndivided {scan : Scan} (hscan : scan.IsUndivided) (start : Position)
    {checks : List (Finder × Bool)} (h : ∀ check ∈ checks, check.1.BindsUndivided) {b : Bindings}
    (hb : b.IsUndivided) :
    (checksHold scan start checks b).Keeps Bindings.IsUndivided fun _ ↦ True := by
  induction checks generalizing b with
  | nil => exact .pure hb
  | cons check rest ih =>
    obtain ⟨finder, negated⟩ := check
    rw [List.forall_mem_cons] at h
    rw [checksHold]
    refine (h.1 none scan start b hscan hb).find fun found hfound ↦ ?_
    cases found with
    | none =>
      dsimp only
      split
      · exact ih h.2 hb
      · exact .done
    | some m =>
      dsimp only
      split
      · exact .done
      · exact ih h.2 (hfound m rfl)

/-- An intersection binds what its parts bind. -/
theorem bindsUndivided_intersection {initial : Finder} {checks : List (Finder × Bool)}
    (hinitial : initial.BindsUndivided) (h : ∀ check ∈ checks, check.1.BindsUndivided) :
    (intersection initial checks).BindsUndivided := by
  intro following scan start b hscan hb
  refine (hinitial following scan start b hscan hb).bind fun m hm ↦ ?_
  exact (keeps_checksHold_isUndivided hscan start h hm).map fun bound hbound ↦ hbound

section Around

variable {scan : Scan} (hscan : scan.IsUndivided) (start stop : Position)
include hscan

/-- The surroundings of a span bind what their sides bind. -/
theorem keeps_around_isUndivided {sides : Finder × Finder}
    (h : sides.1.BindsUndivided ∧ sides.2.BindsUndivided) {b : Bindings} (hb : b.IsUndivided) :
    (around sides scan start stop b).Keeps Bindings.IsUndivided fun _ ↦ True := by
  rw [around]
  split
  · exact .fail trivial
  · refine (h.1 none scan.turned _ b hscan.turned hb).bind fun m hm ↦ ?_
    exact (h.2 none scan stop m.bindings hscan hm).map fun n hn ↦ hn

/-- One of some surroundings of a span binds what its sides bind. -/
theorem keeps_inSome_isUndivided {conditions : List (Finder × Finder)}
    (h : ∀ sides ∈ conditions, sides.1.BindsUndivided ∧ sides.2.BindsUndivided) {b : Bindings}
    (hb : b.IsUndivided) :
    (inSome scan start stop b conditions).Keeps Bindings.IsUndivided fun _ ↦ True := by
  induction conditions with
  | nil => exact .done
  | cons sides rest ih =>
    rw [List.forall_mem_cons] at h
    exact .append (keeps_around_isUndivided hscan start stop h.1 hb) (ih h.2)

end Around

/-- What exclusions guard goes on with the same bindings. -/
theorem keeps_unlessAround_isUndivided {scan : Scan} {start stop : Position} {b : Bindings}
    {next : Unit → Candidates Match} {kept : Match → Prop}
    (hnext : (next ()).Keeps kept fun _ ↦ True) (exclusions : List (Finder × Finder)) :
    (unlessAround scan start stop b next exclusions).Keeps kept fun _ ↦ True := by
  induction exclusions with
  | nil => exact hnext
  | cons sides rest ih =>
    rw [unlessAround]
    refine (Candidates.keeps_anything _).find fun found _ ↦ ?_
    cases found with
    | none => exact ih
    | some _ => exact .done

/-- An environment binds what its core and its conditions bind. -/
theorem bindsUndivided_environment {core : Finder} {conditions : List (Finder × Finder)}
    (hcore : core.BindsUndivided)
    (h : ∀ sides ∈ conditions, sides.1.BindsUndivided ∧ sides.2.BindsUndivided)
    (exclusions : List (Finder × Finder)) :
    (environment core conditions exclusions).BindsUndivided := by
  intro following scan start b hscan hb
  refine (hcore following scan start b hscan hb).bind fun m hm ↦ ?_
  refine keeps_unlessAround_isUndivided ?_ exclusions
  split
  · exact .pure hm
  · exact (keeps_inSome_isUndivided hscan start m.stop h hm).map fun bound hbound ↦ hbound

/-- A reference to a capture binds nothing. -/
theorem bindsUndivided_captureReference (inv : Inventory) (number : Nat) (exact reversed : Bool) :
    (captureReference inv number exact reversed).BindsUndivided := by
  intro following scan start b _ hb
  rw [captureReference]
  split
  · exact .fail trivial
  · dsimp only
    split
    · exact .pure hb
    · exact .done

end Finder

mutual

/-- The search for a pattern leaves bindings undivided in undivided phrases. -/
theorem Pattern.finder_bindsUndivided (inv : Inventory) :
    (p : Pattern) → (p.finder inv).BindsUndivided
  | .empty | .never | .wordStart | .wordEnd | .syllableBoundary => Finder.bindsUndivided_emptyIf _
  | .betweenWords | .text _ | .symbol _ | .syllable => Finder.bindsUndivided_ofEnd _
  | .matrix values | .syllableMatrix values => Finder.bindsUndivided_segmentWith inv values _
  | .negated inner => Finder.bindsUndivided_negated (inner.finder_bindsUndivided inv)
  | .sequence items => Finder.bindsUndivided_sequence (Pattern.finders_bindUndivided inv items)
  | .alternative options =>
    Finder.bindsUndivided_alternative (Pattern.finders_bindUndivided inv options)
  | .repeater inner min max =>
    Finder.bindsUndivided_repeater (inner.finder_bindsUndivided inv) min max
  | .capture inner number reversed =>
    Finder.bindsUndivided_capture (inner.finder_bindsUndivided inv) number reversed
  | .intersection initial checks =>
    Finder.bindsUndivided_intersection (initial.finder_bindsUndivided inv)
      (Check.finders_bindUndivided inv checks)
  | .environment core conditions _ =>
    Finder.bindsUndivided_environment (core.finder_bindsUndivided inv)
      (Surroundings.finders_bindUndivided inv conditions) _
  | .captureReference number exact reversed =>
    Finder.bindsUndivided_captureReference inv number exact reversed

/-- The searches for patterns leave bindings undivided in undivided phrases. -/
theorem Pattern.finders_bindUndivided (inv : Inventory) :
    (ps : List Pattern) → ∀ f ∈ Pattern.finders inv ps, f.BindsUndivided
  | [] => List.forall_mem_nil _
  | p :: rest => List.forall_mem_cons.mpr
    ⟨p.finder_bindsUndivided inv, Pattern.finders_bindUndivided inv rest⟩

/-- The searches for checks leave bindings undivided in undivided phrases. -/
theorem Check.finders_bindUndivided (inv : Inventory) :
    (checks : List Check) → ∀ check ∈ Check.finders inv checks, check.1.BindsUndivided
  | [] => List.forall_mem_nil _
  | .mk p _ :: rest => List.forall_mem_cons.mpr
    ⟨p.finder_bindsUndivided inv, Check.finders_bindUndivided inv rest⟩

/-- The searches for both sides of surroundings leave bindings undivided in undivided phrases. -/
theorem Surroundings.finders_bindUndivided (inv : Inventory) : (l : List Surroundings) →
    ∀ sides ∈ Surroundings.finders inv l, sides.1.BindsUndivided ∧ sides.2.BindsUndivided
  | [] => List.forall_mem_nil _
  | .mk behind ahead :: rest => List.forall_mem_cons.mpr
    ⟨⟨behind.finder_bindsUndivided inv, ahead.finder_bindsUndivided inv⟩,
      Surroundings.finders_bindUndivided inv rest⟩

end

end Diachrony
