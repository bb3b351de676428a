import Mathlib.Data.List.Nodup
import Mathlib.Data.List.Pairwise
import Diachrony.Proofs.Linking.Accepted
import Diachrony.Proofs.Linking.Deferred
import Diachrony.Proofs.Pipeline.Likeness

/-!
# Inert statements

A romanizer without expressions and a deferred rule without expressions do nothing where they stand.
If their name is new they may be put between the statements of an accepted program: the statements
behind them are accepted, for all that is declared besides is that name, and they are linked alike,
for a romanizer adds an idle step and a deferred rule adds none.
-/

namespace Diachrony.Syntax

/-- Name of the rule or the romanizer of a statement. -/
def Statement.stepName? : Statement → Option String
  | rule r => some r.name
  | romanizer r => some r.name
  | soundClass _ _ | element _ _ | syllables _ | cleanupOff _ => none

/-- Whether a statement of some name does nothing where it stands. -/
inductive Statement.IsInert (inv : Inventory) (scope : Scope) (name : String) : Statement → Prop
  /-- A romanizer without expressions. -/
  | romanizer : IsInert inv scope name (.romanizer ⟨name, .expressions []⟩)
  /-- A deferred rule without expressions, whose filter is accepted if it has one. -/
  | deferred {modifiers : Modifiers} {cleanup : Bool}
      (h : ∀ filter ∈ modifiers.filter, scope.checkInput inv .input filter = .ok ()) :
      IsInert inv scope name (.rule ⟨name, .expressions [], modifiers, cleanup, true⟩)

section Checking

variable {inv : Inventory} {deferred deferred' : List String} {c c' d : Checked} {s : Statement}
  {name : String}

/-- A statement that is accepted is accepted with more deferred rules. -/
theorem Checked.Accepts.mono (h : c.Accepts inv deferred s d) (hdeferred : deferred ⊆ deferred') :
    c.Accepts inv deferred' s d := by
  cases h with
  | soundClass hnew hmembers => exact .soundClass hnew hmembers
  | element hnew hbody => exact .element hnew hbody
  | shapes hshapes => exact .shapes hshapes
  | clear => exact .clear
  | explicit => exact .explicit
  | cleanupOff hknown => exact .cleanupOff hknown
  | rule hname hfilter hbody =>
    exact .rule hname hfilter (Body.check_persists hdeferred _ _ 0 _ _ hbody)
  | romanizer hname hromanizer =>
    exact .romanizer hname (romanizer_persists hdeferred inv c _ _ hromanizer)

/-- Statements of other names do not take a name. -/
theorem Checked.Accepts.not_mem_steps (h : c.Accepts inv deferred s d)
    (hname : s.stepName? ≠ some name) (hc : name ∉ c.steps) : name ∉ d.steps := by
  cases h with
  | soundClass _ _ | element _ _ | shapes _ | clear | explicit | cleanupOff _ => exact hc
  | rule _ _ _ | romanizer _ _ =>
    have hne : name ≠ _ := fun heq ↦ hname (congrArg some heq.symm)
    exact List.not_mem_cons_of_ne_of_not_mem hne hc

/-- Statements of other names do not take a name. -/
theorem Checked.not_mem_steps_of_foldlM {statements : List Statement}
    (hname : ∀ t ∈ statements, t.stepName? ≠ some name) (hc : name ∉ c.steps)
    (h : statements.foldlM (Checked.statement inv deferred) c = .ok d) : name ∉ d.steps := by
  have hkeeps : Ensures (fun d : Checked ↦ name ∉ d.steps) (fun _ ↦ True)
      (statements.foldlM (Checked.statement inv deferred) c) := by
    refine Ensures.foldlM hc fun t ht c hc ↦ .intro (fun d hd ↦ ?_) fun _ _ ↦ trivial
    exact (accepts_iff.mp hd).not_mem_steps (hname t ht) hc
  exact hkeeps.of_ok h

/-- An accepted statement takes a name that was not taken, if it takes one. -/
theorem Checked.Accepts.nodup_steps (h : c.Accepts inv deferred s d) (hc : c.steps.Nodup) :
    d.steps = s.stepName?.toList ++ c.steps ∧ d.steps.Nodup := by
  cases h with
  | soundClass _ _ | element _ _ | shapes _ | clear | explicit | cleanupOff _ => exact ⟨rfl, hc⟩
  | rule hname _ _ | romanizer hname _ => exact ⟨rfl, List.nodup_cons.mpr ⟨hname, hc⟩⟩

/-- Accepted statements have different names, none of which was taken. -/
theorem Checked.nodup_steps_of_foldlM {statements : List Statement} (hc : c.steps.Nodup)
    (h : statements.foldlM (Checked.statement inv deferred) c = .ok d) :
    ((statements.filterMap Statement.stepName?).reverse ++ c.steps).Nodup := by
  induction statements generalizing c with
  | nil => exact hc
  | cons s rest ih =>
    rw [List.foldlM_cons] at h
    obtain ⟨next, hnext, h⟩ := exists_of_bind_eq_ok h
    obtain ⟨hsteps, hnodup⟩ := (accepts_iff.mp hnext).nodup_steps hc
    have hrest := ih hnodup h
    rw [hsteps] at hrest
    rw [List.filterMap_cons]
    cases hname : s.stepName? <;> simpa [hname] using hrest

/-- The rules and romanizers among the statements of an accepted program have different names. -/
theorem Program.nodup_stepNames {p : Program} (h : p.check inv = .ok ()) :
    (p.statements.filterMap Statement.stepName?).Nodup := by
  obtain ⟨⟨⟩, -, h⟩ := exists_of_bind_eq_ok h
  obtain ⟨last, hstatements, -⟩ := exists_of_bind_eq_ok h
  have hnames := Checked.nodup_steps_of_foldlM List.nodup_nil hstatements
  rwa [List.append_nil, List.nodup_reverse] at hnames

/-- A rule or a romanizer is known by its name among the statements of an accepted program. -/
theorem Program.eq_of_stepName? {p : Program} (h : p.check inv = .ok ()) {t : Statement}
    (hs : s ∈ p.statements) (ht : t ∈ p.statements) (hname : s.stepName? = some name)
    (hname' : t.stepName? = some name) : s = t := by
  have hnames := List.pairwise_filterMap.mp (nodup_stepNames h)
  have hsymm : Std.Symm fun s t : Statement ↦
      ∀ n, s.stepName? = some n → ∀ n', t.stepName? = some n' → n ≠ n' :=
    ⟨fun _ _ hne n hn n' hn' heq ↦ hne n' hn' n hn heq.symm⟩
  by_contra hne
  exact hnames.forall hs ht hne name hname name hname' rfl

/-- Whether the same is declared but for one name of a rule or a romanizer and more names of cleanup
rules. -/
structure Checked.MayGain (name : String) (c c' : Checked) : Prop where
  /-- The names of classes and elements. -/
  scope : c'.scope = c.scope
  /-- The names of rules and romanizers. -/
  steps : ∀ n ∈ c'.steps, n = name ∨ n ∈ c.steps
  /-- The names of cleanup rules. -/
  cleanups : c.cleanups ⊆ c'.cleanups

namespace Checked.MayGain

/-- A step of another name may be added on both sides. -/
theorem addStep (h : c.MayGain name c') {n : String} (hname : n ≠ name) (hn : n ∉ c.steps) :
    n ∉ c'.steps ∧ ∀ m ∈ n :: c'.steps, m = name ∨ m ∈ n :: c.steps := by
  refine ⟨fun hmem ↦ (h.steps n hmem).elim hname hn, List.forall_mem_cons.mpr ⟨?_, ?_⟩⟩
  · exact .inr List.mem_cons_self
  · exact fun m hm ↦ (h.steps m hm).imp id (List.mem_cons_of_mem n)

/-- A statement of another name is accepted, and the same is declared then but for that name. -/
theorem accepts (h : c.MayGain name c') (hname : s.stepName? ≠ some name)
    (hs : c.Accepts inv deferred s d) :
    ∃ d', c'.Accepts inv deferred s d' ∧ d.MayGain name d' := by
  obtain ⟨scope, steps, cleanups⟩ := c
  obtain ⟨scope', steps', cleanups'⟩ := c'
  obtain rfl : scope' = scope := h.scope
  cases hs with
  | soundClass hnew hmembers =>
    exact ⟨_, .soundClass hnew hmembers, rfl, h.steps, h.cleanups⟩
  | element hnew hbody => exact ⟨_, .element hnew hbody, rfl, h.steps, h.cleanups⟩
  | shapes hshapes => exact ⟨_, .shapes hshapes, h⟩
  | clear => exact ⟨_, .clear, h⟩
  | explicit => exact ⟨_, .explicit, h⟩
  | cleanupOff hknown => exact ⟨_, .cleanupOff (h.cleanups hknown), h⟩
  | @rule r _ hnew hfilter hbody =>
    obtain ⟨hnew', hsteps⟩ := h.addStep (fun heq ↦ hname (congrArg some heq)) hnew
    refine ⟨_, .rule hnew' hfilter hbody, rfl, hsteps, ?_⟩
    cases hcleanup : r.cleanup with
    | true => exact List.cons_subset_cons _ h.cleanups
    | false => exact h.cleanups
  | romanizer hnew hromanizer =>
    obtain ⟨hnew', hsteps⟩ := h.addStep (fun heq ↦ hname (congrArg some heq)) hnew
    exact ⟨_, .romanizer hnew' hromanizer, rfl, hsteps, h.cleanups⟩

/-- Statements of other names are accepted. -/
theorem foldlM (h : c.MayGain name c') {statements : List Statement}
    (hname : ∀ t ∈ statements, t.stepName? ≠ some name)
    (hs : statements.foldlM (Checked.statement inv deferred) c = .ok d) :
    ∃ d', statements.foldlM (Checked.statement inv deferred) c' = .ok d' ∧ d.MayGain name d' := by
  induction statements generalizing c c' with
  | nil =>
    cases hs
    exact ⟨c', rfl, h⟩
  | cons t rest ih =>
    rw [List.forall_mem_cons] at hname
    rw [List.foldlM_cons] at hs ⊢
    obtain ⟨next, hnext, hs⟩ := exists_of_bind_eq_ok hs
    obtain ⟨next', hnext', hgain⟩ := h.accepts hname.1 (accepts_iff.mp hnext)
    rw [accepts_iff.mpr hnext']
    exact ih hgain hname.2 hs

/-- The same romanizers are accepted. -/
theorem romanizer_eq (h : c.MayGain name c') :
    c'.romanizer inv deferred = c.romanizer inv deferred := by
  funext r
  rw [romanizer, romanizer, h.scope]

end Checked.MayGain

/-- An inert statement of a new name is accepted, and all that is declared by it is the name. -/
theorem Statement.IsInert.accepts (h : s.IsInert inv c.scope name) (hname : name ∉ c.steps)
    (deferred : List String) : ∃ d, c.Accepts inv deferred s d ∧ c.MayGain name d := by
  have hsteps : ∀ n ∈ name :: c.steps, n = name ∨ n ∈ c.steps := fun n ↦ List.mem_cons.mp
  cases h with
  | romanizer => exact ⟨_, .romanizer hname rfl, rfl, hsteps, List.Subset.refl _⟩
  | @deferred modifiers cleanup hfilter =>
    refine ⟨_, .rule hname hfilter (n := 0) rfl, rfl, hsteps, ?_⟩
    cases cleanup with
    | true => exact List.subset_cons_self _ _
    | false => exact List.Subset.refl _

/-- A deferred rule has the name of its statement. -/
theorem Statement.stepName?_of_deferredOf? {r : RuleDeclaration}
    (h : Program.deferredOf? s = some r) : s.stepName? = some r.name := by
  cases s with
  | rule own =>
    rw [Program.deferredOf?] at h
    split at h
    · cases h
      rfl
    · cases h
  | _ => cases h

section Programs

variable {before after : List Statement}

/-- Deferred rules are found where an inert statement of a new name has been put between the
statements. -/
theorem Statement.IsInert.areFoundIn {scope : Scope} (h : s.IsInert inv scope name)
    (hname : ∀ t ∈ before ++ after, t.stepName? ≠ some name) :
    AreFoundIn ((before ++ after).filterMap Program.deferredOf?)
      ((before ++ s :: after).filterMap Program.deferredOf?) := by
  have hnew : ∀ r ∈ (before ++ after).filterMap Program.deferredOf?, r.name ≠ name := by
    intro r hr heq
    obtain ⟨t, ht, hdeferred⟩ := List.mem_filterMap.mp hr
    exact hname t ht (heq ▸ stepName?_of_deferredOf? hdeferred)
  rw [List.filterMap_append] at hnew
  rw [List.filterMap_append, List.filterMap_append]
  cases h with
  | romanizer => exact .refl _
  | deferred _ => exact .insert hnew

/-- A program is accepted with an inert statement of a new name between its statements. -/
theorem Program.check_insert {p : Program}
    (h : { p with statements := before ++ after }.check inv = .ok ())
    (hs : s.IsInert inv (.behind before) name)
    (hname : ∀ t ∈ before ++ after, t.stepName? ≠ some name) :
    { p with statements := before ++ s :: after }.check inv = .ok () := by
  have hdeferred := (hs.areFoundIn hname).map_name_subset
  have hromanizer (c : Checked) (r : Option RomanizerDeclaration) :=
    Persists.forM r.toList (Checked.romanizer_persists hdeferred inv c)
  obtain ⟨⟨⟩, hderomanizer, h⟩ := exists_of_bind_eq_ok h
  obtain ⟨last, hstatements, hlast⟩ := exists_of_bind_eq_ok h
  -- the name of a deferred rule is added first, and the statement itself after that
  have hmore := Persists.foldlM (before ++ after) ({} : Checked) (fun c t d hd ↦
    Checked.accepts_iff.mpr ((Checked.accepts_iff.mp hd).mono hdeferred)) last hstatements
  rw [List.foldlM_append] at hmore
  obtain ⟨c, hbefore, hafter⟩ := exists_of_bind_eq_ok hmore
  rw [List.forall_mem_append] at hname
  have hfresh := Checked.not_mem_steps_of_foldlM hname.1 List.not_mem_nil hbefore
  have hscope : c.scope = .behind before :=
    (Checked.isChecked_of_statements .nil [] rfl hbefore).1
  rw [← hscope] at hs
  obtain ⟨next, hnext, hgain⟩ := hs.accepts hfresh _
  obtain ⟨last', hlast', hgain⟩ := hgain.foldlM hname.2 hafter
  have hall : (before ++ s :: after).foldlM (Checked.statement inv _) {} = .ok last' :=
    List.foldlM_append.trans (bind_eq_ok hbefore
      (bind_eq_ok (Checked.accepts_iff.mpr hnext) hlast'))
  refine bind_eq_ok (hromanizer {} p.deromanizer () hderomanizer) (bind_eq_ok hall ?_)
  rw [hgain.romanizer_eq]
  exact hromanizer last p.romanizer () hlast

end Programs

end Checking

end Diachrony.Syntax
