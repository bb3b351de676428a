import Diachrony.Proofs.Applier.Compiling
import Diachrony.Proofs.Linking.Inert
import Diachrony.Proofs.Linking.Course
import Diachrony.Proofs.Linking.Places
import Diachrony.Proofs.Pipeline.Snapshots

/-!
# Columns of recorded forms

The romanizers of an accepted program have different names, so every word that comes through a run
is recorded once under each name that the run has at all. The forms are put in columns by name, and
so each column has one form for each word, in the order of the words.
-/

namespace Diachrony

namespace Syntax

/-- Name of the romanizer of a statement. -/
def Statement.romanizerName? : Statement → Option String
  | romanizer r => some r.name
  | soundClass _ _ | element _ _ | syllables _ | rule _ | cleanupOff _ => none

/-- Names of the romanizers on the way through a program. -/
def Program.romanizerNames (p : Program) : List String :=
  p.statements.filterMap Statement.romanizerName?

section Names

variable {inv : Inventory} {s : Statement}

/-- The romanizers of an accepted program have different names. -/
theorem Program.nodup_romanizerNames {p : Program} (h : p.check inv = .ok ()) :
    p.romanizerNames.Nodup := by
  have hsublist : ∀ statements : List Statement,
      (statements.filterMap Statement.romanizerName?).Sublist
        (statements.filterMap Statement.stepName?) := by
    intro statements
    induction statements with
    | nil => exact .refl _
    | cons s rest ih =>
      cases s with
      | romanizer r => exact ih.cons_cons r.name
      | rule r => exact ih.cons r.name
      | soundClass _ _ | element _ _ | syllables _ | cleanupOff _ => exact ih
  exact (nodup_stepNames h).sublist (hsublist p.statements)

variable {base : Language} {rules : List RuleDeclaration} {l l' : Linked}

/-- Names of the romanizers of the statements so far. -/
def Linked.romanizerNames (l : Linked) : List String :=
  Stage.romanizerNames l.stages ++ Step.romanizerNames l.waiting

/-- A statement adds the name of its romanizer. -/
theorem Linked.Adds.romanizerNames_eq (h : l.Adds base rules s l') :
    l'.romanizerNames = l.romanizerNames ++ s.romanizerName?.toList := by
  cases h with
  | soundClass _ _ | element _ _ | deferred _ => exact (List.append_nil _).symm
  | syllables _ | cleanup _ _ _ | cleanupOff _ | rule _ _ _ =>
    simp [Linked.romanizerNames, Linked.withStep, Linked.withRule, Step.romanizerNames,
      Stage.romanizerNames, Step.romanizerName?, Statement.romanizerName?]
  | romanizer hlink =>
    obtain ⟨rule, -, hlink⟩ := exists_of_bind_eq_ok hlink
    cases hlink
    simp [Linked.romanizerNames, Linked.withStep, Step.romanizerNames, Step.romanizerName?,
      Statement.romanizerName?]

/-- The romanizers of a linked program are those of its statements. -/
theorem Program.romanizerNames_of_link {p : Program} {pipeline : Pipeline}
    (h : p.link base = .ok pipeline) :
    Stage.romanizerNames pipeline.stages = p.romanizerNames := by
  obtain ⟨deromanizer, -, h⟩ := exists_of_bind_eq_ok h
  obtain ⟨linked, hlinked, h⟩ := exists_of_bind_eq_ok h
  obtain ⟨romanizer, -, h⟩ := exists_of_bind_eq_ok h
  cases h
  have hadded : ∀ (statements : List Statement) (l : Linked),
      statements.foldlM (Linked.statement base p.deferredRules) l = .ok linked →
      linked.romanizerNames =
        l.romanizerNames ++ statements.filterMap Statement.romanizerName? := by
    intro statements
    induction statements with
    | nil =>
      rintro l ⟨⟩
      exact (List.append_nil _).symm
    | cons s rest ih =>
      intro l hl
      obtain ⟨next, hnext, hl⟩ := Linked.exists_of_foldlM_cons hl
      rw [ih next hl, hnext.romanizerNames_eq, List.append_assoc, List.filterMap_cons]
      cases s.romanizerName? <;> rfl
  have hall : Stage.romanizerNames linked.allStages = linked.romanizerNames := by
    rw [Linked.allStages, Linked.romanizerNames]
    cases linked.waiting <;> simp [Stage.romanizerNames, Step.romanizerNames]
  exact hall.trans (hadded p.statements _ hlinked)

end Names

end Syntax

namespace Report

/-- The forms that are recorded under a name, in order. -/
def formsOf (name : String) (snapshots : List (String × String)) : List String :=
  (snapshots.filter (·.1 = name)).map Prod.snd

theorem formsOf_cons (name : String) (snapshot : String × String)
    (rest : List (String × String)) :
    formsOf name (snapshot :: rest) =
      if snapshot.1 = name then snapshot.2 :: formsOf name rest else formsOf name rest := by
  by_cases hname : snapshot.1 = name <;> simp [formsOf, hname]

theorem formsOf_append (name : String) (snapshots others : List (String × String)) :
    formsOf name (snapshots ++ others) = formsOf name snapshots ++ formsOf name others := by
  simp [formsOf]

/-- A name has a form if it has been recorded. -/
theorem formsOf_eq_nil_iff {name : String} {snapshots : List (String × String)} :
    formsOf name snapshots = [] ↔ name ∉ snapshots.map Prod.fst := by
  simp only [formsOf, List.map_eq_nil_iff, List.filter_eq_nil_iff, List.mem_map,
    decide_eq_true_eq, not_exists, not_and]

/-- A name that is recorded once has the form of that record. -/
theorem exists_formsOf_eq {name : String} {snapshots : List (String × String)}
    (h : (snapshots.map Prod.fst).Nodup) (hname : name ∈ snapshots.map Prod.fst) :
    ∃ form, formsOf name snapshots = [form] ∧ (name, form) ∈ snapshots := by
  induction snapshots with
  | nil => cases hname
  | cons snapshot rest ih =>
    rw [List.map_cons, List.nodup_cons] at h
    rw [formsOf_cons]
    by_cases hfirst : snapshot.1 = name
    · rw [if_pos hfirst, formsOf_eq_nil_iff.mpr (hfirst ▸ h.1)]
      exact ⟨snapshot.2, rfl, hfirst ▸ List.mem_cons_self⟩
    · have hrest : name ∈ rest.map Prod.fst :=
        (List.mem_cons.mp hname).resolve_left (Ne.symm hfirst)
      obtain ⟨form, hform, hmem⟩ := ih h.2 hrest
      rw [if_neg hfirst]
      exact ⟨form, hform, List.mem_cons_of_mem _ hmem⟩

/-- Forms are added behind those that stand in the column of their name. -/
theorem get?_foldl_addForm (name : String) (snapshots : List (String × String))
    (columns : SortedMap String (List String)) :
    (snapshots.foldl addForm columns).get? name =
      if formsOf name snapshots = [] then columns.get? name
      else some ((columns.get? name).getD [] ++ formsOf name snapshots) := by
  induction snapshots generalizing columns with
  | nil => rfl
  | cons snapshot rest ih =>
    rw [List.foldl_cons, ih, addForm, SortedMap.get?_insert, formsOf_cons]
    by_cases hname : snapshot.1 = name
    · by_cases hrest : formsOf name rest = [] <;> simp [hname, hrest]
    · simp [hname, Ne.symm hname]

/-- The last forms are those of the words, if no word has failed. -/
theorem forall₂_of_words {r : Report} {forms : List String} (h : r.words = .ok forms) :
    List.Forall₂ (fun outcome form ↦ outcome.result = .ok form) r.outcomes forms := by
  have hforms : Ensures (List.Forall₂ (fun result form ↦ result = .ok form) r.results)
      (fun _ ↦ True) r.words :=
    Ensures.mapM fun result _ ↦ .intro (fun _ hform ↦ hform) fun _ _ ↦ trivial
  simpa [results, List.forall₂_map_left_iff] using hforms.of_ok h

/-- Where each of several words has recorded its forms under different names, of which one is given,
there is one form under that name for each word. -/
theorem forall₂_formsOf {name : String} {outcomes : List Outcome}
    (h : ∀ outcome ∈ outcomes, (outcome.snapshots.map Prod.fst).Nodup ∧
      name ∈ outcome.snapshots.map Prod.fst) :
    List.Forall₂ (fun outcome form ↦ (name, form) ∈ outcome.snapshots) outcomes
      (formsOf name (outcomes.flatMap Outcome.snapshots)) := by
  induction outcomes with
  | nil => exact .nil
  | cons outcome rest ih =>
    rw [List.forall_mem_cons] at h
    obtain ⟨form, hform, hmem⟩ := exists_formsOf_eq h.1.1 h.1.2
    rw [List.flatMap_cons, formsOf_append, hform]
    exact .cons hmem (ih h.2)

/-- Where all words have recorded their forms under the same names, which are different, there is a
column for each of these names if there are words, and it has the forms of the words in order. -/
theorem get?_named {r : Report} {names : List String} {columns : Columns} (hnodup : names.Nodup)
    (hnames : ∀ outcome ∈ r.outcomes, outcome.snapshots.map Prod.fst = names)
    (h : r.intermediates = .ok columns) (name : String) :
    ((columns.named.get? name).isSome ↔ r.outcomes ≠ [] ∧ name ∈ names) ∧
      ∀ column, columns.named.get? name = some column →
        List.Forall₂ (fun outcome form ↦ (name, form) ∈ outcome.snapshots) r.outcomes column := by
  obtain ⟨final, -, h⟩ := exists_of_bind_eq_ok h
  cases h
  have hrecorded : name ∈ (r.outcomes.flatMap Outcome.snapshots).map Prod.fst ↔
      r.outcomes ≠ [] ∧ name ∈ names := by
    rw [List.map_flatMap, List.mem_flatMap]
    constructor
    · rintro ⟨outcome, houtcome, hname⟩
      exact ⟨List.ne_nil_of_mem houtcome, hnames outcome houtcome ▸ hname⟩
    · rintro ⟨hne, hname⟩
      obtain ⟨outcome, houtcome⟩ := List.exists_mem_of_ne_nil _ hne
      exact ⟨outcome, houtcome, (hnames outcome houtcome).symm ▸ hname⟩
  rw [get?_foldl_addForm, ← hrecorded]
  by_cases hname : name ∈ (r.outcomes.flatMap Outcome.snapshots).map Prod.fst
  · have hforms : formsOf name (r.outcomes.flatMap Outcome.snapshots) ≠ [] :=
      fun hnil ↦ formsOf_eq_nil_iff.mp hnil hname
    have hcolumn := forall₂_formsOf fun outcome houtcome ↦
      (hnames outcome houtcome).symm ▸ And.intro hnodup (hrecorded.mp hname).2
    simpa [hforms, hname] using hcolumn
  · have hforms := formsOf_eq_nil_iff.mpr hname
    simp only [if_pos hforms]
    simp [hname]

end Report

namespace Applier

/-- Whether an outcome is what happens to a word that is run alone. -/
def Happens (a : Applier) (options : RunOptions) (word : String) (outcome : Outcome) : Prop :=
  ∃ report, a.run options [word] = .ok report ∧ report.outcomes = [outcome]

variable {inv : Inventory} {program : Syntax.Program} {config : Config} {a : Applier}
  {options : RunOptions} {words : List String} {report : Report}

/-- The outcomes of a run are those of its words one by one. -/
theorem happens_of_run (hrun : a.run options words = .ok report) :
    List.Forall₂ (a.Happens options) words report.outcomes := by
  obtain ⟨span, hspan, hrun⟩ := exists_of_bind_eq_ok hrun
  cases hrun
  simp only [List.map_map, List.forall₂_map_right_iff, List.forall₂_same]
  intro word hword
  exact ⟨_, bind_eq_ok hspan rfl, rfl⟩

/-- The romanizers of an accepted program have different names. -/
theorem nodup_romanizerNames_of_compile (h : compile inv program config = .ok a) :
    (Stage.romanizerNames a.pipeline.stages).Nodup := by
  obtain ⟨hcheck, hlink, -, -⟩ := compile_iff_isCompiled.mp h
  rw [Syntax.Program.romanizerNames_of_link hlink]
  exact Syntax.Program.nodup_romanizerNames hcheck

/-- A word is recorded once at most by each romanizer, and once by every one that the run visits if
it comes through. -/
theorem snapshots_of_happens (h : compile inv program config = .ok a) {span : Span}
    (hspan : a.pipeline.span options.startAt options.stopBefore = .ok span) {word : String}
    {outcome : Outcome} (hout : a.Happens options word outcome) :
    (outcome.snapshots.map Prod.fst).Nodup ∧
      (outcome.result.isOk →
        outcome.snapshots.map Prod.fst = a.pipeline.recordedNames span.stop) := by
  obtain ⟨report, hrun, houtcomes⟩ := hout
  rw [run, hspan] at hrun
  cases hrun
  cases houtcomes
  exact a.pipeline.snapshots_run (nodup_romanizerNames_of_compile h) span options.romanize _ word

/-- What is related to members of a list one by one is related to what these are related to. -/
private theorem forall₂_exists {α β γ : Type} {r : α → β → Prop} {s : β → γ → Prop} {l : List α}
    {m : List β} {n : List γ} (h : List.Forall₂ r l m) (h' : List.Forall₂ s m n) :
    List.Forall₂ (fun a c ↦ ∃ b, r a b ∧ s b c) l n := by
  induction h generalizing n with
  | nil =>
    cases h'
    exact .nil
  | cons hab _ ih =>
    cases h' with
    | cons hbc hrest => exact .cons ⟨_, hab, hbc⟩ (ih hrest)

/-- The columns that an accepted program gives line up with the words of a run, however it starts
and stops: the last forms are those of the words, and the forms under each name are what the words
have recorded under it, one form for each word in the order of the words. No romanizer records a
word twice, whether or not the word comes through, and those behind the last rule record every word
that does, also where the run stops before them. -/
theorem run_columns_line_up (h : compile inv program config = .ok a)
    (hrun : a.run options words = .ok report) :
    (∀ word outcome, a.Happens options word outcome → (outcome.snapshots.map Prod.fst).Nodup) ∧
      List.Forall₂ (a.Happens options) words report.outcomes ∧
      ∀ columns, report.intermediates = .ok columns →
        List.Forall₂ (fun word form ↦ ∃ outcome, a.Happens options word outcome ∧
          outcome.result = .ok form) words columns.final ∧
        (∀ name column, columns.named.get? name = some column →
          List.Forall₂ (fun word form ↦ ∃ outcome, a.Happens options word outcome ∧
            (name, form) ∈ outcome.snapshots) words column) ∧
        (words ≠ [] → ∀ rule ∈ a.pipeline.trailingRomanizers,
          (columns.named.get? rule.name).isSome) := by
  have hwords := happens_of_run hrun
  obtain ⟨span, hspan, -⟩ := exists_of_bind_eq_ok hrun
  refine ⟨fun _ _ hout ↦ (snapshots_of_happens h hspan hout).1, hwords, fun columns hcolumns ↦ ?_⟩
  obtain ⟨final, hfinal, hfinalColumn⟩ := exists_of_bind_eq_ok hcolumns
  have hresults := Report.forall₂_of_words hfinal
  -- all words have come through, so the run has recorded each of them under the same names
  have hnames : ∀ outcome ∈ report.outcomes,
      outcome.snapshots.map Prod.fst = a.pipeline.recordedNames span.stop := by
    have hsome : ∀ outcome ∈ report.outcomes, ∃ word, a.Happens options word outcome :=
      ((List.forall₂_and_left _ _).mp (hwords.flip.imp fun _ word hout ↦ ⟨⟨word, hout⟩, hout⟩)).1
    have hok : ∀ outcome ∈ report.outcomes, outcome.result.isOk :=
      ((List.forall₂_and_left _ _).mp (hresults.imp fun _ _ hform ↦ ⟨hform ▸ rfl, hform⟩)).1
    intro outcome houtcome
    obtain ⟨word, hout⟩ := hsome outcome houtcome
    exact (snapshots_of_happens h hspan hout).2 (hok outcome houtcome)
  have hnodup := (nodup_romanizerNames_of_compile h).sublist
    (a.pipeline.recordedNames_sublist span.stop)
  have hnamed := Report.get?_named hnodup hnames hcolumns
  refine ⟨?_, fun name column hcolumn ↦ ?_, fun hne rule hrule ↦ ?_⟩
  · cases hfinalColumn
    exact forall₂_exists hwords hresults
  · exact forall₂_exists hwords ((hnamed name).2 column hcolumn)
  · refine (hnamed rule.name).1.mpr ⟨?_, Pipeline.mem_recordedNames_of_trailing hrule span.stop⟩
    rintro hnil
    rw [hnil] at hwords
    cases hwords
    exact hne rfl

/-- A run of two words that stops in front of the last rule has a column for the romanizer in front
of the first rule and one for the romanizer behind the last, and both have one form for each
word. -/
theorem run_columns_line_up_a_c :
    let change (source target : String) : Syntax.Body := .expressions [.expression
      { source := .text source false, target := .text target false }]
    let program : Syntax.Program := { statements := [.romanizer ⟨"x", change "a" "x"⟩,
      .rule { name := "r", body := change "a" "b" }, .rule { name := "s", body := change "b" "c" },
      .romanizer ⟨"y", change "b" "y"⟩] }
    ∃ a report columns, compile .empty program {} = .ok a ∧
      a.run { stopBefore := some "s" } ["a", "c"] = .ok report ∧
      report.intermediates = .ok columns ∧
      columns.final = ["b", "c"] ∧
      columns.named.entries = [("x", ["x", "c"]), ("y", ["y", "c"])] ∧
      List.Forall₂ (fun word form ↦ ∃ outcome,
        a.Happens { stopBefore := some "s" } word outcome ∧ ("y", form) ∈ outcome.snapshots)
        ["a", "c"] ["y", "c"] := by
  intro change program
  have hrun : (do
      let a ← compile .empty program {}
      let report ← a.run { stopBefore := some "s" } ["a", "c"]
      let columns ← report.intermediates
      return (columns.final, columns.named.entries) :
        Except Fault (List String × List (String × List String))).toOption =
          some (["b", "c"], [("x", ["x", "c"]), ("y", ["y", "c"])]) := by
    decide +kernel
  obtain ⟨a, hcompile, hrun⟩ := exists_of_bind_eq_ok (eq_ok_of_toOption hrun)
  obtain ⟨report, hreport, hrun⟩ := exists_of_bind_eq_ok hrun
  obtain ⟨columns, hcolumns, hentries⟩ := exists_of_bind_eq_ok hrun
  obtain ⟨hfinal, hnamed⟩ := Prod.mk.inj (Except.ok.inj hentries)
  obtain ⟨-, -, hline⟩ := run_columns_line_up hcompile hreport
  have hcolumn : columns.named.get? "y" = some ["y", "c"] := by
    rw [SortedMap.get?, hnamed]
    rfl
  exact ⟨a, report, columns, hcompile, hreport, hcolumns, hfinal, hnamed,
    (hline columns hcolumns).2.1 "y" _ hcolumn⟩

end Applier

end Diachrony
