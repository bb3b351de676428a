import Diachrony.Proofs.Linking.Entries
import Diachrony.Proofs.Pipeline.Course

/-!
# Statements at their places

Every statement is linked in the scope that the statements before it leave, and in a language with
the inventory of the program. So what holds of every rule that is linked at its place holds of all
rules of a linked program, and a program fails only as one of its statements does at its place.
-/

namespace Diachrony.Syntax

/-- The names that are known behind statements. -/
def Scope.behind (statements : List Statement) : Scope := statements.foldl Scope.after []

/-- The names that are known behind one more statement. -/
theorem Scope.behind_append_singleton (statements : List Statement) (s : Statement) :
    behind (statements ++ [s]) = (behind statements).after s := by
  rw [behind, List.foldl_append]
  rfl

variable {P : NamedRule → Prop} {allowed : Fault → Prop} {base : Language}
  {deferred : List RuleDeclaration}

variable (P allowed base deferred) in
/-- Whether what is linked for a statement in a scope and a language is as it should be, and fails
only as allowed. -/
def Statement.Links (lang : Language) (names : Scope) : Statement → Prop
  | .syllables declaration => Ensures (fun _ ↦ True) allowed (declaration.link base names)
  | .rule r => r.deferred = false → Ensures P allowed (r.link lang names deferred)
  | .romanizer r => Ensures P allowed (r.link lang names deferred)
  | _ => True

namespace Linked

variable (P base) in
/-- Whether the rules of the statements so far are as they should be, and the language in force has
the inventory of the program. -/
structure Holds (l : Linked) : Prop where
  /-- The rules of the complete stages. -/
  stages : ∀ stage ∈ l.stages, ∀ rule ∈ stage.rules, P rule
  /-- The rules of the steps that wait. -/
  waiting : ∀ step ∈ l.waiting, ∀ rule ∈ step.rules, P rule
  /-- The inventory of the language in force. -/
  inventory : l.language.inventory = base.inventory

namespace Holds

variable {l : Linked} (h : l.Holds P base)
include h

/-- A step whose rules are as they should be may be added. -/
theorem withStep {step : Step} (hstep : ∀ rule ∈ step.rules, P rule) :
    (l.withStep step).Holds P base :=
  ⟨h.stages, List.forall_mem_append.mpr ⟨h.waiting, List.forall_mem_singleton.mpr hstep⟩,
    h.inventory⟩

/-- A stage of the steps that wait is as it should be if its rule is. -/
theorem stage (rule : Option NamedRule) (hrule : ∀ r ∈ rule, P r) :
    ∀ r ∈ (Stage.mk l.waiting rule).rules, P r := by
  refine List.forall_mem_append.mpr ⟨fun own hown ↦ ?_, fun own hown ↦ hrule own ?_⟩
  · obtain ⟨step, hstep, hown⟩ := List.mem_flatMap.mp hown
    exact h.waiting step hstep own hown
  · exact Option.mem_toList.mp hown

/-- A rule that is as it should be may be added. -/
theorem withRule {rule : NamedRule} (hrule : P rule) : (l.withRule rule).Holds P base := by
  have hstage : ∀ r ∈ (Stage.mk l.waiting (some rule)).rules, P r :=
    h.stage _ fun r hr ↦ Option.mem_some.mp hr ▸ hrule
  refine ⟨List.forall_mem_append.mpr ⟨h.stages, ?_⟩, List.forall_mem_nil _, h.inventory⟩
  exact List.forall_mem_singleton.mpr hstage

/-- All rules of the statements are as they should be. -/
theorem allStages : ∀ rule ∈ l.allStages.flatMap Stage.rules, P rule := by
  intro rule hrule
  obtain ⟨stage, hstage, hrule⟩ := List.mem_flatMap.mp hrule
  rw [Linked.allStages] at hstage
  split at hstage
  · exact h.stages stage hstage rule hrule
  · rcases List.mem_append.mp hstage with hstage | hstage
    · exact h.stages stage hstage rule hrule
    · cases List.mem_singleton.mp hstage
      exact h.stage none (fun _ h ↦ by cases h) rule hrule

/-- A statement that links as it should keeps rules as they should be, and adds its names. -/
theorem statement {s : Statement} (hs : s.Links P allowed base deferred l.language l.names) :
    Ensures (fun next ↦ next.Holds P base ∧ next.names = l.names.after s) allowed
      (l.statement base deferred s) := by
  cases s with
  | soundClass _ _ | element _ _ => exact .ok ⟨⟨h.stages, h.waiting, h.inventory⟩, rfl⟩
  | cleanupOff name => exact .ok ⟨h.withStep (List.forall_mem_nil _), rfl⟩
  | syllables declaration =>
    rw [Linked.statement]
    refine hs.bind fun syllabifier _ ↦ .ok ⟨?_, rfl⟩
    apply withStep
    · exact ⟨h.stages, h.waiting, rfl⟩
    · exact List.forall_mem_nil _
  | romanizer r =>
    rw [Linked.statement]
    exact hs.bind fun rule hrule ↦ .ok ⟨h.withStep (List.forall_mem_singleton.mpr hrule), rfl⟩
  | rule r =>
    rw [Linked.statement]
    split
    · exact .ok ⟨h, rfl⟩
    · next hdeferred =>
      refine (hs (by simpa using hdeferred)).bind fun rule hrule ↦ .ok ?_
      split
      · exact ⟨h.withStep (List.forall_mem_singleton.mpr hrule), rfl⟩
      · exact ⟨h.withRule hrule, rfl⟩

/-- Statements that link as they should at their places keep rules as they should be. -/
theorem statements (before : List Statement) {rest : List Statement}
    (hnames : l.names = .behind before)
    (hs : ∀ front s back, rest = front ++ s :: back → ∀ lang : Language,
      lang.inventory = base.inventory →
        s.Links P allowed base deferred lang (.behind (before ++ front))) :
    Ensures (fun last ↦ last.Holds P base ∧ last.names = .behind (before ++ rest)) allowed
      (rest.foldlM (Linked.statement base deferred) l) := by
  induction rest generalizing l before with
  | nil => exact .ok ⟨h, by rw [hnames, List.append_nil]⟩
  | cons s rest ih =>
    have hfirst := hs [] s rest rfl l.language h.inventory
    rw [List.append_nil, ← hnames] at hfirst
    rw [List.foldlM_cons]
    refine (h.statement hfirst).bind fun next ⟨hnext, hafter⟩ ↦ ?_
    have hbehind : next.names = .behind (before ++ [s]) := by
      rw [hafter, hnames, Scope.behind_append_singleton]
    have hrest := ih hnext _ hbehind fun front t back heq lang hlang ↦ by
      have hlater := hs (s :: front) t back (congrArg (s :: ·) heq) lang hlang
      rwa [List.append_assoc]
    rwa [List.append_assoc] at hrest

end Holds

end Linked

/-- Whether what is linked for the parts of a program at their places is as it should be. -/
structure Program.Links (P : NamedRule → Prop) (allowed : Fault → Prop) (base : Language)
    (p : Program) : Prop where
  /-- The rules that run first. -/
  deromanizer : ∀ r ∈ p.deromanizer, ∀ lang : Language, lang.inventory = base.inventory →
    Ensures P allowed (r.link lang [] p.deferredRules)
  /-- The statements. -/
  statements : ∀ before s after, p.statements = before ++ s :: after → ∀ lang : Language,
    lang.inventory = base.inventory →
      s.Links P allowed base p.deferredRules lang (.behind before)
  /-- The rules that run last. -/
  romanizer : ∀ r ∈ p.romanizer, ∀ lang : Language, lang.inventory = base.inventory →
    Ensures P allowed (r.link lang (.behind p.statements) p.deferredRules)

namespace Program

variable {p : Program}

private theorem mapM_ensures {declaration : Option RomanizerDeclaration}
    {f : RomanizerDeclaration → Except Fault NamedRule}
    (hf : ∀ r ∈ declaration, Ensures P allowed (f r)) :
    Ensures (fun linked ↦ ∀ rule ∈ linked.toList, P rule) allowed (declaration.mapM f) := by
  cases declaration with
  | none => exact .ok (List.forall_mem_nil _)
  | some r => exact (hf r rfl).map fun _ hrule ↦ List.forall_mem_singleton.mpr hrule

/-- The language in which words are read has the inventory of the program. -/
theorem inventory_initialLanguage (base : Language) (p : Program) :
    (p.initialLanguage base).inventory = base.inventory := by
  rw [initialLanguage]
  split <;> rfl

/-- The rules of a linked program are as they should be if its parts are at their places. -/
theorem Links.link (h : p.Links P allowed base) :
    Ensures (fun pipeline ↦ ∀ rule ∈ pipeline.rules, P rule) allowed (p.link base) := by
  rw [Program.link]
  have hinitial : Linked.Holds P base { language := p.initialLanguage base } :=
    ⟨List.forall_mem_nil _, List.forall_mem_nil _, inventory_initialLanguage base p⟩
  refine (mapM_ensures fun r hr ↦ h.deromanizer r hr _ hinitial.inventory).bind
    fun deromanizer hderomanizer ↦ ?_
  refine (hinitial.statements [] rfl h.statements).bind
    fun linked ⟨hlinked, hnames⟩ ↦ ?_
  rw [List.nil_append] at hnames
  rw [hnames]
  refine (mapM_ensures fun r hr ↦ h.romanizer r hr _ hlinked.inventory).bind
    fun romanizer hromanizer ↦ .ok ?_
  refine List.forall_mem_append.mpr ⟨List.forall_mem_append.mpr ⟨hderomanizer, ?_⟩, hromanizer⟩
  exact hlinked.allStages

end Program

end Diachrony.Syntax
