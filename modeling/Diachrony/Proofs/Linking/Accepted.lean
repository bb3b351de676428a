import Diachrony.Proofs.Linking.Resolution
import Diachrony.Proofs.Linking.Statements

/-!
# Accepted programs

What the checks of a program say about each of its statements: its entries and filters are accepted
in the scope that the statements before it leave. That scope is well-formed, and it grows to the
scope behind all statements.
-/

namespace Diachrony.Syntax

section Checking

variable (inv : Inventory) (deferred : List String)

/-- Whether the entries and filters of a rule are accepted in a scope. -/
def RuleDeclaration.IsChecked (scope : Scope) (r : RuleDeclaration) : Prop :=
  AreChecked ⟨inv, scope, deferred, r.name⟩ r.entries r.filters

/-- Whether the entries and filters of a romanizer are accepted in a scope. -/
def RomanizerDeclaration.IsChecked (scope : Scope) (r : RomanizerDeclaration) : Prop :=
  AreChecked ⟨inv, scope, deferred, r.name⟩ (r.body.entries false) r.body.filters

/-- Whether what a statement asks for is accepted in a scope. -/
def Statement.IsChecked (scope : Scope) : Statement → Prop
  | .rule r => r.IsChecked inv deferred scope
  | .romanizer r => r.IsChecked inv deferred scope
  | .syllables (.shapes shapes) => ∀ shape ∈ shapes,
      scope.checkShape inv shape.element = .ok () ∧ shape.context.check inv scope = .ok ()
  | _ => True

/-- What is known of an accepted program. -/
structure Program.IsAccepted (p : Program) : Prop where
  /-- The deromanizer, for which no names are known. -/
  deromanizer : ∀ r ∈ p.deromanizer,
    r.IsChecked inv (p.deferredRules.map RuleDeclaration.name) []
  /-- Every statement, for which the names before it are known. -/
  statements : ∀ before s after, p.statements = before ++ s :: after →
    s.IsChecked inv (p.deferredRules.map RuleDeclaration.name) (.behind before)
  /-- The romanizer, for which all names are known. -/
  romanizer : ∀ r ∈ p.romanizer,
    r.IsChecked inv (p.deferredRules.map RuleDeclaration.name) (.behind p.statements)
  /-- The scopes on the way. -/
  growsTo : ∀ before after, p.statements = before ++ after →
    (Scope.behind before).GrowsTo (.behind p.statements)
  /-- The scope at the end. -/
  wellFormed : (Scope.behind p.statements).WellFormed

end Checking

namespace Checked

variable {inv : Inventory} {deferred : List String} {c c' : Checked}

/-- A romanizer that is accepted has only entries and filters that are. -/
theorem isChecked_of_romanizer {r : RomanizerDeclaration}
    (h : c.romanizer inv deferred r = .ok ()) : r.IsChecked inv deferred c.scope := by
  obtain ⟨_, hbody, -⟩ := exists_of_bind_eq_ok h
  exact Body.areChecked_of_check r.body hbody

/-- A shape that is accepted has an element and a context that are. -/
theorem isChecked_of_shape {s : SyllableShape} (h : c.shape inv s = .ok ()) :
    c.scope.checkShape inv s.element = .ok () ∧ s.context.check inv c.scope = .ok () := by
  obtain ⟨⟨⟩, helement, h⟩ := exists_of_bind_eq_ok h
  refine ⟨helement, ?_⟩
  cases hmatrix : s.matrix with
  | none =>
    rw [hmatrix] at h
    exact h
  | some m =>
    rw [hmatrix] at h
    obtain ⟨⟨⟩, -, hcontext⟩ := exists_of_bind_eq_ok h
    exact hcontext

/-- A statement that is accepted asks only for what is. -/
theorem isChecked_of_statement {s : Statement} (h : c.statement inv deferred s = .ok c') :
    s.IsChecked inv deferred c.scope := by
  cases accepts_iff.mp h with
  | soundClass _ _ | element _ _ | clear | explicit | cleanupOff _ => trivial
  | shapes hshapes =>
    exact fun shape hshape ↦ isChecked_of_shape (forall_of_forM_eq_ok hshapes shape hshape)
  | romanizer _ hromanizer => exact isChecked_of_romanizer hromanizer
  | @rule r _ _ hfilter hbody =>
    have hchecked := Body.areChecked_of_check r.body hbody
    refine ⟨hchecked.1, List.forall_mem_append.mpr ⟨fun filter hmem ↦ ?_, hchecked.2⟩⟩
    exact hfilter filter (by simpa using hmem)

/-- A member that is accepted adds literals to a class. -/
theorem isLiteral_of_checkMember (hc : c.scope.WellFormed) {member : Element}
    (h : c.checkMember member = .ok ()) : ∀ m ∈ c.scope.memberLiterals member, m.isLiteral := by
  cases member with
  | text literal exact => exact List.forall_mem_singleton.mpr rfl
  | reference name =>
    rw [Scope.memberLiterals]
    cases hmembers : c.scope.members? name with
    | none => exact List.forall_mem_nil _
    | some members =>
      obtain ⟨d, hd, hclass⟩ := List.exists_of_findSome?_eq_some hmembers
      cases d with
      | element n body => cases hclass
      | soundClass n own =>
        rw [Declared.members?] at hclass
        split at hclass
        · cases hclass
          exact hc.isLiteral hd
        · cases hclass
  | _ => cases h

/-- A statement that is accepted leaves a well-formed scope. -/
theorem wellFormed_of_statement (hc : c.scope.WellFormed) {s : Statement}
    (h : c.statement inv deferred s = .ok c') : c'.scope.WellFormed := by
  cases accepts_iff.mp h with
  | soundClass hnew hmembers =>
    refine .cons hc hnew fun m hm ↦ ?_
    obtain ⟨member, hmember, hm⟩ := List.mem_flatMap.mp hm
    exact isLiteral_of_checkMember hc (forall_of_forM_eq_ok hmembers member hmember) m hm
  | element hnew hbody =>
    exact .cons hc hnew fun _ ↦ Element.declares_of_checkNames _ hbody
  | shapes _ | clear | explicit | rule _ _ _ | cleanupOff _ | romanizer _ _ => exact hc

/-- Statements that are accepted ask only for what is, and their scope grows and stays
well-formed. -/
theorem isChecked_of_statements (hc : c.scope.WellFormed) (before : List Statement)
    {rest : List Statement} (hscope : c.scope = .behind before)
    (h : rest.foldlM (Checked.statement inv deferred) c = .ok c') :
    c'.scope = .behind (before ++ rest) ∧ c'.scope.WellFormed ∧
      (∀ front s back, rest = front ++ s :: back →
        s.IsChecked inv deferred (.behind (before ++ front))) ∧
      ∀ front back, rest = front ++ back →
        (Scope.behind (before ++ front)).GrowsTo c'.scope := by
  induction rest generalizing c before with
  | nil =>
    cases h
    refine ⟨by rw [hscope, List.append_nil], hc, ?_, ?_⟩
    · intro front s back heq
      simp at heq
    · intro front back heq
      obtain ⟨rfl, -⟩ := List.append_eq_nil_iff.mp heq.symm
      rw [List.append_nil, ← hscope]
      exact .refl _
  | cons s rest ih =>
    rw [List.foldlM_cons] at h
    obtain ⟨next, hnext, h⟩ := exists_of_bind_eq_ok h
    have hgrows := growsTo_of_statement hnext
    have hbehind : next.scope = .behind (before ++ [s]) := by
      rw [hgrows.1, hscope, Scope.behind_append_singleton]
    obtain ⟨hlast, hwell, hchecked, hgrow⟩ := ih (wellFormed_of_statement hc hnext) _ hbehind h
    rw [List.append_assoc] at hlast
    refine ⟨hlast, hwell, ?_, ?_⟩
    · intro front t back heq
      cases front with
      | nil =>
        cases heq
        rw [List.append_nil, ← hscope]
        exact isChecked_of_statement hnext
      | cons first front =>
        cases heq
        have hlater := hchecked front t back rfl
        rwa [List.append_assoc] at hlater
    · intro front back heq
      cases front with
      | nil =>
        have hwhole := hgrow [] rest rfl
        rw [List.append_nil, ← hbehind] at hwhole
        rw [List.append_nil, ← hscope]
        exact hgrows.2.trans hwhole
      | cons first front =>
        cases heq
        have hlater := hgrow front back rfl
        rwa [List.append_assoc] at hlater

end Checked

/-- What the checks of a program say about its parts. -/
theorem Program.isAccepted_of_check {inv : Inventory} {p : Program} (h : p.check inv = .ok ()) :
    p.IsAccepted inv := by
  obtain ⟨⟨⟩, hderomanizer, h⟩ := exists_of_bind_eq_ok h
  obtain ⟨c, hstatements, hromanizer⟩ := exists_of_bind_eq_ok h
  obtain ⟨hscope, hwell, hchecked, hgrows⟩ :=
    Checked.isChecked_of_statements .nil [] rfl hstatements
  rw [List.nil_append] at hscope
  rw [hscope] at hwell hgrows
  refine ⟨fun r hr ↦ ?_, hchecked, fun r hr ↦ ?_, hgrows, hwell⟩
  · exact Checked.isChecked_of_romanizer
      (forall_of_forM_eq_ok hderomanizer r (Option.mem_toList.mpr hr))
  · rw [← hscope]
    exact Checked.isChecked_of_romanizer
      (forall_of_forM_eq_ok hromanizer r (Option.mem_toList.mpr hr))

/-- Whether a program links a body in a scope. Deferred rules are only linked where they are
referred to. -/
inductive Program.LinksIn (p : Program) : Scope → Body → Prop
  /-- The deromanizer, for which no names are known. -/
  | deromanizer {r : RomanizerDeclaration} (h : p.deromanizer = some r) : LinksIn p [] r.body
  /-- A rule at its place. -/
  | rule {before after : List Statement} {r : RuleDeclaration}
      (h : p.statements = before ++ .rule r :: after) (hdeferred : r.deferred = false) :
      LinksIn p (.behind before) r.body
  /-- A romanizer at its place. -/
  | snapshot {before after : List Statement} {r : RomanizerDeclaration}
      (h : p.statements = before ++ .romanizer r :: after) : LinksIn p (.behind before) r.body
  /-- The romanizer behind all statements. -/
  | romanizer {r : RomanizerDeclaration} (h : p.romanizer = some r) :
      LinksIn p (.behind p.statements) r.body

/-- A deferred rule of a program is one of its statements. -/
theorem Program.mem_of_mem_deferredRules {p : Program} {d : RuleDeclaration}
    (h : d ∈ p.deferredRules) : .rule d ∈ p.statements ∧ d.deferred = true := by
  obtain ⟨s, hs, hd⟩ := List.mem_filterMap.mp h
  cases s with
  | rule r =>
    rw [deferredOf?] at hd
    split at hd
    · next hdeferred =>
      cases hd
      exact ⟨hs, hdeferred⟩
    · cases hd
  | _ => cases hd

namespace Program.IsAccepted

variable {inv : Inventory} {p : Program} (hp : p.IsAccepted inv)
include hp

/-- A deferred rule is accepted at some place. -/
theorem exists_of_mem_deferredRules {d : RuleDeclaration} (h : d ∈ p.deferredRules) :
    ∃ names : Scope, names.GrowsTo (.behind p.statements) ∧
      d.IsChecked inv (p.deferredRules.map RuleDeclaration.name) names := by
  obtain ⟨before, after, heq⟩ := List.append_of_mem (mem_of_mem_deferredRules h).1
  exact ⟨_, hp.growsTo before _ heq, hp.statements before _ after heq⟩

/-- The scope at a place grows to the scope behind all statements. -/
theorem growsTo_of_linksIn {names : Scope} {body : Body} (h : p.LinksIn names body) :
    names.GrowsTo (.behind p.statements) := by
  cases h with
  | deromanizer _ => exact hp.growsTo [] _ rfl
  | rule h _ | snapshot h => exact hp.growsTo _ _ h
  | romanizer _ => exact .refl _

/-- The rules of an accepted program are linked to what is promised if the bodies at their places
are, whose entries and filters are accepted there. -/
theorem links {promised : Bool → Diachrony.Expression → Prop} {allowed : Fault → Prop}
    {base : Language} (hbase : base.inventory = inv)
    (hsyllables : ∀ {before declaration after},
      p.statements = before ++ .syllables declaration :: after →
        Ensures (fun _ ↦ True) allowed (declaration.link base (.behind before)))
    (hplaces : ∀ {names body}, p.LinksIn names body → ∀ lang name trail entries filters,
      lang.inventory = inv →
      AreChecked ⟨inv, names, p.deferredRules.map RuleDeclaration.name, name⟩ entries filters →
      (∀ flag item, (flag, item) ∈ entries → ∃ flag', (flag', item) ∈ body.entries false) →
        AreLinked promised allowed ⟨lang, names, .of lang names p.deferredRules, name, trail⟩
          entries filters) :
    p.Links (fun linked ↦ linked.rule.Holds promised) allowed base := by
  have hromanizer {names : Scope} {r : RomanizerDeclaration} (hbody : p.LinksIn names r.body)
      (hchecked : r.IsChecked inv (p.deferredRules.map RuleDeclaration.name) names)
      {lang : Language} (hlang : lang.inventory = base.inventory) :
      Ensures (fun linked ↦ linked.rule.Holds promised) allowed
        (r.link lang names p.deferredRules) :=
    RomanizerDeclaration.link_ensures
      (hplaces hbody _ _ _ _ _ (hlang.trans hbase) hchecked fun flag _ h ↦ ⟨flag, h⟩)
  refine ⟨fun r hr lang hlang ↦ ?_, fun before s after heq lang hlang ↦ ?_,
    fun r hr lang hlang ↦ ?_⟩
  · exact hromanizer (.deromanizer hr) (hp.deromanizer r hr) hlang
  · have hchecked := hp.statements before s after heq
    cases s with
    | syllables declaration => exact hsyllables heq
    | romanizer r => exact hromanizer (.snapshot heq) hchecked hlang
    | rule r =>
      refine fun hdeferred ↦ RuleDeclaration.link_ensures ?_
      refine hplaces (.rule heq hdeferred) _ _ _ _ _ (hlang.trans hbase) hchecked fun _ _ h ↦ ?_
      exact Body.exists_mem_entries false r.body h
    | _ => trivial
  · exact hromanizer (.romanizer hr) (hp.romanizer r hr) hlang

end Program.IsAccepted

end Diachrony.Syntax
