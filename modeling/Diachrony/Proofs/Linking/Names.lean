import Diachrony.Proofs.Linking.Accepted

/-!
# Names that are not resolved

A deferred rule is checked where it is declared and linked where it is referred to. So the names of
an accepted program are all resolved where they are linked, but for one case: a deferred rule may be
referred to, directly or not, at a place in front of the declaration of a class or an element that
it uses. Names of deferred rules are always resolved, and so are the names in shapes of syllables.
-/

namespace Diachrony.Syntax

/-- What an entry needs by itself. -/
def Item.needs : Item → List Need
  | .expression e => e.needs
  | .reference _ => []

/-- What a rule needs by itself, in its expressions and its filters. -/
def RuleDeclaration.needs (r : RuleDeclaration) : List Need :=
  r.entries.flatMap (·.2.needs) ++ r.filters.flatMap Element.needs

/-- Whether a body has a reference to a deferred rule of some name. -/
def Body.RefersTo (body : Body) (name : String) : Prop :=
  ∃ flag, (flag, Item.reference name) ∈ body.entries false

/-- Whether a deferred rule is referred to in a body, directly or by way of others. -/
inductive Body.Reaches (deferred : List RuleDeclaration) (body : Body) : RuleDeclaration → Prop
  /-- The body refers to the rule. -/
  | direct {name : String} {r : RuleDeclaration} (h : body.RefersTo name)
      (hr : deferred.find? (·.name == name) = some r) : Reaches deferred body r
  /-- A rule that is reached refers to the rule. -/
  | further {d r : RuleDeclaration} {name : String} (hd : Reaches deferred body d)
      (h : d.body.RefersTo name) (hr : deferred.find? (·.name == name) = some r) :
      Reaches deferred body r

/-- A rule that is reached is one of the deferred rules. -/
theorem Body.Reaches.mem {deferred : List RuleDeclaration} {body : Body} {r : RuleDeclaration}
    (h : body.Reaches deferred r) : r ∈ deferred := by
  cases h with
  | direct _ hr | further _ _ hr => exact List.mem_of_find?_eq_some hr

/-- Whether a program uses a name too early: a deferred rule that needs it is reached from a place
in front of its declaration. -/
def Program.UsesEarly (p : Program) (name : String) : Prop :=
  (Scope.behind p.statements).declares name ∧ ∃ names body d, p.LinksIn names body ∧
    body.Reaches p.deferredRules d ∧ .name name ∈ d.needs ∧ names.declares name = false

/-- Whether a fault is not about a name that was never declared, except for a class or an element
that a program uses too early. -/
def Program.Resolves (p : Program) (fault : Fault) : Prop :=
  ∀ what name, fault.cause.undefined? = some (what, name) →
    what = "class or element" ∧ p.UsesEarly name

variable {inv : Inventory} {p : Program}

/-- A fault that is not about names is none of these. -/
theorem Program.resolves_of_eq_none {fault : Fault} (h : fault.cause.undefined? = none) :
    p.Resolves fault := by
  intro what name heq
  rw [h] at heq
  cases heq

/-- The name of a deferred rule finds a deferred rule. -/
theorem Program.finds {known : RuleDeclaration → Prop} {name : String}
    (hname : name ∈ p.deferredRules.map RuleDeclaration.name)
    (hknown : ∀ r, p.deferredRules.find? (·.name == name) = some r → known r) :
    Finds p.deferredRules p.Resolves known name := by
  intro trail
  rw [findDeferred]
  split
  · exact .error (Program.resolves_of_eq_none rfl)
  · split
    · next r hr => exact .ok (hknown r hr)
    · next hnone =>
      obtain ⟨d, hd, rfl⟩ := List.mem_map.mp hname
      exact (List.find?_eq_none.mp hnone d hd (by simp)).elim

/-- An element that has what it needs in its scope misses no names there. -/
theorem Scope.not_mayMiss {s : Scope} {lang : Language} {allowed : Fault → Prop} {needs : List Need}
    (h : ∀ need ∈ needs, need.IsMet lang.inventory (s.Supplies lang.inventory)) :
    ∀ need ∈ needs, need.IsMet lang.inventory (s.MayMiss lang allowed s) := by
  intro need hneed
  cases need with
  | matrix values => exact h _ hneed
  | name n =>
    refine ⟨h _ hneed, fun hdeclared ↦ ?_⟩
    rw [declares_of_supplies (h _ hneed)] at hdeclared
    cases hdeclared

namespace Program.IsAccepted

variable (hp : p.IsAccepted inv)
include hp

/-- What a deferred rule needs, it has behind all statements. -/
theorem needs_of_mem_deferredRules {d : RuleDeclaration} (h : d ∈ p.deferredRules) :
    ∀ need ∈ d.needs, need.IsMet inv ((Scope.behind p.statements).Supplies inv) := by
  obtain ⟨names, hgrows, hchecked⟩ := hp.exists_of_mem_deferredRules h
  have hwell := hgrows.wellFormed hp.wellFormed
  have hneeds : ∀ need ∈ d.needs, need.IsMet inv (names.Supplies inv) := by
    refine List.forall_mem_append.mpr ⟨fun need hneed ↦ ?_, fun need hneed ↦ ?_⟩
    · obtain ⟨⟨flag, item⟩, hentry, hneed⟩ := List.mem_flatMap.mp hneed
      cases item with
      | expression e => exact hwell.needs_of_check (hchecked.1 _ hentry) need hneed
      | reference name => cases hneed
    · obtain ⟨filter, hfilter, hneed⟩ := List.mem_flatMap.mp hneed
      exact hwell.needs_of_checkInput (hchecked.2 filter hfilter) need hneed
  intro need hneed
  cases need with
  | matrix values => exact hneeds _ hneed
  | name n =>
    have hsupplies := hneeds _ hneed
    exact (hgrows.supplies_iff (Scope.declares_of_supplies hsupplies)).mpr hsupplies

section Places

variable {names : Scope} {body : Body} (hbody : p.LinksIn names body) {lang : Language}
  (hlang : lang.inventory = inv)
include hbody hlang

/-- What a deferred rule needs is missing where the rule is linked only if it is used too early. -/
theorem mayMiss_of_reaches {d : RuleDeclaration} (hd : body.Reaches p.deferredRules d) :
    ∀ need ∈ d.needs, need.IsMet lang.inventory
      ((Scope.behind p.statements).MayMiss lang p.Resolves names) := by
  have hneeds := hp.needs_of_mem_deferredRules hd.mem
  rw [← hlang] at hneeds
  intro need hneed
  cases need with
  | matrix values => exact hneeds _ hneed
  | name n =>
    have hsupplies := hneeds _ hneed
    refine ⟨hsupplies, fun hmissing what name heq ↦ ?_⟩
    cases heq
    exact ⟨rfl, Scope.declares_of_supplies hsupplies, names, body, d, hbody, hd, hneed, hmissing⟩

/-- Deferred rules that are reached are linked, unless a name is used too early. -/
theorem knowsDeferred :
    KnowsDeferred lang names p.deferredRules (fun _ _ ↦ True) p.Resolves
      (body.Reaches p.deferredRules) := by
  have hgrows := hp.growsTo_of_linksIn hbody
  have hmiss {d : RuleDeclaration} (hd : body.Reaches p.deferredRules d) :=
    hp.mayMiss_of_reaches hbody hlang hd
  constructor
  · intro d hd flag e hentry _ rule number
    have hneeds : e.needs ⊆ d.needs := fun need hneed ↦
      List.mem_append_left _ (List.mem_flatMap.mpr ⟨_, hentry, hneed⟩)
    have hexpression := hgrows.expression_ensures hp.wellFormed
      (fun _ ↦ resolves_of_eq_none) fun need hneed ↦ hmiss hd need (hneeds hneed)
    exact hexpression.mapError fun fault hfault ↦ hfault
  · intro d hd flag name hentry
    obtain ⟨names', -, hchecked⟩ := hp.exists_of_mem_deferredRules hd.mem
    refine Program.finds (hchecked.1 _ hentry) fun r hr ↦ .further hd ?_ hr
    exact Body.exists_mem_entries false d.body hentry
  · intro d hd filter hfilter
    have hneeds : filter.needs ⊆ d.needs := fun need hneed ↦
      List.mem_append_right _ (List.mem_flatMap.mpr ⟨_, hfilter, hneed⟩)
    exact hgrows.pattern_ensures hp.wellFormed (fun _ ↦ resolves_of_eq_none)
      fun need hneed ↦ hmiss hd need (hneeds hneed)
  · exact fun _ _ ↦ resolves_of_eq_none rfl

/-- What is accepted at its place is linked there, unless a name is used too early. -/
theorem areLinked {rule name : String} {trail : List String} {entries : List (Bool × Item)}
    {filters : List Element}
    (h : AreChecked ⟨inv, names, p.deferredRules.map RuleDeclaration.name, name⟩ entries filters)
    (hentries : ∀ flag item, (flag, item) ∈ entries → ∃ flag', (flag', item) ∈ body.entries false) :
    AreLinked (fun _ _ ↦ True) p.Resolves
      ⟨lang, names, .of lang names p.deferredRules, rule, trail⟩ entries filters := by
  subst hlang
  have hwell := (hp.growsTo_of_linksIn hbody).wellFormed hp.wellFormed
  refine (hp.knowsDeferred hbody rfl).areLinked_of ?_ ?_ ?_
  · intro flag e hentry number
    have hexpression : Ensures (fun _ ↦ True) p.Resolves (names.expression lang e) :=
      (Scope.GrowsTo.refl names).expression_ensures hwell (fun _ ↦ resolves_of_eq_none)
        (Scope.not_mayMiss (hwell.needs_of_check (h.1 _ hentry)))
    exact hexpression.mapError fun fault hfault ↦ hfault
  · intro flag name hentry
    exact Program.finds (h.1 _ hentry) fun r hr ↦ .direct (hentries flag _ hentry) hr
  · intro filter hfilter
    exact (Scope.GrowsTo.refl names).pattern_ensures hwell (fun _ ↦ resolves_of_eq_none)
      (Scope.not_mayMiss (hwell.needs_of_checkInput (h.2 filter hfilter)))

end Places

/-- A change of the division into syllables that is accepted at its place is linked there. -/
theorem link_syllables {before after : List Statement} {declaration : SyllableDeclaration}
    (h : p.statements = before ++ .syllables declaration :: after) {base : Language}
    (hbase : base.inventory = inv) :
    Ensures (fun _ ↦ True) p.Resolves (declaration.link base (.behind before)) := by
  subst hbase
  have hwell := (hp.growsTo before _ h).wellFormed hp.wellFormed
  have hchecked := hp.statements before _ after h
  have hgrows := Scope.GrowsTo.refl (.behind before)
  cases declaration with
  | clear | explicit => exact .ok trivial
  | shapes shapes =>
    rw [SyllableDeclaration.link]
    refine (Ensures.forM fun shape hshape ↦ ?_).bind fun _ _ ↦ .ok trivial
    obtain ⟨helement, hcontext⟩ := hchecked shape hshape
    rw [SyllableShape.link]
    refine (hgrows.pattern_ensures hwell (fun _ ↦ resolves_of_eq_none)
      (Scope.not_mayMiss (Scope.needs_of_checkShape helement))).bind fun _ _ ↦ ?_
    split
    · exact .ok trivial
    · exact (hgrows.surroundings_ensures hwell (fun _ ↦ resolves_of_eq_none)
        (Scope.not_mayMiss (Scope.needs_of_check hcontext))).bind fun _ _ ↦ .ok trivial

/-- An accepted program is linked, or it fails with a fault that is not about a name that was never
declared, unless it uses the name too early. -/
theorem link_ensures {base : Language} (hbase : base.inventory = inv) :
    Ensures (fun _ ↦ True) p.Resolves (p.link base) := by
  have hparts : p.Links (fun linked ↦ linked.rule.Holds fun _ _ ↦ True) p.Resolves base :=
    hp.links hbase (fun heq ↦ hp.link_syllables heq hbase)
      fun hbody _ _ _ _ _ hlang ↦ hp.areLinked hbody hlang
  exact hparts.link.mono fun _ _ _ ↦ trivial

end Program.IsAccepted

/-- If a program is accepted, linking it never fails because a name was not declared, except for the
name of a class or an element that is used too early: it is declared in the program, but a deferred
rule that needs it is referred to from a place in front of its declaration. -/
theorem Program.link_resolves {limits : Limits} (hcheck : p.check inv = .ok ()) {fault : Fault}
    (hlink : p.link { inventory := inv, limits } = .error fault) {what name : String}
    (hundefined : fault.cause.undefined? = some (what, name)) :
    what = "class or element" ∧ (Scope.behind p.statements).declares name ∧
      ∃ names body d, p.LinksIn names body ∧ body.Reaches p.deferredRules d ∧
        .name name ∈ d.needs ∧ names.declares name = false :=
  ((isAccepted_of_check hcheck).link_ensures rfl).of_error hlink what name hundefined

/-- A rule that refers to `d` in front of the class `V`, which `d` needs, is accepted and not
linked. -/
theorem Program.link_resolves_early :
    let early : RuleDeclaration := { name := "r", body := .expressions [.reference "d"] }
    let d : RuleDeclaration :=
      { name := "d"
        body := .expressions [.expression { source := .reference "V", target := .text "b" false }]
        deferred := true }
    let p : Program :=
      { statements := [.rule early, .soundClass "V" [.text "a" false], .rule d] }
    ∃ fault, p.check .empty = .ok () ∧ p.link { inventory := .empty } = .error fault ∧
      fault.cause.undefined? = some ("class or element", "V") ∧
      (Scope.behind p.statements).declares "V" := by
  intro early d p
  have hcheck : (p.check .empty).toOption = some () := by decide +kernel
  have hlink : (match p.link { inventory := .empty } with
      | .ok _ => none
      | .error fault => fault.cause.undefined?) = some ("class or element", "V") := by
    decide +kernel
  cases hp : p.link { inventory := .empty } with
  | ok pipeline =>
    rw [hp] at hlink
    cases hlink
  | error fault =>
    rw [hp] at hlink
    have hresolves := Program.link_resolves (eq_ok_of_toOption hcheck) hp hlink
    exact ⟨fault, eq_ok_of_toOption hcheck, rfl, hlink, hresolves.2.1⟩

end Diachrony.Syntax
