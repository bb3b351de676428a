import Diachrony.Proofs.Inventory.Ending
import Diachrony.Proofs.Linking.Inert
import Diachrony.Proofs.Linking.Parts

/-!
# Chains of references

Deferred rules form a chain from a body that refers to the first of them, each one to the next. The
references of a body that is linked are met on the way through it, so a chain from it is the trail of
a part. The fault of a part is that of the program if the linking comes to the part.

So in a program that is linked no chain of references meets a rule twice, or the rule in which it
starts.
-/

namespace Diachrony

namespace Syntax

/-! ### Chains -/

/-- Whether deferred rules form a chain from a body: the body refers to the first of them, and each
one to the next. -/
inductive Body.IsChain (deferred : List RuleDeclaration) : Body → List RuleDeclaration → Prop
  /-- No rules. -/
  | nil {body : Body} : IsChain deferred body []
  /-- A rule that the body refers to, and a chain from the body of that rule. -/
  | cons {body : Body} {name : String} {d : RuleDeclaration} {chain : List RuleDeclaration}
      (h : body.RefersTo name) (hd : deferred.find? (·.name == name) = some d)
      (hchain : IsChain deferred d.body chain) : IsChain deferred body (d :: chain)

/-- From a body that is linked no chain meets a rule twice, or one on the trail. -/
theorem Body.IsChain.nodup {deferred : List RuleDeclaration} {body : Body}
    {chain : List RuleDeclaration} (h : body.IsChain deferred chain) {part : Part}
    (hbody : part.body? = some body) (hrefers : part.scope.Refers deferred)
    (hnodup : part.scope.trail.Nodup) (hok : part.outcome = .ok ()) :
    (chain.map RuleDeclaration.name).Nodup ∧
      ∀ d ∈ chain, d.name ∉ part.scope.trail := by
  induction h generalizing part with
  | nil => exact ⟨List.nodup_nil, List.forall_mem_nil _⟩
  | @cons body name d chain hreference hd hchain ih =>
    obtain ⟨found, hfound, hname, hscope⟩ := Part.exists_reference hbody hok hreference
    obtain ⟨hown, htrail, -⟩ := Part.reaches hfound hrefers hnodup
    have hlinked := Part.outcome_eq_ok hfound hrefers hnodup hok
    obtain ⟨hfresh, next, hnext, hnextBody, hnextTrail⟩ :=
      Part.exists_next_of_reference hown hname hlinked hd
    obtain ⟨hrest, hlater⟩ := ih hnextBody (hnext.refers hown) (hnext.nodup htrail)
      (Part.outcome_eq_ok (.single hnext) hown htrail hlinked)
    rw [hnextTrail, hscope] at hlater
    rw [hscope] at hfresh
    constructor
    · refine List.nodup_cons.mpr ⟨fun hmem ↦ ?_, hrest⟩
      obtain ⟨other, hother, heq⟩ := List.mem_map.mp hmem
      exact hlater other hother (heq ▸ List.mem_cons_self)
    · refine List.forall_mem_cons.mpr ⟨hfresh, fun other hother hmem ↦ ?_⟩
      exact hlater other hother (List.mem_cons_of_mem _ hmem)

/-! ### Programs -/

section Programs

variable {lang : Language} {names : Scope} {deferred : List RuleDeclaration} {base : Language}
  {p : Program} {before after : List Statement} {fault : Fault}

/-- The part with which the linking of a rule starts. -/
def RuleDeclaration.part (lang : Language) (names : Scope) (deferred : List RuleDeclaration)
    (r : RuleDeclaration) : Part :=
  .child ⟨lang, names, .of lang names deferred, r.name, [r.name]⟩ none 0 (.mk r.body r.modifiers)

/-- The part with which the linking of a romanizer starts. -/
def RomanizerDeclaration.part (lang : Language) (names : Scope) (deferred : List RuleDeclaration)
    (r : RomanizerDeclaration) : Part :=
  .child ⟨lang, names, .of lang names deferred, r.name, []⟩ none 0 (.mk r.body {})

/-- A rule fails with the fault of its part. -/
theorem RuleDeclaration.link_eq_error {r : RuleDeclaration}
    (h : (r.part lang names deferred).outcome = .error fault) :
    r.link lang names deferred = .error fault := by
  rw [link_eq]
  exact map_eq_error_iff.mpr (map_eq_error_iff.mp h)

/-- A romanizer fails with the fault of its part. -/
theorem RomanizerDeclaration.link_eq_error {r : RomanizerDeclaration}
    (h : (r.part lang names deferred).outcome = .error fault) :
    r.link lang names deferred = .error fault := by
  rw [link_eq]
  exact map_eq_error_iff.mpr (map_eq_error_iff.mp h)

/-- An optional romanizer fails with the fault of its part. -/
theorem RomanizerDeclaration.mapM_link_eq_error {declaration : Option RomanizerDeclaration}
    {r : RomanizerDeclaration} (hr : declaration = some r)
    (h : (r.part lang names deferred).outcome = .error fault) :
    declaration.mapM (·.link lang names deferred) = .error fault := by
  subst hr
  show some <$> r.link lang names deferred = .error fault
  exact map_eq_error_iff.mpr (link_eq_error h)

/-- Statements fail with the fault of a statement if those in front of it are linked. -/
theorem Linked.foldlM_eq_error {l l' : Linked} {s : Statement}
    (hbefore : before.foldlM (Linked.statement base deferred) l = .ok l')
    (hs : l'.statement base deferred s = .error fault) :
    (before ++ s :: after).foldlM (Linked.statement base deferred) l = .error fault := by
  rw [List.foldlM_append, hbefore]
  show (s :: after).foldlM (Linked.statement base deferred) l' = .error fault
  rw [List.foldlM_cons, hs]
  rfl

namespace Program

/-- In an accepted program no rule refers to a rule that is not deferred. -/
theorem not_refersTo_of_check {inv : Inventory} (h : p.check inv = .ok ()) {r q : RuleDeclaration}
    (hr : .rule r ∈ p.statements) (hdeferred : r.deferred = false) (hq : .rule q ∈ p.statements) :
    ¬q.body.RefersTo r.name := by
  rintro ⟨flag, hentry⟩
  obtain ⟨before, after, hstatements⟩ := List.append_of_mem hq
  have hchecked : q.IsChecked inv (p.deferredRules.map RuleDeclaration.name) (.behind before) :=
    (isAccepted_of_check h).statements before _ after hstatements
  obtain ⟨flag', hentry⟩ := q.body.exists_mem_entries q.modifiers.filter.isSome hentry
  obtain ⟨d, hd, hname⟩ := List.mem_map.mp (hchecked.1 _ hentry)
  obtain ⟨hmem, hd⟩ := mem_of_mem_deferredRules hd
  cases eq_of_stepName? h hmem hr (congrArg some hname) rfl
  rw [hd] at hdeferred
  cases hdeferred

/-- What a program has come to behind some of its statements, once they and the deromanizer are
linked. -/
structure LinksBehind (base : Language) (p : Program) (before : List Statement) (l : Linked) :
    Prop where
  /-- The deromanizer, which is linked first. -/
  deromanizer : ∃ first, p.deromanizer.mapM
    (·.link (p.initialLanguage base) [] p.deferredRules) = .ok first
  /-- The statements. -/
  statements : before.foldlM (Linked.statement base p.deferredRules)
    { language := p.initialLanguage base } = .ok l

/-- The parts with which the linking of the rules of a program starts, once what stands in front of
them is linked. -/
inductive Starts (base : Language) (p : Program) : Part → Prop
  /-- The deromanizer. -/
  | deromanizer {r : RomanizerDeclaration} (hr : p.deromanizer = some r) :
      Starts base p (r.part (p.initialLanguage base) [] p.deferredRules)
  /-- A rule that is not deferred. -/
  | rule {before after : List Statement} {r : RuleDeclaration} {l : Linked}
      (hr : p.statements = before ++ .rule r :: after) (hdeferred : r.deferred = false)
      (hbefore : p.LinksBehind base before l) :
      Starts base p (r.part l.language l.names p.deferredRules)
  /-- A romanizer among the statements. -/
  | snapshot {before after : List Statement} {r : RomanizerDeclaration} {l : Linked}
      (hr : p.statements = before ++ .romanizer r :: after)
      (hbefore : p.LinksBehind base before l) :
      Starts base p (r.part l.language l.names p.deferredRules)
  /-- The romanizer behind all statements. -/
  | romanizer {r : RomanizerDeclaration} {l : Linked} (hr : p.romanizer = some r)
      (hbefore : p.LinksBehind base p.statements l) :
      Starts base p (r.part l.language l.names p.deferredRules)

/-- A program fails with the fault of a statement if what stands in front of it is linked. -/
theorem link_eq_error_of_statement {s : Statement} {l : Linked}
    (hs : p.statements = before ++ s :: after) (hbefore : p.LinksBehind base before l)
    (hfault : l.statement base p.deferredRules s = .error fault) :
    p.link base = .error fault := by
  obtain ⟨first, hfirst⟩ := hbefore.deromanizer
  have hstatements : p.statements.foldlM (Linked.statement base p.deferredRules)
      { language := p.initialLanguage base } = .error fault := by
    rw [hs]
    exact Linked.foldlM_eq_error hbefore.statements hfault
  simp only [link, hfirst, hstatements, bind, Except.bind]

namespace Starts

variable {start : Part}

/-- A program fails with the fault of a rule if what stands in front of the rule is linked. -/
theorem link_eq_error (h : p.Starts base start) (hfault : start.outcome = .error fault) :
    p.link base = .error fault := by
  cases h with
  | deromanizer hr =>
    simp only [link, RomanizerDeclaration.mapM_link_eq_error hr hfault, bind, Except.bind]
  | rule hr hdeferred hbefore =>
    refine link_eq_error_of_statement hr hbefore ?_
    rw [Linked.statement, if_neg (by simp [hdeferred]), RuleDeclaration.link_eq_error hfault]
    rfl
  | snapshot hr hbefore =>
    refine link_eq_error_of_statement hr hbefore ?_
    rw [Linked.statement, RomanizerDeclaration.link_eq_error hfault]
    rfl
  | romanizer hr hbefore =>
    obtain ⟨first, hfirst⟩ := hbefore.deromanizer
    simp only [link, hfirst, hbefore.statements,
      RomanizerDeclaration.mapM_link_eq_error hr hfault, bind, Except.bind]

/-- In a program that is linked all rules are. -/
theorem outcome_eq_ok (h : p.Starts base start) {pipeline : Pipeline}
    (hlink : p.link base = .ok pipeline) : start.outcome = .ok () := by
  cases hstart : start.outcome with
  | ok _ => rfl
  | error fault =>
    rw [h.link_eq_error hstart] at hlink
    cases hlink

/-- The references of a rule are those to the deferred rules of the program. -/
theorem refers (h : p.Starts base start) : start.scope.Refers p.deferredRules := by
  cases h <;> rfl

/-- The trail of a rule has its name, and that of a romanizer is empty. -/
theorem nodup (h : p.Starts base start) : start.scope.trail.Nodup := by
  cases h with
  | rule _ _ _ => exact List.nodup_singleton _
  | deromanizer _ | snapshot _ _ | romanizer _ _ => exact List.nodup_nil

end Starts

/-- In a program that is linked something is linked behind any number of statements. -/
theorem exists_linksBehind {pipeline : Pipeline} (hlink : p.link base = .ok pipeline)
    (hstatements : p.statements = before ++ after) : ∃ l, p.LinksBehind base before l := by
  obtain ⟨first, hfirst, hlink⟩ := exists_of_bind_eq_ok hlink
  obtain ⟨linked, hlinked, -⟩ := exists_of_bind_eq_ok hlink
  rw [hstatements, List.foldlM_append] at hlinked
  obtain ⟨l, hl, -⟩ := exists_of_bind_eq_ok hlinked
  exact ⟨l, ⟨first, hfirst⟩, hl⟩

/-- In a program that is linked every body that is linked starts a rule. -/
theorem LinksIn.exists_starts {body : Body} (hbody : p.LinksIn names body) {pipeline : Pipeline}
    (hlink : p.link base = .ok pipeline) :
    ∃ start, p.Starts base start ∧ start.body? = some body := by
  cases hbody with
  | deromanizer hr => exact ⟨_, .deromanizer hr, rfl⟩
  | rule hr hdeferred =>
    obtain ⟨l, hl⟩ := exists_linksBehind hlink hr
    exact ⟨_, .rule hr hdeferred hl, rfl⟩
  | snapshot hr =>
    obtain ⟨l, hl⟩ := exists_linksBehind hlink hr
    exact ⟨_, .snapshot hr hl, rfl⟩
  | romanizer hr =>
    obtain ⟨l, hl⟩ := exists_linksBehind hlink (List.append_nil p.statements).symm
    exact ⟨_, .romanizer hr hl, rfl⟩

/-- A program that is compiled is accepted and linked. -/
theorem link_of_compile {inv : Inventory} {limits : Limits} {pipeline : Pipeline}
    (h : p.compile inv limits = .ok pipeline) :
    p.link { inventory := inv, limits } = .ok pipeline := by
  obtain ⟨⟨⟩, -, hlink⟩ := exists_of_bind_eq_ok h
  exact hlink

end Program

end Programs

/-- Compiling comes to an end in whatever goes around in it. Names are looked up among all
declarations, and with one look-up more inside one another than there are declarations all of them
are settled, whatever is put in for those at the bottom; references to deferred rules with one more
than there are such rules. Where every symbol has text a literal is read to its end in as many
rounds as it has characters at most.

In a program that is compiled no chain of references from a body that is linked meets a deferred
rule twice, and none from a rule meets the rule itself. In a program that is accepted no rule refers
to a rule that is not deferred, no trail has a rule twice, and a reference to a rule on the trail is
the fault of the program as soon as linking comes to it. -/
theorem Program.compile_ends (inv : Inventory) (limits : Limits) (p : Program) :
    (∀ before after c, p.statements = before ++ after →
      before.foldlM (Checked.statement inv (p.deferredRules.map RuleDeclaration.name)) {} = .ok c →
        c.scope = .behind before ∧ ∀ n, c.scope.length < n → c.scope.SettlesIn n) ∧
    (∀ lang names n, p.deferredRules.length < n → ∀ base,
      (References.step lang names p.deferredRules)^[n] base = .of lang names p.deferredRules) ∧
    ((∀ s ∈ inv.symbols, s.text ≠ []) → ∀ text syllabify, ∃ n ≤ (Unicode.nfd text).length,
      (Inventory.Reading.rounds inv syllabify n { rest := Unicode.nfd text }).rest = []) ∧
    (∀ pipeline, p.compile inv limits = .ok pipeline →
      (∀ names body chain, p.LinksIn names body → body.IsChain p.deferredRules chain →
        (chain.map RuleDeclaration.name).Nodup) ∧
      ∀ r chain, .rule r ∈ p.statements → r.deferred = false →
        r.body.IsChain p.deferredRules chain → r.name ∉ chain.map RuleDeclaration.name) ∧
    (p.check inv = .ok () →
      (∀ r q, .rule r ∈ p.statements → r.deferred = false → .rule q ∈ p.statements →
        ¬q.body.RefersTo r.name) ∧
      ∀ start part, p.Starts { inventory := inv, limits } start →
        Relation.ReflTransGen (Part.Next p.deferredRules) start part →
          part.scope.trail.Nodup ∧ ∀ name ∈ part.scope.trail, part.reference? = some name →
            p.compile inv limits =
              .error (illegalReference "A recursive rule reference" name)) := by
  refine ⟨fun before after c hstatements hc ↦ ?_, fun lang names n hn base ↦ ?_,
    fun hsymbols text syllabify ↦ ?_, fun pipeline hcompile ↦ ⟨?_, ?_⟩,
    fun hcheck ↦ ⟨?_, fun start part hstart hpart ↦ ?_⟩⟩
  · obtain ⟨hscope, hwell, -⟩ := Checked.isChecked_of_statements .nil [] rfl hc
    exact ⟨hscope, fun n hn ↦ hwell.settlesIn hn⟩
  · exact References.iterate_step lang names p.deferredRules hn base
  · refine Inventory.Reading.exists_rounds_of_busy (fun r hidle ↦ ?_) { rest := Unicode.nfd text }
    obtain ⟨s, hs, htext⟩ := hidle.declared.1
    exact hsymbols s hs htext
  · intro names body chain hbody hchain
    have hlink := link_of_compile hcompile
    obtain ⟨start, hstart, hstartBody⟩ := hbody.exists_starts hlink
    exact (hchain.nodup hstartBody hstart.refers hstart.nodup (hstart.outcome_eq_ok hlink)).1
  · intro r chain hr hdeferred hchain hmem
    have hlink := link_of_compile hcompile
    obtain ⟨before, after, hstatements⟩ := List.append_of_mem hr
    obtain ⟨l, hl⟩ := exists_linksBehind hlink hstatements
    have hstart : p.Starts { inventory := inv, limits } _ := .rule hstatements hdeferred hl
    obtain ⟨-, hfresh⟩ := hchain.nodup rfl hstart.refers hstart.nodup (hstart.outcome_eq_ok hlink)
    obtain ⟨d, hd, hname⟩ := List.mem_map.mp hmem
    exact hfresh d hd (List.mem_singleton.mpr hname)
  · exact fun r q hr hdeferred hq ↦ not_refersTo_of_check hcheck hr hdeferred hq
  · obtain ⟨hrefers, hnodup, hfaults⟩ := Part.reaches hpart hstart.refers hstart.nodup
    refine ⟨hnodup, fun name hmem hreference ↦ ?_⟩
    have hfault := hfaults _ (Part.outcome_of_mem_trail hrefers hreference hmem)
    rw [compile, hcheck]
    exact hstart.link_eq_error hfault

/-- In the circle of `r` and the deferred `d`, the chain comes back to `r`, but `r` is not deferred,
and the program is refused for a name that is not declared. -/
theorem Program.compile_circle_of_rule :
    let r : RuleDeclaration := { name := "r", body := .expressions [.reference "d"] }
    let d : RuleDeclaration :=
      { name := "d", body := .expressions [.reference "r"], deferred := true }
    let p : Program := { statements := [.rule r, .rule d] }
    r.body.IsChain p.deferredRules [d] ∧ d.body.RefersTo r.name ∧
      p.compile .empty {} = .error (.of (.undefinedName "deferred rule" "r")) ∧
      p.compile .empty {} ≠ .error (illegalReference "A recursive rule reference" "r") := by
  intro r d p
  have hcompile : p.compile .empty {} = .error (.of (.undefinedName "deferred rule" "r")) := rfl
  refine ⟨.cons ⟨false, List.mem_cons_self⟩ rfl .nil, ⟨false, List.mem_cons_self⟩, hcompile, ?_⟩
  rw [hcompile]
  intro heq
  cases heq

/-- The rule `r` refers to `d`, and the deferred rules `d` and `e` refer to one another. Behind `d`
and `e` the reference to `d` is the fault of the program. -/
theorem Program.compile_ends_circle :
    let r : RuleDeclaration := { name := "r", body := .expressions [.reference "d"] }
    let d : RuleDeclaration :=
      { name := "d", body := .expressions [.reference "e"], deferred := true }
    let e : RuleDeclaration :=
      { name := "e", body := .expressions [.reference "d"], deferred := true }
    let p : Program := { statements := [.rule r, .rule d, .rule e] }
    p.compile .empty {} = .error (illegalReference "A recursive rule reference" "d") := by
  intro r d e p
  have hcheck : p.check .empty = .ok () := eq_ok_of_toOption (by decide +kernel)
  have hfindD : findDeferred p.deferredRules ["r"] "d" = .ok d := rfl
  have hfindE : findDeferred p.deferredRules ["d", "r"] "e" = .ok e := rfl
  let base : Language := { inventory := .empty }
  have hbefore : p.LinksBehind base [] { language := base } := ⟨⟨none, rfl⟩, rfl⟩
  have hstart : p.Starts base (r.part base [] p.deferredRules) := .rule rfl rfl hbefore
  let last : Part :=
    .alone ⟨base, [], .of base [] p.deferredRules, "e", ["e", "d", "r"]⟩ none "d"
  have hlast : Relation.ReflTransGen (Part.Next p.deferredRules) (r.part base [] p.deferredRules)
      last := by
    refine .head (.single rfl) (.head (.rule hfindD) ?_)
    refine .head (.single rfl) (.head (.rule hfindE) ?_)
    exact .single (.single rfl)
  have hends := ((Program.compile_ends .empty {} p).2.2.2.2 hcheck).2 _ last hstart hlast
  exact hends.2 "d" (by decide) rfl

end Syntax

end Diachrony
