import Diachrony.Proofs.Inventory.Progress
import Diachrony.Proofs.Linking.Accepted

/-!
# Plain patterns

A filter hides segments, so the patterns of a rule with a filter should be plain: without
repetitions, gaps between words, and literals of several segments. Environments are not asked. An
element that is accepted for a rule with a filter has a plain pattern, but for its literals: the
members of classes are not looked at, and a literal is read as a whole where its parts are linked.
-/

namespace Diachrony

mutual

/-- Whether a pattern, environments aside, has no repetition, no gap between words, and no literal
of several segments. -/
def Pattern.isPlain : Pattern → Bool
  | .text literal | .symbol literal => literal.length ≤ 1
  | .betweenWords | .repeater .. => false
  | .negated inner | .capture inner _ _ | .environment inner _ _ => inner.isPlain
  | .sequence items | .alternative items => Pattern.allPlain items
  | .intersection initial checks => initial.isPlain && Check.allPlain checks
  | _ => true

/-- Whether all patterns of a list are plain. -/
def Pattern.allPlain : List Pattern → Bool
  | [] => true
  | p :: rest => p.isPlain && Pattern.allPlain rest

/-- Whether the patterns of all checks are plain. -/
def Check.allPlain : List Check → Bool
  | [] => true
  | .mk p _ :: rest => p.isPlain && Check.allPlain rest

end

/-- All patterns of a list are plain if each of them is. -/
theorem Pattern.allPlain_eq (items : List Pattern) : allPlain items = items.all isPlain := by
  induction items with
  | nil => rfl
  | cons p rest ih => rw [allPlain, List.all_cons, ih]

namespace Language

/-- Whether a literal comes to a word of several segments, or to parts of which one does where a
point in it is a break. -/
def isLong (lang : Language) (text : String) : Bool :=
  if lang.divides && text.toList.contains '.' then
    (text.toList.splitOn '.').any fun part ↦ 1 < (lang.literalWord part).length
  else 1 < (lang.literalWord text.toList).length

/-- A break between syllables is plain. -/
theorem isPlain_syllableBreak (lang : Language) :
    (lang.syllableBreak Pattern.symbol .syllableBoundary).isPlain := by
  rw [syllableBreak]
  split
  · rfl
  · rw [Pattern.isPlain, decide_eq_true_iff]
    exact lang.inventory.length_readWord_le ['.'] false

/-- What stands in a list with separators is a separator or a member of the list. -/
private theorem eq_or_mem_of_mem_intersperse {α : Type} {separator a : α} :
    (l : List α) → a ∈ l.intersperse separator → a = separator ∨ a ∈ l
  | [], h => nomatch h
  | [_], h => .inr h
  | first :: second :: rest, h => by
    have h : a ∈ first :: separator :: (second :: rest).intersperse separator := h
    rcases List.mem_cons.mp h with rfl | h
    · exact .inr List.mem_cons_self
    · rcases List.mem_cons.mp h with rfl | h
      · exact .inl rfl
      · exact (eq_or_mem_of_mem_intersperse _ h).imp_right (List.mem_cons_of_mem first)

/-- A literal that is not long is plain. -/
theorem isPlain_literal {lang : Language} {text : String} (h : lang.isLong text = false)
    {ofWord : Word → Pattern} (hword : ∀ w : Word, w.length ≤ 1 → (ofWord w).isPlain) :
    (lang.literal ofWord .syllableBoundary .sequence text).isPlain := by
  rw [isLong] at h
  rw [literal]
  split at h
  · next hparts =>
    rw [if_pos hparts, Pattern.isPlain, Pattern.allPlain_eq, List.all_eq_true]
    intro p hp
    rw [literalParts, List.mem_flatten] at hp
    obtain ⟨ps, hps, hp⟩ := hp
    rcases eq_or_mem_of_mem_intersperse _ hps with rfl | hps
    · cases List.mem_singleton.mp hp
      rfl
    · obtain ⟨part, hpart, rfl⟩ := List.mem_map.mp hps
      split at hp
      · cases hp
      · cases List.mem_singleton.mp hp
        have hshort := List.any_eq_false.mp h part hpart
        exact hword _ (by simpa using hshort)
  · next hwhole =>
    rw [if_neg hwhole]
    exact hword _ (by simpa using h)

end Language

namespace Syntax

/-- A literal of an element with its names replaced by what they stand for. -/
structure Literal where
  /-- The text of the literal. -/
  text : String
  /-- Whether it is a member of a class. -/
  isMember : Bool

mutual

/-- The literals of an element, environments aside. -/
def Element.literals (follow : String → List Literal) : Element → List Literal
  | .text literal _ => [⟨literal, false⟩]
  | .reference name => follow name
  | .sequence items | .alternative items | .joined items _ => Element.allLiterals follow items
  | .negated inner | .repeater inner _ | .capture inner _ | .lookaround inner _ _ =>
    inner.literals follow
  | _ => []

/-- The literals of elements. -/
def Element.allLiterals (follow : String → List Literal) : List Element → List Literal
  | [] => []
  | e :: rest => e.literals follow ++ Element.allLiterals follow rest

end

namespace Scope

/-- The literals of what a name stands for. -/
def followLiterals (s : Scope) : String → List Literal :=
  s.resolve (fun _ ↦ []) (fun members ↦ members.flatten.map fun l ↦ { l with isMember := true })
    Element.literals

/-- The literals of an element. -/
def literals (s : Scope) (e : Element) : List Literal := e.literals s.followLiterals

end Scope

/-- Whether a literal comes to several segments although rules with a filter may have it: it is the
member of a class, or it has points and words are divided. -/
def Literal.Escapes (lang : Language) (l : Literal) : Prop :=
  lang.isLong l.text ∧ (l.isMember ∨ lang.divides ∧ '.' ∈ l.text.toList)

section Elements

variable {lang : Language}

/-- A literal that is accepted and does not escape is not long. -/
theorem Literal.isLong_eq_false {text : String}
    (hshort : (lang.inventory.readWord text.toList false).length ≤ 1)
    (h : ¬Literal.Escapes lang ⟨text, false⟩) : lang.isLong text = false := by
  by_contra hlong
  rw [Bool.not_eq_false] at hlong
  refine h ⟨hlong, .inr ?_⟩
  rw [Language.isLong] at hlong
  split at hlong
  · next hparts => simpa using hparts
  · rw [decide_eq_true_iff] at hlong
    exact absurd hshort (Nat.not_le.mpr hlong)

/-- The pattern of a literal that is not long is plain. -/
theorem Element.isPlain_text {follow : FollowPattern} {place : Place} {text : String}
    {exact : Bool} (h : lang.isLong text = false) :
    Ensures (·.isPlain) (fun _ ↦ True) ((Element.text text exact).pattern lang follow place) := by
  rw [Element.pattern]
  refine .ok (Language.isPlain_literal h fun w hw ↦ ?_)
  cases exact <;> exact decide_eq_true hw

section Following

variable {follow : String → Except Fault Unit} {followLiterals : String → List Literal}
  {followPattern : FollowPattern}

mutual

/-- An element that is accepted for a rule with a filter has a plain pattern if none of its literals
escapes. -/
theorem Element.isPlain_of_checkInput {followSide : FollowSide} {place : Place}
    (hfollow : ∀ name, follow name = .ok () → (∀ l ∈ followLiterals name, ¬l.Escapes lang) →
      Ensures (·.isPlain) (fun _ ↦ True) (followPattern name place)) :
    (e : Element) → e.checkInput lang.inventory followSide follow .filteredInput = .ok () →
      (∀ l ∈ e.literals followLiterals, ¬l.Escapes lang) →
        Ensures (·.isPlain) (fun _ ↦ True) (e.pattern lang followPattern place)
  | .empty, _, _ | .anySyllable, _, _ | .captureReference _ _, _, _ => by
    rw [Element.pattern]
    exact .ok rfl
  | .syllableBoundary, _, _ => by
    rw [Element.pattern]
    exact .ok lang.isPlain_syllableBreak
  | .text literal exact, h, hliterals => by
    rw [Element.checkInput] at h
    rw [Element.literals] at hliterals
    split at h
    · cases h
    · next hshort =>
      rw [not_and, Nat.not_lt] at hshort
      exact Element.isPlain_text
        (Literal.isLong_eq_false (hshort rfl) (hliterals _ List.mem_cons_self))
  | .matrix values, _, _ => by
    rw [Element.pattern, matrixPattern]
    refine (Ensures.anything _).bind fun m _ ↦ ?_
    dsimp only
    split
    · exact .ok rfl
    · split
      · exact .ok rfl
      · exact .ok rfl
  | .reference name, h, hliterals => by
    rw [Element.checkInput] at h
    rw [Element.literals] at hliterals
    rw [Element.pattern]
    exact hfollow name h hliterals
  | .sequence items, h, hliterals | .alternative items, h, hliterals => by
    rw [Element.checkInput] at h
    rw [Element.literals] at hliterals
    rw [Element.pattern]
    exact (Element.allPlain_of_checkInputs hfollow items h hliterals).bind fun _ hps ↦ .ok hps
  | .joined [] joints, _, _ => by
    rw [Element.pattern]
    split
    · exact .error trivial
    · exact .ok rfl
  | .joined (initial :: rest) joints, h, hliterals => by
    rw [Element.checkInput] at h
    rw [Element.literals, Element.allLiterals] at hliterals
    obtain ⟨hown, hothers⟩ := List.forall_mem_append.mp hliterals
    obtain ⟨⟨⟩, -, h⟩ := exists_of_bind_eq_ok h
    split at h
    · cases h
    · rw [Element.checkInputs] at h
      obtain ⟨⟨⟩, hinitial, hrest⟩ := exists_of_bind_eq_ok h
      rw [Element.pattern]
      split
      · exact .error trivial
      · refine (Element.allPlain_of_checks hfollow rest joints hrest hothers).bind
          fun checks hchecks ↦ ?_
        refine (Element.isPlain_of_checkInput hfollow initial hinitial hown).bind
          fun pattern hpattern ↦ .ok ?_
        rw [Pattern.isPlain, Bool.and_eq_true]
        exact ⟨hpattern, hchecks⟩
  | .repeater inner bounds, h, _ => by
    rw [Element.checkInput, if_pos rfl] at h
    cases h
  | .betweenWords, h, _ => by
    rw [Element.checkInput, if_pos rfl] at h
    cases h
  | .wordBoundary, h, _ => by
    rw [Element.checkInput] at h
    cases h
  | .negated inner, h, hliterals | .capture inner _, h, hliterals => by
    rw [Element.checkInput] at h
    rw [Element.literals] at hliterals
    rw [Element.pattern]
    exact (Element.isPlain_of_checkInput hfollow inner h hliterals).bind fun _ hp ↦ .ok hp
  | .lookaround inner conditions exclusions, h, hliterals => by
    rw [Element.checkInput] at h
    rw [Element.literals] at hliterals
    obtain ⟨⟨⟩, hinner, -⟩ := exists_of_bind_eq_ok h
    rw [Element.pattern]
    refine (Ensures.anything _).bind fun _ _ ↦ (Ensures.anything _).bind fun _ _ ↦ ?_
    exact (Element.isPlain_of_checkInput hfollow inner hinner hliterals).bind fun _ hp ↦ .ok hp

/-- Elements that are accepted for a rule with a filter have plain patterns if none of their
literals escapes. -/
theorem Element.allPlain_of_checkInputs {followSide : FollowSide} {place : Place}
    (hfollow : ∀ name, follow name = .ok () → (∀ l ∈ followLiterals name, ¬l.Escapes lang) →
      Ensures (·.isPlain) (fun _ ↦ True) (followPattern name place)) :
    (items : List Element) →
      Element.checkInputs lang.inventory followSide follow .filteredInput items = .ok () →
      (∀ l ∈ Element.allLiterals followLiterals items, ¬l.Escapes lang) →
        Ensures (Pattern.allPlain ·) (fun _ ↦ True)
          (Element.patterns lang followPattern place items)
  | [], _, _ => .ok rfl
  | e :: rest, h, hliterals => by
    rw [Element.checkInputs] at h
    rw [Element.allLiterals] at hliterals
    obtain ⟨hown, hothers⟩ := List.forall_mem_append.mp hliterals
    obtain ⟨⟨⟩, hfirst, hrest⟩ := exists_of_bind_eq_ok h
    rw [Element.patterns]
    refine (Element.isPlain_of_checkInput hfollow e hfirst hown).bind fun p hp ↦ ?_
    refine (Element.allPlain_of_checkInputs hfollow rest hrest hothers).bind fun ps hps ↦ .ok ?_
    rw [Pattern.allPlain, Bool.and_eq_true]
    exact ⟨hp, hps⟩

/-- The checks that such elements are have plain patterns. -/
theorem Element.allPlain_of_checks {followSide : FollowSide} {place : Place}
    (hfollow : ∀ name, follow name = .ok () → (∀ l ∈ followLiterals name, ¬l.Escapes lang) →
      Ensures (·.isPlain) (fun _ ↦ True) (followPattern name place)) :
    (items : List Element) → (joints : List Joint) →
      Element.checkInputs lang.inventory followSide follow .filteredInput items = .ok () →
      (∀ l ∈ Element.allLiterals followLiterals items, ¬l.Escapes lang) →
        Ensures (Check.allPlain ·) (fun _ ↦ True)
          (Element.checks lang followPattern place items joints)
  | [], _, _, _ => by
    rw [Element.checks]
    · exact .ok rfl
    · simp
  | _ :: _, [], _, _ => by
    rw [Element.checks]
    · exact .ok rfl
    · simp
  | e :: rest, joint :: joints, h, hliterals => by
    rw [Element.checkInputs] at h
    rw [Element.allLiterals] at hliterals
    obtain ⟨hown, hothers⟩ := List.forall_mem_append.mp hliterals
    obtain ⟨⟨⟩, hfirst, hrest⟩ := exists_of_bind_eq_ok h
    rw [Element.checks]
    refine (Element.isPlain_of_checkInput hfollow e hfirst hown).bind fun p hp ↦ ?_
    refine (Element.allPlain_of_checks hfollow rest joints hrest hothers).bind fun cs hcs ↦ .ok ?_
    rw [Check.allPlain, Bool.and_eq_true]
    exact ⟨hp, hcs⟩

end

end Following

namespace Scope

variable {s t : Scope}

/-- The pattern of a class of literals is plain if none of them escapes. -/
theorem isPlain_of_members {members : List Element} (hmembers : ∀ m ∈ members, m.isLiteral)
    {followLiterals : String → List Literal} {followPattern : FollowPattern} {place : Place}
    (h : ∀ l ∈ ((members.map (Element.literals followLiterals)).flatten.map fun l ↦
      { l with isMember := true } : List Literal), ¬l.Escapes lang) :
    Ensures (·.isPlain) (fun _ ↦ True) (do
      return Pattern.alternative (← (members.map fun m place ↦
        m.pattern lang followPattern place).mapM fun member ↦ member place)) := by
  have hmember : ∀ member ∈ members.map fun m place ↦ m.pattern lang followPattern place,
      Ensures (·.isPlain) (fun _ ↦ True) (member place) := by
    intro member hmember
    obtain ⟨m, hm, rfl⟩ := List.mem_map.mp hmember
    cases m with
    | text text exact =>
      refine Element.isPlain_text (Bool.eq_false_iff.mpr fun hlong ↦ ?_)
      refine h ⟨text, true⟩ ?_ ⟨hlong, .inl rfl⟩
      refine List.mem_map.mpr ⟨⟨text, false⟩, ?_, rfl⟩
      exact List.mem_flatten.mpr ⟨_, List.mem_map_of_mem hm, List.mem_cons_self⟩
    | _ => cases hmembers _ hm
  refine (Ensures.mapM_all hmember).bind fun ps hps ↦ .ok ?_
  rw [Pattern.isPlain, Pattern.allPlain_eq, List.all_eq_true]
  exact hps

/-- A name that is accepted for a rule with a filter has a plain pattern if none of its literals
escapes. -/
theorem WellFormed.isPlain_of_follow (hs : s.WellFormed) {followSide : FollowSide} {place : Place}
    {name : String}
    (h : s.follow (fun follow body ↦
      body.checkInput lang.inventory followSide follow .filteredInput) name = .ok ())
    (hliterals : ∀ l ∈ s.followLiterals name, ¬l.Escapes lang) :
    Ensures (·.isPlain) (fun _ ↦ True) (s.followPattern lang name place) := by
  induction hs generalizing name with
  | nil => cases h
  | @cons rest d _ _ hd ih =>
    by_cases hown : d.name = name
    · cases d with
      | soundClass n members =>
        have hown : n = name := hown
        rw [followLiterals, resolve, if_pos hown] at hliterals
        rw [followPattern, resolve, if_pos hown]
        exact isPlain_of_members hd hliterals
      | element n body =>
        have hown : n = name := hown
        rw [follow, resolve, if_pos hown] at h
        rw [followLiterals, resolve, if_pos hown] at hliterals
        rw [followPattern, resolve, if_pos hown]
        exact Element.isPlain_of_checkInput (fun _ h hl ↦ ih h hl) body h hliterals
    · rw [follow, resolve_cons_of_ne _ _ _ _ hown] at h
      rw [followLiterals, resolve_cons_of_ne _ _ _ _ hown] at hliterals
      rw [followPattern, resolve_cons_of_ne _ _ _ _ hown]
      exact ih h hliterals

/-- An element that was accepted for a rule with a filter has a plain pattern in every scope to
which its own has grown, if none of its literals escapes. -/
theorem GrowsTo.isPlain_of_checkInput (h : s.GrowsTo t) (ht : t.WellFormed) {place : Place}
    {e : Element} (hcheck : s.checkInput lang.inventory .filteredInput e = .ok ())
    (hliterals : ∀ l ∈ t.literals e, ¬l.Escapes lang) :
    Ensures (·.isPlain) (fun _ ↦ True) (t.pattern lang place e) := by
  refine Element.isPlain_of_checkInput (fun name hname hl ↦ ?_) e hcheck hliterals
  have hdeclared : s.declares name := by
    by_contra hmissing
    rw [follow, resolve_of_not_declares _ _ _ (by simpa using hmissing)] at hname
    cases hname
  rw [follow, ← h.resolve_of_declares _ _ _ hdeclared] at hname
  exact ht.isPlain_of_follow hname hl

/-- An expression that was accepted for a rule with a filter and is linked in a scope to which its
own has grown replaces a plain pattern, or a literal escapes. -/
theorem GrowsTo.isPlain_of_check (h : s.GrowsTo t) (ht : t.WellFormed) {e : Expression}
    (hcheck : e.check lang.inventory s true = .ok ()) {linked : Diachrony.Expression}
    (hlinked : t.expression lang e = .ok linked) :
    linked.pairing.pattern.isPlain ∨ ∃ l ∈ t.literals e.source, l.Escapes lang := by
  by_contra hneither
  rw [not_or] at hneither
  obtain ⟨hplain, hnone⟩ := hneither
  obtain ⟨⟨⟩, hsource, -⟩ := exists_of_bind_eq_ok hcheck
  obtain ⟨pattern, hpattern, hlinked⟩ := exists_of_bind_eq_ok hlinked
  obtain ⟨output, -, hlinked⟩ := exists_of_bind_eq_ok hlinked
  obtain ⟨pairing, hpairing, hlinked⟩ := exists_of_bind_eq_ok hlinked
  obtain ⟨surroundings, -, hlinked⟩ := exists_of_bind_eq_ok hlinked
  cases hlinked
  rw [(Pattern.pattern_pair _ _ _ _).of_ok hpairing] at hplain
  exact hplain ((h.isPlain_of_checkInput ht hsource
    fun l hl hescapes ↦ hnone ⟨l, hl, hescapes⟩).of_ok hpattern)

end Scope

end Elements

section Programs

variable {inv : Inventory} {p : Program}

/-- Whether an expression comes from one that escapes the check of rules with filters: one of a
deferred rule, which is accepted without a filter and may be referred to under one, or one with a
literal that escapes. -/
def Program.Escapes (inv : Inventory) (p : Program) (linked : Diachrony.Expression) : Prop :=
  ∃ (lang : Language) (e : Expression), lang.inventory = inv ∧
    (Scope.behind p.statements).expression lang e = .ok linked ∧
    ((∃ d ∈ p.deferredRules, (false, .expression e) ∈ d.entries) ∨
      ∃ l ∈ (Scope.behind p.statements).literals e.source, l.Escapes lang)

/-- What an accepted program promises of an expression under a filter. -/
def Program.KeepsPlain (inv : Inventory) (p : Program) (filtered : Bool)
    (linked : Diachrony.Expression) : Prop :=
  filtered → linked.pairing.pattern.isPlain ∨ p.Escapes inv linked

/-- A name finds a deferred rule if it finds anything. -/
theorem finds_deferred (deferred : List RuleDeclaration) (name : String) :
    Finds deferred (fun _ ↦ True) (· ∈ deferred) name := fun _ ↦
  .intro (fun _ hr ↦ List.mem_of_find?_eq_some (find?_of_findDeferred hr)) fun _ _ ↦ trivial

namespace Program.IsAccepted

variable (hp : p.IsAccepted inv) {lang : Language} (hlang : lang.inventory = inv) {names : Scope}
  (hnames : names.GrowsTo (.behind p.statements))
include hp hlang hnames

/-- An expression that was accepted for a rule with a filter is linked to one that is plain or
escapes. -/
theorem keepsPlain_of_check {scope : Scope} (hscope : scope.GrowsTo (.behind p.statements))
    {e : Expression} (hcheck : e.check inv scope true = .ok ()) (filtered : Bool) :
    Ensures (p.KeepsPlain inv filtered) (fun _ ↦ True) (names.expression lang e) := by
  subst hlang
  refine .intro (fun linked hlinked _ ↦ ?_) fun _ _ ↦ trivial
  have hlinked := hnames.expression_persists lang e linked hlinked
  refine (hscope.isPlain_of_check hp.wellFormed hcheck hlinked).imp_right fun hescapes ↦ ?_
  exact ⟨lang, e, rfl, hlinked, .inr hescapes⟩

/-- Deferred rules are linked to expressions that are plain or escape. -/
theorem knowsDeferred_keepsPlain :
    KnowsDeferred lang names p.deferredRules (p.KeepsPlain inv) (fun _ ↦ True)
      (· ∈ p.deferredRules) := by
  constructor
  · intro d hd flag e hentry filtered rule number
    have hexpression : Ensures (p.KeepsPlain inv filtered) (fun _ ↦ True)
        (names.expression lang e) := by
      cases flag with
      | true =>
        obtain ⟨scope, hscope, hchecked⟩ := hp.exists_of_mem_deferredRules hd
        exact hp.keepsPlain_of_check hlang hnames hscope (hchecked.1 _ hentry) filtered
      | false =>
        refine .intro (fun linked hlinked _ ↦ .inr ?_) fun _ _ ↦ trivial
        have hlinked := hnames.expression_persists lang e linked hlinked
        exact ⟨lang, e, hlang, hlinked, .inl ⟨d, hd, hentry⟩⟩
    exact hexpression.mapError fun _ _ ↦ trivial
  · exact fun _ _ _ _ _ ↦ finds_deferred _ _
  · exact fun _ _ _ _ ↦ .anything _
  · exact fun _ _ ↦ trivial

/-- What is accepted at its place is linked to expressions that are plain or escape. -/
theorem areLinked_keepsPlain {rule name : String} {trail : List String}
    {entries : List (Bool × Item)} {filters : List Element}
    (h : AreChecked ⟨inv, names, p.deferredRules.map RuleDeclaration.name, name⟩ entries filters) :
    AreLinked (p.KeepsPlain inv) (fun _ ↦ True)
      ⟨lang, names, .of lang names p.deferredRules, rule, trail⟩ entries filters := by
  refine (hp.knowsDeferred_keepsPlain hlang hnames).areLinked_of ?_ ?_ ?_
  · intro flag e hentry number
    have hexpression : Ensures (p.KeepsPlain inv flag) (fun _ ↦ True)
        (names.expression lang e) := by
      cases flag with
      | true => exact hp.keepsPlain_of_check hlang hnames hnames (h.1 _ hentry) true
      | false => exact .intro (fun _ _ hfalse ↦ nomatch hfalse) fun _ _ ↦ trivial
    exact hexpression.mapError fun _ _ ↦ trivial
  · exact fun _ _ _ ↦ finds_deferred _ _
  · exact fun _ _ ↦ .anything _

end Program.IsAccepted

/-- The rules of an accepted program are linked to expressions that are plain under filters, or
escape. -/
theorem Program.IsAccepted.link_keepsPlain (hp : p.IsAccepted inv) {base : Language}
    (hbase : base.inventory = inv) :
    Ensures (fun pipeline ↦ ∀ rule ∈ pipeline.rules, rule.rule.Holds (p.KeepsPlain inv))
      (fun _ ↦ True) (p.link base) := by
  refine (hp.links hbase (fun _ ↦ .anything _) ?_).link
  intro names body hbody lang name trail entries filters hlang hchecked _
  exact hp.areLinked_keepsPlain hlang (hp.growsTo_of_linksIn hbody) hchecked

end Programs

end Syntax

end Diachrony
