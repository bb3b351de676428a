import Diachrony.Proofs.Linking.Alike
import Diachrony.Proofs.Linking.Mending

/-!
# Suggestions that change nothing

A repeater at an edge of an environment is refused because it has no effect. It has none if nothing
is read on where it ends: then a search asks only whether something starts there, and a repeater
starts where as many copies start as it needs at least. So the environment in which the repeater is
replaced as the message suggests holds around the same spans.

Two places that are checked as edges are none. A repeater inside of a fixed number of repetitions is
followed by the next of them, and one in the core of a lookaround by what the lookaround asks for
behind the core.
-/

namespace Diachrony.Syntax

/-- Whether an element at an edge of an environment stands at a place. -/
structure Edge.Suits (edge : Edge) (place : Place) : Prop where
  /-- Only on the side before the span is there nothing before it. -/
  before : edge.atStart → place = .before
  /-- Only on the side after the span is there nothing behind it. -/
  after : edge.atEnd → place = .after

namespace Edge

variable {edge : Edge} {place : Place}

/-- An item of a sequence stands at the place of the sequence. -/
theorem Suits.ofItem (h : edge.Suits place) (isFirst isLast : Bool) :
    (edge.ofItem isFirst isLast).Suits place := by
  constructor
  · exact fun hstart ↦ h.before (Bool.and_eq_true_iff.mp hstart).1
  · exact fun hend ↦ h.after (Bool.and_eq_true_iff.mp hend).1

/-- The whole side before a span stands before it. -/
theorem suits_before : before.Suits .before := ⟨fun _ ↦ rfl, nofun⟩

/-- The whole side after a span stands after it. -/
theorem suits_after : after.Suits .after := ⟨nofun, fun _ ↦ rfl⟩

/-- A place that is at no edge may be anywhere. -/
theorem suits_interior : interior.Suits place := ⟨nofun, nofun⟩

end Edge

section Linking

/-- Whether a mended part of something is linked wherever the part itself is, to something that is
related. A repeater that is not nested in the part must stand at an edge of it, and it must be
idle. -/
structure Mend.IsLike {α β : Type} (link : α → Except Fault β) (related : Bool → β → β → Prop)
    (isOutermost : Bool) (part : α) (m : Mend α) : Prop where
  /-- The part stands at an edge if the repeater is not nested in it. -/
  isOutermost : m.isNested = false → isOutermost
  /-- The mended part is linked. -/
  links : m.isIdle → ∀ b, link part = .ok b → ∃ b', link m.value = .ok b' ∧ related m.isNested b b'

namespace Mend.IsLike

variable {α α' β β' : Type} {link : α → Except Fault β} {related : Bool → β → β → Prop}
  {link' : α' → Except Fault β'} {related' : Bool → β' → β' → Prop} {isOutermost : Bool} {part : α}
  {m : Mend α}

/-- What holds of a part holds of the whole that it stands in. -/
theorem map (h : m.IsLike link related isOutermost part) (f : α → α') {isOutermost' : Bool}
    (hedge : isOutermost → isOutermost')
    (hlink : ∀ c, link' (f part) = .ok c → ∃ b, link part = .ok b ∧ ∀ part' b',
      link part' = .ok b' → related m.isNested b b' →
        ∃ c', link' (f part') = .ok c' ∧ related' m.isNested c c') :
    (m.map f).IsLike link' related' isOutermost' (f part) where
  isOutermost hnested := hedge (h.isOutermost hnested)
  links hidle c hc := by
    obtain ⟨b, hb, hothers⟩ := hlink c hc
    obtain ⟨b', hb', hrelated⟩ := h.links hidle b hb
    exact hothers m.value b' hb' hrelated

/-- Where it is read on, only nested repeaters are idle. -/
theorem readOnIf {readsOn : Bool} (hedge : m.isNested = false → isOutermost)
    (h : (readsOn → m.isNested) → m.IsLike link related isOutermost part) :
    (m.readOnIf readsOn).IsLike link related isOutermost part where
  isOutermost := hedge
  links hidle := by
    simp only [isIdle, Mend.readOnIf, Bool.and_eq_true, Bool.or_eq_true] at hidle
    have hnested : readsOn → m.isNested := by
      rintro rfl
      simpa using hidle.1.2
    refine (h hnested).links ?_
    rw [isIdle, hidle.1.1, hidle.2]
    rfl

/-- What holds of environments holds of the whole that they are nested in. -/
theorem nested (h : m.IsLike link related isOutermost part) (f : α → α') {isOutermost' : Bool}
    (hlink : ∀ c, link' (f part) = .ok c → ∃ b, link part = .ok b ∧ ∀ part' b',
      link part' = .ok b' → related m.isNested b b' →
        ∃ c', link' (f part') = .ok c' ∧ related' true c c') :
    (m.map f).nested.IsLike link' related' isOutermost' (f part) where
  isOutermost hnested := nomatch hnested
  links hidle c hc := by
    obtain ⟨b, hb, hothers⟩ := hlink c hc
    obtain ⟨b', hb', hrelated⟩ := h.links hidle b hb
    exact hothers m.value b' hb' hrelated

end Mend.IsLike

variable {lang : Language} {follow : FollowPattern} {followMend : FollowMend}

/-- Whether a pattern is what a side of an environment is linked to; a side that is missing is
empty. -/
def SideLinks (lang : Language) (follow : FollowPattern) (place : Place) (side : Option Element)
    (p : Pattern) : Prop :=
  match side with
  | none => p = .empty
  | some e => e.pattern lang follow place = .ok p

/-- Environments are linked one by one, and each of them side by side. -/
theorem Environment.surroundings_cons_eq_ok_iff {env : Environment} {rest : List Environment}
    {l : List Surroundings} :
    Environment.surroundings lang follow (env :: rest) = .ok l ↔
      ∃ before after others, SideLinks lang follow .before env.before before ∧
        SideLinks lang follow .after env.after after ∧
        Environment.surroundings lang follow rest = .ok others ∧
        l = .of before after :: others := by
  obtain ⟨before?, after?⟩ := env
  constructor
  · intro h
    cases before? <;> cases after? <;> rw [Environment.surroundings] at h
    · obtain ⟨others, hothers, h⟩ := exists_of_bind_eq_ok h
      cases h
      exact ⟨.empty, .empty, others, rfl, rfl, hothers, rfl⟩
    · obtain ⟨after, hafter, h⟩ := exists_of_bind_eq_ok h
      obtain ⟨others, hothers, h⟩ := exists_of_bind_eq_ok h
      cases h
      exact ⟨.empty, after, others, rfl, hafter, hothers, rfl⟩
    · obtain ⟨before, hbefore, h⟩ := exists_of_bind_eq_ok h
      obtain ⟨others, hothers, h⟩ := exists_of_bind_eq_ok h
      cases h
      exact ⟨before, .empty, others, hbefore, rfl, hothers, rfl⟩
    · obtain ⟨before, hbefore, h⟩ := exists_of_bind_eq_ok h
      obtain ⟨after, hafter, h⟩ := exists_of_bind_eq_ok h
      obtain ⟨others, hothers, h⟩ := exists_of_bind_eq_ok h
      cases h
      exact ⟨before, after, others, hbefore, hafter, hothers, rfl⟩
  · rintro ⟨before, after, others, hbefore, hafter, hothers, rfl⟩
    cases before? <;> cases after? <;> rw [Environment.surroundings]
    · cases hbefore
      cases hafter
      exact bind_eq_ok hothers rfl
    · cases hbefore
      exact bind_eq_ok hafter (bind_eq_ok hothers rfl)
    · cases hafter
      exact bind_eq_ok hbefore (bind_eq_ok hothers rfl)
    · exact bind_eq_ok hbefore (bind_eq_ok hafter (bind_eq_ok hothers rfl))

/-- Surroundings that an edge does not cross do not look at where their core ends. -/
theorem Environment.across_eq_empty {edge : Edge} {place : Place} (hsuits : edge.Suits place)
    (hedge : edge.isOutermost) {environments : List Environment}
    (hcrossed : ∀ env ∈ environments, edge.isCrossedBy env = false) {l : List Surroundings}
    (h : Environment.surroundings lang follow environments = .ok l) :
    ∀ s ∈ l, place.across s = .empty := by
  induction environments generalizing l with
  | nil =>
    cases h
    exact List.forall_mem_nil _
  | cons env rest ih =>
    rw [List.forall_mem_cons] at hcrossed
    obtain ⟨before, after, others, hbefore, hafter, hothers, rfl⟩ :=
      Environment.surroundings_cons_eq_ok_iff.mp h
    refine List.forall_mem_cons.mpr ⟨?_, ih hcrossed.2 hothers⟩
    have hfirst := hcrossed.1
    simp only [Edge.isCrossedBy, Bool.or_eq_false_iff, Bool.and_eq_false_imp,
      Option.isSome_eq_false_iff, Option.isNone_iff_eq_none] at hfirst
    rcases Bool.or_eq_true_iff.mp hedge with hstart | hend
    · rw [hfirst.1 hstart] at hbefore
      rw [hsuits.before hstart, show before = .empty from hbefore]
      rfl
    · rw [hfirst.2 hend] at hafter
      rw [hsuits.after hend]
      exact hafter

namespace Mend.IsLike

/-- Environments behind another one. -/
theorem behind {rest : List Environment} {m : Mend (List Environment)}
    (h : m.IsLike (Environment.surroundings lang follow)
      (fun _ ↦ List.Forall₂ (SidesAlike lang.inventory)) true rest) (env : Environment) :
    (m.map (env :: ·)).IsLike (Environment.surroundings lang follow)
      (fun _ ↦ List.Forall₂ (SidesAlike lang.inventory)) true (env :: rest) := by
  refine h.map (env :: ·) id fun c hc ↦ ?_
  obtain ⟨before, after, others, hbefore, hafter, hothers, rfl⟩ :=
    Environment.surroundings_cons_eq_ok_iff.mp hc
  refine ⟨others, hothers, fun _ others' hothers' halike ↦ ⟨_, ?_, .cons (.refl _) halike⟩⟩
  exact Environment.surroundings_cons_eq_ok_iff.mpr
    ⟨before, after, others', hbefore, hafter, hothers', rfl⟩

/-- The side before a span. -/
theorem sideBefore {e : Element} {m : Mend Element} {isOutermost : Bool}
    (h : m.IsLike (·.pattern lang follow .before) (Alike lang.inventory .before) isOutermost e)
    (after? : Option Element) (rest : List Environment) :
    (m.map fun e ↦ .mk (some e) after? :: rest).IsLike (Environment.surroundings lang follow)
      (fun _ ↦ List.Forall₂ (SidesAlike lang.inventory)) true (.mk (some e) after? :: rest) := by
  refine h.map (fun e ↦ Environment.mk (some e) after? :: rest) (fun _ ↦ rfl) fun c hc ↦ ?_
  obtain ⟨before, after, others, hbefore, hafter, hothers, rfl⟩ :=
    Environment.surroundings_cons_eq_ok_iff.mp hc
  refine ⟨before, hbefore, fun _ before' hbefore' halike ↦ ⟨_, ?_,
    .cons (.of_before halike after) (List.forall₂_same.mpr fun s _ ↦ .refl s)⟩⟩
  exact Environment.surroundings_cons_eq_ok_iff.mpr
    ⟨before', after, others, hbefore', hafter, hothers, rfl⟩

/-- The side after a span. -/
theorem sideAfter {e : Element} {m : Mend Element} {isOutermost : Bool}
    (h : m.IsLike (·.pattern lang follow .after) (Alike lang.inventory .after) isOutermost e)
    (before? : Option Element) (rest : List Environment) :
    (m.map fun e ↦ .mk before? (some e) :: rest).IsLike (Environment.surroundings lang follow)
      (fun _ ↦ List.Forall₂ (SidesAlike lang.inventory)) true (.mk before? (some e) :: rest) := by
  refine h.map (fun e ↦ Environment.mk before? (some e) :: rest) (fun _ ↦ rfl) fun c hc ↦ ?_
  obtain ⟨before, after, others, hbefore, hafter, hothers, rfl⟩ :=
    Environment.surroundings_cons_eq_ok_iff.mp hc
  refine ⟨after, hafter, fun _ after' hafter' halike ↦ ⟨_, ?_,
    .cons (.of_after before halike) (List.forall₂_same.mpr fun s _ ↦ .refl s)⟩⟩
  exact Environment.surroundings_cons_eq_ok_iff.mpr
    ⟨before, after', others, hbefore, hafter', hothers, rfl⟩

end Mend.IsLike

/-- The suggestion for a repeater at an edge starts where the repeater does. -/
theorem Alike.suggested {inner : Element} {bounds : Repeat} {place : Place} {p : Pattern}
    (h : inner.pattern lang follow place = .ok p) (hpossible : bounds.isPossible) :
    ∃ p', (bounds.suggested inner).pattern lang follow place = .ok p' ∧
      Alike lang.inventory place false (.repeater p bounds.min bounds.max) p' := by
  have hmax : ∀ most ∈ bounds.max, bounds.min ≤ most := by
    simpa [Repeat.isPossible, Option.all_eq_true] using hpossible
  have hspans (min : Nat) (max : Option Nat) : place.spans lang.inventory (.repeater p min max) =
      .repeated (place.spans lang.inventory p) min max := by cases place <;> rfl
  have hcopies := Spans.startAlike_copies (place.spans lang.inventory p) hmax
  rw [← hspans] at hcopies
  obtain ⟨min, max⟩ := bounds
  match min with
  | 0 =>
    refine ⟨.empty, rfl, fun _ ↦ rfl, hcopies.trans fun scan start ↦ ?_, nofun⟩
    refine iff_of_true ⟨start, rfl⟩ ?_
    cases place <;> exact Spans.exists_emptyIf_true scan start
  | 1 => exact ⟨p, h, id, hcopies.trans (Spans.startAlike_singleton _), nofun⟩
  | n + 2 =>
    refine ⟨.repeater p (n + 2) (some (n + 2)), bind_eq_ok h rfl, id, hcopies.trans ?_, nofun⟩
    rw [hspans]
    refine (Spans.startAlike_copies _ ?_).symm
    rintro _ ⟨⟩
    exact Nat.le_refl _

/-- Whether names are mended to what is linked wherever they are, and is alike. -/
def FollowMend.IsLike (followMend : FollowMend) (lang : Language) (follow : FollowPattern) : Prop :=
  ∀ {edge place}, edge.Suits place → ∀ {name env m}, followMend name edge env = some m →
    m.IsLike (·.pattern lang follow place) (Alike lang.inventory place) edge.isOutermost
      (.reference name)

mutual

/-- A mended element is linked alike. -/
theorem Element.isLike_mend (hfollow : followMend.IsLike lang follow) {place : Place} :
    (e : Element) → {edge : Edge} → edge.Suits place → {env : Environment} → {m : Mend Element} →
    e.mend followMend edge env = some m →
    m.IsLike (·.pattern lang follow place) (Alike lang.inventory place) edge.isOutermost e
  | .sequence items, edge, hsuits, env, m, hm => by
    obtain ⟨m, hitems, rfl⟩ := Option.map_eq_some_iff.mp hm
    refine (Element.isLike_mendItems hfollow items hsuits hitems).map Element.sequence ?_ ?_
    · rw [Bool.and_true]
      exact id
    · intro c hc
      obtain ⟨ps, hps, hc⟩ := exists_of_bind_eq_ok hc
      cases hc
      exact ⟨ps, hps, fun _ ps' hps' halike ↦ ⟨_, bind_eq_ok hps' rfl, halike⟩⟩
  | .alternative options, edge, hsuits, env, m, hm => by
    obtain ⟨m, hoptions, rfl⟩ := Option.map_eq_some_iff.mp hm
    refine (Element.isLike_mendOne hfollow options hsuits hoptions).map Element.alternative id ?_
    intro c hc
    obtain ⟨ps, hps, hc⟩ := exists_of_bind_eq_ok hc
    cases hc
    exact ⟨ps, hps, fun _ ps' hps' halike ↦ ⟨_, bind_eq_ok hps' rfl, .alternative halike⟩⟩
  | .repeater inner bounds, edge, hsuits, env, m, hm => by
    rw [Element.mend] at hm
    split at hm
    · next hedge =>
      cases hm
      refine ⟨fun _ ↦ (Bool.and_eq_true_iff.mp hedge).1, fun hidle c hc ↦ ?_⟩
      obtain ⟨p, hp, hc⟩ := exists_of_bind_eq_ok hc
      cases hc
      exact Alike.suggested hp hidle
    · obtain ⟨m, hinner, rfl⟩ := Option.map_eq_some_iff.mp hm
      have hlike := Element.isLike_mend hfollow inner hsuits hinner
      refine .readOnIf hlike.isOutermost fun hnested ↦
        hlike.map (Element.repeater · bounds) id fun c hc ↦ ?_
      obtain ⟨p, hp, hc⟩ := exists_of_bind_eq_ok hc
      cases hc
      refine ⟨p, hp, fun _ p' hp' halike ↦ ⟨_, bind_eq_ok hp' rfl, ?_⟩⟩
      rw [show m.isNested = true from hnested rfl] at halike
      exact halike.repeater bounds.min bounds.max
  | .capture inner number, edge, hsuits, env, m, hm => by
    obtain ⟨m, hinner, rfl⟩ := Option.map_eq_some_iff.mp hm
    refine (Element.isLike_mend hfollow inner hsuits hinner).map (Element.capture · number) id
      fun c hc ↦ ?_
    obtain ⟨p, hp, hc⟩ := exists_of_bind_eq_ok hc
    cases hc
    exact ⟨p, hp, fun _ p' hp' halike ↦ ⟨_, bind_eq_ok hp' rfl, halike.capture number⟩⟩
  | .negated inner, edge, hsuits, env, m, hm => by
    obtain ⟨m, hinner, rfl⟩ := Option.map_eq_some_iff.mp hm
    have hinterior : Edge.interior.Suits place := Edge.suits_interior
    have hlike := Element.isLike_mend hfollow inner hinterior hinner
    have hnested : m.isNested = true := by
      cases hnested : m.isNested with
      | true => rfl
      | false => exact absurd (hlike.isOutermost hnested) nofun
    refine hlike.map Element.negated (fun h ↦ nomatch h) fun c hc ↦ ?_
    obtain ⟨p, hp, hc⟩ := exists_of_bind_eq_ok hc
    cases hc
    refine ⟨p, hp, fun _ p' hp' halike ↦ ⟨_, bind_eq_ok hp' rfl, ?_⟩⟩
    rw [hnested] at halike
    exact halike.negated
  | .joined elements joints, edge, hsuits, env, m, hm => by
    obtain ⟨m, helements, rfl⟩ := Option.map_eq_some_iff.mp hm
    refine (Element.isLike_joined hfollow elements joints hsuits helements).map
      (Element.joined · joints) id fun c hc ↦ ?_
    exact ⟨c, hc, fun _ c' hc' halike ↦ ⟨c', hc', halike⟩⟩
  | .lookaround inner conditions exclusions, edge, hsuits, env, m, hm => by
    have hlinked : ∀ c, (Element.lookaround inner conditions exclusions).pattern lang follow place =
        .ok c → ∃ l l' p, Environment.surroundings lang follow conditions = .ok l ∧
          Environment.surroundings lang follow exclusions = .ok l' ∧
          inner.pattern lang follow place = .ok p ∧ c = .environment p l l' := by
      intro c hc
      rw [Element.pattern] at hc
      obtain ⟨l, hl, hc⟩ := exists_of_bind_eq_ok hc
      obtain ⟨l', hl', hc⟩ := exists_of_bind_eq_ok hc
      obtain ⟨p, hp, hc⟩ := exists_of_bind_eq_ok hc
      cases hc
      exact ⟨l, l', p, hl, hl', hp, rfl⟩
    rcases Option.or_eq_some_iff.mp hm with hm | ⟨-, hm⟩
    · obtain ⟨m, hinner, rfl⟩ := Option.map_eq_some_iff.mp hm
      have hlike := Element.isLike_mend hfollow inner hsuits hinner
      refine .readOnIf hlike.isOutermost fun hnested ↦
        hlike.map (Element.lookaround · conditions exclusions) id fun c hc ↦ ?_
      obtain ⟨l, l', p, hl, hl', hp, rfl⟩ := hlinked c hc
      refine ⟨p, hp, fun _ p' hp' halike ↦
        ⟨_, bind_eq_ok hl (bind_eq_ok hl' (bind_eq_ok hp' rfl)), halike.core fun hnot ↦ ?_⟩⟩
      have hcrossed : (conditions ++ exclusions).any edge.isCrossedBy = false := by
        cases hany : (conditions ++ exclusions).any edge.isCrossedBy with
        | false => rfl
        | true => exact absurd (hnested hany) (Bool.eq_false_iff.mp hnot)
      simp only [List.any_append, Bool.or_eq_false_iff, List.any_eq_false, Bool.not_eq_true]
        at hcrossed
      have hedge := hlike.isOutermost hnot
      exact List.forall_mem_append.mpr
        ⟨Environment.across_eq_empty hsuits hedge hcrossed.1 hl,
          Environment.across_eq_empty hsuits hedge hcrossed.2 hl'⟩
    rcases Option.or_eq_some_iff.mp hm with hm | ⟨-, hm⟩
    · obtain ⟨m, hconditions, rfl⟩ := Option.map_eq_some_iff.mp hm
      refine (Environment.isLike_mendOne hfollow conditions hconditions).nested
        (Element.lookaround inner · exclusions) fun c hc ↦ ?_
      obtain ⟨l, l', p, hl, hl', hp, rfl⟩ := hlinked c hc
      refine ⟨l, hl, fun _ k hk halike ↦
        ⟨_, bind_eq_ok hk (bind_eq_ok hl' (bind_eq_ok hp rfl)), ?_⟩⟩
      exact .environment p halike (List.forall₂_same.mpr fun s _ ↦ .refl s)
    · obtain ⟨m, hexclusions, rfl⟩ := Option.map_eq_some_iff.mp hm
      refine (Environment.isLike_mendOne hfollow exclusions hexclusions).nested
        (Element.lookaround inner conditions ·) fun c hc ↦ ?_
      obtain ⟨l, l', p, hl, hl', hp, rfl⟩ := hlinked c hc
      refine ⟨l', hl', fun _ k hk halike ↦
        ⟨_, bind_eq_ok hl (bind_eq_ok hk (bind_eq_ok hp rfl)), ?_⟩⟩
      exact .environment p (List.forall₂_same.mpr fun s _ ↦ .refl s) halike
  | .reference name, edge, hsuits, env, m, hm => hfollow hsuits hm
  | .empty, _, _, _, _, hm | .text _ _, _, _, _, _, hm | .matrix _, _, _, _, _, hm
  | .captureReference _ _, _, _, _, _, hm | .wordBoundary, _, _, _, _, hm
  | .betweenWords, _, _, _, _, hm | .syllableBoundary, _, _, _, _, hm
  | .anySyllable, _, _, _, _, hm => nomatch hm
termination_by structural e => e

/-- Mended elements that stand one after the other are linked alike. -/
theorem Element.isLike_mendItems (hfollow : followMend.IsLike lang follow) {place : Place} :
    (items : List Element) → {edge : Edge} → edge.Suits place → {isFirst : Bool} →
    {env : Environment} → {m : Mend (List Element)} →
    Element.mendItems followMend edge env isFirst items = some m →
    m.IsLike (Element.patterns lang follow place)
      (fun isNested ps ps' ↦ Alike lang.inventory place isNested (.sequence ps) (.sequence ps'))
      (edge.atStart && isFirst || edge.atEnd) items
  | [], _, _, _, _, _, hm => nomatch hm
  | e :: rest, edge, hsuits, isFirst, env, m, hm => by
    rcases Option.or_eq_some_iff.mp hm with hm | ⟨-, hm⟩
    · obtain ⟨m, hfirst, rfl⟩ := Option.map_eq_some_iff.mp hm
      have hlike := Element.isLike_mend hfollow e (hsuits.ofItem isFirst rest.isEmpty) hfirst
      have hedge : (edge.ofItem isFirst rest.isEmpty).isOutermost →
          edge.atStart ∧ isFirst ∨ edge.atEnd ∧ rest = [] := by
        simp [Edge.isOutermost, Edge.ofItem]
      refine hlike.map (· :: rest) (fun h ↦ ?_) fun c hc ↦ ?_
      · rw [Bool.or_eq_true, Bool.and_eq_true]
        exact (hedge h).imp_right And.left
      · obtain ⟨p, hp, hc⟩ := exists_of_bind_eq_ok hc
        obtain ⟨ps, hps, hc⟩ := exists_of_bind_eq_ok hc
        cases hc
        refine ⟨p, hp, fun _ p' hp' halike ↦ ⟨_, bind_eq_ok hp' (bind_eq_ok hps rfl), ?_⟩⟩
        refine halike.sequence_head ps fun hnot ↦ ?_
        rcases hedge (hlike.isOutermost hnot) with ⟨hstart, -⟩ | ⟨hend, rfl⟩
        · exact .inl (hsuits.before hstart)
        · cases hps
          exact .inr ⟨hsuits.after hend, rfl⟩
    · obtain ⟨m, hrest, rfl⟩ := Option.map_eq_some_iff.mp hm
      have hlike := Element.isLike_mendItems hfollow rest hsuits hrest
      have hedge : (edge.atStart && false || edge.atEnd) → edge.atEnd := by simp
      refine hlike.map (e :: ·) (fun h ↦ ?_) fun c hc ↦ ?_
      · rw [hedge h, Bool.or_true]
      · obtain ⟨p, hp, hc⟩ := exists_of_bind_eq_ok hc
        obtain ⟨ps, hps, hc⟩ := exists_of_bind_eq_ok hc
        cases hc
        refine ⟨ps, hps, fun _ ps' hps' halike ↦ ⟨_, bind_eq_ok hp (bind_eq_ok hps' rfl), ?_⟩⟩
        exact halike.sequence_tail p fun hnot ↦ hsuits.after (hedge (hlike.isOutermost hnot))
termination_by structural items => items

/-- Mended elements that stand in one place are linked alike. -/
theorem Element.isLike_mendOne (hfollow : followMend.IsLike lang follow) {place : Place} :
    (items : List Element) → {edge : Edge} → edge.Suits place → {env : Environment} →
    {m : Mend (List Element)} → Element.mendOne followMend edge env items = some m →
    m.IsLike (Element.patterns lang follow place)
      (fun isNested ↦ List.Forall₂ (Alike lang.inventory place isNested)) edge.isOutermost items
  | [], _, _, _, _, hm => nomatch hm
  | e :: rest, edge, hsuits, env, m, hm => by
    rcases Option.or_eq_some_iff.mp hm with hm | ⟨-, hm⟩
    · obtain ⟨m, hfirst, rfl⟩ := Option.map_eq_some_iff.mp hm
      refine (Element.isLike_mend hfollow e hsuits hfirst).map (· :: rest) id fun c hc ↦ ?_
      obtain ⟨p, hp, hc⟩ := exists_of_bind_eq_ok hc
      obtain ⟨ps, hps, hc⟩ := exists_of_bind_eq_ok hc
      cases hc
      refine ⟨p, hp, fun _ p' hp' halike ↦ ⟨_, bind_eq_ok hp' (bind_eq_ok hps rfl), ?_⟩⟩
      exact .cons halike (List.forall₂_same.mpr fun q _ ↦ .refl q)
    · obtain ⟨m, hrest, rfl⟩ := Option.map_eq_some_iff.mp hm
      refine (Element.isLike_mendOne hfollow rest hsuits hrest).map (e :: ·) id fun c hc ↦ ?_
      obtain ⟨p, hp, hc⟩ := exists_of_bind_eq_ok hc
      obtain ⟨ps, hps, hc⟩ := exists_of_bind_eq_ok hc
      cases hc
      refine ⟨ps, hps, fun _ ps' hps' halike ↦ ⟨_, bind_eq_ok hp (bind_eq_ok hps' rfl), ?_⟩⟩
      exact .cons (.refl p) halike
termination_by structural items => items

/-- Mended elements that are checked at the start of another one are linked alike. -/
theorem Element.isLike_checks (hfollow : followMend.IsLike lang follow) {place : Place} :
    (items : List Element) → (joints : List Joint) → {edge : Edge} → edge.Suits place →
    {env : Environment} → {m : Mend (List Element)} →
    Element.mendOne followMend edge env items = some m →
    m.IsLike (Element.checks lang follow place · joints)
      (fun isNested ↦ List.Forall₂ fun c c' ↦
        Alike lang.inventory place isNested c.pattern c'.pattern ∧ c.negated = c'.negated)
      edge.isOutermost items
  | [], _, _, _, _, _, hm => nomatch hm
  | e :: rest, joints, edge, hsuits, env, m, hm => by
    rcases Option.or_eq_some_iff.mp hm with hm | ⟨-, hm⟩
    · obtain ⟨m, hfirst, rfl⟩ := Option.map_eq_some_iff.mp hm
      have hlike := Element.isLike_mend hfollow e hsuits hfirst
      cases joints with
      | nil => exact ⟨hlike.isOutermost, fun _ _ hc ↦ ⟨[], rfl, by cases hc; exact .nil⟩⟩
      | cons joint joints =>
        refine hlike.map (· :: rest) id fun c hc ↦ ?_
        obtain ⟨p, hp, hc⟩ := exists_of_bind_eq_ok hc
        obtain ⟨checks, hchecks, hc⟩ := exists_of_bind_eq_ok hc
        cases hc
        refine ⟨p, hp, fun _ p' hp' halike ↦ ⟨_, bind_eq_ok hp' (bind_eq_ok hchecks rfl), ?_⟩⟩
        exact .cons ⟨halike, rfl⟩ (List.forall₂_same.mpr fun _ _ ↦ ⟨.refl _, rfl⟩)
    · obtain ⟨m, hrest, rfl⟩ := Option.map_eq_some_iff.mp hm
      cases joints with
      | nil =>
        have hlike := Element.isLike_checks hfollow rest [] hsuits hrest
        exact ⟨hlike.isOutermost, fun _ _ hc ↦ ⟨[], rfl, by cases hc; exact .nil⟩⟩
      | cons joint joints =>
        have hlike := Element.isLike_checks hfollow rest joints hsuits hrest
        refine hlike.map (e :: ·) id fun c hc ↦ ?_
        obtain ⟨p, hp, hc⟩ := exists_of_bind_eq_ok hc
        obtain ⟨checks, hchecks, hc⟩ := exists_of_bind_eq_ok hc
        cases hc
        refine ⟨checks, hchecks, fun _ checks' hchecks' halike ↦
          ⟨_, bind_eq_ok hp (bind_eq_ok hchecks' rfl), .cons ⟨.refl _, rfl⟩ halike⟩⟩
termination_by structural items => items

/-- Mended elements that are joined are linked alike. -/
theorem Element.isLike_joined (hfollow : followMend.IsLike lang follow) {place : Place} :
    (elements : List Element) → (joints : List Joint) → {edge : Edge} → edge.Suits place →
    {env : Environment} → {m : Mend (List Element)} →
    Element.mendOne followMend edge env elements = some m →
    m.IsLike (fun elements ↦ (Element.joined elements joints).pattern lang follow place)
      (Alike lang.inventory place) edge.isOutermost elements
  | [], _, _, _, _, _, hm => nomatch hm
  | initial :: rest, joints, edge, hsuits, env, m, hm => by
    have hlinked : ∀ c, (Element.joined (initial :: rest) joints).pattern lang follow place =
        .ok c → joints.contains .transforming = false ∧ ∃ checks p,
          Element.checks lang follow place rest joints = .ok checks ∧
          initial.pattern lang follow place = .ok p ∧ c = .intersection p checks := by
      intro c hc
      rw [Element.pattern] at hc
      split at hc
      · cases hc
      · next hjoints =>
        obtain ⟨checks, hchecks, hc⟩ := exists_of_bind_eq_ok hc
        obtain ⟨p, hp, hc⟩ := exists_of_bind_eq_ok hc
        cases hc
        exact ⟨Bool.eq_false_iff.mpr hjoints, checks, p, hchecks, hp, rfl⟩
    have hlinks {initial : Element} {rest : List Element} {checks : List Check} {p : Pattern}
        (hjoints : joints.contains .transforming = false)
        (hchecks : Element.checks lang follow place rest joints = .ok checks)
        (hp : initial.pattern lang follow place = .ok p) :
        (Element.joined (initial :: rest) joints).pattern lang follow place =
          .ok (.intersection p checks) := by
      rw [Element.pattern, if_neg (Bool.eq_false_iff.mp hjoints)]
      exact bind_eq_ok hchecks (bind_eq_ok hp rfl)
    rcases Option.or_eq_some_iff.mp hm with hm | ⟨-, hm⟩
    · obtain ⟨m, hinitial, rfl⟩ := Option.map_eq_some_iff.mp hm
      refine (Element.isLike_mend hfollow initial hsuits hinitial).map (· :: rest) id fun c hc ↦ ?_
      obtain ⟨hjoints, checks, p, hchecks, hp, rfl⟩ := hlinked c hc
      refine ⟨p, hp, fun _ p' hp' halike ↦ ⟨_, hlinks hjoints hchecks hp', ?_⟩⟩
      exact halike.intersection (List.forall₂_same.mpr fun _ _ ↦ ⟨.refl _, rfl⟩)
    · obtain ⟨m, hrest, rfl⟩ := Option.map_eq_some_iff.mp hm
      refine (Element.isLike_checks hfollow rest joints hsuits hrest).map (initial :: ·) id
        fun c hc ↦ ?_
      obtain ⟨hjoints, checks, p, hchecks, hp, rfl⟩ := hlinked c hc
      refine ⟨checks, hchecks, fun _ checks' hchecks' halike ↦
        ⟨_, hlinks hjoints hchecks' hp, (Alike.refl p).intersection halike⟩⟩
termination_by structural items => items

/-- Mended environments are linked to surroundings with sides that start alike. -/
theorem Environment.isLike_mendOne (hfollow : followMend.IsLike lang follow) :
    (environments : List Environment) → {m : Mend (List Environment)} →
    Environment.mendOne followMend environments = some m →
    m.IsLike (Environment.surroundings lang follow)
      (fun _ ↦ List.Forall₂ (SidesAlike lang.inventory)) true environments
  | [], _, hm => nomatch hm
  | .mk none none :: rest, m, hm => by
    obtain ⟨m, hrest, rfl⟩ := Option.map_eq_some_iff.mp hm
    exact (Environment.isLike_mendOne hfollow rest hrest).behind _
  | .mk (some e) none :: rest, m, hm => by
    rcases Option.or_eq_some_iff.mp hm with hm | ⟨-, hm⟩
    · obtain ⟨m, hside, rfl⟩ := Option.map_eq_some_iff.mp hm
      exact (Element.isLike_mend hfollow e Edge.suits_before hside).sideBefore none rest
    · obtain ⟨m, hrest, rfl⟩ := Option.map_eq_some_iff.mp hm
      exact (Environment.isLike_mendOne hfollow rest hrest).behind _
  | .mk none (some e) :: rest, m, hm => by
    rcases Option.or_eq_some_iff.mp hm with hm | ⟨-, hm⟩
    · obtain ⟨m, hside, rfl⟩ := Option.map_eq_some_iff.mp hm
      exact (Element.isLike_mend hfollow e Edge.suits_after hside).sideAfter none rest
    · obtain ⟨m, hrest, rfl⟩ := Option.map_eq_some_iff.mp hm
      exact (Environment.isLike_mendOne hfollow rest hrest).behind _
  | .mk (some before) (some after) :: rest, m, hm => by
    rcases Option.or_eq_some_iff.mp hm with hm | ⟨-, hm⟩
    · obtain ⟨m, hside, rfl⟩ := Option.map_eq_some_iff.mp hm
      exact (Element.isLike_mend hfollow before Edge.suits_before hside).sideBefore (some after)
        rest
    rcases Option.or_eq_some_iff.mp hm with hm | ⟨-, hm⟩
    · obtain ⟨m, hside, rfl⟩ := Option.map_eq_some_iff.mp hm
      exact (Element.isLike_mend hfollow after Edge.suits_after hside).sideAfter (some before)
        rest
    · obtain ⟨m, hrest, rfl⟩ := Option.map_eq_some_iff.mp hm
      exact (Environment.isLike_mendOne hfollow rest hrest).behind _
termination_by structural items => items

end

end Linking

namespace Scope

/-- Whether no name is declared twice. -/
def IsDistinct (s : Scope) : Prop := (s.map Declared.name).Nodup

variable {lang : Language} {s : Scope}

/-- A scope in which no name is declared twice has grown by its last declaration. -/
theorem IsDistinct.growsTo {d : Declared} (h : IsDistinct (d :: s)) : s.GrowsTo (d :: s) := by
  have hnew : d.name ∉ s.map Declared.name := (List.nodup_cons.mp h).1
  refine ⟨[d], rfl, List.forall_mem_singleton.mpr ?_⟩
  rw [declares, List.any_eq_false]
  exact fun e he heq ↦ hnew (eq_of_beq heq ▸ List.mem_map_of_mem he)

/-- What is mended in a scope is linked alike where the scope has grown. -/
theorem GrowsTo.isLike {t : Scope} (h : s.GrowsTo t) {place : Place} {isOutermost : Bool}
    {e e' : Element} {m : Mend Element}
    (hlike : m.IsLike (·.pattern lang (s.followPattern lang) place) (Alike lang.inventory place)
      isOutermost e)
    (hlink : Persists (e'.pattern lang (t.followPattern lang) place)
      (e.pattern lang (s.followPattern lang) place)) :
    m.IsLike (·.pattern lang (t.followPattern lang) place) (Alike lang.inventory place) isOutermost
      e' where
  isOutermost := hlike.isOutermost
  links hidle p hp := by
    obtain ⟨p', hp', halike⟩ := hlike.links hidle p (hlink p hp)
    exact ⟨p', h.pattern_persists lang place m.value p' hp', halike⟩

/-- Names are mended to what is linked alike. -/
theorem isLike_followMend (lang : Language) : (s : Scope) → s.IsDistinct →
    s.followMend.IsLike lang (s.followPattern lang)
  | [], _, _, _, _, _, _, _, hm => nomatch hm
  | .soundClass n members :: rest, hdistinct, edge, place, hsuits, name, env, m, hm => by
    have hrest : IsDistinct rest := (List.nodup_cons.mp hdistinct).2
    rw [followMend, resolve] at hm
    split at hm
    · cases hm
    · next hne =>
      refine hdistinct.growsTo.isLike (isLike_followMend lang rest hrest hsuits hm) ?_
      simp only [Element.pattern, followPattern, resolve, if_neg hne]
      exact .refl _
  | .element n body :: rest, hdistinct, edge, place, hsuits, name, env, m, hm => by
    have hrest : IsDistinct rest := (List.nodup_cons.mp hdistinct).2
    rw [followMend, resolve] at hm
    split at hm
    · next heq =>
      have hbody := Element.isLike_mend (isLike_followMend lang rest hrest) body hsuits hm
      refine hdistinct.growsTo.isLike hbody ?_
      simp only [Element.pattern, followPattern, resolve, if_pos heq]
      exact .refl _
    · next hne =>
      refine hdistinct.growsTo.isLike (isLike_followMend lang rest hrest hsuits hm) ?_
      simp only [Element.pattern, followPattern, resolve, if_neg hne]
      exact .refl _

end Scope

/-- Accepted statements declare no name twice. -/
theorem Checked.isDistinct_of_foldlM {inv : Inventory} {deferred : List String}
    {statements : List Statement} {c c' : Checked} (hc : c.scope.IsDistinct)
    (h : statements.foldlM (Checked.statement inv deferred) c = .ok c') :
    c'.scope.IsDistinct := by
  have hnew {s : Scope} {d : Declared} (hs : s.IsDistinct) (hd : s.declares d.name = false) :
      Scope.IsDistinct (d :: s) := by
    refine List.nodup_cons.mpr ⟨fun hmem ↦ ?_, hs⟩
    obtain ⟨e, he, heq⟩ := List.mem_map.mp hmem
    rw [Scope.declares, List.any_eq_false] at hd
    exact hd e he (beq_iff_eq.mpr heq)
  have hensures : Ensures (fun c ↦ c.scope.IsDistinct) (fun _ ↦ True)
      (statements.foldlM (Checked.statement inv deferred) c) := by
    refine .foldlM hc fun s _ c hc ↦ .intro (fun c' hc' ↦ ?_) fun _ _ ↦ trivial
    cases accepts_iff.mp hc' with
    | soundClass hname _ | element hname _ => exact hnew hc hname
    | shapes _ | clear | explicit | rule _ _ _ | cleanupOff _ | romanizer _ _ => exact hc
  exact hensures.of_ok h

end Diachrony.Syntax

namespace Diachrony

open Syntax

/-- Following a suggestion changes nothing where the repeater is idle. Whenever environments behind
accepted statements are refused for a repeater at an edge, that repeater can be mended: it is
replaced as the message suggests, by nothing, by what is repeated, or by as many copies as are
needed at least. If nothing is read on where the repeater ends, and its bounds allow for some number
of repetitions, the mended environments are linked wherever the refused ones are, and one by one
they hold around the same spans of every phrase. -/
theorem suggestion_holdsAlike {lang : Language} {statements : List Statement}
    {deferred : List String} {c : Checked}
    (hc : statements.foldlM (Checked.statement lang.inventory deferred) {} = .ok c)
    {environments : List Environment} {fault : Fault}
    (hfault : Environment.checkAll lang.inventory (c.scope.followSide lang.inventory)
      environments = .error fault) (hperipheral : IsPeripheral fault) :
    ∃ m, Environment.mendOne c.scope.followMend environments = some m ∧ m.fault = fault ∧
      (m.isIdle → ∀ l, Environment.surroundings lang (c.scope.followPattern lang) environments =
        .ok l → Surroundings.allReferenceFree l →
          ∃ l', Environment.surroundings lang (c.scope.followPattern lang) m.value = .ok l' ∧
            List.Forall₂ (Surroundings.HoldAlike lang.inventory) l l') := by
  have hfor : c.scope.followMend.IsFor (c.scope.followSide lang.inventory) := c.scope.complains
  obtain ⟨m, hm, hmfault⟩ :=
    (Environment.complains_one hfor environments).of_error hfault hperipheral
  refine ⟨m, hm, hmfault, fun hidle l hl hfree ↦ ?_⟩
  have hdistinct : c.scope.IsDistinct := Checked.isDistinct_of_foldlM (c := {}) List.nodup_nil hc
  have hlike := Environment.isLike_mendOne (c.scope.isLike_followMend lang hdistinct) environments
    hm
  obtain ⟨l', hl', halike⟩ := hlike.links hidle l hl
  refine ⟨l', hl', ?_⟩
  clear hl hl' hlike
  induction halike with
  | nil => exact .nil
  | @cons s s' _ _ hfirst _ ih =>
    obtain ⟨behind, ahead⟩ := s
    simp only [Surroundings.allReferenceFree, Bool.and_eq_true] at hfree
    refine .cons ?_ (ih hfree.2)
    exact Surroundings.holdAlike_of_startAlike hfree.1 (hfirst.isReferenceFree hfree.1)
      hfirst.behind hfirst.ahead

/-- `_ <syl>+` is refused, and `_ <syl>` holds around the same spans. -/
theorem suggestion_holdsAlike_syllable :
    let lang : Language := { inventory := .empty }
    let refused := [Environment.mk none (some (.repeater .anySyllable .oneOrMore))]
    let mended := [Environment.mk none (some .anySyllable)]
    ∃ l l', Environment.surroundings lang (Scope.followPattern lang []) refused = .ok l ∧
      Environment.surroundings lang (Scope.followPattern lang []) mended = .ok l' ∧
      List.Forall₂ (Surroundings.HoldAlike lang.inventory) l l' := by
  intro lang refused mended
  obtain ⟨m, hm, -, halike⟩ :=
    @suggestion_holdsAlike lang [] [] {} rfl refused _ rfl ⟨_, _, _, rfl⟩
  obtain rfl := Option.some.inj hm
  obtain ⟨l', hl', hholds⟩ := halike rfl [.of .empty (.repeater .syllable 1 none)] rfl rfl
  exact ⟨_, l', rfl, hl', hholds⟩

/-- A repeater in a core is not idle if the core is followed by something: at the start of `aab`
there is an `a+` in front of a `b`, but no `a`. -/
example :
    let a := Segment.literal ['a']
    let b := Segment.literal ['b']
    let isFound (p : Pattern) :=
      let s := Surroundings.of .empty (.environment p [.of .empty (.text ⟨[b], none⟩)] [])
      let phrase := Phrase.ofWord ⟨[a, a, b], none⟩
      ((s.candidates .empty (.of phrase) ⟨0, 0⟩ ⟨0, 0⟩ .empty).first? ⟨100, ""⟩).map Option.isSome
    isFound (.repeater (.text ⟨[a], none⟩) 1 none) = .ok true ∧
      isFound (.text ⟨[a], none⟩) = .ok false := by decide +kernel

end Diachrony
