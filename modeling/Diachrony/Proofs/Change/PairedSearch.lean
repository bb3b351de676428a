import Diachrony.Proofs.Change.Pairing
import Diachrony.Proofs.Pattern.Hints

/-!
# Searching for a pairing and for its pattern

A pairing is searched for like its pattern, but it is told other things about what follows: in a
sequence it is told how the next pairing starts, unless that is an alternative, and the last of a
sequence is told what its whole is told. So a pairing matches where its pattern does, and it prefers
the same match if no repetition is told something else.
-/

namespace Diachrony

/-- What is known of what a pairing and its pattern are told about what follows. -/
inductive Hints where
  /-- Neither is told anything. -/
  | none
  /-- Both are told the same. -/
  | same
  /-- Nothing is known. -/
  | unknown
deriving DecidableEq

namespace Hints

/-- Whether two probes are as is known of them. -/
def Describes : Hints → Option Probe → Option Probe → Prop
  | none, following, other => following = .none ∧ other = .none
  | same, following, other => following = other
  | unknown, _, _ => True

/-- What is known in a sequence, where the rest is given and what is known for the whole. -/
def inFrontOf (hints : Hints) : List Pairing → Hints
  | [] => if hints = none then none else unknown
  | .single _ _ :: _ => same
  | _ :: _ => unknown

end Hints

namespace Pairing

mutual

/-- Whether a pairing is searched for in the order of its pattern. -/
def keepsOrder (hints : Hints) : Pairing → Bool
  | single pattern _ => hints ≠ .unknown || !pattern.heeds
  | sequence items => allKeepOrderInTurn hints items
  | alternative options => allKeepOrder hints options

/-- Whether pairings one after the other are searched for in the order of their patterns. -/
def allKeepOrderInTurn (hints : Hints) : List Pairing → Bool
  | [] => true
  | p :: rest => p.keepsOrder (hints.inFrontOf rest) && allKeepOrderInTurn hints rest

/-- Whether each of some pairings is searched for in the order of its pattern. -/
def allKeepOrder (hints : Hints) : List Pairing → Bool
  | [] => true
  | p :: rest => p.keepsOrder hints && allKeepOrder hints rest

end

/-- Whether a tiling offers the matches of a finder in their order, as far as is known of what both
are told. -/
def Follows (hints : Hints) (t : Tiling) (f : Finder) : Prop :=
  ∀ following other, hints.Describes following other → ∀ scan start b before,
    (t following scan start b before).map TiledMatch.toMatch = f other scan start b

/-- Whether a tiling and a finder offer the same matches whatever they are told, each unless it has
a fault. -/
def Agrees (t : Tiling) (f : Finder) : Prop :=
  ∀ following other scan start b before,
    ((t following scan start b before).map TiledMatch.toMatch).Covers (f other scan start b) ∧
      (f other scan start b).Covers ((t following scan start b before).map TiledMatch.toMatch)

variable (inv : Inventory)

/-- What an item of a sequence and its pattern are told. -/
private theorem describes_inFrontOf {hints : Hints} {following other : Option Probe}
    (h : hints.Describes following other) (rest : List Pairing) :
    (hints.inFrontOf rest).Describes
      (match tilings inv rest with
        | [] => following
        | (leading, _) :: _ => leading)
      ((Pattern.finders inv (patterns rest)).head?.map (· none)) := by
  cases rest with
  | nil =>
    cases hints with
    | none => exact ⟨h.1, rfl⟩
    | same => exact trivial
    | unknown => exact trivial
  | cons next _ =>
    cases next with
    | single pattern output => exact rfl
    | sequence items => exact trivial
    | alternative options => exact trivial

section Order

mutual

/-- A pairing that keeps the order is searched for like its pattern. -/
theorem tiling_follows : (hints : Hints) → (p : Pairing) → p.keepsOrder hints →
    Follows hints (p.tiling inv) (p.pattern.finder inv)
  | hints, single pattern output, h => by
    intro following other hhints scan start b before
    rw [tiling, Tiling.single, Candidates.map_map]
    have hfinder : pattern.finder inv following scan start b =
        pattern.finder inv other scan start b := by
      rcases Bool.or_eq_true_iff.mp h with hknown | hheeds
      · cases hints with
        | none => rw [hhints.1, hhints.2]
        | same => rw [show following = other from hhints]
        | unknown => cases hknown
      · exact pattern.finder_eq_of_not_heeds inv following other scan start b
          ((Bool.not_eq_true' _).mp hheeds)
    rw [hfinder]
    exact Candidates.map_id _
  | hints, sequence items, h => sequence_follows hints items h
  | hints, alternative options, h => alternative_follows hints options h

/-- Pairings one after the other that keep the order are searched for like their patterns. -/
theorem sequence_follows : (hints : Hints) → (items : List Pairing) →
    allKeepOrderInTurn hints items → Follows hints (.sequence (tilings inv items))
      (.sequence (Pattern.finders inv (patterns items)))
  | _, [], _ => fun _ _ _ _ _ _ _ ↦ rfl
  | hints, p :: rest, h => by
    intro following other hhints scan start b before
    obtain ⟨hfirst, hrest⟩ := (Bool.and_eq_true _ _).mp h
    have hitem := tiling_follows _ p hfirst _ _ (describes_inFrontOf inv hhints rest) scan start b
      before
    have hitems := sequence_follows hints rest hrest following other hhints scan
    rw [tilings, Tiling.sequence, Candidates.map_bind, patterns, Pattern.finders, Finder.sequence]
    dsimp only
    rw [← hitem, Candidates.bind_map]
    congr 1
    funext m
    rw [hitems, Finder.sequence_eq _ other none]

/-- Alternative pairings that keep the order are searched for like their patterns. -/
theorem alternative_follows : (hints : Hints) → (options : List Pairing) →
    allKeepOrder hints options → Follows hints (.alternative (tilings inv options))
      (.alternative (Pattern.finders inv (patterns options)))
  | _, [], _ => fun _ _ _ _ _ _ _ ↦ rfl
  | hints, p :: rest, h => by
    intro following other hhints scan start b before
    obtain ⟨hfirst, hrest⟩ := (Bool.and_eq_true _ _).mp h
    have hoption := tiling_follows hints p hfirst following other hhints scan start b before
    have hoptions := alternative_follows hints rest hrest following other hhints scan start b before
    rw [tilings, Tiling.alternative, Candidates.map, Candidates.map_append, hoption, hoptions]
    rfl

end

end Order

section Agreement

mutual

/-- A pairing is matched where its pattern is. -/
theorem tiling_agrees : (p : Pairing) → Agrees (p.tiling inv) (p.pattern.finder inv)
  | single pattern output => by
    intro following other scan start b before
    rw [tiling, Tiling.single, Candidates.map_map, Candidates.map_id]
    exact ⟨pattern.finder_steady inv following other scan start b,
      pattern.finder_steady inv other following scan start b⟩
  | sequence items => sequence_agrees items
  | alternative options => alternative_agrees options

/-- Pairings one after the other are matched where their patterns are. -/
theorem sequence_agrees : (items : List Pairing) → Agrees (.sequence (tilings inv items))
    (.sequence (Pattern.finders inv (patterns items)))
  | [] => fun _ _ _ _ _ _ ↦ ⟨.refl _, .refl _⟩
  | p :: rest => by
    intro following other scan start b before
    have hitem := tiling_agrees p (match tilings inv rest with
        | [] => following
        | (leading, _) :: _ => leading)
      ((Pattern.finders inv (patterns rest)).head?.map (· none)) scan start b before
    have hitems (m : TiledMatch) := sequence_agrees rest following none scan m.stop m.bindings
      m.pieces
    rw [tilings, Tiling.sequence, Candidates.map_bind, patterns, Pattern.finders, Finder.sequence]
    constructor
    · refine .bind_of_partner fun hnone m hm ↦ ?_
      have hm := hitem.1 (Candidates.ending_map.trans hnone) hm
      rw [Candidates.offers_map] at hm
      obtain ⟨tiled, htiled, rfl⟩ := List.mem_map.mp hm
      exact ⟨tiled, htiled, (hitems tiled).1⟩
    · refine .bind_of_partner fun hnone tiled htiled ↦ ?_
      refine ⟨tiled.toMatch, hitem.2 hnone ?_, (hitems tiled).2⟩
      rw [Candidates.offers_map]
      exact List.mem_map_of_mem htiled

/-- Alternative pairings are matched where their patterns are. -/
theorem alternative_agrees : (options : List Pairing) → Agrees (.alternative (tilings inv options))
    (.alternative (Pattern.finders inv (patterns options)))
  | [] => fun _ _ _ _ _ _ ↦ ⟨.refl _, .refl _⟩
  | p :: rest => by
    intro following other scan start b before
    rw [tilings, Tiling.alternative, Candidates.map, Candidates.map_append]
    have hoption := tiling_agrees p following other scan start b before
    have hoptions := alternative_agrees rest following other scan start b before
    exact ⟨.choice (.append hoption.1 hoptions.1), .choice (.append hoption.2 hoptions.2)⟩

end

end Agreement

end Pairing

namespace Pattern

/-- A pattern and an output are paired to a pairing of that pattern. Where the searches for both
have no fault, the pairing is matched if the pattern is, and the preferred match is the same if the
pairing keeps the order of the pattern. -/
theorem pair_found {source target : String} {p : Pattern} {o : Output} {t : Pairing}
    (h : p.pair source target o = .ok t) :
    t.pattern = p ∧ ∀ (inv : Inventory) (scan : Scan) (start : Position) (b : Bindings)
      (budget budget' : Budget) (tiled : Option TiledMatch) (plain : Option Match),
      (t.tiling inv none scan start b []).first? budget = .ok tiled →
      (p.candidates inv scan start b).first? budget' = .ok plain →
      tiled.isSome = plain.isSome ∧
        (t.keepsOrder .none → tiled.map TiledMatch.toMatch = plain) := by
  have hpattern := (pattern_pair source target p o).of_ok h
  refine ⟨hpattern, fun inv scan start b budget budget' tiled plain htiled hplain ↦ ?_⟩
  subst hpattern
  have htiled' : ((t.tiling inv none scan start b []).map TiledMatch.toMatch).first? budget =
      .ok (tiled.map TiledMatch.toMatch) := by
    rw [Candidates.first?_map, htiled]
    rfl
  have hagrees := t.tiling_agrees inv none none scan start b []
  constructor
  · rw [← Option.isSome_map (f := TiledMatch.toMatch), Bool.eq_iff_iff]
    exact ⟨hagrees.2.isSome_of_first? hplain htiled', hagrees.1.isSome_of_first? htiled' hplain⟩
  · intro hkeeps
    have hfollows := t.tiling_follows inv .none hkeeps none none ⟨rfl, rfl⟩ scan start b []
    rw [hfollows] at htiled'
    exact (Candidates.head?_offers_of_first? htiled').symm.trans
      (Candidates.head?_offers_of_first? hplain)

/-- At the start of `aba` the pattern `{a, b}* a` and its pairing with `x y` both prefer the first
`a`, since the repetition is told that an `a` follows. -/
theorem pair_found_aba :
    let seen (c : Char) : Pattern := .text ⟨[.literal [c]], none⟩
    let written (c : Char) : Output := .text ⟨[.literal [c]], none⟩
    let p : Pattern := .sequence [.repeater (.alternative [seen 'a', seen 'b']) 0 none, seen 'a']
    let scan : Scan := .of (.ofWord ⟨[.literal ['a'], .literal ['b'], .literal ['a']], none⟩)
    let budget : Budget := ⟨100, "rule"⟩
    ∃ t tiled plain, p.pair "" "" (.sequence [written 'x', written 'y']) = .ok t ∧
      (t.tiling .empty none scan {} .empty []).first? budget = .ok (some tiled) ∧
      (p.candidates .empty scan {} .empty).first? budget = .ok (some plain) ∧
      t.pattern = p ∧ t.keepsOrder .none ∧ tiled.toMatch = plain ∧ plain.stop = ⟨0, 1⟩ := by
  intro seen written p scan budget
  have hpair : p.pair "" "" (.sequence [written 'x', written 'y']) = .ok (.sequence
      [.single (.repeater (.alternative [seen 'a', seen 'b']) 0 none) (written 'x'),
        .single (seen 'a') (written 'y')]) := rfl
  obtain ⟨hpattern, hfound⟩ := pair_found hpair
  obtain ⟨-, hsame⟩ := hfound .empty scan {} .empty budget budget
    (some ⟨⟨⟨0, 1⟩, .empty⟩,
      [⟨⟨0, 0⟩, ⟨0, 0⟩, .repeater (.alternative [seen 'a', seen 'b']) 0 none, written 'x'⟩,
        ⟨⟨0, 0⟩, ⟨0, 1⟩, seen 'a', written 'y'⟩]⟩)
    (some ⟨⟨0, 1⟩, .empty⟩) rfl rfl
  exact ⟨_, _, _, hpair, rfl, rfl, hpattern, by decide, Option.some.inj (hsame (by decide)), rfl⟩

/-- At the start of `aba` the pattern `{a, b}* {a, b}` prefers the first segment, and its pairing
with `x {y, z}` prefers the whole word, since the repetition is not told what follows. -/
theorem pair_found_apart :
    let seen (c : Char) : Pattern := .text ⟨[.literal [c]], none⟩
    let written (c : Char) : Output := .text ⟨[.literal [c]], none⟩
    let either : Pattern := .alternative [seen 'a', seen 'b']
    let p : Pattern := .sequence [.repeater either 0 none, either]
    let scan : Scan := .of (.ofWord ⟨[.literal ['a'], .literal ['b'], .literal ['a']], none⟩)
    let budget : Budget := ⟨100, "rule"⟩
    ∃ t, p.pair "" "" (.sequence [written 'x', .alternative [written 'y', written 'z']]) = .ok t ∧
      t.keepsOrder .none = false ∧
      ((t.tiling .empty none scan {} .empty []).first? budget).toOption.map
        (Option.map fun m ↦ m.stop) = some (some ⟨0, 3⟩) ∧
      ((p.candidates .empty scan {} .empty).first? budget).toOption.map
        (Option.map fun m ↦ m.stop) = some (some ⟨0, 1⟩) := by
  intro seen written either p scan budget
  refine ⟨.sequence [.single (.repeater either 0 none) (written 'x'), .alternative
    [.single (seen 'a') (written 'y'), .single (seen 'b') (written 'z')]], rfl, ?_, ?_, ?_⟩
  · decide +kernel
  · decide +kernel
  · decide +kernel

end Pattern

end Diachrony
