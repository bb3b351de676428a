import Mathlib.Data.List.Nodup
import Diachrony.Inventory.Build
import Diachrony.Proofs.Inventory.Clusters
import Diachrony.Proofs.Inventory.Floating

/-!
# Floating diacritics that are carried over

What is written on a segment is found by taking its text apart, and nothing is remembered of how the
text came about. So when diacritics are put around a text, the text inside has to be taken apart as
before. It is where every diacritic is a character of its own that no symbol has: a character then
says by itself whether it is a diacritic, and the base reaches from the first character that is none
to the diacritics behind it.
-/

namespace Diachrony.Inventory

/-- Whether every diacritic is one character, a different one for each, that no symbol has. -/
structure HasMarkCharacters (inv : Inventory) : Prop where
  /-- A diacritic is one character. -/
  single : ∀ d ∈ inv.diacritics, ∃ c, d.text = [c]
  /-- No two diacritics are written alike. -/
  nodup : (inv.diacritics.map Diacritic.text).Nodup
  /-- No symbol has the character of a diacritic. -/
  apart : ∀ s ∈ inv.symbols, ∀ d ∈ inv.diacritics, ∀ c ∈ d.text, c ∉ s.text

/-- What is written. -/
def Parts.text (p : Parts) : List Char :=
  p.before.flatMap Diacritic.text ++ p.core ++ p.after.flatMap Diacritic.text

/-- Whether a segment is made of diacritics in their places and a base without characters of
diacritics between them. -/
structure Parts.IsProper (inv : Inventory) (p : Parts) : Prop where
  /-- The diacritics in front belong there. -/
  before : ∀ d ∈ p.before, d ∈ inv.diacritics ∧ d.placement = .before
  /-- There is a base. -/
  core_ne : p.core ≠ []
  /-- No character of the base is one of a diacritic. -/
  core : ∀ d ∈ inv.diacritics, ∀ c ∈ d.text, c ∉ p.core
  /-- The diacritics behind belong there. -/
  after : ∀ d ∈ p.after, d ∈ inv.diacritics ∧ d.placement = .after

variable {inv : Inventory} {ds : List Diacritic} {d e : Diacritic} {placement : Placement}
  {c : Char} {cs rest : List Char}

namespace HasMarkCharacters

/-- Diacritics are told apart by their texts. -/
theorem eq_of_text_eq (hmarks : inv.HasMarkCharacters) (hd : d ∈ inv.diacritics)
    (he : e ∈ inv.diacritics) (htext : d.text = e.text) : d = e :=
  List.inj_on_of_nodup_map hmarks.nodup hd he htext

/-- A diacritic is found where it is written. -/
theorem diacriticAt?_text (hmarks : inv.HasMarkCharacters) (hd : d ∈ inv.diacritics)
    (hplacement : d.placement = placement) (rest : List Char) :
    inv.diacriticAt? placement (d.text ++ rest) = some d := by
  obtain ⟨c, hc⟩ := hmarks.single d hd
  cases h : inv.diacriticAt? placement (d.text ++ rest) with
  | none =>
    rw [diacriticAt?, firstBest?_eq_none, List.filter_eq_nil_iff] at h
    exact (h d hd (by simp [hplacement, hc])).elim
  | some e =>
    obtain ⟨he, -, hne, hstarts⟩ := diacriticAt?_eq_some h
    obtain ⟨c', hc'⟩ := hmarks.single e he
    rw [hc, hc', List.cons_append, List.cons_prefix_cons] at hstarts
    rw [hmarks.eq_of_text_eq hd he (by rw [hc, hc', hstarts.1])]

end HasMarkCharacters

/-- No diacritic is found at a character that is none. -/
theorem diacriticAt?_eq_none_of_not_mem (hc : ∀ d ∈ inv.diacritics, c ∉ d.text) :
    inv.diacriticAt? placement (c :: rest) = none := by
  cases h : inv.diacriticAt? placement (c :: rest) with
  | none => rfl
  | some d =>
    obtain ⟨hd, -, hne, hstarts⟩ := diacriticAt?_eq_some h
    obtain ⟨c', text, htext⟩ := List.exists_cons_of_ne_nil hne
    rw [htext, List.cons_prefix_cons] at hstarts
    exact (hc d hd (by simp [htext, hstarts.1])).elim

/-- A diacritic that is found in front of something is split off. -/
theorem splitBefore_found (h : inv.diacriticAt? .before (d.text ++ rest) = some d)
    (hrest : rest ≠ []) (n : Nat) : inv.splitBefore (n + 1) (d.text ++ rest) =
      (d :: (inv.splitBefore n rest).1, (inv.splitBefore n rest).2) := by
  have hlength : d.text.length ≠ (d.text ++ rest).length := by
    rw [List.length_append]
    have := List.length_pos_iff.mpr hrest
    omega
  rw [splitBefore, h, Option.filter_some_pos (by simpa using hlength)]
  simp only [List.drop_left]

/-- A diacritic that is found behind a base is split off. -/
theorem splitAfter_found (h : inv.diacriticAt? .after (d.text ++ rest) = some d) (n : Nat) :
    inv.splitAfter (n + 1) (d.text ++ rest) =
      ((inv.splitAfter n rest).1, d :: (inv.splitAfter n rest).2) := by
  obtain ⟨-, -, hne, -⟩ := diacriticAt?_eq_some h
  obtain ⟨c, text, htext⟩ := List.exists_cons_of_ne_nil hne
  have hcons : d.text ++ rest = c :: (text ++ rest) := by rw [htext, List.cons_append]
  have hdrop : (c :: (text ++ rest)).drop d.text.length = rest := by rw [← hcons, List.drop_left]
  rw [hcons] at h ⊢
  rw [splitAfter, h]
  dsimp only
  rw [hdrop]

/-- A character that is no diacritic belongs to the base. -/
theorem splitAfter_of_not_mem (hc : ∀ d ∈ inv.diacritics, c ∉ d.text) (n : Nat) :
    inv.splitAfter (n + 1) (c :: rest) =
      (c :: (inv.splitAfter n rest).1, (inv.splitAfter n rest).2) := by
  rw [splitAfter, diacriticAt?_eq_none_of_not_mem hc]

section TakingApart

variable (hmarks : inv.HasMarkCharacters)

include hmarks

/-- The diacritics in front of a base are found one after the other. -/
theorem splitBefore_marks (hds : ∀ d ∈ ds, d ∈ inv.diacritics ∧ d.placement = .before)
    (hc : ∀ d ∈ inv.diacritics, c ∉ d.text) {n : Nat} (hn : ds.length ≤ n) :
    inv.splitBefore n (ds.flatMap Diacritic.text ++ c :: rest) = (ds, c :: rest) := by
  induction ds generalizing n with
  | nil =>
    cases n with
    | zero => rfl
    | succ n => simp [splitBefore, diacriticAt?_eq_none_of_not_mem hc]
  | cons d ds ih =>
    cases n with
    | zero => simp at hn
    | succ n =>
      obtain ⟨hd, hds⟩ := List.forall_mem_cons.mp hds
      have hfound := hmarks.diacriticAt?_text hd.1 hd.2
        (ds.flatMap Diacritic.text ++ c :: rest)
      rw [List.flatMap_cons, List.append_assoc, splitBefore_found hfound (by simp),
        ih hds (Nat.le_of_succ_le_succ hn)]

/-- Behind a base the characters that are no diacritics and the diacritics are told apart. -/
theorem splitAfter_marks (hcs : ∀ c ∈ cs, ∀ d ∈ inv.diacritics, c ∉ d.text)
    (hds : ∀ d ∈ ds, d ∈ inv.diacritics ∧ d.placement = .after) {n : Nat}
    (hn : cs.length + ds.length ≤ n) :
    inv.splitAfter n (cs ++ ds.flatMap Diacritic.text) = (cs, ds) := by
  induction cs generalizing n with
  | cons c cs ih =>
    cases n with
    | zero => simp at hn
    | succ n =>
      obtain ⟨hc, hcs⟩ := List.forall_mem_cons.mp hcs
      rw [List.length_cons] at hn
      rw [List.cons_append, splitAfter_of_not_mem hc, ih hcs (by omega)]
  | nil =>
    rw [List.nil_append]
    induction ds generalizing n with
    | nil => cases n <;> rfl
    | cons d ds ih =>
      cases n with
      | zero => simp at hn
      | succ n =>
        obtain ⟨hd, hds⟩ := List.forall_mem_cons.mp hds
        have hfound := hmarks.diacriticAt?_text hd.1 hd.2 (ds.flatMap Diacritic.text)
        rw [List.length_cons] at hn
        rw [List.flatMap_cons, splitAfter_found hfound, ih hds (by omega)]

/-- Loose marks end where the diacritics behind a base start. -/
theorem looseMarks_marks (hds : ∀ d ∈ ds, d ∈ inv.diacritics ∧ d.placement = .after) :
    inv.looseMarks (cs ++ ds.flatMap Diacritic.text) <+: cs := by
  induction cs with
  | nil =>
    cases ds with
    | nil => exact List.prefix_refl _
    | cons d ds =>
      obtain ⟨hd, -⟩ := List.forall_mem_cons.mp hds
      obtain ⟨c, hc⟩ := hmarks.single d hd.1
      have hfound := hmarks.diacriticAt?_text hd.1 hd.2 (ds.flatMap Diacritic.text)
      rw [hc, List.singleton_append] at hfound
      rw [List.nil_append, List.flatMap_cons, hc, List.singleton_append, looseMarks, hfound]
      simp
  | cons c cs ih =>
    rw [List.cons_append, looseMarks]
    split
    · exact List.nil_prefix
    · exact (List.prefix_cons_inj c).mpr ih

/-- A text without characters of diacritics ends where the diacritics behind a base start. -/
theorem prefix_of_prefix_marks {text : List Char} (htext : ∀ d ∈ ds, ∀ c ∈ d.text, c ∉ text)
    (hds : ∀ d ∈ ds, d ∈ inv.diacritics) (h : text <+: cs ++ ds.flatMap Diacritic.text) :
    text <+: cs := by
  rcases List.prefix_or_prefix_of_prefix h (List.prefix_append cs _) with hle | ⟨more, rfl⟩
  · exact hle
  · -- what goes on behind the base starts with a diacritic
    cases more with
    | nil => simp
    | cons c more =>
      cases ds with
      | nil =>
        have hlength := h.length_le
        simp only [List.flatMap_nil, List.append_nil, List.length_append, List.length_cons]
          at hlength
        omega
      | cons d ds =>
        obtain ⟨c', hc'⟩ := hmarks.single d (hds d List.mem_cons_self)
        rw [List.prefix_append_right_inj, List.flatMap_cons, hc', List.singleton_append,
          List.cons_prefix_cons] at h
        exact (htext d List.mem_cons_self c (by simp [hc', h.1]) (by simp)).elim

/-- The base that is found at the start of a proper base lies inside it. -/
theorem symbol_coreAt_marks (hne : cs ≠ [])
    (hds : ∀ d ∈ ds, d ∈ inv.diacritics ∧ d.placement = .after) :
    (inv.coreAt (cs ++ ds.flatMap Diacritic.text)).symbol <+: cs := by
  rcases inv.coreAt_cases (cs ++ ds.flatMap Diacritic.text) with
    ⟨s, hs, hcore, hstarts, -⟩ | ⟨-, hcore⟩
  · rw [hcore]
    exact prefix_of_prefix_marks hmarks (fun d hd c hc ↦ hmarks.apart s hs d (hds d hd).1 c hc)
      (fun d hd ↦ (hds d hd).1) hstarts
  · obtain ⟨c, cs, rfl⟩ := List.exists_cons_of_ne_nil hne
    rw [hcore]
    exact (List.prefix_cons_inj c).mpr (looseMarks_marks hmarks hds)

/-- Diacritics are no more than their characters. -/
theorem length_le_length_texts (hds : ∀ d ∈ ds, d ∈ inv.diacritics) :
    ds.length ≤ (ds.flatMap Diacritic.text).length := by
  induction ds with
  | nil => exact Nat.le_refl _
  | cons d ds ih =>
    obtain ⟨hd, hds⟩ := List.forall_mem_cons.mp hds
    obtain ⟨c, hc⟩ := hmarks.single d hd
    have := ih hds
    simp only [List.flatMap_cons, hc, List.length_append, List.length_cons, List.length_nil]
    omega

/-- A proper segment is taken apart into its parts. -/
theorem parts_text {p : Parts} (hp : p.IsProper inv) : inv.parts p.text = p := by
  obtain ⟨before, core, after⟩ := p
  obtain ⟨c, cs, rfl⟩ := List.exists_cons_of_ne_nil hp.core_ne
  have hplain : ∀ c' ∈ c :: cs, ∀ d ∈ inv.diacritics, c' ∉ d.text := fun c' hc' d hd hmem ↦
    hp.core d hd c' hmem hc'
  have hsplit : inv.splitBefore (Parts.text ⟨before, c :: cs, after⟩).length
      (Parts.text ⟨before, c :: cs, after⟩) =
        (before, c :: cs ++ after.flatMap Diacritic.text) := by
    have hbefore := length_le_length_texts hmarks fun d hd ↦ (hp.before d hd).1
    rw [Parts.text, List.append_assoc]
    apply splitBefore_marks hmarks hp.before (hplain c List.mem_cons_self)
    rw [List.length_append]
    omega
  -- the base that is found lies inside the base, and the rest of the base goes on behind it
  have hprefix := symbol_coreAt_marks hmarks hp.core_ne hp.after
  rw [parts, hsplit]
  dsimp only at hprefix ⊢
  obtain ⟨more, hmore⟩ := hprefix
  generalize (inv.coreAt (c :: cs ++ after.flatMap Diacritic.text)).symbol = found at hmore ⊢
  rw [← hmore, List.append_assoc, List.drop_left, splitAfter_marks hmarks _ hp.after]
  · have hafter : after.length ≤ (after.flatMap Diacritic.text).length :=
      length_le_length_texts hmarks fun d hd ↦ (hp.after d hd).1
    simp only [List.length_append]
    omega
  · intro c' hc'
    exact hplain c' (hmore ▸ List.mem_append_right _ hc')

end TakingApart

/-! ### What is carried over -/

/-- The floating diacritics that a segment takes over from another. -/
def carriedOver (inv : Inventory) (target source : Segment) (excluding : Option Segment) :
    List Diacritic :=
  let skip := ((inv.floatingOn target)
    ++ excluding.elim [] inv.floatingOn).map Diacritic.text
  (inv.floatingOn source).filter fun d ↦ !skip.contains d.text

/-- The parts with further diacritics around them. -/
def Parts.around (p : Parts) (ds : List Diacritic) : Parts where
  before := ds.filter (·.placement == .before) ++ p.before
  core := p.core
  after := p.after ++ ds.filter (·.placement == .after)

/-- Parts with diacritics of the inventory around them are in their places. -/
theorem Parts.IsProper.around {p : Parts} (hp : p.IsProper inv)
    (hds : ∀ d ∈ ds, d ∈ inv.diacritics) : (p.around ds).IsProper inv where
  before := by
    intro d hd
    rcases List.mem_append.mp hd with hd | hd
    · rw [List.mem_filter, beq_iff_eq] at hd
      exact ⟨hds d hd.1, hd.2⟩
    · exact hp.before d hd
  core_ne := hp.core_ne
  core := hp.core
  after := by
    intro d hd
    rcases List.mem_append.mp hd with hd | hd
    · exact hp.after d hd
    · rw [List.mem_filter, beq_iff_eq] at hd
      exact ⟨hds d hd.1, hd.2⟩

/-- The diacritics on parts with further diacritics around them. -/
theorem Parts.mem_around {p : Parts} :
    d ∈ (p.around ds).before ++ (p.around ds).after ↔ d ∈ ds ∨ d ∈ p.before ++ p.after := by
  simp only [Parts.around, List.mem_append, List.mem_filter, beq_iff_eq]
  cases hplacement : d.placement <;> tauto

section Carrying

variable {t source : Segment} {excluding : Option Segment} {p : Parts}

/-- A segment with further floating diacritics spells what it spells without them. -/
theorem spells_of_subset {pattern candidate : Segment}
    (hsymbol : (inv.withoutFloating pattern).symbol = (inv.withoutFloating candidate).symbol)
    (hsubset : inv.floatingOn pattern ⊆ inv.floatingOn candidate) :
    inv.spells pattern candidate := by
  rw [spells, hsymbol, beq_self_eq_true (inv.withoutFloating candidate).symbol, Bool.true_and,
    Bool.or_eq_true]
  right
  rw [List.all_eq_true]
  intro d hd
  rw [List.contains_iff_mem]
  exact List.mem_map_of_mem (hsubset hd)

/-- The floating diacritics on a segment are diacritics of the inventory that float. -/
theorem mem_diacritics_of_mem_floatingOn (h : d ∈ inv.floatingOn t) :
    d ∈ inv.diacritics ∧ d.floating := by
  obtain ⟨hd, hfloating⟩ := List.mem_filter.mp h
  exact ⟨inv.parts_subset t.symbol hd, hfloating⟩

/-- What is carried over floats and is a diacritic of the inventory. -/
theorem mem_diacritics_of_mem_carriedOver (h : d ∈ inv.carriedOver t source excluding) :
    d ∈ inv.diacritics ∧ d.floating :=
  mem_diacritics_of_mem_floatingOn (List.mem_filter.mp h).1

/-- Without anything to carry over a segment stays as it is. -/
theorem inheritFloating_eq_self (h : inv.carriedOver t source excluding = []) :
    inv.inheritFloating t source excluding = t := by
  rw [inheritFloating]
  exact if_pos (List.isEmpty_iff.mpr h)

/-- What is carried over is written around the segment. -/
theorem symbol_inheritFloating (ht : t.symbol = p.text) :
    (inv.inheritFloating t source excluding).symbol =
      (p.around (inv.carriedOver t source excluding)).text := by
  by_cases h : inv.carriedOver t source excluding = []
  · rw [inheritFloating_eq_self h, h, ht]
    simp [Parts.around]
  · have hne : ¬(inv.carriedOver t source excluding).isEmpty := by simpa using h
    have hsymbol : (inv.inheritFloating t source excluding).symbol =
        ((inv.carriedOver t source excluding).filter (·.placement == .before)).flatMap
            Diacritic.text ++ t.symbol ++
          ((inv.carriedOver t source excluding).filter (·.placement == .after)).flatMap
            Diacritic.text := by
      rw [inheritFloating]
      exact congrArg Segment.symbol (if_neg hne)
    rw [hsymbol, ht]
    simp [Parts.text, Parts.around]

/-- The fixed diacritics do not change when floating ones are carried over. -/
theorem filter_fixed_around (hds : ∀ d ∈ ds, d.floating) :
    (p.around ds).before.filter (!·.floating) = p.before.filter (!·.floating) ∧
    (p.around ds).after.filter (!·.floating) = p.after.filter (!·.floating) := by
  have hnone (placement : Placement) :
      (ds.filter (·.placement == placement)).filter (!·.floating) = [] := by
    rw [List.filter_eq_nil_iff]
    intro d hd
    simp [hds d (List.mem_filter.mp hd).1]
  simp [Parts.around, List.filter_append, hnone]

variable (hmarks : inv.HasMarkCharacters)

include hmarks

/-- A segment takes over the floating diacritics that neither it nor the excluded segment has. -/
theorem mem_carriedOver : d ∈ inv.carriedOver t source excluding ↔
    d ∈ inv.floatingOn source ∧ d ∉ inv.floatingOn t ∧ ∀ e ∈ excluding, d ∉ inv.floatingOn e := by
  have htext {s : Segment} (hd : d ∈ inv.floatingOn source) :
      d.text ∈ (inv.floatingOn s).map Diacritic.text ↔ d ∈ inv.floatingOn s := by
    refine ⟨fun h ↦ ?_, List.mem_map_of_mem⟩
    obtain ⟨e, he, heq⟩ := List.mem_map.mp h
    rwa [← hmarks.eq_of_text_eq (mem_diacritics_of_mem_floatingOn he).1
      (mem_diacritics_of_mem_floatingOn hd).1 heq]
  rw [carriedOver, List.mem_filter]
  refine and_congr_right fun hd ↦ ?_
  rw [List.map_append, Bool.not_eq_true', Bool.eq_false_iff, ne_eq, List.contains_iff_mem,
    List.mem_append, not_or, htext hd]
  cases excluding with
  | none => simp
  | some e => simp [htext hd]

/-- A proper segment is taken apart into its parts and what was carried over around them. -/
theorem parts_inheritFloating (hp : p.IsProper inv) (ht : t.symbol = p.text) :
    inv.parts (inv.inheritFloating t source excluding).symbol =
      p.around (inv.carriedOver t source excluding) := by
  have hproper := hp.around fun d (hd : d ∈ inv.carriedOver t source excluding) ↦
    (mem_diacritics_of_mem_carriedOver hd).1
  rw [symbol_inheritFloating ht, parts_text hmarks hproper]

/-- Without its floating diacritics a segment is what it was before it took any over. -/
theorem symbol_withoutFloating_inheritFloating (hp : p.IsProper inv) (ht : t.symbol = p.text) :
    (inv.withoutFloating (inv.inheritFloating t source excluding)).symbol =
      (inv.withoutFloating t).symbol := by
  obtain ⟨hbefore, hafter⟩ := filter_fixed_around (p := p)
    fun d (hd : d ∈ inv.carriedOver t source excluding) ↦
      (mem_diacritics_of_mem_carriedOver hd).2
  rw [withoutFloating, withoutFloating, parts_inheritFloating hmarks hp ht, ht,
    parts_text hmarks hp]
  dsimp only
  rw [hbefore, hafter]
  rfl

/-- A segment has its own floating diacritics and those of the other segment that are not
excluded. -/
theorem mem_floatingOn_inheritFloating (hp : p.IsProper inv) (ht : t.symbol = p.text) :
    d ∈ inv.floatingOn (inv.inheritFloating t source excluding) ↔ d ∈ inv.floatingOn t ∨
      d ∈ inv.floatingOn source ∧ ∀ e ∈ excluding, d ∉ inv.floatingOn e := by
  have hadded : d ∈ inv.floatingOn (inv.inheritFloating t source excluding) ↔
      d ∈ inv.carriedOver t source excluding ∨ d ∈ inv.floatingOn t := by
    rw [floatingOn, parts_inheritFloating hmarks hp ht, List.mem_filter, Parts.mem_around,
      or_and_right]
    refine or_congr (and_iff_left_of_imp fun hd ↦ (mem_diacritics_of_mem_carriedOver hd).2) ?_
    rw [floatingOn, ht, parts_text hmarks hp, List.mem_filter]
  rw [hadded, mem_carriedOver hmarks]
  by_cases hd : d ∈ inv.floatingOn t <;> simp [hd]

/-- Carrying floating diacritics over is conservative: the segment still spells what it was, it is
the same without floating diacritics, it has its own floating diacritics and those of the other
segment that are not excluded, and carrying them over once more changes nothing. -/
theorem inheritFloating_conservative (hp : p.IsProper inv) (ht : t.symbol = p.text)
    (source : Segment) (excluding : Option Segment) :
    let r := inv.inheritFloating t source excluding
    inv.spells t r ∧ (inv.withoutFloating r).symbol = (inv.withoutFloating t).symbol ∧
    (∀ d, d ∈ inv.floatingOn r ↔ d ∈ inv.floatingOn t ∨
      d ∈ inv.floatingOn source ∧ ∀ e ∈ excluding, d ∉ inv.floatingOn e) ∧
    inv.inheritFloating r source excluding = r := by
  intro r
  have hfixed : (inv.withoutFloating r).symbol = (inv.withoutFloating t).symbol :=
    symbol_withoutFloating_inheritFloating hmarks hp ht
  have hfloating (d : Diacritic) : d ∈ inv.floatingOn r ↔ d ∈ inv.floatingOn t ∨
      d ∈ inv.floatingOn source ∧ ∀ e ∈ excluding, d ∉ inv.floatingOn e :=
    mem_floatingOn_inheritFloating hmarks hp ht
  refine ⟨?_, hfixed, hfloating, inheritFloating_eq_self ?_⟩
  · exact spells_of_subset hfixed.symm fun d hd ↦ (hfloating d).mpr (.inl hd)
  · -- what the first turn did not carry over is on the segment or excluded
    rw [List.eq_nil_iff_forall_not_mem]
    intro d hd
    obtain ⟨hsource, hnone, hallowed⟩ := (mem_carriedOver hmarks).mp hd
    exact hnone ((hfloating d).mpr (.inr ⟨hsource, hallowed⟩))

end Carrying

/-- An aspirated `a` with low tone takes over stress and creak from a segment that has high tone as
well, where high tone is excluded. -/
theorem inheritFloating_conservative_a :
    let a : Symbol := ⟨['a'], .ofValues ["open"]⟩
    let stress : Diacritic := ⟨['!'], .ofValues ["stressed"], .before, true⟩
    let breath : Diacritic := ⟨['h'], .ofValues ["aspirated"], .after, false⟩
    let high : Diacritic := ⟨['1'], .ofValues ["high"], .after, true⟩
    let low : Diacritic := ⟨['2'], .ofValues ["low"], .after, true⟩
    let creak : Diacritic := ⟨['3'], .ofValues ["creaky"], .after, true⟩
    let t : Segment := ⟨['a', 'h', '2'], .ofValues ["open", "aspirated", "low"]⟩
    let source : Segment := ⟨['!', 'o', '1', '3'], .ofValues ["stressed", "high", "creaky"]⟩
    let excluded : Segment := ⟨['u', '1'], .ofValues ["high"]⟩
    ∃ inv, build
        [⟨"Height", ["open"], none, .segment⟩, ⟨"Stress", ["stressed"], none, .segment⟩,
          ⟨"Release", ["aspirated"], none, .segment⟩, ⟨"Tone", ["high", "low"], none, .segment⟩,
          ⟨"Phonation", ["creaky"], none, .segment⟩]
        [a] [stress, breath, high, low, creak] = .ok inv ∧
      inv.HasMarkCharacters ∧ Parts.IsProper inv ⟨[], ['a'], [breath, low]⟩ ∧
      t.symbol = Parts.text ⟨[], ['a'], [breath, low]⟩ ∧
      ∃ r, inv.inheritFloating t source (some excluded) = r ∧
        r.symbol = ['!', 'a', 'h', '2', '3'] ∧ inv.spells t r ∧
        (inv.withoutFloating r).symbol = (inv.withoutFloating t).symbol ∧
        stress ∈ inv.floatingOn r ∧ high ∉ inv.floatingOn r ∧
        inv.inheritFloating r source (some excluded) = r := by
  intro a stress breath high low creak t source excluded
  let inv : Inventory := {
    features := [⟨"Height", ["open"], none, .segment⟩, ⟨"Stress", ["stressed"], none, .segment⟩,
      ⟨"Release", ["aspirated"], none, .segment⟩, ⟨"Tone", ["high", "low"], none, .segment⟩,
      ⟨"Phonation", ["creaky"], none, .segment⟩]
    symbols := [a]
    diacritics := [stress, breath, high, low, creak]
    parseOrder := [a]
    parseOrder_eq := by cbv }
  have hbuild : build inv.features [a] [stress, breath, high, low, creak] = .ok inv := by cbv
  have hsingle : ∀ d ∈ inv.diacritics, d.text = [d.text.head?.getD ' '] := by decide +kernel
  have hapart : ∀ d ∈ inv.diacritics, d.text.all (· != 'a') := by decide +kernel
  have hplain : ∀ d ∈ inv.diacritics, ∀ c ∈ d.text, c ∉ ['a'] := fun d hd c hc ↦ by
    simpa using List.all_eq_true.mp (hapart d hd) c hc
  have hmarks : inv.HasMarkCharacters := by
    constructor
    · exact fun d hd ↦ ⟨_, hsingle d hd⟩
    · decide +kernel
    · exact List.forall_mem_singleton.mpr hplain
  have hp : Parts.IsProper inv ⟨[], ['a'], [breath, low]⟩ := by
    constructor
    · exact List.forall_mem_nil _
    · decide
    · exact hplain
    · decide +kernel
  have hsource : stress ∈ inv.floatingOn source := by decide +kernel
  have hexcluded : high ∈ inv.floatingOn excluded ∧ stress ∉ inv.floatingOn excluded ∧
      high ∉ inv.floatingOn t := by decide +kernel
  have hsymbol : (inv.inheritFloating t source (some excluded)).symbol =
      ['!', 'a', 'h', '2', '3'] := by decide +kernel
  obtain ⟨hspells, hfixed, hfloating, hself⟩ :=
    inheritFloating_conservative hmarks hp rfl source (some excluded) (t := t)
  refine ⟨inv, hbuild, hmarks, hp, rfl, _, rfl, hsymbol, hspells, hfixed, ?_, ?_, hself⟩
  · exact (hfloating stress).mpr (.inr ⟨hsource, by simpa using hexcluded.2.1⟩)
  · intro hmem
    rcases (hfloating high).mp hmem with hown | ⟨-, hnone⟩
    · exact hexcluded.2.2 hown
    · exact hnone excluded rfl hexcluded.1

end Diachrony.Inventory
