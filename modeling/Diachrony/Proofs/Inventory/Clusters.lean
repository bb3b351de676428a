import Diachrony.Inventory.Writing
import Diachrony.Proofs.Inventory.Progress

/-!
# Clusters of characters

A text without syllables falls into clusters: the diacritics in front of a base, the base, and the
diacritics behind it. `Reads` says which clusters these are, by what starts the text at every place,
and `readWord` makes one segment of each cluster. So no character is lost, and a word that was read
is written as it was.
-/

namespace Diachrony.Inventory

/-- A base with the diacritics in front of it and behind it. -/
structure Cluster where
  /-- Diacritics in front, the first one written first. -/
  before : List Diacritic := []
  /-- The base and its features. -/
  core : Segment
  /-- Diacritics behind, the first one written first. -/
  after : List Diacritic := []

/-- The matrix with the values of diacritics added, one after the other. -/
def overlayAll (inv : Inventory) (m : Matrix) (ds : List Diacritic) : Matrix :=
  ds.foldl (fun m d ↦ inv.overlay m d.matrix) m

namespace Cluster

/-- What is written. -/
def text (c : Cluster) : List Char :=
  c.before.flatMap Diacritic.text ++ c.core.symbol ++ c.after.flatMap Diacritic.text

/-- The segment that is read. -/
def segment (inv : Inventory) (c : Cluster) : Segment :=
  ⟨c.text, inv.overlayAll (inv.overlay c.core.matrix (inv.overlayAll ∅ c.before)) c.after⟩

/-- The segment is written as the cluster is. -/
@[simp] theorem symbol_segment (inv : Inventory) (c : Cluster) :
    (c.segment inv).symbol = c.text := rfl

/-- A base without diacritics is read as it is. -/
theorem segment_bare (inv : Inventory) (s : Segment) :
    Cluster.segment inv ⟨[], s, []⟩ = s := by
  simp only [segment, text, List.flatMap_nil, List.nil_append, List.append_nil]
  rfl

end Cluster

section Relation

variable (inv : Inventory)

/-- The longest diacritic that stands in front of something at the start of a text. -/
def leading? (text : List Char) : Option Diacritic :=
  (inv.diacriticAt? .before text).filter fun d ↦ d.text.length < text.length

/-- The longest diacritic that stands behind something at the start of a text. -/
def trailing? (text : List Char) : Option Diacritic := inv.diacriticAt? .after text

/-- The diacritics that start a text in front of a base, up to the base. -/
inductive Leads : List Diacritic → List Char → List Char → Prop
  /-- The base starts where no diacritic does. -/
  | base {text : List Char} (stop : inv.leading? text = none) : Leads [] text text
  /-- A diacritic, and then the diacritics that start what it leaves. -/
  | cons {d : Diacritic} {ds : List Diacritic} {rest left : List Char}
      (first : inv.leading? (d.text ++ rest) = some d) (others : Leads ds rest left) :
      Leads (d :: ds) (d.text ++ rest) left

/-- The diacritics that start a text behind a base, up to the next cluster. -/
inductive Trails : List Diacritic → List Char → List Char → Prop
  /-- The next cluster starts with a diacritic of its own, or where no diacritic starts. -/
  | done {text : List Char} (stop : inv.leading? text = none → inv.trailing? text = none) :
      Trails [] text text
  /-- A diacritic, and then the diacritics that start what it leaves. -/
  | cons {d : Diacritic} {ds : List Diacritic} {rest left : List Char}
      (clear : inv.leading? (d.text ++ rest) = none)
      (first : inv.trailing? (d.text ++ rest) = some d) (others : Trails ds rest left) :
      Trails (d :: ds) (d.text ++ rest) left

/-- The clusters of a text, as a reader finds them from left to right. -/
inductive Reads : List Cluster → List Char → Prop
  /-- The empty text has no clusters. -/
  | nil : Reads [] []
  /-- The first cluster, and then the clusters of what it leaves. -/
  | cons {c : Cluster} {cs : List Cluster} {text rest left : List Char}
      (before : Leads inv c.before text (c.core.symbol ++ rest))
      (core : inv.coreAt (c.core.symbol ++ rest) = c.core) (ne : c.core.symbol ≠ [])
      (after : Trails inv c.after rest left) (others : Reads cs left) : Reads (c :: cs) text

end Relation

variable {inv : Inventory}

/-- A diacritic in front of a base is declared and written there, and something follows it. -/
theorem leading?_eq_some {text : List Char} {d : Diacritic} (h : inv.leading? text = some d) :
    d ∈ inv.diacritics ∧ d.text ≠ [] ∧ ∃ rest, text = d.text ++ rest ∧ rest ≠ [] := by
  obtain ⟨hd, hlt⟩ := Option.filter_eq_some_iff.mp h
  obtain ⟨hmem, -, hne, rest, rfl⟩ := diacriticAt?_eq_some hd
  refine ⟨hmem, hne, rest, rfl, ?_⟩
  rintro rfl
  simp at hlt

/-- A diacritic behind a base is declared and written there. -/
theorem trailing?_eq_some {text : List Char} {d : Diacritic} (h : inv.trailing? text = some d) :
    d ∈ inv.diacritics ∧ d.text ≠ [] ∧ ∃ rest, text = d.text ++ rest := by
  obtain ⟨hmem, -, hne, rest, rfl⟩ := diacriticAt?_eq_some h
  exact ⟨hmem, hne, rest, rfl⟩

/-- What is left behind a text that is not empty is shorter. -/
theorem length_lt_of_eq_append {text first rest : List Char} (h : text = first ++ rest)
    (hne : first ≠ []) : rest.length < text.length := by
  have := List.length_pos_iff.mpr hne
  rw [h, List.length_append]
  omega

/-- Nothing leads in the empty text. -/
@[simp] theorem leading?_nil : inv.leading? [] = none := by simp [leading?]

/-- Nothing trails in the empty text. -/
@[simp] theorem trailing?_nil : inv.trailing? [] = none := diacriticAt?_nil inv .after

/-! ### Bases -/

/-- Loose marks are written where they are found. -/
theorem looseMarks_starts (text : List Char) : inv.looseMarks text <+: text := by
  induction text with
  | nil => exact List.nil_prefix
  | cons c rest ih =>
    rw [looseMarks]
    split
    · exact List.nil_prefix
    · exact (List.prefix_cons_inj c).mpr ih

/-- The longest of the declared symbols that start a text. -/
def IsLongest (inv : Inventory) (core : Segment) (text : List Char) : Prop :=
  ∃ s ∈ inv.symbols, core = ⟨s.text, s.matrix⟩ ∧ s.text <+: text ∧
    ∀ t ∈ inv.symbols, t.text <+: text → t.text.length ≤ s.text.length

private theorem pairwise_parseOrder (inv : Inventory) :
    inv.parseOrder.Pairwise fun a b ↦ b.text.length ≤ a.text.length := by
  rw [inv.parseOrder_eq]
  refine (List.pairwise_mergeSort (fun a b c hab hbc ↦ ?_) (fun a b ↦ ?_) inv.symbols).imp
    fun h ↦ of_decide_eq_true h
  · simp only [decide_eq_true_eq] at *
    omega
  · simp only [Bool.or_eq_true, decide_eq_true_eq]
    omega

/-- The base at the start of a text is the longest declared symbol there, or, where none starts, a
character without features and the loose marks on it. -/
theorem coreAt_cases (inv : Inventory) (text : List Char) :
    inv.IsLongest (inv.coreAt text) text ∨
      (∀ t ∈ inv.symbols, ¬t.text <+: text) ∧
        inv.coreAt text = .literal (text.take 1 ++ inv.looseMarks (text.drop 1)) := by
  have hmem (s : Symbol) : s ∈ inv.parseOrder ↔ s ∈ inv.symbols := by
    rw [inv.parseOrder_eq]
    exact List.mem_mergeSort
  unfold coreAt
  split
  · next s hs =>
    obtain ⟨hstarts, before, after, horder, hbefore⟩ := List.find?_eq_some_iff_append.mp hs
    refine .inl ⟨s, (hmem s).mp (List.mem_of_find?_eq_some hs), rfl,
      List.isPrefixOf_iff_prefix.mp hstarts, ?_⟩
    intro t ht hstarts
    have hsorted := inv.pairwise_parseOrder
    rw [horder, List.pairwise_append, List.pairwise_cons] at hsorted
    rw [← hmem, horder, List.mem_append, List.mem_cons] at ht
    rcases ht with ht | rfl | ht
    · have := hbefore t ht
      rw [List.isPrefixOf_iff_prefix.mpr hstarts] at this
      cases this
    · exact Nat.le_refl _
    · exact hsorted.2.1.1 t ht
  · next hnone =>
    refine .inr ⟨fun t ht hstarts ↦ ?_, ?_⟩
    · exact List.find?_eq_none.mp hnone t ((hmem t).mpr ht)
        (List.isPrefixOf_iff_prefix.mpr hstarts)
    · cases text <;> rfl

/-- The base is written at the start of the text. -/
theorem symbol_coreAt_starts (inv : Inventory) (text : List Char) :
    (inv.coreAt text).symbol <+: text := by
  rcases inv.coreAt_cases text with ⟨s, -, hcore, hs, -⟩ | ⟨-, hcore⟩
  · rw [hcore]
    exact hs
  · rw [hcore]
    cases text with
    | nil => exact List.nil_prefix
    | cons c rest => exact (List.prefix_cons_inj c).mpr (looseMarks_starts rest)

/-- Where every declared symbol has text, so has every base. -/
theorem symbol_coreAt_ne_nil (hsymbols : ∀ s ∈ inv.symbols, s.text ≠ []) {text : List Char}
    (htext : text ≠ []) : (inv.coreAt text).symbol ≠ [] := by
  rcases inv.coreAt_cases text with ⟨s, hs, hcore, -⟩ | ⟨-, hcore⟩
  · rw [hcore]
    exact hsymbols s hs
  · rw [hcore]
    cases text with
    | nil => exact (htext rfl).elim
    | cons c rest => exact List.cons_ne_nil _ _

/-! ### Every text has clusters -/

theorem Leads.text_eq {ds : List Diacritic} {text left : List Char} (h : Leads inv ds text left) :
    text = ds.flatMap Diacritic.text ++ left := by
  induction h with
  | base => rfl
  | cons _ _ ih => rw [List.flatMap_cons, List.append_assoc, ← ih]

theorem Leads.stops {ds : List Diacritic} {text left : List Char} (h : Leads inv ds text left) :
    inv.leading? left = none := by
  induction h with
  | base stop => exact stop
  | cons _ _ ih => exact ih

theorem Leads.subset {ds : List Diacritic} {text left : List Char} (h : Leads inv ds text left) :
    ds ⊆ inv.diacritics := by
  induction h with
  | base => exact List.nil_subset _
  | cons first _ ih => exact List.cons_subset.mpr ⟨(leading?_eq_some first).1, ih⟩

theorem Trails.text_eq {ds : List Diacritic} {text left : List Char} (h : Trails inv ds text left) :
    text = ds.flatMap Diacritic.text ++ left := by
  induction h with
  | done => rfl
  | cons _ _ _ ih => rw [List.flatMap_cons, List.append_assoc, ← ih]

theorem Trails.subset {ds : List Diacritic} {text left : List Char} (h : Trails inv ds text left) :
    ds ⊆ inv.diacritics := by
  induction h with
  | done => exact List.nil_subset _
  | cons _ first _ ih => exact List.cons_subset.mpr ⟨(trailing?_eq_some first).1, ih⟩

/-- The diacritics of clusters are declared. -/
theorem Reads.subset {cs : List Cluster} {text : List Char} (h : Reads inv cs text) :
    ∀ c ∈ cs, c.before ++ c.after ⊆ inv.diacritics := by
  induction h with
  | nil => exact fun c hc ↦ absurd hc List.not_mem_nil
  | cons before _ _ after _ ih =>
    exact List.forall_mem_cons.mpr ⟨List.append_subset.mpr ⟨before.subset, after.subset⟩, ih⟩

/-- The clusters of a text, written one after the other, are the text. -/
theorem Reads.text_eq {cs : List Cluster} {text : List Char} (h : Reads inv cs text) :
    cs.flatMap Cluster.text = text := by
  induction h with
  | nil => rfl
  | cons before core ne after _ ih =>
    rw [List.flatMap_cons, ih, before.text_eq, after.text_eq]
    simp only [Cluster.text, List.append_assoc]

/-- No cluster is empty. -/
theorem Reads.text_ne_nil {cs : List Cluster} {text : List Char} (h : Reads inv cs text) :
    ∀ c ∈ cs, c.text ≠ [] := by
  induction h with
  | nil => exact fun c hc ↦ absurd hc List.not_mem_nil
  | cons _ _ ne _ _ ih =>
    refine List.forall_mem_cons.mpr ⟨?_, ih⟩
    simp [Cluster.text, ne]

/-- Every base is the longest declared symbol that starts what is left of the text, unless no
declared symbol does. -/
theorem Reads.core_cases {cs : List Cluster} {text : List Char} (h : Reads inv cs text)
    {before after : List Cluster} {c : Cluster} (hsplit : cs = before ++ c :: after) :
    let rest := c.core.symbol ++ c.after.flatMap Diacritic.text ++ after.flatMap Cluster.text
    inv.IsLongest c.core rest ∨ c.core.matrix = ∅ ∧ ∀ s ∈ inv.symbols, ¬s.text <+: rest := by
  induction h generalizing before with
  | nil => cases before <;> cases hsplit
  | @cons c' cs text rest left lead core ne trail others ih =>
    cases before with
    | nil =>
      obtain ⟨rfl, rfl⟩ := List.cons.inj hsplit
      rw [trail.text_eq, ← others.text_eq, ← List.append_assoc] at core
      have hcases := inv.coreAt_cases
        (c'.core.symbol ++ c'.after.flatMap Diacritic.text ++ cs.flatMap Cluster.text)
      rw [core] at hcases
      exact hcases.imp_right fun ⟨hnone, hcore⟩ ↦ ⟨by rw [hcore]; rfl, hnone⟩
    | cons b before => exact ih (List.cons.inj hsplit).2

theorem Trails.stops {ds : List Diacritic} {text left : List Char} (h : Trails inv ds text left) :
    inv.leading? left = none → inv.trailing? left = none := by
  induction h with
  | done stop => exact stop
  | cons _ _ _ ih => exact ih

/-- In front of a base there is a number of diacritics, and then the base. -/
theorem exists_leads (inv : Inventory) (text : List Char) (htext : text ≠ []) :
    ∃ ds left, Leads inv ds text left ∧ left ≠ [] := by
  cases h : inv.leading? text with
  | none => exact ⟨[], text, .base h, htext⟩
  | some d =>
    obtain ⟨-, hne, rest, hrest, hleft⟩ := leading?_eq_some h
    have := length_lt_of_eq_append hrest hne
    obtain ⟨ds, left, hds, hleft⟩ := exists_leads inv rest hleft
    subst hrest
    exact ⟨d :: ds, left, .cons h hds, hleft⟩
termination_by text.length

/-- Behind a base there is a number of diacritics. -/
theorem exists_trails (inv : Inventory) (text : List Char) :
    ∃ ds left, Trails inv ds text left := by
  cases hlead : inv.leading? text with
  | some d => exact ⟨[], text, .done fun h ↦ by rw [hlead] at h; cases h⟩
  | none =>
    cases h : inv.trailing? text with
    | none => exact ⟨[], text, .done fun _ ↦ h⟩
    | some d =>
      obtain ⟨-, hne, rest, hrest⟩ := trailing?_eq_some h
      have := length_lt_of_eq_append hrest hne
      obtain ⟨ds, left, hds⟩ := exists_trails inv rest
      subst hrest
      exact ⟨d :: ds, left, .cons hlead h hds⟩
termination_by text.length

/-- Where every declared symbol has text, every text falls into clusters. -/
theorem exists_reads (hsymbols : ∀ s ∈ inv.symbols, s.text ≠ []) (text : List Char) :
    ∃ cs, Reads inv cs text := by
  by_cases htext : text = []
  · exact ⟨[], htext ▸ .nil⟩
  · obtain ⟨before, mid, hbefore, hmid⟩ := exists_leads inv text htext
    have hcore := symbol_coreAt_ne_nil hsymbols hmid
    obtain ⟨rest, hrest⟩ := inv.symbol_coreAt_starts mid
    obtain ⟨after, left, hafter⟩ := exists_trails inv rest
    have : left.length < text.length := by
      have := List.length_pos_iff.mpr hcore
      rw [hbefore.text_eq, ← hrest, hafter.text_eq]
      simp only [List.length_append]
      omega
    obtain ⟨cs, hcs⟩ := exists_reads hsymbols left
    rw [← hrest] at hbefore
    have hbase : inv.coreAt ((inv.coreAt mid).symbol ++ rest) = inv.coreAt mid := by rw [hrest]
    exact ⟨⟨before, inv.coreAt mid, after⟩ :: cs, .cons hbefore hbase hcore hafter hcs⟩
termination_by text.length

end Diachrony.Inventory
