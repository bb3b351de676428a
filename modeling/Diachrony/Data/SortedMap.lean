/-!
# Finite maps in key order

A map from a strict linear order, held as the list of its entries by increasing key. Maps that give
every key the same value are equal.
-/

namespace Diachrony

universe u v

/-- A finite map, as the list of its entries by strictly increasing key. -/
structure SortedMap (κ : Type u) (β : Type v) [LT κ] where
  /-- The entries by increasing key. -/
  entries : List (κ × β)
  /-- Each key is below those after it. -/
  increasing : entries.Pairwise (·.1 < ·.1)

/-- The order of texts is transitive. -/
instance textTrans : Trans (α := String) (· < ·) (· < ·) (· < ·) := ⟨String.lt_trans⟩

/-- Of two different texts one comes first. -/
instance textTrichotomous : Std.Trichotomous (α := String) (· < ·) :=
  ⟨fun _ _ hab hba ↦ String.le_antisymm (String.not_lt.mp hba) (String.not_lt.mp hab)⟩

namespace SortedMap

section Views

variable {κ : Type u} {β : Type v} [LT κ]

instance [DecidableEq κ] [DecidableEq β] : DecidableEq (SortedMap κ β) := fun a b ↦
  decidable_of_iff (a.entries = b.entries) ⟨by cases a; cases b; simp, congrArg entries⟩

/-- The map without entries. -/
def empty : SortedMap κ β := ⟨[], .nil⟩

instance : EmptyCollection (SortedMap κ β) := ⟨empty⟩

instance : Inhabited (SortedMap κ β) := ⟨empty⟩

/-- The keys in increasing order. -/
def keys (m : SortedMap κ β) : List κ := m.entries.map Prod.fst

/-- Whether there is no entry. -/
def isEmpty (m : SortedMap κ β) : Bool := m.entries.isEmpty

/-- The entries that a test accepts. -/
def filter (keep : κ → β → Bool) (m : SortedMap κ β) : SortedMap κ β :=
  ⟨m.entries.filter fun e ↦ keep e.1 e.2, m.increasing.filter _⟩

/-- The value of a key. -/
def get? [DecidableEq κ] (m : SortedMap κ β) (key : κ) : Option β :=
  (m.entries.find? fun e ↦ e.1 = key).map Prod.snd

/-- The empty map gives no value. -/
@[simp] theorem get?_empty [DecidableEq κ] (key : κ) : (∅ : SortedMap κ β).get? key = none := rfl

/-- A key has a value when the two are an entry. -/
theorem get?_eq_some_iff [DecidableEq κ] [Std.Irrefl (α := κ) (· < ·)]
    {m : SortedMap κ β} {key : κ} {value : β} : m.get? key = some value ↔
      (key, value) ∈ m.entries := by
  obtain ⟨l, hl⟩ := m
  simp only [get?]
  induction l with
  | nil => simp
  | cons e rest ih =>
    rw [List.pairwise_cons] at hl
    by_cases he : e.1 = key
    · have hrest : (key, value) ∉ rest := by
        intro hmem
        have hlt := hl.1 _ hmem
        rw [he] at hlt
        exact Std.Irrefl.irrefl key hlt
      simp only [List.find?_cons, he, decide_true, Option.map_some, Option.some.injEq,
        List.mem_cons, hrest, or_false]
      constructor
      · rintro rfl
        exact Prod.ext he.symm rfl
      · rintro h
        exact (congrArg Prod.snd h).symm
    · rw [List.find?_cons_of_neg (by simpa using he), ih hl.2, List.mem_cons]
      constructor
      · exact .inr
      · rintro (h | h)
        · exact (he (congrArg Prod.fst h).symm).elim
        · exact h

/-- A filtered map gives the values that the test accepts. -/
theorem get?_filter_eq_some [DecidableEq κ] [Std.Irrefl (α := κ) (· < ·)] {keep : κ → β → Bool}
    {m : SortedMap κ β} {key : κ} {value : β} :
    (m.filter keep).get? key = some value ↔ m.get? key = some value ∧ keep key value := by
  rw [get?_eq_some_iff, get?_eq_some_iff, filter, List.mem_filter]

/-- Maps that give every key the same value are equal. -/
@[ext] theorem ext [DecidableEq κ] [Std.Asymm (α := κ) (· < ·)] {m n : SortedMap κ β}
    (h : ∀ key, m.get? key = n.get? key) : m = n := by
  have nodup (m : SortedMap κ β) : m.entries.Nodup := by
    refine m.increasing.imp fun {a b} hab heq ↦ ?_
    subst heq
    exact Std.Asymm.asymm _ _ hab hab
  have perm : m.entries.Perm n.entries := by
    refine (List.perm_ext_iff_of_nodup (nodup m) (nodup n)).mpr fun e ↦ ?_
    rw [← get?_eq_some_iff, h, get?_eq_some_iff]
  obtain ⟨l, hl⟩ := m
  obtain ⟨l', hl'⟩ := n
  have : l = l' := perm.eq_of_pairwise
    (fun a b _ _ hab hba ↦ (Std.Asymm.asymm a.1 b.1 hab hba).elim) hl hl'
  subst this
  rfl

/-- Moves every key by a function that keeps their order. -/
def mapKeys {ι : Type u} [LT ι] (move : κ → ι) (mono : ∀ {a b : κ}, a < b → move a < move b)
    (m : SortedMap κ β) : SortedMap ι β :=
  ⟨m.entries.map fun e ↦ (move e.1, e.2), List.pairwise_map.mpr (m.increasing.imp mono)⟩

/-- A map whose keys were moved gives the values of the keys that were moved there. -/
theorem get?_mapKeys_eq_some {ι : Type u} [LT ι] [DecidableEq κ] [DecidableEq ι]
    [Std.Irrefl (α := κ) (· < ·)] [Std.Irrefl (α := ι) (· < ·)] {move : κ → ι}
    {mono : ∀ {a b : κ}, a < b → move a < move b} {m : SortedMap κ β} {key : ι} {value : β} :
    (m.mapKeys move mono).get? key = some value ↔
      ∃ k, m.get? k = some value ∧ move k = key := by
  simp only [get?_eq_some_iff, mapKeys, List.mem_map, Prod.exists, Prod.mk.injEq]
  constructor
  · rintro ⟨k, _, hmem, hkey, rfl⟩
    exact ⟨k, hmem, hkey⟩
  · rintro ⟨k, hmem, hkey⟩
    exact ⟨k, value, hmem, hkey, rfl⟩

end Views

variable {κ : Type u} {β : Type v} [LT κ] [DecidableLT κ] [DecidableEq κ]

/-- Puts an entry into a list by increasing key, over an entry with its key. -/
def insertInto (key : κ) (value : β) : List (κ × β) → List (κ × β)
  | [] => [(key, value)]
  | e :: rest =>
    if key < e.1 then (key, value) :: e :: rest
    else if key = e.1 then (key, value) :: rest
    else e :: insertInto key value rest

/-- Every entry after an insertion is the new one or an old one. -/
theorem mem_of_mem_insertInto {key : κ} {value : β} {l : List (κ × β)} {e : κ × β}
    (h : e ∈ insertInto key value l) : e = (key, value) ∨ e ∈ l := by
  induction l with
  | nil => simpa [insertInto] using h
  | cons c rest ih => rw [insertInto] at h; grind

variable [Trans (α := κ) (· < ·) (· < ·) (· < ·)] [Std.Trichotomous (α := κ) (· < ·)]

/-- Inserting keeps the keys increasing. -/
theorem pairwise_insertInto {key : κ} {value : β} {l : List (κ × β)}
    (h : l.Pairwise (·.1 < ·.1)) : (insertInto key value l).Pairwise (·.1 < ·.1) := by
  induction l with
  | nil => simp [insertInto]
  | cons b rest ih =>
    rw [List.pairwise_cons] at h
    rw [insertInto]
    split
    · next hab =>
      refine .cons (fun c hc ↦ ?_) (.cons h.1 h.2)
      rcases List.mem_cons.mp hc with rfl | hc
      · exact hab
      · exact Trans.trans hab (h.1 c hc)
    · next hab =>
      split
      · next heq => exact .cons (fun c hc ↦ heq ▸ h.1 c hc) h.2
      · next hne =>
        refine .cons (fun c hc ↦ ?_) (ih h.2)
        rcases mem_of_mem_insertInto hc with rfl | hc
        · exact Decidable.by_contra fun hba ↦ hne (Std.Trichotomous.trichotomous _ _ hab hba)
        · exact h.1 c hc

/-- The map with a key given a value. -/
def insert (key : κ) (value : β) (m : SortedMap κ β) : SortedMap κ β :=
  ⟨insertInto key value m.entries, pairwise_insertInto m.increasing⟩

/-- The map with a key given a value unless it has one. -/
def insertNew (key : κ) (value : β) (m : SortedMap κ β) : SortedMap κ β :=
  match m.get? key with
  | some _ => m
  | none => m.insert key value

/-- The map of a list of entries; of two entries with one key the later counts. -/
def ofList (l : List (κ × β)) : SortedMap κ β := l.foldl (fun m e ↦ m.insert e.1 e.2) ∅

/-- The entries of the first map, and those of the second whose keys the first lacks. -/
def orElse (m n : SortedMap κ β) : SortedMap κ β :=
  n.entries.foldl (fun m e ↦ m.insertNew e.1 e.2) m

/-- A key has the value that was inserted last. -/
theorem get?_insert (m : SortedMap κ β) (key other : κ) (value : β) :
    (m.insert key value).get? other = if other = key then some value else m.get? other := by
  obtain ⟨l, hl⟩ := m
  simp only [insert, get?]
  clear hl
  induction l with
  | nil => by_cases h : other = key <;> simp [insertInto, h, eq_comm]
  | cons e rest ih =>
    rw [insertInto]
    split
    · simp only [List.find?_cons]; grind
    · split
      · next heq => simp only [List.find?_cons]; grind
      · next hne => simp only [List.find?_cons]; grind

/-- A key keeps its value when a value is inserted for keys without one. -/
theorem get?_insertNew (m : SortedMap κ β) (key other : κ) (value : β) :
    (m.insertNew key value).get? other =
      (m.get? other).or (if other = key then some value else none) := by
  rw [insertNew]
  by_cases h : other = key
  · subst h
    cases hm : m.get? other with
    | none => simp [get?_insert]
    | some old => simp [hm]
  · cases m.get? key with
    | none => simp [get?_insert, h]
    | some old => simp [h]

/-- Of two maps the first one gives the value of a key, and the second one if the first has none. -/
theorem get?_orElse (m n : SortedMap κ β) (key : κ) :
    (m.orElse n).get? key = (m.get? key).or (n.get? key) := by
  obtain ⟨l, hl⟩ := n
  simp only [orElse, get?]
  clear hl
  induction l generalizing m with
  | nil => simp
  | cons e rest ih =>
    have hfirst := m.get?_insertNew e.1 key e.2
    simp only [get?] at hfirst
    rw [List.foldl_cons, ih, hfirst, List.find?_cons]
    by_cases h : e.1 = key
    · cases (m.entries.find? fun e ↦ e.1 = key) <;> simp [h]
    · simp [h, Ne.symm h]

private theorem get?_foldl_insert {l : List (κ × β)} (h : (l.map Prod.fst).Nodup)
    {m : SortedMap κ β} {key : κ} {value : β} (hm : ∀ e ∈ l, m.get? e.1 = none) :
    (l.foldl (fun m e ↦ m.insert e.1 e.2) m).get? key = some value ↔
      (key, value) ∈ l ∨ m.get? key = some value := by
  induction l generalizing m with
  | nil => simp
  | cons e rest ih =>
    rw [List.map_cons, List.nodup_cons] at h
    have hrest : ∀ c ∈ rest, (m.insert e.1 e.2).get? c.1 = none := by
      intro c hc
      have hne : c.1 ≠ e.1 := fun heq ↦ h.1 (heq ▸ List.mem_map_of_mem hc)
      rw [get?_insert, if_neg hne]
      exact hm c (List.mem_cons_of_mem e hc)
    rw [List.foldl_cons, ih h.2 hrest, get?_insert, List.mem_cons]
    by_cases hkey : key = e.1
    · have hnone := hm e List.mem_cons_self
      simp only [hkey, if_true, hnone, Option.some.injEq, reduceCtorEq, or_false]
      have heq : e.2 = value ↔ (e.1, value) = e :=
        ⟨fun h ↦ h ▸ rfl, fun h ↦ (congrArg Prod.snd h).symm⟩
      rw [heq, or_comm]
    · have hne : (key, value) ≠ e := fun h ↦ hkey (congrArg Prod.fst h)
      simp only [if_neg hkey, hne, false_or]

/-- A map made of entries with different keys has those entries. -/
theorem get?_ofList_eq_some {l : List (κ × β)} (h : (l.map Prod.fst).Nodup) {key : κ}
    {value : β} : (ofList l).get? key = some value ↔ (key, value) ∈ l := by
  rw [ofList, get?_foldl_insert h fun _ _ ↦ rfl, get?_empty]
  simp

end SortedMap

end Diachrony
