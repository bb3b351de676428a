/-!
# Finite sets in order

A set over a strict linear order, held as the increasing list of its members. Sets with the same
members are equal, and the list fixes the order in which members are shown.
-/

namespace Diachrony

universe u

/-- A finite set, as the strictly increasing list of its members. -/
structure SortedSet (α : Type u) [LT α] where
  /-- The members in increasing order. -/
  toList : List α
  /-- Each member is below those after it. -/
  increasing : toList.Pairwise (· < ·)

namespace SortedSet

section Views

variable {α : Type u} [LT α]

instance [DecidableEq α] : DecidableEq (SortedSet α) := fun a b ↦
  decidable_of_iff (a.toList = b.toList) ⟨by cases a; cases b; simp, congrArg toList⟩

instance : Membership α (SortedSet α) := ⟨fun s a ↦ a ∈ s.toList⟩

/-- Membership is membership in the list of members. -/
theorem mem_iff {s : SortedSet α} {a : α} : a ∈ s ↔ a ∈ s.toList := Iff.rfl

instance [DecidableEq α] (a : α) (s : SortedSet α) : Decidable (a ∈ s) :=
  inferInstanceAs (Decidable (a ∈ s.toList))

/-- The set without members. -/
def empty : SortedSet α := ⟨[], .nil⟩

instance : EmptyCollection (SortedSet α) := ⟨empty⟩

instance : Inhabited (SortedSet α) := ⟨empty⟩

/-- Whether there is no member. -/
def isEmpty (s : SortedSet α) : Bool := s.toList.isEmpty

/-- Number of members. -/
def size (s : SortedSet α) : Nat := s.toList.length

/-- The members that a test accepts. -/
def filter (keep : α → Bool) (s : SortedSet α) : SortedSet α :=
  ⟨s.toList.filter keep, s.increasing.filter keep⟩

/-- Nothing is a member of the empty set. -/
@[simp] theorem not_mem_empty (a : α) : a ∉ (∅ : SortedSet α) := List.not_mem_nil

/-- Filtering keeps the accepted members. -/
@[simp] theorem mem_filter {keep : α → Bool} {s : SortedSet α} {a : α} :
    a ∈ s.filter keep ↔ a ∈ s ∧ keep a := List.mem_filter

/-- A set is empty when its list is. -/
theorem isEmpty_iff {s : SortedSet α} : s.isEmpty ↔ s = ∅ := by
  cases s
  simp [isEmpty, EmptyCollection.emptyCollection, empty]

/-- The set without a member. -/
def erase [DecidableEq α] (a : α) (s : SortedSet α) : SortedSet α := s.filter (· ≠ a)

/-- The members of the first set that the second lacks. -/
def diff [DecidableEq α] (s t : SortedSet α) : SortedSet α := s.filter (· ∉ t)

/-- Whether every member of the first set is in the second. -/
def isSubset [DecidableEq α] (s t : SortedSet α) : Bool := s.toList.all (· ∈ t)

/-- Erasing removes exactly the one member. -/
@[simp] theorem mem_erase [DecidableEq α] {a b : α} {s : SortedSet α} :
    b ∈ s.erase a ↔ b ∈ s ∧ b ≠ a := by
  simp [erase]

/-- A difference has the members that are in the first set alone. -/
@[simp] theorem mem_diff [DecidableEq α] {a : α} {s t : SortedSet α} :
    a ∈ s.diff t ↔ a ∈ s ∧ a ∉ t := by
  simp [diff]

/-- The subset test tests membership. -/
theorem isSubset_iff [DecidableEq α] {s t : SortedSet α} : s.isSubset t ↔ ∀ a ∈ s, a ∈ t := by
  simp [isSubset, mem_iff]

/-- No member is listed twice. -/
theorem nodup_toList [Std.Asymm (α := α) (· < ·)] (s : SortedSet α) : s.toList.Nodup := by
  refine s.increasing.imp fun {a b} hab heq ↦ ?_
  subst heq
  exact Std.Asymm.asymm _ _ hab hab

/-- Sets with the same members are equal. -/
@[ext] theorem ext [Std.Asymm (α := α) (· < ·)] {s t : SortedSet α} (h : ∀ a, a ∈ s ↔ a ∈ t) :
    s = t := by
  have perm := (List.perm_ext_iff_of_nodup s.nodup_toList t.nodup_toList).mpr h
  obtain ⟨l, hl⟩ := s
  obtain ⟨m, hm⟩ := t
  have : l = m := perm.eq_of_pairwise
    (fun a b _ _ hab hba ↦ (Std.Asymm.asymm a b hab hba).elim) hl hm
  subst this
  rfl

end Views

variable {α : Type u} [LT α] [DecidableLT α] [DecidableEq α]

/-- Puts a member into an increasing list, once. -/
def insertInto (a : α) : List α → List α
  | [] => [a]
  | b :: rest =>
    if a < b then a :: b :: rest else if a = b then b :: rest else b :: insertInto a rest

/-- Inserting adds exactly the new member. -/
theorem mem_insertInto {a b : α} {l : List α} : b ∈ insertInto a l ↔ b = a ∨ b ∈ l := by
  induction l with
  | nil => simp [insertInto]
  | cons c rest ih => rw [insertInto]; grind

section Order

variable [Trans (α := α) (· < ·) (· < ·) (· < ·)] [Std.Trichotomous (α := α) (· < ·)]

/-- Inserting keeps a list increasing. -/
theorem pairwise_insertInto {a : α} {l : List α} (h : l.Pairwise (· < ·)) :
    (insertInto a l).Pairwise (· < ·) := by
  induction l with
  | nil => simp [insertInto]
  | cons b rest ih =>
    rw [List.pairwise_cons] at h
    rw [insertInto]
    split
    · next hab =>
      refine .cons (fun c hc ↦ ?_) (.cons h.1 h.2)
      rcases List.mem_cons.mp hc with rfl | hc
      · exact hab
      · exact Trans.trans hab (h.1 c hc)
    · next hab =>
      split
      · exact .cons h.1 h.2
      · next hne =>
        refine .cons (fun c hc ↦ ?_) (ih h.2)
        rcases mem_insertInto.mp hc with rfl | hc
        · exact Decidable.by_contra fun hba ↦ hne (Std.Trichotomous.trichotomous _ _ hab hba)
        · exact h.1 c hc

/-- The set with a member added. -/
def insert (a : α) (s : SortedSet α) : SortedSet α :=
  ⟨insertInto a s.toList, pairwise_insertInto s.increasing⟩

/-- The members of a list. -/
def ofList (l : List α) : SortedSet α := l.foldl (fun s a ↦ s.insert a) ∅

/-- The members of either set. -/
def union (s t : SortedSet α) : SortedSet α := t.toList.foldl (fun s a ↦ s.insert a) s

/-- Inserting adds exactly the new member. -/
@[simp] theorem mem_insert {a b : α} {s : SortedSet α} : b ∈ s.insert a ↔ b = a ∨ b ∈ s :=
  mem_insertInto

private theorem mem_foldl_insert {b : α} {l : List α} {s : SortedSet α} :
    b ∈ l.foldl (fun s a ↦ s.insert a) s ↔ b ∈ s ∨ b ∈ l := by
  induction l generalizing s with
  | nil => simp
  | cons a rest ih => simp only [List.foldl_cons, ih, mem_insert, List.mem_cons]; grind

/-- A set made of a list has the members of the list. -/
@[simp] theorem mem_ofList {b : α} {l : List α} : b ∈ ofList l ↔ b ∈ l := by
  simp [ofList, mem_foldl_insert]

/-- A union has the members of both sets. -/
@[simp] theorem mem_union {b : α} {s t : SortedSet α} : b ∈ s.union t ↔ b ∈ s ∨ b ∈ t := by
  rw [union, mem_foldl_insert]
  rfl

end Order

end SortedSet

end Diachrony
