import Mathlib.Data.List.DropRight
import Diachrony.Trace.History

/-!
# What histories keep

Whatever is done to a history, it holds the latest records that were added since its records were
last dropped, as many as there are and its capacity allows. Their numbers follow one another up to
the last one that was given, and no number is given twice. This is what makes it right to find a
record by how far its number is from the first one.
-/

namespace Diachrony.Trace

/-- Something that is done to a history. -/
inductive Operation where
  /-- A record is added. -/
  | push (word : String) (event : Event)
  /-- All records are dropped. -/
  | clear
deriving DecidableEq, Repr

namespace Operation

/-- What an operation adds to a history. -/
def added? : Operation → Option (String × Event)
  | push word event => some (word, event)
  | clear => none

/-- What operations add to a history, one after the other. -/
def added (ops : List Operation) : List (String × Event) := ops.filterMap added?

/-- The operations after the last one that drops all records. -/
def sinceClear (ops : List Operation) : List Operation := ops.rtakeWhile (· != clear)

/-- What is added since the records were dropped was added. -/
theorem length_added_sinceClear_le (ops : List Operation) :
    (added (sinceClear ops)).length ≤ (added ops).length :=
  ((ops.rtakeWhile_suffix _).sublist.filterMap added?).length_le

end Operation

/-- The records of what was added, numbered one after the other. -/
def numbered (first : Nat) : List (String × Event) → List Record
  | [] => []
  | (word, event) :: rest => ⟨first, word, event⟩ :: numbered (first + 1) rest

/-- The numbers follow one another. -/
theorem map_id_numbered (first : Nat) (l : List (String × Event)) :
    (numbered first l).map Record.id = List.range' first l.length := by
  induction l generalizing first with
  | nil => rfl
  | cons added rest ih => simp [numbered, ih, List.range'_succ]

/-- There are as many records as there is to record. -/
@[simp] theorem length_numbered (first : Nat) (l : List (String × Event)) :
    (numbered first l).length = l.length := by
  simpa using congrArg List.length (map_id_numbered first l)

/-- The last record has the last number. -/
theorem numbered_concat (first : Nat) (l : List (String × Event)) (word : String) (event : Event) :
    numbered first (l ++ [(word, event)]) =
      numbered first l ++ [⟨first + l.length, word, event⟩] := by
  induction l generalizing first with
  | nil => rfl
  | cons added rest ih =>
    simp only [List.cons_append, numbered, ih, List.length_cons]
    rw [Nat.add_right_comm, Nat.add_assoc]

namespace History

/-- Does something to a history, and lists the number that is given to the new record. -/
def perform (h : History) : Operation → List Nat × History
  | .push word event =>
    let (id, next) := h.push word event
    ([id], next)
  | .clear => ([], h.clear)

/-- Does one thing after the other, and lists the numbers that are given to the new records. -/
def run (h : History) : List Operation → List Nat × History
  | [] => ([], h)
  | op :: rest =>
    let (ids, next) := h.perform op
    let (more, last) := next.run rest
    (ids ++ more, last)

section Finding

variable {h : History} {start : Nat}
  (hids : h.records.map Record.id = List.range' start h.size)
include hids

/-- Where numbers follow one another, the place of a record tells its number. -/
theorem id_of_getElem? {i : Nat} {r : Record} (hr : h.records[i]? = some r) : r.id = start + i := by
  have hid := congrArg (·[i]?) hids
  rw [List.getElem?_map, hr] at hid
  simpa using (List.getElem?_eq_some_iff.mp hid.symm).2.symm

/-- Where numbers follow one another, a number finds the record that has it. -/
theorem get?_eq_some_iff_of_range' (id : Nat) (r : Record) :
    h.get? id = some r ↔ r ∈ h.records ∧ r.id = id := by
  cases hrecords : h.records with
  | nil => simp [get?, hrecords]
  | cons first rest =>
    have hfirst : first.id = start := id_of_getElem? hids (i := 0) (by simp [hrecords])
    have hget : h.get? id = if id < start then none else h.records[id - start]? := by
      simp [get?, hrecords, hfirst]
    rw [hget, ← hrecords]
    constructor
    · intro hr
      split at hr
      · cases hr
      · have hid := id_of_getElem? hids hr
        exact ⟨List.mem_of_getElem? hr, by omega⟩
    · rintro ⟨hmem, rfl⟩
      obtain ⟨i, hi⟩ := List.getElem?_of_mem hmem
      have hid := id_of_getElem? hids hi
      rw [if_neg (by omega), hid, Nat.add_sub_cancel_left, hi]

end Finding

/-- What a history is after operations on a new one with some capacity. -/
structure Reflects (capacity : Nat) (done : List Operation) (h : History) : Prop where
  /-- The capacity stays. -/
  capacity_eq : h.capacity = capacity
  /-- Every record that was added has used up a number. -/
  nextId : h.nextId = (Operation.added done).length
  /-- The latest records since the last were dropped are kept. -/
  records : h.records = (numbered 0 (Operation.added done)).rtake
    (min capacity (Operation.added (Operation.sinceClear done)).length)

namespace Reflects

variable {capacity : Nat} {done : List Operation} {h : History} (hh : h.Reflects capacity done)
include hh

/-- The number of records is what the capacity allows of those since the last were dropped. -/
theorem size_eq :
    h.size = min capacity (Operation.added (Operation.sinceClear done)).length := by
  have hle := Operation.length_added_sinceClear_le done
  simp only [size, hh.records, List.rtake, List.length_drop, length_numbered]
  omega

/-- The numbers of the records follow one another up to the last one that was given. -/
theorem map_id_records :
    h.records.map Record.id = List.range' ((Operation.added done).length - h.size) h.size := by
  have hle := Operation.length_added_sinceClear_le done
  rw [hh.records, List.rtake, List.map_drop, map_id_numbered, length_numbered, ← hh.size_eq,
    List.drop_range', Nat.zero_add, Nat.mul_one]
  congr 1
  rw [hh.size_eq]
  omega

/-- Adding a record to the history keeps it among the latest ones. -/
theorem push (word : String) (event : Event) :
    (h.push word event).2.Reflects capacity (done ++ [.push word event]) := by
  have hadded : Operation.added (done ++ [.push word event]) =
      Operation.added done ++ [(word, event)] := by
    simp [Operation.added, Operation.added?]
  have hsince : Operation.sinceClear (done ++ [.push word event]) =
      Operation.sinceClear done ++ [.push word event] :=
    List.rtakeWhile_concat_pos _ _ _ (by simp)
  have hlatest : Operation.added (Operation.sinceClear (done ++ [.push word event])) =
      Operation.added (Operation.sinceClear done) ++ [(word, event)] := by
    simp [hsince, Operation.added, Operation.added?]
  have hle := Operation.length_added_sinceClear_le done
  refine ⟨hh.capacity_eq, by simp [hh.nextId, hadded], ?_⟩
  -- The new record behind the old ones is the end of all records, of which some are dropped.
  have hrecords : h.records ++ [⟨h.nextId, word, event⟩] =
      (numbered 0 (Operation.added (done ++ [.push word event]))).rtake (h.size + 1) := by
    rw [hadded, numbered_concat, List.rtake_concat_succ, hh.size_eq, ← hh.records, Nat.zero_add,
      ← hh.nextId]
  simp only [History.push, hrecords, List.rtake, List.drop_drop]
  congr 1
  simp only [hlatest, hadded, hh.capacity_eq, hh.size_eq, length_numbered, List.length_append,
    List.length_singleton]
  omega

/-- Dropping all records leaves none since then. -/
theorem clear : h.clear.Reflects capacity (done ++ [.clear]) := by
  refine ⟨hh.capacity_eq, ?_, ?_⟩
  · simp [History.clear, hh.nextId, Operation.added, Operation.added?]
  · have hsince : Operation.sinceClear (done ++ [.clear]) = [] :=
      List.rtakeWhile_concat_neg _ _ _ (by simp)
    simp [History.clear, hsince, Operation.added, List.rtake]

/-- An operation keeps what a history is, and gives the next number if it adds a record. -/
theorem perform (op : Operation) :
    (h.perform op).2.Reflects capacity (done ++ [op]) ∧
      (h.perform op).1 =
        List.range' (Operation.added done).length (Operation.added [op]).length := by
  cases op with
  | push word event =>
    refine ⟨hh.push word event, ?_⟩
    rw [← hh.nextId]
    rfl
  | clear => exact ⟨hh.clear, rfl⟩

/-- Operations keep what a history is, and give the next numbers one after the other. -/
theorem run (ops : List Operation) :
    (h.run ops).2.Reflects capacity (done ++ ops) ∧
      (h.run ops).1 =
        List.range' (Operation.added done).length (Operation.added ops).length := by
  induction ops generalizing h done with
  | nil =>
    rw [List.append_nil]
    exact ⟨hh, rfl⟩
  | cons op rest ih =>
    obtain ⟨hnext, hids⟩ := hh.perform op
    obtain ⟨hlast, hmore⟩ := ih hnext
    refine ⟨by simpa [History.run] using hlast, ?_⟩
    have hadded : Operation.added (op :: rest) = Operation.added [op] ++ Operation.added rest :=
      List.filterMap_append (l := [op])
    have hdone : Operation.added (done ++ [op]) = Operation.added done ++ Operation.added [op] :=
      List.filterMap_append
    simp only [History.run, hids, hmore, hadded, hdone, List.length_append]
    exact List.range'_append_1

end Reflects

/-- A new history is one to which nothing has been done. -/
theorem reflects_new (capacity : Nat) : Reflects capacity [] { capacity } := by
  refine ⟨rfl, rfl, ?_⟩
  simp [Operation.added, numbered, List.rtake]

/-- After any operations on a new history it holds the last records of all that were added, as many
as its capacity allows of those added since records were last dropped. Their numbers follow one
another up to the last one that was given, all numbers that were given are different, whether or not
records were dropped in between, and a number finds the record that has it, if that is still there
and only then. -/
theorem run_keeps_latest (capacity : Nat) (ops : List Operation) :
    let (ids, h) := run { capacity } ops
    let all := numbered 0 (Operation.added ops)
    let latest := (Operation.added (Operation.sinceClear ops)).length
    h.records = all.rtake (min capacity latest) ∧
      h.records.length = min capacity latest ∧
      h.records.map Record.id = List.range' (ids.length - h.records.length) h.records.length ∧
      (∀ r, h.records.getLast? = some r → ids.getLast? = some r.id) ∧
      ids = all.map Record.id ∧ ids.Nodup ∧
      ∀ id, (∀ r, h.get? id = some r ↔ r ∈ h.records ∧ r.id = id) ∧
        ((h.get? id).isSome ↔ ∃ r ∈ h.records, r.id = id) := by
  obtain ⟨hh, hids⟩ := (reflects_new capacity).run ops
  have hids : (run { capacity } ops).1 = List.range' 0 (Operation.added ops).length := hids
  rw [List.nil_append] at hh
  have hget := get?_eq_some_iff_of_range' hh.map_id_records
  have hcount : (run { capacity } ops).1.length = (Operation.added ops).length := by
    rw [hids, List.length_range']
  refine ⟨hh.records, hh.size_eq, ?_, fun r hr ↦ ?_, ?_, ?_, fun id ↦ ⟨hget id, ?_⟩⟩
  · rw [hcount]
    exact hh.map_id_records
  · have hlast := congrArg List.getLast? hh.map_id_records
    have hle := Operation.length_added_sinceClear_le ops
    have hsize := hh.size_eq
    rw [List.getLast?_map, hr] at hlast
    simp only [hids, List.getLast?_range'] at hlast ⊢
    rw [Option.map_some] at hlast
    split at hlast
    · cases hlast
    · rw [if_neg (by omega), hlast]
      congr 1
      omega
  · rw [hids, map_id_numbered]
  · rw [hids]
    exact List.nodup_range'
  · rw [Option.isSome_iff_exists]
    exact exists_congr (hget id)

end History

end Diachrony.Trace
