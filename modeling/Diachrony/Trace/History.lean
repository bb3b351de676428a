import Diachrony.Trace.Record

/-!
# Trace histories

A history keeps the latest records up to its capacity, the oldest first. Records are numbered from
zero, and numbers are never used again. The numbers of the records that are kept follow one another,
so the number of the first one tells where a record is.
-/

namespace Diachrony.Trace

/-- The latest records. -/
structure History where
  /-- Number of records that are kept. -/
  capacity : Nat
  /-- The records, oldest first. -/
  records : List Record := []
  /-- Number of the next record. -/
  nextId : Nat := 0
deriving Repr

/-- What a history holds, in numbers. -/
structure Stats where
  /-- Number of records. -/
  records : Nat
  /-- Number of records that are kept. -/
  capacity : Nat
  /-- Number of different words. -/
  words : Nat
  /-- Number of records of every kind that occurs. -/
  kinds : List (String × Nat)
deriving Repr

namespace History

/-- Number of records. -/
def size (h : History) : Nat := h.records.length

/-- Whether there are no records. -/
def isEmpty (h : History) : Bool := h.records.isEmpty

/-- Adds a record, drops the oldest ones as long as there are too many, and gives the number of the
new record. -/
def push (h : History) (word : String) (event : Event) : Nat × History :=
  (h.nextId,
    { h with
      records := (h.records ++ [Record.mk h.nextId word event]).drop (h.size + 1 - h.capacity)
      nextId := h.nextId + 1 })

/-- Drops all records. Numbers go on. -/
def clear (h : History) : History := { h with records := [] }

/-- The record with a number, if it is still there: as far behind the first record as its number is
behind that of the first. -/
def get? (h : History) (id : Nat) : Option Record := do
  let first ← h.records.head?
  if id < first.id then none else h.records[id - first.id]?

/-- The last records, oldest first. -/
def recent (h : History) (count : Nat) : List Record := h.records.drop (h.size - count)

/-- The records of a word. -/
def ofWord (h : History) (word : String) : List Record := h.records.filter (·.word == word)

/-- The records of a step. -/
def ofStep (h : History) (step : String) : List Record := h.records.filter (·.event.step == step)

/-- The records of a kind. -/
def ofKind (h : History) (kind : String) : List Record := h.records.filter (·.event.kind == kind)

/-- The history in numbers. -/
def stats (h : History) : Stats where
  records := h.size
  capacity := h.capacity
  words := (h.records.map Record.word).eraseDups.length
  kinds := (h.records.map fun r ↦ r.event.kind).eraseDups.map fun kind ↦
    (kind, (h.ofKind kind).length)

/-- A history never holds more records than its capacity after a record is added. -/
theorem size_push_le (h : History) (word : String) (event : Event) :
    (h.push word event).2.size ≤ h.capacity := by
  simp only [size, push, List.length_drop, List.length_append, List.length_cons, List.length_nil]
  omega

/-- Adding a record uses up its number. -/
@[simp] theorem nextId_push (h : History) (word : String) (event : Event) :
    (h.push word event).2.nextId = h.nextId + 1 := rfl

end History

end Diachrony.Trace
