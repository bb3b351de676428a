import Diachrony.Fault

/-!
# Candidates in order

A search offers its candidates one after the other, the preferred one first. Between them it meets
choice points, which are counted against a bound, and it may end with a fault. `Candidates` is that
course of events, unfolded on demand: whoever looks for a candidate walks along it, counts the
choice points, and stops where it likes.
-/

namespace Diachrony

universe u v

/-- The course of a search. -/
inductive Candidates (α : Type u) where
  /-- Nothing more is offered. -/
  | done
  /-- The search fails. -/
  | fail (fault : Fault)
  /-- A choice point. -/
  | choice (rest : Unit → Candidates α)
  /-- A candidate, and what follows if it is turned down. -/
  | offer (candidate : α) (rest : Unit → Candidates α)

namespace Candidates

variable {α : Type u} {β : Type v}

/-- A single candidate. -/
def pure (a : α) : Candidates α := offer a fun _ ↦ done

/-- The candidates of one search and then those of another. -/
def append (first second : Unit → Candidates α) : Candidates α :=
  go (first ())
where
  /-- What is left of the first search, and then the second. -/
  go : Candidates α → Candidates α
    | done => second ()
    | fail fault => fail fault
    | choice rest => choice fun _ ↦ go (rest ())
    | offer a rest => offer a fun _ ↦ go (rest ())

/-- Follows every candidate with the search that it leads to. -/
def bind (cs : Candidates α) (f : α → Candidates β) : Candidates β :=
  match cs with
  | done => done
  | fail fault => fail fault
  | choice rest => choice fun _ ↦ bind (rest ()) f
  | offer a rest => append (fun _ ↦ f a) fun _ ↦ bind (rest ()) f

/-- Every candidate changed by a function. -/
def map (f : α → β) (cs : Candidates α) : Candidates β :=
  match cs with
  | done => done
  | fail fault => fail fault
  | choice rest => choice fun _ ↦ map f (rest ())
  | offer a rest => offer (f a) fun _ ↦ map f (rest ())

/-- Looks for the first accepted candidate and goes on with it, or with none. The choice points on
the way count. -/
def find (accept : α → Bool) (cs : Candidates α) (next : Option α → Candidates β) :
    Candidates β :=
  match cs with
  | done => next none
  | fail fault => fail fault
  | choice rest => choice fun _ ↦ find accept (rest ()) next
  | offer a rest => if accept a then next (some a) else find accept (rest ()) next

end Candidates

/-- The bound on the choice points of a search and the text that names the search. -/
structure Budget where
  /-- Number of choice points allowed. -/
  limit : Nat
  /-- What is searched for. -/
  label : String

/-- The fault of a search that met more choice points than allowed. -/
def Budget.exceeded (budget : Budget) : Fault :=
  .of (.limitExceeded (.tooManyOptions budget.limit budget.label))

namespace Candidates

variable {α : Type u}

/-- The first candidate, after a number of choice points. -/
def firstAfter (budget : Budget) (used : Nat) : Candidates α → Except Fault (Option α)
  | done => .ok none
  | fail fault => .error fault
  | choice rest =>
    if budget.limit < used + 1 then .error budget.exceeded
    else firstAfter budget (used + 1) (rest ())
  | offer a _ => .ok (some a)

/-- The first candidate of a search. -/
def first? (budget : Budget) (cs : Candidates α) : Except Fault (Option α) :=
  cs.firstAfter budget 0

/-- Everything that a search offers, the choice points it met, and the fault that ended it. -/
structure Course (α : Type u) where
  /-- The candidates in the order in which they are offered. -/
  offered : List α
  /-- Number of choice points. -/
  options : Nat
  /-- The fault that ended the search. -/
  fault : Option Fault

/-- The whole course of a search after a number of choice points. -/
def courseAfter (budget : Budget) (used : Nat) : Candidates α → Course α
  | done => ⟨[], used, none⟩
  | fail fault => ⟨[], used, some fault⟩
  | choice rest =>
    if budget.limit < used + 1 then ⟨[], used + 1, some budget.exceeded⟩
    else courseAfter budget (used + 1) (rest ())
  | offer a rest =>
    let course := courseAfter budget used (rest ())
    { course with offered := a :: course.offered }

/-- The whole course of a search. -/
def course (budget : Budget) (cs : Candidates α) : Course α := cs.courseAfter budget 0

end Candidates

end Diachrony
