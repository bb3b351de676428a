/-!
# Tables over code points

A character property is kept as a list of runs in ascending order. A run of values names its first
code point and lists the values of that code point and of those after it; a range names its first
and last code point.
-/

namespace Diachrony.Unicode

/-- The value that a table of runs gives to a code point. -/
def valueAt? (runs : List (Nat × List α)) (code : Nat) : Option α :=
  match runs with
  | [] => none
  | (first, values) :: rest =>
    if code < first then none
    else match values[code - first]? with
      | some value => some value
      | none => valueAt? rest code

/-- Whether some range holds a code point. -/
def inRanges (ranges : List (Nat × Nat)) (code : Nat) : Bool :=
  match ranges with
  | [] => false
  | (first, last) :: rest =>
    if code < first then false else code ≤ last || inRanges rest code

/-- A value found in a table stands in one of its runs, at the distance of its code point from the
first of the run. -/
theorem exists_run_of_valueAt? {runs : List (Nat × List α)} {code : Nat} {value : α}
    (h : valueAt? runs code = some value) :
    ∃ run ∈ runs, run.1 ≤ code ∧ run.2[code - run.1]? = some value := by
  induction runs with
  | nil => simp [valueAt?] at h
  | cons run rest ih =>
    obtain ⟨first, values⟩ := run
    rw [valueAt?] at h
    split at h
    · simp at h
    · split at h
      · next found hf =>
        exact ⟨_, List.mem_cons_self, by omega, by simpa [← h] using hf⟩
      · obtain ⟨run, hrun, hle, hget⟩ := ih h
        exact ⟨run, List.mem_cons_of_mem _ hrun, hle, hget⟩

end Diachrony.Unicode
