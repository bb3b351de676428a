import Mathlib.Data.List.Chain
import Diachrony.Unicode.Normal

/-!
# Canonical decomposition is stable

Text in canonical decomposition is its own decomposition. The letters that a character stands for
have a smaller rank than the character has, and no rank is above three, so four steps reach letters
without a mapping. The marks between two bases are then in order, and ordering them again moves
none.
-/

namespace Diachrony.Unicode

/-! ### Ranks -/

/-- The number whose bits are set at the code points of ranges, given by start and length. -/
def maskOf (ranges : List (Nat × Nat)) : Nat :=
  ranges.foldr (fun range mask ↦ (1 <<< range.2 - 1) <<< range.1 ||| mask) 0

/-- The code points of the runs of a table. -/
def runMask {α : Type} (runs : List (Nat × List α)) : Nat :=
  maskOf (runs.map fun run ↦ (run.1, run.2.length))

/-- The code points that have a mapping. -/
def mapped : Nat :=
  runMask composites ||| runMask singletons ||| runMask excluded |||
    maskOf [(hangulBase, leadCount * vowelCount * trailCount)]

/-- Ranges with the code points whose mapping leads to another mapping. What else lies in them is
no letter of a mapping that ends in one step. -/
def stacked : Nat :=
  maskOf [(469, 13), (492, 16), (554, 4), (560, 2), (912, 1), (944, 1), (3275, 1), (3549, 1),
    (7688, 40), (7736, 28), (7772, 2), (7780, 24), (7844, 20), (7870, 10), (7888, 34), (7938, 6),
    (7946, 6), (7954, 4), (7962, 4), (7970, 6), (7978, 6), (7986, 6), (7994, 6), (8002, 4),
    (8010, 4), (8018, 6), (8027, 5), (8034, 6), (8042, 6), (8049, 3), (8053, 7), (8061, 56),
    (8119, 5), (8130, 3), (8135, 46), (8183, 5), (8491, 1), (64300, 2), (90406, 3), (93546, 1),
    (119136, 5), (119229, 4)]

/-- Ranges with the code points whose mapping leads through two others. -/
def piled : Nat := maskOf [(8066, 46), (8147, 17)]

/-- A bound on the number of mappings that lead from a code point to letters without a mapping. -/
def rank (code : Nat) : Nat :=
  bif mapped.testBit code then
    bif piled.testBit code then 3 else bif stacked.testBit code then 2 else 1
  else 0

/-- Whether every letter that a table gives a code point has a smaller rank. -/
def falls {α : Type} (letters : α → List Nat) (runs : List (Nat × List α)) : Bool :=
  runs.all fun run ↦ run.2.zipIdx.all fun (value, i) ↦
    (letters value).all fun a ↦ (rank a).blt (rank (run.1 + i))

private theorem falls_composites : falls (fun p ↦ [p.1, p.2]) composites := by decide +kernel

private theorem falls_singletons : falls (fun a ↦ [a]) singletons := by decide +kernel

private theorem falls_excluded : falls (fun p ↦ [p.1, p.2]) excluded := by decide +kernel

private theorem rank_zero : rank 0 = 0 := by decide +kernel

private theorem rank_letter : ∀ i < 0xC3, rank (leadBase + i) = 0 := by decide +kernel

/-- A bit of a mask says that some range holds the code point. -/
theorem testBit_maskOf {ranges : List (Nat × Nat)} {code : Nat} :
    (maskOf ranges).testBit code ↔ ∃ range ∈ ranges, range.1 ≤ code ∧ code < range.1 + range.2 := by
  induction ranges with
  | nil => simp [maskOf]
  | cons range rest ih =>
    have hhead : ((1 <<< range.2 - 1) <<< range.1).testBit code ↔
        range.1 ≤ code ∧ code < range.1 + range.2 := by
      rw [Nat.testBit_shiftLeft, Nat.one_shiftLeft, Nat.testBit_two_pow_sub_one]
      simp only [Bool.and_eq_true, decide_eq_true_eq]
      omega
    have hcons : maskOf (range :: rest) = (1 <<< range.2 - 1) <<< range.1 ||| maskOf rest := rfl
    rw [hcons, Nat.testBit_or, Bool.or_eq_true, hhead, ih, List.exists_mem_cons_iff]

/-- No rank is above three. -/
theorem rank_le (code : Nat) : rank code ≤ 3 := by
  rw [rank]
  cases mapped.testBit code <;> cases piled.testBit code <;> cases stacked.testBit code <;> decide

/-- A code point that has a mapping has a rank. -/
theorem rank_pos {code : Nat} (h : mapped.testBit code) : 0 < rank code := by
  rw [rank, h]
  cases piled.testBit code <;> cases stacked.testBit code <;> decide

/-- The letters that a table gives a code point have a smaller rank. -/
theorem rank_lt_of_valueAt? {α : Type} {letters : α → List Nat} {runs : List (Nat × List α)}
    (hfalls : falls letters runs) {code : Nat} {value : α} (h : valueAt? runs code = some value) :
    ∀ a ∈ letters value, rank a < rank code := by
  intro a ha
  obtain ⟨run, hrun, hle, hget⟩ := exists_run_of_valueAt? h
  have hvalue : (value, code - run.1) ∈ run.2.zipIdx := List.mem_zipIdx_iff_getElem?.mpr hget
  have hlt := List.all_eq_true.mp
    (List.all_eq_true.mp (List.all_eq_true.mp hfalls run hrun) _ hvalue) a ha
  rw [Nat.add_sub_cancel' hle] at hlt
  exact Nat.blt_eq.mp hlt

/-- The letters of a Hangul syllable lie among the conjoining letters. -/
theorem mem_hangulLetters? {code : Nat} {letters : List Nat}
    (h : hangulLetters? code = some letters) : ∀ a ∈ letters, ∃ i < 0xC3, a = leadBase + i := by
  rw [hangulLetters?] at h
  split at h
  · next hcode =>
    have hindex : code - hangulBase < 19 * 21 * 28 := by
      have : leadCount * vowelCount * trailCount = 19 * 21 * 28 := rfl
      omega
    generalize code - hangulBase = index at h hindex
    have hparts : letters ⊆
        [0x1100 + index / (21 * 28), 0x1161 + index % (21 * 28) / 28, 0x11A7 + index % 28] := by
      cases h
      split
      · exact List.cons_subset_cons _ (List.cons_subset_cons _ (List.nil_subset _))
      · exact List.Subset.refl _
    intro a ha
    have ha := hparts ha
    have hbase : leadBase = 0x1100 := rfl
    simp only [List.mem_cons, List.not_mem_nil, or_false] at ha
    exact ⟨a - leadBase, by omega, by omega⟩
  · cases h

/-- The letters of a Hangul syllable have a smaller rank. -/
theorem rank_lt_of_hangulLetters? {code : Nat} {letters : List Nat}
    (h : hangulLetters? code = some letters) : ∀ a ∈ letters, rank a < rank code := by
  intro a ha
  have hrange : hangulBase ≤ code ∧ code < hangulBase + leadCount * vowelCount * trailCount := by
    rw [hangulLetters?] at h
    split at h
    · assumption
    · cases h
  have hmapped : mapped.testBit code := by
    have hmask : (maskOf [(hangulBase, leadCount * vowelCount * trailCount)]).testBit code :=
      testBit_maskOf.mpr ⟨_, List.mem_singleton_self _, hrange⟩
    rw [mapped, Nat.testBit_or, hmask, Bool.or_true]
  obtain ⟨i, hi, rfl⟩ := mem_hangulLetters? h a ha
  rw [rank_letter i hi]
  exact rank_pos hmapped

/-- The character of a letter has the rank of the letter at most. -/
theorem rank_toNat_ofNat_le (a : Nat) : rank (Char.ofNat a).toNat ≤ rank a := by
  unfold Char.ofNat
  by_cases h : a.isValidChar
  · rw [dif_pos h]
    exact Nat.le_refl _
  · rw [dif_neg h]
    change rank 0 ≤ rank a
    rw [rank_zero]
    exact Nat.zero_le _

/-- A character stands for itself, or for letters of smaller rank. -/
theorem expand_cases (c : Char) :
    expand c = [c] ∨ ∀ d ∈ expand c, rank d.toNat < rank c.toNat := by
  have letters {l : List Nat} (h : ∀ a ∈ l, rank a < rank c.toNat) :
      ∀ d ∈ l.map Char.ofNat, rank d.toNat < rank c.toNat := by
    intro d hd
    obtain ⟨a, ha, rfl⟩ := List.mem_map.mp hd
    exact Nat.lt_of_le_of_lt (rank_toNat_ofNat_le a) (h a ha)
  unfold expand
  extract_lets code
  split
  · exact .inl rfl
  split
  · next h => exact .inr (letters (rank_lt_of_valueAt? falls_composites h))
  split
  · next h => exact .inr (letters (rank_lt_of_valueAt? falls_singletons h))
  split
  · next h => exact .inr (letters (rank_lt_of_valueAt? falls_excluded h))
  split
  · next h => exact .inr (letters (rank_lt_of_hangulLetters? h))
  · exact .inl rfl

/-! ### Decomposition -/

/-- Whether a number of steps reaches characters that stand for themselves. -/
def SettlesIn : Nat → Char → Prop
  | 0, c => expand c = [c]
  | n + 1, c => ∀ d ∈ expand c, SettlesIn n d

theorem settlesIn_of_expand_eq {c : Char} (h : expand c = [c]) (n : Nat) : SettlesIn n c := by
  induction n with
  | zero => exact h
  | succ n ih =>
    rw [SettlesIn, h]
    exact List.forall_mem_singleton.mpr ih

/-- More steps than the rank of a character reach characters that stand for themselves. -/
theorem settlesIn_of_rank_lt {n : Nat} {c : Char} (h : rank c.toNat < n) : SettlesIn n c := by
  induction n generalizing c with
  | zero => exact absurd h (Nat.not_lt_zero _)
  | succ n ih =>
    rcases expand_cases c with hc | hlt
    · exact settlesIn_of_expand_eq hc _
    · exact fun d hd ↦ ih (Nat.lt_of_lt_of_le (hlt d hd) (Nat.le_of_lt_succ h))

/-- The letters of a decomposition stand for themselves. -/
theorem expand_of_mem_decompose {c d : Char} (h : d ∈ decompose c) : expand d = [d] := by
  have step {n : Nat} {cs : List Char} (hcs : ∀ c ∈ cs, SettlesIn (n + 1) c) :
      ∀ d ∈ cs.flatMap expand, SettlesIn n d := by
    intro d hd
    obtain ⟨c, hc, hd⟩ := List.mem_flatMap.mp hd
    exact hcs c hc d hd
  have hc : SettlesIn 4 c := settlesIn_of_rank_lt (Nat.lt_succ_of_le (rank_le _))
  exact step (step (step hc)) d h

theorem decompose_of_expand_eq {c : Char} (h : expand c = [c]) : decompose c = [c] := by
  simp [decompose, h]

/-! ### The order of marks -/

/-- Whether no mark stands behind one of a greater class. -/
def IsOrdered (cs : List Char) : Prop :=
  cs.IsChain fun c d ↦ combiningClass d = 0 ∨ combiningClass c ≤ combiningClass d

theorem mem_place {c d : Char} {cs : List Char} : d ∈ place c cs ↔ d = c ∨ d ∈ cs := by
  induction cs with
  | nil => simp [place]
  | cons e rest ih => rw [place]; split <;> simp [ih, or_left_comm]

theorem mem_foldr_place {d : Char} {cs : List Char} : d ∈ cs.foldr place [] ↔ d ∈ cs := by
  induction cs with
  | nil => rfl
  | cons c rest ih => rw [List.foldr_cons, mem_place, ih, List.mem_cons]

/-- A character put in front of ordered text finds its place. -/
theorem IsOrdered.place {cs : List Char} (h : IsOrdered cs) (c : Char) :
    IsOrdered (place c cs) := by
  induction cs with
  | nil => exact List.isChain_singleton c
  | cons d rest ih =>
    rw [Unicode.place]
    split
    · next hpass =>
      have hrest := ih h.tail
      cases rest with
      | nil => exact List.isChain_cons_cons.mpr ⟨by omega, List.isChain_singleton c⟩
      | cons e rest =>
        have hde := (List.isChain_cons_cons.mp h).1
        rw [Unicode.place] at hrest ⊢
        split
        · next hnext =>
          rw [if_pos hnext] at hrest
          exact List.isChain_cons_cons.mpr ⟨hde, hrest⟩
        · next hnext =>
          rw [if_neg hnext] at hrest
          exact List.isChain_cons_cons.mpr ⟨by omega, hrest⟩
    · next hstay => exact List.isChain_cons_cons.mpr ⟨by omega, h⟩

theorem isOrdered_foldr_place (cs : List Char) : IsOrdered (cs.foldr place []) := by
  induction cs with
  | nil => exact List.isChain_nil
  | cons c rest ih => exact ih.place c

/-- Ordered text stays as it is. -/
theorem IsOrdered.foldr_place {cs : List Char} (h : IsOrdered cs) :
    cs.foldr Unicode.place [] = cs := by
  induction cs with
  | nil => rfl
  | cons c rest ih =>
    rw [List.foldr_cons, ih h.tail]
    cases rest with
    | nil => rfl
    | cons d rest =>
      have := (List.isChain_cons_cons.mp h).1
      rw [Unicode.place, if_neg (by omega)]

/-- Text in canonical decomposition is its own decomposition. -/
theorem nfd_nfd (cs : List Char) : nfd (nfd cs) = nfd cs := by
  have hsettled : ∀ c ∈ nfd cs, decompose c = [c] := by
    intro c hc
    obtain ⟨b, -, hb⟩ := List.mem_flatMap.mp (mem_foldr_place.mp hc)
    exact decompose_of_expand_eq (expand_of_mem_decompose hb)
  have hflat : (nfd cs).flatMap decompose = nfd cs := by
    rw [List.flatMap_congr hsettled, List.flatMap_singleton']
  rw [nfd, hflat]
  exact (isOrdered_foldr_place _).foldr_place

end Diachrony.Unicode
