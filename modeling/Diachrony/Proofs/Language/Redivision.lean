import Mathlib.Data.List.Basic
import Diachrony.Proofs.Language.Division
import Diachrony.Proofs.Pattern.Syllables

/-!
# Dividing a word again

Where no pattern of a syllable looks at syllables, a word is searched for divisions as if it had
none. So a divided word is divided at the same places again, and every syllable is given the matrix
that it has: that of its pattern, or the one that the word has at its start.
-/

namespace Diachrony

namespace Phrase

variable {f : Word → Except Fault Word} {p q : Phrase}

/-- The words of a phrase that is changed word by word are what its words are changed to. -/
theorem forall₂_of_mapWordsM {related : Word → Word → Prop} (h : p.mapWordsM f = .ok q)
    (hrelated : ∀ w ∈ p.words, ∀ v, f w = .ok v → related w v) :
    List.Forall₂ related p.words q.words := by
  have hall : Ensures (List.Forall₂ related p.words) (fun _ ↦ True) (p.words.mapM f) :=
    Ensures.mapM fun w hw ↦ .intro (hrelated w hw) fun _ _ ↦ trivial
  rw [mapWordsM] at h
  cases hvs : p.words.mapM f with
  | error fault =>
    rw [hvs] at h
    cases h
  | ok vs =>
    rw [hvs] at h
    cases h
    have hvs := hall.of_ok hvs
    have hne : vs ≠ [] := by
      intro hnil
      rw [hnil, List.forall₂_nil_right_iff] at hvs
      exact p.words_ne_nil hvs
    rw [words_ofWords hne]
    exact hvs

/-- A phrase whose words are changed to themselves is changed to itself. -/
theorem mapWordsM_eq_self (h : q.words.mapM f = .ok q.words) : q.mapWordsM f = .ok q := by
  rw [mapWordsM, h]
  exact congrArg Except.ok (eq_of_words_eq (words_ofWords q.words_ne_nil))

end Phrase

namespace Syllabifier

/-- Whether no pattern looks at syllables. -/
def ignoresSyllables (s : Syllabifier) : Bool :=
  s.patterns.all fun shape ↦ shape.pattern.ignoresSyllables

section Search

variable {s : Syllabifier} (hignores : s.ignoresSyllables)
include hignores

/-- The divisions of a phrase without syllables are those of the phrase. -/
theorem divisions_undivided (inv : Inventory) (scan : Scan) (length bound start : Nat) :
    s.divisions inv scan.undivided length bound start =
      s.divisions inv scan length bound start := by
  induction bound generalizing start with
  | zero => rw [divisions, divisions]
  | succ bound ih =>
    rw [divisions, divisions]
    split
    · rfl
    · apply congrFun
      apply List.foldr_ext
      intro shape hshape others
      have hsame : shape.pattern.candidates inv scan.undivided ⟨0, start⟩ .empty =
          (shape.pattern.candidates inv scan ⟨0, start⟩ .empty).map Match.undivided :=
        Pattern.candidates_undivided (List.all_eq_true.mp hignores shape hshape) scan _ .empty
      simp only [hsame, Candidates.bind_map, ih]
      rfl

/-- Words with the same segments have the same divisions. -/
theorem divisions_eq_of_segments (inv : Inventory) {v w : Word} (h : v.segments = w.segments)
    (length bound start : Nat) :
    s.divisions inv (.of (.ofWord v)) length bound start =
      s.divisions inv (.of (.ofWord w)) length bound start := by
  have hsame : (Phrase.ofWord v).undivided = (Phrase.ofWord w).undivided :=
    Phrase.eq_of_words_eq (congrArg (· :: []) (Word.undivided_eq h))
  rw [← divisions_undivided hignores, Scan.undivided_of, hsame, ← Scan.undivided_of,
    divisions_undivided hignores]

end Search

/-- The first division that is found has the starts of the syllables of the word. -/
theorem areStarts_of_first? {inv : Inventory} {s : Syllabifier} {w : Word} {budget : Budget}
    {starts : List SyllableStart}
    (h : (s.divisions inv (.of (.ofWord w)) w.length w.length 0).first? budget =
      .ok (some starts)) : AreStarts w starts := by
  have hfirst := Candidates.head?_offers_of_first? h
  obtain ⟨picks, hpreferred⟩ := exists_isPreferred (Nat.zero_le _) (Nat.le_refl w.length) hfirst
  exact hpreferred.divides.areStarts

variable {lang : Language} {s : Syllabifier} {w v : Word}

/-- Whether a word that comes of dividing another has its segments and is divided for good. -/
structure IsSettled (lang : Language) (s : Syllabifier) (w v : Word) : Prop where
  /-- Dividing it again changes nothing. -/
  again : s.syllabify lang v = .ok v
  /-- It is normalized. -/
  normalized : v.normalized = v
  /-- The segments are those that were divided. -/
  segments : v.segments = w.segments

/-- Words that are divided by patterns which look at no syllables are divided for good. -/
theorem isSettled_of_patterns (hignores : s.ignoresSyllables) (hpatterns : s.isExplicit = false)
    (h : s.syllabify lang w = .ok v) : IsSettled lang s w v := by
  rw [syllabify_of_patterns lang s w hpatterns] at h
  obtain ⟨found, hfound, hfinish⟩ := exists_of_bind_eq_ok h
  cases found with
  | none => cases hfinish
  | some starts =>
    cases hfinish
    have hstarts := areStarts_of_first? hfound
    constructor
    · rw [syllabify_of_patterns lang s _ hpatterns,
        divisions_eq_of_segments hignores _ (segments_applyDivision w starts)]
      apply bind_eq_ok hfound
      exact congrArg Except.ok hstarts.applyDivision_applyDivision
    · exact hstarts.normalized_applyDivision
    · rfl

/-- Normalized words that keep their breaks are divided for good. -/
theorem isSettled_of_isExplicit (hexplicit : s.isExplicit) (hw : w.normalized = w)
    (h : s.syllabify lang w = .ok v) : IsSettled lang s w v := by
  have hkeeps : ∀ u : Word,
      s.syllabify lang u = .ok (if u.isDivided then u else u.divided .empty) := fun u ↦ by
      rw [syllabify, if_pos hexplicit]
      rfl
  rw [hkeeps w] at h
  cases h
  by_cases hdivided : w.isDivided
  · rw [if_pos hdivided]
    exact ⟨by rw [hkeeps w, if_pos hdivided], hw, rfl⟩
  · rw [if_neg hdivided]
    exact ⟨hkeeps _, rfl, rfl⟩

/-- Words are divided for good, by patterns that look at no syllables or by the breaks that they
have. -/
theorem isSettled_of_syllabify (hignores : s.ignoresSyllables)
    (hw : s.isExplicit → w.normalized = w) (h : s.syllabify lang w = .ok v) :
    IsSettled lang s w v := by
  by_cases hexplicit : s.isExplicit
  · exact isSettled_of_isExplicit hexplicit (hw hexplicit) h
  · exact isSettled_of_patterns hignores (Bool.not_eq_true _ ▸ hexplicit) h

/-- Divided words are divided alike again, all of them in turn. -/
private theorem mapM_of_isSettled {ws vs : List Word}
    (h : List.Forall₂ (IsSettled lang s) ws vs) :
    vs.mapM (s.syllabify lang) = .ok vs ∧ vs.map Word.normalized = vs ∧
      vs.map Word.segments = ws.map Word.segments := by
  induction h with
  | nil => exact ⟨rfl, rfl, rfl⟩
  | cons hfirst _ ih =>
    obtain ⟨hagain, hnormalized, hsegments⟩ := ih
    refine ⟨?_, ?_, ?_⟩
    · rw [List.mapM_cons, hfirst.again, hagain]
      rfl
    · rw [List.map_cons, hfirst.normalized, hnormalized]
    · rw [List.map_cons, List.map_cons, hfirst.segments, hsegments]

/-- Dividing again changes nothing where no pattern looks at syllables. The word that comes of
dividing a word has the same segments, it is normalized, and it is divided into itself; and so it is
for the words of a phrase. Where words keep the breaks that they have this is asked of normalized
ones. -/
theorem syllabify_syllabify (lang : Language) (s : Syllabifier) (hignores : s.ignoresSyllables) :
    (∀ w v, (s.isExplicit → w.normalized = w) → s.syllabify lang w = .ok v →
      s.syllabify lang v = .ok v ∧ v.normalized = v ∧ v.segments = w.segments) ∧
    ∀ p q : Phrase, (s.isExplicit → p.normalized = p) →
      p.mapWordsM (s.syllabify lang) = .ok q →
      q.mapWordsM (s.syllabify lang) = .ok q ∧ q.normalized = q ∧
        q.words.map Word.segments = p.words.map Word.segments := by
  constructor
  · intro w v hw h
    have hsettled := isSettled_of_syllabify hignores hw h
    exact ⟨hsettled.again, hsettled.normalized, hsettled.segments⟩
  · intro p q hp h
    have hwords : ∀ w ∈ p.words, s.isExplicit → w.normalized = w := by
      intro w hw hexplicit
      have hmap : p.words.map Word.normalized = p.words.map id := by
        rw [List.map_id]
        exact congrArg Phrase.words (hp hexplicit)
      exact List.map_inj_left.mp hmap w hw
    have hsettled : List.Forall₂ (IsSettled lang s) p.words q.words :=
      Phrase.forall₂_of_mapWordsM h fun w hw _ hv ↦
        isSettled_of_syllabify hignores (hwords w hw) hv
    obtain ⟨hagain, hnormalized, hsegments⟩ := mapM_of_isSettled hsettled
    exact ⟨Phrase.mapWordsM_eq_self hagain, Phrase.eq_of_words_eq hnormalized, hsegments⟩

/-- In `tatta` with a stressed first syllable and a break where none can be, `ta` and `tat` give the
second syllable a matrix and keep that of the first. -/
theorem syllabify_syllabify_tatta :
    let t := Segment.literal ['t']
    let a := Segment.literal ['a']
    let s : Syllabifier := ⟨[⟨.text ⟨[t, a], none⟩, some (.ofValues ["light"])⟩,
      ⟨.text ⟨[t, a, t], none⟩, none⟩]⟩
    let stressed := Matrix.ofValues ["stressed"]
    let w : Word := ⟨[t, a, t, t, a], some (.ofBreaks [1] (.insert 0 stressed ∅))⟩
    let v := w.divided (.ofBreaks [3] (.insert 0 stressed (.insert 3 (.ofValues ["light"]) ∅)))
    s.ignoresSyllables ∧ s.syllabify ⟨.empty, none, {}⟩ w = .ok v ∧
      s.syllabify ⟨.empty, none, {}⟩ v = .ok v ∧ v.normalized = v := by
  intro t a s stressed w v
  have hv : s.syllabify ⟨.empty, none, {}⟩ w = .ok v := eq_ok_of_toOption (by decide +kernel)
  have hagain := (syllabify_syllabify ⟨.empty, none, {}⟩ s rfl).1 w v nofun hv
  exact ⟨rfl, hv, hagain.1, hagain.2.1⟩

end Syllabifier

end Diachrony
