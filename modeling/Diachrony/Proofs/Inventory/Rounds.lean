import Diachrony.Proofs.Inventory.Clusters

/-!
# Rounds find the clusters of a text

The rounds of `readWord` on a text without syllables follow the clusters of the text: each round
reads a diacritic or a base, and after a cluster one more segment has been read. No round needs more
than the characters that are left, so the bound on the rounds is never met.
-/

namespace Diachrony.Inventory

variable {inv : Inventory}

namespace Reading

/-- From one state reading goes on to another, however many rounds are allowed beyond the characters
that are left. -/
def Reaches (inv : Inventory) (r r' : Reading) : Prop :=
  ∀ n, r.rest.length ≤ n →
    ∃ m, r'.rest.length ≤ m ∧ rounds inv false n r = rounds inv false m r'

theorem Reaches.refl (r : Reading) : Reaches inv r r := fun n hn ↦ ⟨n, hn, rfl⟩

theorem Reaches.trans {r s t : Reading} (hrs : Reaches inv r s) (hst : Reaches inv s t) :
    Reaches inv r t := by
  intro n hn
  obtain ⟨m, hm, hrs⟩ := hrs n hn
  obtain ⟨k, hk, hst⟩ := hst m hm
  exact ⟨k, hk, hrs.trans hst⟩

/-- A round that reads something goes on to the state after it. -/
theorem reaches_of_round {r r' : Reading} (h : r.round inv false = r')
    (hlt : r'.rest.length < r.rest.length) : Reaches inv r r' := by
  intro n hn
  cases n with
  | zero => omega
  | succ n =>
    have hrest : r.rest.isEmpty = false := by
      rw [List.isEmpty_eq_false_iff, ← List.length_pos_iff]
      omega
    refine ⟨n, by omega, ?_⟩
    rw [rounds, hrest, h]
    rfl

/-- The diacritics that lead wait for the base. -/
theorem reaches_of_leads {ds : List Diacritic} {text left : List Char}
    (h : Leads inv ds text left) (r : Reading) (hr : r.rest = text) :
    Reaches inv r { r with rest := left, pending := r.pending ++ ds } := by
  induction h generalizing r with
  | base =>
    subst hr
    rw [List.append_nil]
    exact .refl r
  | @cons d ds rest left first _ ih =>
    obtain ⟨-, hne, -⟩ := leading?_eq_some first
    have hround : r.round inv false = { r with rest := rest, pending := r.pending ++ [d] } := by
      have hbefore : r.before? inv = some d := by rw [before?, hr]; exact first
      simp only [round, hbefore, hr, List.drop_left, Bool.false_and, Bool.false_eq_true, if_false]
    have hlt := length_lt_of_eq_append hr hne
    have := (reaches_of_round hround hlt).trans (ih _ rfl)
    simpa only [List.append_assoc, List.singleton_append] using this

/-- The diacritics that trail are added to the last segment. -/
theorem reaches_of_trails {ds : List Diacritic} {text left : List Char}
    (hmarks : ∀ d ∈ ds, inv.marksSyllables d = false) (h : Trails inv ds text left) (r : Reading)
    (hr : r.rest = text) (hpending : r.pending = []) {before : List Segment} {last : Segment}
    (hsegments : r.segments = before ++ [last]) :
    Reaches inv r { r with
      rest := left
      segments := before ++
        [⟨last.symbol ++ ds.flatMap Diacritic.text, inv.overlayAll last.matrix ds⟩] } := by
  induction h generalizing r last with
  | done =>
    subst hr
    rw [List.flatMap_nil, List.append_nil, overlayAll, List.foldl_nil, ← hsegments]
    exact .refl r
  | @cons d ds rest left clear first _ ih =>
    obtain ⟨-, hne, -⟩ := trailing?_eq_some first
    obtain ⟨hd, hmarks⟩ := List.forall_mem_cons.mp hmarks
    have hround : r.round inv false = { r with
        rest := rest
        segments := before ++ [⟨last.symbol ++ d.text, inv.overlay last.matrix d.matrix⟩] } := by
      have hbefore : r.before? inv = none := by rw [before?, hr]; exact clear
      have hafter : r.after? inv = some (last, d) := by
        have hd : inv.diacriticAt? .after r.rest = some d := hr ▸ first
        rw [after?, hpending, hsegments, List.getLast?_concat, hd]
        rfl
      rw [round, hbefore, hafter]
      simp only [Bool.false_and, Bool.false_eq_true, if_false, readAfter, hd, hr,
        List.drop_left, hsegments, List.dropLast_concat]
    have hlt := length_lt_of_eq_append hr hne
    have hothers := ih hmarks { r with
        rest := rest
        segments := before ++ [⟨last.symbol ++ d.text, inv.overlay last.matrix d.matrix⟩] }
      rfl hpending rfl
    have := (reaches_of_round hround hlt).trans hothers
    simpa only [List.flatMap_cons, List.append_assoc, overlayAll, List.foldl_cons] using this

/-- A base is read with the diacritics that waited for it. -/
theorem reaches_of_core {r : Reading} {core : Segment} {rest : List Char}
    (hr : r.rest = core.symbol ++ rest) (hcore : inv.coreAt (core.symbol ++ rest) = core)
    (hne : core.symbol ≠ []) (hbefore : r.before? inv = none) (hafter : r.after? inv = none)
    (hmarks : ∀ d ∈ r.pending, inv.marksSyllables d = false) :
    Reaches inv r { r with
      rest := rest
      pending := []
      segments := r.segments ++ [⟨r.pending.flatMap Diacritic.text ++ core.symbol,
        inv.overlay core.matrix (inv.overlayAll ∅ r.pending)⟩] } := by
  refine reaches_of_round ?_ (length_lt_of_eq_append hr hne)
  have hpart : r.pending.partition inv.marksSyllables = ([], r.pending) := by
    rw [List.partition_eq_filter_filter, List.filter_eq_nil_iff.mpr, List.filter_eq_self.mpr]
    · intro d hd
      simp [hmarks d hd]
    · intro d hd
      simp [hmarks d hd]
  rw [round, hbefore, hafter]
  simp only [Bool.false_and, Bool.false_eq_true, if_false, readCore, hr, hcore, hpart,
    List.foldl_nil, List.drop_left, overlayAll]

/-- The clusters of a text become its segments. -/
theorem reaches_of_reads {cs : List Cluster} {text : List Char} (h : Reads inv cs text)
    (hmarks : ∀ c ∈ cs, ∀ d ∈ c.before ++ c.after, inv.marksSyllables d = false) (r : Reading)
    (hr : r.rest = text) (hpending : r.pending = [])
    (hstart : r.segments = [] ∨ (inv.leading? text = none → inv.trailing? text = none)) :
    Reaches inv r { r with
      rest := []
      segments := r.segments ++ cs.map (Cluster.segment inv) } := by
  induction h generalizing r with
  | nil =>
    rw [List.map_nil, List.append_nil, ← hr]
    exact .refl r
  | @cons c cs text rest left before core ne after _ ih =>
    obtain ⟨hown, hmarks⟩ := List.forall_mem_cons.mp hmarks
    obtain ⟨hbefore, hafter⟩ := List.forall_mem_append.mp hown
    have hleads := reaches_of_leads before r hr
    rw [hpending, List.nil_append] at hleads
    have hnone : Reading.after? inv { r with
        rest := c.core.symbol ++ rest, pending := c.before } = none := by
      rw [after?]
      split
      · next hempty =>
        have hbefore : c.before = [] := List.isEmpty_iff.mp hempty
        have htext : text = c.core.symbol ++ rest := by simpa [hbefore] using before.text_eq
        rcases hstart with hstart | hstart
        · rw [hstart]
          rfl
        · have htrail : inv.diacriticAt? .after (c.core.symbol ++ rest) = none :=
            htext ▸ hstart (htext ▸ before.stops)
          rw [htrail]
          cases r.segments.getLast? <;> rfl
      · rfl
    have hcore := reaches_of_core (r := { r with
      rest := c.core.symbol ++ rest, pending := c.before }) rfl core ne before.stops hnone hbefore
    have htrails := reaches_of_trails hafter after { r with
      rest := rest
      pending := []
      segments := r.segments ++ [⟨c.before.flatMap Diacritic.text ++ c.core.symbol,
        inv.overlay c.core.matrix (inv.overlayAll ∅ c.before)⟩] } rfl rfl rfl
    have hothers := htrails.trans (ih hmarks _ rfl rfl (.inr after.stops))
    have := hleads.trans (hcore.trans hothers)
    simpa only [hpending, List.map_cons, List.append_assoc, List.singleton_append,
      Cluster.segment, Cluster.text] using this

end Reading

/-- The word that a text spells has the clusters of the text for its segments. -/
theorem readWord_of_reads {cs : List Cluster} {text : List Char}
    (h : Reads inv cs (Unicode.nfd text))
    (hmarks : ∀ c ∈ cs, ∀ d ∈ c.before ++ c.after, inv.marksSyllables d = false) :
    inv.readWord text false = ⟨cs.map (Cluster.segment inv), none⟩ := by
  have hreach := Reading.reaches_of_reads h hmarks { rest := Unicode.nfd text } rfl rfl (.inl rfl)
  obtain ⟨m, -, hrounds⟩ := hreach _ (Nat.le_refl _)
  have hend := hrounds.trans (Reading.rounds_of_rest_eq_nil rfl m)
  rw [readWord_of_ends (by rw [hend]), hend]
  rfl

/-- A word that is not divided is spelled as its symbols. -/
theorem spell_of_undivided (inv : Inventory) {w : Word} (h : w.syllables = none) :
    inv.spell w = w.segments.flatMap Segment.symbol := by
  have hbreak (i : Nat) : w.isBreak i = false := by
    simp [Word.isBreak, Word.division, h, Division.empty]
  have hmatrix (i : Nat) : w.syllableMatrix i = ∅ := by
    simp [Word.syllableMatrix, Word.division, h, Division.empty]
  have hmarks (placement : Placement) : inv.marksOf placement ∅ = [] := rfl
  simp only [spell, hbreak, hmatrix, hmarks, ite_self, Bool.false_eq_true, if_false,
    List.nil_append, List.append_nil]
  rw [← List.flatMap_map Prod.fst Segment.symbol, List.zipIdx_map_fst]

/-- Reading keeps every character. The symbols of the segments, one after the other, are the text;
none of them is empty, and the word is not divided. The segments are those of the clusters of the
text, and a base that is a declared symbol is the longest one that starts what is left of the text
there. So what is written of the word is the text again, composed. -/
theorem readWord_keeps_characters (inv : Inventory) (text : List Char)
    (hsymbols : ∀ s ∈ inv.symbols, s.text ≠ [])
    (hmarks : ∀ d ∈ inv.diacritics, inv.marksSyllables d = false) :
    (inv.readWord text false).segments.flatMap Segment.symbol = Unicode.nfd text ∧
    (∀ s ∈ (inv.readWord text false).segments, s.symbol ≠ []) ∧
    (inv.readWord text false).isDivided = false ∧
    (∃ clusters, inv.Reads clusters (Unicode.nfd text) ∧
      (inv.readWord text false).segments = clusters.map (Cluster.segment inv) ∧
      ∀ before c after, clusters = before ++ c :: after →
        let rest := c.core.symbol ++ c.after.flatMap Diacritic.text ++ after.flatMap Cluster.text
        inv.IsLongest c.core rest ∨
          c.core.matrix = ∅ ∧ ∀ s ∈ inv.symbols, ¬s.text <+: rest) ∧
    inv.writeWord (inv.readWord text false) = Unicode.nfc (Unicode.nfd text) := by
  obtain ⟨clusters, hreads⟩ := exists_reads hsymbols (Unicode.nfd text)
  rw [readWord_of_reads hreads fun c hc d hd ↦ hmarks d (hreads.subset c hc hd)]
  have hsymbols : (clusters.map (Cluster.segment inv)).flatMap Segment.symbol =
      Unicode.nfd text := by
    rw [List.flatMap_map]
    exact hreads.text_eq
  refine ⟨hsymbols, ?_, rfl, ⟨clusters, hreads, rfl, fun before c after hsplit ↦ ?_⟩, ?_⟩
  · intro s hs
    obtain ⟨c, hc, rfl⟩ := List.mem_map.mp hs
    exact hreads.text_ne_nil c hc
  · exact hreads.core_cases hsplit
  · rw [writeWord, inv.spell_of_undivided rfl]
    exact congrArg Unicode.nfc hsymbols

/-- In `ⁿtsʰãⁿ` with the symbols `t`, `ts` and `a` the base `ts` has a diacritic on either side, the
nasal mark is part of `ã`, and the last `ⁿ` is a base, for nothing follows it. -/
theorem readWord_keeps_characters_ntsha :
    let t : Symbol := ⟨['t'], .ofValues ["stop"]⟩
    let ts : Symbol := ⟨['t', 's'], .ofValues ["affricate"]⟩
    let a : Symbol := ⟨['a'], .ofValues ["vowel"]⟩
    let inv : Inventory := {
      features := [⟨"Manner", ["stop", "affricate", "vowel"], none, .segment⟩,
        ⟨"Onset", ["prenasal"], none, .segment⟩, ⟨"Release", ["aspirated"], none, .segment⟩]
      symbols := [ts, t, a]
      parseOrder := [ts, t, a]
      parseOrder_eq := (List.mergeSort_of_pairwise (by decide)).symm
      diacritics := [⟨['ⁿ'], .ofValues ["prenasal"], .before, false⟩,
        ⟨['ʰ'], .ofValues ["aspirated"], .after, false⟩] }
    let text := ['ⁿ', 't', 's', 'ʰ', 'ã', 'ⁿ']
    (∀ s ∈ inv.symbols, s.text ≠ []) ∧
    (∀ d ∈ inv.diacritics, inv.marksSyllables d = false) ∧
    (inv.readWord text false).segments = [
      ⟨['ⁿ', 't', 's', 'ʰ'], .ofValues ["affricate", "aspirated", "prenasal"]⟩,
      ⟨['a'], .ofValues ["vowel"]⟩, .literal ['\u0303'], .literal ['ⁿ']] ∧
    (inv.readWord text false).segments.flatMap Segment.symbol = Unicode.nfd text ∧
    inv.writeWord (inv.readWord text false) = text := by
  intro t ts a inv text
  have hsymbols : ∀ s ∈ inv.symbols, s.text ≠ [] := by decide
  have hmarks : ∀ d ∈ inv.diacritics, inv.marksSyllables d = false := by decide +kernel
  obtain ⟨hkept, -, -, -, hwritten⟩ := inv.readWord_keeps_characters text hsymbols hmarks
  refine ⟨hsymbols, hmarks, by decide +kernel, hkept, hwritten.trans ?_⟩
  decide +kernel

end Diachrony.Inventory
