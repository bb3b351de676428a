import Diachrony.Pipeline.Course

/-!
# Events on the course of a word

The events of a word tell its course without a gap. Every change starts with what the change before
it has written, records change nothing, and a word that fails does so with the form that it has come
to. This takes that all languages on the way write alike, so that the form after one move is the
form before the next.
-/

namespace Diachrony

namespace Trace

/-- Whether events lead from one written form to another. Each change starts with the form so far
and writes another one, and records leave the form as it is. -/
inductive Leads : String → List Event → String → Prop
  /-- Without events the form stays. -/
  | nil (form : String) : Leads form [] form
  /-- A step changes the form. -/
  | applied {step before after form : String} {rest : List Event} (hne : before ≠ after)
      (h : Leads after rest form) : Leads before (.applied step before after :: rest) form
  /-- The word is recorded. -/
  | romanized {stage text first form : String} {rest : List Event} (h : Leads first rest form) :
      Leads first (.romanized stage text :: rest) form

/-- Whether a fault ends the course of a word: a rule has failed on the form to which the word had
come, by mistake or as a crash. -/
inductive Ends (given rule current : String) : Fault → Prop
  /-- The rule fails by mistake. -/
  | notApplicable (source : Cause) (setting : Option Setting) :
      Ends given rule current (.of (.ruleNotApplicable rule given current source setting))
  /-- The rule crashes. -/
  | crashed (message : String) :
      Ends given rule current (.of (.ruleCrashed rule given current message))

/-- Whether events tell how a word went from its first form to its result. A word that fails has one
event of that more, which is the last one. -/
inductive Tells (given first : String) : List Event → Except Fault String → Prop
  /-- The word comes to its last form. -/
  | form {events : List Event} {form : String} (h : Leads first events form) :
      Tells given first events (.ok form)
  /-- The word comes to a form on which a rule fails. -/
  | failed {events : List Event} {rule current : String} {fault : Fault}
      (h : Leads first events current) (hends : Ends given rule current fault) :
      Tells given first (events ++ [.failed rule fault.message]) (.error fault)

namespace Tells

variable {given first : String} {events : List Event} {result : Except Fault String}

/-- A change in front of events that tell the rest of a course. -/
theorem applied {before : String} (hne : before ≠ first) (h : Tells given first events result)
    (step : String) : Tells given before (.applied step before first :: events) result := by
  cases h with
  | form h => exact .form (.applied hne h)
  | failed h hends => exact .failed (.applied hne h) hends

/-- A record in front of events that tell the rest of a course. -/
theorem romanized (h : Tells given first events result) (stage text : String) :
    Tells given first (.romanized stage text :: events) result := by
  cases h with
  | form h => exact .form (.romanized h)
  | failed h hends => exact .failed (.romanized h) hends

end Tells

end Trace

/-- The fault of a move ends the course of the word with the form before the move. -/
theorem Move.tells_blame (move : Move) (given : String) (p : Phrase) (fault : Fault) (log : Log) :
    ∃ events, (log.noteFault (move.blame given p fault)).events = log.events ++ events ∧
      Trace.Tells given (move.language.write p) events (.error (move.blame given p fault)) := by
  rw [blame]
  split
  · exact ⟨_, rfl, .failed (.nil _) (.notApplicable _ _)⟩
  · exact ⟨_, rfl, .failed (.nil _) (.crashed _)⟩

/-- Moves in languages of one inventory add events that tell the course of the word. -/
theorem runMoves_tells {inv : Inventory} {given : String} {moves : List Move}
    (h : ∀ move ∈ moves, move.language.inventory = inv) (p : Phrase) (log : Log) :
    ∃ events, (runMoves given moves p log).2.events = log.events ++ events ∧
      Trace.Tells given (inv.write p) events ((runMoves given moves p log).1.map inv.write) := by
  induction moves generalizing p log with
  | nil => exact ⟨[], (List.append_nil _).symm, .form (.nil _)⟩
  | cons move rest ih =>
    rw [List.forall_mem_cons] at h
    have hwrite (q : Phrase) : move.language.write q = inv.write q := by
      rw [Language.write, h.1]
    rw [runMoves]
    cases hresult : move.result p with
    | error fault =>
      rw [← hwrite]
      exact move.tells_blame given p fault log
    | ok q =>
      have hstep : ∃ events, (runMoves given rest q (log.noteStep move.name
            (move.language.write p) (move.language.write q))).2.events = log.events ++ events ∧
          Trace.Tells given (inv.write p) events ((runMoves given rest q (log.noteStep move.name
            (move.language.write p) (move.language.write q))).1.map inv.write) := by
        obtain ⟨events, hevents, htells⟩ := ih h.2 q (log.noteStep move.name
          (move.language.write p) (move.language.write q))
        simp only [hwrite] at hevents htells ⊢
        by_cases hsame : inv.write p = inv.write q
        · rw [Log.noteStep, if_pos hsame] at hevents
          rw [Log.noteStep, if_pos hsame] at htells ⊢
          rw [hsame]
          exact ⟨events, hevents, htells⟩
        · rw [hevents, Log.noteStep, if_neg hsame]
          rw [Log.noteStep, if_neg hsame] at htells
          exact ⟨_, List.append_assoc _ _ _, htells.applied hsame move.name⟩
      cases move with
      | apply _ _ | divide _ => exact hstep
      | record language rule romanize =>
        obtain ⟨events, hevents, htells⟩ := ih h.2 p (log.noteSnapshot rule.name (language.write q))
        refine ⟨.romanized rule.name (language.write q) :: events, ?_, htells.romanized _ _⟩
        exact hevents.trans (List.append_assoc _ _ _)

/-- Whether a step keeps to an inventory. -/
def Step.KeepsTo (inv : Inventory) : Step → Prop
  | syllables language => language.inventory = inv
  | cleanup _ | cleanupOff _ | romanizer _ => True

/-- Whether all languages of a pipeline have one inventory. -/
structure Pipeline.KeepsTo (p : Pipeline) (inv : Inventory) : Prop where
  /-- The language in which words are read. -/
  language : p.language.inventory = inv
  /-- The languages of the stages. -/
  stages : ∀ stage ∈ p.stages, ∀ step ∈ stage.anchored, step.KeepsTo inv

namespace Regime

variable {inv : Inventory} {r : Regime}

/-- Steps that keep to an inventory leave a language of it in force. -/
theorem inventory_afterSteps {steps : List Step} (hr : r.language.inventory = inv)
    (h : ∀ step ∈ steps, step.KeepsTo inv) : (r.afterSteps steps).language.inventory = inv := by
  induction steps generalizing r with
  | nil => exact hr
  | cons step rest ih =>
    rw [List.forall_mem_cons] at h
    refine ih ?_ h.2
    cases step with
    | syllables language => exact h.1
    | cleanup _ | cleanupOff _ | romanizer _ => exact hr

/-- The moves of steps that keep to an inventory are in languages of it. -/
theorem inventory_stepsMoves (romanize : Bool) {steps : List Step}
    (hr : r.language.inventory = inv) (h : ∀ step ∈ steps, step.KeepsTo inv) :
    ∀ move ∈ r.stepsMoves romanize steps, move.language.inventory = inv := by
  induction steps generalizing r with
  | nil => exact List.forall_mem_nil _
  | cons step rest ih =>
    rw [List.forall_mem_cons] at h
    have hafter : (r.afterSteps [step]).language.inventory = inv :=
      inventory_afterSteps hr (List.forall_mem_singleton.mpr h.1)
    refine List.forall_mem_append.mpr ⟨fun move hmove ↦ ?_, ih hafter h.2⟩
    cases step with
    | syllables language =>
      rw [stepMoves] at hmove
      split at hmove
      · cases List.mem_singleton.mp hmove
        exact h.1
      · cases hmove
    | cleanup rule =>
      rw [stepMoves] at hmove
      split at hmove
      · cases List.mem_singleton.mp hmove
        exact hr
      · cases hmove
    | cleanupOff name => cases hmove
    | romanizer rule =>
      cases List.mem_singleton.mp hmove
      exact hr

/-- The moves of a stage that keeps to an inventory are in languages of it. -/
theorem inventory_stageMoves (romanize : Bool) {stage : Stage} (hr : r.language.inventory = inv)
    (h : ∀ step ∈ stage.anchored, step.KeepsTo inv) :
    ∀ move ∈ r.stageMoves romanize stage, move.language.inventory = inv := by
  refine List.forall_mem_append.mpr ⟨inventory_stepsMoves romanize hr h, fun move hmove ↦ ?_⟩
  obtain ⟨rule, -, rfl⟩ := List.mem_map.mp hmove
  exact inventory_afterSteps hr h

end Regime

namespace Pipeline

variable {p : Pipeline} {inv : Inventory}

/-- The plan from a stage on keeps to an inventory if the stages do. -/
theorem inventory_planFrom (span : Span) (romanize : Bool) {r : Regime} {stages : List Stage}
    (hr : r.language.inventory = inv)
    (h : ∀ stage ∈ stages, ∀ step ∈ stage.anchored, step.KeepsTo inv) (index : Nat) :
    let plan := p.planFrom span romanize r index stages
    (∀ move ∈ plan.moves, move.language.inventory = inv) ∧ plan.language.inventory = inv := by
  induction stages generalizing r index with
  | nil =>
    refine ⟨fun move hmove ↦ ?_, hr⟩
    rw [planFrom] at hmove
    split at hmove
    · obtain ⟨rule, -, rfl⟩ := List.mem_map.mp hmove
      exact hr
    · cases hmove
  | cons stage rest ih =>
    rw [List.forall_mem_cons] at h
    rw [planFrom]
    split
    · refine ⟨fun move hmove ↦ ?_, hr⟩
      obtain ⟨rule, -, rfl⟩ := List.mem_map.mp hmove
      exact hr
    · let reached : Regime := { r with started := r.started || span.start == some index }
      have hreached : reached.language.inventory = inv := hr
      have hrest := ih (Regime.inventory_afterSteps hreached h.1) h.2 (index + 1)
      refine ⟨List.forall_mem_append.mpr ⟨?_, hrest.1⟩, hrest.2⟩
      exact Regime.inventory_stageMoves romanize hreached h.1

/-- A pipeline that keeps to an inventory only makes moves in languages of it. -/
theorem KeepsTo.plan (h : p.KeepsTo inv) (span : Span) (romanize : Bool) :
    (∀ move ∈ (p.plan span romanize).moves, move.language.inventory = inv) ∧
      (p.plan span romanize).language.inventory = inv := by
  have hrest := inventory_planFrom (p := p) span romanize
    (r := ⟨p.language, [], span.start.isNone⟩) h.language h.stages 0
  refine ⟨List.forall_mem_append.mpr ⟨fun move hmove ↦ ?_, hrest.1⟩, hrest.2⟩
  split at hmove
  · obtain ⟨rule, -, rfl⟩ := List.mem_map.mp hmove
    exact h.language
  · cases hmove

/-- The events of a word tell its course, wherever a run starts and stops. -/
theorem KeepsTo.tells (h : p.KeepsTo inv) (span : Span) (romanize : Bool) (word : String) :
    Trace.Tells word (p.language.write (p.language.read word))
      ((p.plan span romanize).run p.language word).2.events
      ((p.plan span romanize).run p.language word).1 := by
  obtain ⟨hmoves, hlast⟩ := h.plan span romanize
  obtain ⟨events, hevents, htells⟩ := runMoves_tells hmoves (p.language.read word) {}
  have hwrite : (p.plan span romanize).language.write = inv.write := by
    funext q
    rw [Language.write, hlast]
  rw [List.nil_append] at hevents
  rw [Language.write, h.language, Plan.run, hwrite]
  exact hevents ▸ htells

end Pipeline

end Diachrony
