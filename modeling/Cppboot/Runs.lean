import Mathlib.Logic.Basic

/-!
# Runs of a labelled transition system

A system is a relation between a state, the event that happens in it and the
state afterwards. A run is any finite sequence of such steps. A guard restricts
the events to those admitted in the state in which they happen; a guarded run is
a run of the restricted system, so the condition is checked at every step and
not only at the end.

Two rules carry the safety arguments of a development. `Run.preserves` is the
plain invariant rule. `Run.history` relates a state to the events that led to it,
so that an invariant may mention what happened without the state storing it.
-/

namespace Cppboot.Runs

universe u v
variable {σ : Type u} {ε : Type v}

/-- A finite run: the events in order, from the first state to the last. -/
inductive Run (step : σ → ε → σ → Prop) : σ → List ε → σ → Prop
  | done (state : σ) : Run step state [] state
  | next {before after final : σ} {event : ε} {events : List ε}
      (first : step before event after) (rest : Run step after events final) :
      Run step before (event :: events) final

/-- The system in which an event happens only where the guard admits it. -/
def Guarded (guard : σ → ε → Prop) (step : σ → ε → σ → Prop) (before : σ) (event : ε)
    (after : σ) : Prop :=
  guard before event ∧ step before event after

/-- A step function that may refuse an event, as a relation. -/
def Accepts (step : σ → ε → Option σ) (before : σ) (event : ε) (after : σ) : Prop :=
  step before event = some after

/-- Execute the events one after another; a refused event ends the execution. -/
def execute (step : σ → ε → Option σ) : σ → List ε → Option σ
  | state, [] => some state
  | state, event :: events => do
    let after ← step state event
    execute step after events

/-- An execution that is not refused is a run. -/
theorem execute_run (step : σ → ε → Option σ) (first final : σ) (events : List ε)
    (executed : execute step first events = some final) :
    Run (Accepts step) first events final := by
  induction events generalizing first with
  | nil =>
    have same : first = final := Option.some.inj executed
    exact same ▸ Run.done first
  | cons event events inductionHypothesis =>
    cases taken : step first event with
    | none => simp [execute, taken] at executed
    | some after =>
      have rest : execute step after events = some final := by
        simpa [execute, taken] using executed
      exact Run.next taken (inductionHypothesis after rest)

/-- The step function that also refuses the events the guard does not admit. -/
def restrict (guard : σ → ε → Prop) [∀ state event, Decidable (guard state event)]
    (step : σ → ε → Option σ) (state : σ) (event : ε) : Option σ :=
  if guard state event then step state event else none

/-- An execution of the restricted step function is a guarded run. -/
theorem restrict_run (guard : σ → ε → Prop) [∀ state event, Decidable (guard state event)]
    (step : σ → ε → Option σ) (first final : σ) (events : List ε)
    (executed : execute (restrict guard step) first events = some final) :
    Run (Guarded guard (Accepts step)) first events final := by
  have run := execute_run (restrict guard step) first final events executed
  clear executed
  induction run with
  | done state => exact Run.done state
  | next taken _ inductionHypothesis =>
    refine Run.next ?_ inductionHypothesis
    simp only [Accepts, restrict] at taken
    split at taken
    next admitted => exact ⟨admitted, taken⟩
    next => cases taken

/-- A run under a guard is a run under every guard that admits as much of its events. -/
theorem Run.admittedAmong {guard weaker : σ → ε → Prop} {step : σ → ε → σ → Prop}
    {first final : σ} {events : List ε}
    (admits : ∀ state, ∀ event ∈ events, guard state event → weaker state event)
    (run : Run (Guarded guard step) first events final) :
    Run (Guarded weaker step) first events final := by
  induction run with
  | done state => exact Run.done state
  | next taken _ inductionHypothesis =>
    refine Run.next ⟨admits _ _ List.mem_cons_self taken.1, taken.2⟩ (inductionHypothesis ?_)
    exact fun state event later => admits state event (List.mem_cons_of_mem _ later)

/-- A run under a guard is a run under every guard that admits as much. -/
theorem Run.admitted {guard weaker : σ → ε → Prop} {step : σ → ε → σ → Prop} {first final : σ}
    {events : List ε} (admits : ∀ state event, guard state event → weaker state event)
    (run : Run (Guarded guard step) first events final) :
    Run (Guarded weaker step) first events final :=
  run.admittedAmong fun state event _ => admits state event

/-- A run continued by another is a run over the joined events. -/
theorem Run.append {step : σ → ε → σ → Prop} {first middle final : σ} {events more : List ε}
    (run : Run step first events middle) (rest : Run step middle more final) :
    Run step first (events ++ more) final := by
  induction run with
  | done _ => exact rest
  | next taken _ inductionHypothesis => exact Run.next taken (inductionHypothesis rest)

/-- The invariant rule with a history, started after some earlier events. -/
theorem Run.continues {step : σ → ε → σ → Prop} (invariant : List ε → σ → Prop)
    (preserved : ∀ (history : List ε) (before after : σ) (event : ε), invariant history before →
      step before event after → invariant (history ++ [event]) after)
    {first final : σ} {events : List ε} (run : Run step first events final)
    (history : List ε) (initially : invariant history first) :
    invariant (history ++ events) final := by
  induction run generalizing history with
  | done _ => simpa using initially
  | next taken _ inductionHypothesis =>
    simpa using inductionHypothesis _ (preserved _ _ _ _ initially taken)

/-- The invariant rule with a history. The invariant relates a state to the
events that led to it; every step adds its event, and so the last state of a run
is related to the events of that run. -/
theorem Run.history {step : σ → ε → σ → Prop} (invariant : List ε → σ → Prop)
    (preserved : ∀ (history : List ε) (before after : σ) (event : ε), invariant history before →
      step before event after → invariant (history ++ [event]) after)
    {first final : σ} {events : List ε} (run : Run step first events final)
    (initially : invariant [] first) : invariant events final :=
  run.continues invariant preserved [] initially

/-- The plain invariant rule: what every step preserves, every run preserves. -/
theorem Run.preserves {step : σ → ε → σ → Prop} (invariant : σ → Prop)
    (preserved : ∀ (before after : σ) (event : ε), invariant before →
      step before event after → invariant after)
    {first final : σ} {events : List ε} (run : Run step first events final)
    (initially : invariant first) : invariant final :=
  run.history (fun _ => invariant) (fun _ => preserved) initially

/-- Two systems that take the same steps from the states of an invariant have the same
runs. The invariant need only be kept by the steps that are taken. -/
theorem Run.steps_agree {step other : σ → ε → σ → Prop} (invariant : σ → Prop)
    (agree : ∀ (before after : σ) (event : ε), invariant before →
      (step before event after ↔ other before event after))
    (preserved : ∀ (before after : σ) (event : ε), invariant before →
      step before event after → invariant after)
    {first final : σ} {events : List ε} (initially : invariant first) :
    Run step first events final ↔ Run other first events final := by
  constructor
  · intro run
    induction run with
    | done state => exact Run.done state
    | next taken _ inductionHypothesis =>
      have kept := preserved _ _ _ initially taken
      exact Run.next ((agree _ _ _ initially).mp taken) (inductionHypothesis kept)
  · intro run
    induction run with
    | done state => exact Run.done state
    | next taken _ inductionHypothesis =>
      have same := (agree _ _ _ initially).mpr taken
      exact Run.next same (inductionHypothesis (preserved _ _ _ initially same))

/-- Two guards that agree on the steps taken in the states of an invariant admit
the same runs. The invariant need only be kept by the steps that are admitted. -/
theorem Run.guards_agree {guard other : σ → ε → Prop} {step : σ → ε → σ → Prop}
    (invariant : σ → Prop)
    (agree : ∀ (before after : σ) (event : ε), invariant before → step before event after →
      (guard before event ↔ other before event))
    (preserved : ∀ (before after : σ) (event : ε), invariant before → guard before event →
      step before event after → invariant after)
    {first final : σ} {events : List ε} (initially : invariant first) :
    Run (Guarded guard step) first events final ↔ Run (Guarded other step) first events final := by
  refine Run.steps_agree invariant (fun before after event kept => ?_)
    (fun before after event kept taken => preserved _ _ _ kept taken.1 taken.2) initially
  exact and_congr_left fun taken => agree _ _ _ kept taken

end Cppboot.Runs
