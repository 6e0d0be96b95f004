import Mathlib.Data.List.Basic

/-!
# Guarded machines and their runs

A machine offers every action to every state.  The action is taken, is not enabled, or runs into an
assertion of the modelled code.  One executable step function serves both the replay of a concrete
run and the induction over all runs.  A run may be restricted to steps that meet a condition on the
state before the step and the action, so that "every run whose steps all meet the condition" is a
notion of its own.
-/

namespace LevelDB.Library

/-- What happens when an action is offered to a state. -/
inductive Outcome (σ : Type*) where
  | next (state : σ)
  | blocked
  | abort
  deriving DecidableEq

namespace Outcome

variable {σ τ : Type*}

/-- The state after an action that was taken. -/
def toOption : Outcome σ → Option σ
  | next state => some state
  | blocked => none
  | abort => none

@[simp]
theorem toOption_eq_some {outcome : Outcome σ} {state : σ} :
    outcome.toOption = some state ↔ outcome = next state := by
  cases outcome <;> simp [toOption]

/-- An operation that can fail an assertion, as an outcome. -/
def ofOption (result : Option σ) : Outcome σ :=
  match result with
  | some state => next state
  | none => abort

@[simp]
theorem ofOption_eq_next {result : Option σ} {state : σ} :
    ofOption result = next state ↔ result = some state := by
  cases result <;> simp [ofOption]

@[simp]
theorem ofOption_eq_abort {result : Option σ} : ofOption result = abort ↔ result = none := by
  cases result <;> simp [ofOption]

/-- An action with a guard: it is blocked while the guard is false. -/
def guarded (guard : Prop) [Decidable guard] (outcome : Outcome σ) : Outcome σ :=
  if guard then outcome else blocked

@[simp]
theorem guarded_eq_next {guard : Prop} [Decidable guard] {outcome : Outcome σ} {state : σ} :
    guarded guard outcome = next state ↔ guard ∧ outcome = next state := by
  unfold guarded
  split <;> simp_all

@[simp]
theorem guarded_eq_abort {guard : Prop} [Decidable guard] {outcome : Outcome σ} :
    guarded guard outcome = abort ↔ guard ∧ outcome = abort := by
  unfold guarded
  split <;> simp_all

def map (f : σ → τ) : Outcome σ → Outcome τ
  | next state => next (f state)
  | blocked => blocked
  | abort => abort

@[simp]
theorem map_eq_next {f : σ → τ} {outcome : Outcome σ} {state : τ} :
    outcome.map f = next state ↔ ∃ s, outcome = next s ∧ f s = state := by
  cases outcome <;> simp [map]

end Outcome

/-- Initial states and the outcome of every action. -/
structure Machine (σ α : Type*) where
  init : σ → Prop
  step : σ → α → Outcome σ

namespace Machine

variable {σ α : Type*} (M : Machine σ α)

/-- `M.Run ok actions state`: a run from an initial state takes `actions`, each of them in a state
where `ok` holds of the state and the action, and ends in `state`. -/
inductive Run (ok : σ → α → Prop) : List α → σ → Prop
  | init {state : σ} : M.init state → Run ok [] state
  | step {actions : List α} {state state' : σ} {action : α} :
      Run ok actions state → ok state action → M.step state action = .next state' →
      Run ok (actions ++ [action]) state'

def ReachableWhen (ok : σ → α → Prop) (state : σ) : Prop := ∃ actions, M.Run ok actions state

def Reachable (state : σ) : Prop := M.ReachableWhen (fun _ _ ↦ True) state

variable {M}

/-- What holds initially and is kept by every step that meets the condition holds after every run
of such steps.  The property may look at the actions taken so far. -/
theorem Run.invariant {ok : σ → α → Prop} {P : List α → σ → Prop}
    (hinit : ∀ state, M.init state → P [] state)
    (hstep : ∀ actions state action state', P actions state → ok state action →
      M.step state action = .next state' → P (actions ++ [action]) state')
    {actions : List α} {state : σ} (hrun : M.Run ok actions state) : P actions state := by
  induction hrun with
  | init h => exact hinit _ h
  | step _ hok hnext ih => exact hstep _ _ _ _ ih hok hnext

theorem ReachableWhen.invariant {ok : σ → α → Prop} {P : σ → Prop} (hinit : ∀ state, M.init state → P state)
    (hstep : ∀ state action state', P state → ok state action →
      M.step state action = .next state' → P state')
    {state : σ} (hreach : M.ReachableWhen ok state) : P state := by
  obtain ⟨actions, hrun⟩ := hreach
  exact Run.invariant (P := fun _ state ↦ P state) hinit
    (fun _ state action state' ↦ hstep state action state') hrun

theorem Run.mono {ok ok' : σ → α → Prop} (himp : ∀ state action, ok state action → ok' state action)
    {actions : List α} {state : σ} (hrun : M.Run ok actions state) : M.Run ok' actions state := by
  induction hrun with
  | init h => exact Run.init h
  | step _ hok hnext ih => exact Run.step ih (himp _ _ hok) hnext

theorem ReachableWhen.reachable {ok : σ → α → Prop} {state : σ} (h : M.ReachableWhen ok state) :
    M.Reachable state := by
  obtain ⟨actions, hrun⟩ := h
  exact ⟨actions, hrun.mono fun _ _ _ ↦ trivial⟩

/-- Replay a list of actions whose condition is decidable. -/
def exec (M : Machine σ α) (ok : σ → α → Bool) : σ → List α → Option σ
  | state, [] => some state
  | state, action :: rest =>
    if ok state action then (M.step state action).toOption.bind fun state' ↦ exec M ok state' rest
    else none

/-- A replay that gets through continues a run. -/
theorem Run.append_exec {ok : σ → α → Bool} {taken rest : List α} {state final : σ}
    (hrun : M.Run (fun state action ↦ ok state action = true) taken state)
    (hexec : M.exec ok state rest = some final) :
    M.Run (fun state action ↦ ok state action = true) (taken ++ rest) final := by
  induction rest generalizing taken state with
  | nil =>
    simp only [exec, Option.some.injEq] at hexec
    subst hexec
    simpa using hrun
  | cons action rest ih =>
    simp only [exec] at hexec
    split at hexec
    · rename_i hok
      obtain ⟨state', hnext, hrest⟩ := Option.bind_eq_some_iff.mp hexec
      have hstep := Run.step hrun hok (Outcome.toOption_eq_some.mp hnext)
      simpa using ih hstep hrest
    · cases hexec

theorem Run.of_exec (M : Machine σ α) (ok : σ → α → Bool) (start : σ) (hinit : M.init start)
    (actions : List α) (P : σ → Prop) [DecidablePred P]
    (hexec : (M.exec ok start actions).any (fun state ↦ decide (P state)) = true) :
    ∃ state, M.Run (fun state action ↦ ok state action = true) actions state ∧ P state := by
  cases hstate : M.exec ok start actions with
  | none => simp [hstate] at hexec
  | some state =>
    rw [hstate, Option.any_some] at hexec
    exact ⟨state, Run.append_exec (Run.init hinit) hstate, of_decide_eq_true hexec⟩

end Machine

end LevelDB.Library
