/-
Runs of a partial step function under a condition on the steps.
-/
import Mathlib.Logic.Basic

namespace Runs

universe u v

variable {σ : Type u} {α : Type v}

/-- The states reached from `init` by steps that return and that meet `ok`. -/
inductive Reach (step : σ → α → Option σ) (ok : σ → α → Prop) (init : σ) :
    σ → Prop
  | start : Reach step ok init init
  | next {before after : σ} {action : α} (hbefore : Reach step ok init before)
      (hok : ok before action) (hstep : step before action = some after) :
      Reach step ok init after

variable {step : σ → α → Option σ} {ok ok' : σ → α → Prop} {init s : σ}

/-- The invariant rule: what holds at the start and is kept by every admitted
step holds in every reached state. -/
theorem Reach.invariant {inv : σ → Prop} (hreach : Reach step ok init s)
    (hinit : inv init)
    (hkeep : ∀ before action after, inv before → ok before action →
      step before action = some after → inv after) : inv s := by
  induction hreach with
  | start => exact hinit
  | next _ hok hstep ih => exact hkeep _ _ _ ih hok hstep

/-- Take the steps of a list one after the other. -/
def run (step : σ → α → Option σ) : σ → List α → Option σ
  | s, [] => some s
  | s, action :: rest => (step s action).bind fun s' => run step s' rest

/-- One more step. -/
theorem run_snoc (s : σ) (actions : List α) (action : α) :
    run step s (actions ++ [action]) = (run step s actions).bind fun s' => step s' action := by
  induction actions generalizing s with
  | nil =>
      change (step s action).bind some = step s action
      cases step s action with
      | none => rfl
      | some s' => rfl
  | cons first rest ih =>
      change (step s first).bind _ = ((step s first).bind _).bind _
      rw [Option.bind_assoc]
      exact congrArg _ (funext fun s' => ih s')

/-- Every step of the list is admitted in the state where it is taken. -/
def RunOk (step : σ → α → Option σ) (ok : σ → α → Prop) : σ → List α → Prop
  | _, [] => True
  | s, action :: rest =>
      ok s action ∧ ∀ s', step s action = some s' → RunOk step ok s' rest

instance RunOk.decidable [∀ s a, Decidable (ok s a)] :
    ∀ s actions, Decidable (RunOk step ok s actions)
  | _, [] => .isTrue trivial
  | s, action :: rest =>
      match hstep : step s action with
      | none => decidable_of_iff (ok s action)
          ⟨fun hok => ⟨hok, fun s' hs' => by simp [hstep] at hs'⟩, fun h => h.1⟩
      | some s' =>
          have := RunOk.decidable s' rest
          decidable_of_iff (ok s action ∧ RunOk step ok s' rest)
            ⟨fun h => ⟨h.1, fun s'' hs'' => by
              rw [hstep] at hs''
              exact Option.some.inj hs'' ▸ h.2⟩, fun h => ⟨h.1, h.2 s' hstep⟩⟩

theorem Reach.of_run {before after : σ} {actions : List α}
    (hreach : Reach step ok init before) (hok : RunOk step ok before actions)
    (hrun : run step before actions = some after) : Reach step ok init after := by
  induction actions generalizing before with
  | nil =>
      have heq : before = after := Option.some.inj hrun
      rwa [← heq]
  | cons action rest ih =>
      obtain ⟨middle, hstep, hrest⟩ := Option.bind_eq_some_iff.mp hrun
      exact ih (.next hreach hok.1 hstep) (hok.2 middle hstep) hrest

theorem Reach.mono (hreach : Reach step ok init s)
    (himp : ∀ before action, ok before action → ok' before action) :
    Reach step ok' init s := by
  induction hreach with
  | start => exact .start
  | next _ hok hstep ih => exact .next ih (himp _ _ hok) hstep

end Runs
