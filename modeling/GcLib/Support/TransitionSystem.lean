import Mathlib.Tactic
import Mathlib.Logic.Relation

/-! # Executable transition systems

A step function takes a label and a state and either moves to the next state or is
not enabled. What every step preserves holds along every run, and so in every
reachable state.
-/

namespace GcLib.Support
open Relation

variable {σ ι : Type*}

/-- The state after a list of steps, when each of them is enabled. -/
def run (step : ι → σ → Option σ) : List ι → σ → Option σ
  | [], s => some s
  | l :: ls, s => (step l s).bind (run step ls)

theorem run_append (next : ι → σ → Option σ) (ls ls' : List ι) (s : σ) :
    run next (ls ++ ls') s = (run next ls s).bind (run next ls') := by
  induction ls generalizing s with
  | nil => rfl
  | cons l ls ih =>
    rw [List.cons_append, run, run, Option.bind_assoc]
    exact congrArg _ (funext fun s' => ih s')

theorem run_concat (next : ι → σ → Option σ) (ls : List ι) (l : ι) (s : σ) :
    run next (ls ++ [l]) s = (run next ls s).bind (next l) := by
  rw [run_append]
  exact congrArg _ (funext fun s' => Option.bind_fun_some (next l s'))

/-- Some enabled step leads from one state to the other. -/
def Steps (step : ι → σ → Option σ) (s s' : σ) : Prop := ∃ l, step l s = some s'

def Reachable (step : ι → σ → Option σ) (init : σ → Prop) (s : σ) : Prop :=
  ∃ s₀, init s₀ ∧ ReflTransGen (Steps step) s₀ s

section
variable {next : ι → σ → Option σ} {init : σ → Prop} {s s' : σ}

theorem Reachable.of_init (h : init s) : Reachable next init s := ⟨s,h,.refl⟩

theorem Reachable.step {l : ι} (h : Reachable next init s) (hs : next l s = some s') :
    Reachable next init s' := by
  obtain ⟨s₀,h₀,hr⟩ := h
  exact ⟨s₀,h₀,hr.tail ⟨l,hs⟩⟩

/-- What holds initially and survives every step holds in every reachable state. -/
theorem Reachable.steps (h : Reachable next init s) (hs : Relation.ReflTransGen (Steps next) s s') :
    Reachable next init s' := by
  obtain ⟨s₀,h₀,hr⟩ := h
  exact ⟨s₀,h₀,hr.trans hs⟩

theorem Reachable.invariant {P : σ → Prop} (hinit : ∀ s, init s → P s)
    (hstep : ∀ l s s', P s → next l s = some s' → P s') (h : Reachable next init s) : P s := by
  obtain ⟨s₀,h₀,hr⟩ := h
  induction hr with
  | refl => exact hinit _ h₀
  | tail _ hs ih =>
    obtain ⟨l,hl⟩ := hs
    exact hstep l _ _ ih hl

/-- An invariant whose preservation may use that the state is reachable. -/
theorem Reachable.induction {P : σ → Prop} (hinit : ∀ s, init s → P s)
    (hstep : ∀ l s s', Reachable next init s → P s → next l s = some s' → P s')
    (h : Reachable next init s) : P s := by
  refine (h.invariant (P := fun s => Reachable next init s ∧ P s) ?_ ?_).2
  · exact fun s hs => ⟨.of_init hs,hinit s hs⟩
  · exact fun l s s' hp hs => ⟨hp.1.step hs,hstep l s s' hp.1 hp.2 hs⟩

theorem steps_of_run : ∀ {ls : List ι} {s s' : σ}, run next ls s = some s' →
    ReflTransGen (Steps next) s s'
  | [], s, s', h => by
    cases h
    exact .refl
  | l :: ls, s, s', h => by
    obtain ⟨s₁,hs₁,hrest⟩ := Option.bind_eq_some_iff.mp h
    exact .head ⟨l,hs₁⟩ (steps_of_run hrest)

theorem Reachable.run {ls : List ι} (h : Reachable next init s)
    (hs : run next ls s = some s') : Reachable next init s' := by
  obtain ⟨s₀,h₀,hr⟩ := h
  exact ⟨s₀,h₀,hr.trans (steps_of_run hs)⟩

end
end GcLib.Support
