import Mathlib.Data.List.Forall2

/-! # Simulation

A run is a list of labels with a step for each. When every step of one system is matched by a step
of another one under an abstraction of the states, every run is matched by a run, label by label.
-/

namespace GcLib.Support
variable {ι κ σ τ : Type*}

/-- A run, by its labels. -/
inductive Along (R : ι → σ → σ → Prop) : List ι → σ → σ → Prop where
  | nil (s : σ) : Along R [] s s
  | cons {l : ι} {ls : List ι} {s s₁ s' : σ} (h : R l s s₁) (hrest : Along R ls s₁ s') :
      Along R (l :: ls) s s'

section
variable {R : ι → σ → σ → Prop} {R' : κ → τ → τ → Prop} {I : σ → Prop} {ls : List ι} {s s' : σ}

theorem Along.simulate (h : Along R ls s s') (abstraction : σ → τ) (matching : ι → κ → Prop)
    (hI : ∀ l s s', I s → R l s s' → I s')
    (hstep : ∀ l s s', I s → R l s s' →
      ∃ l', matching l l' ∧ R' l' (abstraction s) (abstraction s'))
    (hs : I s) : ∃ ls', List.Forall₂ matching ls ls' ∧
      Along R' ls' (abstraction s) (abstraction s') := by
  induction h with
  | nil => exact ⟨[],.nil,.nil _⟩
  | cons h _ ih =>
    obtain ⟨l',hmatch,hl'⟩ := hstep _ _ _ hs h
    obtain ⟨ls',hmatches,hls'⟩ := ih (hI _ _ _ hs h)
    exact ⟨l' :: ls',.cons hmatch hmatches,.cons hl' hls'⟩

/-- Matched runs add up to the same value. -/
theorem foldl_matching {β : Type*} {f : β → ι → β} {g : β → κ → β} {ls' : List κ}
    (h : List.Forall₂ (fun l l' => ∀ b, g b l' = f b l) ls ls') (b : β) :
    ls'.foldl g b = ls.foldl f b := by
  induction h generalizing b with
  | nil => rfl
  | cons hfirst _ ih => rw [List.foldl_cons, List.foldl_cons, hfirst, ih]

end
end GcLib.Support
