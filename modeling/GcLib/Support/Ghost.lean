import GcLib.Support.Exec

/-! # Ghost values

A computation with ghost values does what another computation does and keeps a record
besides. Forgetting the record gives the other computation back, outcome by outcome,
so what is proved about the record is about the run without it.
-/

namespace GcLib.Support.Exec
variable {ε σ α α' β β' γ : Type}

/-- Forgetting through `f` what `m'` keeps besides gives `m`. -/
def Erases (f : α' → α) (m' : Exec ε σ α') (m : Exec ε σ α) : Prop :=
  ∀ s b, m s b = match m' s b with
    | .returns a s' b' => .returns (f a) s' b'
    | .throws e s' => .throws e s'
    | .diverges => .diverges

section
variable {f : α' → α} {g : β' → β} {m' : Exec ε σ α'} {m : Exec ε σ α}

theorem erases_pure (a : α') : Erases f (pure a : Exec ε σ α') (pure (f a)) := fun _ _ => rfl

theorem erases_diverge : Erases f (diverge : Exec ε σ α') diverge := fun _ _ => rfl

theorem Erases.bind {k' : α' → Exec ε σ β'} {k : α → Exec ε σ β} (h : Erases f m' m)
    (hk : ∀ a, Erases g (k' a) (k (f a))) : Erases g (m' >>= k') (m >>= k) := by
  intro s b
  rw [bind_run, bind_run, h s b]
  cases m' s b with
  | returns a s' b' => exact hk a s' b'
  | throws e s' => rfl
  | diverges => rfl

/-- A common first part keeps no record. -/
theorem erases_bind {k' : γ → Exec ε σ β'} {k : γ → Exec ε σ β} (n : Exec ε σ γ)
    (hk : ∀ c, Erases g (k' c) (k c)) : Erases g (n >>= k') (n >>= k) := by
  intro s b
  rw [bind_run, bind_run]
  cases n s b with
  | returns c s' b' => exact hk c s' b'
  | throws e s' => rfl
  | diverges => rfl

theorem erases_foldlM {v' : α' → γ → Exec ε σ α'} {v : α → γ → Exec ε σ α}
    (hv : ∀ a c, Erases f (v' a c) (v (f a) c)) (l : List γ) :
    ∀ a, Erases f (l.foldlM v' a) (l.foldlM v (f a)) := by
  induction l with
  | nil => exact fun a => erases_pure a
  | cons c l ih =>
    intro a
    rw [List.foldlM_cons, List.foldlM_cons]
    exact (hv a c).bind ih

theorem Erases.returns {s s' : σ} {b b' : Supply} {a : α'} (h : Erases f m' m)
    (hrun : m' s b = .returns a s' b') : m s b = .returns (f a) s' b' := by
  rw [h s b, hrun]

end
end GcLib.Support.Exec
