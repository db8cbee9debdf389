import GcLib.Support.Exec

/-! # Computations that halt

A computation halts in a state if it diverges under no supply of memory. Whether it returns or
throws does not matter here.
-/

namespace GcLib.Support
namespace Exec
variable {ε σ α β : Type} {m : Exec ε σ α} {f : α → Exec ε σ β} {s : σ}

def Halts (m : Exec ε σ α) (s : σ) : Prop := ∀ b, m s b ≠ .diverges

theorem Terminates.halts {Q : α → σ → Prop} {E : ε → σ → Prop} (h : m.Terminates s Q E) :
    m.Halts s := by
  intro b hb
  have hterminates := h b
  rw [hb] at hterminates
  exact hterminates

theorem halts_pure (a : α) : (pure a : Exec ε σ α).Halts s := fun _ h => by cases h

theorem halts_raise (e : ε) : (raise e : Exec ε σ α).Halts s := fun _ h => by cases h

theorem halts_modify (g : σ → σ) : (modify g : Exec ε σ Unit).Halts s := fun _ h => by cases h

theorem halts_allocate (e : ε) : (allocate e : Exec ε σ Unit).Halts s := by
  intro b h
  rcases b with - | (- | n) <;> cases h

theorem halts_bind (hm : m.Halts s) (hf : ∀ a s', (f a).Halts s') : (m >>= f).Halts s := by
  intro b
  rw [bind_run]
  cases h : m s b with
  | returns a s' b' => exact hf a s' b'
  | throws e s' => simp
  | diverges => exact absurd h (hm b)

/-- What follows reads the state. -/
theorem halts_get {f : σ → Exec ε σ β} (h : (f s).Halts s) : (get >>= f).Halts s := h

theorem halts_ite {p : Prop} [Decidable p] {m m' : Exec ε σ α} (h : m.Halts s) (h' : m'.Halts s) :
    (if p then m else m').Halts s := by
  split_ifs
  · exact h
  · exact h'

end Exec
end GcLib.Support
