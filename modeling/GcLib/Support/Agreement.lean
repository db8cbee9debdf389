import GcLib.Support.Exec

/-! # Runs that agree

Two computations agree from two states if, with the same supply, they return together,
throw the same error together or diverge together, in states that are related. A
computation respects a relation if it agrees with itself from related states, with
equal results: what the relation leaves out has no influence on it.
-/

namespace GcLib.Support

/-- Two outcomes of the same kind, with related results. -/
inductive Outcome.Alike {ε σ α β : Type} (Q : α → σ → β → σ → Prop) (E : σ → σ → Prop) :
    Outcome ε σ α → Outcome ε σ β → Prop where
  | returns {a₁ : α} {a₂ : β} {s₁ s₂ : σ} {b : Supply} (h : Q a₁ s₁ a₂ s₂) :
      Alike Q E (.returns a₁ s₁ b) (.returns a₂ s₂ b)
  | throws {e : ε} {s₁ s₂ : σ} (h : E s₁ s₂) : Alike Q E (.throws e s₁) (.throws e s₂)
  | diverges : Alike Q E .diverges .diverges

theorem Outcome.Alike.mono {ε σ α β : Type} {Q Q' : α → σ → β → σ → Prop} {E E' : σ → σ → Prop}
    {o₁ : Outcome ε σ α} {o₂ : Outcome ε σ β} (h : o₁.Alike Q E o₂)
    (hQ : ∀ a₁ t₁ a₂ t₂, Q a₁ t₁ a₂ t₂ → Q' a₁ t₁ a₂ t₂) (hE : ∀ t₁ t₂, E t₁ t₂ → E' t₁ t₂) :
    o₁.Alike Q' E' o₂ := by
  cases h with
  | returns h => exact .returns (hQ _ _ _ _ h)
  | throws h => exact .throws (hE _ _ h)
  | diverges => exact .diverges

namespace Exec
variable {ε σ α α' β β' γ : Type}

def Agree (m₁ : Exec ε σ α) (m₂ : Exec ε σ β) (s₁ s₂ : σ) (Q : α → σ → β → σ → Prop)
    (E : σ → σ → Prop) : Prop :=
  ∀ b, (m₁ s₁ b).Alike Q E (m₂ s₂ b)

/-- The computation agrees with itself from related states. -/
def Respects (R : σ → σ → Prop) (m : Exec ε σ α) : Prop :=
  ∀ s₁ s₂, R s₁ s₂ → Agree m m s₁ s₂ (fun a₁ t₁ a₂ t₂ => a₁ = a₂ ∧ R t₁ t₂) R

section
variable {m₁ : Exec ε σ α} {m₂ : Exec ε σ β} {k₁ : α → Exec ε σ α'} {k₂ : β → Exec ε σ β'}
  {s₁ s₂ : σ} {Q : α → σ → β → σ → Prop} {Q' : α' → σ → β' → σ → Prop} {E E' : σ → σ → Prop}

theorem Agree.mono {P : α → σ → β → σ → Prop} (h : Agree m₁ m₂ s₁ s₂ Q E)
    (hQ : ∀ a₁ t₁ a₂ t₂, Q a₁ t₁ a₂ t₂ → P a₁ t₁ a₂ t₂) (hE : ∀ t₁ t₂, E t₁ t₂ → E' t₁ t₂) :
    Agree m₁ m₂ s₁ s₂ P E' := fun b => (h b).mono hQ hE

theorem agree_pure {a₁ : α} {a₂ : β} (h : Q a₁ s₁ a₂ s₂) :
    Agree (pure a₁ : Exec ε σ α) (pure a₂) s₁ s₂ Q E := fun _ => .returns h

theorem agree_modify {g₁ g₂ : σ → σ} {Q : Unit → σ → Unit → σ → Prop}
    (h : Q () (g₁ s₁) () (g₂ s₂)) :
    Agree (modify g₁ : Exec ε σ Unit) (modify g₂) s₁ s₂ Q E := fun _ => .returns h

theorem agree_bind (h : Agree m₁ m₂ s₁ s₂
      (fun a₁ t₁ a₂ t₂ => Agree (k₁ a₁) (k₂ a₂) t₁ t₂ Q' E) E) :
    Agree (m₁ >>= k₁) (m₂ >>= k₂) s₁ s₂ Q' E := by
  intro b
  have hb := h b
  rw [bind_run, bind_run]
  revert hb
  generalize m₁ s₁ b = o₁
  generalize m₂ s₂ b = o₂
  intro hb
  cases hb with
  | returns h => exact h _
  | throws h => exact .throws h
  | diverges => exact .diverges

theorem agree_get {k₁ : σ → Exec ε σ α'} {k₂ : σ → Exec ε σ β'}
    (h : Agree (k₁ s₁) (k₂ s₂) s₁ s₂ Q' E) :
    Agree (get >>= k₁) (get >>= k₂) s₁ s₂ Q' E := fun b => h b

theorem agree_raise {e : ε} (h : E s₁ s₂) :
    Agree (raise e : Exec ε σ α) (raise e : Exec ε σ β) s₁ s₂ Q E := fun _ => .throws h

theorem agree_allocate {e : ε} {Q : Unit → σ → Unit → σ → Prop} (hQ : Q () s₁ () s₂)
    (hE : E s₁ s₂) : Agree (allocate e : Exec ε σ Unit) (allocate e) s₁ s₂ Q E := by
  intro b
  rcases b with - | (- | n)
  · exact .returns hQ
  · exact .throws hE
  · exact .returns hQ

theorem agree_foldlM {I : List γ → α → σ → β → σ → Prop} {g₁ : α → γ → Exec ε σ α}
    {g₂ : β → γ → Exec ε σ β}
    (hstep : ∀ c l a₁ t₁ a₂ t₂, I (c :: l) a₁ t₁ a₂ t₂ →
      Agree (g₁ a₁ c) (g₂ a₂ c) t₁ t₂ (I l) E) (l : List γ) :
    ∀ {a₁ : α} {a₂ : β} {t₁ t₂ : σ}, I l a₁ t₁ a₂ t₂ →
      Agree (l.foldlM g₁ a₁) (l.foldlM g₂ a₂) t₁ t₂ (I []) E := by
  induction l with
  | nil => exact fun h => agree_pure h
  | cons c l ih =>
    intro a₁ a₂ t₁ t₂ h
    rw [List.foldlM_cons, List.foldlM_cons]
    exact agree_bind ((hstep c l _ _ _ _ h).mono (fun _ _ _ _ h' => ih h') (fun _ _ => id))

end

section
variable {R : σ → σ → Prop} {m : Exec ε σ α} {k : α → Exec ε σ β}

theorem respects_pure (a : α) : Respects R (pure a : Exec ε σ α) :=
  fun _ _ h => agree_pure ⟨rfl,h⟩

theorem respects_raise (e : ε) : Respects R (raise e : Exec ε σ α) := fun _ _ h => agree_raise h

theorem respects_diverge : Respects R (diverge : Exec ε σ α) := fun _ _ _ _ => .diverges

theorem respects_allocate (e : ε) : Respects R (allocate e : Exec ε σ Unit) :=
  fun _ _ h => agree_allocate ⟨rfl,h⟩ h

theorem respects_modify {g : σ → σ} (h : ∀ s₁ s₂, R s₁ s₂ → R (g s₁) (g s₂)) :
    Respects R (modify g : Exec ε σ Unit) := fun s₁ s₂ hR => agree_modify ⟨rfl,h s₁ s₂ hR⟩

theorem Respects.bind (h : Respects R m) (hk : ∀ a, Respects R (k a)) :
    Respects R (m >>= k) := by
  intro s₁ s₂ hR
  apply agree_bind
  refine (h s₁ s₂ hR).mono ?_ (fun _ _ => id)
  rintro a t₁ _ t₂ ⟨rfl,hR'⟩
  exact hk a t₁ t₂ hR'

/-- What follows a read is the same from related states. -/
theorem respects_get {k : σ → Exec ε σ β} (heq : ∀ s₁ s₂, R s₁ s₂ → k s₁ = k s₂)
    (hk : ∀ s, Respects R (k s)) : Respects R (get >>= k) := by
  intro s₁ s₂ hR
  apply agree_get
  rw [← heq s₁ s₂ hR]
  exact hk s₁ s₁ s₂ hR

theorem respects_foldlM {g : α → γ → Exec ε σ α} (hg : ∀ a c, Respects R (g a c))
    (l : List γ) : ∀ a, Respects R (l.foldlM g a) := by
  induction l with
  | nil => exact fun a => respects_pure a
  | cons c l ih =>
    intro a
    rw [List.foldlM_cons]
    exact (hg a c).bind ih

theorem Respects.ite {p : Prop} [Decidable p] {m' : Exec ε σ α} (h : Respects R m)
    (h' : Respects R m') : Respects R (if p then m else m') := by
  split_ifs
  · exact h
  · exact h'

end
end Exec

namespace Vec
variable {ε σ α : Type} {R : σ → σ → Prop}

theorem respects_reserve (e : ε) (n : ℕ) : Exec.Respects R (reserve e n : Exec ε σ (Vec α)) :=
  Exec.Respects.ite (Exec.respects_pure _)
    ((Exec.respects_allocate e).bind fun _ => Exec.respects_pure _)

theorem respects_pushBack (e : ε) (v : Vec α) (a : α) :
    Exec.Respects R (v.pushBack e a : Exec ε σ (Vec α)) :=
  Exec.Respects.ite (Exec.respects_pure _)
    ((Exec.respects_allocate e).bind fun _ => Exec.respects_pure _)

end Vec
end GcLib.Support
