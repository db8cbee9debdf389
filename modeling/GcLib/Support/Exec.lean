import Mathlib.Tactic

/-! # Stateful computations that return, throw or diverge

A computation keeps the state it reached when it throws, so a failure in the middle
of an update is visible. Each internal allocation draws on a supply; an exhausted
supply makes the next allocation throw, which places a failure at any chosen point.
Loops carry fuel, and running out of fuel is divergence, never a result.
-/

namespace GcLib.Support

/-- Remaining successful internal allocations; `none` never runs out. -/
abbrev Supply := Option ℕ

inductive Outcome (ε σ α : Type) where
  | returns (value : α) (state : σ) (supply : Supply)
  | throws (error : ε) (state : σ)
  | diverges

/-- What a computation returned, if it did. -/
def Outcome.value? {ε σ α : Type} : Outcome ε σ α → Option α
  | .returns value _ _ => some value
  | _ => none

theorem Outcome.value?_eq_some {ε σ α : Type} {o : Outcome ε σ α} {value : α}
    (h : o.value? = some value) : ∃ s b, o = .returns value s b := by
  cases o with
  | returns value' s b =>
    cases h
    exact ⟨s,b,rfl⟩
  | throws e s => cases h
  | diverges => cases h

def Exec (ε σ α : Type) := σ → Supply → Outcome ε σ α

namespace Exec
variable {ε σ α β γ : Type}

def andThen (m : Exec ε σ α) (f : α → Exec ε σ β) : Exec ε σ β := fun s b =>
  match m s b with
  | .returns a s' b' => f a s' b'
  | .throws e s' => .throws e s'
  | .diverges => .diverges

instance : Monad (Exec ε σ) where
  pure a := fun s b => .returns a s b
  bind := andThen

def get : Exec ε σ σ := fun s b => .returns s s b

def modify (f : σ → σ) : Exec ε σ Unit := fun s b => .returns () (f s) b

def raise (e : ε) : Exec ε σ α := fun s _ => .throws e s

def diverge : Exec ε σ α := fun _ _ => .diverges

/-- One internal allocation, which throws `e` once the supply is exhausted. -/
def allocate (e : ε) : Exec ε σ Unit := fun s b =>
  match b with
  | none => .returns () s none
  | some 0 => .throws e s
  | some (n+1) => .returns () s (some n)

/-- Every outcome of `m` from `s` other than divergence meets its condition,
whichever allocation is made to fail. -/
def Meets (m : Exec ε σ α) (s : σ) (Q : α → σ → Prop) (E : ε → σ → Prop) : Prop :=
  ∀ b, match m s b with
    | .returns a s' _ => Q a s'
    | .throws e s' => E e s'
    | .diverges => True

variable {m : Exec ε σ α} {f : α → Exec ε σ β} {s : σ} {Q : α → σ → Prop} {R : β → σ → Prop}
  {E : ε → σ → Prop}

theorem Meets.returns (h : m.Meets s Q E) {b b' : Supply} {a : α} {s' : σ}
    (hm : m s b = .returns a s' b') : Q a s' := by
  have hb := h b
  rw [hm] at hb
  exact hb

theorem Meets.throws (h : m.Meets s Q E) {b : Supply} {e : ε} {s' : σ}
    (hm : m s b = .throws e s') : E e s' := by
  have hb := h b
  rw [hm] at hb
  exact hb

theorem Meets.mono {Q' : α → σ → Prop} {E' : ε → σ → Prop} (h : m.Meets s Q E)
    (hQ : ∀ a s', Q a s' → Q' a s') (hE : ∀ e s', E e s' → E' e s') : m.Meets s Q' E' := by
  intro b
  have hb := h b
  revert hb
  cases m s b with
  | returns a s' _ => exact hQ a s'
  | throws e s' => exact hE e s'
  | diverges => exact id

theorem Meets.and {Q' : α → σ → Prop} {E' : ε → σ → Prop} (h : m.Meets s Q E)
    (h' : m.Meets s Q' E') :
    m.Meets s (fun a s' => Q a s' ∧ Q' a s') (fun e s' => E e s' ∧ E' e s') := by
  intro b
  have hb := h b
  have hb' := h' b
  revert hb hb'
  cases m s b with
  | returns a s' _ => exact And.intro
  | throws e s' => exact And.intro
  | diverges => exact fun _ => id

theorem meets_pure {a : α} (h : Q a s) : (pure a : Exec ε σ α).Meets s Q E := fun _ => h

theorem meets_bind (h : m.Meets s (fun a s' => (f a).Meets s' R E) E) :
    (m >>= f).Meets s R E := by
  intro b
  have hb := h b
  change match andThen m f s b with
    | .returns a s' _ => R a s'
    | .throws e s' => E e s'
    | .diverges => True
  revert hb
  rw [andThen]
  cases m s b with
  | returns a s' b' => exact fun hb => hb b'
  | throws e s' => exact id
  | diverges => exact id

theorem meets_get {Q : σ → σ → Prop} (h : Q s s) : (get : Exec ε σ σ).Meets s Q E := fun _ => h

theorem meets_modify {g : σ → σ} {Q : Unit → σ → Prop} (h : Q () (g s)) :
    (modify g : Exec ε σ Unit).Meets s Q E := fun _ => h

theorem meets_raise {e : ε} (h : E e s) : (raise e : Exec ε σ α).Meets s Q E := fun _ => h

theorem meets_diverge : (diverge : Exec ε σ α).Meets s Q E := fun _ => trivial

theorem meets_allocate {e : ε} {Q : Unit → σ → Prop} (hQ : Q () s) (hE : E e s) :
    (allocate e : Exec ε σ Unit).Meets s Q E := by
  intro b
  rcases b with - | (- | n)
  · exact hQ
  · exact hE
  · exact hQ

/-- The loop invariant of a fold ranges over what is still to be visited. -/
theorem meets_foldlM {I : List γ → α → σ → Prop} {g : α → γ → Exec ε σ α}
    (hstep : ∀ c l a s, I (c :: l) a s → (g a c).Meets s (I l) E) (l : List γ) :
    ∀ {a : α} {s : σ}, I l a s → (l.foldlM g a).Meets s (I []) E := by
  induction l with
  | nil => exact fun h => meets_pure h
  | cons c l ih =>
    intro a s h
    rw [List.foldlM_cons]
    exact meets_bind ((hstep c l a s h).mono (fun _ _ h' => ih h') (fun _ _ => id))

@[simp] theorem pure_run (a : α) (s : σ) (b : Supply) :
    (pure a : Exec ε σ α) s b = .returns a s b := rfl

theorem bind_run (m : Exec ε σ α) (f : α → Exec ε σ β) (s : σ) (b : Supply) :
    (m >>= f) s b = match m s b with
      | .returns a s' b' => f a s' b'
      | .throws e s' => .throws e s'
      | .diverges => .diverges := rfl

/-- A sequence returns only when both of its parts do. -/
theorem bind_returns {b b' : Supply} {c : β} {s' : σ}
    (h : (m >>= f) s b = .returns c s' b') :
    ∃ a s₁ b₁, m s b = .returns a s₁ b₁ ∧ f a s₁ b₁ = .returns c s' b' := by
  rw [bind_run] at h
  cases hm : m s b with
  | returns a s₁ b₁ => exact ⟨a,s₁,b₁,rfl,by rw [hm] at h; exact h⟩
  | throws e s₁ => rw [hm] at h; cases h
  | diverges => rw [hm] at h; cases h

/-- Total correctness: no outcome is divergence, and without a failing allocation `m` returns. -/
def Terminates (m : Exec ε σ α) (s : σ) (Q : α → σ → Prop) (E : ε → σ → Prop) : Prop :=
  ∀ b, match m s b with
    | .returns a s' b' => Q a s' ∧ (b = none → b' = none)
    | .throws e s' => E e s' ∧ b ≠ none
    | .diverges => False

theorem Terminates.and_meets (h : m.Terminates s Q E) {Q' : α → σ → Prop} {E' : ε → σ → Prop}
    (h' : m.Meets s Q' E') :
    m.Terminates s (fun a s' => Q a s' ∧ Q' a s') (fun e s' => E e s' ∧ E' e s') := by
  intro b
  have hb := h b
  have hb' := h' b
  revert hb hb'
  cases m s b with
  | returns a s' b' => exact fun hb hb' => ⟨⟨hb.1,hb'⟩,hb.2⟩
  | throws e s' => exact fun hb hb' => ⟨⟨hb.1,hb'⟩,hb.2⟩
  | diverges => exact fun hb _ => hb

theorem Terminates.mono {Q' : α → σ → Prop} {E' : ε → σ → Prop} (h : m.Terminates s Q E)
    (hQ : ∀ a s', Q a s' → Q' a s') (hE : ∀ e s', E e s' → E' e s') :
    m.Terminates s Q' E' := by
  intro b
  have hb := h b
  revert hb
  cases m s b with
  | returns a s' b' => exact fun hb => ⟨hQ a s' hb.1,hb.2⟩
  | throws e s' => exact fun hb => ⟨hE e s' hb.1,hb.2⟩
  | diverges => exact id

theorem Terminates.returns (h : m.Terminates s Q E) :
    ∃ a s', m s none = .returns a s' none ∧ Q a s' := by
  have hb := h none
  revert hb
  cases m s none with
  | returns a s' b' =>
    rintro ⟨hQ,hb'⟩
    exact ⟨a,s',by rw [hb' rfl],hQ⟩
  | throws e s' => exact fun hb => absurd rfl hb.2
  | diverges => exact False.elim

theorem Terminates.returns_or_throws (h : m.Terminates s Q E) (b : Supply) :
    (∃ a s' b', m s b = .returns a s' b' ∧ Q a s') ∨ ∃ e s', m s b = .throws e s' ∧ E e s' := by
  have hb := h b
  revert hb
  cases m s b with
  | returns a s' b' => exact fun hb => Or.inl ⟨a,s',b',rfl,hb.1⟩
  | throws e s' => exact fun hb => Or.inr ⟨e,s',rfl,hb.1⟩
  | diverges => exact False.elim

theorem terminates_pure {a : α} (h : Q a s) : (pure a : Exec ε σ α).Terminates s Q E :=
  fun _ => ⟨h,id⟩

theorem terminates_bind (h : m.Terminates s (fun a s' => (f a).Terminates s' R E) E) :
    (m >>= f).Terminates s R E := by
  intro b
  have hb := h b
  change match andThen m f s b with
    | .returns a s' b' => R a s' ∧ (b = none → b' = none)
    | .throws e s' => E e s' ∧ b ≠ none
    | .diverges => False
  revert hb
  rw [andThen]
  cases m s b with
  | throws e s' => exact id
  | diverges => exact id
  | returns a s' b' =>
    rintro ⟨hf,hsupply⟩
    have hb' := hf b'
    revert hb'
    dsimp only
    cases f a s' b' with
    | returns c s'' b'' => exact fun hb' => ⟨hb'.1,fun hn => hb'.2 (hsupply hn)⟩
    | throws e s'' => exact fun hb' => ⟨hb'.1,fun hn => hb'.2 (hsupply hn)⟩
    | diverges => exact id

theorem terminates_get {Q : σ → σ → Prop} (h : Q s s) : (get : Exec ε σ σ).Terminates s Q E :=
  fun _ => ⟨h,id⟩

theorem terminates_modify {g : σ → σ} {Q : Unit → σ → Prop} (h : Q () (g s)) :
    (modify g : Exec ε σ Unit).Terminates s Q E := fun _ => ⟨h,id⟩

theorem terminates_allocate {e : ε} {Q : Unit → σ → Prop} (hQ : Q () s) (hE : E e s) :
    (allocate e : Exec ε σ Unit).Terminates s Q E := by
  intro b
  rcases b with - | (- | n)
  · exact ⟨hQ,id⟩
  · exact ⟨hE,by simp⟩
  · exact ⟨hQ,by simp⟩

theorem terminates_foldlM {I : List γ → α → σ → Prop} {g : α → γ → Exec ε σ α}
    (hstep : ∀ c l a s, I (c :: l) a s → (g a c).Terminates s (I l) E) (l : List γ) :
    ∀ {a : α} {s : σ}, I l a s → (l.foldlM g a).Terminates s (I []) E := by
  induction l with
  | nil => exact fun h => terminates_pure h
  | cons c l ih =>
    intro a s h
    rw [List.foldlM_cons]
    exact terminates_bind ((hstep c l a s h).mono (fun _ _ h' => ih h') (fun _ _ => id))

/-- Two continuations that agree on what `m` returns. -/
theorem bind_congr {g : α → Exec ε σ β} (hm : m.Meets s Q E)
    (h : ∀ a s', Q a s' → ∀ b, f a s' b = g a s' b) (b : Supply) :
    (m >>= f) s b = (m >>= g) s b := by
  rw [bind_run, bind_run]
  cases hrun : m s b with
  | returns a s' b' => exact h a s' (hm.returns hrun) b'
  | throws e s' => rfl
  | diverges => rfl

/-- Two loops whose bodies agree where the loop invariant holds. -/
theorem foldlM_congr {I : List γ → α → σ → Prop} {g g' : α → γ → Exec ε σ α}
    (hstep : ∀ c l a s, I (c :: l) a s → (g a c).Meets s (I l) E)
    (heq : ∀ c l a s, I (c :: l) a s → ∀ b, g' a c s b = g a c s b) (l : List γ) :
    ∀ {a : α} {s : σ}, I l a s → ∀ b, l.foldlM g' a s b = l.foldlM g a s b := by
  induction l with
  | nil => exact fun _ _ => rfl
  | cons c l ih =>
    intro a s h b
    rw [List.foldlM_cons, List.foldlM_cons, bind_run, heq c l a s h b, ← bind_run]
    exact bind_congr (hstep c l a s h) (fun a' s' h' b' => ih h' b') b

end Exec

/-- A vector with its capacity; `items` lists it from its back, where it is pushed and
popped. -/
structure Vec (α : Type) where
  items : List α := []
  capacity : ℕ := 0

namespace Vec
variable {ε σ α : Type}

def reserve (e : ε) (n : ℕ) : Exec ε σ (Vec α) := do
  if n = 0 then pure {} else
    Exec.allocate e
    pure { capacity := n }

/-- A full vector doubles its storage before it takes the element. -/
def pushBack (e : ε) (v : Vec α) (a : α) : Exec ε σ (Vec α) := do
  if v.items.length < v.capacity then
    pure { v with items := a :: v.items }
  else
    Exec.allocate e
    pure ⟨a :: v.items,max 1 (2*v.capacity)⟩

theorem meets_reserve {e : ε} {n : ℕ} {s : σ} {Q : Vec α → σ → Prop} {E : ε → σ → Prop}
    (hQ : Q ⟨[],n⟩ s) (hE : E e s) : (reserve e n).Meets s Q E := by
  unfold reserve
  split_ifs with h
  · exact Exec.meets_pure (h ▸ hQ)
  · exact Exec.meets_bind (Exec.meets_allocate (Exec.meets_pure hQ) hE)

theorem meets_pushBack {e : ε} {v : Vec α} {a : α} {s : σ} {Q : Vec α → σ → Prop}
    {E : ε → σ → Prop} (hQ : ∀ c, Q ⟨a :: v.items,c⟩ s) (hE : E e s) :
    (v.pushBack e a).Meets s Q E := by
  unfold pushBack
  split_ifs
  · exact Exec.meets_pure (hQ v.capacity)
  · exact Exec.meets_bind (Exec.meets_allocate (Exec.meets_pure (hQ _)) hE)

theorem terminates_reserve {e : ε} {n : ℕ} {s : σ} {Q : Vec α → σ → Prop} {E : ε → σ → Prop}
    (hQ : Q ⟨[],n⟩ s) (hE : E e s) : (reserve e n).Terminates s Q E := by
  unfold reserve
  split_ifs with h
  · exact Exec.terminates_pure (h ▸ hQ)
  · exact Exec.terminates_bind (Exec.terminates_allocate (Exec.terminates_pure hQ) hE)

theorem terminates_pushBack {e : ε} {v : Vec α} {a : α} {s : σ} {Q : Vec α → σ → Prop}
    {E : ε → σ → Prop} (hQ : ∀ c, Q ⟨a :: v.items,c⟩ s) (hE : E e s) :
    (v.pushBack e a).Terminates s Q E := by
  unfold pushBack
  split_ifs
  · exact Exec.terminates_pure (hQ v.capacity)
  · exact Exec.terminates_bind (Exec.terminates_allocate (Exec.terminates_pure (hQ _)) hE)

end Vec
end GcLib.Support
