import Mathlib.Data.DFinsupp.WellFounded
import Mathlib.Data.Prod.Lex
import Mathlib.Order.Hom.Basic

/-! # Systems of parties

Each step moves one party and lowers its rank, or moves none and lets something else run down. When
all but finitely many parties start at a minimal rank, there is an end to the steps, whichever party
moves next.
-/

namespace GcLib.Support
variable {ι α : Type*} [Preorder α]

/-- The rank of one party falls, and the other parties keep theirs. -/
def Lowers (rank rank' : ι → α) : Prop := ∃ i, rank' i < rank i ∧ ∀ j, j ≠ i → rank' j = rank j

/-- A party at a minimal rank does not move. -/
theorem Lowers.minimal {rank rank' : ι → α} (h : Lowers rank rank') {i : ι}
    (hmin : IsMin (rank i)) : rank' i = rank i := by
  obtain ⟨j,hlt,hsame⟩ := h
  apply hsame
  rintro rfl
  exact hmin.not_lt hlt

/-- When no rank falls, something else may run down in the meantime. -/
theorem exists_not_lowers {β : Type*} [Preorder β] [WellFoundedLT α] [WellFoundedLT β]
    (f : ℕ → ι → α) (g : ℕ → β) (hfinite : {i | ¬ IsMin (f 0 i)}.Finite) :
    ∃ n, ¬ (Lowers (f n) (f (n+1)) ∨ f (n+1) = f n ∧ g (n+1) < g n) := by
  by_contra hall
  push Not at hall
  have hidle : ∀ n i, IsMin (f 0 i) → f n i = f 0 i := by
    intro n i hmin
    induction n with
    | zero => rfl
    | succ n ih =>
      rcases hall n with hlowers | ⟨hsame,-⟩
      · rw [hlowers.minimal (ih.symm ▸ hmin), ih]
      · rw [hsame, ih]
  have := hfinite.to_subtype
  -- the ranks of the parties that may move, and what runs down while they stand still
  let h : ℕ → ({i | ¬ IsMin (f 0 i)} → α) ×ₗ β := fun n => toLex (fun i => f n i,g n)
  obtain ⟨n,hn⟩ := WellFounded.not_rel_apply_succ (r := (· < ·)) h
  apply hn
  apply Prod.Lex.toLex_lt_toLex.mpr
  rcases hall n with ⟨i,hlt,hsame⟩ | ⟨hsame,hlt⟩
  · left
    have hmoves : ¬ IsMin (f 0 i) := by
      intro hmin
      rw [hidle n i hmin] at hlt
      exact hmin.not_lt hlt
    apply Pi.lt_def.mpr
    constructor
    · rintro ⟨j,hj⟩
      by_cases he : j = i
      · subst he
        exact hlt.le
      · exact (hsame j he).le
    · exact ⟨⟨i,hmoves⟩,hlt⟩
  · right
    exact ⟨funext fun i => congrFun hsame i,hlt⟩

end GcLib.Support
