import Mathlib.Tactic
import Mathlib.Logic.Relation
import Mathlib.Order.Bounds.Basic

/-! # Tricolour marking

Nodes are white until they are marked, grey while they wait on a worklist, and black
once their successors have been visited. The invariant names what is still to be
visited: pending roots, and pending edges out of a black node whose scan is under
way. When nothing is pending and no node is grey, the marked nodes are the least set
that holds the roots and is closed under the edges.
-/

namespace GcLib.Support
open Relation

variable {α : Type*} {root : α → Prop} {succ : α → α → Prop}

def Reached (root : α → Prop) (succ : α → α → Prop) (x : α) : Prop :=
  ∃ r, root r ∧ ReflTransGen succ r x

theorem Reached.of_root {x : α} (h : root x) : Reached root succ x := ⟨x,h,.refl⟩

theorem Reached.step {x y : α} (h : Reached root succ x) (hxy : succ x y) :
    Reached root succ y := by
  obtain ⟨r,hr,hx⟩ := h
  exact ⟨r,hr,hx.tail hxy⟩

/-- Sets that hold the roots and are closed under the edges. -/
def Closed (root : α → Prop) (succ : α → α → Prop) (S : Set α) : Prop :=
  (∀ x, root x → x ∈ S) ∧ ∀ x y, x ∈ S → succ x y → y ∈ S

theorem Closed.reached {S : Set α} (h : Closed root succ S) {x : α}
    (hx : Reached root succ x) : x ∈ S := by
  obtain ⟨r,hr,hx⟩ := hx
  induction hx with
  | refl => exact h.1 r hr
  | tail _ hyz ih => exact h.2 _ _ ih hyz

theorem isLeast_reached : IsLeast {S : Set α | Closed root succ S} {x | Reached root succ x} :=
  ⟨⟨fun _ => Reached.of_root,fun _ _ => Reached.step⟩,fun _ hS _ hx => hS.reached hx⟩

/-- The marking invariant, with the roots and edges that are still to be visited. -/
structure Tricolour (root : α → Prop) (succ : α → α → Prop) (pendingRoot : α → Prop)
    (pending : α → α → Prop) (marked : α → Prop) (grey : List α) : Prop where
  sound : ∀ x, marked x → Reached root succ x
  grey_marked : ∀ x ∈ grey, marked x
  grey_nodup : grey.Nodup
  roots : ∀ x, root x → marked x ∨ pendingRoot x
  closed : ∀ x y, marked x → x ∉ grey → succ x y → marked y ∨ pending x y

namespace Tricolour
variable {pendingRoot pendingRoot' : α → Prop} {pending pending' : α → α → Prop}
  {marked marked' : α → Prop} {grey : List α}

theorem start (h : ∀ x, ¬ marked x) : Tricolour root succ root pending marked [] where
  sound x hx := absurd hx (h x)
  grey_marked _ hx := absurd hx List.not_mem_nil
  grey_nodup := List.nodup_nil
  roots _ hx := Or.inr hx
  closed x _ hx := absurd hx (h x)

/-- A visit that finds its target already marked, or no target, only shrinks what is pending. -/
theorem skip (h : Tricolour root succ pendingRoot pending marked grey)
    (hroot : ∀ x, pendingRoot x → marked x ∨ pendingRoot' x)
    (hedge : ∀ x y, pending x y → marked y ∨ pending' x y) :
    Tricolour root succ pendingRoot' pending' marked grey where
  sound := h.sound
  grey_marked := h.grey_marked
  grey_nodup := h.grey_nodup
  roots x hx := (h.roots x hx).elim Or.inl (hroot x)
  closed x y hx hg hxy := (h.closed x y hx hg hxy).elim Or.inl (hedge x y)

/-- A visit that marks a white node puts it on the worklist. -/
theorem visit (h : Tricolour root succ pendingRoot pending marked grey) {z : α}
    (hz : Reached root succ z) (hwhite : ¬ marked z)
    (hmarked : ∀ x, marked' x ↔ x = z ∨ marked x)
    (hroot : ∀ x, pendingRoot x → marked' x ∨ pendingRoot' x)
    (hedge : ∀ x y, pending x y → marked' y ∨ pending' x y) :
    Tricolour root succ pendingRoot' pending' marked' (z :: grey) where
  sound x hx := by
    rcases (hmarked x).mp hx with rfl | hx
    · exact hz
    · exact h.sound x hx
  grey_marked x hx := by
    refine (hmarked x).mpr ?_
    exact (List.mem_cons.mp hx).imp id (h.grey_marked x)
  grey_nodup := List.nodup_cons.mpr ⟨fun hg => hwhite (h.grey_marked z hg),h.grey_nodup⟩
  roots x hx := (h.roots x hx).elim (fun hm => Or.inl ((hmarked x).mpr (Or.inr hm))) (hroot x)
  closed x y hx hg hxy := by
    obtain ⟨hxz,hg⟩ : x ≠ z ∧ x ∉ grey := by simpa using hg
    have hx := ((hmarked x).mp hx).resolve_left hxz
    exact (h.closed x y hx hg hxy).elim (fun hm => Or.inl ((hmarked y).mpr (Or.inr hm)))
      (hedge x y)

/-- Taking a node off the worklist makes all of its edges pending. -/
theorem pop {u : α} (h : Tricolour root succ pendingRoot (fun _ _ => False) marked (u :: grey)) :
    Tricolour root succ pendingRoot (fun x y => x = u ∧ succ u y) marked grey where
  sound := h.sound
  grey_marked x hx := h.grey_marked x (List.mem_cons_of_mem _ hx)
  grey_nodup := (List.nodup_cons.mp h.grey_nodup).2
  roots := h.roots
  closed x y hx hg hxy := by
    by_cases hxu : x = u
    · subst x
      exact Or.inr ⟨rfl,hxy⟩
    · have hg' : x ∉ u :: grey := by simp [hxu, hg]
      exact Or.inl ((h.closed x y hx hg' hxy).resolve_right id)

/-- Nothing pending and no grey node: the marked set is the closure of the roots. -/
theorem marked_iff (h : Tricolour root succ (fun _ => False) (fun _ _ => False) marked [])
    (x : α) : marked x ↔ Reached root succ x := by
  refine ⟨h.sound x,fun hx => ?_⟩
  have hclosed : Closed root succ {x | marked x} :=
    ⟨fun y hy => (h.roots y hy).resolve_right id,
      fun y z hy hyz => (h.closed y z hy List.not_mem_nil hyz).resolve_right id⟩
  exact hclosed.reached hx

end Tricolour
end GcLib.Support
