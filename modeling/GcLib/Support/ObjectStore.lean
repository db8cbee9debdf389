import GcLib.Support.Memory
import GcLib.Support.Simulation
import GcLib.Support.Tricolour

/-! # A store of objects

What a tracing collector is for. Objects own bytes of one memory. An object comes to life apart
from all others, with cleared bytes, and never comes back. A collection keeps the objects that the
roots lead to, and with the others go the weak handles into them. Which bytes an object owns, and
which words it holds, is up to the layout.
-/

namespace GcLib.Support

structure ObjectLayout (α : Type*) where
  identity : α → ℕ
  owns : α → ℕ → Prop
  words : Memory → α → Set ℕ
  /-- The bytes of a weak handle. -/
  width : ℕ

structure Handle where
  target : ℕ
  storage : ℕ

@[ext] structure Store (α : Type*) where
  live : Set α
  /-- Objects that no collection takes. -/
  pinned : Set α
  /-- The identities that have been in use. -/
  born : Set ℕ
  handles : Set Handle
  contents : Memory

inductive Operation (α : Type*) where
  | idle
  | write (x : ℕ) (value : UInt8)
  | scratch (region : Set ℕ)
  | allocate (object : α) (pin : Prop)
  | unpin (object : α)
  | point (storages : Set ℕ)
  | collect (roots : Set ℕ)
  | release (object : α)
  | empty

/-- The byte after an operation, if the operation is no more than a write to it. -/
def Operation.written {α : Type*} (x : ℕ) (value : UInt8) : Operation α → UInt8
  | .write y value' => if y = x then value' else value
  | _ => value

section
variable {α : Type*} (L : ObjectLayout α)

namespace ObjectLayout

def Covers (storage x : ℕ) : Prop := storage ≤ x ∧ x < storage+L.width

/-- One object holds a word that points into the other. -/
def Refers (contents : Memory) (o o' : α) : Prop := ∃ word ∈ L.words contents o, L.owns o' word

end ObjectLayout

namespace Store

/-- The objects that the roots and the pinned objects lead to. -/
def Kept (store : Store α) (roots : Set ℕ) : Set α :=
  {o | Reached (fun o => o ∈ store.live ∧ (o ∈ store.pinned ∨ ∃ word ∈ roots, L.owns o word))
    (fun o o' => o' ∈ store.live ∧ L.Refers store.contents o o') o}

/-- The handle points into an object that does not stay. -/
def Dangles (store : Store α) (stay : Set α) (handle : Handle) : Prop :=
  handle ∈ store.handles ∧ ∃ o ∈ store.live, o ∉ stay ∧ L.owns o handle.target

/-- Some objects stay. The others go, with the weak handles into them, which are cleared. -/
structure Shrinks (store : Store α) (stay : Set α) (store' : Store α) : Prop where
  live : store'.live = stay
  pinned : store'.pinned = store.pinned ∩ stay
  born : store'.born = store.born
  handles : store'.handles = {handle ∈ store.handles | ¬ Dangles L store stay handle}
  cleared : ∀ handle, Dangles L store stay handle → handle.storage ≠ 0 →
    ∀ x, L.Covers handle.storage x → store'.contents x = 0
  same : ∀ x, (∀ handle, Dangles L store stay handle → ¬ L.Covers handle.storage x) →
    store'.contents x = store.contents x

inductive Performs (store : Store α) : Operation α → Store α → Prop where
  | idle : Performs store .idle store
  | write (x : ℕ) (value : UInt8) :
      Performs store (.write x value)
        { store with contents := Function.update store.contents x value }
  | scratch {region : Set ℕ} {contents : Memory}
      (hapart : ∀ o ∈ store.live, ∀ x ∈ region, ¬ L.owns o x)
      (hsame : ∀ x, x ∉ region → contents x = store.contents x) :
      Performs store (.scratch region) { store with contents := contents }
  | allocate {o : α} {pin : Prop} {contents : Memory} (hnew : L.identity o ∉ store.born)
      (hapart : ∀ o' ∈ store.live, ∀ x, L.owns o x → ¬ L.owns o' x)
      (hzero : ∀ x, L.owns o x → contents x = 0)
      (hsame : ∀ x, ¬ L.owns o x → contents x = store.contents x) :
      Performs store (.allocate o pin)
        { store with
          live := insert o store.live
          pinned := {o' | o' ∈ store.pinned ∨ pin ∧ o' = o}
          born := insert (L.identity o) store.born
          contents := contents }
  | unpin {o : α} (ho : o ∈ store.live) :
      Performs store (.unpin o) { store with pinned := store.pinned \ {o} }
  | point {storages : Set ℕ} {handles : Set Handle} {contents : Memory}
      (htargets : ∀ handle ∈ handles, (∃ old ∈ store.handles, handle.target = old.target) ∨
        ∃ o ∈ store.live, L.owns o handle.target)
      (hsame : ∀ x, (∀ storage ∈ storages, ¬ L.Covers storage x) →
        contents x = store.contents x) :
      Performs store (.point storages) { store with handles := handles, contents := contents }
  | collect {roots : Set ℕ} {store' : Store α} (h : Shrinks L store (store.Kept L roots) store') :
      Performs store (.collect roots) store'
  | release {o : α} {store' : Store α} (ho : o ∈ store.live)
      (h : Shrinks L store (store.live \ {o}) store') : Performs store (.release o) store'
  | empty {store' : Store α} (hpinned : store.pinned = ∅) (h : Shrinks L store ∅ store') :
      Performs store .empty store'

/-- Objects have identities and bytes of their own, and weak handles point into objects. -/
structure Sound (store : Store α) : Prop where
  pinned : store.pinned ⊆ store.live
  born : ∀ o ∈ store.live, L.identity o ∈ store.born
  unique : ∀ o ∈ store.live, ∀ o' ∈ store.live, L.identity o = L.identity o' → o = o'
  apart : ∀ o ∈ store.live, ∀ o' ∈ store.live, ∀ x, L.owns o x → L.owns o' x → o = o'
  targets : ∀ handle ∈ store.handles, ∃ o ∈ store.live, L.owns o handle.target

/-- No weak handle covers the byte. -/
def Bare (x : ℕ) (operation : Operation α) (store : Store α) : Prop :=
  (∀ handle ∈ store.handles, ¬ L.Covers handle.storage x) ∧
    ∀ storages, operation = .point storages → ∀ storage ∈ storages, ¬ L.Covers storage x

section
variable {L} {store store' : Store α} {operation : Operation α} {stay : Set α}

theorem kept_live {roots : Set ℕ} : store.Kept L roots ⊆ store.live := by
  rintro o ⟨r,hr,ho⟩
  cases ho with
  | refl => exact hr.1
  | tail _ h => exact h.1

/-- The stay may be any part of the live objects. -/
theorem Shrinks.sound (h : Shrinks L store stay store') (hstay : stay ⊆ store.live)
    (hs : store.Sound L) : store'.Sound L where
  pinned := by
    rw [h.pinned, h.live]
    exact Set.inter_subset_right
  born o ho := by
    rw [h.live] at ho
    rw [h.born]
    exact hs.born o (hstay ho)
  unique o ho o' ho' := by
    rw [h.live] at ho ho'
    exact hs.unique o (hstay ho) o' (hstay ho')
  apart o ho o' ho' := by
    rw [h.live] at ho ho'
    exact hs.apart o (hstay ho) o' (hstay ho')
  targets handle hh := by
    rw [h.handles] at hh
    obtain ⟨hold,hstays⟩ := hh
    obtain ⟨o,ho,howns⟩ := hs.targets handle hold
    refine ⟨o,?_,howns⟩
    rw [h.live]
    by_contra hgone
    exact hstays ⟨hold,o,ho,hgone,howns⟩

theorem Performs.sound (h : Performs L store operation store') (hs : store.Sound L) :
    store'.Sound L := by
  cases h with
  | idle => exact hs
  | write | scratch => exact ⟨hs.pinned,hs.born,hs.unique,hs.apart,hs.targets⟩
  | @allocate o pin contents hnew hapart =>
    constructor
    · rintro o' (ho' | ⟨-,rfl⟩)
      · exact Or.inr (hs.pinned ho')
      · exact Or.inl rfl
    · rintro o' (rfl | ho')
      · exact Or.inl rfl
      · exact Or.inr (hs.born o' ho')
    · rintro o₁ (rfl | h₁) o₂ (rfl | h₂) heq
      · rfl
      · exact absurd (heq ▸ hs.born o₂ h₂) hnew
      · exact absurd (heq ▸ hs.born o₁ h₁) hnew
      · exact hs.unique o₁ h₁ o₂ h₂ heq
    · rintro o₁ (rfl | h₁) o₂ (rfl | h₂) x hx hx'
      · rfl
      · exact absurd hx' (hapart o₂ h₂ x hx)
      · exact absurd hx (hapart o₁ h₁ x hx')
      · exact hs.apart o₁ h₁ o₂ h₂ x hx hx'
    · intro handle hh
      obtain ⟨o',ho',howns⟩ := hs.targets handle hh
      exact ⟨o',Or.inr ho',howns⟩
  | unpin => exact ⟨fun _ ho => hs.pinned ho.1,hs.born,hs.unique,hs.apart,hs.targets⟩
  | point htargets =>
    refine ⟨hs.pinned,hs.born,hs.unique,hs.apart,fun handle hh => ?_⟩
    rcases htargets handle hh with ⟨old,hold,heq⟩ | howns
    · rw [heq]
      exact hs.targets old hold
    · exact howns
  | collect h => exact h.sound kept_live hs
  | release ho h => exact h.sound Set.sdiff_subset hs
  | empty hp h => exact h.sound (Set.empty_subset _) hs

/-- Identities in use stay in use. -/
theorem Performs.born (h : Performs L store operation store') : store.born ⊆ store'.born := by
  cases h with
  | allocate => exact Set.subset_insert _ _
  | collect h | release _ h | empty _ h => exact h.born.ge
  | _ => exact Set.Subset.rfl

/-- An object whose identity has been in use was there before. -/
theorem Performs.live_back (h : Performs L store operation store') {o : α} (ho : o ∈ store'.live)
    (hborn : L.identity o ∈ store.born) : o ∈ store.live := by
  cases h with
  | allocate hnew =>
    rcases ho with rfl | ho
    · exact absurd hborn hnew
    · exact ho
  | collect h =>
    rw [h.live] at ho
    exact kept_live ho
  | release _ h =>
    rw [h.live] at ho
    exact ho.1
  | empty _ h =>
    rw [h.live] at ho
    cases ho
  | _ => exact ho

theorem Shrinks.contents (h : Shrinks L store stay store') {x : ℕ}
    (hbare : ∀ handle ∈ store.handles, ¬ L.Covers handle.storage x) :
    store'.contents x = store.contents x :=
  h.same x fun handle hdangles => hbare handle hdangles.1

/-- The bytes of an object change by writes, unless a weak handle covers them. -/
theorem Performs.contents (h : Performs L store operation store') {o : α} (ho : o ∈ store.live)
    {x : ℕ} (hx : L.owns o x) (hbare : Bare L x operation store) :
    store'.contents x = operation.written x (store.contents x) := by
  cases h with
  | idle | unpin => rfl
  | write y value =>
    by_cases he : y = x
    · subst he
      simp [Operation.written]
    · simp [Operation.written, he, Function.update_of_ne (Ne.symm he)]
  | scratch hapart hsame => exact hsame x fun hin => hapart o ho x hin hx
  | allocate _ hapart _ hsame => exact hsame x fun hnew => hapart o ho x hnew hx
  | point _ hsame => exact hsame x (hbare.2 _ rfl)
  | collect h | release _ h | empty _ h => exact h.contents hbare.1

/-- An object comes to life with cleared bytes. -/
theorem Performs.zeroed (h : Performs L store operation store') (hs : store.Sound L) {o : α}
    (ho : o ∈ store'.live) (hnew : L.identity o ∉ store.born) {x : ℕ} (hx : L.owns o x) :
    store'.contents x = 0 := by
  have hold : o ∉ store.live := fun hlive => hnew (hs.born o hlive)
  cases h with
  | allocate _ _ hzero =>
    rcases ho with rfl | ho
    · exact hzero x hx
    · exact absurd ho hold
  | collect h =>
    rw [h.live] at ho
    exact absurd (kept_live ho) hold
  | release _ h =>
    rw [h.live] at ho
    exact absurd ho.1 hold
  | empty _ h =>
    rw [h.live] at ho
    cases ho
  | _ => exact absurd ho hold

/-- One step of a store in which no weak handle covers a byte. -/
def BareStep (L : ObjectLayout α) (x : ℕ) (operation : Operation α) (store store' : Store α) :
    Prop :=
  Bare L x operation store ∧ Performs L store operation store'

/-- Along a run the bytes of an object are those that were last written. -/
theorem contents_along {operations : List (Operation α)} {x : ℕ}
    (h : Along (BareStep L x) operations store store') {o : α} (ho : o ∈ store'.live)
    (hborn : L.identity o ∈ store.born) (hx : L.owns o x) :
    o ∈ store.live ∧ store'.contents x =
      operations.foldl (fun value operation => operation.written x value) (store.contents x) := by
  induction h with
  | nil => exact ⟨ho,rfl⟩
  | cons h _ ih =>
    obtain ⟨hbare,hperforms⟩ := h
    obtain ⟨hmid,hcontents⟩ := ih ho (hperforms.born hborn)
    have hlive := hperforms.live_back hmid hborn
    refine ⟨hlive,?_⟩
    rw [hcontents, hperforms.contents hlive hx hbare, List.foldl_cons]

end
end Store
end
end GcLib.Support
