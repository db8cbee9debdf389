import GcLib.Heap.ReferenceGraph
import GcLib.Protocol.Expiry
import GcLib.Support.ObjectStore

/-! # The manager as a store of objects

Registered blocks are the objects, and the number of a block is its identity. Whatever the threads
do, each of their steps is an operation of the store, and most of them are none at all.
-/

namespace GcLib.Protocol
open GcLib.Heap GcLib.Support

/-- A managed object: the number of its block, and where the payload lies. -/
structure ManagedObject where
  serial : ℕ
  begin_ : ℕ
  end_ : ℕ

def managedLayout : ObjectLayout ManagedObject where
  identity := ManagedObject.serial
  owns o x := o.begin_ ≤ x ∧ x < o.end_
  words memory o := {word | ∃ x ∈ alignedWords o.begin_ o.end_, word = readWord memory x}
  width := wordSize

def objectOf (s : State) (b : BlockRecord) : ManagedObject :=
  ⟨s.serial b.header,b.payloadBegin,b.payloadEnd⟩

def storeOf (s : State) (born : Set ℕ) : Store ManagedObject where
  live := {o | ∃ b ∈ s.allocations.values, objectOf s b = o}
  pinned := {o | ∃ b ∈ s.allocations.values, b.constructing = true ∧ objectOf s b = o}
  born := born
  handles := {handle | ⟨handle.target,handle.storage⟩ ∈ s.weakRefs}
  contents := s.memory

/-- The store that a world stands for. -/
def World.store (w : World) : Store ManagedObject :=
  storeOf w.state {serial | .registered serial ∈ w.log}

section
variable {s s' : State} {born : Set ℕ} {dead : List BlockRecord} {b b' : BlockRecord}

theorem storeOf_congr (born : Set ℕ) (ha : s'.allocations = s.allocations)
    (hw : s'.weakRefs = s.weakRefs)
    (hm : s'.memory = s.memory)
    (hserial : ∀ b ∈ s.allocations.values, s'.serial b.header = s.serial b.header) :
    storeOf s' born = storeOf s born := by
  have hobject : ∀ b ∈ s.allocations.values, objectOf s' b = objectOf s b := by
    intro b hb
    rw [objectOf, objectOf, hserial b hb]
  unfold storeOf
  congr 1
  · ext o
    rw [Set.mem_ofPred_eq, Set.mem_ofPred_eq, ha]
    exact exists_congr fun b => and_congr_right fun hb => by rw [hobject b hb]
  · ext o
    rw [Set.mem_ofPred_eq, Set.mem_ofPred_eq, ha]
    exact exists_congr fun b => and_congr_right fun hb => by rw [hobject b hb]
  · rw [hw]

/-- Blocks have payloads of their own. -/
theorem objectOf_inj (hinv : HeapInvariant s) (hb : b ∈ s.allocations.values)
    (hb' : b' ∈ s.allocations.values) (h : objectOf s b = objectOf s b') : b = b' :=
  hinv.payloadBegin_inj hb hb' (ManagedObject.mk.inj h).2.1

theorem objectOf_live (hb : b ∈ s.allocations.values) : objectOf s b ∈ (storeOf s born).live :=
  ⟨b,hb,rfl⟩

/-- The objects of the blocks outside a list. -/
def staying (s : State) (dead : List BlockRecord) : Set ManagedObject :=
  {o | ∃ b ∈ s.allocations.values, b ∉ dead ∧ objectOf s b = o}

theorem objectOf_staying (hinv : HeapInvariant s) (hb : b ∈ s.allocations.values) :
    objectOf s b ∈ staying s dead ↔ b ∉ dead := by
  constructor
  · rintro ⟨b',hb',hstays,heq⟩
    rw [← objectOf_inj hinv hb' hb heq]
    exact hstays
  · exact fun hstays => ⟨b,hb,hstays,rfl⟩

/-- A handle dangles when its entry refers into a block that goes. -/
theorem dangles_iff (hinv : HeapInvariant s) (hdead : ∀ b ∈ dead, b ∈ s.allocations.values)
    (handle : Handle) : (storeOf s born).Dangles managedLayout (staying s dead) handle ↔
      ⟨handle.target,handle.storage⟩ ∈ s.weakRefs ∧
        WeakRefEntry.Targets ⟨handle.target,handle.storage⟩ dead := by
  apply and_congr_right
  intro _
  constructor
  · rintro ⟨o,⟨b,hb,rfl⟩,hgone,howns⟩
    rw [objectOf_staying hinv hb, not_not] at hgone
    exact ⟨b,hgone,howns⟩
  · rintro ⟨b,hb,hcontains⟩
    refine ⟨objectOf s b,objectOf_live (hdead b hb),?_,hcontains⟩
    rw [objectOf_staying hinv (hdead b hb), not_not]
    exact hb

/-- Removing blocks from the registry shrinks the store. -/
theorem shrinks_of_removed (born : Set ℕ) (hinv : HeapInvariant s) (hr : Removed s dead s')
    (hdead : ∀ b ∈ dead, b ∈ s.allocations.values) :
    (storeOf s born).Shrinks managedLayout (staying s dead) (storeOf s' born) := by
  have hobject : ∀ b, objectOf s' b = objectOf s b := by
    intro b
    simp only [objectOf, State.serial, hr.chunks]
  have hmem : ∀ b, b ∈ s'.allocations.values ↔ b ∈ s.allocations.values ∧ b ∉ dead :=
    fun b => hr.mem_values hinv hdead
  constructor
  · ext o
    constructor
    · rintro ⟨b,hb,rfl⟩
      obtain ⟨hold,hstays⟩ := (hmem b).mp hb
      exact ⟨b,hold,hstays,(hobject b).symm⟩
    · rintro ⟨b,hold,hstays,rfl⟩
      exact ⟨b,(hmem b).mpr ⟨hold,hstays⟩,hobject b⟩
  · ext o
    constructor
    · rintro ⟨b,hb,hc,rfl⟩
      obtain ⟨hold,hstays⟩ := (hmem b).mp hb
      exact ⟨⟨b,hold,hc,(hobject b).symm⟩,⟨b,hold,hstays,(hobject b).symm⟩⟩
    · rintro ⟨⟨b,hold,hc,rfl⟩,hstays⟩
      rw [objectOf_staying hinv hold] at hstays
      exact ⟨b,(hmem b).mpr ⟨hold,hstays⟩,hc,hobject b⟩
  · rfl
  · ext handle
    rw [Set.mem_ofPred_eq, dangles_iff hinv hdead]
    change _ ∈ s'.weakRefs ↔ _
    rw [hr.weakRefs, List.mem_filter, decide_eq_true_eq]
    exact and_congr_right fun hentry => not_congr ⟨fun h => ⟨hentry,h⟩,fun h => h.2⟩
  · intro handle hdangles hne x hx
    obtain ⟨hentry,htargets⟩ := (dangles_iff hinv hdead handle).mp hdangles
    change s'.memory x = 0
    rw [hr.memory, if_pos]
    exact ⟨_,hentry,htargets,hx⟩
  · intro x hx
    change s'.memory x = s.memory x
    rw [hr.memory, if_neg]
    rintro ⟨entry,hentry,htargets,hword⟩
    exact hx ⟨entry.target,entry.storage⟩ ((dangles_iff hinv hdead _).mpr ⟨hentry,htargets⟩) hword

/-- A collection keeps the objects that the roots lead to. -/
theorem retained_iff_kept {collector : ThreadId} {env : ScanEnvironment} {o : ManagedObject}
    (hinv : HeapInvariant s) :
    o ∈ (storeOf s born).Kept managedLayout {word | RootWord s collector env word} ↔
      ∃ b, Retained s collector env b ∧ objectOf s b = o := by
  constructor
  · rintro ⟨root,⟨⟨b,hb,rfl⟩,hroot⟩,hreaches⟩
    have hstart : MarkRoot s collector env b := by
      refine ⟨hb,hroot.imp ?_ id⟩
      rintro ⟨b',hb',hc,heq⟩
      rwa [← objectOf_inj hinv hb' hb heq]
    induction hreaches with
    | refl => exact ⟨b,.of_root hstart,rfl⟩
    | tail _ hrefers ih =>
      obtain ⟨u,hu,rfl⟩ := ih
      obtain ⟨⟨v,hv,rfl⟩,word,⟨x,hx,rfl⟩,howns⟩ := hrefers
      exact ⟨v,hu.step ⟨hv,x,hx,howns⟩,rfl⟩
  · rintro ⟨b,⟨root,⟨hroot,hmark⟩,hreaches⟩,rfl⟩
    have hstart : objectOf s root ∈
        (storeOf s born).Kept managedLayout {word | RootWord s collector env word} := by
      apply Reached.of_root
      exact ⟨objectOf_live hroot,hmark.imp (fun hc => ⟨root,hroot,hc,rfl⟩) id⟩
    clear hmark
    induction hreaches with
    | refl => exact hstart
    | tail _ hrefers ih =>
      obtain ⟨hv,x,hx,hcontains⟩ := hrefers
      exact Reached.step ih ⟨objectOf_live hv,_,⟨x,hx,rfl⟩,hcontains⟩

end
end GcLib.Protocol
