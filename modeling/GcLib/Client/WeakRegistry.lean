import GcLib.Client.WeakHandles
import GcLib.Protocol.Expiry

/-! # Parts of the weak-reference registry

A handle at rest holds the encoding of what it promotes to, and has an entry as long as that is
not null. An operation in progress also holds words that have no entry, and knows of blocks that
have left the registry. Together these parts make up the registry.
-/

namespace GcLib.Client
open GcLib.Heap GcLib.Support GcLib.Protocol

/-- What a handle with the origin promotes to: the pointer, while its block is registered. -/
def Origin.target (s : State) (origin : Origin) : ℕ :=
  if s.live origin.serial then origin.pointer else 0

def WeakHandle.target (s : State) (handle : WeakHandle) : ℕ :=
  handle.origin.elim 0 (Origin.target s)

/-- The entry of a handle that has not expired. -/
def WeakHandle.entry (s : State) (handle : WeakHandle) : Option WeakRefEntry :=
  if handle.target s = 0 then none else some ⟨handle.target s,handle.storage⟩

/-- The block of an origin was registered, and contained the pointer. -/
structure Origin.Known (w : World) (origin : Origin) : Prop where
  registered : .registered origin.serial ∈ w.log
  contains : ∀ b ∈ w.state.allocations.values, w.state.serial b.header = origin.serial →
    b.Contains origin.pointer
  pointer_ne : origin.pointer ≠ 0
  pointer_lt : origin.pointer < addressLimit

/-- A handle, a word without an entry, or the fact that a block has left the registry. -/
inductive WeakPart where
  | linked (handle : WeakHandle)
  | holds (storage word : ℕ)
  | loose (storage : ℕ)
  | dead (origin : Origin)

namespace WeakPart

def storage : WeakPart → Option ℕ
  | linked handle => some handle.storage
  | holds storage _ => some storage
  | loose storage => some storage
  | dead _ => none

def entry (s : State) : WeakPart → Option WeakRefEntry
  | linked handle => handle.entry s
  | _ => none

def Holds (w : World) : WeakPart → Prop
  | linked handle =>
    readWord w.state.memory handle.storage = encodeWeakPtr (handle.target w.state) ∧
      ∀ origin ∈ handle.origin, origin.Known w
  | holds storage word => readWord w.state.memory storage = word
  | loose _ => True
  | dead origin => origin.Known w ∧ w.state.live origin.serial = false

/-- A part without an entry. -/
def Spent : WeakPart → Prop
  | linked handle => handle.origin = none
  | _ => True

end WeakPart

/-- The entries are those of the parts, whose words are aligned and apart. -/
structure WeakRegistry (w : World) (parts : List WeakPart) : Prop where
  entries : w.state.weakRefs.Perm (parts.filterMap (WeakPart.entry w.state))
  holds : ∀ part ∈ parts, part.Holds w
  apart : (parts.filterMap WeakPart.storage).Nodup
  aligned : ∀ storage ∈ parts.filterMap WeakPart.storage, storage ≠ 0 ∧ storage % wordSize = 0

section
variable {w w' : World} {parts parts' : List WeakPart} {part part' : WeakPart} {s s' : State}
  {handle : WeakHandle} {origin : Origin} {e : WeakRefEntry} {storage : ℕ}

theorem storages_cons (part : WeakPart) (h : part.storage = some storage) :
    (part :: parts).filterMap WeakPart.storage = storage :: parts.filterMap WeakPart.storage :=
  List.filterMap_cons_some h

theorem entries_cons_none (part : WeakPart) (h : part.entry s = none) :
    (part :: parts).filterMap (WeakPart.entry s) = parts.filterMap (WeakPart.entry s) :=
  List.filterMap_cons_none h

theorem WeakPart.Spent.entry (h : part.Spent) : part.entry s = none := by
  cases part with
  | linked handle =>
    have hnone : handle.origin = none := h
    simp [WeakPart.entry, WeakHandle.entry, WeakHandle.target, hnone]
  | _ => rfl

theorem WeakHandle.target_congr (h : ∀ serial, s'.live serial = s.live serial) :
    handle.target s' = handle.target s := by
  unfold WeakHandle.target Origin.target
  simp only [h]

theorem WeakPart.entry_congr (h : ∀ serial, s'.live serial = s.live serial) :
    part.entry s' = part.entry s := by
  cases part with
  | linked handle =>
    change handle.entry s' = handle.entry s
    unfold WeakHandle.entry
    rw [WeakHandle.target_congr h]
  | _ => rfl

theorem Origin.Known.congr (h : origin.Known w)
    (ha : w'.state.allocations = w.state.allocations) (hs : SameChunks w.state w'.state)
    (hl : w'.log = w.log) : origin.Known w' where
  registered := hl ▸ h.registered
  contains b hb hserial := by
    rw [hs.serial] at hserial
    exact h.contains b (ha ▸ hb) hserial
  pointer_ne := h.pointer_ne
  pointer_lt := h.pointer_lt

theorem WeakPart.Holds.congr (h : part.Holds w)
    (ha : w'.state.allocations = w.state.allocations) (hs : SameChunks w.state w'.state)
    (hl : w'.log = w.log) (hword : ∀ storage, part.storage = some storage →
      readWord w'.state.memory storage = readWord w.state.memory storage) : part.Holds w' := by
  have hlive := live_congr ha hs
  cases part with
  | linked handle =>
    obtain ⟨hvalue,hknown⟩ := h
    refine ⟨?_,fun origin ho => (hknown origin ho).congr ha hs hl⟩
    rw [hword _ rfl, hvalue, WeakHandle.target_congr hlive]
  | holds storage word => exact (hword _ rfl).trans h
  | loose storage => trivial
  | dead origin => exact ⟨h.1.congr ha hs hl,(hlive _).trans h.2⟩

theorem readWord_writeWord_aligned (memory : Memory) {a b value : ℕ} (ha : a % wordSize = 0)
    (hb : b % wordSize = 0) (hne : a ≠ b) :
    readWord (writeWord memory a value) b = readWord memory b := by
  refine readWord_writeWord_disjoint memory ?_
  simp only [wordSize] at *
  omega

namespace WeakRegistry

theorem perm (h : WeakRegistry w parts) (hperm : parts.Perm parts') : WeakRegistry w parts' where
  entries := h.entries.trans (hperm.filterMap _)
  holds part hpart := h.holds part (hperm.mem_iff.mpr hpart)
  apart := (hperm.filterMap _).nodup_iff.mp h.apart
  aligned storage hstorage := h.aligned storage ((hperm.filterMap _).mem_iff.mpr hstorage)

theorem congr (h : WeakRegistry w parts) (ha : w'.state.allocations = w.state.allocations)
    (hs : SameChunks w.state w'.state) (hl : w'.log = w.log)
    (hw : w'.state.weakRefs = w.state.weakRefs) (hm : w'.state.memory = w.state.memory) :
    WeakRegistry w' parts where
  entries := by
    rw [hw, List.filterMap_congr fun part _ => WeakPart.entry_congr (live_congr ha hs)]
    exact h.entries
  holds part hpart := (h.holds part hpart).congr ha hs hl fun storage _ => by rw [hm]
  apart := h.apart
  aligned := h.aligned

theorem initial (memory : Memory) : WeakRegistry (.initial memory) [] where
  entries := List.Perm.refl _
  holds := nofun
  apart := List.nodup_nil
  aligned := nofun

theorem unique (h : WeakRegistry w parts) (hpart : part ∈ parts) (hpart' : part' ∈ parts)
    (hs : part.storage = some storage) (hs' : part'.storage = some storage) : part = part' := by
  obtain ⟨rest,hperm⟩ := Session.perm_of_mem hpart
  have hnodup := (h.perm hperm).apart
  rw [storages_cons part hs, List.nodup_cons] at hnodup
  rcases List.mem_cons.mp (hperm.mem_iff.mp hpart') with he | hmem
  · exact he.symm
  · exact absurd (List.mem_filterMap.mpr ⟨part',hmem,hs'⟩) hnodup.1

/-- A step that writes to the words of some parts only, and replaces their entries. -/
theorem update (old new : List WeakPart) {others : List WeakPart}
    (h : WeakRegistry w (old ++ others))
    (ha : w'.state.allocations = w.state.allocations) (hs : SameChunks w.state w'.state)
    (hl : w'.log = w.log)
    (hstorages : (new.filterMap WeakPart.storage).Perm (old.filterMap WeakPart.storage))
    (hnew : ∀ part ∈ new, part.Holds w')
    (hentries : w'.state.weakRefs.Perm
      (new.filterMap (WeakPart.entry w.state) ++ others.filterMap (WeakPart.entry w.state)))
    (hwords : ∀ storage, storage % wordSize = 0 → storage ∉ old.filterMap WeakPart.storage →
      readWord w'.state.memory storage = readWord w.state.memory storage) :
    WeakRegistry w' (new ++ others) where
  entries := by
    rw [List.filterMap_congr fun part _ => WeakPart.entry_congr (live_congr ha hs),
      List.filterMap_append]
    exact hentries
  holds part hpart := by
    rcases List.mem_append.mp hpart with hpart | hpart
    · exact hnew part hpart
    · refine (h.holds part (List.mem_append_right _ hpart)).congr ha hs hl fun storage hstorage => ?_
      have hmem : storage ∈ others.filterMap WeakPart.storage :=
        List.mem_filterMap.mpr ⟨part,hpart,hstorage⟩
      have hall := h.aligned storage (by
        rw [List.filterMap_append]
        exact List.mem_append_right _ hmem)
      refine hwords storage hall.2 fun hold => ?_
      have hnodup := h.apart
      rw [List.filterMap_append, List.nodup_append] at hnodup
      exact hnodup.2.2 storage hold storage hmem rfl
  apart := by
    have hnodup := h.apart
    rw [List.filterMap_append] at hnodup ⊢
    exact (hstorages.append_right _).nodup_iff.mpr hnodup
  aligned storage hstorage := by
    rw [List.filterMap_append] at hstorage
    refine h.aligned storage ?_
    rw [List.filterMap_append]
    exact (hstorages.append_right _).mem_iff.mp hstorage

/-- Parts without entries can be left. -/
theorem spent {spent : List WeakPart} (h : WeakRegistry w (spent ++ parts))
    (hspent : ∀ part ∈ spent, part.Spent) : WeakRegistry w parts where
  entries := by
    have hentries := h.entries
    have hnone : spent.filterMap (WeakPart.entry w.state) = [] :=
      List.filterMap_eq_nil_iff.mpr fun part hpart => (hspent part hpart).entry
    rwa [List.filterMap_append, hnone] at hentries
  holds part hpart := h.holds part (List.mem_append_right _ hpart)
  apart := by
    have hnodup := h.apart
    rw [List.filterMap_append] at hnodup
    exact hnodup.of_append_right
  aligned storage hstorage := by
    refine h.aligned storage ?_
    rw [List.filterMap_append]
    exact List.mem_append_right _ hstorage

theorem fresh {storages : List ℕ} (h : WeakRegistry w parts) (hnodup : storages.Nodup)
    (hfresh : ∀ storage ∈ storages, storage ∉ parts.filterMap WeakPart.storage)
    (haligned : ∀ storage ∈ storages, storage ≠ 0 ∧ storage % wordSize = 0) :
    WeakRegistry w (storages.map .loose ++ parts) := by
  have hstorages : (storages.map WeakPart.loose).filterMap WeakPart.storage = storages := by
    rw [List.filterMap_map]
    exact List.filterMap_some
  have hentries : (storages.map WeakPart.loose).filterMap (WeakPart.entry w.state) = [] := by
    rw [List.filterMap_map]
    exact List.filterMap_eq_nil_iff.mpr fun _ _ => rfl
  refine ⟨?_,fun part hpart => ?_,?_,fun storage hstorage => ?_⟩
  · rw [List.filterMap_append, hentries]
    exact h.entries
  · rcases List.mem_append.mp hpart with hpart | hpart
    · obtain ⟨storage,-,rfl⟩ := List.mem_map.mp hpart
      trivial
    · exact h.holds part hpart
  · rw [List.filterMap_append, hstorages]
    refine List.nodup_append.mpr ⟨hnodup,h.apart,?_⟩
    rintro a ha b hb rfl
    exact hfresh a ha hb
  · rw [List.filterMap_append, hstorages] at hstorage
    rcases List.mem_append.mp hstorage with hstorage | hstorage
    · exact haligned storage hstorage
    · exact h.aligned storage hstorage

end WeakRegistry
end

/-! ## Expiry -/

section
variable {w w' : World} {label : Label} {parts : List WeakPart} {part : WeakPart}
  {origin : Origin} {handle : WeakHandle} {dead : List BlockRecord} {storage : ℕ}

theorem Origin.Known.step (h : origin.Known w) (hr : ReachableWorld w)
    (hstep : Protocol.step label w = some w') : origin.Known w' where
  registered := hr.log_step hstep h.registered
  contains b hb hserial := by
    have hr' : ReachableWorld w' := hr.step hstep
    obtain ⟨chunk,hchunk,hd⟩ := hr'.invariant.heap.described b hb
    have hlive : w'.state.live origin.serial = true := live_iff.mpr ⟨b,hb,hserial⟩
    obtain ⟨old,hold,hserial'⟩ := live_iff.mp (hr.live_back hstep h.registered hlive)
    obtain ⟨chunk',hchunk',hd'⟩ := hr.invariant.heap.described old hold
    have hlt := hr.lifecycle.recorded _ h.registered
    obtain ⟨-,hback⟩ := (hr.move hstep).chunk_of_serial hr.invariant.heap hlt
    rw [State.serial_eq hchunk] at hserial
    rw [State.serial_eq hchunk'] at hserial'
    have hchunk := hback _ _ hchunk hserial
    have hheader := hr.lifecycle.serial_inj _ _ _ _ hchunk hchunk' (hserial.trans hserial'.symm)
    rw [← hheader, hchunk] at hchunk'
    obtain rfl := Option.some.inj hchunk'
    have hbegin := hd.payloadBegin_eq.trans (hheader ▸ hd'.payloadBegin_eq.symm)
    have hend : b.payloadEnd = old.payloadEnd := by
      rw [hd.payloadEnd_eq, hd'.payloadEnd_eq, hbegin]
    have hcontains := h.contains old hold (by
      rw [← hheader, State.serial_eq hchunk]
      exact hserial)
    exact ⟨hbegin ▸ hcontains.1,hend ▸ hcontains.2⟩
  pointer_ne := h.pointer_ne
  pointer_lt := h.pointer_lt

theorem Origin.Known.entry (h : origin.Known w) (s : State) (storage : ℕ) :
    WeakHandle.entry s ⟨storage,some origin⟩ =
      if s.live origin.serial then some ⟨origin.pointer,storage⟩ else none := by
  have htarget : WeakHandle.target s ⟨storage,some origin⟩ = origin.target s := rfl
  have hne := h.pointer_ne
  rw [WeakHandle.entry, htarget, Origin.target]
  by_cases hlive : s.live origin.serial = true
  · simp [hlive, hne]
  · simp [hlive]

end
end GcLib.Client
