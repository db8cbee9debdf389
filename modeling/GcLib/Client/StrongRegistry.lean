import GcLib.Client.StrongHandles
import GcLib.Client.WeakRegistry

/-! # Parts of the roots

A root at rest holds a pointer into a registered block, or null, and its range is registered. An
operation in progress also holds words that are no roots, and pointers in the hand of a thread.
-/

namespace GcLib.Client
open GcLib.Heap GcLib.Support GcLib.Protocol

/-! ## Slots -/

section
variable {a b : Slot}

theorem Slot.address_injective : Function.Injective Slot.address := by
  rintro ⟨a,_,_⟩ ⟨b,_,_⟩ rfl
  rfl

theorem Slot.readWord_writeWord_ne (memory : Memory) (value : ℕ) (h : a ≠ b) :
    readWord (writeWord memory a.address value) b.address = readWord memory b.address :=
  readWord_writeWord_aligned memory a.aligned b.aligned fun he => h (Slot.address_injective he)

theorem Slot.range_eq (slot : Slot) : slot.range = ⟨slot.address,slot.address+wordSize⟩ :=
  if_neg (Nat.not_lt.mpr (Nat.le_add_right ..))

theorem Slot.range_injective : Function.Injective Slot.range := by
  intro a b h
  rw [Slot.range_eq, Slot.range_eq] at h
  exact Slot.address_injective (RootRange.mk.inj h).1

theorem Slot.range_nonempty (slot : Slot) :
    ¬ emptyRange slot.address (slot.address+wordSize) := by
  have h := slot.address_ne
  simp only [emptyRange, wordSize]
  omega

end

/-! ## Values -/

section
variable {w w' : World} {label : Label} {origin : Origin} {value : Option Origin} {s s' : State}

theorem Origin.Live.pointer_lt (h : origin.Live w.state) (hr : ReachableWorld w) :
    origin.pointer < addressLimit := by
  obtain ⟨b,hb,hcontains,-⟩ := h
  have hbounds := hr.invariant.heap.payload_bounds hb
  have := hcontains.2
  omega

theorem Origin.Live.known (h : origin.Live w.state) (hr : ReachableWorld w) : origin.Known w := by
  have hlt := h.pointer_lt hr
  obtain ⟨b,hb,hcontains,hserial⟩ := h
  refine ⟨hr.registered_of_live (live_iff.mpr ⟨b,hb,hserial⟩),fun b' hb' hserial' => ?_,?_,hlt⟩
  · rwa [hr.live_unique hb' hb (hserial'.trans hserial.symm)]
  · have hbounds := hr.invariant.heap.payload_bounds hb
    have := hcontains.1
    unfold chunkHeaderSize at hbounds
    omega

theorem Origin.Live.congr (h : origin.Live s) (ha : s'.allocations = s.allocations)
    (hs : SameChunks s s') : origin.Live s' := by
  obtain ⟨b,hb,hcontains,hserial⟩ := h
  exact ⟨b,ha ▸ hb,hcontains,(hs.serial _).trans hserial⟩

theorem Origin.Live.step (h : origin.Live w.state) (hr : ReachableWorld w)
    (hstep : Protocol.step label w = some w')
    (hkept : ∀ b ∈ w.state.allocations.values, b.Contains origin.pointer →
      w'.state.live (w.state.serial b.header) = true) : origin.Live w'.state := by
  have hknown := (h.known hr).step hr hstep
  obtain ⟨b,hb,hcontains,hserial⟩ := h
  have hlive := hkept b hb hcontains
  rw [hserial] at hlive
  obtain ⟨b',hb',hserial'⟩ := live_iff.mp hlive
  exact ⟨b',hb',hknown.contains b' hb' hserial',hserial'⟩

theorem pointerOf_lt (h : ∀ origin ∈ value, origin.Live w.state) (hr : ReachableWorld w) :
    pointerOf value < addressLimit := by
  cases value with
  | none => norm_num [pointerOf, addressLimit]
  | some origin => exact (h origin rfl).pointer_lt hr

end

/-! ## Parts -/

/-- A root, a word that is none, or a pointer in the hand of a thread. -/
inductive StrongPart where
  | linked (handle : StrongHandle)
  | holds (slot : Slot) (word : ℕ)
  | loose (slot : Slot)
  | inHand (thread : ThreadId) (origin : Origin)

/-- A registered word, with a pointer into a registered block or null. -/
structure Rooted (s : State) (handle : StrongHandle) : Prop where
  word : readWord s.memory handle.slot.address = pointerOf handle.origin
  range : handle.slot.range ∈ s.registeredRootRanges
  live : ∀ origin ∈ handle.origin, origin.Live s

namespace StrongPart

def slot : StrongPart → Option Slot
  | linked handle => some handle.slot
  | holds slot _ => some slot
  | loose slot => some slot
  | inHand _ _ => none

def origin : StrongPart → Option Origin
  | linked handle => handle.origin
  | inHand _ origin => some origin
  | _ => none

def thread : StrongPart → Option ThreadId
  | inHand thread _ => some thread
  | _ => none

def Holds (s : State) : StrongPart → Prop
  | linked handle => Rooted s handle
  | holds slot word => readWord s.memory slot.address = word
  | loose _ => True
  | inHand thread origin => origin.Live s ∧ Unparked s thread

/-- A part that keeps no range. -/
def Spent : StrongPart → Prop
  | linked _ => False
  | _ => True

end StrongPart

/-- The parts hold, and their words are apart. -/
structure StrongRegistry (w : World) (parts : List StrongPart) : Prop where
  holds : ∀ part ∈ parts, part.Holds w.state
  apart : (parts.filterMap StrongPart.slot).Nodup

section
variable {w w' : World} {parts parts' others : List StrongPart} {part new : StrongPart}
  {s s' : State} {slot : Slot} {origin : Origin} {label : Label}

theorem StrongPart.Holds.live (h : part.Holds s) (ho : part.origin = some origin) :
    origin.Live s := by
  cases part with
  | linked handle => exact h.live origin ho
  | inHand thread value =>
    obtain rfl := Option.some.inj ho
    exact h.1
  | _ => cases ho

theorem slots_cons (part : StrongPart) (h : part.slot = some slot) :
    (part :: parts).filterMap StrongPart.slot = slot :: parts.filterMap StrongPart.slot :=
  List.filterMap_cons_some h

/-- A part stays as it is while its word, the ranges, the blocks and the threads do. -/
theorem StrongPart.Holds.congr (h : part.Holds s) (ha : s'.allocations = s.allocations)
    (hs : SameChunks s s') (hthreads : ∀ thread, part.thread = some thread →
      (Unparked s thread → Unparked s' thread))
    (hranges : ∀ slot, part.slot = some slot → slot.range ∈ s.registeredRootRanges →
      slot.range ∈ s'.registeredRootRanges)
    (hword : ∀ slot, part.slot = some slot →
      readWord s'.memory slot.address = readWord s.memory slot.address) : part.Holds s' := by
  cases part with
  | linked handle =>
    refine ⟨(hword _ rfl).trans h.word,hranges _ rfl h.range,fun origin ho => ?_⟩
    exact (h.live ho).congr ha hs
  | holds slot word => exact (hword _ rfl).trans h
  | loose slot => trivial
  | inHand thread origin => exact ⟨h.1.congr ha hs,hthreads _ rfl h.2⟩

namespace StrongRegistry

theorem perm (h : StrongRegistry w parts) (hperm : parts.Perm parts') : StrongRegistry w parts' where
  holds part hpart := h.holds part (hperm.mem_iff.mpr hpart)
  apart := (hperm.filterMap _).nodup_iff.mp h.apart

theorem congr (h : StrongRegistry w parts) (hstate : w'.state = w.state) :
    StrongRegistry w' parts where
  holds part hpart := hstate ▸ h.holds part hpart
  apart := h.apart

theorem slot_ne {rest : List StrongPart} (h : StrongRegistry w (part :: rest))
    (hpart : part.slot = some slot) {other : StrongPart} (hother : other ∈ rest) {slot' : Slot}
    (hslot : other.slot = some slot') : slot ≠ slot' := by
  rintro rfl
  have hnodup := h.apart
  rw [slots_cons part hpart, List.nodup_cons] at hnodup
  exact hnodup.1 (List.mem_filterMap.mpr ⟨other,hother,hslot⟩)

/-- A step that is about the word of one part. -/
theorem replace {rest : List StrongPart} (h : StrongRegistry w (part :: rest))
    (hpart : part.slot = some slot) (hnew : new.slot = some slot) (hholds : new.Holds w'.state)
    (hrest : ∀ other ∈ rest, (∀ slot', other.slot = some slot' → slot ≠ slot') →
      other.Holds w.state → other.Holds w'.state) : StrongRegistry w' (new :: rest) where
  holds other hother := by
    rcases List.mem_cons.mp hother with rfl | hmem
    · exact hholds
    · exact hrest other hmem (fun slot' hslot => h.slot_ne hpart hmem hslot)
        (h.holds other (List.mem_cons_of_mem _ hmem))
  apart := by
    have hnodup := h.apart
    rwa [slots_cons part hpart, ← slots_cons new hnew] at hnodup

theorem spent {spent : List StrongPart} (h : StrongRegistry w (spent ++ parts)) :
    StrongRegistry w parts where
  holds part hpart := h.holds part (List.mem_append_right _ hpart)
  apart := by
    have hnodup := h.apart
    rw [List.filterMap_append] at hnodup
    exact hnodup.of_append_right

theorem fresh {slots : List Slot} {hands : List Origin} {thread : ThreadId} (h : StrongRegistry w parts)
    (hnodup : slots.Nodup) (hfresh : ∀ slot ∈ slots, slot ∉ parts.filterMap StrongPart.slot)
    (hhands : ∀ origin ∈ hands, origin.Live w.state ∧ Unparked w.state thread) :
    StrongRegistry w (slots.map .loose ++ hands.map (.inHand thread) ++ parts) where
  holds part hpart := by
    rcases List.mem_append.mp hpart with hpart | hpart
    · rcases List.mem_append.mp hpart with hpart | hpart
      · obtain ⟨slot,-,rfl⟩ := List.mem_map.mp hpart
        trivial
      · obtain ⟨origin,horigin,rfl⟩ := List.mem_map.mp hpart
        exact hhands origin horigin
    · exact h.holds part hpart
  apart := by
    have hslots : (slots.map StrongPart.loose).filterMap StrongPart.slot = slots := by
      rw [List.filterMap_map]
      exact List.filterMap_some
    have hnone : (hands.map (StrongPart.inHand thread)).filterMap StrongPart.slot = [] := by
      rw [List.filterMap_map]
      exact List.filterMap_eq_nil_iff.mpr fun _ _ => rfl
    rw [List.filterMap_append, List.filterMap_append, hslots, hnone, List.append_nil]
    refine List.nodup_append.mpr ⟨hnodup,h.apart,?_⟩
    rintro a ha b hb rfl
    exact hfresh a ha hb

end StrongRegistry

/-! ## Steps outside the operations -/

theorem SparesRoot.readWord (h : SparesRoot slot label w) (hr : ReachableWorld w)
    (hstep : step label w = some w') :
    readWord w'.state.memory slot.address = readWord w.state.memory slot.address := by
  refine Memory.readBytes_congr fun x hx hx' => ?_
  cases hr.byteChange hstep x with
  | same hsame => exact hsame
  | stored hl =>
    have := h.word.stores _ _ _ hl
    omega
  | expired hin =>
    obtain ⟨entry,he,-,hentry⟩ := hin
    have := h.word.handles entry he
    omega
  | handle hc hs hin =>
    have := h.word.calls _ _ _ hc _ hs
    omega
  | cleared hc hin =>
    have := h.blocks _ _ _ _ hc
    omega

theorem SparesRoot.range_mem (h : SparesRoot slot label w) (hr : ReachableWorld w)
    (hstep : step label w = some w') (hmem : slot.range ∈ w.state.registeredRootRanges) :
    slot.range ∈ w'.state.registeredRootRanges := by
  cases hr.rangeChange hstep with
  | same hsame => rwa [hsame]
  | publishes hc hranges =>
    rw [hranges]
    exact List.mem_append_left _ hmem
  | erases hc hranges =>
    rw [hranges, List.mem_erase_of_ne (h.range _ _ _ _ hc).symm]
    exact hmem

/-- A collection keeps the blocks of the roots, and no collection overtakes a hand. -/
theorem StrongRegistry.outside (h : StrongRegistry w parts) (hr : ReachableWorld w)
    (hstep : step label w = some w')
    (hroots : ∀ slot ∈ parts.filterMap StrongPart.slot, SparesRoot slot label w)
    (hblocks : ∀ origin ∈ parts.filterMap StrongPart.origin, ∀ b ∈ w.state.allocations.values,
      b.Contains origin.pointer → SparesBlock b label w)
    (hthreads : ∀ thread ∈ parts.filterMap StrongPart.thread, thread ≠ label.thread) :
    StrongRegistry w' parts where
  holds part hpart := by
    have hholds := h.holds part hpart
    have hroot : ∀ slot, part.slot = some slot → SparesRoot slot label w := fun slot hslot =>
      hroots slot (List.mem_filterMap.mpr ⟨part,hpart,hslot⟩)
    have hblock : ∀ origin, part.origin = some origin → ∀ b ∈ w.state.allocations.values,
        b.Contains origin.pointer → SparesBlock b label w := fun origin ho =>
      hblocks origin (List.mem_filterMap.mpr ⟨part,hpart,ho⟩)
    cases part with
    | linked handle =>
      have hspares := hroot _ rfl
      refine ⟨(hspares.readWord hr hstep).trans hholds.word,
        hspares.range_mem hr hstep hholds.range,fun origin ho => ?_⟩
      refine (hholds.live ho).step hr hstep fun b hb hcontains => ?_
      refine hr.rooted hstep hb (hblock origin ho b hb hcontains) ?_
      refine rootsInto_of_word handle.slot.address_ne handle.slot.aligned hholds.range ?_
      rw [hholds.word, Option.mem_def.mp ho]
      exact hcontains
    | holds slot word => exact ((hroot _ rfl).readWord hr hstep).trans hholds
    | loose slot => trivial
    | inHand thread origin =>
      have hne : thread ≠ label.thread :=
        hthreads _ (List.mem_filterMap.mpr ⟨_,hpart,rfl⟩)
      refine ⟨hholds.1.step hr hstep fun b hb hcontains => ?_,?_⟩
      · exact hr.in_hand hstep hb (hblock _ rfl b hb hcontains) hne hholds.2
      · exact (unparked_congr (hr.record hstep hne)).mpr hholds.2
  apart := h.apart

end
end GcLib.Client
