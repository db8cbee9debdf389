import GcLib.Client.RootLedger
import GcLib.Client.StrongRegistry

/-! # The ledger of strong handles

A root may take over a value that some part has: another root, or the hand of the thread. The
range of a new root is published before its thread can park, and only then the hand is forgotten.
-/

namespace GcLib.Client
open GcLib.Heap GcLib.Support GcLib.Protocol

/-- The value is null, or some part has it. -/
def Sourced (value : Option Origin) (parts : List StrongPart) : Prop :=
  ∀ origin ∈ value, ∃ part ∈ parts, part.origin = some origin

/-- No part depends on where its thread is. -/
def Restful (parts : List StrongPart) : Prop := ∀ part ∈ parts, part.thread = none

/-- A registration past its start has published the range of its root already. -/
def strongCallRule (c : Call) (stage : Stage) (held borrowed : List StrongPart)
    (post : CallRecord → List StrongPart → Prop) : Prop :=
  match c with
  | .registerRootRange begin_ end_ =>
    if stage = .enter then
      ∃ (slot : Slot) (value : Option Origin) (hands rest : List StrongPart),
        begin_ = slot.address ∧ end_ = slot.address+wordSize ∧
        held.Perm (.holds slot (pointerOf value) :: (hands ++ rest)) ∧
        (∀ part ∈ hands, part.Spent) ∧ Restful rest ∧ Sourced value (hands ++ rest ++ borrowed) ∧
        (∀ before, post ⟨c,before,.ok .unit⟩ (.linked ⟨slot,value⟩ :: rest)) ∧
        ∀ before e, post ⟨c,before,.error e⟩ held
    else Restful held ∧ ∀ before, post ⟨c,before,.ok .unit⟩ held
  | .unregisterRootRange begin_ end_ =>
    Restful held ∧ ∃ (handle : StrongHandle) (rest : List StrongPart),
      begin_ = handle.slot.address ∧ end_ = handle.slot.address+wordSize ∧
      held.Perm (.linked handle :: rest) ∧
      ∀ before, post ⟨c,before,.ok .unit⟩ (.loose handle.slot :: rest)
  | _ => False

def strongLoadRule (address : ℕ) (held borrowed : List StrongPart)
    (post : ℕ → List StrongPart → Prop) : Prop :=
  ∃ handle : StrongHandle, address = handle.slot.address ∧ .linked handle ∈ held ++ borrowed ∧
    post (pointerOf handle.origin) held

/-- What a store of a value makes of a part. -/
inductive StrongStore (value : Option Origin) : StrongPart → StrongPart → Prop where
  | word (slot : Slot) : StrongStore value (.loose slot) (.holds slot (pointerOf value))
  | root (handle : StrongHandle) :
      StrongStore value (.linked handle) (.linked ⟨handle.slot,value⟩)

def strongStoreRule (address word : ℕ) (held borrowed : List StrongPart)
    (post : List StrongPart → Prop) : Prop :=
  ∃ (slot : Slot) (value : Option Origin) (part new : StrongPart) (rest : List StrongPart),
    address = slot.address ∧ word = pointerOf value ∧ part.slot = some slot ∧
    StrongStore value part new ∧ held.Perm (part :: rest) ∧ Sourced value (held ++ borrowed) ∧
    post (new :: rest)

def strongLedger : Ledger strongInterface StrongPart where
  owned handle := [.linked handle]
  fresh thread operation := (StrongOperation.constructs operation).map .loose ++
    (StrongOperation.hands operation).map (.inHand thread)
  Spent := StrongPart.Spent
  Concerns thread operation part :=
    (∀ slot, part.slot = some slot → slot ∈ StrongOperation.slots operation) ∧
    (∀ origin, part.origin = some origin → origin ∈ StrongOperation.origins operation) ∧
    ∀ other, part.thread = some other → other = thread
  Registry := StrongRegistry
  CallRule := strongCallRule
  LoadRule := strongLoadRule
  StoreRule := strongStoreRule

/-! ## The rules are those of the manager -/

section
variable {w w' : World} {held others borrowed rest parts : List StrongPart} {part new : StrongPart}
  {value : Option Origin} {slot : Slot} {thread : ThreadId}

theorem StrongStore.slot_eq {old : StrongPart} (h : StrongStore value old new) :
    new.slot = old.slot := by
  cases h <;> rfl

theorem StrongRegistry.live_of_sourced (h : StrongRegistry w (held ++ others))
    (hborrowed : ∀ part ∈ borrowed, part ∈ others) (hsourced : Sourced value (held ++ borrowed)) :
    ∀ origin ∈ value, origin.Live w.state := by
  intro origin ho
  obtain ⟨part,hpart,hvalue⟩ := hsourced origin ho
  refine (h.holds part ?_).live hvalue
  rcases List.mem_append.mp hpart with hheld | hmem
  · exact List.mem_append_left _ hheld
  · exact List.mem_append_right _ (hborrowed part hmem)

/-- A part that stands for no thread, or for another one, is kept by a call on root ranges. -/
theorem StrongPart.Holds.rangeCall {label : Label} (h : part.Holds w.state)
    (hr : ReachableWorld w) (hstep : Protocol.step label w = some w') (hs : SameHeap w.state w'.state)
    (hthread : ∀ thread, part.thread = some thread → thread ≠ label.thread)
    (hranges : ∀ slot, part.slot = some slot → slot.range ∈ w.state.registeredRootRanges →
      slot.range ∈ w'.state.registeredRootRanges) : part.Holds w'.state := by
  refine h.congr hs.allocations hs.sameChunks (fun thread ht hunparked => ?_) hranges fun _ _ => ?_
  · exact (unparked_congr (hr.record hstep (hthread thread ht))).mpr hunparked
  · rw [hs.memory]

theorem foreign_thread (h : strongLedger.Foreign thread part) {other : ThreadId}
    (ht : part.thread = some other) : other ≠ thread := by
  rcases h with ⟨handle,hmem⟩ | ⟨t,operation,hne,-,-,hconcerns⟩
  · obtain rfl := List.mem_singleton.mp hmem
    cases ht
  · rw [hconcerns other ht]
    exact hne

theorem StrongRegistry.publish {label : Label}
    (h : StrongRegistry w (.holds slot (pointerOf value) :: parts))
    (hr : ReachableWorld w) (hstep : step label w = some w') (hs : SameHeap w.state w'.state)
    (hthreads : ∀ part ∈ parts, ∀ thread, part.thread = some thread → thread ≠ label.thread)
    (hlive : ∀ origin ∈ value, origin.Live w.state)
    (hranges : w'.state.registeredRootRanges = w.state.registeredRootRanges ++ [slot.range]) :
    StrongRegistry w' (.linked ⟨slot,value⟩ :: parts) := by
  have hword := h.holds _ List.mem_cons_self
  refine h.replace rfl rfl ⟨?_,?_,fun origin ho => ?_⟩ fun other hother _ hholds => ?_
  · rw [hs.memory]
    exact hword
  · rw [hranges]
    exact List.mem_append_right _ (List.mem_singleton_self _)
  · exact (hlive origin ho).congr hs.allocations hs.sameChunks
  · refine hholds.rangeCall hr hstep hs (hthreads other hother) fun slot' _ hmem => ?_
    rw [hranges]
    exact List.mem_append_left _ hmem

theorem StrongRegistry.erase {label : Label} {handle : StrongHandle}
    (h : StrongRegistry w (.linked handle :: parts)) (hr : ReachableWorld w)
    (hstep : step label w = some w') (hs : SameHeap w.state w'.state)
    (hthreads : ∀ part ∈ parts, ∀ thread, part.thread = some thread → thread ≠ label.thread)
    (hranges : w'.state.registeredRootRanges =
      w.state.registeredRootRanges.erase handle.slot.range) :
    StrongRegistry w' (.loose handle.slot :: parts) := by
  refine h.replace rfl rfl trivial fun other hother hne hholds => ?_
  refine hholds.rangeCall hr hstep hs (hthreads other hother) fun slot hslot hmem => ?_
  rw [hranges, List.mem_erase_of_ne fun he => hne slot hslot (Slot.range_injective he).symm]
  exact hmem

theorem StrongRegistry.waits {label : Label} (h : StrongRegistry w parts) (hr : ReachableWorld w)
    (hstep : step label w = some w') (hs : SameHeap w.state w'.state)
    (hthreads : ∀ part ∈ parts, ∀ thread, part.thread = some thread → thread ≠ label.thread)
    (hranges : w'.state.registeredRootRanges = w.state.registeredRootRanges) :
    StrongRegistry w' parts where
  holds part hpart := (h.holds part hpart).rangeCall hr hstep hs (hthreads part hpart)
    fun _ _ hmem => hranges ▸ hmem
  apart := h.apart

/-- A store of a value that some part has. -/
theorem StrongRegistry.store (h : StrongRegistry w (part :: parts)) (hr : ReachableWorld w)
    (hpart : part.slot = some slot) (hstore : StrongStore value part new)
    (hlive : ∀ origin ∈ value, origin.Live w.state) :
    StrongRegistry (w.setState { w.state with
      memory := writeWord w.state.memory slot.address (pointerOf value) }) (new :: parts) := by
  have hword : readWord (writeWord w.state.memory slot.address (pointerOf value)) slot.address =
      pointerOf value := readWord_writeWord _ (pointerOf_lt hlive hr)
  have hholds := h.holds _ List.mem_cons_self
  refine h.replace hpart (hstore.slot_eq.trans hpart) ?_ fun other _ hne hother => ?_
  · cases hstore with
    | word =>
      cases hpart
      exact hword
    | root handle =>
      cases hpart
      exact ⟨hword,hholds.range,fun origin ho => (hlive origin ho).congr rfl ⟨rfl,rfl⟩⟩
  · refine hother.congr rfl ⟨rfl,rfl⟩ (fun _ _ h => h) (fun _ _ h => h) fun slot' hslot => ?_
    exact Slot.readWord_writeWord_ne _ _ (hne slot' hslot)

end
end GcLib.Client
