import GcLib.Protocol.Batches
import GcLib.Protocol.CallRuns
import GcLib.Protocol.Changes

/-! # What a step writes to memory

User code stores bytes, a handle operation writes its handles, a removed block clears the handles
into it, and a registration clears the payload of its own block. A word inside another block is
left alone by the rest.
-/

namespace GcLib.Protocol
open GcLib.Heap GcLib.Support Relation

/-- The handles an operation may write. -/
def Call.storages : Call → List ℕ
  | .registerWeakRef _ storage => [storage]
  | .copyWeakRef _ newStorage => [newStorage]
  | .updateWeakRef oldStorage newStorage => [oldStorage,newStorage]
  | _ => []

/-- Why a byte may change in a step. -/
inductive ByteChange (label : Label) (w w' : World) (x : ℕ) : Prop where
  | same (h : w'.state.memory x = w.state.memory x)
  | stored {value : UInt8} (hl : label = .user label.thread (.storeByte x value))
  | expired (h : InWordOf w.state.weakRefs (fun _ => True) x)
  | handle {call : Call} {stage : Stage} {rest : List Frame} {storage : ℕ}
      (hc : w.control label.thread = .entering (.call call) stage :: rest)
      (hs : storage ∈ call.storages) (hx : storage ≤ x ∧ x < storage+wordSize)
  | cleared {header : ℕ} {constructing : Bool} {stage : Stage} {rest : List Frame}
      (hc : w.control label.thread = .entering (.publish header constructing) stage :: rest)
      (hx : w.state.payloadBegin header ≤ x ∧
        x < w.state.payloadBegin header+(w.state.header header).size)

section
variable {w w' : World} {label : Label} {x : ℕ}

theorem inWordOf_mono {weakRefs : List WeakRefEntry} {p q : WeakRefEntry → Prop}
    (h : InWordOf weakRefs p x) (hpq : ∀ entry, p entry → q entry) : InWordOf weakRefs q x := by
  obtain ⟨entry,he,hp,hx⟩ := h
  exact ⟨entry,he,hpq entry hp,hx⟩

theorem writeWord_outside {memory : Memory} {storage value : ℕ}
    (h : ¬ (storage ≤ x ∧ x < storage+wordSize)) :
    writeWord memory storage value x = memory x :=
  Memory.writeBytes_outside memory (by omega)

theorem WeakChange.memory {s : State} {call : Call} {weakRefs : List WeakRefEntry}
    {memory : Memory} (h : WeakChange s call weakRefs memory)
    (hx : ∀ storage ∈ call.storages, ¬ (storage ≤ x ∧ x < storage+wordSize)) :
    memory x = s.memory x := by
  cases h with
  | registers | unregisters => rfl
  | registersNothing | copiesNothing | movesNothing =>
    exact writeWord_outside (hx _ (by simp [Call.storages]))
  | copies => exact writeWord_outside (hx _ (by simp [Call.storages]))
  | moves =>
    rw [writeWord_outside (hx _ (by simp [Call.storages])),
      writeWord_outside (hx _ (by simp [Call.storages]))]

theorem shutDown_memory {s : State} (hx : ¬ InWordOf s.weakRefs (fun _ => True) x) :
    s.shutDown.memory x = s.memory x := by
  refine (foldl_writeWord_zero _ s.memory x).trans (if_neg ?_)
  rintro ⟨entry,he,hin⟩
  exact hx ⟨entry,(List.mem_filter.mp he).1,hin⟩

theorem removed_memory_outside {s s' : State} {dead : List BlockRecord} (h : Removed s dead s')
    (hx : ¬ InWordOf s.weakRefs (fun _ => True) x) : s'.memory x = s.memory x := by
  rw [h.memory, if_neg]
  exact fun hin => hx (inWordOf_mono hin fun _ _ => trivial)

/-- A registration clears the payload of its own block. -/
theorem zeroPayload_memory {s : State} {header : ℕ} (hx : ¬ (s.payloadBegin header ≤ x ∧
    x < s.payloadBegin header+(s.header header).size)) :
    (s.zeroPayload header).memory x = s.memory x :=
  Memory.writeBytes_outside s.memory (by omega)

/-- User code changes memory by its stores only. -/
theorem ByteChange.user {thread : ThreadId} {action : Action}
    (hstep : step (.user thread action) w = some w') :
    ByteChange (.user thread action) w w' x := by
  simp only [step] at hstep
  split_ifs at hstep
  cases action with
  | call call =>
    simp only [runAction] at hstep
    split_ifs at hstep
    cases hi : call.immediate with
    | none =>
      rw [hi] at hstep
      cases hstep
      exact .same rfl
    | some result =>
      rw [hi] at hstep
      cases hstep
      exact .same rfl
  | storeByte address value =>
    cases hstep
    by_cases hx : x = address
    · subst hx
      exact .stored rfl
    · exact .same (Function.update_of_ne hx ..)
  | finalizerReturns =>
    simp only [runAction] at hstep
    split at hstep
    · cases hstep
      exact .same rfl
    · cases hstep

/-- A section changes memory in the handles and in the payload that it writes. -/
theorem ByteChange.effect {s : State} {code : Section} {stage : Stage} {rest : List Frame}
    {next : Next} (hc : w.control label.thread = .entering code stage :: rest)
    (hs : SameHeap w.state s) (he : Effect label.thread s code next w'.state) :
    ByteChange label w w' x := by
  have hmemory : s.memory x = w.state.memory x := congrFun hs.memory x
  generalize hw : w'.state = s' at he
  cases he with
  | @publish header constructing hr hm ht =>
    by_cases hx : s.payloadBegin header ≤ x ∧ x < s.payloadBegin header+(s.header header).size
    · simp only [State.payloadBegin, hs.sameChunks.header] at hx
      exact .cleared hc hx
    · refine .same ?_
      rw [hw, ← hmemory]
      exact zeroPayload_memory hx
  | @release payload block hr hf =>
    by_cases hx : InWordOf s.weakRefs (fun _ => True) x
    · exact .expired (hs.weakRefs ▸ hx)
    · refine .same ?_
      rw [hw, ← hmemory]
      exact removed_memory_outside (HeapInvariant.removed_removeBlock s block) hx
  | @weak call weakRefs memory h =>
    by_cases hx : ∃ storage ∈ call.storages, storage ≤ x ∧ x < storage+wordSize
    · obtain ⟨storage,hstorage,hx⟩ := hx
      exact .handle hc hstorage hx
    · refine .same ?_
      rw [hw, ← hmemory]
      exact h.memory fun storage hstorage hin => hx ⟨storage,hstorage,hin⟩
  | _ => exact .same (by rw [hw]; exact hmemory)

theorem ByteChange.window {thread : ThreadId} {env : ScanEnvironment} {call : WindowCall}
    {after : Afterwards} (he : WindowEffect thread env w.state call after w'.state) :
    ByteChange label w w' x := by
  by_cases hx : InWordOf w.state.weakRefs (fun _ => True) x
  · exact .expired hx
  · refine .same ?_
    generalize w'.state = s' at he
    cases he with
    | collect h =>
      have hr := removed_memory_outside h.removed hx
      exact hr
    | shutdown => exact shutDown_memory hx
    | read => rfl

/-- What may change a byte in a step of a reachable world. -/
theorem ReachableWorld.byteChange (h : ReachableWorld w) (hstep : step label w = some w') (x : ℕ) :
    ByteChange label w w' x := by
  cases label with
  | user thread action => exact .user hstep
  | run thread choice =>
    have hnot := run_not_user hstep
    have hheap := h.invariant.heap
    have hprotocol := h.invariant.protocol
    cases step_transition hstep with
    | store address value hu | immediate hi hu | call hw hi hu =>
      rw [show inUserCode (w.control thread) = true from hu] at hnot
      cases hnot
    | runsSection hc hco hrun =>
      have he := effect_of_run hheap hco hrun
      exact .effect hc hco.sameHeap (by rw [proceed_state]; exact he)
    | callThrows hc hco hrun =>
      have hf := failed_of_run hheap hco hrun
      cases hf
      refine .same ?_
      rw [deliver_state]
      exact congrFun hco.sameHeap.memory x
    | publishThrows hc hco hrun =>
      rename_i header constructing stage rest s s' fuel supply e
      have hf := failed_of_run hheap hco hrun
      have hs := hco.sameHeap
      have hmemory : s.memory x = w.state.memory x := congrFun hs.memory x
      by_cases hx : s.payloadBegin header ≤ x ∧ x < s.payloadBegin header+(s.header header).size
      · simp only [State.payloadBegin, hs.sameChunks.header] at hx
        exact .cleared hc hx
      · refine .same ?_
        rw [deliver_state, ← hmemory]
        cases hf with
        | publish => rfl
        | cleared => exact zeroPayload_memory hx
    | windowDestroys hc hp hm hrun | windowReturns hc hp hm hrun =>
      exact .window ((meets_windowBody hheap (hprotocol.rootsInSpace hm) _ _).returns hrun)
    | windowThrows hc hp hm hrun =>
      have he := (meets_windowBody hheap (hprotocol.rootsInSpace hm) _ _).throws hrun
      exact .same (congrFun (congrArg State.memory he.eq :) x)
    | stalls hc hs => exact .same (congrFun hs.sameHeap.memory x)
    | prologueThrows | outOfMemory => exact .same (by rw [deliver_state])
    | releases | freesBlock => exact .same (by rw [deliver_state]; rfl)
    | _ => exact .same rfl

/-- User code leaves a word alone: nothing is stored in it, and no weak handle lies in it. -/
structure SparesWord (address : ℕ) (label : Label) (w : World) : Prop where
  stores : ∀ thread x value, label = .user thread (.storeByte x value) →
    x < address ∨ address+wordSize ≤ x
  handles : ∀ entry ∈ w.state.weakRefs,
    entry.storage+wordSize ≤ address ∨ address+wordSize ≤ entry.storage
  calls : ∀ call stage rest, w.control label.thread = .entering (.call call) stage :: rest →
    ∀ storage ∈ call.storages, storage+wordSize ≤ address ∨ address+wordSize ≤ storage

/-- The weak handles that the thread is about to write. -/
def handleWords (w : World) (thread : ThreadId) : List ℕ :=
  match w.control thread with
  | .entering (.call call) _ :: _ => call.storages
  | _ => []

def Label.storesAt : Label → Option ℕ
  | .user _ (.storeByte x _) => some x
  | _ => none

theorem sparesWord_iff {address : ℕ} {label : Label} {w : World} : SparesWord address label w ↔
    (∀ x ∈ label.storesAt, x < address ∨ address+wordSize ≤ x) ∧
    (∀ entry ∈ w.state.weakRefs,
      entry.storage+wordSize ≤ address ∨ address+wordSize ≤ entry.storage) ∧
    ∀ storage ∈ handleWords w label.thread,
      storage+wordSize ≤ address ∨ address+wordSize ≤ storage := by
  constructor
  · refine fun h => ⟨fun x hx => ?_,h.handles,fun storage hs => ?_⟩
    · unfold Label.storesAt at hx
      split at hx
      · cases hx
        exact h.stores _ _ _ rfl
      · cases hx
    · unfold handleWords at hs
      split at hs
      · rename_i call stage rest hc
        exact h.calls call stage rest hc storage hs
      · cases hs
  · rintro ⟨hstores,hhandles,hcalls⟩
    refine ⟨fun thread x value hl => ?_,hhandles,fun call stage rest hc storage hs => ?_⟩
    · subst hl
      exact hstores x rfl
    · apply hcalls
      rw [handleWords, hc]
      exact hs

instance (address : ℕ) (label : Label) (w : World) : Decidable (SparesWord address label w) :=
  decidable_of_iff _ sparesWord_iff.symm

theorem not_publishing (h : ReachableWorld w) {header : ℕ} {chunk : Chunk} {constructing : Bool}
    {stage : Stage} {thread : ThreadId} {rest : List Frame}
    (hchunk : w.state.chunks.find? header = some chunk) (hreg : .registered chunk.serial ∈ w.log)
    (hc : w.control thread = .entering (.publish header constructing) stage :: rest) : False := by
  have hcustody : (header,Phase.placed) ∈ custody (w.control thread) := by
    rw [hc]
    exact List.mem_cons_self
  have hpast := h.lifecycle.held thread _ hcustody chunk hchunk
  have hmem : .registered chunk.serial ∈ history w.log chunk.serial :=
    List.mem_filter.mpr ⟨hreg,by simp [Event.serial]⟩
  generalize history w.log chunk.serial = events at hpast hmem
  cases hpast
  simp at hmem

/-- A word of a block that was registered keeps its value while user code leaves it alone. -/
theorem word_spared (h : ReachableWorld w) {header address : ℕ} {chunk : Chunk}
    (hchunk : w.state.chunks.find? header = some chunk) (hreg : .registered chunk.serial ∈ w.log)
    (hlo : header+chunk.header.payloadOffset ≤ address)
    (hhi : address+wordSize ≤ header+chunk.extent) (hP : SparesWord address label w)
    (hstep : step label w = some w') :
    readWord w'.state.memory address = readWord w.state.memory address := by
  refine Memory.readBytes_congr fun x hx hx' => ?_
  cases h.byteChange hstep x with
  | same hsame => exact hsame
  | stored hl => have := hP.stores _ _ _ hl; omega
  | expired hin =>
    obtain ⟨entry,he,-,hentry⟩ := hin
    have := hP.handles entry he
    omega
  | handle hc hs hin => have := hP.calls _ _ _ hc _ hs; omega
  | @cleared other constructing stage rest hc hin =>
    have hne : other ≠ header := by
      rintro rfl
      exact not_publishing h hchunk hreg hc
    have hcustody : (other,Phase.placed) ∈ custody (w.control label.thread) := by
      rw [hc]
      exact List.mem_cons_self
    obtain ⟨chunk',hchunk'⟩ :=
      h.invariant.ownership.held_chunk label.thread (mem_held.mpr ⟨_,hcustody⟩)
    rw [State.payloadBegin, State.header_eq hchunk'] at hin
    have hentry := OrderedMap.find?_eq_some.mp hchunk
    have hentry' := OrderedMap.find?_eq_some.mp hchunk'
    rcases lt_or_gt_of_ne hne with hlt | hlt
    · have hd := h.invariant.heap.disjoint _ _ hentry' _ _ hentry hlt
      unfold Chunk.extent at hd
      omega
    · have hd := h.invariant.heap.disjoint _ _ hentry _ _ hentry' hlt
      omega

theorem ReachableWorld.log_step (h : ReachableWorld w) (hstep : step label w = some w') {e : Event}
    (he : e ∈ w.log) : e ∈ w'.log := by
  obtain ⟨events,hl,-⟩ := (h.move hstep).growth h.lifecycle h.invariant.ownership
  rw [hl]
  exact List.mem_append_left _ he

theorem ReachableWorld.log_mono (h : ReachableWorld w) (hsteps : ReflTransGen (Steps step) w w')
    {e : Event} (he : e ∈ w.log) : e ∈ w'.log := by
  induction hsteps with
  | refl => exact he
  | tail hsteps hstep ih =>
    obtain ⟨label,hstep⟩ := hstep
    exact (show ReachableWorld _ from Reachable.steps h hsteps).log_step hstep ih

/-- A word of a block keeps its value along every run that leaves it alone, until the block is
freed. -/
theorem word_kept (h : ReachableWorld w) {header address : ℕ} {chunk : Chunk}
    (hsteps : ReflTransGen (StepBy (SparesWord address)) w w')
    (hchunk : w'.state.chunks.find? header = some chunk) (hlt : chunk.serial < w.state.nextSerial)
    (hreg : .registered chunk.serial ∈ w.log)
    (hlo : header+chunk.header.payloadOffset ≤ address)
    (hhi : address+wordSize ≤ header+chunk.extent) :
    readWord w'.state.memory address = readWord w.state.memory address := by
  induction hsteps with
  | refl => rfl
  | tail hsteps hstep ih =>
    obtain ⟨label,hP,hstep⟩ := hstep
    have hsteps' := steps_of_stepBy hsteps
    obtain ⟨hr,hlt',-⟩ := h.chunk_stable hsteps' hlt
    obtain ⟨-,hback⟩ := (hr.move hstep).chunk_of_serial hr.invariant.heap hlt'
    have hchunk' := hback header chunk hchunk rfl
    rw [word_spared hr hchunk' (h.log_mono hsteps' hreg) hlo hhi hP hstep]
    exact ih hchunk'

end
end GcLib.Protocol
