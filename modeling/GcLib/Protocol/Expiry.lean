import GcLib.Protocol.MemoryChanges
import GcLib.Protocol.WeakRefs

/-! # Expiry

A block is known by its number. Once it has left the registry it never comes back, and the step
that takes it out drops the weak references into it and clears their handle words. No other step
but a handle operation changes the weak references.
-/

namespace GcLib.Heap

/-- The block with a number is registered. -/
def State.live (s : State) (serial : ℕ) : Bool :=
  s.allocations.values.any fun b => decide (s.serial b.header = serial)

end GcLib.Heap

namespace GcLib.Protocol
open GcLib.Heap GcLib.Support

theorem live_iff {s : State} {serial : ℕ} :
    s.live serial = true ↔ ∃ b ∈ s.allocations.values, s.serial b.header = serial := by
  simp [State.live]

theorem live_congr {s s' : State} (ha : s'.allocations = s.allocations)
    (hs : SameChunks s s') (serial : ℕ) : s'.live serial = s.live serial := by
  simp only [State.live, ha, hs.serial]

section
variable {w w' : World} {label : Label} {serial : ℕ}

/-- A block that was live before a step is live after it if its header is still registered. -/
theorem ReachableWorld.live_iff_registered (h : ReachableWorld w) (hstep : step label w = some w')
    {b : BlockRecord} (hb : b ∈ w.state.allocations.values) :
    w'.state.live (w.state.serial b.header) = true ↔ b.header ∈ registered w'.state := by
  have h' : ReachableWorld w' := h.step hstep
  obtain ⟨chunk,hchunk,-⟩ := h.invariant.heap.described b hb
  have hlt := h.lifecycle.serial_lt _ _ hchunk
  have hmove := h.move hstep
  rw [live_iff, State.serial_eq hchunk, mem_registered]
  constructor
  · rintro ⟨b',hb',hserial⟩
    obtain ⟨chunk',hchunk',-⟩ := h'.invariant.heap.described b' hb'
    rw [State.serial_eq hchunk'] at hserial
    obtain ⟨-,hback⟩ := hmove.chunk_of_serial h.invariant.heap hlt
    have hold := hback _ _ hchunk' hserial
    exact ⟨b',hb',h.lifecycle.serial_inj _ _ _ _ hold hchunk hserial⟩
  · rintro ⟨b',hb',hheader⟩
    obtain ⟨chunk',hchunk',-⟩ := h'.invariant.heap.described b' hb'
    rw [hheader] at hchunk'
    refine ⟨b',hb',?_⟩
    rw [hheader, hmove.serial_of_chunk h.invariant.heap ⟨chunk,hchunk⟩ ⟨chunk',hchunk'⟩,
      State.serial_eq hchunk]

/-- A registered block that is no longer live never is again. -/
theorem ReachableWorld.live_back (h : ReachableWorld w) (hstep : step label w = some w')
    (hreg : .registered serial ∈ w.log) (hlive : w'.state.live serial = true) :
    w.state.live serial = true := by
  have h' : ReachableWorld w' := h.step hstep
  have hlt := h.lifecycle.recorded _ hreg
  obtain ⟨b,hb,hserial⟩ := live_iff.mp hlive
  obtain ⟨chunk,hchunk,-⟩ := h'.invariant.heap.described b hb
  rw [State.serial_eq hchunk] at hserial
  obtain ⟨-,hback⟩ := (h.move hstep).chunk_of_serial h.invariant.heap hlt
  have hold := hback _ _ hchunk hserial
  have hevents := h'.lifecycle.registered b.header (List.mem_map_of_mem hb) chunk hchunk
  obtain ⟨events,hlog,-⟩ := (h.move hstep).growth h.lifecycle h.invariant.ownership
  have hmem : Event.registered serial ∈ history w.log serial := mem_history.mpr ⟨hreg,rfl⟩
  rcases (h.invariant.ownership.mem_chunks b.header).mp ⟨chunk,hold⟩ with hregistered | ⟨thread,hh⟩
  · obtain ⟨old,hmem',hheader⟩ := mem_registered.mp hregistered
    rw [← hheader] at hold
    exact live_iff.mpr ⟨old,hmem',(State.serial_eq hold).trans hserial⟩
  · obtain ⟨phase,hentry⟩ := mem_held.mp hh
    have hpast := h.lifecycle.held thread _ hentry chunk hold
    rw [hserial] at hpast hevents
    rw [hlog, history_append] at hevents
    have hlength := congrArg List.length hevents
    have hlong := hpast.length_lt hmem
    rw [List.length_append, List.length_cons, List.length_singleton] at hlength
    omega

theorem ReachableWorld.live_back_steps (h : ReachableWorld w)
    (hsteps : Relation.ReflTransGen (Steps step) w w') (hreg : .registered serial ∈ w.log)
    (hlive : w'.state.live serial = true) : w.state.live serial = true := by
  induction hsteps using Relation.ReflTransGen.head_induction_on with
  | refl => exact hlive
  | head hstep _ ih =>
    obtain ⟨label,hstep⟩ := hstep
    exact h.live_back hstep hreg (ih (h.step hstep) (h.log_step hstep hreg))

theorem ReachableWorld.registered_of_live (h : ReachableWorld w)
    (hlive : w.state.live serial = true) : .registered serial ∈ w.log := by
  obtain ⟨b,hb,rfl⟩ := live_iff.mp hlive
  obtain ⟨chunk,hchunk,-⟩ := h.invariant.heap.described b hb
  have hevents := h.lifecycle.registered b.header (List.mem_map_of_mem hb) chunk hchunk
  have hmem : Event.registered chunk.serial ∈ history w.log chunk.serial := by
    rw [hevents]
    simp
  rw [State.serial_eq hchunk]
  exact (mem_history.mp hmem).1

theorem ReachableWorld.live_unique (h : ReachableWorld w) {b b' : BlockRecord}
    (hb : b ∈ w.state.allocations.values) (hb' : b' ∈ w.state.allocations.values)
    (hs : w.state.serial b.header = w.state.serial b'.header) : b = b' := by
  obtain ⟨chunk,hchunk,-⟩ := h.invariant.heap.described b hb
  obtain ⟨chunk',hchunk',-⟩ := h.invariant.heap.described b' hb'
  rw [State.serial_eq hchunk, State.serial_eq hchunk'] at hs
  have hheader := h.lifecycle.serial_inj _ _ _ _ hchunk hchunk' hs
  exact h.invariant.heap.header_inj hb hb' hheader

end

/-- What becomes of a byte that is in no expiring handle. -/
inductive ByteKept (label : Label) (w w' : World) (x : ℕ) : Prop where
  | same (h : w'.state.memory x = w.state.memory x)
  | stored {value : UInt8} (hl : label = .user label.thread (.storeByte x value))
  | cleared {header : ℕ} {constructing : Bool} {stage : Stage} {rest : List Frame}
      (hc : w.control label.thread = .entering (.publish header constructing) stage :: rest)
      (hx : w.state.payloadBegin header ≤ x ∧
        x < w.state.payloadBegin header+(w.state.header header).size)

/-- A step that takes these blocks out of the registry. -/
structure Expires (label : Label) (w w' : World) (dead : List BlockRecord) : Prop where
  dead_mem : ∀ b ∈ dead, b ∈ w.state.allocations.values
  registered : ∀ b ∈ w.state.allocations.values, b.header ∈ registered w'.state ↔ b ∉ dead
  weakRefs : w'.state.weakRefs =
    w.state.weakRefs.filter fun entry => decide (¬ entry.Targets dead)
  memory : ∀ x, if InWordOf w.state.weakRefs (fun entry => entry.Targets dead) x then
    w'.state.memory x = 0 else ByteKept label w w' x

section
variable {w w' : World} {label : Label}

theorem filter_targets_nil (weakRefs : List WeakRefEntry) :
    (weakRefs.filter fun entry => decide (¬ entry.Targets [])) = weakRefs := by
  simp [WeakRefEntry.Targets]

theorem Expires.nothing (hr : Protocol.registered w'.state = Protocol.registered w.state)
    (hw : w'.state.weakRefs = w.state.weakRefs) (hm : ∀ x, ByteKept label w w' x) :
    Expires label w w' [] where
  dead_mem := nofun
  registered b hb := by
    rw [hr]
    simpa using mem_registered.mpr ⟨b,hb,rfl⟩
  weakRefs := by rw [hw, filter_targets_nil]
  memory x := by
    rw [if_neg]
    · exact hm x
    · rintro ⟨entry,-,⟨b,hb,-⟩,-⟩
      cases hb

theorem Expires.user {thread : ThreadId} {action : Action}
    (hstep : step (.user thread action) w = some w') :
    Expires (.user thread action) w w' [] := by
  simp only [step] at hstep
  split_ifs at hstep
  cases action with
  | call call =>
    simp only [runAction] at hstep
    split_ifs at hstep
    cases hi : call.immediate with
    | none =>
      rw [hi] at hstep
      cases hstep
      exact .nothing rfl rfl fun x => .same rfl
    | some result =>
      rw [hi] at hstep
      cases hstep
      exact .nothing rfl rfl fun x => .same rfl
  | storeByte address value =>
    cases hstep
    refine .nothing rfl rfl fun x => ?_
    by_cases hx : x = address
    · subst hx
      exact .stored rfl
    · exact .same (Function.update_of_ne hx ..)
  | finalizerReturns =>
    simp only [runAction] at hstep
    split at hstep
    · cases hstep
      exact .nothing rfl rfl fun x => .same rfl
    · cases hstep

end

section
variable {w w' : World} {label : Label}

end
end GcLib.Protocol
