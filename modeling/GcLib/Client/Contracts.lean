import GcLib.Client.Execution
import GcLib.Protocol.MemoryChanges
import GcLib.Protocol.Batches
import GcLib.Protocol.Pinning

/-! # What client code may rely on

While a block is under construction nobody but its own client code ends the construction, and
the word in front of an array is nobody else's. Under these rules the block stays registered and
the word keeps its value, whatever the constructors and the other threads do.
-/

namespace GcLib.Client
open GcLib.Heap GcLib.Support GcLib.Protocol Relation

/-- The thread of a construction stays registered, and no other thread ends the construction. -/
def SparesPayload (thread : ThreadId) (payload : ℕ) : Label → World → Prop := fun label w =>
  w.state.isRegistered thread = true ∧ (label.thread ≠ thread → ¬ UnpinsBy label.thread payload w)

/-- Neither does the constructor. -/
def PinsPayload (thread : ThreadId) (payload : ℕ) : Label → World → Prop := fun label w =>
  w.state.isRegistered thread = true ∧ ¬ UnpinsBy label.thread payload w

instance (thread : ThreadId) (payload : ℕ) (label : Label) (w : World) :
    Decidable (SparesPayload thread payload label w) :=
  inferInstanceAs (Decidable (_ ∧ (_ → ¬ _)))

instance (thread : ThreadId) (payload : ℕ) (label : Label) (w : World) :
    Decidable (PinsPayload thread payload label w) :=
  inferInstanceAs (Decidable (_ ∧ ¬ _))

/-- A live block, known by its number, holds a count in its first word. -/
structure HoldsCount (b : BlockRecord) (serial count : ℕ) (w : World) : Prop where
  reachable : ReachableWorld w
  live : b ∈ w.state.allocations.values
  serial_eq : w.state.serial b.header = serial
  count_eq : readWord w.state.memory b.payloadBegin = count

section
variable {w w' : World} {thread : ThreadId} {rest : List Frame} {label : Label} {b : BlockRecord}
  {P : Label → World → Prop} {serial count : ℕ}

/-- User code that spares a block under construction leaves it registered. -/
theorem pinned_user (h : ReachableWorld w) (hb : b ∈ w.state.allocations.values)
    (hc : b.constructing = true)
    (hP : ∀ label u, P label u → ¬ UnpinsBy label.thread b.payloadBegin u)
    (hsteps : ReflTransGen (UserStep P thread rest) w w') :
    ReachableWorld w' ∧ b ∈ w'.state.allocations.values := by
  induction hsteps with
  | refl => exact ⟨h,hb⟩
  | tail _ hstep ih =>
    obtain ⟨⟨label,hlabel,hstep⟩,-⟩ := hstep
    exact ⟨ih.1.step hstep,pinned_step_by ih.1 ih.2 hc (hP label _ hlabel) hstep⟩

theorem pinned_other (h : ReachableWorld w) (hb : b ∈ w.state.allocations.values)
    (hc : b.constructing = true) (hP : ∀ label u, P label u → label.thread ≠ thread →
      ¬ UnpinsBy label.thread b.payloadBegin u)
    (hsteps : ReflTransGen (OtherStep P thread) w w') :
    ReachableWorld w' ∧ b ∈ w'.state.allocations.values := by
  induction hsteps with
  | refl => exact ⟨h,hb⟩
  | tail _ hstep ih =>
    obtain ⟨label,hne,hlabel,hstep⟩ := hstep
    exact ⟨ih.1.step hstep,pinned_step_by ih.1 ih.2 hc (hP label _ hlabel hne) hstep⟩

/-- The word in front of a registered block keeps its value. -/
theorem HoldsCount.step (h : HoldsCount b serial count w) (hc : b.constructing = true)
    (hsize : b.payloadBegin+wordSize ≤ b.payloadEnd)
    (hpin : ¬ UnpinsBy label.thread b.payloadBegin w)
    (hword : SparesWord b.payloadBegin label w) (hstep : Protocol.step label w = some w') :
    HoldsCount b serial count w' := by
  have hr := h.reachable
  obtain ⟨chunk,hchunk,hd⟩ := hr.invariant.heap.described b h.live
  have hregistered := hr.lifecycle.registered b.header (List.mem_map_of_mem h.live) chunk hchunk
  have hlog : .registered chunk.serial ∈ w.log := by
    have hmem : .registered chunk.serial ∈ history w.log chunk.serial := by
      rw [hregistered]
      simp
    exact (List.mem_filter.mp hmem).1
  have hlo := hd.payloadBegin_eq
  have hend := hd.payloadEnd_eq
  have hextent : chunk.extent = chunk.header.payloadOffset+chunk.header.size := rfl
  have hr' : ReachableWorld w' := hr.step hstep
  have hlive := pinned_step_by hr h.live hc hpin hstep
  obtain ⟨chunk',hchunk',-⟩ := hr'.invariant.heap.described b hlive
  have hserial := (hr.move hstep).serial_of_chunk hr.invariant.heap ⟨chunk,hchunk⟩ ⟨chunk',hchunk'⟩
  refine ⟨hr',hlive,hserial.trans h.serial_eq,?_⟩
  rw [word_spared hr hchunk hlog (by omega) (by omega) hword hstep]
  exact h.count_eq

theorem HoldsCount.user (h : HoldsCount b serial count w) (hc : b.constructing = true)
    (hsize : b.payloadBegin+wordSize ≤ b.payloadEnd)
    (hP : ∀ label u, P label u → ¬ UnpinsBy label.thread b.payloadBegin u ∧
      SparesWord b.payloadBegin label u)
    (hsteps : ReflTransGen (UserStep P thread rest) w w') : HoldsCount b serial count w' := by
  induction hsteps with
  | refl => exact h
  | tail _ hstep ih =>
    obtain ⟨⟨label,hlabel,hstep⟩,-⟩ := hstep
    exact ih.step hc hsize (hP label _ hlabel).1 (hP label _ hlabel).2 hstep

theorem HoldsCount.other (h : HoldsCount b serial count w) (hc : b.constructing = true)
    (hsize : b.payloadBegin+wordSize ≤ b.payloadEnd)
    (hP : ∀ label u, P label u → label.thread ≠ thread →
      ¬ UnpinsBy label.thread b.payloadBegin u ∧ SparesWord b.payloadBegin label u)
    (hsteps : ReflTransGen (OtherStep P thread) w w') : HoldsCount b serial count w' := by
  induction hsteps with
  | refl => exact h
  | tail _ hstep ih =>
    obtain ⟨label,hne,hlabel,hstep⟩ := hstep
    have hl := hP label _ hlabel hne
    exact ih.step hc hsize hl.1 hl.2 hstep

theorem HoldsCount.quiet (h : HoldsCount b serial count w) (hc : b.constructing = true)
    (hsize : b.payloadBegin+wordSize ≤ b.payloadEnd)
    (hP : ∀ label u, P label u → label.thread ≠ thread →
      ¬ UnpinsBy label.thread b.payloadBegin u ∧ SparesWord b.payloadBegin label u)
    (hsteps : ReflTransGen (QuietStep P thread) w w') : HoldsCount b serial count w' := by
  induction hsteps with
  | refl => exact h
  | tail _ hstep ih =>
    obtain ⟨label,hlabel,hstep,hquiet⟩ := hstep
    by_cases hthread : label.thread = thread
    · have hs := (hquiet hthread).1
      refine ⟨ih.reachable.step hstep,hs.allocations ▸ ih.live,
        (hs.sameChunks.serial _).trans ih.serial_eq,?_⟩
      rw [hs.memory]
      exact ih.count_eq
    · have hl := hP label _ hlabel hthread
      exact ih.step hc hsize hl.1 hl.2 hstep

/-- The bytes of a stored word, from the first one on. -/
theorem run_storeBytes {address value : ℕ} : ∀ {n : ℕ} {w w' : World},
    run step ((List.range n).map fun i =>
      .user thread (.storeByte (address+i) (UInt8.ofNat (value/256^i)))) w = some w' →
    w' = w.setState { w.state with memory := w.state.memory.writeBytes address value n }
  | 0, w, w', h => by
    cases h
    have hnone : w.state.memory.writeBytes address value 0 = w.state.memory := by
      funext x
      exact Memory.writeBytes_outside _ (by omega)
    rw [hnone]
    rfl
  | n+1, w, w', h => by
    rw [List.range_succ, List.map_append, List.map_singleton, run_concat] at h
    obtain ⟨u,hu,hstep⟩ := Option.bind_eq_some_iff.mp h
    obtain rfl := run_storeBytes hu
    simp only [Protocol.step, runAction] at hstep
    split_ifs at hstep
    obtain rfl := Option.some.inj hstep
    have hbytes : Function.update (w.state.memory.writeBytes address value n) (address+n)
        (UInt8.ofNat (value/256^n)) = w.state.memory.writeBytes address value (n+1) := by
      funext x
      by_cases hx : x = address+n
      · subst hx
        simp [Memory.writeBytes]
      · rw [Function.update_of_ne hx]
        simp only [Memory.writeBytes]
        congr 1
        exact propext ⟨fun h => ⟨h.1,by omega⟩,fun h => ⟨h.1,by omega⟩⟩
    rw [← hbytes]
    rfl

/-- Storing a word changes memory there only. -/
theorem run_storeWord {address value : ℕ}
    (h : run step (storeLabels thread address value) w = some w') :
    w' = w.setState { w.state with memory := writeWord w.state.memory address value } :=
  run_storeBytes h

theorem HoldsCount.store {value : ℕ} (h : HoldsCount b serial count w) (hv : value < addressLimit)
    (hs : run Protocol.step (storeLabels thread b.payloadBegin value) w = some w') :
    HoldsCount b serial value w' := by
  have hw := run_storeWord hs
  refine ⟨Reachable.steps h.reachable (steps_of_run hs),?_,?_,?_⟩
  · rw [hw]
    exact h.live
  · rw [hw]
    exact h.serial_eq
  · rw [hw]
    exact readWord_writeWord _ hv

end
end GcLib.Client
