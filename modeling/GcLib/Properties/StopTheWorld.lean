import GcLib.Protocol.Reachable

/-! # The stop-the-world protocol

One thread owns the window, its flags agree, and past its wait every other registered
thread is parked with its stack published. Meanwhile the other threads can only park,
append root ranges and wait. A registered thread that waits on the condition variable
is one the owner does not wait for.
-/

namespace GcLib.Properties
open GcLib.Heap GcLib.Support GcLib.Protocol

/-- The thread waits on the condition variable inside cooperation. -/
def waitsInCooperation (stack : List Frame) : Bool := parkedAtTop stack || blockedAtTop stack

section
variable {w : World} {thread owner : ThreadId}

/-- A thread owns the window exactly while one of its frames does. -/
theorem owns_iff (h : ProtocolInvariant w) :
    (∃ frame ∈ w.control thread, frame.owns = true) ↔ w.state.collectorThread = some thread := by
  have hcount := (h.thread thread).owner
  rw [← List.countP_pos_iff, hcount]
  split_ifs with hc
  · exact iff_of_true one_pos hc
  · exact iff_of_false (lt_irrefl 0) hc

/-- Past its owner's wait, a window has every other registered thread parked. -/
theorem parked_of_pastWait (h : ProtocolInvariant w) (ho : w.state.collectorThread = some owner)
    (hpast : (w.control owner).any Frame.pastWait = true) (hne : thread ≠ owner)
    {state : ThreadState} (hf : w.state.threads.find? thread = some state)
    (hb : state.stackBottom ≠ 0) :
    state.pausedForCollection = true ∧ state.parkedStackTop ≠ 0 := by
  have hregistered : w.state.isRegistered thread = true := isRegistered_iff.mpr ⟨state,hf,hb⟩
  have hparked : parkedAtTop (w.control thread) = true := by
    rcases h.intruder ho hpast hne with hp | hr
    · exact hp
    · rw [hregistered] at hr
      cases hr
  obtain ⟨state',hf',-,hpaused,htop,-⟩ := ((h.thread thread).paused hparked).registered
  rw [hf] at hf'
  cases hf'
  exact ⟨hpaused,htop⟩

/-- A registered thread that waits inside cooperation counts as paused. -/
theorem paused_of_waits (h : ProtocolInvariant w)
    (hwaits : waitsInCooperation (w.control thread) = true) {state : ThreadState}
    (hf : w.state.threads.find? thread = some state) (hb : state.stackBottom ≠ 0) :
    state.pausedForCollection = true := by
  rcases Bool.or_eq_true_iff.mp hwaits with hp | hblocked
  · obtain ⟨state',hf',-,hpaused,-⟩ := ((h.thread thread).paused hp).registered
    rw [hf] at hf'
    cases hf'
    exact hpaused
  · have hregistered : w.state.isRegistered thread = true := isRegistered_iff.mpr ⟨state,hf,hb⟩
    rw [(h.thread thread).blocked hblocked] at hregistered
    cases hregistered

theorem park_isRegistered (s : State) (thread other : ThreadId) (stackMarker : ℕ)
    (spill : List ℕ) : (s.park thread stackMarker spill).isRegistered other =
      s.isRegistered other := by
  unfold State.isRegistered State.findThreadStateLocked State.park
  simp only [OrderedMap.find?_modify]
  split_ifs with he
  · subst he
    cases s.threads.find? other <;> rfl
  · rfl

end

/-- What a thread that does not own the open window leaves alone, and the one list it may extend. -/
structure Untouched (s s' : State) : Prop where
  allocations : s'.allocations = s.allocations
  weakRefs : s'.weakRefs = s.weakRefs
  registered : ∀ thread, s'.isRegistered thread = s.isRegistered thread
  managedBytes : s'.managedBytes = s.managedBytes
  reservedBytes : s'.reservedBytes = s.reservedBytes
  threshold : s'.collectionThresholdBytes = s.collectionThresholdBytes
  ranges : s'.registeredRootRanges = s.registeredRootRanges ∨
    ∃ range, s'.registeredRootRanges = s.registeredRootRanges ++ [range]

/-- The stop-the-world protocol, in every reachable world of any number of threads. -/
theorem stop_the_world_protocol {w : World} (h : ReachableWorld w) :
    w.state.collecting = w.state.stopTheWorldRequested ∧
    (w.state.stopTheWorldRequested = true ↔ ∃ owner, w.state.collectorThread = some owner) ∧
    (∀ thread, (∃ frame ∈ w.control thread, frame.owns = true) ↔
      w.state.collectorThread = some thread) ∧
    (∀ owner, w.state.collectorThread = some owner →
      (w.control owner).any Frame.pastWait = true → ∀ thread, thread ≠ owner → ∀ state,
        w.state.threads.find? thread = some state → state.stackBottom ≠ 0 →
          state.pausedForCollection = true ∧ state.parkedStackTop ≠ 0) ∧
    (∀ owner label w', w.state.collectorThread = some owner → label.thread ≠ owner →
      step label w = some w' → Untouched w.state w'.state) ∧
    (∀ thread, waitsInCooperation (w.control thread) = true → ∀ state,
      w.state.threads.find? thread = some state → state.stackBottom ≠ 0 →
        state.pausedForCollection = true) := by
  have hp := h.invariant.protocol
  refine ⟨hp.collecting_eq,hp.requested_iff,fun thread => owns_iff hp,
    fun owner ho hpast thread hne state hf hb => parked_of_pastWait hp ho hpast hne hf hb,?_,
    fun thread hwaits state hf hb => paused_of_waits hp hwaits hf hb⟩
  intro owner label w' ho hne hstep
  have hi := (step_transition hstep).intrusion hp ho hne
  refine ⟨hi.allocations,hi.weakRefs,fun thread => ?_,hi.managedBytes,hi.reservedBytes,
    hi.threshold,hi.ranges⟩
  have hregistered : ∀ {s s' : State}, s'.threads = s.threads →
      s'.isRegistered thread = s.isRegistered thread := by
    intro s s' heq
    simp only [State.isRegistered, State.findThreadStateLocked, heq]
  rcases hi.threads with heq | ⟨stackMarker,spill,heq⟩
  · exact hregistered heq
  · rw [hregistered heq, park_isRegistered]

/-- A collecting thread waits for a second one, which parks in `safepoint`. -/
def pausingRun : List Label :=
  [.user 0 (.call (.registerStackBottom 28672)),.run 0 {},
    .user 1 (.call (.registerStackBottom 61440)),.run 1 {},.user 0 (.call .collect),.run 0 {},
    .user 1 (.call .safepoint),.run 1 {},.run 1 { stackMarker := 61000 },.run 0 { fuel := 200 }]

theorem stop_the_world_protocol_pausingRun :
    (worldAfter pausingRun).state.collectorThread = some 0 ∧
      ∀ state, (worldAfter pausingRun).state.threads.find? 1 = some state →
        state.stackBottom ≠ 0 → state.pausedForCollection = true ∧ state.parkedStackTop ≠ 0 :=
  ⟨by decide +kernel,(stop_the_world_protocol (reachable_worldAfter pausingRun)).2.2.2.1 0
    (by decide +kernel) (by decide +kernel) 1 (by decide)⟩

end GcLib.Properties
