import GcLib.Protocol.Transition

/-! # The protocol invariant

Each thread's record and stack agree: it counts as paused exactly while it is parked,
and it owns the window exactly when one of its frames does. Past the owner's wait,
every other registered thread is paused.
-/

namespace GcLib.Protocol
open GcLib.Heap GcLib.Support

namespace Frame

/-- Frames of a thread between opening a window and closing it. -/
def owns : Frame → Bool
  | .waiting _ => true
  | .destroying _ _ => true
  | .finalizer _ _ => true
  | .freeing _ => true
  | .releasing _ => true
  | _ => false

/-- Frames of a thread whose wait for the others has returned. -/
def pastWait : Frame → Bool
  | .waiting _ => false
  | frame => frame.owns

/-- Frames that can lie below another operation. -/
def awaits : Frame → Bool
  | .finalizer _ _ => true
  | .collecting _ => true
  | _ => false

end Frame

/-- The thread waits on the condition variable as a paused thread. -/
def parkedAtTop : List Frame → Bool
  | .entering _ .parked :: _ => true
  | _ => false

/-- The thread waits on the condition variable as an unregistered thread. -/
def blockedAtTop : List Frame → Bool
  | .entering _ .blocked :: _ => true
  | _ => false

def Section.Valid : Section → Prop
  | .call operation =>
    operation.immediate = none ∧ ∀ word ∈ operation.words, word < addressLimit
  | .publish _ _ => True

def Frame.Valid : Frame → Prop
  | .entering code _ => code.Valid
  | .allocating request _ => request.Valid
  | .collecting request => request.Valid
  | .destroying blocks pending => pending.IsSuffix blocks
  | .finalizer blocks pending => pending.IsSuffix blocks
  | _ => True

/-- A record of a thread that is not parked. -/
structure Unpaused (s : State) (thread : ThreadId) : Prop where
  paused : ∀ state, s.threads.find? thread = some state →
    state.pausedForCollection = false ∧ state.parkedStackTop = 0
  bottom_lt : ∀ state, s.threads.find? thread = some state → state.stackBottom < addressLimit

/-- A record of a parked thread. -/
structure Paused (s : State) (thread : ThreadId) : Prop where
  registered : ∃ state, s.threads.find? thread = some state ∧ state.stackBottom ≠ 0 ∧
    state.pausedForCollection = true ∧ state.parkedStackTop ≠ 0 ∧
    state.stackBottom < addressLimit ∧ state.parkedStackTop < addressLimit

structure ThreadInvariant (s : State) (thread : ThreadId) (stack : List Frame) : Prop where
  owner : stack.countP Frame.owns = if s.collectorThread = some thread then 1 else 0
  below : ∀ frame ∈ stack.tail, frame.awaits = true
  valid : ∀ frame ∈ stack, frame.Valid
  unpaused : parkedAtTop stack = false → Unpaused s thread
  paused : parkedAtTop stack = true → Paused s thread
  blocked : blockedAtTop stack = true → s.isRegistered thread = false

/-- Root ranges have 64-bit endpoints. -/
def RangesInSpace (s : State) : Prop :=
  ∀ range ∈ s.registeredRootRanges, range.begin_ < addressLimit ∧ range.end_ < addressLimit

structure ProtocolInvariant (w : World) : Prop where
  collecting_eq : w.state.collecting = w.state.stopTheWorldRequested
  requested_iff : w.state.stopTheWorldRequested = true ↔ ∃ thread, w.state.collectorThread = some thread
  thread : ∀ thread, ThreadInvariant w.state thread (w.control thread)
  stopped : ∀ thread, w.state.collectorThread = some thread →
    (w.control thread).any Frame.pastWait = true → w.state.othersPaused thread = true
  ranges : RangesInSpace w.state

theorem ProtocolInvariant.not_requested {w : World} (h : ProtocolInvariant w)
    (hr : w.state.stopTheWorldRequested = false) : w.state.collectorThread = none := by
  cases hct : w.state.collectorThread with
  | none => rfl
  | some thread => exact absurd (h.requested_iff.mpr ⟨thread,hct⟩) (by simp [hr])

/-- The part of the state the protocol is about. -/
structure SameProtocol (s s' : State) : Prop where
  collecting : s'.collecting = s.collecting
  requested : s'.stopTheWorldRequested = s.stopTheWorldRequested
  collectorThread : s'.collectorThread = s.collectorThread
  threads : s'.threads = s.threads
  ranges : s'.registeredRootRanges = s.registeredRootRanges

namespace SameProtocol
variable {s s' s'' : State}

theorem refl (s : State) : SameProtocol s s := ⟨rfl,rfl,rfl,rfl,rfl⟩

theorem of_eqButMarks (h : s'.EqButMarks s) : SameProtocol s s' :=
  ⟨(congrArg State.collecting h.eq :),(congrArg State.stopTheWorldRequested h.eq :),
    (congrArg State.collectorThread h.eq :),h.threads,h.registeredRootRanges⟩

end SameProtocol

/-- What a step of one thread may not change about another. -/
structure SameFor (thread : ThreadId) (s s' : State) : Prop where
  owner : s'.collectorThread = some thread ↔ s.collectorThread = some thread
  record : s'.threads.find? thread = s.threads.find? thread

theorem SameProtocol.sameFor {s s' : State} (h : SameProtocol s s') (thread : ThreadId) :
    SameFor thread s s' := by
  refine ⟨?_,?_⟩
  · rw [h.collectorThread]
  · rw [h.threads]

theorem ThreadInvariant.congr {s s' : State} {thread : ThreadId} {stack : List Frame}
    (h : ThreadInvariant s thread stack) (hs : SameFor thread s s') :
    ThreadInvariant s' thread stack where
  owner := by
    rw [h.owner]
    simp only [hs.owner]
  below := h.below
  valid := h.valid
  unpaused hp := by
    have hu := h.unpaused hp
    exact ⟨hs.record ▸ hu.paused,hs.record ▸ hu.bottom_lt⟩
  paused hp := ⟨hs.record ▸ (h.paused hp).registered⟩
  blocked hb := by
    rw [← h.blocked hb]
    simp only [State.isRegistered, State.findThreadStateLocked, hs.record]

end GcLib.Protocol
