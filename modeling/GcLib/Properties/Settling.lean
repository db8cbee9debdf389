import GcLib.Properties.StopTheWorld
import GcLib.Protocol.ConditionVariable

/-! # Calls settle

Whatever the scheduler does, the steps inside operations come to an end: there is no livelock in the
stop-the-world protocol. When they have, every call has returned, or the protocol waits for user
code: one thread has its window open and sleeps until a registered thread outside every operation
comes to a safepoint, and the others have returned or sleep until the window closes. No sleeper has
missed its notification.
-/

namespace GcLib.Properties
open GcLib.Heap GcLib.Support GcLib.Protocol

/-- The window of a thread waits for a registered thread that is in user code. -/
structure AwaitsSafepoint (w : World) (owner : ThreadId) : Prop where
  owns : w.state.collectorThread = some owner
  waits : ∃ call rest, w.control owner = .waiting call :: rest
  outside : ∃ thread, thread ≠ owner ∧ w.state.isRegistered thread = true ∧ w.control thread = []
  others : ∀ thread, thread ≠ owner →
    w.control thread = [] ∨ waitsInCooperation (w.control thread) = true

section
variable {w : World} {thread owner : ThreadId}

theorem not_othersPaused (h : w.state.othersPaused owner = false) :
    ∃ thread, thread ≠ owner ∧ ∃ state, w.state.threads.find? thread = some state ∧
      state.stackBottom ≠ 0 ∧ state.pausedForCollection = false := by
  by_contra hnone
  push Not at hnone
  apply Bool.eq_false_iff.mp h
  apply othersPaused_iff.mpr
  intro other hne state hf hb
  simpa using hnone other hne state hf hb

theorem waiting_owns (hp : ProtocolInvariant w) {call : WindowCall} {rest : List Frame}
    (hc : w.control thread = .waiting call :: rest) : w.state.collectorThread = some thread := by
  apply (owns_iff hp).mp
  refine ⟨.waiting call,?_,rfl⟩
  rw [hc]
  exact List.mem_cons_self

/-- A thread held up inside cooperation is not the owner, and some window is open. -/
theorem waits_in_cooperation (hr : ReachableWorld w) (h : w.waitsForOthers thread = true)
    (hno : ∀ call rest, w.control thread ≠ .waiting call :: rest) :
    waitsInCooperation (w.control thread) = true ∧ w.state.stopTheWorldRequested = true ∧
      w.state.collectorThread ≠ some thread := by
  rcases waitsForOthers_cases h with ⟨code,rest,hc,hm⟩ | ⟨code,rest,hc,hreq⟩ | ⟨call,rest,hc,-⟩
  · rw [hc]
    simpa [waitsInCooperation, parkedAtTop, blockedAtTop, State.mayProceed] using hm
  · refine ⟨by simp [hc, waitsInCooperation, parkedAtTop],hreq,fun ho => ?_⟩
    have hunparked := hr.owner_unparked ho
    rw [hc] at hunparked
    cases hunparked
  · exact absurd hc (hno _ _)

/-- A thread that waits for another one has a window to wait for, and its owner waits as well. -/
theorem owner_waits (hr : ReachableWorld w)
    (hstuck : ∀ thread, w.control thread ≠ [] → w.waitsForOthers thread = true)
    (h : w.waitsForOthers thread = true) : ∃ owner, w.state.collectorThread = some owner ∧
      (∃ call rest, w.control owner = .waiting call :: rest) ∧
        w.state.othersPaused owner = false := by
  have hp := hr.invariant.protocol
  have howner : ∃ owner, w.state.collectorThread = some owner := by
    by_cases hwaiting : ∃ call rest, w.control thread = .waiting call :: rest
    · obtain ⟨call,rest,hc⟩ := hwaiting
      exact ⟨thread,waiting_owns hp hc⟩
    · push Not at hwaiting
      exact hp.requested_iff.mp (waits_in_cooperation hr h hwaiting).2.1
  obtain ⟨owner,ho⟩ := howner
  have hne : w.control owner ≠ [] := by
    intro hc
    obtain ⟨frame,hmem,-⟩ := (owns_iff hp).mpr ho
    rw [hc] at hmem
    cases hmem
  have hwaits := hstuck owner hne
  by_cases hwaiting : ∃ call rest, w.control owner = .waiting call :: rest
  · obtain ⟨call,rest,hc⟩ := hwaiting
    simp only [World.waitsForOthers, hc, Bool.not_eq_true'] at hwaits
    exact ⟨owner,ho,⟨call,rest,hc⟩,hwaits⟩
  · push Not at hwaiting
    exact absurd ho (waits_in_cooperation hr hwaits hwaiting).2.2

/-- When no thread inside an operation can go on, a window waits for a thread in user code. -/
theorem awaitsSafepoint_of_stuck (hr : ReachableWorld w)
    (hstuck : ∀ thread, w.control thread ≠ [] → w.waitsForOthers thread = true)
    (h : w.waitsForOthers thread = true) : ∃ owner, AwaitsSafepoint w owner := by
  have hp := hr.invariant.protocol
  obtain ⟨owner,ho,hwaits,hpaused⟩ := owner_waits hr hstuck h
  have hothers : ∀ other, other ≠ owner →
      w.control other = [] ∨ waitsInCooperation (w.control other) = true := by
    intro other hne
    by_cases hc : w.control other = []
    · exact .inl hc
    · apply Or.inr
      apply (waits_in_cooperation hr (hstuck other hc) _).1
      intro call rest hwaiting
      have hsame := (waiting_owns hp hwaiting).symm.trans ho
      exact hne (Option.some.inj hsame)
  refine ⟨owner,ho,hwaits,?_,hothers⟩
  obtain ⟨other,hne,state,hf,hb,hun⟩ := not_othersPaused hpaused
  refine ⟨other,hne,isRegistered_iff.mpr ⟨state,hf,hb⟩,?_⟩
  rcases hothers other hne with hc | hc
  · exact hc
  · rw [paused_of_waits hp hc hf hb] at hun
    cases hun

/-- Where no step inside an operation is left, every thread in an operation sleeps. -/
theorem asleep_of_stuck {m : Monitor} (hr : ReachableMonitor m) (htop : BelowTop m.world.state)
    (hend : ∀ m', ¬ m.Advances m') (hne : m.world.control thread ≠ []) :
    m.asleep thread = true := by
  by_contra hawake
  rw [Bool.not_eq_true] at hawake
  rcases canGoOn_or_waits hr.world htop hne with ⟨label,w',hin,rfl,hstep⟩ | hwaits
  · apply hend (m.stepAwake label w')
    left
    refine ⟨label,hin,?_⟩
    simp [Monitor.next, hawake, hstep]
  · apply hend { m with asleep := Function.update m.asleep thread true }
    right
    left
    refine ⟨thread,?_⟩
    simp [Monitor.next, hawake, hwaits]

end

/-- The steps inside operations end. Where none is left, every thread inside an operation sleeps
with a false predicate: either there is none, or a window waits for a registered thread that is in
user code. -/
theorem calls_settle {m : Monitor} (h : ReachableMonitor m) :
    (∀ thread, m.asleep thread = true → m.world.waitsForOthers thread = true) ∧
    (∀ run : ℕ → Monitor, run 0 = m → (∀ n, BelowTop (run n).world.state) →
      ∃ n, ¬ (run n).Advances (run (n+1))) ∧
    (BelowTop m.world.state → (∀ m', ¬ m.Advances m') →
      (∀ thread, m.world.control thread = [] ∨ m.asleep thread = true) ∧
      ((∀ thread, m.world.control thread = []) ∨ ∃ owner, AwaitsSafepoint m.world owner)) := by
  refine ⟨fun _ hasleep => h.asleep_waits hasleep,
    fun run hrun htop => exists_not_advances h run hrun htop,fun htop hend => ?_⟩
  have hstuck : ∀ thread, m.world.control thread ≠ [] → m.asleep thread = true :=
    fun _ => asleep_of_stuck h htop hend
  constructor
  · intro thread
    by_cases hne : m.world.control thread = []
    · exact .inl hne
    · exact .inr (hstuck thread hne)
  · by_cases hall : ∀ thread, m.world.control thread = []
    · exact .inl hall
    · push Not at hall
      obtain ⟨thread,hne⟩ := hall
      exact .inr (awaitsSafepoint_of_stuck h.world
        (fun thread hne => h.asleep_waits (hstuck thread hne)) (h.asleep_waits (hstuck thread hne)))

/-- A thread collects its block while another registered thread computes. -/
def awaitingRun : List Label :=
  allocatingRun ++ [.user 1 (.call (.registerStackBottom 61440)),.run 1 {},
    .user 0 (.call .collect),.run 0 {}]

theorem awaitingRun_control (thread : ThreadId) (hne : thread ≠ 0) :
    (worldAfter awaitingRun).control thread = [] := by
  by_cases h : thread = 1
  · rw [h]
    decide +kernel
  · have hrun := run_worldAfter awaitingRun (by decide +kernel)
    have hidle : thread ∉ awaitingRun.map Label.thread := by
      have hthreads : awaitingRun.map Label.thread = [0,0,0,0,0,0,1,1,0,0] := by decide
      simp [hthreads, hne, h]
    exact ReachableWorld.run_control (.of_init ⟨_,rfl⟩) hrun hidle

theorem awaitingRun_world : (monitorAfter awaitingRun).world = worldAfter awaitingRun :=
  monitorAfter_world awaitingRun (by decide +kernel)

/-- The owner sleeps and cannot go on before the other thread comes to a safepoint. -/
theorem not_advances_awaitingRun (m' : Monitor) : ¬ (monitorAfter awaitingRun).Advances m' := by
  have hcontrol : (worldAfter awaitingRun).control 0 = [.waiting .collect] := by decide +kernel
  have hpaused : (worldAfter awaitingRun).state.othersPaused 0 = false := by decide +kernel
  have hasleep : (monitorAfter awaitingRun).asleep 0 = true := by decide +kernel
  rintro (⟨label,hin,hnext⟩ | ⟨thread,hnext⟩ | ⟨⟨thread,hloops⟩,-⟩)
  · obtain ⟨hawake,w,hw,-⟩ := next_step hnext
    have h : label.thread ≠ 0 := fun he => by simp [he, hasleep] at hawake
    have hc := awaitingRun_control label.thread h
    rw [awaitingRun_world] at hw
    cases label with
    | run thread choice =>
      rw [Label.thread] at hc
      simp [step, hc] at hw
    | user thread action =>
      cases action with
      | finalizerReturns =>
        rw [Label.thread] at hc
        simp [step, runAction, hc] at hw
      | _ => cases hin
  · obtain ⟨hawake,hwaits,-⟩ := next_testsAgain hnext
    have h : thread ≠ 0 := fun he => by simp [he, hasleep] at hawake
    simp [awaitingRun_world, World.waitsForOthers, awaitingRun_control thread h] at hwaits
  · rw [awaitingRun_world] at hloops
    cases hloops with
    | inSection hc =>
      by_cases h : thread = 0
      · simp [h, hcontrol] at hc
      · simp [awaitingRun_control thread h] at hc
    | inWindow hc hp =>
      by_cases h : thread = 0
      · simp [h, hpaused] at hp
      · simp [awaitingRun_control thread h] at hc

/-- The other thread parks, which wakes the owner, and sleeps. -/
def parkingRun : List Label :=
  awaitingRun ++ [.user 1 (.call .safepoint),.run 1 {},.run 1 { stackMarker := 61000 }]

theorem calls_settle_awaitingRun :
    (∃ owner, AwaitsSafepoint (monitorAfter awaitingRun).world owner) ∧
      (monitorAfter parkingRun).asleep 0 = false ∧
      (monitorAfter parkingRun).world.waitsForOthers 1 = true := by
  refine ⟨?_,by decide +kernel,?_⟩
  · have hsettled := (calls_settle (reachable_monitorAfter awaitingRun)).2.2 (by decide +kernel)
      not_advances_awaitingRun
    refine hsettled.2.resolve_left fun hall => ?_
    have hcontrol : (monitorAfter awaitingRun).world.control 0 = [.waiting .collect] := by
      decide +kernel
    rw [hall 0] at hcontrol
    cases hcontrol
  · exact (calls_settle (reachable_monitorAfter parkingRun)).1 1 (by decide +kernel)

end GcLib.Properties
