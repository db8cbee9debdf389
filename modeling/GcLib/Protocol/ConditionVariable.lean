import GcLib.Protocol.Enabled

/-! # The condition variable

The threads that wait on `stop_the_world_cv_` over the manager. A thread whose predicate is false
when its step lets go of the mutex falls asleep with that step. It sleeps until a step notifies,
or wakes for no reason, and then tests its predicate again. Only the steps that notify can turn a
predicate true, so no sleeper misses its turn.
-/

namespace GcLib.Protocol
open GcLib.Heap GcLib.Support

/-- A thread notifies once it has parked, and where it closes its window. -/
def World.notifies (w : World) (thread : ThreadId) (w' : World) : Bool :=
  match w.control thread with
  | .entering _ .spilling :: _ => parkedAtTop (w'.control thread)
  | .releasing _ :: _ => true
  | _ => false

structure Monitor where
  world : World
  asleep : ThreadId → Bool

inductive Turn where
  | step (label : Label)
  | testsAgain (thread : ThreadId)
  | wakesSpuriously (thread : ThreadId)

namespace Monitor

/-- A thread that is awake takes its step of the manager. -/
def stepAwake (m : Monitor) (label : Label) (w : World) : Monitor where
  world := w
  asleep := Function.update
    (if m.world.notifies label.thread w then fun _ => false else m.asleep)
    label.thread (w.waitsForOthers label.thread)

def next (turn : Turn) (m : Monitor) : Option Monitor :=
  match turn with
  | .step label =>
    if m.asleep label.thread then none else (Protocol.step label m.world).map (m.stepAwake label)
  | .testsAgain thread =>
    if m.asleep thread = false ∧ m.world.waitsForOthers thread = true then
      some { m with asleep := Function.update m.asleep thread true }
    else none
  | .wakesSpuriously thread => some { m with asleep := Function.update m.asleep thread false }

/-- Nobody sleeps before the first use. -/
def Initial (m : Monitor) : Prop := Protocol.Initial m.world ∧ ∀ thread, m.asleep thread = false

/-- A step inside an operation or another test of a predicate, with no cause from outside; or one
more round of an endless loop. -/
def Advances (m m' : Monitor) : Prop :=
  (∃ label, label.inside = true ∧ m.next (.step label) = some m') ∨
    (∃ thread, m.next (.testsAgain thread) = some m') ∨ (∃ thread, m.world.Loops thread) ∧ m' = m

end Monitor

/-- A monitor some interleaving of the threads leads to. -/
abbrev ReachableMonitor (m : Monitor) : Prop := Reachable Monitor.next Monitor.Initial m

/-! ## Who turns a predicate true -/

section
variable {w w' : World} {thread other owner : ThreadId}

/-- Beside the owner of an open window, a step changes the record of no thread unless it parks. -/
theorem Transition.threads_of_silent (ht : Transition thread w w') (h : ProtocolInvariant w)
    (ho : w.state.collectorThread = some owner) (hne : thread ≠ owner)
    (hsilent : w.notifies thread w' = false) : w'.state.threads = w.state.threads := by
  have howns : ∀ {frame : Frame} {rest : List Frame}, w.control thread = frame :: rest →
      frame.owns = false := h.not_owns ho hne
  cases ht with
  | runsSection hc hco | callThrows hc hco | publishThrows hc hco =>
    exact absurd hco (h.not_cooperated ho hne)
  | stalls hc hs =>
    cases hs with
    | spill hp | block hp => exact hp.flags.2.2.2
    | park => simp [World.notifies, hc, World.setControl, parkedAtTop] at hsilent
    | reblock => rfl
  | windowDestroys hc | windowReturns hc | windowThrows hc | releases hc => cases howns hc
  | prologueThrows | outOfMemory => rw [deliver_state]
  | freesBlock =>
    rw [deliver_state]
    rfl
  | _ => rfl

/-- Only the closing of a window takes the request back. -/
theorem Transition.flags_of_silent (ht : Transition thread w w') (h : ProtocolInvariant w)
    (hheap : HeapInvariant w.state) (hreq : w.state.stopTheWorldRequested = true)
    (hsilent : w.notifies thread w' = false) :
    w'.state.stopTheWorldRequested = true ∧
      w'.state.collectorThread = w.state.collectorThread := by
  have hflags : ∀ {s : State}, s.stopTheWorldRequested = w.state.stopTheWorldRequested ∧
      s.collectorThread = w.state.collectorThread → s.stopTheWorldRequested = true ∧
        s.collectorThread = w.state.collectorThread := by
    intro s hs
    exact ⟨hs.1.trans hreq,hs.2⟩
  cases ht with
  | runsSection hc hco hrun =>
    rw [proceed_state]
    have hco' := hco.flags
    rcases (effect_of_run hheap hco hrun).flags with hsame | ⟨call,-,hcollecting,-⟩
    · exact hflags ⟨hsame.2.1.trans hco'.2.1,hsame.2.2.trans hco'.2.2⟩
    · rw [hco'.1, h.collecting_eq, hreq] at hcollecting
      cases hcollecting
  | callThrows hc hco hrun | publishThrows hc hco hrun =>
    rw [deliver_state]
    have hco' := hco.flags
    cases failed_of_run hheap hco hrun <;> exact hflags hco'.2
  | stalls hc hs =>
    cases hs with
    | spill hp | block hp => exact hflags ⟨hp.flags.2.1,hp.flags.2.2.1⟩
    | _ => exact hflags ⟨rfl,rfl⟩
  | windowDestroys hc hp hm hrun | windowReturns hc hp hm hrun =>
    have hs := ((meets_windowBody hheap (h.rootsInSpace hm) _ _).returns hrun).sameProtocol
    exact hflags ⟨hs.requested,hs.collectorThread⟩
  | windowThrows hc hp hm hrun =>
    have hs := SameProtocol.of_eqButMarks
      ((meets_windowBody hheap (h.rootsInSpace hm) _ _).throws hrun)
    exact hflags ⟨hs.requested,hs.collectorThread⟩
  | releases hc => simp [World.notifies, hc] at hsilent
  | prologueThrows | outOfMemory | freesBlock =>
    rw [deliver_state]
    exact hflags ⟨rfl,rfl⟩
  | _ => exact hflags ⟨rfl,rfl⟩

/-- The predicate of a thread that waits stays false through the silent steps of the others. -/
theorem ReachableWorld.waits_of_silent {label : Label} (h : ReachableWorld w)
    (hstep : step label w = some w') (hne : other ≠ label.thread)
    (hwaits : w.waitsForOthers other = true) (hsilent : w.notifies label.thread w' = false) :
    w'.waitsForOthers other = true := by
  have hp := h.invariant.protocol
  have ht := step_transition hstep
  have hcontrol := h.control hstep other hne
  have hflags := fun hreq => ht.flags_of_silent hp h.invariant.heap hreq hsilent
  unfold World.waitsForOthers
  rcases waitsForOthers_cases hwaits with
    ⟨code,rest,hc,hm⟩ | ⟨code,rest,hc,hreq⟩ | ⟨call,rest,hc,hpaused⟩
  · rw [hcontrol, hc]
    have hblocked : w.state.stopTheWorldRequested = true ∧
        w.state.collectorThread ≠ some other := by
      simpa [State.mayProceed] using hm
    obtain ⟨hreq,hsame⟩ := hflags hblocked.1
    simpa [State.mayProceed, hreq, hsame] using hblocked.2
  · rw [hcontrol, hc]
    exact (hflags hreq).1
  · rw [hcontrol, hc]
    have hmem : Frame.waiting call ∈ w.control other := by
      rw [hc]
      exact List.mem_cons_self
    have ho := (hp.thread other).owner_of_mem hmem rfl
    have hsame := ht.threads_of_silent hp ho hne.symm hsilent
    simpa only [State.othersPaused, hsame, Bool.not_eq_true'] using hpaused

end

/-! ## Nobody sleeps through its turn -/

section
variable {m m' : Monitor} {thread : ThreadId}

theorem next_step {label : Label} (h : m.next (.step label) = some m') :
    m.asleep label.thread = false ∧ ∃ w, step label m.world = some w ∧ m' = m.stepAwake label w := by
  simp only [Monitor.next] at h
  split_ifs at h with hasleep
  obtain ⟨w,hw,hm'⟩ := Option.map_eq_some_iff.mp h
  exact ⟨by simpa using hasleep,w,hw,hm'.symm⟩

theorem next_testsAgain (h : m.next (.testsAgain thread) = some m') :
    m.asleep thread = false ∧ m.world.waitsForOthers thread = true ∧
      m' = { m with asleep := Function.update m.asleep thread true } := by
  simp only [Monitor.next] at h
  split_ifs at h with hawake
  exact ⟨hawake.1,hawake.2,(Option.some.inj h).symm⟩

theorem ReachableMonitor.world (h : ReachableMonitor m) : ReachableWorld m.world := by
  refine Reachable.invariant (P := fun m : Monitor => ReachableWorld m.world)
    (fun _ hinit => .of_init hinit.1) ?_ h
  intro turn m m' hr hnext
  cases turn with
  | step label =>
    obtain ⟨-,w,hw,rfl⟩ := next_step hnext
    exact hr.step hw
  | testsAgain thread =>
    obtain ⟨-,-,rfl⟩ := next_testsAgain hnext
    exact hr
  | wakesSpuriously thread =>
    cases hnext
    exact hr

theorem ReachableMonitor.asleep_waits (h : ReachableMonitor m) (hasleep : m.asleep thread = true) :
    m.world.waitsForOthers thread = true := by
  refine Reachable.induction (P := fun m : Monitor => ∀ thread, m.asleep thread = true →
    m.world.waitsForOthers thread = true) ?_ ?_ h thread hasleep
  · intro m hinit thread hasleep
    rw [hinit.2 thread] at hasleep
    cases hasleep
  · intro turn m m' hr ih hnext thread hasleep
    cases turn with
    | step label =>
      obtain ⟨-,w,hw,rfl⟩ := next_step hnext
      by_cases hthread : thread = label.thread
      · subst hthread
        simpa [Monitor.stepAwake] using hasleep
      · simp only [Monitor.stepAwake, Function.update_of_ne hthread] at hasleep ⊢
        split_ifs at hasleep with hnotifies
        exact (ReachableMonitor.world hr).waits_of_silent hw hthread (ih thread hasleep)
          (by simpa using hnotifies)
    | testsAgain other =>
      obtain ⟨-,hwaits,rfl⟩ := next_testsAgain hnext
      by_cases hthread : thread = other
      · rw [hthread]
        exact hwaits
      · exact ih thread (by simpa [Function.update_of_ne hthread] using hasleep)
    | wakesSpuriously other =>
      cases hnext
      by_cases hthread : thread = other
      · simp [hthread] at hasleep
      · exact ih thread (by simpa [Function.update_of_ne hthread] using hasleep)

theorem step_of_waits {w : World} {label : Label} (h : w.waitsForOthers label.thread = true) :
    step label w = none := by
  have hcases := waitsForOthers_cases h
  cases label with
  | user thread action =>
    have hu : inUserCode (w.control thread) = false := by
      rcases hcases with ⟨_,_,hc,-⟩ | ⟨_,_,hc,-⟩ | ⟨_,_,hc,-⟩ <;>
      · rw [Label.thread] at hc
        rw [hc]
        rfl
    simp [step, hu]
  | run thread choice =>
    rw [Label.thread] at hcases
    rcases hcases with ⟨_,_,hc,hm⟩ | ⟨_,_,hc,hs⟩ | ⟨_,_,hc,hp⟩
    · simp [step, hc, runFrame, runEntering, hm]
    · simp [step, hc, runFrame, runEntering, hs]
    · simp [step, hc, runFrame, runWindow, hp]

/-- Sleep and notification take no run away: the monitor goes wherever the manager does. -/
theorem reachableWorld_iff {w : World} :
    ReachableWorld w ↔ ∃ m, ReachableMonitor m ∧ m.world = w := by
  constructor
  · intro h
    refine h.induction (P := fun w => ∃ m, ReachableMonitor m ∧ m.world = w) ?_ ?_
    · intro memory
      exact ⟨⟨.initial memory,fun _ => false⟩,.of_init ⟨⟨memory,rfl⟩,fun _ => rfl⟩,rfl⟩
    · rintro label w w' - ⟨m,hm,rfl⟩ hstep
      have hawake : m.asleep label.thread = false := by
        by_contra hasleep
        rw [Bool.not_eq_false] at hasleep
        rw [step_of_waits (hm.asleep_waits hasleep)] at hstep
        cases hstep
      refine ⟨m.stepAwake label w',hm.step (l := .step label) ?_,rfl⟩
      simp [Monitor.next, hawake, hstep]
  · rintro ⟨m,hm,rfl⟩
    exact hm.world

/-! ## Everything settles -/

/-- How many threads inside operations are awake. -/
noncomputable def Monitor.awake (m : Monitor) : ℕ :=
  {thread | m.world.control thread ≠ [] ∧ m.asleep thread = false}.ncard

theorem ReachableMonitor.awake_lt (h : ReachableMonitor m)
    (hnext : m.next (.testsAgain thread) = some m') : m'.awake < m.awake := by
  obtain ⟨hawake,hwaits,rfl⟩ := next_testsAgain hnext
  have hne : m.world.control thread ≠ [] := by
    intro hc
    simp [World.waitsForOthers, hc] at hwaits
  apply Set.ncard_lt_ncard
  · apply Set.ssubset_iff_exists.mpr
    refine ⟨fun other hother => ?_,thread,⟨hne,hawake⟩,fun hmem => ?_⟩
    · by_cases he : other = thread
      · simp [he] at hother
      · simpa [Function.update_of_ne he] using hother
    · simp at hmem
  · exact h.world.finite_active.subset fun other hother => hother.1

/-- Below the top of the address space every step lowers a rank or puts a thread to sleep. -/
theorem Monitor.Advances.lowers (h : m.Advances m') (hr : ReachableMonitor m)
    (htop : BelowTop m.world.state) : Lowers (rank m.world) (rank m'.world) ∨
      rank m'.world = rank m.world ∧ m'.awake < m.awake := by
  rcases h with ⟨label,hin,hnext⟩ | ⟨thread,hnext⟩ | ⟨⟨thread,hloops⟩,-⟩
  · obtain ⟨-,w,hw,rfl⟩ := next_step hnext
    exact .inl (hr.world.lowers hin hw)
  · have hlt := hr.awake_lt hnext
    obtain ⟨-,-,rfl⟩ := next_testsAgain hnext
    exact .inr ⟨rfl,hlt⟩
  · exact absurd hloops (not_loops hr.world htop)

theorem Monitor.Advances.reachable (h : m.Advances m') (hr : ReachableMonitor m) :
    ReachableMonitor m' := by
  rcases h with ⟨label,-,hnext⟩ | ⟨thread,hnext⟩ | ⟨-,rfl⟩
  · exact hr.step hnext
  · exact hr.step hnext
  · exact hr

/-- There is an end to the steps inside operations. -/
theorem exists_not_advances (hr : ReachableMonitor m) (f : ℕ → Monitor) (hf : f 0 = m)
    (htop : ∀ n, BelowTop (f n).world.state) : ∃ n, ¬ (f n).Advances (f (n+1)) := by
  by_contra hall
  push Not at hall
  have hreachable : ∀ n, ReachableMonitor (f n) := by
    intro n
    induction n with
    | zero => exact hf ▸ hr
    | succ n ih => exact (hall n).reachable ih
  obtain ⟨n,hn⟩ := exists_not_lowers (fun n => rank (f n).world) (fun n => (f n).awake) (by
    simpa only [isMin_rank_iff, hf] using hr.world.finite_active)
  exact hn ((hall n).lowers (hreachable n) (htop n))

end

/-- The monitor after a list of steps of threads that are awake, from a fresh manager on cleared
memory. -/
def monitorAfter (labels : List Label) : Monitor :=
  let fresh : Monitor := ⟨.initial fun _ => 0,fun _ => false⟩
  (run Monitor.next (labels.map .step) fresh).getD fresh

theorem reachable_monitorAfter (labels : List Label) : ReachableMonitor (monitorAfter labels) := by
  have hinit : ReachableMonitor ⟨.initial fun _ => 0,fun _ => false⟩ :=
    .of_init ⟨⟨_,rfl⟩,fun _ => rfl⟩
  simp only [monitorAfter]
  cases hrun : run Monitor.next (labels.map .step) ⟨.initial fun _ => 0,fun _ => false⟩ with
  | none => exact hinit
  | some m => exact hinit.run hrun

theorem run_world : ∀ {labels : List Label} {m m' : Monitor},
    run Monitor.next (labels.map .step) m = some m' → run step labels m.world = some m'.world
  | [], m, m', h => by
    cases h
    rfl
  | label :: labels, m, m', h => by
    obtain ⟨m₁,hnext,hrest⟩ := Option.bind_eq_some_iff.mp h
    obtain ⟨-,w,hw,rfl⟩ := next_step hnext
    exact Option.bind_eq_some_iff.mpr ⟨w,hw,run_world hrest⟩

theorem monitorAfter_world (labels : List Label)
    (h : (run Monitor.next (labels.map .step) ⟨.initial fun _ => 0,fun _ => false⟩).isSome = true) :
    (monitorAfter labels).world = worldAfter labels := by
  obtain ⟨m,hm⟩ := Option.isSome_iff_exists.mp h
  have hworld := run_world hm
  simp only at hworld
  simp [monitorAfter, worldAfter, hm, hworld]

end GcLib.Protocol
