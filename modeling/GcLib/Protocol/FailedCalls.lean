import GcLib.Protocol.CallRuns
import GcLib.Protocol.Twins

/-! # Calls that fail

A collection or a shutdown that fails did so before its window completed. Up to then
it has changed only mark bytes and the window itself, and the step that raises the
error also closes the window.
-/

namespace GcLib.Protocol
open GcLib.Heap GcLib.Support Relation

/-- The registered threads with their stack bottoms. -/
def registrations (s : State) : List (ThreadId × ℕ) :=
  s.threads.entries.map fun entry => (entry.1,entry.2.stackBottom)

/-- Nothing differs but mark bytes, the window, and where threads wait for it to close. -/
structure Kept (s s' : State) : Prop where
  frame : { s' with
    threads := s.threads
    collectorThread := s.collectorThread
    stopTheWorldRequested := s.stopTheWorldRequested
    collecting := s.collecting
    marks := s.marks } = s
  registrations : registrations s' = registrations s

def WindowClosed (s : State) : Prop :=
  s.collecting = false ∧ s.stopTheWorldRequested = false ∧ s.collectorThread = none

/-- The step belongs to the thread, or only lets another thread wait or go on. -/
def Undisturbed (thread : ThreadId) (label : Label) (w : World) : Prop :=
  label.thread = thread ∨ ∀ w', step label w = some w' → Kept w.state w'.state ∧ w'.log = w.log

namespace Kept
variable {s s' s'' : State} {thread : ThreadId}

theorem refl (s : State) : Kept s s := ⟨rfl,rfl⟩

theorem trans (h : Kept s s') (h' : Kept s' s'') : Kept s s'' := by
  refine ⟨?_,h'.registrations.trans h.registrations⟩
  have hframe := h'.frame
  exact (congrArg (fun u : State => { u with
    threads := s.threads
    collectorThread := s.collectorThread
    stopTheWorldRequested := s.stopTheWorldRequested
    collecting := s.collecting
    marks := s.marks }) hframe).trans h.frame

theorem of_eqButMarks (h : s'.EqButMarks s) : Kept s s' := by
  rw [h.eq_with]
  exact ⟨rfl,rfl⟩

theorem openWindow (s : State) (thread : ThreadId) : Kept s (s.openWindow thread) := ⟨rfl,rfl⟩

theorem release (s : State) : Kept s s.releaseStopTheWorld := ⟨rfl,rfl⟩

/-- Parking and unparking keep the stack bottom. -/
theorem of_modify {f : ThreadState → ThreadState} (hf : ∀ t, (f t).stackBottom = t.stackBottom) :
    Kept s { s with threads := s.threads.modify thread f } := by
  refine ⟨rfl,?_⟩
  unfold Protocol.registrations OrderedMap.modify
  rw [List.map_map]
  refine List.map_congr_left fun entry _ => ?_
  simp only [Function.comp_apply]
  split_ifs
  · rw [hf]
  · rfl

end Kept

section
variable {thread : ThreadId} {s s' : State} {call : WindowCall} {stage stage' : Stage}

theorem Published.kept (h : Published s (.call call.call) s') : Kept s s' := by
  generalize hcode : Section.call call.call = code at h
  cases h with
  | nothing => exact .refl s
  | rootRange => cases call <;> cases hcode

theorem Cooperated.kept (h : Cooperated thread s (.call call.call) stage s') : Kept s s' := by
  cases h with
  | enter hp => exact hp.kept
  | blocked => exact .refl s
  | spilling => exact .refl s
  | parked => exact .of_modify fun _ => rfl

theorem Stalled.kept (h : Stalled thread s (.call call.call) stage s' stage') : Kept s s' := by
  cases h with
  | spill hp => exact hp.kept
  | block hp => exact hp.kept
  | park => exact .of_modify fun _ => rfl
  | reblock => exact .refl s

end

/-- How far a call has come that may yet fail; once its window completed it can fail no more. -/
inductive FailurePhase (call : WindowCall) (thread : ThreadId) (rest : List Frame)
    (w u : World) : Prop where
  | entering {stage : Stage} (hc : u.control thread = .entering (.call call.call) stage :: rest)
      (hk : Kept w.state u.state) (hl : u.log = w.log)
  | waiting (hc : u.control thread = .waiting call :: rest) (hk : Kept w.state u.state)
      (hl : u.log = w.log)
  | failing {e : GCError} (hc : u.control thread = .releasing (.error e) :: rest)
      (hk : Kept w.state u.state) (hl : u.log = w.log)
  | batch {upper : List Frame} {frame : Frame} (hf : frame.runsBatch = true)
      (hc : u.control thread = upper ++ frame :: rest)
  | completed (hc : u.control thread = .releasing (.ok .unit) :: rest)

/-- How such a call ends. -/
inductive CallEnd (thread : ThreadId) (rest : List Frame) (w u : World) : Prop where
  | fails (hk : Kept w.state u.state) (hl : u.log = w.log) (hw : WindowClosed u.state)
      (hc : u.control thread = resumed rest false)
  | returns (u₁ : World) (value : Value) (hu : u = u₁.deliver thread rest (.ok value))

section
variable {call : WindowCall} {rest : List Frame} {w u u' : World} {label : Label}

theorem ProtocolInvariant.windowClosed (h : ProtocolInvariant w)
    (hc : w.state.collecting = false) : WindowClosed w.state := by
  have hstop := h.collecting_eq.symm.trans hc
  exact ⟨hc,hstop,h.not_requested hstop⟩

theorem FailurePhase.own_step (h : ReachableWorld u) (hd : call.detaches = true)
    (hp : FailurePhase call label.thread rest w u) (hstep : step label u = some u') :
    FailurePhase call label.thread rest w u' ∨ CallEnd label.thread rest w u' := by
  have hh := h.invariant
  have ht := step_transition hstep
  cases hp with
  | entering hc hk hl =>
    cases ht with
    | runsSection hc' hco hrun =>
      rw [hc] at hc'
      cases hc'
      rcases (meets_windowSection _ _ call).returns hrun with
        ⟨-,rfl,value,rfl,-⟩ | ⟨-,rfl,rfl⟩
      · exact Or.inr (.returns _ value rfl)
      · refine Or.inl (.waiting (Function.update_self ..) ?_ ?_)
        · exact (hk.trans hco.kept).trans (.openWindow _ _)
        · cases call <;> exact (List.append_nil _).trans hl
    | callThrows hc' hco hrun =>
      rw [hc] at hc'
      cases hc'
      obtain ⟨rfl,hnot⟩ := (meets_windowSection _ _ call).throws hrun
      refine Or.inr (.fails ?_ ?_ ?_ ?_)
      · rw [deliver_state]
        exact hk.trans hco.kept
      · rw [deliver_log]
        exact hl
      · have hr' : ReachableWorld _ := Reachable.step h hstep
        refine hr'.invariant.protocol.windowClosed ?_
        rw [deliver_state]
        exact hnot hd
      · rw [deliver_control, Function.update_self]
        rfl
    | prologueThrows hc' =>
      rw [hc] at hc'
      cases call <;> cases hc'
    | stalls hc' hs =>
      rw [hc] at hc'
      cases hc'
      exact Or.inl (.entering (Function.update_self ..) (hk.trans hs.kept) hl)
    | _ => simp_all [inUserCode]
  | waiting hc hk hl =>
    cases ht with
    | windowDestroys hc' hp hm hrun =>
      rw [hc] at hc'
      cases hc'
      exact Or.inl (@FailurePhase.batch _ _ _ _ _ [] _ rfl (Function.update_self ..))
    | windowReturns hc' hp hm hrun =>
      rw [hc] at hc'
      cases hc'
      obtain ⟨blocks,h⟩ := WindowCall.body_returns_destroy hd hrun
      cases h
    | windowThrows hc' hp hm hrun =>
      rw [hc] at hc'
      cases hc'
      have he := (meets_windowBody hh.heap (hh.protocol.rootsInSpace hm) _ _).throws hrun
      exact Or.inl (.failing (Function.update_self ..) (hk.trans (.of_eqButMarks he)) hl)
    | _ => simp_all [inUserCode]
  | failing hc hk hl =>
    cases ht with
    | releases hc' =>
      rw [hc] at hc'
      cases hc'
      refine Or.inr (.fails ?_ ?_ ?_ ?_)
      · rw [deliver_state]
        exact hk.trans (.release _)
      · rw [deliver_log]
        exact hl
      · rw [deliver_state]
        exact ⟨rfl,rfl,rfl⟩
      · rw [deliver_control, Function.update_self]
        rfl
    | _ => simp_all [inUserCode]
  | batch hf hc =>
    rcases batch_step hf hc hstep with ⟨upper',frame',hf',hc'⟩ | hc'
    · exact Or.inl (.batch hf' hc')
    · exact Or.inl (.completed hc')
  | completed hc =>
    cases ht with
    | releases hc' =>
      rw [hc] at hc'
      cases hc'
      exact Or.inr (.returns _ .unit rfl)
    | _ => simp_all [inUserCode]

theorem FailurePhase.other_step {thread : ThreadId} (h : ReachableWorld u)
    (hp : FailurePhase call thread rest w u) (hne : label.thread ≠ thread)
    (hundisturbed : Undisturbed thread label u) (hstep : step label u = some u') :
    FailurePhase call thread rest w u' := by
  have hc' := h.control hstep thread (Ne.symm hne)
  obtain ⟨hk',hl'⟩ := hundisturbed.resolve_left hne u' hstep
  cases hp with
  | entering hc hk hl => exact .entering (hc'.trans hc) (hk.trans hk') (hl'.trans hl)
  | waiting hc hk hl => exact .waiting (hc'.trans hc) (hk.trans hk') (hl'.trans hl)
  | failing hc hk hl => exact .failing (hc'.trans hc) (hk.trans hk') (hl'.trans hl)
  | batch hf hc => exact .batch hf (hc'.trans hc)
  | completed hc => exact .completed (hc'.trans hc)

end
section
variable {call : WindowCall} {thread : ThreadId} {rest : List Frame} {w u w' : World} {e : GCError}

theorem FailurePhase.length_lt (h : FailurePhase call thread rest w u) :
    rest.length < (u.control thread).length := by
  cases h with
  | entering hc | waiting hc | failing hc | completed hc => simp [hc]
  | batch hf hc =>
    simp only [hc, List.length_append, List.length_cons]
    omega

/-- A thread that is back on the stack of the caller, or below it, has left the call. -/
theorem left_inside {P : Label → World → Prop}
    (hin : ReflTransGen (StepInside P thread rest) u w')
    (hle : (u.control thread).length ≤ rest.length) : w' = u := by
  cases hin using ReflTransGen.head_induction_on with
  | refl => rfl
  | head hstep =>
    obtain ⟨-,hsuffix,hne⟩ := hstep
    exact absurd (hsuffix.eq_of_length_le hle).symm hne

theorem length_deliver_le (u : World) (thread : ThreadId) (rest : List Frame)
    (result : Except GCError Value) :
    ((u.deliver thread rest result).control thread).length ≤ rest.length := by
  rw [deliver_control, Function.update_self]
  exact length_resumed_le rest _

/-- A call that delivers a value has not failed. -/
theorem not_failed_deliver_ok (u : World) (value : Value)
    (hc : (u.deliver thread rest (.ok value)).control thread = resumed rest false) :
    (u.deliver thread rest (.ok value)).result thread ≠ some (.error e) := by
  cases rest with
  | nil => simp [World.deliver, World.setResult]
  | cons frame below =>
    cases frame with
    | collecting request =>
      simp [World.deliver, World.setControl, resumed] at hc
    | _ => simp [World.deliver, World.setResult]

/-- What holds when a call that others leave alone has failed. -/
theorem failed_run (hd : call.detaches = true) (hu : ReachableWorld u)
    (hp : FailurePhase call thread rest w u)
    (hin : ReflTransGen (StepInside (Undisturbed thread) thread rest) u w')
    (hc : w'.control thread = resumed rest false)
    (hr : w'.result thread = some (.error e)) :
    Kept w.state w'.state ∧ w'.log = w.log ∧ WindowClosed w'.state := by
  induction hin using ReflTransGen.head_induction_on with
  | refl =>
    have hlt := FailurePhase.length_lt hp
    rw [hc] at hlt
    exact absurd (length_resumed_le rest false) (by omega)
  | head hstep hin ih =>
    rename_i u u'
    obtain ⟨⟨label,hundisturbed,hstep⟩,-,-⟩ := hstep
    by_cases hthread : label.thread = thread
    · subst hthread
      rcases hp.own_step hu hd hstep with hp' | hend
      · exact ih (Reachable.step hu hstep) hp'
      · cases hend with
        | fails hk hl hw hc' =>
          have hle : (u'.control label.thread).length ≤ rest.length := by
            rw [hc']
            exact length_resumed_le rest false
          obtain rfl := left_inside hin hle
          exact ⟨hk,hl,hw⟩
        | returns u₁ value hu' =>
          subst hu'
          obtain rfl := left_inside hin (length_deliver_le ..)
          exact absurd hr (not_failed_deliver_ok u₁ value hc)
    · exact ih (Reachable.step hu hstep) (hp.other_step hu hthread hundisturbed hstep)

/-! ## Calls no other thread overtakes -/

/-- How far the call has come when no other thread has taken a step since. -/
inductive AlonePhase (call : WindowCall) (thread : ThreadId) (rest : List Frame) (w : World) :
    World → Prop where
  | start : AlonePhase call thread rest w w
  | blocked {u : World} {stage : Stage} (hs : stage ≠ .enter)
      (hc : u.control thread = .entering (.call call.call) stage :: rest)
      (hm : u.state.mayProceed thread = false) : AlonePhase call thread rest w u
  | waiting (hw : WindowClosed w.state) : AlonePhase call thread rest w
      ((w.setState (w.state.openWindow thread)).setControl thread (.waiting call :: rest))
  | failing {s : State} {e : GCError} (hw : WindowClosed w.state)
      (hs : s.EqButMarks (w.state.openWindow thread)) : AlonePhase call thread rest w
      ((w.setState s).setControl thread (.releasing (.error e) :: rest))
  | batch {u : World} {upper : List Frame} {frame : Frame} (hf : frame.runsBatch = true)
      (hc : u.control thread = upper ++ frame :: rest) : AlonePhase call thread rest w u
  | completed {u : World} (hc : u.control thread = .releasing (.ok .unit) :: rest) :
      AlonePhase call thread rest w u

/-- How such a call ends: it fails with only mark bytes changed, or it returns. -/
inductive AloneEnd (thread : ThreadId) (rest : List Frame) (w : World) : World → Prop where
  | fails {s : State} {e : GCError} (hs : s.EqButMarks w.state) :
      AloneEnd thread rest w ((w.setState s).deliver thread rest (.error e))
  | returns (u : World) (value : Value) :
      AloneEnd thread rest w (u.deliver thread rest (.ok value))

theorem releaseStopTheWorld_eqButMarks {s s' : State} (hw : WindowClosed s)
    (hs : s'.EqButMarks (s.openWindow thread)) : s'.releaseStopTheWorld.EqButMarks s := by
  obtain ⟨hc,hr,ht⟩ := hw
  have he := hs.eq
  unfold State.EqButMarks State.releaseStopTheWorld State.openWindow at *
  cases s
  cases s'
  simp_all

theorem AlonePhase.own_step {label : Label} {u' : World} (h : ReachableWorld w)
    (hc : w.control label.thread = .entering (.call call.call) .enter :: rest)
    (hd : call.detaches = true) (hu : ReachableWorld u)
    (hp : AlonePhase call label.thread rest w u) (hstep : step label u = some u') :
    AlonePhase call label.thread rest w u' ∨ AloneEnd label.thread rest w u' := by
  have ht := step_transition hstep
  cases hp with
  | start =>
    have hsame : ∀ {s : State}, Published w.state (.call call.call) s → s = w.state := by
      intro s hp
      generalize hcode : Section.call call.call = code at hp
      cases hp with
      | nothing => rfl
      | rootRange => cases call <;> cases hcode
    cases ht with
    | runsSection hc' hco hrun =>
      rename_i code stage rest' s s' fuel supply supply' next
      rw [hc] at hc'
      cases hc'
      cases hco with
      | enter hpublished hm =>
        obtain rfl := hsame hpublished
        rcases (meets_windowSection _ _ call).returns hrun with
          ⟨-,rfl,value,rfl,-⟩ | ⟨hcollecting,rfl,rfl⟩
        · exact Or.inr (.returns _ value)
        · have hlog : (w.setState (w.state.openWindow label.thread)).emit
              ((Section.call call.call).events w.state (w.state.openWindow label.thread)
                (.window call)) = w.setState (w.state.openWindow label.thread) := by
            simp [Section.events, World.emit, World.setState]
          rw [hlog]
          exact Or.inl (.waiting (h.invariant.protocol.windowClosed hcollecting))
    | callThrows hc' hco hrun =>
      rw [hc] at hc'
      cases hc'
      cases hco with
      | enter hpublished hm =>
        obtain rfl := hsame hpublished
        obtain ⟨rfl,-⟩ := (meets_windowSection _ _ call).throws hrun
        exact Or.inr (.fails (.refl _))
    | prologueThrows hc' =>
      rw [hc] at hc'
      cases call <;> cases hc'
    | stalls hc' hs =>
      rw [hc] at hc'
      cases hc'
      cases hs with
      | spill hpublished hm =>
        exact Or.inl (.blocked (by decide : Stage.spilling ≠ .enter) (Function.update_self ..) hm)
      | block hpublished hm =>
        exact Or.inl (.blocked (by decide : Stage.blocked ≠ .enter) (Function.update_self ..) hm)
    | _ => simp_all [inUserCode]
  | blocked hs hc hm =>
    rename_i stage
    -- Only another thread could close the window this one waits for.
    have hnever : ∀ {s : State}, ¬ Cooperated label.thread u.state (.call call.call) stage s := by
      intro s hco
      cases hco with
      | enter => exact hs rfl
      | blocked hm' | spilling hm' =>
        rw [hm] at hm'
        cases hm'
      | parked hstop => simp [State.mayProceed, hstop] at hm
    cases ht with
    | runsSection hc' hco =>
      rw [hc] at hc'
      cases hc'
      exact absurd hco hnever
    | callThrows hc' hco =>
      rw [hc] at hc'
      cases hc'
      exact absurd hco hnever
    | prologueThrows hc' =>
      rw [hc] at hc'
      cases call <;> cases hc'
    | stalls hc' hstalled =>
      rw [hc] at hc'
      cases hc'
      cases hstalled with
      | spill | block => exact absurd rfl hs
      | park =>
        exact Or.inl (.blocked (by decide : Stage.parked ≠ .enter) (Function.update_self ..) hm)
      | reblock =>
        exact Or.inl (.blocked (by decide : Stage.blocked ≠ .enter) (Function.update_self ..) hm)
    | _ => simp_all [inUserCode]
  | waiting hw =>
    have hc' : ((w.setState (w.state.openWindow label.thread)).setControl label.thread
        (.waiting call :: rest)).control label.thread = .waiting call :: rest :=
      Function.update_self ..
    generalize hworld : (w.setState (w.state.openWindow label.thread)).setControl label.thread
      (.waiting call :: rest) = u at *
    cases ht with
    | windowDestroys hc'' =>
      rw [hc'] at hc''
      cases hc''
      exact Or.inl (@AlonePhase.batch _ _ _ _ _ [] _ rfl (Function.update_self ..))
    | windowReturns hc'' hp hm hrun =>
      rw [hc'] at hc''
      cases hc''
      obtain ⟨blocks,h⟩ := WindowCall.body_returns_destroy hd hrun
      cases h
    | windowThrows hc'' hp hm hrun =>
      rename_i call' rest' fuel env supply e s
      rw [hc'] at hc''
      cases hc''
      have hinv := hu.invariant
      have he := (meets_windowBody hinv.heap (hinv.protocol.rootsInSpace hm) _ _).throws hrun
      subst hworld
      have hset : (((w.setState (w.state.openWindow label.thread)).setControl label.thread
          (.waiting call :: rest)).setState s).setControl label.thread
            (.releasing (.error e) :: rest) =
          (w.setState s).setControl label.thread (.releasing (.error e) :: rest) := by
        simp [World.setControl, World.setState]
      rw [hset]
      exact Or.inl (.failing hw he)
    | _ => simp_all [inUserCode]
  | failing hw hs =>
    rename_i s e
    have hc' : ((w.setState s).setControl label.thread
        (.releasing (.error e) :: rest)).control label.thread = .releasing (.error e) :: rest :=
      Function.update_self ..
    generalize hworld : (w.setState s).setControl label.thread
      (.releasing (.error e) :: rest) = u at *
    cases ht with
    | releases hc'' =>
      rw [hc'] at hc''
      cases hc''
      subst hworld
      have hdeliver : (((w.setState s).setControl label.thread
          (.releasing (.error e) :: rest)).setState s.releaseStopTheWorld).deliver label.thread
            rest (.error e) =
          (w.setState s.releaseStopTheWorld).deliver label.thread rest (.error e) := by
        unfold World.deliver
        split <;> simp [World.setControl, World.setState, World.setResult]
      exact Or.inr (hdeliver ▸ .fails (releaseStopTheWorld_eqButMarks hw hs))
    | _ => simp_all [inUserCode]
  | batch hf hc =>
    rcases batch_step hf hc hstep with ⟨upper',frame',hf',hc'⟩ | hc'
    · exact Or.inl (.batch hf' hc')
    · exact Or.inl (.completed hc')
  | completed hc =>
    cases ht with
    | releases hc' =>
      rw [hc] at hc'
      cases hc'
      exact Or.inr (.returns _ .unit)
    | _ => simp_all [inUserCode]

/-- A call that failed while no other thread ran has changed nothing but mark bytes. -/
theorem failed_alone (h : ReachableWorld w) (hd : call.detaches = true)
    (hstart : w.control thread = .entering (.call call.call) .enter :: rest)
    (hu : ReachableWorld u) (hp : AlonePhase call thread rest w u)
    (hin : ReflTransGen (StepInside (fun label _ => label.thread = thread) thread rest) u w')
    (hc : w'.control thread = resumed rest false)
    (hr : w'.result thread = some (.error e)) :
    ∃ s e, s.EqButMarks w.state ∧ w' = (w.setState s).deliver thread rest (.error e) := by
  induction hin using ReflTransGen.head_induction_on with
  | refl =>
    have hle := length_resumed_le rest false
    rw [← hc] at hle
    cases hp with
    | start => simp [hstart] at hle
    | blocked hs hc' => simp [hc'] at hle
    | waiting => simp [World.setControl] at hle
    | failing => simp [World.setControl] at hle
    | batch hf hc' =>
      simp only [hc', List.length_append, List.length_cons] at hle
      omega
    | completed hc' => simp [hc'] at hle
  | head hstep hin ih =>
    obtain ⟨⟨label,rfl,hstep⟩,-,-⟩ := hstep
    rcases hp.own_step h hstart hd hu hstep with hp' | hend
    · exact ih (Reachable.step hu hstep) hp'
    · cases hend with
      | fails hs =>
        obtain rfl := left_inside hin (length_deliver_le ..)
        exact ⟨_,_,hs,rfl⟩
      | returns u₁ value =>
        obtain rfl := left_inside hin (length_deliver_le ..)
        exact absurd hr (not_failed_deliver_ok u₁ value hc)

end

/-- The world in which a call that was about to start had never been made, for its caller the
same as one in which the call threw. -/
def World.without (w : World) (thread : ThreadId) (rest : List Frame) : World :=
  w.setControl thread (resumed rest false)

end GcLib.Protocol
