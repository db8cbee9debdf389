import GcLib.Protocol.Windows

/-! # Calls that stop the world

A call lasts as long as its thread's stack extends the stack it was made on. While it
lasts it completes its window once, unless its thread owned a window when it was made;
then it never opens one. The completed windows of a run are listed with the call they
belong to.
-/

namespace GcLib.Protocol
open GcLib.Heap GcLib.Support

namespace WindowCall

/-- The public operation that opens the window. -/
def call : WindowCall → Call
  | collect => .collect
  | shutdown => .shutdown
  | liveObjects => .liveObjects
  | objectInfo pointer => .objectInfo pointer

/-- `collect` and `shutdown` take blocks out of the registry. -/
def detaches : WindowCall → Bool
  | collect => true
  | shutdown => true
  | _ => false

end WindowCall

/-- The section of such a call: with a window open it is over, otherwise it opens one. -/
theorem meets_windowSection {s : State} (thread : ThreadId) (fuel : ℕ) (call : WindowCall) :
    (Section.body thread fuel (.call call.call)).Meets s
      (fun next s' => (s.collecting = true ∧ s' = s ∧ ∃ value, next = .done value ∧
          (call.detaches = true → value = .unit)) ∨
        (s.collecting = false ∧ s' = s.openWindow thread ∧ next = .window call))
      (fun _ s' => s' = s ∧ (call.detaches = true → s.collecting = false)) := by
  have hopen : s.collecting = false → ∀ call' : WindowCall, call' = call →
      (openWindow thread call').Meets s
      (fun next s' => (s.collecting = true ∧ s' = s ∧ ∃ value, next = .done value ∧
          (call.detaches = true → value = .unit)) ∨
        (s.collecting = false ∧ s' = s.openWindow thread ∧ next = .window call))
      (fun _ s' => s' = s ∧ (call.detaches = true → s.collecting = false)) := by
    rintro hn _ rfl
    exact Exec.meets_bind (Exec.meets_modify (Exec.meets_pure (Or.inr ⟨hn,rfl,rfl⟩)))
  refine Exec.meets_bind (Exec.meets_get ?_)
  cases call with
  | collect =>
    dsimp only [WindowCall.call]
    split_ifs with hc
    · exact Exec.meets_pure (Or.inl ⟨hc,rfl,_,rfl,fun _ => rfl⟩)
    · have hn : s.collecting = false := by simpa using hc
      exact Exec.meets_bind (meets_requireRegisteredThreadLocked
        (fun _ => hopen hn _ rfl) (fun _ => ⟨rfl,fun _ => hn⟩))
  | shutdown =>
    dsimp only [WindowCall.call]
    split_ifs with hc
    · exact Exec.meets_pure (Or.inl ⟨hc,rfl,_,rfl,fun _ => rfl⟩)
    · exact hopen (by simpa using hc) _ rfl
  | liveObjects =>
    dsimp only [WindowCall.call]
    split_ifs with hc
    · refine Exec.meets_bind ((meets_liveObjectsLocked fuel).mono ?_ (fun _ _ h => ⟨h.2,nofun⟩))
      rintro objects s' rfl
      exact Exec.meets_pure (Or.inl ⟨hc,rfl,_,rfl,nofun⟩)
    · exact hopen (by simpa using hc) _ rfl
  | objectInfo pointer =>
    dsimp only [WindowCall.call]
    split_ifs with hc
    · refine Exec.meets_bind ((meets_objectInfoLocked fuel pointer).mono ?_
        (fun _ _ h => ⟨h.2,nofun⟩))
      rintro object s' rfl
      exact Exec.meets_pure (Or.inl ⟨hc,rfl,_,rfl,nofun⟩)
    · exact hopen (by simpa using hc) _ rfl

/-- How a step changes the stack of its thread. -/
inductive StackMove (stack stack' : List Frame) : Prop where
  | stays (h : stack' = stack)
  | calls (frame : Frame) (hu : inUserCode stack = true) (h : stack' = frame :: stack)
  | replaces (frame : Frame) (rest new : List Frame) (h : stack = frame :: rest)
      (h' : stack' = new ++ rest)
  | returns (frame : Frame) (rest : List Frame) (ok : Bool) (h : stack = frame :: rest)
      (h' : stack' = resumed rest ok)

section
variable {w w' : World} {thread : ThreadId} {rest : List Frame}

theorem Transition.stackMove (ht : Transition thread w w') :
    StackMove (w.control thread) (w'.control thread) := by
  have hreturn : ∀ {frame : Frame} {rest : List Frame} {w₁ : World}
      {result : Except GCError Value}, w₁.control = w.control →
      w.control thread = frame :: rest →
      StackMove (w.control thread) ((w₁.deliver thread rest result).control thread) := by
    intro frame rest w₁ result hcontrol hc
    exact .returns frame rest _ hc (by rw [deliver_control, Function.update_self])
  cases ht with
  | store => exact .stays rfl
  | immediate => exact .stays rfl
  | call hw hi hu => exact .calls _ hu (Function.update_self ..)
  | finalizerReturns hc => exact .replaces _ _ [_] hc (Function.update_self ..)
  | runsSection hc hco hrun =>
    rename_i code stage rest s s' fuel supply supply' next
    cases next with
    | done value => exact hreturn rfl hc
    | window call => exact .replaces _ _ [_] hc (Function.update_self ..)
    | allocate request => exact .replaces _ _ [_] hc (Function.update_self ..)
    | free header => exact .replaces _ _ [_] hc (Function.update_self ..)
    | collect => exact .replaces _ _ [_] hc (Function.update_self ..)
  | callThrows hc => exact hreturn rfl hc
  | publishThrows hc => exact hreturn rfl hc
  | prologueThrows hc => exact hreturn rfl hc
  | stalls hc => exact .replaces _ _ [_] hc (Function.update_self ..)
  | windowDestroys hc => exact .replaces _ _ [_] hc (Function.update_self ..)
  | windowReturns hc => exact .replaces _ _ [_] hc (Function.update_self ..)
  | windowThrows hc => exact .replaces _ _ [_] hc (Function.update_self ..)
  | destroyed hc => exact .replaces _ _ [_] hc (Function.update_self ..)
  | skips hc => exact .replaces _ _ [_] hc (Function.update_self ..)
  | finalizes hc => exact .replaces _ _ [_] hc (Function.update_self ..)
  | freed hc => exact .replaces _ _ [_] hc (Function.update_self ..)
  | frees hc => exact .replaces _ _ [_] hc (Function.update_self ..)
  | releases hc => exact hreturn rfl hc
  | outOfMemory hc => exact hreturn rfl hc
  | retries hc => exact .replaces _ _ [_,_] hc (Function.update_self ..)
  | places hc => exact .replaces _ _ [_] hc (Function.update_self ..)
  | freesBlock hc => exact hreturn rfl hc

end

/-- The call whose window completes in a step, by its thread and the stack it was made on. -/
def completedWindow (call : WindowCall) (label : Label) (w w' : World) :
    Option (ThreadId × List Frame) :=
  match w.control label.thread, w'.control label.thread with
  | .waiting c :: rest, .destroying _ _ :: _ =>
    if c = call then some (label.thread,rest) else none
  | _, _ => none

/-- The calls whose windows complete along a run, in order. -/
def completedWindows (call : WindowCall) : List Label → World → List (ThreadId × List Frame)
  | [], _ => []
  | label :: labels, w =>
    match step label w with
    | none => []
    | some w' => (completedWindow call label w w').toList ++ completedWindows call labels w'

/-- The thread stays inside the call it made on a stack until the run ends. -/
def Inside (thread : ThreadId) (rest : List Frame) : List Label → World → Prop
  | [], _ => True
  | label :: labels, w => rest <:+ w.control thread ∧ w.control thread ≠ rest ∧
    match step label w with
    | none => True
    | some w' => Inside thread rest labels w'

instance decidableInside (thread : ThreadId) (rest : List Frame) :
    ∀ labels w, Decidable (Inside thread rest labels w)
  | [], _ => inferInstanceAs (Decidable True)
  | label :: labels, w =>
    have : Decidable (match step label w with
        | none => True
        | some w' => Inside thread rest labels w') :=
      match step label w with
      | none => inferInstanceAs (Decidable True)
      | some w' => decidableInside thread rest labels w'
    inferInstanceAs (Decidable (_ ∧ _ ∧ _))

/-- A call without a result has returned normally to the stack it was made on. -/
def ReturnedOk (w : World) (thread : ThreadId) : List Frame → Prop
  | .collecting request :: below => w.control thread = .allocating request true :: below
  | rest => w.control thread = rest ∧ w.result thread = some (.ok .unit)

/-- Frames of `destroy_blocks`. -/
def Frame.runsBatch : Frame → Bool
  | .destroying _ _ => true
  | .finalizer _ _ => true
  | .freeing _ => true
  | _ => false

/-- The stack during a call, with the number of windows the call has yet to complete. -/
inductive CallPhase (call : WindowCall) (rest : List Frame) : ℕ → List Frame → Prop where
  | entering (stage : Stage) : CallPhase call rest (if rest.any Frame.owns then 0 else 1)
      (.entering (.call call.call) stage :: rest)
  | waiting : CallPhase call rest 1 (.waiting call :: rest)
  | destroying (upper : List Frame) (frame : Frame) (hf : frame.runsBatch = true) :
      CallPhase call rest 0 (upper ++ frame :: rest)
  | releasing (value : Value) : CallPhase call rest 0 (.releasing (.ok value) :: rest)
  | failing (e : GCError) (n : ℕ) : CallPhase call rest n (.releasing (.error e) :: rest)


theorem CallPhase.length_lt {call : WindowCall} {rest stack : List Frame} {n : ℕ}
    (h : CallPhase call rest n stack) : rest.length < stack.length := by
  cases h <;> simp
  omega

theorem length_resumed_le (rest : List Frame) (ok : Bool) :
    (resumed rest ok).length ≤ rest.length := by
  unfold resumed
  split
  · split_ifs <;> simp
  · exact le_rfl

theorem ReturnedOk.length_eq {w : World} {thread : ThreadId} :
    ∀ {rest : List Frame}, ReturnedOk w thread rest →
      (w.control thread).length = rest.length := by
  intro rest h
  unfold ReturnedOk at h
  split at h
  · rw [h]
    rfl
  · rw [h.1]

theorem completedWindow_eq_some {call : WindowCall} {label : Label} {w w' : World}
    {entry : ThreadId × List Frame} (h : completedWindow call label w w' = some entry) :
    label.thread = entry.1 ∧ ∃ blocks pending above,
      w.control entry.1 = .waiting call :: entry.2 ∧
        w'.control entry.1 = .destroying blocks pending :: above := by
  unfold completedWindow at h
  split at h
  · rename_i c rest blocks pending above hc hc'
    split_ifs at h with he
    cases h
    subst he
    exact ⟨rfl,blocks,pending,above,hc,hc'⟩
  · cases h

section
variable {call : WindowCall} {w w' : World} {label : Label} {rest : List Frame}

theorem count_completedWindow_eq_zero {thread : ThreadId}
    (h : label.thread = thread → w.control thread ≠ .waiting call :: rest) :
    (completedWindow call label w w').toList.count (thread,rest) = 0 := by
  rw [List.count_eq_zero]
  intro hmem
  obtain ⟨hthread,-,-,-,hc,-⟩ := completedWindow_eq_some (Option.mem_toList.mp hmem)
  exact h hthread hc

end

theorem not_returnedOk_deliver_error (w : World) (thread : ThreadId) (rest : List Frame)
    (e : GCError) : ¬ ReturnedOk (w.deliver thread rest (.error e)) thread rest := by
  intro h
  have hcontrol : (w.deliver thread rest (.error e)).control =
      Function.update w.control thread (resumed rest false) := deliver_control _
  unfold ReturnedOk at h
  split at h
  · rw [hcontrol, Function.update_self] at h
    simp [resumed] at h
  · rename_i hnot
    have hresult := h.2
    unfold World.deliver at hresult
    split at hresult
    · exact hnot _ _ rfl
    · exact hnot _ _ rfl
    · simp [World.setResult] at hresult

theorem WindowCall.body_returns_destroy {call : WindowCall} (hd : call.detaches = true)
    {thread : ThreadId} {fuel : ℕ} {env : ScanEnvironment} {s s' : State}
    {supply supply' : Supply} {after : Afterwards}
    (hrun : call.body thread fuel env s supply = .returns after s' supply') :
    ∃ blocks, after = .destroy blocks := by
  cases call with
  | collect =>
    obtain ⟨blocks,s₁,b₁,-,h⟩ := Exec.bind_returns hrun
    cases h
    exact ⟨blocks,rfl⟩
  | shutdown =>
    obtain ⟨blocks,s₁,b₁,-,h⟩ := Exec.bind_returns hrun
    cases h
    exact ⟨blocks,rfl⟩
  | liveObjects => cases hd
  | objectInfo pointer => cases hd

theorem resumed_append {frame : Frame} (hf : frame.runsBatch = true) (rest : List Frame)
    (ok : Bool) : ∀ upper : List Frame, ∃ upper',
      resumed (upper ++ frame :: rest) ok = upper' ++ frame :: rest
  | [] => ⟨[],by cases frame <;> first | rfl | cases hf⟩
  | top :: upper => by
    cases top with
    | collecting request =>
      cases ok with
      | true => exact ⟨.allocating request true :: upper,rfl⟩
      | false => exact ⟨upper,rfl⟩
    | _ => exact ⟨_ :: upper,rfl⟩

/-- What a step makes of a call in progress that has `k` windows to complete. -/
inductive CallStep (call : WindowCall) (thread : ThreadId) (rest : List Frame) (k n : ℕ)
    (w' : World) : Prop where
  | lasts (k' : ℕ) (hp : CallPhase call rest k' (w'.control thread)) (hk : k = n+k')
  | returns (hk : k = 0) (hn : n = 0) (hc : w'.control thread = resumed rest true)
  | fails (hc : w'.control thread = resumed rest false) (hf : ¬ ReturnedOk w' thread rest)

section
variable {call : WindowCall} {w w' : World} {label : Label} {rest : List Frame} {k : ℕ}

/-- A finalizer below the call owns the window exactly when the calling thread does. -/
theorem ProtocolInvariant.any_owns (h : ProtocolInvariant w) {thread : ThreadId} {frame : Frame}
    (hc : w.control thread = frame :: rest) (hf : frame.owns = false) :
    rest.any Frame.owns = true ↔ w.state.collectorThread = some thread := by
  have hcount := (h.thread thread).owner
  rw [hc, List.countP_cons_of_neg (by simp [hf])] at hcount
  rw [List.any_eq_true, ← List.countP_pos_iff, hcount]
  split_ifs with howner
  · exact iff_of_true one_pos howner
  · exact iff_of_false (lt_irrefl 0) howner

/-- The section of a call is skipped by the owner of the window, and only by it. -/
theorem CallStep.entering (h : ReachableWorld w) {stage : Stage}
    (hc : w.control label.thread = .entering (.call call.call) stage :: rest)
    (hstep : step label w = some w') :
    CallStep call label.thread rest (if rest.any Frame.owns then 0 else 1)
      ((completedWindow call label w w').toList.count (label.thread,rest)) w' := by
  have hp := h.invariant.protocol
  have hn : (completedWindow call label w w').toList.count (label.thread,rest) = 0 :=
    count_completedWindow_eq_zero (fun _ hw => by rw [hc] at hw; cases hw)
  have hany := hp.any_owns hc rfl
  rw [hn]
  cases step_transition hstep with
  | runsSection hc' hco hrun =>
    rename_i code stage' rest' s s' fuel supply supply' next
    rw [hc] at hc'
    cases hc'
    have hflags := hco.flags
    rcases (meets_windowSection _ _ call).returns hrun with
      ⟨hcollecting,rfl,value,rfl,-⟩ | ⟨hcollecting,rfl,rfl⟩
    · have howner : w.state.collectorThread = some label.thread := by
        rcases hco.mayProceed with hm | hm
        · rw [← hp.collecting_eq, ← hflags.1, hcollecting] at hm
          cases hm
        · exact hm
      rw [if_pos (hany.mpr howner)]
      refine .returns rfl rfl ?_
      rw [proceed_control, Function.update_self]
      rfl
    · have hnone : w.state.collectorThread = none := by
        refine hp.not_requested ?_
        rw [← hp.collecting_eq, ← hflags.1, hcollecting]
      rw [if_neg (fun ha => by rw [hany, hnone] at ha; cases ha)]
      refine .lasts 1 ?_ (by omega)
      rw [proceed_control, Function.update_self]
      exact .waiting
  | callThrows hc' =>
    rw [hc] at hc'
    cases hc'
    refine .fails ?_ (not_returnedOk_deliver_error _ _ _ _)
    rw [deliver_control, Function.update_self]
    rfl
  | prologueThrows hc' =>
    rw [hc] at hc'
    cases call <;> cases hc'
  | stalls hc' =>
    rw [hc] at hc'
    cases hc'
    refine .lasts _ ?_ (by rw [Nat.zero_add])
    simp only [World.setControl, Function.update_self]
    exact .entering _
  | _ => simp_all [inUserCode]

theorem owner_call (h : ReachableWorld w) {call : WindowCall} {stage : Stage}
    (hc : w.control label.thread = .entering (.call call.call) stage :: rest)
    (howner : w.state.collectorThread = some label.thread) (hstep : step label w = some w') :
    ∃ result, w' = w.deliver label.thread rest result ∧
      (call.detaches = true → result = .ok .unit) := by
  have hp := h.invariant.protocol
  have hrequested : w.state.stopTheWorldRequested = true := hp.requested_iff.mpr ⟨_,howner⟩
  have hcollecting : w.state.collecting = true := hp.collecting_eq.trans hrequested
  have hproceeds : w.state.mayProceed label.thread = true := by
    simp [State.mayProceed, howner]
  -- The owner has nothing to wait for, so its cooperation leaves the state as it is.
  have hcooperated : ∀ {s : State},
      Cooperated label.thread w.state (.call call.call) stage s → s = w.state := by
    intro s hco
    cases hco with
    | enter hpublished =>
      cases call <;> (cases hpublished; rfl)
    | blocked => rfl
    | spilling => rfl
    | parked hs =>
      rw [hrequested] at hs
      cases hs
  cases step_transition hstep with
  | runsSection hc' hco hrun =>
    rw [hc] at hc'
    cases hc'
    obtain rfl := hcooperated hco
    rcases (meets_windowSection _ _ call).returns hrun with
      ⟨-,rfl,value,rfl,hvalue⟩ | ⟨hnot,-⟩
    · refine ⟨.ok value,?_,fun hd => congrArg _ (hvalue hd)⟩
      cases call <;> simp [World.proceed, World.emit, World.setState, Section.events]
    · rw [hcollecting] at hnot
      cases hnot
  | callThrows hc' hco hrun =>
    rw [hc] at hc'
    cases hc'
    obtain rfl := hcooperated hco
    obtain ⟨rfl,hnot⟩ := (meets_windowSection _ _ call).throws hrun
    refine ⟨_,rfl,fun hd => ?_⟩
    rw [hnot hd] at hcollecting
    cases hcollecting
  | prologueThrows hc' =>
    rw [hc] at hc'
    cases call <;> cases hc'
  | stalls hc' hs =>
    rw [hc] at hc'
    cases hc'
    have hblocked : w.state.mayProceed label.thread = false := by
      cases hs with
      | spill hpublished hm =>
        cases call <;> (cases hpublished; exact hm)
      | block hpublished hm =>
        cases call <;> (cases hpublished; exact hm)
      | park hm => exact hm
      | reblock hm => exact hm
    rw [hproceeds] at hblocked
    cases hblocked
  | _ => simp_all [inUserCode]

theorem CallStep.waiting (hd : call.detaches = true)
    (hc : w.control label.thread = .waiting call :: rest) (hstep : step label w = some w') :
    CallStep call label.thread rest 1
      ((completedWindow call label w w').toList.count (label.thread,rest)) w' := by
  cases step_transition hstep with
  | windowDestroys hc' hp hm hrun =>
    rw [hc] at hc'
    cases hc'
    refine .lasts 0 ?_ ?_
    · simp only [World.setControl, Function.update_self]
      exact .destroying [] _ rfl
    · simp [completedWindow, hc, World.setControl]
  | windowReturns hc' hp hm hrun =>
    rw [hc] at hc'
    cases hc'
    obtain ⟨blocks,h⟩ := WindowCall.body_returns_destroy hd hrun
    cases h
  | windowThrows hc' =>
    rw [hc] at hc'
    cases hc'
    refine .lasts 1 ?_ ?_
    · simp only [World.setControl, Function.update_self]
      exact .failing _ _
    · simp [completedWindow, hc, World.setControl]
  | _ => simp_all [inUserCode]

/-- While `destroy_blocks` runs, whatever the finalizers do happens above it on the stack. Then the
window closes. -/
theorem batch_step {upper : List Frame} {frame : Frame} (hf : frame.runsBatch = true)
    (hc : w.control label.thread = upper ++ frame :: rest) (hstep : step label w = some w') :
    (∃ upper' frame', frame'.runsBatch = true ∧
      w'.control label.thread = upper' ++ frame' :: rest) ∨
    w'.control label.thread = .releasing (.ok .unit) :: rest := by
  have ht := step_transition hstep
  cases upper with
  | cons top upper =>
    cases ht.stackMove with
    | stays h => exact Or.inl ⟨_,_,hf,h.trans hc⟩
    | calls pushed hu h => exact Or.inl ⟨pushed :: top :: upper,_,hf,by rw [h, hc]; rfl⟩
    | replaces frame' rest' new h h' =>
      rw [hc] at h
      obtain ⟨-,rfl⟩ := List.cons.inj h
      exact Or.inl ⟨new ++ upper,_,hf,h'.trans (List.append_assoc new upper _).symm⟩
    | returns frame' rest' ok h h' =>
      rw [hc] at h
      obtain ⟨-,rfl⟩ := List.cons.inj h
      obtain ⟨upper',hu⟩ := resumed_append hf rest ok upper
      exact Or.inl ⟨upper',_,hf,h'.trans hu⟩
  | nil =>
    rw [List.nil_append] at hc
    cases ht with
    | store => exact Or.inl ⟨[],_,hf,hc⟩
    | immediate => exact Or.inl ⟨[],_,hf,hc⟩
    | call =>
      rename_i call' hw hi hu
      refine Or.inl ⟨[.entering (.call call') .enter],_,hf,?_⟩
      simp only [World.setControl, Function.update_self]
      rw [hc]
      rfl
    | finalizerReturns hc' | destroyed hc' | skips hc' | finalizes hc' | frees hc' =>
      rw [hc] at hc'
      cases hc'
      exact Or.inl ⟨[],_,rfl,Function.update_self ..⟩
    | freed hc' =>
      rw [hc] at hc'
      cases hc'
      exact Or.inr (Function.update_self ..)
    | _ =>
      cases frame <;> simp_all [Frame.runsBatch]

theorem CallStep.destroying {upper : List Frame} {frame : Frame} (hf : frame.runsBatch = true)
    (hc : w.control label.thread = upper ++ frame :: rest) (hstep : step label w = some w') :
    CallStep call label.thread rest 0
      ((completedWindow call label w w').toList.count (label.thread,rest)) w' := by
  have hn : (completedWindow call label w w').toList.count (label.thread,rest) = 0 := by
    refine count_completedWindow_eq_zero (fun _ hw => ?_)
    rw [hc] at hw
    cases upper with
    | nil =>
      cases hw
      cases hf
    | cons top upper =>
      have hlength := congrArg List.length hw
      simp only [List.length_append, List.length_cons] at hlength
      omega
  rw [hn]
  rcases batch_step hf hc hstep with ⟨upper',frame',hf',hc'⟩ | hc'
  · exact .lasts 0 (hc' ▸ .destroying upper' frame' hf') rfl
  · exact .lasts 0 (hc' ▸ .releasing _) rfl

theorem CallStep.releasing {result : Except GCError Value}
    (hc : w.control label.thread = .releasing result :: rest) (hstep : step label w = some w')
    (hk : ∀ value, result = .ok value → k = 0) :
    CallStep call label.thread rest k
      ((completedWindow call label w w').toList.count (label.thread,rest)) w' := by
  have hn : (completedWindow call label w w').toList.count (label.thread,rest) = 0 :=
    count_completedWindow_eq_zero (fun _ hw => by rw [hc] at hw; cases hw)
  rw [hn]
  cases step_transition hstep with
  | releases hc' =>
    rw [hc] at hc'
    cases hc'
    have hcontrol : ((w.setState w.state.releaseStopTheWorld).deliver label.thread rest
        result).control label.thread = resumed rest result.isOk := by
      rw [deliver_control, Function.update_self]
    cases result with
    | ok value => exact .returns (hk value rfl) rfl hcontrol
    | error e => exact .fails hcontrol (not_returnedOk_deliver_error _ _ _ _)
  | _ => simp_all [inUserCode]

theorem CallPhase.step (hd : call.detaches = true) (h : ReachableWorld w) {thread : ThreadId}
    (hp : CallPhase call rest k (w.control thread)) (hstep : step label w = some w') :
    CallStep call thread rest k
      ((completedWindow call label w w').toList.count (thread,rest)) w' := by
  by_cases hthread : label.thread = thread
  · subst hthread
    generalize hc : w.control label.thread = stack at hp
    cases hp with
    | entering stage => exact .entering h hc hstep
    | waiting => exact .waiting hd hc hstep
    | destroying upper frame hf => exact .destroying hf hc hstep
    | releasing value => exact .releasing hc hstep (fun _ _ => rfl)
    | failing e => exact .releasing hc hstep (fun _ h => by cases h)
  · rw [count_completedWindow_eq_zero (fun h => absurd h hthread)]
    refine .lasts k ?_ (by omega)
    rw [h.control hstep thread (Ne.symm hthread)]
    exact hp

theorem Inside.step {thread : ThreadId} {labels : List Label}
    (hin : Inside thread rest (label :: labels) w) (hstep : Protocol.step label w = some w') :
    Inside thread rest labels w' := by
  have hnext := hin.2.2
  rw [hstep] at hnext
  exact hnext

theorem Inside.returned {thread : ThreadId} {labels : List Label} {ok : Bool}
    (hin : Inside thread rest labels w) (hc : w.control thread = resumed rest ok) :
    labels = [] := by
  cases labels with
  | nil => rfl
  | cons label labels =>
    have hle := length_resumed_le rest ok
    rw [← hc] at hle
    exact absurd (hin.1.eq_of_length_le hle).symm hin.2.1

/-- A call that returns normally has completed as many windows as it had to. -/
theorem CallPhase.completed (hd : call.detaches = true) {thread : ThreadId} :
    ∀ {labels : List Label} {w w' : World} {k : ℕ}, ReachableWorld w →
      CallPhase call rest k (w.control thread) → run Protocol.step labels w = some w' →
      Inside thread rest labels w → ReturnedOk w' thread rest →
        (completedWindows call labels w).count (thread,rest) = k
  | [], w, w', k, _, hp, hrun, _, hret => by
    cases hrun
    exact absurd hret.length_eq hp.length_lt.ne'
  | label :: labels, w, w', k, h, hp, hrun, hin, hret => by
    obtain ⟨w₁,hstep,hrest⟩ := Option.bind_eq_some_iff.mp hrun
    have hin₁ := hin.step hstep
    have hcount : completedWindows call (label :: labels) w =
        (completedWindow call label w w₁).toList ++ completedWindows call labels w₁ := by
      simp only [completedWindows, hstep]
    rw [hcount, List.count_append]
    cases hp.step hd h hstep with
    | lasts k' hp' hk =>
      rw [CallPhase.completed hd (h.step hstep) hp' hrest hin₁ hret, hk]
    | returns hk hn hc =>
      obtain rfl := hin₁.returned hc
      rw [hn, hk]
      rfl
    | fails hc hf =>
      obtain rfl := hin₁.returned hc
      cases hrest
      exact absurd hret hf

/-- A call with no window left to complete runs inside a window of its thread. -/
theorem CallPhase.any_owns {stack : List Frame} (hp : CallPhase call rest k stack)
    (hk : k = 0) : stack.any Frame.owns = true := by
  cases hp with
  | entering stage =>
    have howns : rest.any Frame.owns = true := by
      by_contra hn
      rw [if_neg hn] at hk
      cases hk
    rw [List.any_cons, howns, Bool.or_true]
  | waiting => cases hk
  | destroying upper frame hf =>
    have howns : frame.owns = true := by cases frame <;> first | rfl | cases hf
    rw [List.any_append, List.any_cons, howns, Bool.true_or, Bool.or_true]
  | releasing value => rfl
  | failing e n => rfl

theorem CallPhase.not_waiting (h : ReachableWorld w) {thread : ThreadId}
    (hp : CallPhase call rest 0 (w.control thread)) (other : ThreadId) (c : WindowCall)
    (above : List Frame) : w.control other ≠ .waiting c :: above := by
  intro hc
  have hprotocol := h.invariant.protocol
  have hmem : Frame.waiting c ∈ w.control other := by
    rw [hc]
    exact List.mem_cons_self
  obtain ⟨frame,hframe,howns⟩ := List.any_eq_true.mp (hp.any_owns rfl)
  have howner := (hprotocol.thread other).owner_of_mem hmem rfl
  have howner' := (hprotocol.thread thread).owner_of_mem hframe howns
  rw [howner] at howner'
  cases howner'
  -- The thread has one frame that owns the window, and it would be the waiting one.
  have hcount := (hprotocol.thread thread).owner
  rw [if_pos howner] at hcount
  rw [hc] at hp hcount
  rw [List.countP_cons_of_pos rfl] at hcount
  have hnone : above.countP Frame.owns = 0 := by omega
  generalize hstack : Frame.waiting c :: above = stack at hp
  generalize hzero : 0 = k at hp
  cases hp with
  | destroying upper frame hf =>
    have howns : frame.owns = true := by cases frame <;> first | rfl | cases hf
    cases upper with
    | nil =>
      cases hstack
      cases hf
    | cons top upper =>
      obtain ⟨-,rfl⟩ := List.cons.inj hstack
      exact List.countP_eq_zero.mp hnone frame (by simp) howns
  | waiting => cases hzero
  | _ => cases hstack

/-- What every step of such a call preserves holds when it returns normally. -/
theorem CallPhase.carries (hd : call.detaches = true) {thread : ThreadId} {P : World → Prop}
    (hP : ∀ label w w', ReachableWorld w → CallPhase call rest 0 (w.control thread) → P w →
      Protocol.step label w = some w' → P w') :
    ∀ {labels : List Label} {w w' : World}, ReachableWorld w →
      CallPhase call rest 0 (w.control thread) → run Protocol.step labels w = some w' →
      Inside thread rest labels w → ReturnedOk w' thread rest → P w → P w'
  | [], w, w', _, _, hrun, _, _, hw => by
    cases hrun
    exact hw
  | label :: labels, w, w', h, hp, hrun, hin, hret, hw => by
    obtain ⟨w₁,hstep,hrest⟩ := Option.bind_eq_some_iff.mp hrun
    have hw₁ := hP label w w₁ h hp hw hstep
    have hin₁ := hin.step hstep
    cases hp.step hd h hstep with
    | lasts k' hp' hk =>
      obtain rfl : k' = 0 := by omega
      exact CallPhase.carries hd hP (h.step hstep) hp' hrest hin₁ hret hw₁
    | returns hk hn hc =>
      obtain rfl := hin₁.returned hc
      cases hrest
      exact hw₁
    | fails hc hf =>
      obtain rfl := hin₁.returned hc
      cases hrest
      exact absurd hret hf

theorem exists_of_mem_completedWindows {entry : ThreadId × List Frame} :
    ∀ {labels : List Label} {w w' : World}, run Protocol.step labels w = some w' →
      entry ∈ completedWindows call labels w → ∃ before label after u u',
        labels = before ++ label :: after ∧ run Protocol.step before w = some u ∧
        Protocol.step label u = some u' ∧ completedWindow call label u u' = some entry ∧
        run Protocol.step after u' = some w'
  | [], _, _, _, hmem => by cases hmem
  | label :: labels, w, w', hrun, hmem => by
    obtain ⟨w₁,hstep,hrest⟩ := Option.bind_eq_some_iff.mp hrun
    simp only [completedWindows, hstep] at hmem
    rcases List.mem_append.mp hmem with hmem | hmem
    · exact ⟨[],label,labels,w,w₁,rfl,rfl,hstep,Option.mem_toList.mp hmem,hrest⟩
    · obtain ⟨before,label',after,u,u',rfl,hbefore,hstep',hcompleted,hafter⟩ :=
        exists_of_mem_completedWindows hrest hmem
      refine ⟨label :: before,label',after,u,u',rfl,?_,hstep',hcompleted,hafter⟩
      rw [run, hstep]
      exact hbefore

theorem Inside.of_append {thread : ThreadId} {after : List Label} : ∀ {before : List Label}
    {w u : World}, Inside thread rest (before ++ after) w → run Protocol.step before w = some u →
      Inside thread rest after u
  | [], w, u, hin, hrun => by
    cases hrun
    exact hin
  | label :: before, w, u, hin, hrun => by
    obtain ⟨w₁,hstep,hrest⟩ := Option.bind_eq_some_iff.mp hrun
    exact Inside.of_append (hin.step hstep) hrest

/-- Each completed window of a call is a collection, or a detachment, of its own. -/
theorem completes_of_completedWindow {thread : ThreadId}
    (hstep : Protocol.step label w = some w')
    (h : completedWindow call label w w' = some (thread,rest)) :
    ∃ choice blocks, label = .run thread choice ∧ Completes thread choice call w w' blocks ∧
      w'.control thread = .destroying blocks blocks :: rest := by
  obtain ⟨rfl,blocks,pending,above,hc,hc'⟩ := completedWindow_eq_some h
  cases label with
  | user thread action =>
    simp only [Protocol.step] at hstep
    simp only [Label.thread] at hc
    rw [hc] at hstep
    cases hstep
  | run thread choice =>
    have hpending : w'.control thread = .destroying blocks blocks :: rest := by
      simp only [Label.thread] at hc hc'
      cases step_transition hstep with
      | windowDestroys hc'' =>
        simp only [Label.thread] at hc''
        rw [hc] at hc''
        cases hc''
        simp only [World.setControl, Function.update_self, Label.thread] at hc' ⊢
        obtain ⟨hframe,-⟩ := List.cons.inj hc'
        cases hframe
        rfl
      | windowReturns => simp [World.setControl, Label.thread] at hc'
      | windowThrows => simp [World.setControl, Label.thread] at hc'
      | _ => simp_all [Label.thread, inUserCode]
    exact ⟨choice,blocks,rfl,⟨hstep,rest,hc,hpending⟩,hpending⟩

end

end GcLib.Protocol
