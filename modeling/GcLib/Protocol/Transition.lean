import GcLib.Protocol.Sections

/-! # Inversion of the step function

`Transition` lists everything a step of one thread can do, with the tests the step
passed. Every invariant of the manager is checked against this list.
-/

namespace GcLib.Protocol
open GcLib.Heap GcLib.Support

/-- The state after the part of a section that precedes cooperation. -/
inductive Published (s : State) : Section → State → Prop where
  | nothing {code : Section} (hn : ∀ begin_ end_, code ≠ .call (.registerRootRange begin_ end_)) :
      Published s code s
  | rootRange {begin_ end_ : ℕ} :
      Published s (.call (.registerRootRange begin_ end_))
        (s.appendRootRange (rootRange begin_ end_))

/-- The state in which a section's body starts, by the point its thread had reached. -/
inductive Cooperated (thread : ThreadId) (s₀ : State) (code : Section) : Stage → State → Prop where
  | enter {s : State} (hp : Published s₀ code s) (hm : s.mayProceed thread = true) :
      Cooperated thread s₀ code .enter s
  | blocked (hm : s₀.mayProceed thread = true) : Cooperated thread s₀ code .blocked s₀
  | spilling (hm : s₀.mayProceed thread = true) : Cooperated thread s₀ code .spilling s₀
  | parked (hs : s₀.stopTheWorldRequested = false) :
      Cooperated thread s₀ code .parked (s₀.unpark thread)

/-- A thread held up by another thread's window. -/
inductive Stalled (thread : ThreadId) (s₀ : State) (code : Section) :
    Stage → State → Stage → Prop where
  | spill {s : State} (hp : Published s₀ code s) (hm : s.mayProceed thread = false)
      (hr : s.isRegistered thread = true) : Stalled thread s₀ code .enter s .spilling
  | block {s : State} (hp : Published s₀ code s) (hm : s.mayProceed thread = false)
      (hr : s.isRegistered thread = false) : Stalled thread s₀ code .enter s .blocked
  | park {stackMarker : ℕ} {spill : List ℕ} (hm : s₀.mayProceed thread = false)
      (hr : s₀.isRegistered thread = true) (hn : stackMarker ≠ 0)
      (hs : stackMarker < addressLimit) :
      Stalled thread s₀ code .spilling (s₀.park thread stackMarker spill) .parked
  | reblock (hm : s₀.mayProceed thread = false) (hr : s₀.isRegistered thread = false) :
      Stalled thread s₀ code .spilling s₀ .blocked

inductive Transition (thread : ThreadId) (w : World) : World → Prop where
  | store (address : ℕ) (value : UInt8) (hu : inUserCode (w.control thread) = true) :
      Transition thread w
        (w.setState { w.state with memory := Function.update w.state.memory address value })
  | immediate {call : Call} {result : Except GCError Value} (hi : call.immediate = some result)
      (hu : inUserCode (w.control thread) = true) :
      Transition thread w (w.setResult thread result)
  | call {call : Call} (hw : ∀ word ∈ call.words, word < addressLimit)
      (hi : call.immediate = none) (hu : inUserCode (w.control thread) = true) :
      Transition thread w
        (w.setControl thread (.entering (.call call) .enter :: w.control thread))
  | finalizerReturns {blocks pending : List ℕ} {rest : List Frame}
      (hc : w.control thread = .finalizer blocks pending :: rest) :
      Transition thread w (w.setControl thread (.destroying blocks pending :: rest))
  | runsSection {code : Section} {stage : Stage} {rest : List Frame} {s s' : State} {fuel : ℕ}
      {supply supply' : Supply} {next : Next}
      (hc : w.control thread = .entering code stage :: rest)
      (hco : Cooperated thread w.state code stage s)
      (hrun : code.body thread fuel s supply = .returns next s' supply') :
      Transition thread w
        (((w.setState s').emit (code.events s s' next)).proceed thread rest next)
  | callThrows {call : Call} {stage : Stage} {rest : List Frame} {s s' : State} {fuel : ℕ}
      {supply : Supply} {e : GCError} (hc : w.control thread = .entering (.call call) stage :: rest)
      (hco : Cooperated thread w.state (.call call) stage s)
      (hrun : Section.body thread fuel (.call call) s supply = .throws e s') :
      Transition thread w ((w.setState s').deliver thread rest (.error e))
  | publishThrows {header : ℕ} {constructing : Bool} {stage : Stage} {rest : List Frame}
      {s s' : State} {fuel : ℕ} {supply : Supply} {e : GCError}
      (hc : w.control thread = .entering (.publish header constructing) stage :: rest)
      (hco : Cooperated thread w.state (.publish header constructing) stage s)
      (hrun : Section.body thread fuel (.publish header constructing) s supply = .throws e s') :
      Transition thread w (((w.setState s').freeBlock header).deliver thread rest (.error e))
  | prologueThrows {begin_ end_ : ℕ} {rest : List Frame} {e : GCError}
      (hc : w.control thread = .entering (.call (.registerRootRange begin_ end_)) .enter :: rest) :
      Transition thread w (w.deliver thread rest (.error e))
  | stalls {code : Section} {stage stage' : Stage} {rest : List Frame} {s : State}
      (hc : w.control thread = .entering code stage :: rest)
      (hs : Stalled thread w.state code stage s stage') :
      Transition thread w ((w.setState s).setControl thread (.entering code stage' :: rest))
  | windowDestroys {call : WindowCall} {rest : List Frame} {fuel : ℕ} {env : ScanEnvironment}
      {supply supply' : Supply} {blocks : List ℕ} {s : State}
      (hc : w.control thread = .waiting call :: rest)
      (hp : w.state.othersPaused thread = true) (hm : env.localMarker < addressLimit)
      (hrun : call.body thread fuel env w.state supply = .returns (.destroy blocks) s supply') :
      Transition thread w
        (((w.setState s).emit
          (blocks.map fun header => .detached (s.serial header) w.log.length)).setControl
            thread (.destroying blocks blocks :: rest))
  | windowReturns {call : WindowCall} {rest : List Frame} {fuel : ℕ} {env : ScanEnvironment}
      {supply supply' : Supply} {value : Value} {s : State}
      (hc : w.control thread = .waiting call :: rest)
      (hp : w.state.othersPaused thread = true) (hm : env.localMarker < addressLimit)
      (hrun : call.body thread fuel env w.state supply = .returns (.done value) s supply') :
      Transition thread w ((w.setState s).setControl thread (.releasing (.ok value) :: rest))
  | windowThrows {call : WindowCall} {rest : List Frame} {fuel : ℕ} {env : ScanEnvironment}
      {supply : Supply} {e : GCError} {s : State}
      (hc : w.control thread = .waiting call :: rest)
      (hp : w.state.othersPaused thread = true) (hm : env.localMarker < addressLimit)
      (hrun : call.body thread fuel env w.state supply = .throws e s) :
      Transition thread w ((w.setState s).setControl thread (.releasing (.error e) :: rest))
  | destroyed {blocks : List ℕ} {rest : List Frame}
      (hc : w.control thread = .destroying blocks [] :: rest) :
      Transition thread w (w.setControl thread (.freeing blocks :: rest))
  | skips {blocks pending : List ℕ} {header : ℕ} {rest : List Frame}
      (hc : w.control thread = .destroying blocks (header :: pending) :: rest)
      (hd : (w.state.header header).destructor = none) :
      Transition thread w (w.setControl thread (.destroying blocks pending :: rest))
  | finalizes {blocks pending : List ℕ} {header : ℕ} {rest : List Frame}
      (hc : w.control thread = .destroying blocks (header :: pending) :: rest)
      (hd : (w.state.header header).destructor ≠ none) :
      Transition thread w ((w.emit [.finalized (w.state.serial header)]).setControl thread
        (.finalizer blocks pending :: rest))
  | freed {rest : List Frame} (hc : w.control thread = .freeing [] :: rest) :
      Transition thread w (w.setControl thread (.releasing (.ok .unit) :: rest))
  | frees {pending : List ℕ} {header : ℕ} {rest : List Frame}
      (hc : w.control thread = .freeing (header :: pending) :: rest) :
      Transition thread w ((w.freeBlock header).setControl thread (.freeing pending :: rest))
  | releases {result : Except GCError Value} {rest : List Frame}
      (hc : w.control thread = .releasing result :: rest) :
      Transition thread w
        ((w.setState w.state.releaseStopTheWorld).deliver thread rest result)
  | outOfMemory {request : AllocationRequest} {rest : List Frame}
      (hc : w.control thread = .allocating request true :: rest) :
      Transition thread w (w.deliver thread rest (.error .badAlloc))
  | retries {request : AllocationRequest} {rest : List Frame}
      (hc : w.control thread = .allocating request false :: rest) :
      Transition thread w (w.setControl thread
        (.entering (.call .collect) .enter :: .collecting request :: rest))
  | places {request : AllocationRequest} {retried : Bool} {rest : List Frame} {region : ℕ}
      (hc : w.control thread = .allocating request retried :: rest)
      (hf : w.state.FreshRegion region request.totalSize request.alignment) :
      Transition thread w (((w.setState (w.state.placeHeader region request)).emit
        [.placed w.state.nextSerial request.destructor]).setControl thread
          (.entering (.publish region request.constructing) .enter :: rest))
  | freesBlock {header : ℕ} {rest : List Frame}
      (hc : w.control thread = .freeingBlock header :: rest) :
      Transition thread w ((w.freeBlock header).deliver thread rest (.ok .unit))

/-- The thread a label belongs to. -/
def Label.thread : Label → ThreadId
  | .user thread _ => thread
  | .run thread _ => thread

section
variable {w w' : World} {thread : ThreadId} {choice : Choice} {code : Section} {stage : Stage}
  {rest : List Frame}

theorem runSection_transition {s : State} {supply : Supply}
    (hc : w.control thread = .entering code stage :: rest)
    (hco : Cooperated thread w.state code stage s)
    (h : runSection w thread choice code rest s supply = some w') : Transition thread w w' := by
  unfold runSection at h
  cases hrun : code.body thread choice.fuel s supply with
  | diverges =>
    rw [hrun] at h
    cases h
  | returns next s' supply' =>
    rw [hrun] at h
    cases h
    exact .runsSection hc hco hrun
  | throws e s' =>
    rw [hrun] at h
    cases code with
    | publish header constructing =>
      cases h
      exact .publishThrows hc hco hrun
    | call call =>
      cases h
      exact .callThrows hc hco hrun

theorem prologue_run (code : Section) (s : State) (supply : Supply) :
    (∃ begin_ end_ e, code = .call (.registerRootRange begin_ end_) ∧
      code.prologue s supply = .throws e s) ∨
      ∃ s' supply', code.prologue s supply = .returns () s' supply' ∧ Published s code s' := by
  have hpure : ∀ {code : Section}, code.prologue = pure () →
      (∀ begin_ end_, code ≠ .call (.registerRootRange begin_ end_)) →
      ∃ s' supply', code.prologue s supply = .returns () s' supply' ∧ Published s code s' := by
    intro code hp hn
    exact ⟨s,supply,by rw [hp]; rfl,.nothing hn⟩
  cases code with
  | publish header constructing => exact Or.inr (hpure rfl nofun)
  | call call =>
    cases call with
    | registerRootRange begin_ end_ =>
      rcases supply with - | - | n
      · exact Or.inr ⟨_,_,rfl,.rootRange⟩
      · exact Or.inl ⟨begin_,end_,.badAlloc,rfl,rfl⟩
      · exact Or.inr ⟨_,_,rfl,.rootRange⟩
    | _ => exact Or.inr (hpure rfl nofun)

theorem runEntering_transition (hv : choice.valid = true)
    (hc : w.control thread = .entering code stage :: rest)
    (h : runEntering w thread choice code stage rest = some w') : Transition thread w w' := by
  have hmarker : choice.stackMarker ≠ 0 ∧ choice.stackMarker < addressLimit := by
    simp only [Choice.valid, Bool.and_eq_true, decide_eq_true_eq] at hv
    exact hv.2
  unfold runEntering at h
  cases stage with
  | enter =>
    rcases prologue_run code w.state choice.supply with
      ⟨begin_,end_,e,rfl,hrun⟩ | ⟨s,supply,hrun,hp⟩
    · simp only [hrun] at h
      cases h
      exact .prologueThrows hc
    · simp only [hrun] at h
      split_ifs at h with hm hr
      · exact runSection_transition hc (.enter hp hm) h
      · cases h
        exact .stalls hc (.spill hp (by simpa using hm) hr)
      · cases h
        exact .stalls hc (.block hp (by simpa using hm) (by simpa using hr))
  | blocked =>
    simp only at h
    split_ifs at h with hm
    exact runSection_transition hc (.blocked hm) h
  | spilling =>
    simp only at h
    split_ifs at h with hm hr
    · exact runSection_transition hc (.spilling hm) h
    · cases h
      exact .stalls hc (.park (by simpa using hm) hr hmarker.1 hmarker.2)
    · cases h
      exact .stalls hc (.reblock (by simpa using hm) (by simpa using hr))
  | parked =>
    simp only at h
    split_ifs at h with hs
    exact runSection_transition hc (.parked (by simpa using hs)) h

theorem runWindow_transition {call : WindowCall} (hv : choice.valid = true)
    (hc : w.control thread = .waiting call :: rest)
    (h : runWindow w thread choice call rest = some w') : Transition thread w w' := by
  have hm : choice.env.localMarker < addressLimit := by
    simp only [Choice.valid, Bool.and_eq_true, decide_eq_true_eq] at hv
    exact hv.1
  unfold runWindow at h
  split_ifs at h with hp
  cases hrun : call.body thread choice.fuel choice.env w.state choice.supply with
  | diverges =>
    rw [hrun] at h
    cases h
  | returns afterwards s supply' =>
    rw [hrun] at h
    cases afterwards with
    | destroy blocks =>
      cases h
      exact .windowDestroys hc hp hm hrun
    | done value =>
      cases h
      exact .windowReturns hc hp hm hrun
  | throws e s =>
    rw [hrun] at h
    cases h
    exact .windowThrows hc hp hm hrun

theorem runAllocating_transition {request : AllocationRequest} {retried : Bool}
    (hc : w.control thread = .allocating request retried :: rest)
    (h : runAllocating w thread choice request retried rest = some w') :
    Transition thread w w' := by
  unfold runAllocating at h
  split_ifs at h with hz hr hf
  · cases h
    subst hr
    exact .outOfMemory hc
  · cases h
    obtain rfl : retried = false := by simpa using hr
    exact .retries hc
  · cases h
    exact .places hc hf

theorem runFrame_transition {frame : Frame} (hv : choice.valid = true)
    (hc : w.control thread = frame :: rest)
    (h : runFrame w thread choice rest frame = some w') : Transition thread w w' := by
  cases frame with
  | entering code stage => exact runEntering_transition hv hc h
  | waiting call => exact runWindow_transition hv hc h
  | destroying blocks pending =>
    cases pending with
    | nil =>
      cases h
      exact .destroyed hc
    | cons header pending =>
      simp only [runFrame] at h
      split_ifs at h with hd
      · cases h
        exact .skips hc hd
      · cases h
        exact .finalizes hc hd
  | finalizer blocks pending => cases h
  | freeing pending =>
    cases pending with
    | nil =>
      cases h
      exact .freed hc
    | cons header pending =>
      cases h
      exact .frees hc
  | releasing result =>
    cases h
    exact .releases hc
  | allocating request retried => exact runAllocating_transition hc h
  | collecting request => cases h
  | freeingBlock header =>
    cases h
    exact .freesBlock hc

end

/-- Every step is one of the listed transitions of its thread. -/
theorem step_transition {w w' : World} {label : Label} (h : step label w = some w') :
    Transition label.thread w w' := by
  cases label with
  | user thread action =>
    simp only [step] at h
    split_ifs at h with hu
    cases action with
    | call call =>
      simp only [runAction] at h
      split_ifs at h with hw
      cases hi : call.immediate with
      | some result =>
        rw [hi] at h
        cases h
        exact .immediate hi hu
      | none =>
        rw [hi] at h
        cases h
        exact .call hw hi hu
    | storeByte address value =>
      cases h
      exact .store address value hu
    | finalizerReturns =>
      simp only [runAction] at h
      split at h
      · rename_i blocks pending rest hc
        cases h
        exact .finalizerReturns hc
      · cases h
  | run thread choice =>
    simp only [step] at h
    split at h
    · cases h
    · rename_i frame rest hc
      split_ifs at h with hv
      exact runFrame_transition hv hc h

end GcLib.Protocol
