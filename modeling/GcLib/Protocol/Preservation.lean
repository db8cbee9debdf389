import GcLib.Protocol.Invariant

/-! # Steps keep the protocol invariant

A step changes the stack and the record of its own thread only. The two places where
more is at stake are the opening of a window, which needs that no window is open, and
the wake-up of a parked thread, which needs that none is any more.
-/

namespace GcLib.Protocol
open GcLib.Heap GcLib.Support

section
variable {thread other : ThreadId} {s s' : State} {code : Section} {stage : Stage} {next : Next}

theorem find?_setStackBottom (s : State) (thread : ThreadId) (stackBottom : ℕ) (other : ThreadId) :
    (s.setStackBottom thread stackBottom).threads.find? other =
      if other = thread then
        some { (s.threads.find? thread).getD {} with stackBottom := stackBottom }
      else s.threads.find? other := by
  unfold State.setStackBottom
  simp only [OrderedMap.find?_modify]
  cases hf : s.threads.find? thread with
  | none =>
    rw [OrderedMap.find?_emplace hf]
    split_ifs <;> rfl
  | some state =>
    have hsame : s.threads.emplace thread {} = s.threads := OrderedMap.emplace_of_mem hf
    rw [hsame]
    split_ifs with he
    · subst he
      simp [hf]
    · rfl

theorem Published.flags (h : Published s code s') :
    s'.collecting = s.collecting ∧ s'.stopTheWorldRequested = s.stopTheWorldRequested ∧
      s'.collectorThread = s.collectorThread ∧ s'.threads = s.threads := by
  cases h <;> exact ⟨rfl,rfl,rfl,rfl⟩

theorem Cooperated.flags (h : Cooperated thread s code stage s') :
    s'.collecting = s.collecting ∧ s'.stopTheWorldRequested = s.stopTheWorldRequested ∧
      s'.collectorThread = s.collectorThread := by
  cases h with
  | enter hp => exact ⟨hp.flags.1,hp.flags.2.1,hp.flags.2.2.1⟩
  | blocked | spilling | parked => exact ⟨rfl,rfl,rfl⟩

theorem Cooperated.record (h : Cooperated thread s code stage s') (hne : other ≠ thread) :
    s'.threads.find? other = s.threads.find? other := by
  cases h with
  | enter hp => rw [hp.flags.2.2.2]
  | blocked | spilling => rfl
  | parked =>
    simp only [State.unpark, OrderedMap.find?_modify]
    rw [if_neg hne]

/-- Whoever gets past cooperation owns the window, or there is none. -/
theorem Cooperated.mayProceed (h : Cooperated thread s code stage s') :
    s.stopTheWorldRequested = false ∨ s.collectorThread = some thread := by
  have hdef : ∀ {s : State}, s.mayProceed thread = true →
      s.stopTheWorldRequested = false ∨ s.collectorThread = some thread := by
    intro s hm
    simpa [State.mayProceed] using hm
  cases h with
  | enter hp hm =>
    have hf := hp.flags
    rw [← hf.2.1, ← hf.2.2.1]
    exact hdef hm
  | blocked hm => exact hdef hm
  | spilling hm => exact hdef hm
  | parked hs => exact Or.inl hs

theorem Cooperated.unpaused {rest : List Frame}
    (hinv : ThreadInvariant s thread (.entering code stage :: rest))
    (h : Cooperated thread s code stage s') : Unpaused s' thread := by
  cases h with
  | enter hp =>
    have hu := hinv.unpaused rfl
    exact ⟨hp.flags.2.2.2 ▸ hu.paused,hp.flags.2.2.2 ▸ hu.bottom_lt⟩
  | blocked => exact hinv.unpaused rfl
  | spilling => exact hinv.unpaused rfl
  | parked =>
    obtain ⟨state,hf,-,-,-,hlt,-⟩ := (hinv.paused rfl).registered
    constructor <;>
    · intro state' hf'
      simp only [State.unpark, OrderedMap.find?_modify, if_true, hf, Option.map_some,
        Option.some.injEq] at hf'
      subst hf'
      first | exact ⟨rfl,rfl⟩ | exact hlt

theorem Effect.flags (h : Effect thread s code next s') :
    (s'.collecting = s.collecting ∧ s'.stopTheWorldRequested = s.stopTheWorldRequested ∧
      s'.collectorThread = s.collectorThread) ∨
    ∃ call, next = .window call ∧ s.collecting = false ∧ s' = s.openWindow thread := by
  cases h with
  | window hc => exact Or.inr ⟨_,rfl,hc,rfl⟩
  | _ => exact Or.inl ⟨rfl,rfl,rfl⟩

theorem Effect.record (h : Effect thread s code next s') (hne : other ≠ thread) :
    s'.threads.find? other = s.threads.find? other := by
  cases h with
  | registerThread => rw [find?_setStackBottom, if_neg hne]
  | unregisterThread =>
    simp only [State.unregisterThread, OrderedMap.find?_erase]
    rw [if_neg hne]
  | _ => rfl

theorem Effect.unpaused (h : Effect thread s code next s') (hu : Unpaused s thread)
    (hv : code.Valid) : Unpaused s' thread := by
  cases h with
  | registerThread =>
    rename_i stackBottom
    have hlt : stackBottom < addressLimit := hv.2 stackBottom (by simp [Call.words])
    constructor <;>
    · intro state hf
      rw [find?_setStackBottom, if_pos rfl] at hf
      cases hf
      first
        | exact hlt
        | cases hold : s.threads.find? thread with
          | none => exact ⟨rfl,rfl⟩
          | some state => exact hu.paused state hold
  | unregisterThread =>
    have hnone : (s.unregisterThread thread).threads.find? thread = none := by
      simp [State.unregisterThread, OrderedMap.find?_erase]
    constructor <;>
    · intro state hf
      rw [hnone] at hf
      cases hf
  | _ => exact ⟨hu.paused,hu.bottom_lt⟩

/-- A stack on which the thread runs, rather than waits on the condition variable. -/
theorem ThreadInvariant.running {stack : List Frame} (hu : Unpaused s thread)
    (howner : stack.countP Frame.owns = if s.collectorThread = some thread then 1 else 0)
    (hbelow : ∀ frame ∈ stack.tail, frame.awaits = true) (hvalid : ∀ frame ∈ stack, frame.Valid)
    (hp : parkedAtTop stack = false) (hb : blockedAtTop stack = false) :
    ThreadInvariant s thread stack where
  owner := howner
  below := hbelow
  valid := hvalid
  unpaused _ := hu
  paused h := absurd h (by simp [hp])
  blocked h := absurd h (by simp [hb])

end

/-! ## Stacks after an operation -/

/-- The stack an operation returns to. -/
def resumed (rest : List Frame) (ok : Bool) : List Frame :=
  match rest with
  | .collecting request :: below => if ok then .allocating request true :: below else below
  | rest => rest

/-- The stack after a critical section that returned. -/
def proceeded (rest : List Frame) : Next → List Frame
  | .done _ => resumed rest true
  | .window call => .waiting call :: rest
  | .allocate request => .allocating request false :: rest
  | .free header => .freeingBlock header :: rest
  | .collect => .entering (.call .collect) .enter :: rest

section
variable {w : World} {thread : ThreadId} {rest : List Frame}

theorem deliver_eq (w : World) (thread : ThreadId) (rest : List Frame)
    (result : Except GCError Value) :
    ∃ r, w.deliver thread rest result =
      { w with
        control := Function.update w.control thread (resumed rest result.isOk)
        result := r } := by
  unfold World.deliver resumed
  split
  · exact ⟨_,rfl⟩
  · exact ⟨_,rfl⟩
  · rename_i hok herr
    refine ⟨Function.update w.result thread (some result),?_⟩
    split
    · rename_i request below
      cases result with
      | ok value => exact absurd rfl (hok request below value rfl)
      | error e => exact absurd rfl (herr request below e rfl)
    · rfl

@[simp] theorem deliver_state (result : Except GCError Value) :
    (w.deliver thread rest result).state = w.state := by
  obtain ⟨r,hr⟩ := deliver_eq w thread rest result
  rw [hr]

@[simp] theorem deliver_log (result : Except GCError Value) :
    (w.deliver thread rest result).log = w.log := by
  obtain ⟨r,hr⟩ := deliver_eq w thread rest result
  rw [hr]

@[simp] theorem deliver_control (result : Except GCError Value) :
    (w.deliver thread rest result).control =
      Function.update w.control thread (resumed rest result.isOk) := by
  obtain ⟨r,hr⟩ := deliver_eq w thread rest result
  rw [hr]

@[simp] theorem proceed_state (next : Next) : (w.proceed thread rest next).state = w.state := by
  cases next <;> first | exact deliver_state _ | rfl

@[simp] theorem proceed_log (next : Next) : (w.proceed thread rest next).log = w.log := by
  cases next <;> first | exact deliver_log _ | rfl

@[simp] theorem proceed_control (next : Next) :
    (w.proceed thread rest next).control =
      Function.update w.control thread (proceeded rest next) := by
  cases next <;> first | exact deliver_control _ | rfl

end

/-- A list of frames that all wait for a callee. -/
structure Below (rest : List Frame) : Prop where
  awaits : ∀ frame ∈ rest, frame.awaits = true
  valid : ∀ frame ∈ rest, frame.Valid

theorem ThreadInvariant.rest {s : State} {thread : ThreadId} {frame : Frame} {rest : List Frame}
    (h : ThreadInvariant s thread (frame :: rest)) : Below rest :=
  ⟨h.below,fun f hf => h.valid f (List.mem_cons_of_mem _ hf)⟩

namespace Below
variable {rest : List Frame}

theorem parkedAtTop (h : Below rest) : parkedAtTop rest = false := by
  cases rest with
  | nil => rfl
  | cons frame rest =>
    have hf := h.awaits frame List.mem_cons_self
    cases frame <;> first | rfl | cases hf

theorem blockedAtTop (h : Below rest) : blockedAtTop rest = false := by
  cases rest with
  | nil => rfl
  | cons frame rest =>
    have hf := h.awaits frame List.mem_cons_self
    cases frame <;> first | rfl | cases hf

theorem tail (h : Below rest) : ∀ frame ∈ rest.tail, frame.awaits = true :=
  fun frame hf => h.awaits frame (List.mem_of_mem_tail hf)

end Below

theorem ThreadInvariant.push {s : State} {thread : ThreadId} {frame : Frame} {rest : List Frame}
    (hu : Unpaused s thread) (hrest : Below rest)
    (howner : rest.countP Frame.owns = if s.collectorThread = some thread then 1 else 0)
    (howns : frame.owns = false) (hvalid : frame.Valid) (hp : parkedAtTop (frame :: rest) = false)
    (hb : blockedAtTop (frame :: rest) = false) : ThreadInvariant s thread (frame :: rest) := by
  refine .running hu ?_ hrest.awaits (List.forall_mem_cons.mpr ⟨hvalid,hrest.valid⟩) hp hb
  rw [← howner, List.countP_cons, howns]
  simp

/-- Returning to the stack below keeps every property of a running thread's stack. -/
theorem ThreadInvariant.resumed {s : State} {thread : ThreadId} {rest : List Frame} (ok : Bool)
    (hu : Unpaused s thread) (hrest : Below rest)
    (howner : rest.countP Frame.owns = if s.collectorThread = some thread then 1 else 0) :
    ThreadInvariant s thread (resumed rest ok) := by
  unfold Protocol.resumed
  split
  · rename_i request below
    have hbelow : Below below := ⟨fun f hf => hrest.awaits f (List.mem_cons_of_mem _ hf),
      fun f hf => hrest.valid f (List.mem_cons_of_mem _ hf)⟩
    have hcount : below.countP Frame.owns = if s.collectorThread = some thread then 1 else 0 := by
      rw [← howner]
      simp [Frame.owns]
    split_ifs
    · refine .running hu ?_ hbelow.awaits ?_ rfl rfl
      · rw [← hcount]
        simp [Frame.owns]
      · intro frame hf
        rcases List.mem_cons.mp hf with rfl | hf
        · exact (hrest.valid (.collecting request) List.mem_cons_self :
            request.Valid)
        · exact hbelow.valid frame hf
    · exact .running hu hcount hbelow.tail hbelow.valid hbelow.parkedAtTop hbelow.blockedAtTop
  · exact .running hu howner hrest.tail hrest.valid hrest.parkedAtTop hrest.blockedAtTop

/-! ## Window bodies -/

theorem ProtocolInvariant.rootsInSpace {w : World} (h : ProtocolInvariant w)
    {env : ScanEnvironment} (hm : env.localMarker < addressLimit) : RootsInSpace w.state env where
  ranges := h.ranges
  marker := hm
  threads thread state hs := by
    have hf := OrderedMap.find?_eq_some.mpr hs
    have ht := h.thread thread
    cases hp : parkedAtTop (w.control thread) with
    | false =>
      have hu := ht.unpaused hp
      have hlim : (0 : ℕ) < addressLimit := by norm_num [addressLimit]
      exact ⟨hu.bottom_lt state hf,by rw [(hu.paused state hf).2]; exact hlim⟩
    | true =>
      obtain ⟨state',hf',-,-,-,hb,ht⟩ := (ht.paused hp).registered
      rw [hf] at hf'
      cases hf'
      exact ⟨hb,ht⟩

theorem WindowEffect.sameProtocol {s s' : State} {thread : ThreadId} {env : ScanEnvironment}
    {call : WindowCall} {after : Afterwards} (h : WindowEffect thread env s call after s') :
    SameProtocol s s' := by
  cases h with
  | collect h =>
    have hf := h.removed.frame
    exact ⟨(congrArg State.collecting hf :),(congrArg State.stopTheWorldRequested hf :),
      (congrArg State.collectorThread hf :),(congrArg State.threads hf :),
      (congrArg State.registeredRootRanges hf :)⟩
  | shutdown => exact ⟨rfl,rfl,rfl,rfl,rfl⟩
  | read => exact .refl s

/-! ## One step -/

/-- What a step of a thread leaves of the protocol invariant to check. -/
structure StepInvariant (thread : ThreadId) (w w' : World) : Prop where
  own : ThreadInvariant w'.state thread (w'.control thread)
  control : ∀ other, other ≠ thread → w'.control other = w.control other
  others : ∀ other, other ≠ thread → SameFor other w.state w'.state
  collecting_eq : w'.state.collecting = w'.state.stopTheWorldRequested
  requested_iff : w'.state.stopTheWorldRequested = true ↔
    ∃ thread, w'.state.collectorThread = some thread
  ranges : RangesInSpace w'.state

section
variable {w w' : World} {thread : ThreadId} {rest : List Frame} {frame : Frame}

theorem StepInvariant.of_same (h : ProtocolInvariant w) {new : List Frame}
    (hs : SameProtocol w.state w'.state)
    (hcontrol : w'.control = Function.update w.control thread new)
    (hown : ThreadInvariant w'.state thread new) : StepInvariant thread w w' where
  own := by
    rw [hcontrol, Function.update_self]
    exact hown
  control other hne := by rw [hcontrol, Function.update_of_ne hne]
  others other _ := hs.sameFor other
  collecting_eq := by rw [hs.collecting, hs.requested, h.collecting_eq]
  requested_iff := by
    rw [hs.requested, hs.collectorThread]
    exact h.requested_iff
  ranges range hrange := h.ranges range (hs.ranges ▸ hrange)

/-- Replacing the top frame by one that owns the window if and only if the old one did. -/
theorem StepInvariant.of_replace (h : ProtocolInvariant w) {frame' : Frame}
    (hc : w.control thread = frame :: rest) (hs : SameProtocol w.state w'.state)
    (hcontrol : w'.control = Function.update w.control thread (frame' :: rest))
    (howns : frame'.owns = frame.owns) (hvalid : frame'.Valid)
    (hp : parkedAtTop (frame :: rest) = false) (hp' : parkedAtTop (frame' :: rest) = false)
    (hb' : blockedAtTop (frame' :: rest) = false) : StepInvariant thread w w' := by
  have ht := h.thread thread
  rw [hc] at ht
  have hu := ht.unpaused hp
  refine .of_same h hs hcontrol (.running ⟨hs.threads ▸ hu.paused,hs.threads ▸ hu.bottom_lt⟩
    ?_ ht.below ?_ hp' hb')
  · rw [hs.collectorThread, ← ht.owner, List.countP_cons, List.countP_cons, howns]
  · intro f hf
    rcases List.mem_cons.mp hf with rfl | hf
    · exact hvalid
    · exact ht.valid f (List.mem_cons_of_mem _ hf)

theorem StepInvariant.of_return (h : ProtocolInvariant w) {ok : Bool}
    (hc : w.control thread = frame :: rest) (hs : SameProtocol w.state w'.state)
    (hcontrol : w'.control = Function.update w.control thread (resumed rest ok))
    (howns : frame.owns = false) (hp : parkedAtTop (frame :: rest) = false) :
    StepInvariant thread w w' := by
  have ht := h.thread thread
  rw [hc] at ht
  have hu := ht.unpaused hp
  refine .of_same h hs hcontrol (.resumed ok
    ⟨hs.threads ▸ hu.paused,hs.threads ▸ hu.bottom_lt⟩ ht.rest ?_)
  rw [hs.collectorThread, ← ht.owner, List.countP_cons, howns]
  simp

theorem rootRange_lt {begin_ end_ : ℕ} (hb : begin_ < addressLimit) (he : end_ < addressLimit) :
    (rootRange begin_ end_).begin_ < addressLimit ∧ (rootRange begin_ end_).end_ < addressLimit := by
  unfold rootRange
  split_ifs
  · exact ⟨he,hb⟩
  · exact ⟨hb,he⟩

theorem Published.ranges {s s' : State} {code : Section} (h : Published s code s')
    (hv : code.Valid) (hr : RangesInSpace s) : RangesInSpace s' := by
  cases h with
  | nothing => exact hr
  | rootRange =>
    rename_i begin_ end_
    intro range hrange
    rcases List.mem_append.mp hrange with hrange | hrange
    · exact hr range hrange
    · rw [List.mem_singleton.mp hrange]
      exact rootRange_lt (hv.2 begin_ (by simp [Call.words])) (hv.2 end_ (by simp [Call.words]))

theorem Cooperated.ranges {s s' : State} {code : Section} {stage : Stage}
    (h : Cooperated thread s code stage s') (hv : code.Valid) (hr : RangesInSpace s) :
    RangesInSpace s' := by
  cases h with
  | enter hp => exact hp.ranges hv hr
  | blocked | spilling | parked => exact hr

theorem Effect.ranges {s s' : State} {code : Section} {next : Next}
    (h : Effect thread s code next s') (hr : RangesInSpace s) : RangesInSpace s' := by
  cases h with
  | eraseRootRange => exact fun range hrange => hr range (List.mem_of_mem_erase hrange)
  | _ => exact hr

theorem StepInvariant.runsSection (h : ProtocolInvariant w) {code : Section} {stage : Stage}
    {s s' : State} {next : Next} (hc : w.control thread = .entering code stage :: rest)
    (hco : Cooperated thread w.state code stage s) (he : Effect thread s code next s')
    (hstate : w'.state = s')
    (hcontrol : w'.control = Function.update w.control thread (proceeded rest next)) :
    StepInvariant thread w w' := by
  have ht := h.thread thread
  rw [hc] at ht
  have hvalid : code.Valid := ht.valid (.entering code stage) List.mem_cons_self
  have hu := he.unpaused (hco.unpaused ht) hvalid
  have hfirst := hco.flags
  have hrest := ht.rest
  have howner : rest.countP Frame.owns = if w.state.collectorThread = some thread then 1 else 0 := by
    rw [← ht.owner, List.countP_cons]
    simp [Frame.owns]
  have hcontrols : ∀ other, other ≠ thread → w'.control other = w.control other := by
    intro other hne
    rw [hcontrol, Function.update_of_ne hne]
  have hrecord : ∀ other, other ≠ thread →
      w'.state.threads.find? other = w.state.threads.find? other := by
    intro other hne
    rw [hstate, he.record hne, hco.record hne]
  have hranges := he.ranges (hco.ranges hvalid h.ranges)
  rcases he.flags with hflags | ⟨call,rfl,hcollecting,rfl⟩
  · have hcollector : s'.collectorThread = w.state.collectorThread := hflags.2.2.trans hfirst.2.2
    refine ⟨?_,hcontrols,fun other hne => ⟨?_,hrecord other hne⟩,?_,?_,hstate ▸ hranges⟩
    · rw [hcontrol, Function.update_self, hstate]
      rw [← hcollector] at howner
      cases he with
      | allocate hr hq =>
        refine .push hu hrest howner rfl ?_ rfl rfl
        have hw := hvalid.2
        have hi := hvalid.1
        simp only [Call.words, List.forall_mem_cons] at hw
        simp only [Call.immediate, ite_eq_right_iff, reduceCtorEq, imp_false, not_or] at hi
        exact allocationRequest_valid hi.1 hw.1 hw.2.1 hq
      | collect => exact .push hu hrest howner rfl ⟨rfl,by simp [Call.words]⟩ rfl rfl
      | release => exact .push hu hrest howner rfl trivial rfl rfl
      | window hc' => exact absurd hflags.1 (by simp [State.openWindow, hc'])
      | _ => exact .resumed true hu hrest howner
    · rw [hstate, hcollector]
    · rw [hstate, hflags.1, hflags.2.1, hfirst.1, hfirst.2.1]
      exact h.collecting_eq
    · rw [hstate, hcollector, hflags.2.1, hfirst.2.1]
      exact h.requested_iff
  · have hnone : w.state.collectorThread = none := by
      refine h.not_requested ?_
      rw [← h.collecting_eq, ← hfirst.1]
      exact hcollecting
    refine ⟨?_,hcontrols,fun other hne => ⟨?_,hrecord other hne⟩,?_,?_,hstate ▸ hranges⟩
    · rw [hcontrol, Function.update_self, hstate]
      refine .running hu ?_ ht.below (List.forall_mem_cons.mpr ⟨trivial,hrest.valid⟩) rfl rfl
      rw [hnone] at howner
      simp only [proceeded, List.countP_cons, howner]
      simp [Frame.owns, State.openWindow]
    · rw [hstate, hnone]
      simp [State.openWindow, Ne.symm hne]
    · rw [hstate]
      rfl
    · rw [hstate]
      simp [State.openWindow]

/-- A thread held up at a state that differs from the old one in its root ranges at most. -/
theorem StepInvariant.of_flags (h : ProtocolInvariant w) {s : State} {new : List Frame}
    (hf : s.collecting = w.state.collecting ∧
      s.stopTheWorldRequested = w.state.stopTheWorldRequested ∧
      s.collectorThread = w.state.collectorThread ∧ s.threads = w.state.threads)
    (hr : RangesInSpace s) (hstate : w'.state = s)
    (hcontrol : w'.control = Function.update w.control thread new)
    (hown : ThreadInvariant s thread new) : StepInvariant thread w w' := by
  subst hstate
  refine ⟨?_,fun other hne => ?_,fun other _ => ⟨?_,?_⟩,?_,?_,hr⟩
  · rw [hcontrol, Function.update_self]
    exact hown
  · rw [hcontrol, Function.update_of_ne hne]
  · rw [hf.2.2.1]
  · rw [hf.2.2.2]
  · rw [hf.1, hf.2.1, h.collecting_eq]
  · rw [hf.2.1, hf.2.2.1]
    exact h.requested_iff

theorem find?_park {s : State} (stackMarker : ℕ) (spill : List ℕ) {state : ThreadState}
    (hf : s.threads.find? thread = some state) :
    (s.park thread stackMarker spill).threads.find? thread = some { state with
      parkedStackTop := stackMarker, pausedForCollection := true, registerSpill := spill } := by
  simp [State.park, OrderedMap.find?_modify, hf]

theorem isRegistered_iff {s : State} :
    s.isRegistered thread = true ↔
      ∃ state, s.threads.find? thread = some state ∧ state.stackBottom ≠ 0 := by
  simp [State.isRegistered, State.findThreadStateLocked, Option.any_eq_true]

theorem StepInvariant.stalls (h : ProtocolInvariant w) {code : Section} {stage stage' : Stage}
    {s : State} (hc : w.control thread = .entering code stage :: rest)
    (hs : Stalled thread w.state code stage s stage') (hstate : w'.state = s)
    (hcontrol : w'.control = Function.update w.control thread (.entering code stage' :: rest)) :
    StepInvariant thread w w' := by
  have ht := h.thread thread
  rw [hc] at ht
  have hvalid : code.Valid := ht.valid (.entering code stage) List.mem_cons_self
  have hframes : ∀ f ∈ Frame.entering code stage' :: rest, f.Valid :=
    List.forall_mem_cons.mpr ⟨hvalid,ht.rest.valid⟩
  have howner : ∀ {s : State}, s.collectorThread = w.state.collectorThread →
      (Frame.entering code stage' :: rest).countP Frame.owns =
        if s.collectorThread = some thread then 1 else 0 := by
    intro s hs'
    rw [hs', ← ht.owner, List.countP_cons, List.countP_cons]
    rfl
  cases hs with
  | spill hp hm hr =>
    have hf := hp.flags
    have hu := ht.unpaused rfl
    exact .of_flags h hf (hp.ranges hvalid h.ranges) hstate hcontrol (.running
      ⟨hf.2.2.2 ▸ hu.paused,hf.2.2.2 ▸ hu.bottom_lt⟩ (howner hf.2.2.1) ht.below hframes rfl rfl)
  | block hp hm hr =>
    have hf := hp.flags
    have hu := ht.unpaused rfl
    exact .of_flags h hf (hp.ranges hvalid h.ranges) hstate hcontrol ⟨howner hf.2.2.1,ht.below,hframes,
      fun _ => ⟨hf.2.2.2 ▸ hu.paused,hf.2.2.2 ▸ hu.bottom_lt⟩,fun h' => (by cases h'),fun _ => hr⟩
  | reblock hm hr =>
    exact .of_flags h ⟨rfl,rfl,rfl,rfl⟩ h.ranges hstate hcontrol ⟨howner rfl,ht.below,hframes,
      fun _ => ht.unpaused rfl,fun h' => (by cases h'),fun _ => hr⟩
  | park hm hr hn hlt =>
    rename_i stackMarker spill
    obtain ⟨state,hf,hb⟩ := isRegistered_iff.mp hr
    have hu := ht.unpaused rfl
    have hrecord := find?_park stackMarker spill hf
    refine ⟨?_,fun other hne => ?_,fun other hne => ⟨?_,?_⟩,?_,?_,?_⟩
    · rw [hcontrol, Function.update_self, hstate]
      exact ⟨howner rfl,ht.below,hframes,fun h' => (by cases h'),
        fun _ => ⟨_,hrecord,hb,rfl,hn,hu.bottom_lt state hf,hlt⟩,fun h' => (by cases h')⟩
    · rw [hcontrol, Function.update_of_ne hne]
    · rw [hstate]
      rfl
    · rw [hstate]
      simp [State.park, OrderedMap.find?_modify, hne]
    · rw [hstate]
      exact h.collecting_eq
    · rw [hstate]
      exact h.requested_iff
    · rw [hstate]
      exact h.ranges

theorem Cooperated.heapInvariant {s s' : State} {code : Section} {stage : Stage}
    (h : Cooperated thread s code stage s') (hheap : HeapInvariant s) : HeapInvariant s' := by
  cases h with
  | enter hp => cases hp <;> exact hheap.congr rfl rfl rfl rfl
  | blocked | spilling | parked => exact hheap.congr rfl rfl rfl rfl

theorem effect_of_run (hheap : HeapInvariant w.state) {code : Section} {stage : Stage}
    {s s' : State} {fuel : ℕ} {supply supply' : Supply} {next : Next}
    (hco : Cooperated thread w.state code stage s)
    (hrun : code.body thread fuel s supply = .returns next s' supply') :
    Effect thread s code next s' :=
  (meets_body thread fuel code (fun header _ _ =>
    (hco.heapInvariant hheap).header_lt header)).returns hrun

theorem failed_of_run (hheap : HeapInvariant w.state) {code : Section} {stage : Stage}
    {s s' : State} {fuel : ℕ} {supply : Supply} {e : GCError}
    (hco : Cooperated thread w.state code stage s)
    (hrun : code.body thread fuel s supply = .throws e s') : Failed s code s' :=
  (meets_body thread fuel code (fun header _ _ =>
    (hco.heapInvariant hheap).header_lt header)).throws hrun

theorem StepInvariant.throws (h : ProtocolInvariant w) {code : Section} {stage : Stage}
    {s : State} {ok : Bool} (hc : w.control thread = .entering code stage :: rest)
    (hco : Cooperated thread w.state code stage s) (hsame : SameProtocol s w'.state)
    (hcontrol : w'.control = Function.update w.control thread (resumed rest ok)) :
    StepInvariant thread w w' := by
  have ht := h.thread thread
  rw [hc] at ht
  have hvalid : code.Valid := ht.valid (.entering code stage) List.mem_cons_self
  have hu := hco.unpaused ht
  have hfirst := hco.flags
  have hcollector := hsame.collectorThread.trans hfirst.2.2
  refine ⟨?_,fun other hne => ?_,fun other hne => ⟨?_,?_⟩,?_,?_,?_⟩
  · rw [hcontrol, Function.update_self]
    refine .resumed ok ⟨hsame.threads ▸ hu.paused,hsame.threads ▸ hu.bottom_lt⟩ ht.rest ?_
    rw [hcollector, ← ht.owner, List.countP_cons]
    simp [Frame.owns]
  · rw [hcontrol, Function.update_of_ne hne]
  · rw [hcollector]
  · rw [hsame.threads, hco.record hne]
  · rw [hsame.collecting, hsame.requested, hfirst.1, hfirst.2.1, h.collecting_eq]
  · rw [hsame.requested, hcollector, hfirst.2.1]
    exact h.requested_iff
  · exact fun range hrange => hco.ranges hvalid h.ranges range (hsame.ranges ▸ hrange)

theorem StepInvariant.releases (h : ProtocolInvariant w) {result : Except GCError Value} {ok : Bool}
    (hc : w.control thread = .releasing result :: rest)
    (hstate : w'.state = w.state.releaseStopTheWorld)
    (hcontrol : w'.control = Function.update w.control thread (resumed rest ok)) :
    StepInvariant thread w w' := by
  have ht := h.thread thread
  rw [hc] at ht
  have hu := ht.unpaused rfl
  have hcount := ht.owner
  simp only [List.countP_cons, Frame.owns, if_true] at hcount
  have hmine : w.state.collectorThread = some thread := by
    by_contra hne
    rw [if_neg hne] at hcount
    omega
  rw [if_pos hmine] at hcount
  refine ⟨?_,fun other hne => ?_,fun other hne => ⟨?_,?_⟩,?_,?_,?_⟩
  · rw [hcontrol, Function.update_self, hstate]
    refine .resumed ok ⟨hu.paused,hu.bottom_lt⟩ ht.rest ?_
    have hzero : rest.countP Frame.owns = 0 := by omega
    rw [hzero]
    simp [State.releaseStopTheWorld]
  · rw [hcontrol, Function.update_of_ne hne]
  · rw [hstate, hmine]
    simp [State.releaseStopTheWorld, Ne.symm hne]
  · rw [hstate]
    rfl
  · rw [hstate]
    rfl
  · rw [hstate]
    simp [State.releaseStopTheWorld]
  · rw [hstate]
    exact h.ranges

theorem sameProtocol_freeBlock (w : World) (header : ℕ) :
    SameProtocol w.state (w.freeBlock header).state := ⟨rfl,rfl,rfl,rfl,rfl⟩

theorem inUserCode_stack {stack : List Frame} (hu : inUserCode stack = true) :
    parkedAtTop stack = false ∧ blockedAtTop stack = false := by
  cases stack with
  | nil => exact ⟨rfl,rfl⟩
  | cons frame rest => cases frame <;> first | exact ⟨rfl,rfl⟩ | cases hu

/-- Every step keeps the protocol, the other threads' stacks and their records. -/
theorem Transition.stepInvariant (h : ProtocolInvariant w) (hheap : HeapInvariant w.state)
    (ht : Transition thread w w') : StepInvariant thread w w' := by
  have hkeep : ∀ {w' : World}, SameProtocol w.state w'.state → w'.control = w.control →
      parkedAtTop (w.control thread) = false → blockedAtTop (w.control thread) = false →
      StepInvariant thread w w' := by
    intro w' hs hcontrol hp hb
    have hthread := h.thread thread
    have hu := hthread.unpaused hp
    have hcontrol' : w'.control = Function.update w.control thread (w.control thread) := by
      rw [hcontrol, Function.update_eq_self]
    refine .of_same h hs hcontrol'
      (.running ⟨hs.threads ▸ hu.paused,hs.threads ▸ hu.bottom_lt⟩ ?_ hthread.below
        hthread.valid hp hb)
    rw [hs.collectorThread, hthread.owner]
  have hvalid : ∀ {frame : Frame} {rest : List Frame}, w.control thread = frame :: rest →
      frame.Valid := fun hc => (h.thread thread).valid _ (by rw [hc]; exact List.mem_cons_self)
  cases ht with
  | store address value hu =>
    exact hkeep ⟨rfl,rfl,rfl,rfl,rfl⟩ rfl (inUserCode_stack hu).1 (inUserCode_stack hu).2
  | immediate hi hu => exact hkeep (.refl _) rfl (inUserCode_stack hu).1 (inUserCode_stack hu).2
  | call hw hi hu =>
    have hthread := h.thread thread
    have hp := (inUserCode_stack hu).1
    have hbelow : Below (w.control thread) := by
      refine ⟨fun frame hf => ?_,hthread.valid⟩
      cases hs : w.control thread with
      | nil =>
        rw [hs] at hf
        cases hf
      | cons top rest =>
        rw [hs] at hf hu
        rcases List.mem_cons.mp hf with rfl | hf
        · cases frame <;> first | rfl | cases hu
        · exact hthread.below frame (by rw [hs]; exact hf)
    exact .of_same h (.refl _) rfl
      (.push (hthread.unpaused hp) hbelow hthread.owner rfl ⟨hi,hw⟩ rfl rfl)
  | finalizerReturns hc =>
    have hsuffix := hvalid hc
    exact .of_replace h hc (.refl _) rfl rfl hsuffix rfl rfl rfl
  | runsSection hc hco hrun =>
    exact .runsSection h hc hco (effect_of_run hheap hco hrun) (proceed_state _)
      (proceed_control _)
  | callThrows hc hco hrun =>
    refine .throws h hc hco ?_ (deliver_control _)
    rw [deliver_state]
    cases failed_of_run hheap hco hrun with
    | call => exact .refl _
  | publishThrows hc hco hrun =>
    refine .throws h hc hco ?_ (deliver_control _)
    rw [deliver_state]
    cases failed_of_run hheap hco hrun with
    | publish => exact ⟨rfl,rfl,rfl,rfl,rfl⟩
    | cleared => exact ⟨rfl,rfl,rfl,rfl,rfl⟩
  | prologueThrows hc =>
    exact .of_return h hc (by rw [deliver_state]; exact .refl _) (deliver_control _) rfl rfl
  | stalls hc hs => exact .stalls h hc hs rfl rfl
  | windowDestroys hc hp hm hrun =>
    have he := (meets_windowBody hheap (h.rootsInSpace hm) _ _).returns hrun
    exact .of_replace h hc he.sameProtocol rfl rfl (List.suffix_refl _) rfl rfl rfl
  | windowReturns hc hp hm hrun =>
    have he := (meets_windowBody hheap (h.rootsInSpace hm) _ _).returns hrun
    exact .of_replace h hc he.sameProtocol rfl rfl trivial rfl rfl rfl
  | windowThrows hc hp hm hrun =>
    have he := (meets_windowBody hheap (h.rootsInSpace hm) _ _).throws hrun
    exact .of_replace h hc (.of_eqButMarks he) rfl rfl trivial rfl rfl rfl
  | destroyed hc => exact .of_replace h hc (.refl _) rfl rfl trivial rfl rfl rfl
  | skips hc hd =>
    have hsuffix := (List.suffix_cons _ _).trans (hvalid hc)
    exact .of_replace h hc (.refl _) rfl rfl hsuffix rfl rfl rfl
  | finalizes hc hd =>
    have hsuffix := (List.suffix_cons _ _).trans (hvalid hc)
    exact .of_replace h hc (.refl _) rfl rfl hsuffix rfl rfl rfl
  | freed hc => exact .of_replace h hc (.refl _) rfl rfl trivial rfl rfl rfl
  | frees hc => exact .of_replace h hc (sameProtocol_freeBlock _ _) rfl rfl trivial rfl rfl rfl
  | releases hc => exact .releases h hc (deliver_state _) (deliver_control _)
  | outOfMemory hc =>
    exact .of_return h hc (by rw [deliver_state]; exact .refl _) (deliver_control _) rfl rfl
  | retries hc =>
    have hthread := h.thread thread
    rw [hc] at hthread
    have hcount := hthread.owner
    have hvalid := hthread.valid _ List.mem_cons_self
    refine .of_same h (.refl _) rfl (.push (hthread.unpaused rfl) ?_ ?_ rfl ⟨rfl,?_⟩ rfl rfl)
    · exact ⟨List.forall_mem_cons.mpr ⟨rfl,hthread.rest.awaits⟩,
        List.forall_mem_cons.mpr ⟨hvalid,hthread.rest.valid⟩⟩
    · rw [List.countP_cons] at hcount ⊢
      exact hcount
    · simp [Call.words]
  | places hc hf => exact .of_replace h hc ⟨rfl,rfl,rfl,rfl,rfl⟩ rfl rfl trivial rfl rfl rfl
  | freesBlock hc =>
    exact .of_return h hc (by rw [deliver_state]; exact sameProtocol_freeBlock _ _)
      (deliver_control _) rfl rfl

/-- A thread that is not paused holds a window that is past its wait shut for no one else: it
is unregistered. -/
theorem ProtocolInvariant.intruder (h : ProtocolInvariant w) {owner : ThreadId}
    (ho : w.state.collectorThread = some owner)
    (hpast : (w.control owner).any Frame.pastWait = true) (hne : thread ≠ owner) :
    parkedAtTop (w.control thread) = true ∨ w.state.isRegistered thread = false := by
  cases hr : w.state.isRegistered thread with
  | false => exact Or.inr rfl
  | true =>
    obtain ⟨state,hf,hb⟩ := isRegistered_iff.mp hr
    have hall := h.stopped owner ho hpast
    have hmem := OrderedMap.find?_eq_some.mp hf
    have hentry := List.all_eq_true.mp hall _ hmem
    simp only [Bool.or_eq_true, decide_eq_true_eq] at hentry
    have hpaused : state.pausedForCollection = true := by
      rcases hentry with (he | he) | he
      · exact absurd he hne
      · exact absurd he hb
      · exact he
    refine Or.inl ?_
    by_contra hp
    have hu := (h.thread thread).unpaused (by simpa using hp)
    rw [(hu.paused state hf).1] at hpaused
    cases hpaused

theorem any_resumed {p : Frame → Bool} (hp : ∀ request, p (.allocating request true) = false)
    {ok : Bool} (h : (resumed rest ok).any p = true) : rest.any p = true := by
  unfold resumed at h
  split at h
  · split_ifs at h
    · rw [List.any_cons, hp, Bool.false_or] at h
      rw [List.any_cons, h, Bool.or_true]
    · rw [List.any_cons, h, Bool.or_true]
  · exact h

theorem Transition.pastWait (ht : Transition thread w w')
    (hpast : (w'.control thread).any Frame.pastWait = true) :
    (w.control thread).any Frame.pastWait = true ∨ w.state.othersPaused thread = true := by
  cases ht with
  | store => exact Or.inl hpast
  | immediate => exact Or.inl hpast
  | call =>
    simp only [World.setControl, Function.update_self] at hpast
    exact Or.inl hpast
  | runsSection hc hco hrun =>
    rename_i next
    rw [proceed_control, Function.update_self] at hpast
    rw [hc]
    cases next with
    | done value => exact Or.inl (by simp [any_resumed (fun _ => rfl) hpast])
    | _ => exact Or.inl (by simpa [proceeded, Frame.pastWait, Frame.owns] using hpast)
  | callThrows hc | publishThrows hc | prologueThrows hc | releases hc | outOfMemory hc
  | freesBlock hc =>
    rw [deliver_control, Function.update_self] at hpast
    rw [hc]
    exact Or.inl (by simp [any_resumed (fun _ => rfl) hpast])
  | windowDestroys hc hp | windowReturns hc hp | windowThrows hc hp => exact Or.inr hp
  | finalizerReturns hc | destroyed hc | skips hc | finalizes hc | freed hc | frees hc =>
    rw [hc]
    exact Or.inl (by simp [Frame.pastWait, Frame.owns])
  | stalls hc | retries hc | places hc =>
    simp only [World.setControl, Function.update_self] at hpast
    rw [hc]
    exact Or.inl (by simpa [Frame.pastWait, Frame.owns] using hpast)

theorem othersPaused_iff {s : State} {owner : ThreadId} :
    s.othersPaused owner = true ↔ ∀ other, other ≠ owner → ∀ state,
      s.threads.find? other = some state → state.stackBottom ≠ 0 →
      state.pausedForCollection = true := by
  simp only [State.othersPaused, List.all_eq_true, Bool.or_eq_true, decide_eq_true_eq, Prod.forall]
  constructor
  · intro h other hne state hf hb
    rcases h other state (OrderedMap.find?_eq_some.mp hf) with (he | he) | he
    · exact absurd he hne
    · exact absurd he hb
    · exact he
  · intro h other state hm
    by_cases hne : other = owner
    · exact Or.inl (Or.inl hne)
    · by_cases hb : state.stackBottom = 0
      · exact Or.inl (Or.inr hb)
      · exact Or.inr (h other hne state (OrderedMap.find?_eq_some.mpr hm) hb)

theorem ThreadInvariant.owner_of_mem {s : State} {stack : List Frame}
    (h : ThreadInvariant s thread stack) {frame : Frame} (hf : frame ∈ stack)
    (howns : frame.owns = true) : s.collectorThread = some thread := by
  by_contra hne
  have hcount := h.owner
  rw [if_neg hne, List.countP_eq_zero] at hcount
  exact hcount frame hf howns

theorem ProtocolInvariant.not_cooperated (h : ProtocolInvariant w) {owner : ThreadId}
    (ho : w.state.collectorThread = some owner) (hne : thread ≠ owner) {code : Section}
    {stage : Stage} {s : State} : ¬ Cooperated thread w.state code stage s := by
  intro hco
  have hreq := h.requested_iff.mpr ⟨owner,ho⟩
  rcases hco.mayProceed with hm | hm
  · rw [hreq] at hm
    cases hm
  · rw [ho] at hm
    exact hne (Option.some.inj hm).symm

theorem ProtocolInvariant.not_owns (h : ProtocolInvariant w) {owner : ThreadId}
    (ho : w.state.collectorThread = some owner) (hne : thread ≠ owner)
    (hc : w.control thread = frame :: rest) : frame.owns = false := by
  by_contra howns
  have hmem : frame ∈ w.control thread := by
    rw [hc]
    exact List.mem_cons_self
  have hmine := (h.thread thread).owner_of_mem hmem (by simpa using howns)
  rw [ho] at hmine
  exact hne (Option.some.inj hmine).symm

/-- What a step of another thread can change while a window is open. -/
structure Intrusion (thread : ThreadId) (s s' : State) : Prop where
  allocations : s'.allocations = s.allocations
  weakRefs : s'.weakRefs = s.weakRefs
  managedBytes : s'.managedBytes = s.managedBytes
  reservedBytes : s'.reservedBytes = s.reservedBytes
  threshold : s'.collectionThresholdBytes = s.collectionThresholdBytes
  stats : s'.stats = s.stats
  flags : s'.collecting = s.collecting ∧ s'.stopTheWorldRequested = s.stopTheWorldRequested ∧
    s'.collectorThread = s.collectorThread
  threads : s'.threads = s.threads ∨ ∃ stackMarker spill,
    s'.threads = (s.park thread stackMarker spill).threads
  ranges : s'.registeredRootRanges = s.registeredRootRanges ∨ ∃ range,
    s'.registeredRootRanges = s.registeredRootRanges ++ [range]

theorem Intrusion.refl (thread : ThreadId) (s : State) : Intrusion thread s s :=
  ⟨rfl,rfl,rfl,rfl,rfl,rfl,⟨rfl,rfl,rfl⟩,Or.inl rfl,Or.inl rfl⟩

/-- While a window is open, the threads that do not own it append root ranges, park, place and
free blocks outside the registry, and write memory; they do nothing else. -/
theorem Transition.intrusion (h : ProtocolInvariant w) {owner : ThreadId}
    (ho : w.state.collectorThread = some owner) (hne : thread ≠ owner)
    (ht : Transition thread w w') : Intrusion thread w.state w'.state := by
  have howner : ∀ {frame : Frame} {rest : List Frame}, w.control thread = frame :: rest →
      frame.owns = false := h.not_owns ho hne
  have hpublished : ∀ {code : Section} {s : State}, Published w.state code s →
      Intrusion thread w.state s := by
    intro code s hp
    cases hp with
    | nothing => exact .refl _ _
    | rootRange => exact ⟨rfl,rfl,rfl,rfl,rfl,rfl,⟨rfl,rfl,rfl⟩,Or.inl rfl,Or.inr ⟨_,rfl⟩⟩
  cases ht with
  | store => exact ⟨rfl,rfl,rfl,rfl,rfl,rfl,⟨rfl,rfl,rfl⟩,Or.inl rfl,Or.inl rfl⟩
  | immediate | call | retries => exact .refl _ _
  | finalizerReturns hc => exact .refl _ _
  | runsSection hc hco => exact absurd hco (h.not_cooperated ho hne)
  | callThrows hc hco => exact absurd hco (h.not_cooperated ho hne)
  | publishThrows hc hco => exact absurd hco (h.not_cooperated ho hne)
  | prologueThrows hc | outOfMemory hc =>
    rw [deliver_state]
    exact .refl _ _
  | stalls hc hs =>
    cases hs with
    | spill hp => exact hpublished hp
    | block hp => exact hpublished hp
    | park => exact ⟨rfl,rfl,rfl,rfl,rfl,rfl,⟨rfl,rfl,rfl⟩,Or.inr ⟨_,_,rfl⟩,Or.inl rfl⟩
    | reblock => exact .refl _ _
  | windowDestroys hc => exact absurd (howner hc) (by simp [Frame.owns])
  | windowReturns hc => exact absurd (howner hc) (by simp [Frame.owns])
  | windowThrows hc => exact absurd (howner hc) (by simp [Frame.owns])
  | destroyed hc => exact .refl _ _
  | skips hc => exact .refl _ _
  | finalizes hc => exact .refl _ _
  | freed hc => exact .refl _ _
  | frees hc => exact absurd (howner hc) (by simp [Frame.owns])
  | releases hc => exact absurd (howner hc) (by simp [Frame.owns])
  | places hc => exact ⟨rfl,rfl,rfl,rfl,rfl,rfl,⟨rfl,rfl,rfl⟩,Or.inl rfl,Or.inl rfl⟩
  | freesBlock hc =>
    rw [deliver_state]
    exact ⟨rfl,rfl,rfl,rfl,rfl,rfl,⟨rfl,rfl,rfl⟩,Or.inl rfl,Or.inl rfl⟩

theorem ProtocolInvariant.step (h : ProtocolInvariant w) (hheap : HeapInvariant w.state)
    (ht : Transition thread w w') : ProtocolInvariant w' := by
  have hs := ht.stepInvariant h hheap
  refine ⟨hs.collecting_eq,hs.requested_iff,fun other => ?_,fun owner ho hpast => ?_,hs.ranges⟩
  · by_cases hne : other = thread
    · subst hne
      exact hs.own
    · rw [hs.control other hne]
      exact (h.thread other).congr (hs.others other hne)
  · rw [othersPaused_iff]
    intro other hne state hf hb
    by_cases hot : owner = thread
    · subst hot
      have hpaused : w.state.othersPaused owner = true := by
        rcases ht.pastWait hpast with hpast | hp
        · obtain ⟨frame,hmem,hframe⟩ := List.any_eq_true.mp hpast
          have howns : frame.owns = true := by cases frame <;> first | rfl | cases hframe
          exact h.stopped owner ((h.thread owner).owner_of_mem hmem howns) hpast
        · exact hp
      rw [(hs.others other hne).record] at hf
      exact othersPaused_iff.mp hpaused other hne state hf hb
    · rw [hs.control owner hot] at hpast
      have ho := (hs.others owner hot).owner.mp ho
      have hpaused := othersPaused_iff.mp (h.stopped owner ho hpast)
      rcases (ht.intrusion h ho (Ne.symm hot)).threads with hsame | ⟨stackMarker,spill,hpark⟩
      · rw [hsame] at hf
        exact hpaused other hne state hf hb
      · rw [hpark] at hf
        simp only [State.park, OrderedMap.find?_modify] at hf
        split_ifs at hf with he
        · obtain ⟨old,-,rfl⟩ := Option.map_eq_some_iff.mp hf
          rfl
        · exact hpaused other hne state hf hb

end
end GcLib.Protocol
