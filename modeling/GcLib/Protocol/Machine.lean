import GcLib.Heap.Collect
import GcLib.Heap.Operations

/-! # The manager as a transition system

Any number of threads call the public operations. A thread is a stack of frames: the
operation it is in on top, and below it the finalizers and allocations that called
it. One step runs one thread from one point where the mutex may change hands to the
next, or lets its user code act. Opening a window and testing whether the others
have paused are two steps even where the test succeeds at once. The log records what
happens to each block and is read by no step.
-/

namespace GcLib.Protocol
open GcLib.Heap GcLib.Support

/-- The public operations, with their arguments. -/
inductive Call where
  | registerStackBottom (stackBottom : ℕ)
  | unregisterCurrentThread
  | isCurrentThreadRegistered
  | safepoint
  | registerRootRange (begin_ end_ : ℕ)
  | unregisterRootRange (begin_ end_ : ℕ)
  | setCollectionThresholdBytes (bytes : ℕ)
  | collectionThresholdBytes
  | managedBytes
  | managedBlockCount
  | stats
  | liveObjects
  | objectInfo (pointer : ℕ)
  | isLive (payload : ℕ)
  | mallocInternal (payloadSize payloadAlignment : ℕ) (destructor : Option ℕ) (constructing : Bool)
  | finishConstruction (payload : ℕ)
  | releaseUnconstructed (payload : ℕ)
  | collectIfNeeded (incoming : ℕ)
  | collect
  | shutdown
  | registerWeakRef (target storage : ℕ)
  | readWeakRef (storage : ℕ)
  | unregisterWeakRef (storage : ℕ)
  | copyWeakRef (oldStorage newStorage : ℕ)
  | updateWeakRef (oldStorage newStorage : ℕ)
  deriving DecidableEq, Repr

/-- The operations that stop the other threads. -/
inductive WindowCall where
  | collect
  | shutdown
  | liveObjects
  | objectInfo (pointer : ℕ)
  deriving DecidableEq, Repr

/-- A critical section: the one of a call, or the registering one of an allocation. -/
inductive Section where
  | call (call : Call)
  | publish (header : ℕ) (constructing : Bool)
  deriving DecidableEq, Repr

/-- How far `cooperate_with_stop_the_world_locked` has come. -/
inductive Stage where
  | enter
  | blocked
  | spilling
  | parked
  deriving DecidableEq, Repr

inductive Frame where
  | entering (code : Section) (stage : Stage)
  | waiting (call : WindowCall)
  | destroying (blocks pending : List ℕ)
  | finalizer (blocks pending : List ℕ)
  | freeing (pending : List ℕ)
  | releasing (result : Except GCError Value)
  | allocating (request : AllocationRequest) (retried : Bool)
  | collecting (request : AllocationRequest)
  | freeingBlock (header : ℕ)
  deriving DecidableEq

/-- What happened to a block. A batch is named by the length of the log at its detachment. -/
inductive Event where
  | placed (serial : ℕ) (destructor : Option ℕ)
  | registered (serial : ℕ)
  | detached (serial batch : ℕ)
  | finalized (serial : ℕ)
  | released (serial : ℕ)
  | freed (serial : ℕ)
  deriving DecidableEq, Repr

structure World where
  state : State
  control : ThreadId → List Frame
  result : ThreadId → Option (Except GCError Value)
  log : List Event

def World.initial (memory : Memory) : World where
  state := .initial memory
  control := fun _ => []
  result := fun _ => none
  log := []

/-- What the outside decides in one step: failing allocations, the words a collection scans,
the region `operator new` returns (`0` for none), and the stack of a parking thread. -/
structure Choice where
  fuel : ℕ := 0
  supply : Supply := none
  env : ScanEnvironment := {}
  region : ℕ := 0
  stackMarker : ℕ := 1
  spill : List ℕ := []

inductive Action where
  | call (call : Call)
  | storeByte (address : ℕ) (value : UInt8)
  | finalizerReturns

inductive Label where
  | user (thread : ThreadId) (action : Action)
  | run (thread : ThreadId) (choice : Choice)

namespace Call

/-- Pointers and sizes are 64-bit values. -/
def words : Call → List ℕ
  | registerStackBottom stackBottom => [stackBottom]
  | registerRootRange begin_ end_ => [begin_,end_]
  | unregisterRootRange begin_ end_ => [begin_,end_]
  | setCollectionThresholdBytes bytes => [bytes]
  | objectInfo pointer => [pointer]
  | isLive payload => [payload]
  | mallocInternal payloadSize payloadAlignment _ _ => [payloadSize,payloadAlignment]
  | finishConstruction payload => [payload]
  | releaseUnconstructed payload => [payload]
  | collectIfNeeded incoming => [incoming]
  | registerWeakRef target storage => [target,storage]
  | readWeakRef storage => [storage]
  | unregisterWeakRef storage => [storage]
  | copyWeakRef oldStorage newStorage => [oldStorage,newStorage]
  | updateWeakRef oldStorage newStorage => [oldStorage,newStorage]
  | _ => []

def nullStackAnchorMessage : String := "GC-Lib stack anchor must not be null."

/-- What a call returns without taking the mutex. -/
def immediate : Call → Option (Except GCError Value)
  | registerStackBottom stackBottom =>
    if stackBottom = 0 then some (.error (.invalidArgument nullStackAnchorMessage)) else none
  | registerRootRange begin_ end_ =>
    if begin_ = 0 ∨ end_ = 0 ∨ begin_ = end_ then some (.ok .unit) else none
  | unregisterRootRange begin_ end_ =>
    if begin_ = 0 ∨ end_ = 0 ∨ begin_ = end_ then some (.ok .unit) else none
  | objectInfo pointer => if pointer = 0 then some (.ok (.object none)) else none
  | isLive payload => if payload = 0 then some (.ok (.bool false)) else none
  | mallocInternal payloadSize payloadAlignment _ _ =>
    if payloadSize = 0 ∨ hasSingleBit payloadAlignment = false then some (.error .badAlloc)
    else none
  | releaseUnconstructed payload => if payload = 0 then some (.ok .unit) else none
  | _ => none

end Call

/-- How a thread goes on after a critical section. -/
inductive Next where
  | done (value : Value)
  | window (call : WindowCall)
  | allocate (request : AllocationRequest)
  | free (header : ℕ)
  | collect

def returning (m : M Value) : M Next := do
  let value ← m
  pure (.done value)

def openWindow (thread : ThreadId) (call : WindowCall) : M Next := do
  Exec.modify (fun s => s.openWindow thread)
  pure (.window call)

/-- The body of a critical section, entered once cooperation is over. -/
def Section.body (thread : ThreadId) (fuel : ℕ) : Section → M Next
  | .publish header constructing => returning (publishAllocation thread header constructing)
  | .call operation => do
    let s ← Exec.get
    match operation with
    | .registerStackBottom stackBottom => returning (registerStackBottomLocked thread stackBottom)
    | .unregisterCurrentThread =>
      Exec.modify (fun s => s.unregisterThread thread)
      pure (.done .unit)
    | .isCurrentThreadRegistered => pure (.done (.bool (s.isRegistered thread)))
    | .safepoint => pure (.done .unit)
    | .registerRootRange _ _ => pure (.done .unit)
    | .unregisterRootRange begin_ end_ =>
      Exec.modify (fun s => s.eraseRootRange (rootRange begin_ end_))
      pure (.done .unit)
    | .setCollectionThresholdBytes bytes =>
      Exec.modify (fun s => { s with collectionThresholdBytes := bytes })
      pure (.done .unit)
    | .collectionThresholdBytes => pure (.done (.word s.collectionThresholdBytes))
    | .managedBytes => pure (.done (.word s.managedBytes))
    | .managedBlockCount => pure (.done (.word s.allocations.size))
    | .stats => pure (.done (.stats s.snapshot))
    | .liveObjects =>
      if s.collecting then
        let objects ← liveObjectsLocked fuel
        pure (.done (.objects objects))
      else openWindow thread .liveObjects
    | .objectInfo pointer =>
      if s.collecting then
        let object ← objectInfoLocked fuel pointer
        pure (.done (.object object))
      else openWindow thread (.objectInfo pointer)
    | .isLive payload => pure (.done (.bool (s.findBlockLocked payload).isSome))
    | .mallocInternal payloadSize payloadAlignment destructor constructing =>
      requireRegisteredThreadLocked thread
      match allocationRequest payloadSize payloadAlignment destructor constructing with
      | none => Exec.raise .badAlloc
      | some request => pure (.allocate request)
    | .finishConstruction payload => returning (finishConstructionLocked payload)
    | .releaseUnconstructed payload =>
      let header ← releaseUnconstructedLocked thread payload
      match header with
      | none => pure (.done .unit)
      | some header => pure (.free header)
    | .collectIfNeeded incoming =>
      let shouldCollect ← shouldCollectLocked thread incoming
      if shouldCollect then pure .collect else pure (.done .unit)
    | .collect =>
      if s.collecting then pure (.done .unit)
      else
        requireRegisteredThreadLocked thread
        openWindow thread .collect
    | .shutdown => if s.collecting then pure (.done .unit) else openWindow thread .shutdown
    | .registerWeakRef target storage => returning (registerWeakRefLocked target storage)
    | .readWeakRef storage => returning (readWeakRefLocked storage)
    | .unregisterWeakRef storage => returning (unregisterWeakRefLocked storage)
    | .copyWeakRef oldStorage newStorage => returning (copyWeakRefLocked oldStorage newStorage)
    | .updateWeakRef oldStorage newStorage => returning (updateWeakRefLocked oldStorage newStorage)

/-- `register_root_range` publishes its range before it cooperates. -/
def Section.prologue : Section → M Unit
  | .call (.registerRootRange begin_ end_) => do
    allocate
    Exec.modify (fun s => s.appendRootRange (rootRange begin_ end_))
  | _ => pure ()

/-- What an open window leaves to do once the others have paused and its work is done. -/
inductive Afterwards where
  | destroy (blocks : List ℕ)
  | done (value : Value)

def WindowCall.body (thread : ThreadId) (fuel : ℕ) (env : ScanEnvironment) :
    WindowCall → M Afterwards
  | .collect => do
    let unreachable ← collectWindow fuel thread env
    pure (.destroy unreachable)
  | .shutdown => do
    let blocks ← shutdownWindow fuel
    pure (.destroy blocks)
  | .liveObjects => do
    let objects ← liveObjectsLocked fuel
    pure (.done (.objects objects))
  | .objectInfo pointer => do
    let object ← objectInfoLocked fuel pointer
    pure (.done (.object object))

namespace World

def setControl (w : World) (thread : ThreadId) (frames : List Frame) : World :=
  { w with control := Function.update w.control thread frames }

def setResult (w : World) (thread : ThreadId) (result : Except GCError Value) : World :=
  { w with result := Function.update w.result thread (some result) }

def setState (w : World) (s : State) : World := { w with state := s }

def emit (w : World) (events : List Event) : World := { w with log := w.log ++ events }

/-- An operation returns to its caller: to user code, or to an allocation that collected. -/
def deliver (w : World) (thread : ThreadId) (rest : List Frame)
    (result : Except GCError Value) : World :=
  match rest, result with
  | .collecting request :: below, .ok _ => w.setControl thread (.allocating request true :: below)
  | .collecting _ :: below, .error e => (w.setControl thread below).setResult thread (.error e)
  | _, _ => (w.setControl thread rest).setResult thread result

/-- How a thread goes on after a critical section that returned. -/
def proceed (w : World) (thread : ThreadId) (rest : List Frame) : Next → World
  | .done value => w.deliver thread rest (.ok value)
  | .window call => w.setControl thread (.waiting call :: rest)
  | .allocate request => w.setControl thread (.allocating request false :: rest)
  | .free header => w.setControl thread (.freeingBlock header :: rest)
  | .collect => w.setControl thread (.entering (.call .collect) .enter :: rest)

def freeBlock (w : World) (header : ℕ) : World :=
  (w.setState (w.state.freeBlockMemory header)).emit [.freed (w.state.serial header)]

end World

/-- What a section that returned did to the life of a block. -/
def Section.events (s s' : State) : Section → Next → List Event
  | .publish header _, _ => [.registered (s'.serial header)]
  | .call _, .free header => [.released (s.serial header)]
  | .call _, _ => []

/-- Runs a section from a state in which cooperation is over. -/
def runSection (w : World) (thread : ThreadId) (choice : Choice) (code : Section)
    (rest : List Frame) (s : State) (supply : Supply) : Option World :=
  match code.body thread choice.fuel s supply with
  | .diverges => none
  | .returns next s' _ =>
    some (((w.setState s').emit (code.events s s' next)).proceed thread rest next)
  | .throws e s' =>
    match code with
    | .publish header _ => some (((w.setState s').freeBlock header).deliver thread rest (.error e))
    | .call _ => some ((w.setState s').deliver thread rest (.error e))

/-- `cooperate_with_stop_the_world_locked` and the section behind it, from one point where
the mutex is free to the next. -/
def runEntering (w : World) (thread : ThreadId) (choice : Choice) (code : Section) (stage : Stage)
    (rest : List Frame) : Option World :=
  let stall := fun (s : State) (stage : Stage) =>
    some ((w.setState s).setControl thread (.entering code stage :: rest))
  match stage with
  | .enter =>
    match code.prologue w.state choice.supply with
    | .diverges => none
    | .throws e s => some ((w.setState s).deliver thread rest (.error e))
    | .returns _ s supply =>
      if s.mayProceed thread then runSection w thread choice code rest s supply
      else if s.isRegistered thread then stall s .spilling
      else stall s .blocked
  | .blocked =>
    if w.state.mayProceed thread then
      runSection w thread choice code rest w.state choice.supply
    else none
  | .spilling =>
    if w.state.mayProceed thread then
      runSection w thread choice code rest w.state choice.supply
    else if w.state.isRegistered thread then
      stall (w.state.park thread choice.stackMarker choice.spill) .parked
    else stall w.state .blocked
  | .parked =>
    if w.state.stopTheWorldRequested then none
    else runSection w thread choice code rest (w.state.unpark thread) choice.supply

/-- The paused window of a call. -/
def runWindow (w : World) (thread : ThreadId) (choice : Choice) (call : WindowCall)
    (rest : List Frame) : Option World :=
  if w.state.othersPaused thread then
    match call.body thread choice.fuel choice.env w.state choice.supply with
    | .diverges => none
    | .returns (.destroy blocks) s _ =>
      some (((w.setState s).emit
          (blocks.map fun header => .detached (s.serial header) w.log.length))
        |>.setControl thread (.destroying blocks blocks :: rest))
    | .returns (.done value) s _ =>
      some ((w.setState s).setControl thread (.releasing (.ok value) :: rest))
    | .throws e s => some ((w.setState s).setControl thread (.releasing (.error e) :: rest))
  else none

/-- `operator new`, retried once after a collection. -/
def runAllocating (w : World) (thread : ThreadId) (choice : Choice) (request : AllocationRequest)
    (retried : Bool) (rest : List Frame) : Option World :=
  if choice.region = 0 then
    if retried then some (w.deliver thread rest (.error .badAlloc))
    else some (w.setControl thread (.entering (.call .collect) .enter :: .collecting request :: rest))
  else if w.state.FreshRegion choice.region request.totalSize request.alignment then
    some (((w.setState (w.state.placeHeader choice.region request)).emit
        [.placed w.state.nextSerial request.destructor])
      |>.setControl thread
        (.entering (.publish choice.region request.constructing) .enter :: rest))
  else none

/-- One step of a thread inside an operation. -/
def runFrame (w : World) (thread : ThreadId) (choice : Choice) (rest : List Frame) :
    Frame → Option World
  | .entering code stage => runEntering w thread choice code stage rest
  | .waiting call => runWindow w thread choice call rest
  | .destroying blocks [] => some (w.setControl thread (.freeing blocks :: rest))
  | .destroying blocks (header :: pending) =>
    if (w.state.header header).destructor = none then
      some (w.setControl thread (.destroying blocks pending :: rest))
    else some ((w.emit [.finalized (w.state.serial header)]).setControl thread
      (.finalizer blocks pending :: rest))
  | .finalizer _ _ => none
  | .freeing [] => some (w.setControl thread (.releasing (.ok .unit) :: rest))
  | .freeing (header :: pending) =>
    some ((w.freeBlock header).setControl thread (.freeing pending :: rest))
  | .releasing result =>
    some ((w.setState w.state.releaseStopTheWorld).deliver thread rest result)
  | .allocating request retried => runAllocating w thread choice request retried rest
  | .collecting _ => none
  | .freeingBlock header => some ((w.freeBlock header).deliver thread rest (.ok .unit))

/-- The thread is in user code: outside every operation, or inside a finalizer. -/
def inUserCode : List Frame → Bool
  | [] => true
  | .finalizer _ _ :: _ => true
  | _ => false

def runAction (w : World) (thread : ThreadId) : Action → Option World
  | .call call =>
    if ∀ word ∈ call.words, word < addressLimit then
      match call.immediate with
      | some result => some (w.setResult thread result)
      | none => some (w.setControl thread (.entering (.call call) .enter :: w.control thread))
    else none
  | .storeByte address value =>
    some (w.setState { w.state with memory := Function.update w.state.memory address value })
  | .finalizerReturns =>
    match w.control thread with
    | .finalizer blocks pending :: rest =>
      some (w.setControl thread (.destroying blocks pending :: rest))
    | _ => none

/-- Addresses the outside supplies are addresses of live objects. -/
def Choice.valid (choice : Choice) : Bool :=
  decide (choice.env.localMarker < addressLimit) &&
    (decide (choice.stackMarker ≠ 0) && decide (choice.stackMarker < addressLimit))

def step (label : Label) (w : World) : Option World :=
  match label with
  | .user thread action => if inUserCode (w.control thread) then runAction w thread action else none
  | .run thread choice =>
    match w.control thread with
    | [] => none
    | frame :: rest => if choice.valid then runFrame w thread choice rest frame else none

end GcLib.Protocol
