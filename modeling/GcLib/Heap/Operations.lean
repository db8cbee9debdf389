import GcLib.Heap.Sweep

/-! # Critical sections of the public operations

Each definition is what one operation does under the mutex once it has cooperated
with a pending stop-the-world request. Vectors and maps that live across calls may
have to grow at any insertion, so each insertion into one of them may throw.
-/

namespace GcLib.Heap
open Support

/-- Debug snapshot of one live managed object. -/
structure HeapObjectInfo where
  payload : ℕ := 0
  payloadSize : ℕ := 0
  reservedSize : ℕ := 0
  payloadOffset : ℕ := 0
  allocationAlignment : ℕ := 0
  marked : Bool := false
  outgoingReferences : List ℕ := []
  deriving DecidableEq, Repr

/-- What an operation returns to its caller. -/
inductive Value where
  | unit
  | bool (value : Bool)
  | word (value : ℕ)
  | stats (snapshot : GCStats)
  | objects (objects : List HeapObjectInfo)
  | object (object : Option HeapObjectInfo)
  deriving DecidableEq, Repr

namespace State
variable (s : State)

def setStackBottom (thread : ThreadId) (stackBottom : ℕ) : State :=
  { s with threads :=
    ((s.threads.emplace thread {}).modify thread fun state =>
      { state with stackBottom := stackBottom }) }

def unregisterThread (thread : ThreadId) : State :=
  { s with threads := s.threads.erase thread }

def appendRootRange (range : RootRange) : State :=
  { s with registeredRootRanges := s.registeredRootRanges ++ [range] }

/-- The first equal range is erased. -/
def eraseRootRange (range : RootRange) : State :=
  { s with registeredRootRanges := s.registeredRootRanges.erase range }

def snapshot : GCStats :=
  { s.stats with
    liveBytes := s.managedBytes
    liveBlocks := s.allocations.size
    reservedBytes := s.reservedBytes
    registeredThreads := s.threads.size
    registeredRootRanges := s.registeredRootRanges.length
    registeredWeakRefs := s.weakRefs.length
    fragmentationNumerator :=
      if s.reservedBytes = 0 then 0 else wrapSub s.reservedBytes s.managedBytes }

def projectedBytes (incoming : ℕ) : ℕ :=
  if addWouldOverflow s.managedBytes incoming then sizeMax else s.managedBytes+incoming

def payloadBegin (header : ℕ) : ℕ := header+(s.header header).payloadOffset

/-- `std::memset` over the payload. -/
def zeroPayload (header : ℕ) : State :=
  { s with memory :=
    s.memory.writeBytes (s.payloadBegin header) 0 (s.header header).size }

/-- `register_block_locked` after its map insertion found the memory it needs. -/
def insertBlock (header : ℕ) : State :=
  let size := (s.header header).size
  let begin_ := s.payloadBegin header
  let allocations := s.allocations.emplace begin_ ⟨header,begin_,begin_+size,false⟩
  let managedBytes := wrapAdd s.managedBytes size
  { s with
    allocations := allocations
    managedBytes := managedBytes
    reservedBytes := wrapAdd s.reservedBytes (s.header header).blockAllocationSize
    stats := { s.stats with
      totalAllocations := saturatingAdd s.stats.totalAllocations 1
      bytesAllocatedTotal := saturatingAdd s.stats.bytesAllocatedTotal size
      peakLiveBytes := max s.stats.peakLiveBytes managedBytes
      peakLiveBlocks := max s.stats.peakLiveBlocks allocations.size } }

def setConstructing (payload : ℕ) (value : Bool) : State :=
  { s with allocations :=
    s.allocations.modify payload fun block => { block with constructing := value } }

/-- What `release_unconstructed` does to the record it found. -/
def removeBlock (block : BlockRecord) : State :=
  let s₁ : State := { s with
    managedBytes := wrapSub s.managedBytes (s.header block.header).size
    reservedBytes := wrapSub s.reservedBytes (s.header block.header).blockAllocationSize }
  let s₂ := s₁.invalidateWeakRefsForBlockLocked block.payloadBegin block.payloadEnd
  { s₂ with allocations := s₂.allocations.erase block.payloadBegin }

end State

def registerStackBottomLocked (thread : ThreadId) (stackBottom : ℕ) : M Value := do
  let s ← Exec.get
  if s.threads.find? thread = none then allocate
  Exec.modify (fun s => s.setStackBottom thread stackBottom)
  pure .unit

def registerBlockLocked (header : ℕ) : M Unit := do
  allocate
  Exec.modify (fun s => s.insertBlock header)

/-- The registering section of `malloc_internal`. -/
def publishAllocation (thread : ThreadId) (header : ℕ) (constructing : Bool) : M Value := do
  requireRegisteredThreadLocked thread
  let s ← Exec.get
  let payloadSize := (s.header header).size
  let totalSize := (s.header header).payloadOffset+payloadSize
  if addWouldOverflow s.managedBytes payloadSize || addWouldOverflow s.reservedBytes totalSize then
    Exec.raise .badAlloc
  else
    Exec.modify (fun s => s.zeroPayload header)
    registerBlockLocked header
    Exec.modify (fun s => s.setConstructing (s.payloadBegin header) constructing)
    pure (.word (s.payloadBegin header))

def unknownAllocationMessage : String :=
  "GC-Lib construction refers to an unknown allocation."

def finishConstructionLocked (payload : ℕ) : M Value := do
  let s ← Exec.get
  match s.allocations.find? payload with
  | none => Exec.raise (.logicError unknownAllocationMessage)
  | some _ =>
    Exec.modify (fun s => s.setConstructing payload false)
    pure .unit

/-- The header to free once the mutex is released, if the payload is a live one. -/
def releaseUnconstructedLocked (thread : ThreadId) (payload : ℕ) : M (Option ℕ) := do
  requireRegisteredThreadLocked thread
  let s ← Exec.get
  match s.allocations.find? payload with
  | none => pure none
  | some block =>
    Exec.modify (fun s => s.removeBlock block)
    pure (some block.header)

def shouldCollectLocked (thread : ThreadId) (incoming : ℕ) : M Bool := do
  requireRegisteredThreadLocked thread
  let s ← Exec.get
  pure (!s.collecting && decide (s.projectedBytes incoming ≥ s.collectionThresholdBytes))

/-! ## Stopping and parking -/

/-- The endpoints in ascending order. -/
def rootRange (begin_ end_ : ℕ) : RootRange :=
  if begin_ > end_ then ⟨end_,begin_⟩ else ⟨begin_,end_⟩

def State.openWindow (s : State) (thread : ThreadId) : State :=
  { s with collecting := true, collectorThread := some thread, stopTheWorldRequested := true }

def State.releaseStopTheWorld (s : State) : State :=
  { s with collectorThread := none, stopTheWorldRequested := false, collecting := false }

/-- The predicate of `wait_for_other_threads_to_pause_locked`. -/
def State.othersPaused (s : State) (collector : ThreadId) : Bool :=
  s.threads.entries.all fun entry =>
    decide (entry.1 = collector) || decide (entry.2.stackBottom = 0) || entry.2.pausedForCollection

/-- Cooperation lets the thread pass. -/
def State.mayProceed (s : State) (thread : ThreadId) : Bool :=
  !s.stopTheWorldRequested || decide (s.collectorThread = some thread)

def State.park (s : State) (thread : ThreadId) (stackMarker : ℕ) (spill : List ℕ) : State :=
  { s with threads := s.threads.modify thread fun state => { state with
      parkedStackTop := stackMarker
      pausedForCollection := true
      registerSpill := spill } }

def State.unpark (s : State) (thread : ThreadId) : State :=
  { s with threads := s.threads.modify thread fun state => { state with
      parkedStackTop := 0
      pausedForCollection := false
      registerSpill := List.replicate kRegisterSpillWordCount 0 } }

/-! ## Allocation requests -/

/-- What `malloc_internal` has computed when it calls `operator new`. -/
structure AllocationRequest where
  payloadSize : ℕ
  payloadOffset : ℕ
  alignment : ℕ
  destructor : Option ℕ
  constructing : Bool
  deriving DecidableEq, Repr

def AllocationRequest.totalSize (request : AllocationRequest) : ℕ :=
  request.payloadOffset+request.payloadSize

/-- The size computations of `malloc_internal`; `none` is its `std::bad_alloc`. -/
def allocationRequest (payloadSize payloadAlignment : ℕ) (destructor : Option ℕ)
    (constructing : Bool) : Option AllocationRequest :=
  let alignment := normalizeAlignment payloadAlignment
  match roundUpToAlignment chunkHeaderSize alignment with
  | none => none
  | some offset =>
    if offset > 65535 ∨ addWouldOverflow offset payloadSize then none
    else some ⟨payloadSize,offset,alignment,destructor,constructing⟩

def State.serial (s : State) (header : ℕ) : ℕ := (s.chunks.find? header).elim 0 Chunk.serial

/-- `operator new` returns an aligned region of the address space that overlaps no block. -/
def State.FreshRegion (s : State) (region total alignment : ℕ) : Prop :=
  region ≠ 0 ∧ region % alignment = 0 ∧ region+total < addressLimit ∧
    ∀ entry ∈ s.chunks.entries, region+total ≤ entry.1 ∨ entry.1+entry.2.extent ≤ region

instance (s : State) (region total alignment : ℕ) :
    Decidable (s.FreshRegion region total alignment) :=
  inferInstanceAs (Decidable (_ ∧ _ ∧ _ ∧ ∀ entry ∈ s.chunks.entries, _))

/-- The fields `malloc_internal` sets; the offset is narrowed to sixteen bits. -/
def AllocationRequest.header (request : AllocationRequest) : ChunkHeader where
  size := request.payloadSize
  destructor := request.destructor
  magicNumber := kChunkMagicNumber
  payloadOffset := request.payloadOffset % 65536
  alignmentShift := alignmentShiftOf request.alignment

def State.placeHeader (s : State) (region : ℕ) (request : AllocationRequest) : State :=
  { s with
    chunks := s.chunks.emplace region ⟨request.header,s.nextSerial⟩
    marks := Function.update s.marks region false
    nextSerial := s.nextSerial+1 }

/-! ## Weak references -/

def findWeakRef (weakRefs : List WeakRefEntry) (storage : ℕ) : Option WeakRefEntry :=
  weakRefs.find? (fun entry => decide (entry.storage = storage))

def registerWeakRefLocked (target storage : ℕ) : M Value := do
  let s ← Exec.get
  if storage = 0 then pure .unit
  else if s.findBlockLocked target = none then
    Exec.modify (fun s => { s with memory := writeWord s.memory storage 0 })
    pure .unit
  else
    allocate
    Exec.modify (fun s => { s with weakRefs := s.weakRefs ++ [⟨target,storage⟩] })
    pure .unit

def readWeakRefLocked (storage : ℕ) : M Value := do
  let s ← Exec.get
  pure (.word ((findWeakRef s.weakRefs storage).elim 0 WeakRefEntry.target))

/-- Swap-and-pop of the first entry with the storage. -/
def swapAndPop (storage : ℕ) : List WeakRefEntry → List WeakRefEntry
  | [] => []
  | entry :: rest =>
    if entry.storage = storage then
      match rest.getLast? with
      | none => []
      | some back => back :: rest.dropLast
    else entry :: swapAndPop storage rest

def unregisterWeakRefLocked (storage : ℕ) : M Value := do
  Exec.modify (fun s => { s with weakRefs := swapAndPop storage s.weakRefs })
  pure .unit

def copyWeakRefLocked (oldStorage newStorage : ℕ) : M Value := do
  let s ← Exec.get
  match findWeakRef s.weakRefs oldStorage with
  | none =>
    Exec.modify (fun s => { s with memory := writeWord s.memory newStorage 0 })
    pure .unit
  | some entry =>
    allocate
    Exec.modify (fun s => { s with
      weakRefs := s.weakRefs ++ [⟨entry.target,newStorage⟩]
      memory := writeWord s.memory newStorage (readWord s.memory oldStorage) })
    pure .unit

/-- Gives the first entry with the old storage the new one. -/
def moveStorage (oldStorage newStorage : ℕ) : List WeakRefEntry → List WeakRefEntry
  | [] => []
  | entry :: rest =>
    if entry.storage = oldStorage then { entry with storage := newStorage } :: rest
    else entry :: moveStorage oldStorage newStorage rest

def updateWeakRefLocked (oldStorage newStorage : ℕ) : M Value := do
  let s ← Exec.get
  match findWeakRef s.weakRefs oldStorage with
  | none =>
    Exec.modify (fun s => { s with memory := writeWord s.memory newStorage 0 })
    pure .unit
  | some _ =>
    Exec.modify (fun s => { s with
      memory := writeWord (writeWord s.memory newStorage (readWord s.memory oldStorage)) oldStorage 0
      weakRefs := moveStorage oldStorage newStorage s.weakRefs })
    pure .unit

/-! ## Diagnostics -/

def collectOutgoingReferencesLocked (fuel : ℕ) (block : BlockRecord) : M (List ℕ) := do
  let references ← forPayloadWords block.payloadEnd (fun (references : Vec ℕ) cur => do
    let s ← Exec.get
    match s.findBlockLocked (readWord s.memory cur) with
    | none => pure references
    | some target =>
      if target = block then pure references
      else
        let payload := s.payloadBegin target.header
        if payload ∈ references.items then pure references
        else references.pushBack .badAlloc payload) fuel block.payloadBegin {}
  pure references.items.reverse

def describeBlockLocked (fuel : ℕ) (block : BlockRecord) : M HeapObjectInfo := do
  let s ← Exec.get
  let header := s.header block.header
  let references ← collectOutgoingReferencesLocked fuel block
  pure {
    payload := s.payloadBegin block.header
    payloadSize := header.size
    reservedSize := header.blockAllocationSize
    payloadOffset := header.payloadOffset
    allocationAlignment := header.allocationAlignment
    marked := s.isMarked block.header
    outgoingReferences := references }

def liveObjectsLocked (fuel : ℕ) : M (List HeapObjectInfo) := do
  let s ← Exec.get
  let objects ← Vec.reserve .badAlloc s.allocations.size
  let objects ← s.allocations.values.foldlM (fun (objects : Vec HeapObjectInfo) block => do
    let object ← describeBlockLocked fuel block
    objects.pushBack .badAlloc object) objects
  pure objects.items.reverse

def objectInfoLocked (fuel pointer : ℕ) : M (Option HeapObjectInfo) := do
  let s ← Exec.get
  match s.findBlockLocked pointer with
  | none => pure none
  | some block =>
    let object ← describeBlockLocked fuel block
    pure (some object)

end GcLib.Heap
