import GcLib.Heap.Layout
import GcLib.Support.OrderedMap
import GcLib.Support.Memory
import GcLib.Support.Exec

/-! # Process state of the collector

`State` holds the fields of the manager together with the part of the process it
works on: the blocks obtained from `operator new` with their headers, and memory.
A `serial` numbers every block in allocation order; no code reads it, and it is
what tells a block from a later one at the same address.
-/

namespace GcLib.Heap
open Support

abbrev ThreadId := ℕ

structure BlockRecord where
  header : ℕ
  payloadBegin : ℕ
  payloadEnd : ℕ
  constructing : Bool := false
  deriving DecidableEq, Repr

def BlockRecord.Contains (block : BlockRecord) (address : ℕ) : Prop :=
  block.payloadBegin ≤ address ∧ address < block.payloadEnd

instance (block : BlockRecord) (address : ℕ) : Decidable (block.Contains address) :=
  inferInstanceAs (Decidable (_ ∧ _))

structure RootRange where
  begin_ : ℕ
  end_ : ℕ
  deriving DecidableEq, Repr

structure WeakRefEntry where
  target : ℕ
  storage : ℕ
  deriving DecidableEq, Repr

/-- Words of `std::jmp_buf`; the value is the one of 64-bit glibc. -/
def kRegisterSpillWordCount : ℕ := 25

/-- A null address is `0`. The fake-stack handle exists in ASan builds only and is left out. -/
structure ThreadState where
  stackBottom : ℕ := 0
  parkedStackTop : ℕ := 0
  registerSpill : List ℕ := List.replicate kRegisterSpillWordCount 0
  pausedForCollection : Bool := false
  deriving DecidableEq, Repr

/-- `fragmentationNumerator` is the dividend of `fragmentation_ratio`; the floating-point
division by `reservedBytes` is left out. -/
structure GCStats where
  totalCollections : ℕ := 0
  bytesReclaimedLast : ℕ := 0
  blocksReclaimedLast : ℕ := 0
  bytesReclaimedTotal : ℕ := 0
  liveBytes : ℕ := 0
  liveBlocks : ℕ := 0
  reservedBytes : ℕ := 0
  fragmentationNumerator : ℕ := 0
  durationLast : ℕ := 0
  durationTotal : ℕ := 0
  totalAllocations : ℕ := 0
  bytesAllocatedTotal : ℕ := 0
  peakLiveBytes : ℕ := 0
  peakLiveBlocks : ℕ := 0
  registeredThreads : ℕ := 0
  registeredRootRanges : ℕ := 0
  registeredWeakRefs : ℕ := 0
  deriving DecidableEq, Repr

/-- A block obtained from `operator new`, from the placement of its header to its release. -/
structure Chunk where
  header : ChunkHeader
  serial : ℕ
  deriving DecidableEq, Repr

structure State where
  allocations : OrderedMap ℕ BlockRecord
  threads : OrderedMap ThreadId ThreadState
  registeredRootRanges : List RootRange
  weakRefs : List WeakRefEntry
  managedBytes : ℕ
  reservedBytes : ℕ
  collectionThresholdBytes : ℕ
  collectorThread : Option ThreadId
  stopTheWorldRequested : Bool
  collecting : Bool
  stats : GCStats
  chunks : OrderedMap ℕ Chunk
  marks : ℕ → Bool
  memory : Memory
  nextSerial : ℕ

/-- The manager before its first use, in a process that owns no block. -/
def State.initial (memory : Memory) : State where
  allocations := .empty
  threads := .empty
  registeredRootRanges := []
  weakRefs := []
  managedBytes := 0
  reservedBytes := 0
  collectionThresholdBytes := 10*1024*1024
  collectorThread := none
  stopTheWorldRequested := false
  collecting := false
  stats := {}
  chunks := .empty
  marks := fun _ => false
  memory := memory
  nextSerial := 0

inductive GCError where
  | badAlloc
  | logicError (what : String)
  | invalidArgument (what : String)
  deriving DecidableEq, Repr

abbrev M (α : Type) := Exec GCError State α

/-- An allocation of the collector itself, which may throw `std::bad_alloc`. -/
def allocate : M Unit := Exec.allocate .badAlloc

def readWord (memory : Memory) (address : ℕ) : ℕ := memory.readBytes address wordSize

def writeWord (memory : Memory) (address value : ℕ) : Memory :=
  memory.writeBytes address value wordSize

theorem readWord_writeWord (memory : Memory) {address value : ℕ} (hv : value < addressLimit) :
    readWord (writeWord memory address value) address = value :=
  Memory.readBytes_writeBytes memory (by simpa [wordSize, addressLimit] using hv)

theorem readWord_writeWord_disjoint (memory : Memory) {a b value : ℕ}
    (h : a+wordSize ≤ b ∨ b+wordSize ≤ a) :
    readWord (writeWord memory a value) b = readWord memory b :=
  Memory.readBytes_writeBytes_disjoint memory h

namespace State

/-- The header at an address; a destroyed header reads as a default one. -/
def header (s : State) (address : ℕ) : ChunkHeader :=
  (s.chunks.find? address).elim {} Chunk.header

def isMarked (s : State) (header : ℕ) : Bool := s.marks header

def setMarked (s : State) (header : ℕ) (value : Bool) : State :=
  { s with marks := Function.update s.marks header value }

/-- The header's destructor ends the life of its mark byte, so it reads as clear afterwards. -/
def freeBlockMemory (s : State) (header : ℕ) : State :=
  { s with
    chunks := s.chunks.erase header
    marks := Function.update s.marks header false }

def findThreadStateLocked (s : State) (thread : ThreadId) : Option ThreadState :=
  s.threads.find? thread

def isRegistered (s : State) (thread : ThreadId) : Bool :=
  (s.findThreadStateLocked thread).any (fun state => decide (state.stackBottom ≠ 0))

/-- The live block whose payload holds an address: predecessor search and range check. -/
def findBlockLocked (s : State) (address : ℕ) : Option BlockRecord :=
  match s.allocations.floor? address with
  | none => none
  | some block => if block.Contains address then some block else none

/-- `std::remove_if` drops the entries into the range and clears their handle words. -/
def invalidateWeakRefsForBlockLocked (s : State) (payloadBegin payloadEnd : ℕ) : State :=
  let hit := fun entry : WeakRefEntry =>
    decide (payloadBegin ≤ entry.target ∧ entry.target < payloadEnd)
  { s with
    weakRefs := s.weakRefs.filter (fun entry => !hit entry)
    memory := (s.weakRefs.filter hit).foldl
      (fun memory entry => writeWord memory entry.storage 0) s.memory }

section
variable (s : State) (payloadBegin payloadEnd : ℕ)

@[simp] theorem invalidate_allocations :
    (s.invalidateWeakRefsForBlockLocked payloadBegin payloadEnd).allocations = s.allocations := rfl

@[simp] theorem invalidate_managedBytes :
    (s.invalidateWeakRefsForBlockLocked payloadBegin payloadEnd).managedBytes =
      s.managedBytes := rfl

@[simp] theorem invalidate_reservedBytes :
    (s.invalidateWeakRefsForBlockLocked payloadBegin payloadEnd).reservedBytes =
      s.reservedBytes := rfl

@[simp] theorem invalidate_header (header : ℕ) :
    (s.invalidateWeakRefsForBlockLocked payloadBegin payloadEnd).header header =
      s.header header := rfl

end
end State

def unregisteredThreadMessage : String :=
  "Current thread must call gc::register_current_thread() or gc::register_stack_bottom() before using GC-Lib on that thread."

def requireRegisteredThreadLocked (thread : ThreadId) : M Unit := do
  let s ← Exec.get
  if s.isRegistered thread then pure () else Exec.raise (.logicError unregisteredThreadMessage)

end GcLib.Heap
