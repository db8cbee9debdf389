import GcLib.Heap.Scanner
import GcLib.Heap.Invariant
import GcLib.Support.Tricolour

/-! # The mark phase

Marking starts from blocks under construction, the registered threads and the
registered root ranges, and drains a worklist whose capacity was reserved up front.
The loops keep the tricolour invariant, so when they stop the marked blocks are the
least set that holds the roots and is closed under references; and because a block
is pushed only when it turns from white to grey, no push ever exceeds the reserved
capacity.
-/

namespace GcLib.Heap
open Support

/-- A `std::vector<BlockRecord*>`. The pointers are to live map nodes and are never null. -/
abbrev Worklist := Vec BlockRecord

def State.clearMarksLocked (s : State) : State :=
  s.allocations.values.foldl (fun s block => s.setMarked block.header false) s

def markCandidateLocked (worklist : Worklist) (candidate : ℕ) : M Worklist := do
  let s ← Exec.get
  match s.findBlockLocked candidate with
  | none => pure worklist
  | some block =>
    if (s.header block.header).magicNumber ≠ kChunkMagicNumber ∨ s.isMarked block.header then
      pure worklist
    else
      Exec.modify (fun s => s.setMarked block.header true)
      worklist.pushBack .badAlloc block

def scanPayloadLocked (fuel : ℕ) (block : BlockRecord) (worklist : Worklist) : M Worklist :=
  forPayloadWords block.payloadEnd (fun worklist cur => do
    let s ← Exec.get
    markCandidateLocked worklist (readWord s.memory cur)) fuel block.payloadBegin worklist

/-- `scanFuel` bounds each payload walk, the recursion bounds the number of pops. -/
def drainMarkWorklistLocked (scanFuel : ℕ) : ℕ → Worklist → M Worklist
  | 0, _ => Exec.diverge
  | fuel+1, worklist =>
    match worklist.items with
    | [] => pure worklist
    | block :: items => do
      let worklist ← scanPayloadLocked scanFuel block { worklist with items := items }
      drainMarkWorklistLocked scanFuel fuel worklist

/-- The blocks under construction are marked through their payload addresses. -/
def markConstructing (worklist : Worklist) : M Worklist := do
  let s ← Exec.get
  s.allocations.entries.foldlM (fun worklist entry =>
    if entry.2.constructing then markCandidateLocked worklist entry.1 else pure worklist) worklist

def scanRegisteredThread (fuel : ℕ) (collector : ThreadId) (env : ScanEnvironment)
    (worklist : Worklist) (entry : ThreadId × ThreadState) : M Worklist := do
  if entry.2.stackBottom = 0 then pure worklist
  else if entry.1 = collector then
    rootScan fuel entry.2.stackBottom env markCandidateLocked worklist
  else
    let worklist ← entry.2.registerSpill.foldlM markCandidateLocked worklist
    scanStackRange fuel entry.2.parkedStackTop entry.2.stackBottom markCandidateLocked worklist

def scanRegisteredThreadsLocked (fuel : ℕ) (collector : ThreadId) (env : ScanEnvironment)
    (worklist : Worklist) : M Worklist := do
  let s ← Exec.get
  s.threads.entries.foldlM (scanRegisteredThread fuel collector env) worklist

def scanRegisteredRootsLocked (fuel : ℕ) (worklist : Worklist) : M Worklist := do
  let s ← Exec.get
  s.registeredRootRanges.foldlM (fun worklist range =>
    scanWords fuel range.begin_ range.end_ markCandidateLocked worklist) worklist

/-- The mark phase of `collect`, from `clear_marks_locked` to the drained worklist. -/
def markLocked (fuel : ℕ) (collector : ThreadId) (env : ScanEnvironment) : M Unit := do
  Exec.modify State.clearMarksLocked
  let s ← Exec.get
  let worklist ← Vec.reserve .badAlloc s.allocations.size
  let worklist ← markConstructing worklist
  let worklist ← scanRegisteredThreadsLocked fuel collector env worklist
  let worklist ← scanRegisteredRootsLocked fuel worklist
  let _ ← drainMarkWorklistLocked fuel fuel worklist

/-- A word found while scanning one registered thread: the collecting thread is scanned where
it stands, every other thread where it parked. -/
inductive ThreadWord (s : State) (collector : ThreadId) (env : ScanEnvironment)
    (thread : ThreadId) (state : ThreadState) : ℕ → Prop where
  | spill {word : ℕ} (hne : thread ≠ collector) (hw : word ∈ state.registerSpill) :
      ThreadWord s collector env thread state word
  | parkedStack {word : ℕ} (hne : thread ≠ collector)
      (hw : word ∈ rangeWords s.memory state.parkedStackTop state.stackBottom) :
      ThreadWord s collector env thread state word
  | registers {word : ℕ} (he : thread = collector) (hw : word ∈ env.registers) :
      ThreadWord s collector env thread state word
  | stack {word : ℕ} (he : thread = collector)
      (hw : word ∈ rangeWords s.memory env.localMarker state.stackBottom) :
      ThreadWord s collector env thread state word
  | global {image : LoadedImage} {segment : Segment} {word : ℕ} (he : thread = collector)
      (hi : image ∈ env.images) (hseg : segment ∈ image.segments)
      (hscan : segment.isScanned image.addr = true)
      (hw : word ∈ rangeWords s.memory (wrapAdd image.addr segment.vaddr)
        (wrapAdd image.addr segment.vaddr+segment.memsz)) :
      ThreadWord s collector env thread state word

/-- A word the collector treats as a possible pointer, by where it was found. -/
inductive RootWord (s : State) (collector : ThreadId) (env : ScanEnvironment) : ℕ → Prop where
  | range {range : RootRange} {word : ℕ} (hr : range ∈ s.registeredRootRanges)
      (hw : word ∈ rangeWords s.memory range.begin_ range.end_) : RootWord s collector env word
  | thread {thread : ThreadId} {state : ThreadState} {word : ℕ}
      (ht : (thread,state) ∈ s.threads.entries) (hs : state.stackBottom ≠ 0)
      (hw : ThreadWord s collector env thread state word) : RootWord s collector env word

/-- A block that every collection keeps: under construction, or hit by a root word. -/
def MarkRoot (s : State) (collector : ThreadId) (env : ScanEnvironment) (block : BlockRecord) :
    Prop :=
  block ∈ s.allocations.values ∧
    (block.constructing = true ∨ ∃ word, RootWord s collector env word ∧ block.Contains word)

/-- Some aligned complete payload word of `u` points into the payload of `v`. -/
def References (s : State) (u v : BlockRecord) : Prop :=
  v ∈ s.allocations.values ∧
    ∃ x ∈ alignedWords u.payloadBegin u.payloadEnd, v.Contains (readWord s.memory x)

/-- The blocks a collection keeps. -/
def Retained (s : State) (collector : ThreadId) (env : ScanEnvironment) (block : BlockRecord) :
    Prop :=
  Reached (MarkRoot s collector env) (References s) block

/-- Equal in everything but the mark bytes. -/
def State.EqButMarks (s s₀ : State) : Prop := { s with marks := s₀.marks } = s₀

namespace State.EqButMarks
variable {s s₀ : State}

theorem refl (s : State) : s.EqButMarks s := rfl

theorem eq (h : s.EqButMarks s₀) : { s with marks := s₀.marks } = s₀ := h

theorem trans {s₁ : State} (h : s.EqButMarks s₁) (h₁ : s₁.EqButMarks s₀) : s.EqButMarks s₀ := by
  unfold State.EqButMarks at *
  rw [← h₁, ← h]

theorem setMarked (h : s.EqButMarks s₀) (header : ℕ) (value : Bool) :
    (s.setMarked header value).EqButMarks s₀ := h

theorem allocations (h : s.EqButMarks s₀) : s.allocations = s₀.allocations :=
  (congrArg State.allocations h.eq :)

theorem chunks (h : s.EqButMarks s₀) : s.chunks = s₀.chunks := (congrArg State.chunks h.eq :)

theorem memory (h : s.EqButMarks s₀) : s.memory = s₀.memory := (congrArg State.memory h.eq :)

theorem threads (h : s.EqButMarks s₀) : s.threads = s₀.threads := (congrArg State.threads h.eq :)

theorem registeredRootRanges (h : s.EqButMarks s₀) :
    s.registeredRootRanges = s₀.registeredRootRanges := (congrArg State.registeredRootRanges h.eq :)

theorem weakRefs (h : s.EqButMarks s₀) : s.weakRefs = s₀.weakRefs :=
  (congrArg State.weakRefs h.eq :)

theorem managedBytes (h : s.EqButMarks s₀) : s.managedBytes = s₀.managedBytes :=
  (congrArg State.managedBytes h.eq :)

theorem reservedBytes (h : s.EqButMarks s₀) : s.reservedBytes = s₀.reservedBytes :=
  (congrArg State.reservedBytes h.eq :)

theorem findBlockLocked (h : s.EqButMarks s₀) (a : ℕ) :
    s.findBlockLocked a = s₀.findBlockLocked a := by
  simp only [State.findBlockLocked, h.allocations]

theorem header (h : s.EqButMarks s₀) (a : ℕ) : s.header a = s₀.header a := by
  simp only [State.header, h.chunks]

theorem invariant (h : s.EqButMarks s₀) (hinv : HeapInvariant s₀) : HeapInvariant s :=
  hinv.congr h.allocations h.chunks h.managedBytes h.reservedBytes

end State.EqButMarks
end GcLib.Heap
