import GcLib.Client.WeakHandles
import GcLib.Protocol.Rooting

/-! # Strong handles

A `gc_root` is one word of memory, whose own range it registers. A value reaches it from the hand
of a thread, or from another root, and is stored before the range is published. An assignment only
stores, as the range is registered already.
-/

namespace GcLib.Client
open GcLib.Heap GcLib.Support GcLib.Protocol

/-- The place of an aligned word. -/
structure Slot where
  address : ℕ
  address_ne : address ≠ 0
  aligned : address % wordSize = 0
  deriving DecidableEq

def Slot.range (slot : Slot) : RootRange := rootRange slot.address (slot.address+wordSize)

/-- A live root, and where its value came from if it is not null. -/
structure StrongHandle where
  slot : Slot
  origin : Option Origin
  deriving DecidableEq

/-- Null, or the pointer. -/
def pointerOf (origin : Option Origin) : ℕ := origin.elim 0 Origin.pointer

inductive StrongOperation where
  | construct (this : Slot) (given : Option Origin)
  | copyConstruct (this : Slot) (other : StrongHandle)
  | moveConstruct (this : Slot) (other : StrongHandle)
  | destroy (handle : StrongHandle)
  | copyAssign (handle other : StrongHandle)
  | moveAssign (handle other : StrongHandle)
  | assign (handle : StrongHandle) (given : Option Origin)

namespace StrongOperation

def takes : StrongOperation → List StrongHandle
  | construct _ _ => []
  | copyConstruct _ _ => []
  | moveConstruct _ other => [other]
  | destroy handle => [handle]
  | copyAssign handle _ => [handle]
  | moveAssign handle other =>
    if handle.slot ≠ other.slot then [handle,other] else [handle]
  | assign handle _ => [handle]

def borrows : StrongOperation → List StrongHandle
  | copyConstruct _ other => [other]
  | copyAssign handle other => if handle.slot ≠ other.slot then [other] else []
  | _ => []

def constructs : StrongOperation → List Slot
  | construct this _ => [this]
  | copyConstruct this _ => [this]
  | moveConstruct this _ => [this]
  | _ => []

/-- The pointers that the thread of an operation has in hand. -/
def hands : StrongOperation → List Origin
  | construct _ given => given.toList
  | assign _ given => given.toList
  | _ => []

/-- An operation leaves the roots that are live after it, each with where its value came from. -/
def code : StrongOperation → Program (Trace → List StrongHandle)
  | construct this given => do
    GcRoot.construct this.address (pointerOf given)
    pure fun _ => [⟨this,given⟩]
  | copyConstruct this other => do
    GcRoot.copyConstruct this.address other.slot.address
    pure fun _ => [⟨this,other.origin⟩]
  | moveConstruct this other => do
    GcRoot.moveConstruct this.address other.slot.address
    pure fun _ => [⟨this,other.origin⟩,⟨other.slot,none⟩]
  | destroy handle => do
    GcRoot.destroy handle.slot.address
    pure fun _ => []
  | copyAssign handle other => do
    GcRoot.copyAssign handle.slot.address other.slot.address
    pure fun _ => if handle.slot ≠ other.slot then [⟨handle.slot,other.origin⟩]
      else [handle]
  | moveAssign handle other => do
    GcRoot.moveAssign handle.slot.address other.slot.address
    pure fun _ => if handle.slot ≠ other.slot then
      [⟨handle.slot,other.origin⟩,⟨other.slot,none⟩] else [handle]
  | assign handle given => do
    GcRoot.assign handle.slot.address (pointerOf given)
    pure fun _ => [⟨handle.slot,given⟩]

/-- The words an operation may write. -/
def slots (operation : StrongOperation) : List Slot :=
  operation.takes.map StrongHandle.slot ++ operation.constructs

/-- The values an operation handles. -/
def origins (operation : StrongOperation) : List Origin :=
  (operation.takes ++ operation.borrows).filterMap StrongHandle.origin ++
    operation.hands

end StrongOperation

theorem StrongOperation.callsOnly (operation : StrongOperation) :
    operation.code.CallsOnly (fun c => changesRanges c = true) := by
  have hregister := callsOnly_registerRootObject
  cases operation with
  | construct this given => exact (hregister this.address wordSize).bind fun _ => by trivial
  | copyConstruct this other =>
    exact fun word => (hregister this.address wordSize).bind fun _ => by trivial
  | moveConstruct this other =>
    refine fun word => Program.CallsOnly.bind (fun _ => by trivial) ?_
    exact (hregister this.address wordSize).bind fun _ => by trivial
  | destroy handle =>
    exact (callsOnly_unregisterRootObject handle.slot.address wordSize).bind fun _ => by trivial
  | copyAssign handle other =>
    refine Program.CallsOnly.bind (fun _ => by trivial) ?_
    unfold GcRoot.copyAssign
    split_ifs <;> simp [Program.CallsOnly, Program.readWord, Program.writeWord]
  | moveAssign handle other =>
    refine Program.CallsOnly.bind (fun _ => by trivial) ?_
    unfold GcRoot.moveAssign
    split_ifs <;> simp [Program.CallsOnly, Program.readWord, Program.writeWord]
  | assign handle given => trivial

/-! ## Clients -/

/-- The words of the roots at rest and of the operations in progress. -/
def strongSlots (handles : List StrongHandle) (operations : List StrongOperation) : List Slot :=
  handles.map StrongHandle.slot ++ operations.flatMap StrongOperation.slots

/-- The values of the roots at rest and of the operations in progress. -/
def strongOrigins (handles : List StrongHandle) (operations : List StrongOperation) :
    List Origin :=
  handles.filterMap StrongHandle.origin ++ operations.flatMap StrongOperation.origins

/-- A step outside the operations leaves the word of a root alone, and its registration. -/
structure SparesRoot (slot : Slot) (label : Label) (w : World) : Prop where
  word : SparesWord slot.address label w
  blocks : ∀ header constructing stage rest,
    w.control label.thread = .entering (.publish header constructing) stage :: rest →
      slot.address+wordSize ≤ w.state.payloadBegin header ∨
        w.state.payloadBegin header+(w.state.header header).size ≤ slot.address
  range : ∀ begin_ end_ stage rest,
    w.control label.thread = .entering (.call (.unregisterRootRange begin_ end_)) stage :: rest →
      rootRange begin_ end_ ≠ slot.range

/-- The block of a value is registered and contains the pointer. -/
def Origin.Live (s : State) (origin : Origin) : Prop :=
  ∃ b ∈ s.allocations.values, b.Contains origin.pointer ∧ s.serial b.header = origin.serial

/-- Roots are constructed at places of their own, and pointers are passed by the registered thread
that has them in hand, while their blocks are registered. -/
structure StrongPromise (w : World) (thread : ThreadId) (operation : StrongOperation)
    (handles : List StrongHandle) (operations : List StrongOperation) : Prop where
  fresh : ∀ this ∈ operation.constructs, this ∉ strongSlots handles operations
  hands : ∀ origin ∈ operation.hands, w.state.isRegistered thread = true ∧ origin.Live w.state

/-- The steps outside the operations spare the roots and the blocks of their values. -/
structure StrongAdmits (handles : List StrongHandle) (operations : List StrongOperation)
    (label : Label) (w : World) : Prop where
  roots : ∀ slot ∈ strongSlots handles operations, SparesRoot slot label w
  blocks : ∀ origin ∈ strongOrigins handles operations, ∀ b ∈ w.state.allocations.values,
    b.Contains origin.pointer → SparesBlock b label w

/-- The `gc_root`s of a client. Other code may register and unregister ranges as well. -/
def strongInterface : Interface StrongHandle where
  Operation := StrongOperation
  takes := StrongOperation.takes
  borrows := StrongOperation.borrows
  constructs operation := operation.constructs.map Slot.address
  code := StrongOperation.code
  Promised := StrongPromise
  Admits := StrongAdmits
  reserved := changesRanges
  exclusive _ := false
  exclusive_reserved _ h := absurd h Bool.false_ne_true
  single := changesRanges_single
  calls := StrongOperation.callsOnly

end GcLib.Client
