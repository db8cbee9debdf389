import GcLib.Client.RootHandles
import GcLib.Heap.WeakEncoding
import GcLib.Protocol.WeakCalls

/-! # Weak handles

A `gc_weak_ptr` is one word of memory, which holds the encoding of its target. The manager knows
the handle by the address of that word. Every operation reads the word first, and may be overtaken
by a collection before it takes the mutex.
-/

namespace GcLib.Client
open GcLib.Heap GcLib.Support GcLib.Protocol

def registerWeakRef (target storage : ℕ) : Program Unit := do
  let _ ← Program.invoke (.registerWeakRef target storage)
  pure ()

def readWeakRef (storage : ℕ) : Program ℕ := do
  let target ← Program.invoke (.readWeakRef storage)
  pure (addressOf target)

def unregisterWeakRef (storage : ℕ) : Program Unit := do
  let _ ← Program.invoke (.unregisterWeakRef storage)
  pure ()

def copyWeakRef (oldStorage newStorage : ℕ) : Program Unit := do
  let _ ← Program.invoke (.copyWeakRef oldStorage newStorage)
  pure ()

def updateWeakRef (oldStorage newStorage : ℕ) : Program Unit := do
  let _ ← Program.invoke (.updateWeakRef oldStorage newStorage)
  pure ()

/-! ## `gc_weak_ptr` -/

namespace GcWeakPtr

def defaultConstruct (this : ℕ) : Program Unit := Program.writeWord this 0

/-- The constructor from a `gc_ptr`. -/
def construct (this pointer : ℕ) : Program Unit := do
  Program.writeWord this (encodeWeakPtr pointer)
  let encoded ← Program.readWord this
  whenever (encoded ≠ 0) (registerWeakRef pointer this)

def destroy (this : ℕ) : Program Unit := do
  let encoded ← Program.readWord this
  whenever (encoded ≠ 0) (unregisterWeakRef this)

/-- The word has its initializer, as the constructor gives it no other. -/
def copyConstruct (this other : ℕ) : Program Unit := do
  Program.writeWord this 0
  copyWeakRef other this

/-- The word of the other handle is copied, and its entry follows if there is one. -/
def moveFrom (this other : ℕ) : Program Unit := do
  let word ← Program.readWord other
  Program.writeWord this word
  let encoded ← Program.readWord this
  whenever (encoded ≠ 0) do
    updateWeakRef other this
    Program.writeWord other 0

def moveConstruct (this other : ℕ) : Program Unit := moveFrom this other

def reset (this : ℕ) : Program Unit := do
  let encoded ← Program.readWord this
  whenever (encoded ≠ 0) do
    unregisterWeakRef this
    Program.writeWord this 0

def moveAssign (this other : ℕ) : Program Unit :=
  if this = other then pure ()
  else do
    reset this
    moveFrom this other

/-- The copy is made aside, in a `replacement` on the stack. -/
def copyAssign (this other replacement : ℕ) : Program Unit :=
  if this = other then pure ()
  else do
    copyConstruct replacement other
    moveAssign this replacement
    destroy replacement

/-- The assignment from a `gc_ptr`. -/
def assign (this pointer replacement : ℕ) : Program Unit := do
  construct replacement pointer
  moveAssign this replacement
  destroy replacement

/-- The pointer of the `gc_ptr` returned. -/
def lock (this : ℕ) : Program ℕ := readWeakRef this

def expired (this : ℕ) : Program Bool := do
  let target ← readWeakRef this
  pure (decide (target = 0))

end GcWeakPtr

/-! ## Operations -/

/-- The `gc_ptr` a registration was made for, and the number of the block it pointed into. -/
structure Origin where
  pointer : ℕ
  serial : ℕ
  deriving DecidableEq

/-- A live handle and what its value was last derived from. -/
structure WeakHandle where
  storage : ℕ
  origin : Option Origin
  deriving DecidableEq

/-- The block that the registration of an operation found. -/
def registrationOf (trace : Trace) : Option Origin :=
  trace.findSome? fun
    | .called ⟨.registerWeakRef target _,before,_⟩ =>
      (before.findBlockLocked target).map fun block => ⟨target,before.serial block.header⟩
    | _ => none

inductive WeakOperation where
  | defaultConstruct (this : ℕ)
  | construct (this pointer : ℕ)
  | copyConstruct (this : ℕ) (other : WeakHandle)
  | moveConstruct (this : ℕ) (other : WeakHandle)
  | destroy (handle : WeakHandle)
  | copyAssign (handle other : WeakHandle) (replacement : ℕ)
  | moveAssign (handle other : WeakHandle)
  | assign (handle : WeakHandle) (pointer replacement : ℕ)
  | reset (handle : WeakHandle)
  | lock (handle : WeakHandle)
  | expired (handle : WeakHandle)

namespace WeakOperation

def takes : WeakOperation → List WeakHandle
  | moveConstruct _ other => [other]
  | destroy handle => [handle]
  | copyAssign handle _ _ => [handle]
  | moveAssign handle other =>
    if handle.storage = other.storage then [handle] else [handle,other]
  | assign handle _ _ => [handle]
  | reset handle => [handle]
  | _ => []

def borrows : WeakOperation → List WeakHandle
  | copyConstruct _ other => [other]
  | copyAssign handle other _ => if handle.storage = other.storage then [] else [other]
  | lock handle => [handle]
  | expired handle => [handle]
  | _ => []

def constructs : WeakOperation → List ℕ
  | defaultConstruct this => [this]
  | construct this _ => [this]
  | copyConstruct this _ => [this]
  | moveConstruct this _ => [this]
  | copyAssign _ _ replacement => [replacement]
  | assign _ _ replacement => [replacement]
  | _ => []

/-- The words an operation may write. -/
def storages (operation : WeakOperation) : List ℕ :=
  operation.takes.map WeakHandle.storage ++ operation.constructs

/-- An operation leaves the handles that are live after it. A value keeps its origin through
copies and moves, and what is moved from or reset has none. -/
def code : WeakOperation → Program (Trace → List WeakHandle)
  | defaultConstruct this => do
    GcWeakPtr.defaultConstruct this
    pure fun _ => [⟨this,none⟩]
  | construct this pointer => do
    GcWeakPtr.construct this pointer
    pure fun trace => [⟨this,registrationOf trace⟩]
  | copyConstruct this other => do
    GcWeakPtr.copyConstruct this other.storage
    pure fun _ => [⟨this,other.origin⟩]
  | moveConstruct this other => do
    GcWeakPtr.moveConstruct this other.storage
    pure fun _ => [⟨this,other.origin⟩,⟨other.storage,none⟩]
  | destroy handle => do
    GcWeakPtr.destroy handle.storage
    pure fun _ => []
  | copyAssign handle other replacement => do
    GcWeakPtr.copyAssign handle.storage other.storage replacement
    pure fun _ => if handle.storage = other.storage then [handle]
      else [⟨handle.storage,other.origin⟩]
  | moveAssign handle other => do
    GcWeakPtr.moveAssign handle.storage other.storage
    pure fun _ => if handle.storage = other.storage then [handle]
      else [⟨handle.storage,other.origin⟩,⟨other.storage,none⟩]
  | assign handle pointer replacement => do
    GcWeakPtr.assign handle.storage pointer replacement
    pure fun trace => [⟨handle.storage,registrationOf trace⟩]
  | reset handle => do
    GcWeakPtr.reset handle.storage
    pure fun _ => [⟨handle.storage,none⟩]
  | lock handle => do
    let _ ← GcWeakPtr.lock handle.storage
    pure fun _ => []
  | expired handle => do
    let _ ← GcWeakPtr.expired handle.storage
    pure fun _ => []

end WeakOperation

section
variable (target storage oldStorage newStorage this other : ℕ)

theorem weakCalls_invoke {c : Call} (h : c.onWeakRefs = true) :
    (Program.invoke c).CallsOnly (fun c => c.onWeakRefs = true) := by
  refine ⟨h,fun result => ?_⟩
  cases result <;> trivial

theorem weakCalls_registerWeakRef :
    (registerWeakRef target storage).CallsOnly (fun c => c.onWeakRefs = true) :=
  (weakCalls_invoke rfl).bind fun _ => by trivial

theorem weakCalls_readWeakRef :
    (readWeakRef storage).CallsOnly (fun c => c.onWeakRefs = true) :=
  (weakCalls_invoke rfl).bind fun _ => by trivial

theorem weakCalls_unregisterWeakRef :
    (unregisterWeakRef storage).CallsOnly (fun c => c.onWeakRefs = true) :=
  (weakCalls_invoke rfl).bind fun _ => by trivial

theorem weakCalls_copyWeakRef :
    (copyWeakRef oldStorage newStorage).CallsOnly (fun c => c.onWeakRefs = true) :=
  (weakCalls_invoke rfl).bind fun _ => by trivial

theorem weakCalls_updateWeakRef :
    (updateWeakRef oldStorage newStorage).CallsOnly (fun c => c.onWeakRefs = true) :=
  (weakCalls_invoke rfl).bind fun _ => by trivial

theorem weakCalls_whenever {condition : Bool} {p : Program Unit}
    (h : p.CallsOnly (fun c => c.onWeakRefs = true)) :
    (whenever condition p).CallsOnly (fun c => c.onWeakRefs = true) := by
  unfold whenever
  split_ifs
  · exact h
  · trivial

namespace GcWeakPtr

theorem callsOnly_construct :
    (construct this target).CallsOnly (fun c => c.onWeakRefs = true) :=
  fun _ => weakCalls_whenever (weakCalls_registerWeakRef _ _)

theorem callsOnly_destroy : (destroy this).CallsOnly (fun c => c.onWeakRefs = true) :=
  fun _ => weakCalls_whenever (weakCalls_unregisterWeakRef _)

theorem callsOnly_copyConstruct :
    (copyConstruct this other).CallsOnly (fun c => c.onWeakRefs = true) :=
  weakCalls_copyWeakRef _ _

theorem callsOnly_moveFrom : (moveFrom this other).CallsOnly (fun c => c.onWeakRefs = true) :=
  fun _ _ => weakCalls_whenever ((weakCalls_updateWeakRef _ _).bind fun _ => by trivial)

theorem callsOnly_reset : (reset this).CallsOnly (fun c => c.onWeakRefs = true) :=
  fun _ => weakCalls_whenever ((weakCalls_unregisterWeakRef _).bind fun _ => by trivial)

theorem callsOnly_moveAssign : (moveAssign this other).CallsOnly (fun c => c.onWeakRefs = true) := by
  unfold moveAssign
  split_ifs
  · trivial
  · exact (callsOnly_reset _).bind fun _ => callsOnly_moveFrom _ _

end GcWeakPtr
end

theorem WeakOperation.callsOnly (operation : WeakOperation) :
    operation.code.CallsOnly (fun c => c.onWeakRefs = true) := by
  cases operation with
  | defaultConstruct this => trivial
  | construct this pointer =>
    exact (GcWeakPtr.callsOnly_construct _ _).bind fun _ => by trivial
  | copyConstruct this other =>
    exact (GcWeakPtr.callsOnly_copyConstruct _ _).bind fun _ => by trivial
  | moveConstruct this other =>
    exact (GcWeakPtr.callsOnly_moveFrom _ _).bind fun _ => by trivial
  | destroy handle => exact (GcWeakPtr.callsOnly_destroy _).bind fun _ => by trivial
  | copyAssign handle other replacement =>
    refine Program.CallsOnly.bind (fun _ => by trivial) ?_
    unfold GcWeakPtr.copyAssign
    split_ifs
    · trivial
    · refine (GcWeakPtr.callsOnly_copyConstruct _ _).bind fun _ => ?_
      refine (GcWeakPtr.callsOnly_moveAssign _ _).bind fun _ => ?_
      exact GcWeakPtr.callsOnly_destroy _
  | moveAssign handle other =>
    exact (GcWeakPtr.callsOnly_moveAssign _ _).bind fun _ => by trivial
  | assign handle pointer replacement =>
    refine Program.CallsOnly.bind (fun _ => by trivial) ?_
    refine (GcWeakPtr.callsOnly_construct _ _).bind fun _ => ?_
    refine (GcWeakPtr.callsOnly_moveAssign _ _).bind fun _ => ?_
    exact GcWeakPtr.callsOnly_destroy _
  | reset handle => exact (GcWeakPtr.callsOnly_reset _).bind fun _ => by trivial
  | lock handle => exact (weakCalls_readWeakRef _).bind fun _ => by trivial
  | expired handle =>
    refine Program.CallsOnly.bind (fun _ => by trivial) ?_
    exact (weakCalls_readWeakRef _).bind fun _ => by trivial

/-! ## Clients -/

end GcLib.Client
