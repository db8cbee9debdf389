import GcLib.Client.Ledger

/-! # Root handles

`gc_root` keeps its pointer in memory and registers its own storage; `ScopedRootRange` and
`ScopedRootObject` register memory of somebody else and can be moved. Ranges may also be
registered by hand. The address of a handle is what the assignments compare.
-/

namespace GcLib.Client
open GcLib.Heap GcLib.Support GcLib.Protocol

def registerRootRange (begin_ end_ : ℕ) : Program Unit := do
  let _ ← Program.invoke (.registerRootRange begin_ end_)
  pure ()

def unregisterRootRange (begin_ end_ : ℕ) : Program Unit := do
  let _ ← Program.invoke (.unregisterRootRange begin_ end_)
  pure ()

/-- An `if` without an `else`. -/
def whenever (condition : Bool) (p : Program Unit) : Program Unit :=
  if condition then p else pure ()

def registerRootObject (object size : ℕ) : Program Unit :=
  if object = 0 then pure () else registerRootRange object (object+size)

def unregisterRootObject (object size : ℕ) : Program Unit :=
  if object = 0 then pure () else unregisterRootRange object (object+size)

/-! ## `gc_root` -/

namespace GcRoot

/-- The constructors from a pointer; null for the default one. -/
def construct (this pointer : ℕ) : Program Unit := do
  Program.writeWord this pointer
  registerRootObject this wordSize

def copyConstruct (this other : ℕ) : Program Unit := do
  let pointer ← Program.readWord other
  Program.writeWord this pointer
  registerRootObject this wordSize

def moveConstruct (this other : ℕ) : Program Unit := do
  let pointer ← Program.readWord other
  Program.writeWord this pointer
  registerRootObject this wordSize
  Program.writeWord other 0

def destroy (this : ℕ) : Program Unit := unregisterRootObject this wordSize

def copyAssign (this other : ℕ) : Program Unit :=
  if this ≠ other then do
    let pointer ← Program.readWord other
    Program.writeWord this pointer
  else pure ()

def moveAssign (this other : ℕ) : Program Unit :=
  if this ≠ other then do
    let pointer ← Program.readWord other
    Program.writeWord this pointer
    Program.writeWord other 0
  else pure ()

/-- The assignments from a pointer, and `reset`. -/
def assign (this pointer : ℕ) : Program Unit := Program.writeWord this pointer

end GcRoot

/-! ## `ScopedRootRange` -/

/-- Ranges that are not registered at all. -/
def emptyRange (begin_ end_ : ℕ) : Prop := begin_ = 0 ∨ end_ = 0 ∨ begin_ = end_

instance (begin_ end_ : ℕ) : Decidable (emptyRange begin_ end_) :=
  inferInstanceAs (Decidable (_ ∨ _))

structure ScopedRootRange where
  this : ℕ
  begin_ : ℕ
  end_ : ℕ
  registered : Bool
  nonempty : registered = true → ¬ emptyRange begin_ end_
  deriving DecidableEq

namespace ScopedRootRange

/-- A default-constructed handle, and one that was moved from. -/
def empty (this : ℕ) : ScopedRootRange := ⟨this,0,0,false,nofun⟩

def reset (handle : ScopedRootRange) (begin_ end_ : ℕ) : Program ScopedRootRange := do
  whenever (¬ emptyRange begin_ end_) (registerRootRange begin_ end_)
  whenever handle.registered (unregisterRootRange handle.begin_ handle.end_)
  pure ⟨handle.this,begin_,end_,¬ emptyRange begin_ end_,of_decide_eq_true⟩

def construct (this begin_ end_ : ℕ) : Program ScopedRootRange :=
  (empty this).reset begin_ end_

def moveConstruct (this : ℕ) (other : ScopedRootRange) : ScopedRootRange × ScopedRootRange :=
  ({ other with this := this },empty other.this)

def moveAssign (handle other : ScopedRootRange) : Program (ScopedRootRange × ScopedRootRange) :=
  if handle.this ≠ other.this then do
    let _ ← handle.reset 0 0
    pure ({ other with this := handle.this },empty other.this)
  else pure (handle,other)

end ScopedRootRange

/-! ## `ScopedRootObject` -/

/-- A handle to an object of a type of some size. -/
structure ScopedRootObject where
  this : ℕ
  size : ℕ
  size_pos : 0 < size
  object : ℕ := 0
  deriving DecidableEq

namespace ScopedRootObject

def reset (handle : ScopedRootObject) (object : ℕ) : Program ScopedRootObject := do
  whenever (object ≠ 0) (registerRootObject object handle.size)
  whenever (handle.object ≠ 0) (unregisterRootObject handle.object handle.size)
  pure { handle with object := object }

def moveConstruct (this : ℕ) (other : ScopedRootObject) : ScopedRootObject × ScopedRootObject :=
  ({ other with this := this },{ other with object := 0 })

def moveAssign (handle other : ScopedRootObject) :
    Program (ScopedRootObject × ScopedRootObject) :=
  if handle.this ≠ other.this then do
    let _ ← handle.reset 0
    pure ({ handle with object := other.object },{ other with object := 0 })
  else pure (handle,other)

end ScopedRootObject

/-! ## Operations -/

/-- What can own a registration: a live handle, or who registered a range by hand. -/
inductive RootOwner where
  | root (this : ℕ)
  | range (handle : ScopedRootRange)
  | object (handle : ScopedRootObject)
  | manual (range : RootRange)
  deriving DecidableEq

inductive RootOperation where
  | constructRoot (this pointer : ℕ)
  | copyConstructRoot (this other : ℕ)
  | moveConstructRoot (this other : ℕ)
  | destroyRoot (this : ℕ)
  | copyAssignRoot (this other : ℕ)
  | moveAssignRoot (this other : ℕ)
  | assignRoot (this pointer : ℕ)
  | defaultRange (this : ℕ)
  | constructRange (this begin_ end_ : ℕ)
  | moveConstructRange (this : ℕ) (other : ScopedRootRange)
  | destroyRange (handle : ScopedRootRange)
  | moveAssignRange (handle other : ScopedRootRange)
  | resetRange (handle : ScopedRootRange) (begin_ end_ : ℕ)
  | defaultObject (this size : ℕ) (size_pos : 0 < size)
  | constructObject (this size object : ℕ) (size_pos : 0 < size)
  | moveConstructObject (this : ℕ) (other : ScopedRootObject)
  | destroyObject (handle : ScopedRootObject)
  | moveAssignObject (handle other : ScopedRootObject)
  | resetObject (handle : ScopedRootObject) (object : ℕ)
  | register (begin_ end_ : ℕ)
  | unregister (begin_ end_ : ℕ)

def manualRange (begin_ end_ : ℕ) : List RootOwner :=
  if emptyRange begin_ end_ then [] else [.manual (rootRange begin_ end_)]

namespace RootOperation

def takes : RootOperation → List RootOwner
  | constructRoot _ _ => []
  | copyConstructRoot _ _ => []
  | moveConstructRoot _ other => [.root other]
  | destroyRoot this => [.root this]
  | copyAssignRoot this _ => [.root this]
  | moveAssignRoot this other => if this ≠ other then [.root this,.root other] else [.root this]
  | assignRoot this _ => [.root this]
  | defaultRange _ => []
  | constructRange _ _ _ => []
  | moveConstructRange _ other => [.range other]
  | destroyRange handle => [.range handle]
  | moveAssignRange handle other =>
    if handle.this ≠ other.this then [.range handle,.range other] else [.range handle]
  | resetRange handle _ _ => [.range handle]
  | defaultObject _ _ _ => []
  | constructObject _ _ _ _ => []
  | moveConstructObject _ other => [.object other]
  | destroyObject handle => [.object handle]
  | moveAssignObject handle other =>
    if handle.this ≠ other.this then [.object handle,.object other] else [.object handle]
  | resetObject handle _ => [.object handle]
  | register _ _ => []
  | unregister begin_ end_ => manualRange begin_ end_

def borrows : RootOperation → List RootOwner
  | copyConstructRoot _ other => [.root other]
  | copyAssignRoot this other => if this ≠ other then [.root other] else []
  | _ => []

def constructs : RootOperation → List ℕ
  | constructRoot this _ => [this]
  | copyConstructRoot this _ => [this]
  | moveConstructRoot this _ => [this]
  | _ => []

/-- An operation leaves the handles that are live after it. -/
def code : RootOperation → Program (Trace → List RootOwner)
  | constructRoot this pointer => do
    GcRoot.construct this pointer
    pure fun _ => [.root this]
  | copyConstructRoot this other => do
    GcRoot.copyConstruct this other
    pure fun _ => [.root this]
  | moveConstructRoot this other => do
    GcRoot.moveConstruct this other
    pure fun _ => [.root this,.root other]
  | destroyRoot this => do
    GcRoot.destroy this
    pure fun _ => []
  | copyAssignRoot this other => do
    GcRoot.copyAssign this other
    pure fun _ => [.root this]
  | moveAssignRoot this other => do
    GcRoot.moveAssign this other
    pure fun _ => if this ≠ other then [.root this,.root other] else [.root this]
  | assignRoot this pointer => do
    GcRoot.assign this pointer
    pure fun _ => [.root this]
  | defaultRange this => pure fun _ => [.range (.empty this)]
  | constructRange this begin_ end_ => do
    let handle ← ScopedRootRange.construct this begin_ end_
    pure fun _ => [.range handle]
  | moveConstructRange this other =>
    let handles := ScopedRootRange.moveConstruct this other
    pure fun _ => [.range handles.1,.range handles.2]
  | destroyRange handle => do
    let _ ← handle.reset 0 0
    pure fun _ => []
  | moveAssignRange handle other => do
    let handles ← handle.moveAssign other
    pure fun _ => if handle.this ≠ other.this then [.range handles.1,.range handles.2]
      else [.range handles.1]
  | resetRange handle begin_ end_ => do
    let handle ← handle.reset begin_ end_
    pure fun _ => [.range handle]
  | defaultObject this size size_pos =>
    pure fun _ => [.object { this := this, size := size, size_pos := size_pos }]
  | constructObject this size object size_pos => do
    let handle ← ScopedRootObject.reset
      { this := this, size := size, size_pos := size_pos } object
    pure fun _ => [.object handle]
  | moveConstructObject this other =>
    let handles := ScopedRootObject.moveConstruct this other
    pure fun _ => [.object handles.1,.object handles.2]
  | destroyObject handle => do
    let _ ← handle.reset 0
    pure fun _ => []
  | moveAssignObject handle other => do
    let handles ← handle.moveAssign other
    pure fun _ => if handle.this ≠ other.this then [.object handles.1,.object handles.2]
      else [.object handles.1]
  | resetObject handle object => do
    let handle ← handle.reset object
    pure fun _ => [.object handle]
  | register begin_ end_ => do
    registerRootRange begin_ end_
    pure fun _ => manualRange begin_ end_
  | unregister begin_ end_ => do
    unregisterRootRange begin_ end_
    pure fun _ => []

/-- Equal addresses are the same handle, and handles to objects are moved between equal types. -/
def WellTyped : RootOperation → Prop
  | moveAssignRange handle other => handle.this = other.this → handle = other
  | moveAssignObject handle other =>
    handle.size = other.size ∧ (handle.this = other.this → handle = other)
  | _ => True

end RootOperation

/-- The calls that change the list of root ranges. -/
def changesRanges : Call → Bool
  | .registerRootRange _ _ => true
  | .unregisterRootRange _ _ => true
  | _ => false

section
variable (object size begin_ end_ : ℕ)

theorem callsOnly_invoke {c : Call} (h : changesRanges c = true) :
    (Program.invoke c).CallsOnly (fun c => changesRanges c = true) := by
  refine ⟨h,fun result => ?_⟩
  cases result <;> trivial

theorem callsOnly_registerRootRange :
    (registerRootRange begin_ end_).CallsOnly (fun c => changesRanges c = true) :=
  (callsOnly_invoke rfl).bind fun _ => by trivial

theorem callsOnly_unregisterRootRange :
    (unregisterRootRange begin_ end_).CallsOnly (fun c => changesRanges c = true) :=
  (callsOnly_invoke rfl).bind fun _ => by trivial

theorem callsOnly_whenever {condition : Bool} {p : Program Unit}
    (h : p.CallsOnly (fun c => changesRanges c = true)) :
    (whenever condition p).CallsOnly (fun c => changesRanges c = true) := by
  unfold whenever
  split_ifs
  · exact h
  · trivial

theorem callsOnly_registerRootObject :
    (registerRootObject object size).CallsOnly (fun c => changesRanges c = true) := by
  unfold registerRootObject
  split_ifs
  · trivial
  · exact callsOnly_registerRootRange _ _

theorem callsOnly_unregisterRootObject :
    (unregisterRootObject object size).CallsOnly (fun c => changesRanges c = true) := by
  unfold unregisterRootObject
  split_ifs
  · trivial
  · exact callsOnly_unregisterRootRange _ _

theorem ScopedRootRange.callsOnly_reset (handle : ScopedRootRange) :
    (handle.reset begin_ end_).CallsOnly (fun c => changesRanges c = true) :=
  (callsOnly_whenever (callsOnly_registerRootRange _ _)).bind fun _ =>
    (callsOnly_whenever (callsOnly_unregisterRootRange _ _)).bind fun _ => by trivial

theorem ScopedRootObject.callsOnly_reset (handle : ScopedRootObject) :
    (handle.reset object).CallsOnly (fun c => changesRanges c = true) :=
  (callsOnly_whenever (callsOnly_registerRootObject _ _)).bind fun _ =>
    (callsOnly_whenever (callsOnly_unregisterRootObject _ _)).bind fun _ => by trivial

end

theorem RootOperation.callsOnly (operation : RootOperation) :
    operation.code.CallsOnly (fun c => changesRanges c = true) := by
  have hregister := callsOnly_registerRootObject
  cases operation with
  | constructRoot this pointer => exact (hregister this wordSize).bind fun _ => by trivial
  | copyConstructRoot this other =>
    exact fun word => (hregister this wordSize).bind fun _ => by trivial
  | moveConstructRoot this other =>
    refine fun word => Program.CallsOnly.bind (fun _ => by trivial) ?_
    exact (hregister this wordSize).bind fun _ => by trivial
  | destroyRoot this => exact (callsOnly_unregisterRootObject this wordSize).bind fun _ => by trivial
  | copyAssignRoot this other =>
    refine Program.CallsOnly.bind (fun _ => by trivial) ?_
    unfold GcRoot.copyAssign
    split_ifs <;> simp [Program.CallsOnly, Program.readWord, Program.writeWord]
  | moveAssignRoot this other =>
    refine Program.CallsOnly.bind (fun _ => by trivial) ?_
    unfold GcRoot.moveAssign
    split_ifs <;> simp [Program.CallsOnly, Program.readWord, Program.writeWord]
  | constructRange this begin_ end_ =>
    exact (ScopedRootRange.callsOnly_reset begin_ end_ _).bind fun _ => by trivial
  | destroyRange handle => exact (handle.callsOnly_reset 0 0).bind fun _ => by trivial
  | moveAssignRange handle other =>
    refine Program.CallsOnly.bind (fun _ => by trivial) ?_
    unfold ScopedRootRange.moveAssign
    split_ifs
    · exact (handle.callsOnly_reset 0 0).bind fun _ => by trivial
    · trivial
  | resetRange handle begin_ end_ =>
    exact (handle.callsOnly_reset begin_ end_).bind fun _ => by trivial
  | constructObject this size object size_pos =>
    exact (ScopedRootObject.callsOnly_reset object _).bind fun _ => by trivial
  | destroyObject handle => exact (handle.callsOnly_reset 0).bind fun _ => by trivial
  | moveAssignObject handle other =>
    refine Program.CallsOnly.bind (fun _ => by trivial) ?_
    unfold ScopedRootObject.moveAssign
    split_ifs
    · exact (handle.callsOnly_reset 0).bind fun _ => by trivial
    · trivial
  | resetObject handle object => exact (handle.callsOnly_reset object).bind fun _ => by trivial
  | register begin_ end_ =>
    exact (callsOnly_registerRootRange begin_ end_).bind fun _ => by trivial
  | unregister begin_ end_ =>
    exact (callsOnly_unregisterRootRange begin_ end_).bind fun _ => by trivial
  | _ => trivial

theorem changesRanges_single (c : Call) (h : changesRanges c = true) : c.singleSection = true := by
  cases c <;> first | rfl | cases h

/-- The root handles of a client, which may ask more of its operations and of the steps outside
them. -/
def rootInterface (Asks : RootOperation → List RootOwner → List RootOperation → Prop)
    (Admits : List RootOwner → List RootOperation → Label → World → Prop) :
    Interface RootOwner where
  Operation := RootOperation
  takes := RootOperation.takes
  borrows := RootOperation.borrows
  constructs := RootOperation.constructs
  code := RootOperation.code
  Promised _ _ operation handles operations := operation.WellTyped ∧ Asks operation handles operations
  Admits := Admits
  reserved := changesRanges
  exclusive := changesRanges
  exclusive_reserved _ h := h
  single := changesRanges_single
  calls := RootOperation.callsOnly

end GcLib.Client
