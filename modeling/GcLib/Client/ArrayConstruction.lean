import GcLib.Client.Program

/-! # Construction of arrays

The payload of an array is a count, padding and the elements. The count is raised after each
construction, so that the destructor of the array can run on any prefix of the elements.
-/

namespace GcLib.Client
open GcLib.Heap GcLib.Protocol

/-- An element type: its size is a multiple of its alignment, a power of two. -/
structure ElementType where
  size : ℕ
  alignment : ℕ
  destructor : ℕ
  size_pos : 0 < size
  size_lt : size < addressLimit
  alignment_pow : ∃ k, alignment = 2^k
  alignment_dvd : alignment ∣ size

/-- Irreducible, like `wrapAdd`. -/
@[irreducible] def wrapMul (a b : ℕ) : ℕ := a*b % addressLimit

theorem wrapMul_of_lt {a b : ℕ} (h : a*b < addressLimit) : wrapMul a b = a*b := by
  unfold wrapMul
  exact Nat.mod_eq_of_lt h

def multiplyWouldOverflow (lhs rhs : ℕ) : Bool := decide (rhs ≠ 0) && decide (lhs > sizeMax/rhs)

/-- The unchecked rounding of the array layout. -/
def roundUpUnchecked (value alignment : ℕ) : ℕ :=
  wrapSub (wrapAdd value alignment) 1 &&& complement (wrapSub alignment 1)

namespace ElementType
variable (T : ElementType)

def arrayElementsOffset : ℕ := roundUpUnchecked wordSize T.alignment

def arrayElementsBegin (payload : ℕ) : ℕ := wrapAdd payload T.arrayElementsOffset

/-- `elems[index]`. -/
def element (elems index : ℕ) : ℕ := wrapAdd elems (wrapMul index T.size)

/-- Where the loop of `construct_array` constructs an element. -/
def constructedElement (payload index : ℕ) : ℕ :=
  wrapAdd (wrapAdd payload T.arrayElementsOffset) (wrapMul index T.size)

def payloadSize (count : ℕ) : ℕ := wrapAdd T.arrayElementsOffset (wrapMul T.size count)

def payloadAlignment : ℕ := if T.alignment ≥ wordSize then T.alignment else wordSize

/-- The destructor loop, from the last element down. -/
def destroyElements (elems : ℕ) : ℕ → Program Unit
  | 0 => pure ()
  | i+1 => do
    Program.runDestructor (T.element elems i)
    destroyElements elems i

/-- `ArrayDestructor::destroy`. -/
def arrayDestructor (payload : ℕ) : Program Unit := do
  let count ← Program.readWord payload
  T.destroyElements (T.arrayElementsBegin payload) count

/-- The construction loop: what the element that failed threw. -/
def constructElements (payload constructed : ℕ) : ℕ → Program (Option Thrown)
  | 0 => pure none
  | remaining+1 => do
    match ← Program.runConstructor (T.constructedElement payload constructed) constructed with
    | .error exception => pure (some exception)
    | .ok () => do
      Program.writeWord payload (wrapAdd constructed 1)
      constructElements payload (constructed+1) remaining

/-- `construct_array` after its loop: the complete elements are destroyed when one failed. -/
def endConstruction (payload : ℕ) : Option Thrown → Program ℕ
  | some exception => do
    T.arrayDestructor payload
    let _ ← Program.invoke (.releaseUnconstructed payload)
    .throws exception
  | none => do
    let _ ← Program.invoke (.finishConstruction payload)
    pure (T.arrayElementsBegin payload)

/-- `construct_array` from its allocation on. -/
def constructArrayAt (payload count : ℕ) : Program ℕ := do
  Program.writeWord payload 0
  let failure ← T.constructElements payload 0 count
  T.endConstruction payload failure

/-- `construct_array`; the null pointer is `0`. -/
def constructArray (count : ℕ) : Program ℕ :=
  if count = 0 then pure 0
  else if multiplyWouldOverflow T.size count ∨
      addWouldOverflow T.arrayElementsOffset (wrapMul T.size count) then
    .throws (.manager .badAlloc)
  else do
    let _ ← Program.invoke (.collectIfNeeded (T.payloadSize count))
    let payload ← Program.invoke
      (.mallocInternal (T.payloadSize count) T.payloadAlignment (some T.destructor) true)
    T.constructArrayAt (addressOf payload) count

end ElementType
end GcLib.Client
