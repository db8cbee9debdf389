import GcLib.Client.WeakRegistry

/-! # The ledger of weak handles

A rule says what a call, a load or a store makes of the parts an operation holds, whatever parts
the others hold.
-/

namespace GcLib.Client
open GcLib.Heap GcLib.Support GcLib.Protocol

/-- A step that leaves the blocks alone and changes the registry and the words. -/
structure WeakStep (w w' : World) (weakRefs : List WeakRefEntry) (memory : Memory) : Prop where
  allocations : w'.state.allocations = w.state.allocations
  chunks : SameChunks w.state w'.state
  log : w'.log = w.log
  weakRefs : w'.state.weakRefs = weakRefs
  memory : w'.state.memory = memory

section
variable {w w' : World} {c : Call} {held rest borrowed others : List WeakPart}
  {post : CallRecord → List WeakPart → Prop} {handle other : WeakHandle} {part : WeakPart}
  {storage pointer : ℕ}

theorem WeakStep.live {weakRefs : List WeakRefEntry} {memory : Memory}
    (h : WeakStep w w' weakRefs memory) (serial : ℕ) :
    w'.state.live serial = w.state.live serial := live_congr h.allocations h.chunks serial

theorem WeakStep.replaces {weakRefs : List WeakRefEntry} {memory : Memory} {new : WeakPart}
    (h : WeakStep w w' weakRefs memory) (hregistry : WeakRegistry w (part :: rest))
    (hpart : part.storage = some storage) (hnew : new.storage = some storage)
    (hholds : new.Holds w')
    (hentries : weakRefs.Perm
      ((new.entry w.state).toList ++ rest.filterMap (WeakPart.entry w.state)))
    (hwords : ∀ a, a % wordSize = 0 → a ≠ storage →
      readWord memory a = readWord w.state.memory a) : WeakRegistry w' (new :: rest) := by
  refine WeakRegistry.update [part] [new] hregistry h.allocations h.chunks h.log ?_
    (by simpa using hholds) ?_ ?_
  · rw [storages_cons part hpart, storages_cons new hnew]
  · rw [h.weakRefs]
    cases hentry : new.entry w.state <;> simpa [hentry] using hentries
  · intro a ha hne
    rw [h.memory]
    exact hwords a ha (by simpa [hpart] using hne)

theorem holds_linked {weakRefs : List WeakRefEntry} {memory : Memory}
    (h : WeakStep w w' weakRefs memory) (hword : readWord memory handle.storage =
      encodeWeakPtr (handle.target w.state)) (hknown : ∀ origin ∈ handle.origin, origin.Known w) :
    WeakPart.Holds w' (.linked handle) := by
  refine ⟨?_,fun origin ho => (hknown origin ho).congr h.allocations h.chunks h.log⟩
  rw [h.memory, hword, WeakHandle.target_congr h.live]

theorem toList_entry (s : State) (part : WeakPart) :
    [part].filterMap (WeakPart.entry s) = (part.entry s).toList := by
  cases hentry : part.entry s <;> simp [hentry]

/-- The value of one word goes to another. -/
theorem WeakStep.moves {weakRefs : List WeakRefEntry} {memory : Memory}
    (h : WeakStep w w' weakRefs memory) (hregistry : WeakRegistry w (.linked other :: part :: rest))
    (hpart : part.storage = some storage) (hzero : readWord memory other.storage = 0)
    (hvalue : readWord memory storage = encodeWeakPtr (other.target w.state))
    (hentries : weakRefs.Perm ((WeakHandle.entry w.state ⟨storage,other.origin⟩).toList ++
      rest.filterMap (WeakPart.entry w.state)))
    (hwords : ∀ a, a % wordSize = 0 → a ≠ other.storage → a ≠ storage →
      readWord memory a = readWord w.state.memory a) :
    WeakRegistry w' (.linked ⟨other.storage,none⟩ :: .linked ⟨storage,other.origin⟩ :: rest) := by
  have hstorages : [WeakPart.linked other,part].filterMap WeakPart.storage =
      [other.storage,storage] := by
    rw [storages_cons (.linked other) rfl, storages_cons part hpart, List.filterMap_nil]
  refine WeakRegistry.update [.linked other,part]
    [.linked ⟨other.storage,none⟩,.linked ⟨storage,other.origin⟩] hregistry h.allocations h.chunks
    h.log ?_ ?_ ?_ ?_
  · rw [hstorages]
    exact List.Perm.refl _
  · intro new hmem
    rcases List.mem_cons.mp hmem with rfl | hmem
    · exact holds_linked h hzero nofun
    · obtain rfl := List.mem_singleton.mp hmem
      exact holds_linked h hvalue (hregistry.holds _ List.mem_cons_self).2
  · rw [h.weakRefs, entries_cons_none (.linked _) rfl, toList_entry]
    exact hentries
  · intro a ha hnot
    rw [hstorages] at hnot
    simp only [List.mem_cons, List.not_mem_nil, or_false, not_or] at hnot
    rw [h.memory]
    exact hwords a ha hnot.1 hnot.2

end
end GcLib.Client
