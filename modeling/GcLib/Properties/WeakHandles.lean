import GcLib.Heap.WeakEncoding
import GcLib.Heap.CollectTermination
import GcLib.Properties.Reclamation

/-! # Weak handles do not retain

The word of a weak handle is invisible to the mark phase wherever it is stored: two
heaps that differ only in such words, which one of them holds cleared, keep the same
blocks.
-/

namespace GcLib.Properties
open GcLib.Heap GcLib.Support GcLib.Protocol

/-- A collection that returned keeps what it retains. -/
theorem mem_of_collectWindow {s s' : State} {collector : ThreadId} {env : ScanEnvironment}
    (hinv : HeapInvariant s) (hspace : RootsInSpace s env) {fuel : ℕ} {supply supply' : Supply}
    {dead : List ℕ} (hrun : collectWindow fuel collector env s supply = .returns dead s' supply')
    (b : BlockRecord) : b ∈ s'.allocations.values ↔ Retained s collector env b := by
  obtain ⟨order,h⟩ := (meets_collectWindow hinv hspace fuel).returns hrun
  exact h.mem_values hinv b

/-- In a heap whose blocks lie in the lower half of the address space, a collection keeps the
same blocks whether the words of weak handles are left as they are or cleared. The encoding is
injective on 64-bit addresses, is undone by decoding, and is zero for null only. -/
theorem weak_handles_never_retain {s : State} {env : ScanEnvironment} (collector : ThreadId)
    (hinv : HeapInvariant s) (hspace : RootsInSpace s env)
    (hlow : ∀ b ∈ s.allocations.values, b.payloadEnd ≤ 2^63) (handles : Set ℕ)
    [DecidablePred (· ∈ handles)] (hhandles : HoldsHandles s.memory handles) :
    let cleared := { s with memory := zeroWords s.memory handles }
    (∃ fuel₀, ∀ fuel ≥ fuel₀, ∃ dead dead' s' s'',
      collectWindow fuel collector env s none = .returns dead s' none ∧
      collectWindow fuel collector env cleared none = .returns dead' s'' none) ∧
    (∀ fuel fuel' supply supply' dead dead' s' s'' left left',
      collectWindow fuel collector env s supply = .returns dead s' left →
      collectWindow fuel' collector env cleared supply' = .returns dead' s'' left' →
        ∀ b, b ∈ s'.allocations.values ↔ b ∈ s''.allocations.values) ∧
    (∀ p < addressLimit, encodeWeakPtr p < addressLimit ∧ decodeWeakPtr (encodeWeakPtr p) = p ∧
      (encodeWeakPtr p = 0 ↔ p = 0)) ∧
    ∀ p < addressLimit, ∀ q < addressLimit, encodeWeakPtr p = encodeWeakPtr q → p = q := by
  intro cleared
  have hinv' : HeapInvariant cleared := hinv.congr rfl rfl rfl rfl
  have hspace' : RootsInSpace cleared env := ⟨hspace.ranges,hspace.threads,hspace.marker⟩
  have hend : ∀ b ∈ s.allocations.values, b.payloadEnd+wordSize < addressLimit := by
    intro b hb
    have hle := hlow b hb
    norm_num [wordSize, addressLimit] at hle ⊢
    omega
  refine ⟨?_,?_,?_,?_⟩
  · obtain ⟨fuel₀,hfuel₀⟩ := exists_collectFuel s
    refine ⟨fuel₀,fun fuel hfuel => ?_⟩
    have hfuel := hfuel₀ fuel hfuel
    have hterminates : (collectWindow fuel collector env).Terminates s _ _ :=
      terminates_collectWindow hinv hspace hend hfuel
    have hterminates' : (collectWindow fuel collector env).Terminates cleared _ _ :=
      terminates_collectWindow hinv' hspace' hend ⟨hfuel.space,hfuel.blocks⟩
    obtain ⟨dead,s',hrun,-⟩ := hterminates.returns
    obtain ⟨dead',s'',hrun',-⟩ := hterminates'.returns
    exact ⟨dead,dead',s',s'',hrun,hrun'⟩
  · intro fuel fuel' supply supply' dead dead' s' s'' left left' hrun hrun' b
    rw [mem_of_collectWindow hinv hspace hrun, mem_of_collectWindow hinv' hspace' hrun']
    exact retained_congr (hhandles.sameHits hinv hlow) b
  · exact fun p hp => ⟨encodeWeakPtr_lt hp,decodeWeakPtr_encodeWeakPtr hp,encodeWeakPtr_eq_zero hp⟩
  · intro p hp q hq he
    rw [← decodeWeakPtr_encodeWeakPtr hp, he, decodeWeakPtr_encodeWeakPtr hq]

/-- The handle to the block at 8192 does not keep it. -/
theorem weak_handles_never_retain_weakHandleRun :
    ∃ fuel₀, ∀ fuel ≥ fuel₀, ∃ dead dead' s' s'',
      collectWindow fuel 0 {} (worldAfter weakHandleRun).state none = .returns dead s' none ∧
      collectWindow fuel 0 {} { (worldAfter weakHandleRun).state with
        memory := zeroWords (worldAfter weakHandleRun).state.memory {4128} } none =
          .returns dead' s'' none := by
  have hinv := (reachable_worldAfter weakHandleRun).invariant
  refine (weak_handles_never_retain 0 hinv.heap (hinv.protocol.rootsInSpace (by decide))
    (by decide +kernel) {4128} ⟨?_,?_⟩).1
  · rintro a rfl
    decide
  · rintro a rfl
    exact ⟨8224,by decide,by decide +kernel⟩

end GcLib.Properties
