import GcLib.Protocol.Windows

/-! # Exact reclamation

A collection that completes leaves the least set of blocks that holds the roots and is
closed under payload words, and hands every other block to `destroy_blocks` once. The
survivors keep their records; in their payloads only the words of weak handles change,
and only those whose target was reclaimed.
-/

namespace GcLib.Properties
open GcLib.Heap GcLib.Support GcLib.Protocol

/-- The share of some blocks in the two byte counters. -/
def payloadBytes (s : State) (blocks : List BlockRecord) : ℕ :=
  (blocks.map fun b => (s.header b.header).size).sum

def regionBytes (s : State) (blocks : List BlockRecord) : ℕ :=
  (blocks.map fun b => (s.header b.header).payloadOffset+(s.header b.header).size).sum

/-- What a completed collection did with the blocks it removed, in their order of finalization. -/
structure Reclaims (s s' : State) (order : List BlockRecord) (blocks : List ℕ) : Prop where
  nodup : order.Nodup
  mem : ∀ b, b ∈ order ↔ b ∈ s.allocations.values ∧ b ∉ s'.allocations.values
  blocks : blocks = order.map BlockRecord.header ∧ blocks.Nodup
  managed : s.managedBytes = s'.managedBytes+payloadBytes s order
  reserved : s.reservedBytes = s'.reservedBytes+regionBytes s order
  weakRefs : s'.weakRefs = s.weakRefs.filter (fun entry => decide (¬ entry.Targets order))
  memory : ∀ x, s'.memory x =
    if InWordOf s.weakRefs (fun entry => entry.Targets order) x then 0 else s.memory x
  collections : s'.stats.totalCollections = wrapAdd s.stats.totalCollections 1
  blocksLast : s'.stats.blocksReclaimedLast = order.length
  bytesLast : s'.stats.bytesReclaimedLast = payloadBytes s order
  bytesTotal :
    s'.stats.bytesReclaimedTotal = wrapAdd s.stats.bytesReclaimedTotal (payloadBytes s order)

/-- Whether an entry refers into some blocks does not depend on their order. -/
theorem targets_perm {order dead : List BlockRecord} (hp : order.Perm dead)
    (entry : WeakRefEntry) : entry.Targets order ↔ entry.Targets dead := by
  simp only [WeakRefEntry.Targets, hp.mem_iff]

theorem reclaims_of_collected {s s' : State} {thread : ThreadId} {env : ScanEnvironment}
    {dead : List BlockRecord} {blocks : List ℕ} (hinv : HeapInvariant s)
    (h : Collected s thread env dead blocks s') : ∃ order, Reclaims s s' order blocks := by
  have hfreed := h.bytesFreed_eq hinv
  obtain ⟨order,hblocks,hsafe⟩ := h.order
  have hnodup : order.Nodup := hsafe.perm.nodup_iff.mpr (h.dead_nodup hinv)
  have hlive : ∀ b ∈ order, b ∈ s.allocations.values := fun b hb =>
    h.dead_mem b (hsafe.perm.mem_iff.mp hb)
  have hpayload : payloadBytes s order = s.payloadSum dead := (hsafe.perm.map _).sum_eq
  have hregion : regionBytes s order = s.reservedSum dead := by
    have hsize : regionBytes s order = s.reservedSum order :=
      congrArg List.sum
        (List.map_congr_left fun b hb => (hinv.blockAllocationSize_eq (hlive b hb)).symm)
    rw [hsize]
    exact (hsafe.perm.map _).sum_eq
  refine ⟨order,hnodup,fun b => ?_,⟨hblocks,?_⟩,?_,?_,?_,fun x => ?_,?_,?_,?_,?_⟩
  · rw [hsafe.perm.mem_iff, h.mem_dead, h.mem_values hinv]
  · rw [hblocks]
    exact hnodup.map_on (fun b hb b' hb' => hinv.header_inj (hlive b hb) (hlive b' hb'))
  · rw [hpayload, Nat.add_comm]
    exact h.managedBytes_eq hinv
  · rw [hregion, Nat.add_comm]
    exact h.reservedBytes_eq hinv
  · simpa only [targets_perm hsafe.perm] using h.removed.weakRefs
  · simpa only [targets_perm hsafe.perm] using h.removed.memory x
  · rw [h.stats]
    rfl
  · rw [h.stats, hblocks]
    exact List.length_map _
  · rw [h.stats, hpayload]
    exact hfreed
  · rw [h.stats, hpayload, ← hfreed]
    rfl

/-- A collection that completes keeps the closure of the roots, with unchanged records and clear
marks, and removes the rest; payload bytes change only in the words of weak handles it expires. -/
theorem exact_reclamation {w w' : World} {thread : ThreadId} {choice : Choice} {blocks : List ℕ}
    (h : ReachableWorld w) (hc : Completes thread choice .collect w w' blocks) :
    IsLeast {S | Closed (MarkRoot w.state thread choice.env) (References w.state) S}
      {b | b ∈ w'.state.allocations.values} ∧
    (∀ b ∈ w'.state.allocations.values, b ∈ w.state.allocations.values ∧
      w'.state.header b.header = w.state.header b.header ∧
      w'.state.marks b.header = false) ∧
    ∃ order, Reclaims w.state w'.state order blocks := by
  obtain ⟨dead,hcollected⟩ := hc.collected h
  have hinv := h.invariant.heap
  refine ⟨?_,fun b hb => ?_,reclaims_of_collected hinv hcollected⟩
  · have heq : {b | b ∈ w'.state.allocations.values} =
        {b | Retained w.state thread choice.env b} :=
      Set.ext (hcollected.mem_values hinv)
    rw [heq]
    exact isLeast_reached
  · have hlive := ((hcollected.mem_values hinv b).mp hb).mem
    exact ⟨hlive,hcollected.removed.header b.header,hcollected.unmarked b hlive⟩

/-- The block at 4096 is rooted and stores a weak handle to the block at 8192, which is not. -/
def weakHandleRun : List Label :=
  [.user 0 (.call (.registerStackBottom 28672)),.run 0 {},
    .user 0 (.call (.mallocInternal 16 16 none false)),.run 0 {},.run 0 { region := 4096 },.run 0 {},
    .user 0 (.call (.mallocInternal 16 16 none false)),.run 0 {},.run 0 { region := 8192 },.run 0 {},
    .user 0 (.call (.registerRootRange 256 264)),.run 0 {},
    .user 0 (.storeByte 256 0x20),.user 0 (.storeByte 257 0x10),
    .user 0 (.storeByte 4128 0xE0),.user 0 (.storeByte 4129 0xDF),.user 0 (.storeByte 4130 0xFF),
    .user 0 (.storeByte 4131 0xFF),.user 0 (.storeByte 4132 0xFF),.user 0 (.storeByte 4133 0xFF),
    .user 0 (.storeByte 4134 0xFF),.user 0 (.storeByte 4135 0xFF),
    .user 0 (.call (.registerWeakRef 8224 4128)),.run 0 {},.user 0 (.call .collect),.run 0 {}]

theorem completes_weakHandleRun :
    Completes 0 { fuel := 50 } .collect (worldAfter weakHandleRun)
      (worldAfter (weakHandleRun ++ [.run 0 { fuel := 50 }])) [8192] :=
  ⟨worldAfter_step weakHandleRun _ (by decide +kernel),[],by decide +kernel,by decide +kernel⟩

theorem exact_reclamation_weakHandleRun :
    (worldAfter (weakHandleRun ++ [.run 0 { fuel := 50 }])).state.allocations.values =
        [⟨4096,4128,4144,false⟩] ∧
      ∃ order, Reclaims (worldAfter weakHandleRun).state
        (worldAfter (weakHandleRun ++ [.run 0 { fuel := 50 }])).state order [8192] :=
  ⟨by decide +kernel,
    (exact_reclamation (reachable_worldAfter weakHandleRun) completes_weakHandleRun).2.2⟩

/-- The payload of a surviving block need not stay as it was. -/
theorem survivor_payload_changes :
    ¬ ∀ w w' thread choice blocks, ReachableWorld w → Completes thread choice .collect w w' blocks →
      ∀ b ∈ w'.state.allocations.values, ∀ x, b.Contains x →
        w'.state.memory x = w.state.memory x := by
  intro h
  have hsame := h _ _ _ _ _ (reachable_worldAfter weakHandleRun) completes_weakHandleRun
    ⟨4096,4128,4144,false⟩ (by decide +kernel) 4128 (by decide)
  exact absurd hsame (by decide +kernel)

end GcLib.Properties
