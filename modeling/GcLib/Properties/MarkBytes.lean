import GcLib.Heap.ReferenceGraph
import GcLib.Protocol.Marks

/-! # Mark bytes outside a collection

A collection that completes leaves no mark byte set. One that runs out of memory in its
sweep leaves set what it marked, until the next collection clears it: the snapshots show
these marks, and no collection reads them.
-/

namespace GcLib.Properties
open GcLib.Heap GcLib.Support GcLib.Protocol

section
variable {w w' : World} {thread : ThreadId} {choice : Choice} {rest : List Frame} {e : GCError}

/-- The window of a collection that throws has marked nothing or everything it retains. -/
theorem leftMarked_of_failed (h : ReachableWorld w) (hstep : step (.run thread choice) w = some w')
    (hc : w.control thread = .waiting .collect :: rest)
    (hc' : w'.control thread = .releasing (.error e) :: rest) :
    LeftMarked w.state thread choice.env w'.state := by
  obtain ⟨-,hm,hrun⟩ := waiting_step hstep hc
  rcases hrun with ⟨blocks,s,supply',-,rfl⟩ | ⟨value,s,supply',-,rfl⟩ | ⟨e',s,hrun,rfl⟩
  · simp [World.setControl] at hc'
  · simp [World.setControl] at hc'
  · have hspace := h.invariant.protocol.rootsInSpace hm
    rcases (meets_windowBody_marks h.invariant.heap hspace _ _).throws hrun with ⟨-,hl⟩ | ⟨hne,-⟩
    · exact hl
    · exact absurd rfl hne

/-- A snapshot shows the mark bytes as they are. -/
theorem unmarked_of_clean {s : State} (hinv : HeapInvariant s)
    (hclean : ∀ b ∈ s.allocations.values, s.isMarked b.header = false) :
    (∀ fuel supply objects s' supply',
      liveObjectsLocked fuel s supply = .returns objects s' supply' →
        ∀ o ∈ objects, o.marked = false) ∧
    ∀ fuel pointer supply object s' supply',
      objectInfoLocked fuel pointer s supply = .returns (some object) s' supply' →
        object.marked = false := by
  constructor
  · intro fuel supply objects s' supply' hrun o ho
    obtain ⟨-,hdescribes⟩ := (meets_liveObjectsLocked_exact hinv).returns hrun
    obtain ⟨b,hb,hd⟩ := (exists_describes hdescribes).1 o ho
    rw [hd.marked]
    exact hclean b hb
  · intro fuel pointer supply object s' supply' hrun
    obtain ⟨-,hsome,hnone⟩ := (meets_objectInfoLocked_exact hinv pointer).returns hrun
    cases hf : s.findBlockLocked pointer with
    | none => cases hnone hf
    | some block =>
      obtain ⟨o,heq,hd⟩ := hsome block hf
      cases heq
      rw [hd.marked]
      exact hclean block (hinv.findBlockLocked_eq_some.mp hf).1

end

/-- After every run: a set mark byte belongs to a block that was registered before the last
collection that threw, if none has completed since; without such a collection the snapshots show no
mark; and a collection that throws leaves marked nothing, or exactly what its scan retains. -/
theorem leftover_marks {memory : Memory} {labels : List Label} {w : World}
    (hrun : run step labels (.initial memory) = some w) :
    (∀ b ∈ w.state.allocations.values, w.state.isMarked b.header = true →
      w.state.serial b.header < leftover labels (.initial memory) 0) ∧
    (leftover labels (.initial memory) 0 = 0 →
      (∀ b ∈ w.state.allocations.values, w.state.isMarked b.header = false) ∧
      (∀ fuel supply objects s' supply',
        liveObjectsLocked fuel w.state supply = .returns objects s' supply' →
          ∀ o ∈ objects, o.marked = false) ∧
      ∀ fuel pointer supply object s' supply',
        objectInfoLocked fuel pointer w.state supply = .returns (some object) s' supply' →
          object.marked = false) ∧
    ∀ thread choice w' rest e, step (.run thread choice) w = some w' →
      w.control thread = .waiting .collect :: rest →
      w'.control thread = .releasing (.error e) :: rest →
        LeftMarked w.state thread choice.env w'.state := by
  have hinitial : ReachableWorld (.initial memory) := .of_init ⟨memory,rfl⟩
  have hr : ReachableWorld w := hinitial.run hrun
  have hbelow := (MarksBelow.initial memory).run hinitial hrun
  have hmarked : ∀ b ∈ w.state.allocations.values, w.state.isMarked b.header = true →
      w.state.serial b.header < leftover labels (.initial memory) 0 :=
    fun b hb hm => hbelow.registered _ (List.mem_map_of_mem hb) hm
  refine ⟨hmarked,fun hzero => ?_,
    fun _ _ _ _ _ hstep hc hc' => leftMarked_of_failed hr hstep hc hc'⟩
  have hclean : ∀ b ∈ w.state.allocations.values, w.state.isMarked b.header = false := by
    intro b hb
    by_contra hm
    have hlt := hmarked b hb (by simpa using hm)
    rw [hzero] at hlt
    exact absurd hlt (Nat.not_lt_zero _)
  exact ⟨hclean,unmarked_of_clean hr.invariant.heap hclean⟩

/-- The window of a collection is open, with a block under a root range. -/
def sweepingRun : List Label :=
  allocatingRun ++ [.user 0 (.call (.registerRootRange 256 264)),.run 0 {},
    .user 0 (.storeByte 256 0x20),.user 0 (.storeByte 257 0x10),.user 0 (.call .collect),.run 0 {}]

/-- The sweep of the collection runs out of memory when the block is marked. -/
def failedSweepRun : List Label :=
  sweepingRun ++ [.run 0 { fuel := 50, supply := some 1 },.run 0 {}]

theorem leftover_marks_failedSweep :
    (worldAfter failedSweepRun).state.serial 4096 <
      leftover failedSweepRun (.initial fun _ => 0) 0 ∧
    LeftMarked (worldAfter sweepingRun).state 0 {}
      (worldAfter (sweepingRun ++ [.run 0 { fuel := 50, supply := some 1 }])).state := by
  constructor
  · exact (leftover_marks (run_worldAfter failedSweepRun (by decide +kernel))).1
      ⟨4096,4128,4144,false⟩ (by decide +kernel) (by decide +kernel)
  · exact (leftover_marks (run_worldAfter sweepingRun (by decide +kernel))).2.2 0
      { fuel := 50, supply := some 1 } _ [] .badAlloc
      (worldAfter_step sweepingRun _ (by decide +kernel)) (by decide +kernel) (by decide +kernel)

/-- A mark byte can be set while no window is open. -/
theorem marked_after_failed_sweep : ¬ ∀ w, ReachableWorld w → w.state.collectorThread = none →
    ∀ b ∈ w.state.allocations.values, w.state.isMarked b.header = false := by
  intro h
  have hmarked := h _ (reachable_worldAfter failedSweepRun)
    (by decide +kernel)
  revert hmarked
  decide +kernel

end GcLib.Properties
