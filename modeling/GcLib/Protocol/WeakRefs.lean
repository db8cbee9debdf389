import GcLib.Protocol.Changes

/-! # Targets of weak references

Every entry of the weak-reference registry refers into a live block. A block leaves the
registry together with the entries that refer into it.
-/

namespace GcLib.Protocol
open GcLib.Heap GcLib.Support

/-- Every entry refers into a live block. -/
def TargetsLive (s : State) : Prop :=
  ∀ entry ∈ s.weakRefs, ∃ b ∈ s.allocations.values, b.Contains entry.target

section
variable {s s' : State} {thread : ThreadId} {code : Section} {next : Next}

theorem TargetsLive.congr (h : TargetsLive s) (ha : s'.allocations = s.allocations)
    (hw : s'.weakRefs = s.weakRefs) : TargetsLive s' := by
  intro entry he
  rw [hw] at he
  rw [ha]
  exact h entry he

/-- Blocks leave together with the entries into them. -/
theorem TargetsLive.removed {dead : List BlockRecord} (h : TargetsLive s) (hinv : HeapInvariant s)
    (hr : Removed s dead s') (hdead : ∀ b ∈ dead, b ∈ s.allocations.values) : TargetsLive s' := by
  intro entry he
  rw [hr.weakRefs, List.mem_filter, decide_eq_true_eq] at he
  obtain ⟨b,hb,hc⟩ := h entry he.1
  exact ⟨b,(hr.mem_values hinv hdead).mpr ⟨hb,fun hd => he.2 ⟨b,hd,hc⟩⟩,hc⟩

/-- Operations on handles add no target outside the live blocks. -/
theorem TargetsLive.changed {call : Call} {weakRefs : List WeakRefEntry} {memory : Memory}
    (h : TargetsLive s) (hinv : HeapInvariant s) (hc : WeakChange s call weakRefs memory) :
    TargetsLive { s with weakRefs := weakRefs, memory := memory } := by
  intro entry he
  rcases hc.targetsFrom entry he with ⟨old,hold,htarget⟩ | hf
  · rw [htarget]
    exact h old hold
  · obtain ⟨b,hb⟩ := Option.ne_none_iff_exists'.mp hf
    exact ⟨b,hinv.findBlockLocked_eq_some.mp hb⟩

/-- A rewritten flag moves no record. -/
theorem setConstructing_contains {payload : ℕ} {value : Bool} {b : BlockRecord}
    (hb : b ∈ s.allocations.values) :
    ∃ b' ∈ (s.setConstructing payload value).allocations.values, b'.header = b.header ∧
      b'.payloadBegin = b.payloadBegin ∧ b'.payloadEnd = b.payloadEnd := by
  obtain ⟨k,hk⟩ := OrderedMap.mem_values.mp hb
  refine ⟨if k = payload then { b with constructing := value } else b,
    OrderedMap.mem_values.mpr ⟨k,OrderedMap.mem_modify.mpr ⟨b,hk,rfl⟩⟩,?_⟩
  split_ifs <;> exact ⟨rfl,rfl,rfl⟩

theorem TargetsLive.effect (h : TargetsLive s) (hinv : HeapInvariant s)
    (he : Effect thread s code next s')
    (hpublish : ∀ header constructing, code = .publish header constructing →
      Registrable s header) : TargetsLive s' := by
  cases he with
  | publish hr hm ht =>
    obtain ⟨⟨chunk,hc⟩,hnew⟩ := hpublish _ _ rfl
    intro entry hentry
    obtain ⟨b,hb,hcontains⟩ := h entry hentry
    exact ⟨b,(hinv.publish_values hc hnew _).mem_iff.mpr (List.mem_cons_of_mem _ hb),hcontains⟩
  | finish hf =>
    intro entry hentry
    obtain ⟨b,hb,hlo,hhi⟩ := h entry hentry
    obtain ⟨b',hb',-,hbegin,hend⟩ := setConstructing_contains hb
    exact ⟨b',hb',hbegin ▸ hlo,hend ▸ hhi⟩
  | release hr hf =>
    have hlive := OrderedMap.mem_values.mpr ⟨_,OrderedMap.find?_eq_some.mp hf⟩
    exact h.removed hinv (HeapInvariant.removed_removeBlock s _) (by simpa using hlive)
  | weak hc => exact h.changed hinv hc
  | _ => exact h.congr rfl rfl

theorem TargetsLive.window {env : ScanEnvironment} {call : WindowCall} {after : Afterwards}
    (h : TargetsLive s) (hinv : HeapInvariant s) (he : WindowEffect thread env s call after s') :
    TargetsLive s' := by
  cases he with
  | collect hc => exact (h.removed hinv hc.removed hc.dead_mem).congr rfl rfl
  | shutdown =>
    intro entry hentry
    exact absurd hentry List.not_mem_nil
  | read => exact h

end

theorem ReachableWorld.targetsLive {w : World} (h : ReachableWorld w) : TargetsLive w.state := by
  refine h.induction (P := fun w => TargetsLive w.state) (fun memory entry he => ?_) ?_
  · exact absurd he List.not_mem_nil
  · intro label w w' hr ih hstep
    cases hr.heapChange hstep with
    | quiet ha hw => exact ih.congr ha hw
    | «section» hc hco he hc' hl =>
      have hs := hco.sameHeap
      exact (ih.congr hs.allocations hs.weakRefs).effect
        (hs.heapInvariant hr.invariant.heap) he (hco.registrable hr.invariant.ownership hc)
    | window hc he hc' hl => exact ih.window hr.invariant.heap he

/-- Without live blocks no weak reference is registered. -/
theorem ReachableWorld.weakRefs_eq_nil {w : World} (h : ReachableWorld w)
    (hnone : w.state.allocations.values = []) : w.state.weakRefs = [] := by
  refine List.eq_nil_iff_forall_not_mem.mpr (fun entry he => ?_)
  obtain ⟨b,hb,-⟩ := h.targetsLive entry he
  rw [hnone] at hb
  exact absurd hb List.not_mem_nil

end GcLib.Protocol
