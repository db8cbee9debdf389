import GcLib.Heap.Sweep
import GcLib.Heap.Tracing

/-! # The collection and shutdown windows

What `collect` and `shutdown` do between the pause of the other threads and the first
destructor call. Every allocation of either window comes before its first lasting
change, so a window that throws leaves nothing but mark bytes behind.
-/

namespace GcLib.Heap
open Support

def bytesFreed (s : State) (unreachable : List ℕ) : ℕ :=
  unreachable.foldl (fun bytes header => wrapAdd bytes (s.header header).size) 0

def State.recordCollection (s : State) (unreachable : List ℕ) (duration : ℕ) : State :=
  let freed := bytesFreed s unreachable
  { s with stats := { s.stats with
      totalCollections := wrapAdd s.stats.totalCollections 1
      blocksReclaimedLast := unreachable.length
      bytesReclaimedLast := freed
      bytesReclaimedTotal := wrapAdd s.stats.bytesReclaimedTotal freed
      durationLast := duration
      durationTotal := s.stats.durationTotal+duration } }

/-- `collect` from its paused window to the destructor calls. -/
def collectWindow (fuel : ℕ) (collector : ThreadId) (env : ScanEnvironment) : M (List ℕ) := do
  markLocked fuel collector env
  let unreachable ← sweepLocked fuel
  Exec.modify (fun s => s.recordCollection unreachable env.duration)
  pure unreachable

def shutdownDuringConstructionMessage : String :=
  "GC-Lib cannot shut down during object construction."

def State.clearWeakRefs (s : State) : State :=
  { s with
    memory := (s.weakRefs.filter (fun entry => decide (entry.storage ≠ 0))).foldl
      (fun memory entry => writeWord memory entry.storage 0) s.memory
    weakRefs := [] }

/-- Adding sizes up does not wrap when the total fits. -/
theorem foldl_wrapAdd {f : BlockRecord → ℕ} :
    ∀ {blocks : List BlockRecord} {n : ℕ}, n+(blocks.map f).sum < addressLimit →
      blocks.foldl (fun n block => wrapAdd n (f block)) n = n+(blocks.map f).sum
  | [], _, _ => rfl
  | block :: blocks, n, hlt => by
    rw [List.map_cons, List.sum_cons] at hlt ⊢
    rw [List.foldl_cons, wrapAdd_of_lt (by omega), foldl_wrapAdd (by omega)]
    omega

/-- `shutdown` from its paused window to the destructor calls. -/
def shutdownWindow (fuel : ℕ) : M (List ℕ) := do
  let s ← Exec.get
  if s.allocations.values.any BlockRecord.constructing then
    Exec.raise (.logicError shutdownDuringConstructionMessage)
  else
    let blocks ← detachAllBlocksLocked fuel
    Exec.modify (fun s => { s.clearWeakRefs with stats := {} })
    pure blocks

theorem Retained.mem {s : State} {collector : ThreadId} {env : ScanEnvironment} {b : BlockRecord}
    (h : Retained s collector env b) : b ∈ s.allocations.values := by
  obtain ⟨r,hr,hrb⟩ := h
  cases hrb with
  | refl => exact hr.1
  | tail _ hyz => exact hyz.1

theorem DependsOn.congr {s s' : State} (hm : s'.memory = s.memory) (blocks : List BlockRecord) :
    DependsOn s' blocks = DependsOn s blocks := by
  funext u v
  simp only [DependsOn, hm]

theorem SafeOrder.congr {s s' : State} (hm : s'.memory = s.memory)
    {blocks order : List BlockRecord} (h : SafeOrder s blocks order) :
    SafeOrder s' blocks order where
  perm := h.perm
  before_iff := by
    unfold BelowCycle
    rw [DependsOn.congr hm]
    exact h.before_iff

theorem DependsOn.of_mem_iff {s : State} {blocks blocks' : List BlockRecord}
    (hmem : ∀ b, b ∈ blocks ↔ b ∈ blocks') : DependsOn s blocks = DependsOn s blocks' := by
  funext u v
  simp only [DependsOn, hmem]

/-- How the set of blocks is listed does not matter. -/
theorem SafeOrder.of_mem_iff {s : State} {blocks blocks' order : List BlockRecord}
    (h : SafeOrder s blocks order) (hnodup : blocks.Nodup) (hnodup' : blocks'.Nodup)
    (hmem : ∀ b, b ∈ blocks ↔ b ∈ blocks') : SafeOrder s blocks' order where
  perm := h.perm.trans ((List.perm_ext_iff_of_nodup hnodup hnodup').mpr hmem)
  before_iff := by
    unfold BelowCycle
    rw [← DependsOn.of_mem_iff hmem]
    exact h.before_iff

/-- What a completed collection did: `dead` is what it did not retain. -/
structure Collected (s₀ : State) (collector : ThreadId) (env : ScanEnvironment)
    (dead : List BlockRecord) (unreachable : List ℕ) (s : State) : Prop where
  sublist : dead.Sublist s₀.allocations.values
  mem_dead : ∀ b, b ∈ dead ↔ b ∈ s₀.allocations.values ∧ ¬ Retained s₀ collector env b
  removed : Removed s₀ dead { s with stats := s₀.stats }
  unmarked : ∀ b ∈ s₀.allocations.values, s.marks b.header = false
  order : ∃ order, unreachable = order.map BlockRecord.header ∧ SafeOrder s₀ dead order
  stats : s.stats = (s₀.recordCollection unreachable env.duration).stats

namespace Collected
variable {s₀ s : State} {collector : ThreadId} {env : ScanEnvironment} {dead : List BlockRecord}
  {unreachable : List ℕ}

theorem dead_mem (h : Collected s₀ collector env dead unreachable s) :
    ∀ b ∈ dead, b ∈ s₀.allocations.values := fun b hb => ((h.mem_dead b).mp hb).1

theorem dead_nodup (h : Collected s₀ collector env dead unreachable s)
    (hinv : HeapInvariant s₀) : dead.Nodup := hinv.values_nodup.sublist h.sublist

theorem mem_values (h : Collected s₀ collector env dead unreachable s) (hinv : HeapInvariant s₀)
    (b : BlockRecord) : b ∈ s.allocations.values ↔ Retained s₀ collector env b := by
  have hr := h.removed.mem_values hinv h.dead_mem (b := b)
  rw [h.mem_dead] at hr
  refine hr.trans ⟨fun hb => ?_,fun hb => ⟨hb.mem,fun hd => hd.2 hb⟩⟩
  by_contra hn
  exact hb.2 ⟨hb.1,hn⟩

theorem invariant (h : Collected s₀ collector env dead unreachable s) (hinv : HeapInvariant s₀) :
    HeapInvariant s :=
  (h.removed.invariant hinv h.dead_mem (h.dead_nodup hinv)).congr rfl rfl rfl rfl

theorem managedBytes_eq (h : Collected s₀ collector env dead unreachable s)
    (hinv : HeapInvariant s₀) : s₀.managedBytes = s₀.payloadSum dead+s.managedBytes :=
  (h.removed.managedBytes_eq hinv h.dead_mem (h.dead_nodup hinv)).1

theorem reservedBytes_eq (h : Collected s₀ collector env dead unreachable s)
    (hinv : HeapInvariant s₀) : s₀.reservedBytes = s₀.reservedSum dead+s.reservedBytes :=
  (h.removed.reservedBytes_eq hinv h.dead_mem (h.dead_nodup hinv)).1

/-- The statistics count the removed bytes without wrapping. -/
theorem bytesFreed_eq (h : Collected s₀ collector env dead unreachable s)
    (hinv : HeapInvariant s₀) : bytesFreed s₀ unreachable = s₀.payloadSum dead := by
  obtain ⟨order,rfl,hsafe⟩ := h.order
  have hsum : (order.map fun b => (s₀.header b.header).size).sum = s₀.payloadSum dead :=
    (hsafe.perm.map _).sum_eq
  have hle := h.managedBytes_eq hinv
  have hlt := hinv.managed_lt
  rw [bytesFreed, List.foldl_map, foldl_wrapAdd (by omega), Nat.zero_add, hsum]

end Collected

/-- A collection that completes keeps exactly the retained blocks, and one that throws has run
out of memory and changed nothing but mark bytes. -/
theorem meets_collectWindow {s₀ : State} {collector : ThreadId} {env : ScanEnvironment}
    (hinv : HeapInvariant s₀) (hspace : RootsInSpace s₀ env) (fuel : ℕ) :
    (collectWindow fuel collector env).Meets s₀
      (fun unreachable s => ∃ dead, Collected s₀ collector env dead unreachable s)
      (fun e s => e = .badAlloc ∧ s.EqButMarks s₀) := by
  refine Exec.meets_bind ((meets_markLocked hinv hspace fuel).mono ?_ ?_)
  swap
  · rintro e s ⟨rfl,rfl⟩
    exact ⟨rfl,s₀.clearMarksLocked_eqButMarks⟩
  rintro - s hm
  refine Exec.meets_bind ((meets_sweepLocked (hm.same.invariant hinv) fuel).mono ?_ ?_)
  · intro unreachable s' hs
    have hr := (Removed.of_marks hm.same).trans hs.removed
    have hstats : s'.stats = s₀.stats := (congrArg State.stats hr.frame :)
    refine Exec.meets_bind
      (Exec.meets_modify (Exec.meets_pure ⟨s.unmarkedBlocks,?_,?_,?_,?_,?_,?_⟩))
    · rw [← hm.same.allocations]
      exact s.unmarkedBlocks_sublist
    · intro b
      rw [State.mem_unmarkedBlocks, hm.same.allocations]
      refine and_congr_right (fun hb => ?_)
      rw [← hm.marked_iff b hb, Bool.not_eq_true]
    · have hsame : { s'.recordCollection unreachable env.duration with stats := s₀.stats } = s' := by
        rw [← hstats]
        rfl
      rw [hsame]
      exact hr
    · intro b hb
      change s'.marks b.header = false
      rw [hs.marks, hm.same.allocations, if_pos (List.mem_map_of_mem hb)]
    · obtain ⟨order,ho,hsafe⟩ := hs.order
      exact ⟨order,ho,hsafe.congr hm.same.memory.symm⟩
    · simp only [State.recordCollection, bytesFreed, hr.header, hstats]
  · rintro e s' ⟨rfl,rfl⟩
    exact ⟨rfl,hm.same⟩

/-- The mark bytes a collection leaves when it throws: it ran out of memory before it marked
anything, or when everything it retains was marked. -/
structure LeftMarked (s₀ : State) (collector : ThreadId) (env : ScanEnvironment) (s : State) :
    Prop where
  outside : SameMarksOutside s₀ s
  live : (∀ b ∈ s₀.allocations.values, s.marks b.header = false) ∨
    ∀ b ∈ s₀.allocations.values, s.marks b.header = true ↔ Retained s₀ collector env b

theorem meets_collectWindow_marks {s₀ : State} {collector : ThreadId} {env : ScanEnvironment}
    (hinv : HeapInvariant s₀) (hspace : RootsInSpace s₀ env) (fuel : ℕ) :
    (collectWindow fuel collector env).Meets s₀ (fun _ s => SameMarksOutside s₀ s)
      (fun _ s => LeftMarked s₀ collector env s) := by
  have hcleared := s₀.clearMarksLocked_marks
  refine Exec.meets_bind ((meets_markLocked hinv hspace fuel).mono ?_ ?_)
  · rintro - s hm
    refine Exec.meets_bind ((meets_sweepLocked (hm.same.invariant hinv) fuel).mono ?_ ?_)
    · intro unreachable s' hs
      refine Exec.meets_bind (Exec.meets_modify (Exec.meets_pure (fun h hh => ?_)))
      change s'.marks h = _
      rw [hs.marks, hm.same.allocations, if_neg hh]
      exact hm.outside h hh
    · rintro e s' ⟨-,rfl⟩
      exact ⟨hm.outside,Or.inr hm.marked_iff⟩
  · rintro e s ⟨-,rfl⟩
    refine ⟨fun h hh => ?_,Or.inl (fun b hb => ?_)⟩
    · rw [hcleared, if_neg hh]
    · rw [hcleared, if_pos (List.mem_map_of_mem hb)]

/-- The state after a completed shutdown window. -/
def State.shutDown (s : State) : State :=
  { s.clearWeakRefs with allocations := .empty, managedBytes := 0, reservedBytes := 0, stats := {} }

theorem meets_shutdownWindow {s₀ : State} (hinv : HeapInvariant s₀) (fuel : ℕ) :
    (shutdownWindow fuel).Meets s₀
      (fun blocks s => s = s₀.shutDown ∧ (∀ b ∈ s₀.allocations.values, b.constructing = false) ∧
        ∃ order, blocks = order.map BlockRecord.header ∧
          SafeOrder s₀ s₀.allocations.values order)
      (fun e s => s = s₀ ∧ (e = .badAlloc ∨
        e = .logicError shutdownDuringConstructionMessage ∧
          ∃ b ∈ s₀.allocations.values, b.constructing = true)) := by
  refine Exec.meets_bind (Exec.meets_get ?_)
  split_ifs with hc
  · exact Exec.meets_raise ⟨rfl,Or.inr ⟨rfl,by simpa using hc⟩⟩
  · refine Exec.meets_bind ((meets_detachAllBlocksLocked hinv fuel).mono ?_ ?_)
    · rintro blocks s ⟨rfl,horder⟩
      refine Exec.meets_bind (Exec.meets_modify (Exec.meets_pure ⟨rfl,?_,horder⟩))
      simpa using hc
    · rintro e s ⟨rfl,rfl⟩
      exact ⟨rfl,Or.inl rfl⟩

end GcLib.Heap
