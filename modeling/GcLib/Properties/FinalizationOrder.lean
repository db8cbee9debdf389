import GcLib.Protocol.Windows
import GcLib.Protocol.CallOrder
import GcLib.Heap.OrderTermination
import GcLib.Heap.OrderCounters

/-! # The order of finalization

`order_blocks_for_finalization_locked` returns the blocks below no reference cycle in
topological order, and then the others by descending address. A reference out of a
block below a cycle is therefore honoured only where it goes down in memory, also
where no cycle goes through the reference itself.
-/

namespace GcLib.Properties
open GcLib.Heap GcLib.Support GcLib.Protocol Relation

/-- The recorded graph has each reference between two blocks once, and counts each referrer once. -/
structure CountsReferrers (s : State) (blocks : List BlockRecord) (graph : FinalizationGraph) :
    Prop where
  edges : ∀ i j, j ∈ (graph.edges i).items ↔ IndexEdge s blocks i j
  once : ∀ i, (graph.edges i).items.Nodup
  indegree : ∀ j, graph.indegree j =
    ((List.range blocks.length).filter fun i => decide (IndexEdge s blocks i j)).length

/-- The blocks below no cycle in the greedy topological order, then the others descending. -/
structure OrderedExactly (s : State) (blocks : List BlockRecord) (headers : List ℕ) : Prop where
  perm : headers.Perm (blocks.map BlockRecord.header)
  parts : ∃ first rest, headers = (first ++ rest).map BlockRecord.header ∧
    TopologicalPart s blocks first ∧ rest.Pairwise (fun u v => v.payloadBegin < u.payloadBegin) ∧
    ∀ b, b ∈ rest ↔ b ∈ blocks ∧ BelowCycle s blocks b
  acyclic : (∀ u, ¬ TransGen (DependsOn s blocks) u u) →
    ∀ u v, DependsOn s blocks u v → Before headers u.header v.header

section
variable {s : State} {blocks : List BlockRecord}

theorem orderedExactly_of_exactOrder (h : FinalizationSet blocks) {headers : List ℕ}
    (ho : ExactOrder s blocks headers) : OrderedExactly s blocks headers := by
  obtain ⟨first,hfirst,rfl,hsafe⟩ := ho.split
  refine ⟨hsafe.perm.map _,⟨first,leftOver blocks first,rfl,hfirst,?_,fun b => ?_⟩,?_⟩
  · refine List.Pairwise.filter _ (List.pairwise_reverse.mpr ?_)
    refine h.ascending.imp_of_mem (fun {u v} hu _ huv => ?_)
    have hlt := (h.payload u hu).1
    omega
  · simp only [leftOver, List.mem_filter, List.mem_reverse, decide_eq_true_eq, hfirst.mem]
    exact and_congr_right fun hb => ⟨fun hn => not_not.mp fun hc => hn ⟨hb,hc⟩,fun hc hn => hn.2 hc⟩
  · intro hacyclic u v hd
    have hb : Before (first ++ leftOver blocks first) u v := by
      refine (hsafe.before_iff u v hd).mpr ?_
      rintro ⟨c,hcc,-⟩
      exact absurd hcc (hacyclic c)
    exact List.Sublist.map BlockRecord.header hb

theorem countsReferrers_of_recording {graph : FinalizationGraph}
    (hr : Recording s blocks (fun _ _ => False) graph) : CountsReferrers s blocks graph where
  edges := hr.edge_iff
  once := hr.nodup
  indegree j := by
    rw [hr.indegree j]
    refine congrArg List.length (List.filter_congr fun i _ => ?_)
    exact decide_eq_decide.mpr (hr.edge_iff i j)

/-- With enough fuel the ordering returns unless an allocation fails, which it passes on; what it
returns is the exact order. It counts referrers exactly and decrements no counter at zero. -/
theorem exact_finalization_order (h : FinalizationSet blocks)
    (hend : ∀ u ∈ blocks, u.payloadEnd+wordSize < addressLimit) :
    (∃ fuel₀, ∀ fuel ≥ fuel₀,
      (∃ headers, orderBlocksForFinalizationLocked fuel blocks s none = .returns headers s none) ∧
      ∀ supply, orderBlocksForFinalizationLocked fuel blocks s supply = .throws .badAlloc s ∨
        ∃ headers supply',
          orderBlocksForFinalizationLocked fuel blocks s supply = .returns headers s supply') ∧
    ∀ fuel supply,
      orderBlocksForFinalizationChecked fuel blocks s supply =
        orderBlocksForFinalizationLocked fuel blocks s supply ∧
      (∀ graph s' supply', (indexBlocksByBegin blocks >>= collectEdges fuel blocks) s supply =
        .returns graph s' supply' → CountsReferrers s blocks graph) ∧
      ∀ headers s' supply',
        orderBlocksForFinalizationLocked fuel blocks s supply = .returns headers s' supply' →
          s' = s ∧ OrderedExactly s blocks headers := by
  constructor
  · obtain ⟨fuel₀,hfuel₀⟩ := exists_enoughFuel blocks
    refine ⟨fuel₀,fun fuel hfuel => ?_⟩
    have hterminates : (orderBlocksForFinalizationLocked fuel blocks).Terminates s
        (fun _ s' => s' = s) (Unchanged s) :=
      terminates_orderBlocksForFinalizationLocked h hend (hfuel₀ fuel hfuel)
    constructor
    · obtain ⟨headers,s',hrun,rfl⟩ := hterminates.returns
      exact ⟨headers,hrun⟩
    · intro supply
      rcases hterminates.returns_or_throws supply with
        ⟨headers,s',supply',hrun,rfl⟩ | ⟨e,s',hrun,rfl,rfl⟩
      · exact Or.inr ⟨headers,supply',hrun⟩
      · exact Or.inl hrun
  · refine fun fuel supply => ⟨orderBlocksForFinalizationChecked_eq h fuel supply,?_,?_⟩
    · intro graph s' supply' hrun
      have hmeets : (indexBlocksByBegin blocks >>= collectEdges fuel blocks).Meets s
          (fun graph _ => CountsReferrers s blocks graph) (Unchanged s) := by
        refine Exec.meets_bind ((meets_indexBlocksByBegin h).mono ?_ (fun _ _ => id))
        rintro indexByBegin s ⟨rfl,hindex⟩
        exact (meets_collectEdges h hindex fuel).mono
          (fun graph s' h' => countsReferrers_of_recording h'.2) (fun _ _ => id)
      exact hmeets.returns hrun
    · intro headers s' supply' hrun
      obtain ⟨rfl,ho⟩ := (meets_orderBlocksForFinalizationLocked_exact h fuel).returns hrun
      exact ⟨rfl,orderedExactly_of_exactOrder h ho⟩

/-- The blocks at 4096 and 8192 refer to the one at 12288, and the last two to each other. -/
def graphBlocks : List BlockRecord :=
  [⟨4096,4128,4144,false⟩,⟨8192,8224,8240,false⟩,⟨12288,12320,12336,false⟩,
    ⟨16384,16416,16432,false⟩,⟨20480,20512,20528,false⟩]

def graphMemory : Memory :=
  [(4128,12320),(8232,12320),(16416,20512),(20512,16416)].foldl
    (fun memory reference => writeWord memory reference.1 reference.2) fun _ => 0

/-- The shared target comes after both blocks that refer to it, and the cycle comes last. -/
theorem exact_finalization_order_graphBlocks :
    (∃ fuel₀, ∀ fuel ≥ fuel₀, ∃ headers,
      orderBlocksForFinalizationLocked fuel graphBlocks (.initial graphMemory) none =
        .returns headers (.initial graphMemory) none) ∧
    OrderedExactly (.initial graphMemory) graphBlocks [8192,4096,12288,20480,16384] := by
  have hset : FinalizationSet graphBlocks := ⟨by decide,by decide⟩
  obtain ⟨⟨fuel₀,hreturns⟩,hexact⟩ :=
    exact_finalization_order (s := .initial graphMemory) hset (by decide)
  have hheaders : (orderBlocksForFinalizationLocked 8 graphBlocks (.initial graphMemory)
      none).value? = some [8192,4096,12288,20480,16384] := by decide +kernel
  obtain ⟨s',supply',hrun⟩ := Outcome.value?_eq_some hheaders
  exact ⟨⟨fuel₀,fun fuel hfuel => (hreturns fuel hfuel).1⟩,((hexact 8 none).2.2 _ _ _ hrun).2⟩

end

/-- `u` refers to `v`, and no references inside the set lead from `v` back to `u`. -/
def AcyclicDependency (s : State) (blocks : List BlockRecord) (u v : BlockRecord) : Prop :=
  DependsOn s blocks u v ∧ ¬ ReflTransGen (DependsOn s blocks) v u

def HasDestructor (s : State) (b : BlockRecord) : Prop := (s.header b.header).destructor ≠ none

instance (s : State) (b : BlockRecord) : Decidable (HasDestructor s b) :=
  inferInstanceAs (Decidable (_ ≠ _))

/-- However the run goes on after the window, the destructor of `u` is called before that of `v`. -/
def CalledBefore (w w' : World) (u v : BlockRecord) : Prop :=
  ∀ w'', ReflTransGen (Steps step) w' w'' → .finalized (w.state.serial v.header) ∈ w''.log →
    Before w''.log (.finalized (w.state.serial u.header)) (.finalized (w.state.serial v.header))

section
variable {w w' : World} {thread : ThreadId} {choice : Choice} {call : WindowCall}
  {blocks : List ℕ} {order : List BlockRecord} {u v : BlockRecord}

theorem header_of_serial (h : ReachableWorld w) {a b : ℕ} (ha : a ∈ registered w.state)
    (hb : b ∈ registered w.state) (he : w.state.serial a = w.state.serial b) : a = b := by
  have ho := h.invariant.ownership
  obtain ⟨c,hc⟩ := (ho.mem_chunks a).mpr (Or.inl ha)
  obtain ⟨c',hc'⟩ := (ho.mem_chunks b).mpr (Or.inl hb)
  rw [State.serial_eq hc, State.serial_eq hc'] at he
  exact h.lifecycle.serial_inj _ _ _ _ hc hc' he

theorem registered_of_detached (hu : u ∈ detachedBlocks w w') :
    u.header ∈ registered w.state := List.mem_map_of_mem (List.mem_filter.mp hu).1

/-- The destructor a registered block was placed with is the one in its header. -/
theorem placed_of_registered (h : ReachableWorld w) (hu : u.header ∈ registered w.state)
    (hd : HasDestructor w.state u) :
    ∃ destructor, .placed (w.state.serial u.header) (some destructor) ∈ w.log := by
  obtain ⟨chunk,hchunk⟩ := (h.invariant.ownership.mem_chunks u.header).mpr (Or.inl hu)
  have hhistory := h.lifecycle.registered _ hu chunk hchunk
  unfold HasDestructor at hd
  rw [State.header_eq hchunk] at hd
  obtain ⟨destructor,heq⟩ := Option.ne_none_iff_exists'.mp hd
  have hmem : Event.placed chunk.serial (some destructor) ∈ history w.log chunk.serial := by
    rw [hhistory, heq]
    exact List.mem_cons_self
  rw [State.serial_eq hchunk]
  exact ⟨destructor,(mem_history.mp hmem).1⟩

/-- Destructors are called in the order of the batch. -/
theorem calledBefore_iff (h : ReachableWorld w) (hc : Completes thread choice call w w' blocks)
    (hblocks : blocks = order.map BlockRecord.header)
    (hperm : order.Perm (detachedBlocks w w')) (hu : u ∈ detachedBlocks w w')
    (hv : v ∈ detachedBlocks w w') (hdu : HasDestructor w.state u)
    (hdv : HasDestructor w.state v) : CalledBefore w w' u v ↔ Before order u v := by
  have hru := registered_of_detached hu
  have hrv := registered_of_detached hv
  have hsame := hc.sameChunks h
  obtain ⟨-,-,supply',-,hlog⟩ := hc.run
  constructor
  · intro hcalled
    obtain ⟨rest,-,hcontrol⟩ := hc.control
    obtain ⟨w'',hsteps,hlog''⟩ := exists_destructorCalls hcontrol
    have hcalls : destructorCalls w'.state blocks = destructorCalls w.state blocks := by
      unfold destructorCalls
      simp only [hsame.header, hsame.serial]
    have hlast : .finalized (w.state.serial v.header) ∈ destructorCalls w.state blocks := by
      refine List.mem_map_of_mem (f := fun a => Event.finalized (w.state.serial a)) ?_
      refine List.mem_filter.mpr ⟨?_,decide_eq_true hdv⟩
      rw [hblocks]
      exact List.mem_map_of_mem (hperm.mem_iff.mpr hv)
    rw [hcalls] at hlog''
    have hb := hcalled w'' hsteps (by rw [hlog'']; exact List.mem_append_right _ hlast)
    rw [hlog''] at hb
    have hnew : Event.finalized (w.state.serial u.header) ∉ w'.log := by
      rw [hlog, List.mem_append]
      rintro (hf | hf)
      · exact (h.lifecycle.registered_new h.invariant.ownership hru).2 hf
      · simp at hf
    obtain ⟨a,b,hab,ha,hb⟩ := (hb.of_append_right hnew).of_map
    have hab : Before blocks a b := List.Sublist.trans hab List.filter_sublist
    subst hblocks
    obtain ⟨x,y,hxy,rfl,rfl⟩ := hab.of_map
    have hreg : ∀ {z}, z ∈ order → z.header ∈ registered w.state := fun hz =>
      registered_of_detached (hperm.mem_iff.mp hz)
    have hlive : ∀ {z}, z ∈ order → z ∈ w.state.allocations.values := fun hz =>
      (List.mem_filter.mp (hperm.mem_iff.mp hz)).1
    have hinv := h.invariant.heap
    have hx := header_of_serial h (hreg hxy.mem_left) hru (Event.finalized.inj ha)
    have hy := header_of_serial h (hreg hxy.mem_right) hrv (Event.finalized.inj hb)
    obtain rfl := hinv.header_inj (hlive hxy.mem_left) (List.mem_filter.mp hu).1 hx
    obtain rfl := hinv.header_inj (hlive hxy.mem_right) (List.mem_filter.mp hv).1 hy
    exact hxy
  · intro hb w'' hsteps hf
    obtain ⟨hr,events,hlog''⟩ := (hc.reachable h).log_extends hsteps
    obtain ⟨destructor,hplaced⟩ := placed_of_registered h hru hdu
    have hdetached : Before w''.log (.detached (w.state.serial u.header) w.log.length)
        (.detached (w.state.serial v.header) w.log.length) := by
      have hmap : Before (blocks.map fun a => Event.detached (w'.state.serial a) w.log.length)
          (.detached (w'.state.serial u.header) w.log.length)
          (.detached (w'.state.serial v.header) w.log.length) := by
        rw [hblocks, List.map_map]
        exact List.Sublist.map
          (fun b : BlockRecord => Event.detached (w'.state.serial b.header) w.log.length) hb
      rw [hsame.serial, hsame.serial] at hmap
      rw [hlog'', hlog]
      exact (hmap.append_left _).append_right _
    refine hr.callOrder.ordered _ _ _ destructor hdetached ?_ hf
    rw [hlog'', hlog]
    exact List.mem_append_left _ (List.mem_append_left _ hplaced)

/-- A window honours every acyclic dependency if and only if those out of blocks below a cycle go
to lower addresses. -/
theorem dependency_order_iff (h : ReachableWorld w)
    (hc : Completes thread choice call w w' blocks) :
    (∀ u v, AcyclicDependency w.state (detachedBlocks w w') u v → HasDestructor w.state u →
      HasDestructor w.state v → CalledBefore w w' u v) ↔
    ∀ u v, AcyclicDependency w.state (detachedBlocks w w') u v → HasDestructor w.state u →
      HasDestructor w.state v → BelowCycle w.state (detachedBlocks w w') u →
        v.payloadBegin < u.payloadBegin := by
  obtain ⟨order,hblocks,hsafe⟩ := hc.safeOrder h
  refine forall_congr' fun u => forall_congr' fun v => ?_
  refine imp_congr_right fun hd => imp_congr_right fun hdu => imp_congr_right fun hdv => ?_
  rw [calledBefore_iff h hc hblocks hsafe.perm hd.1.1 hd.1.2.1 hdu hdv]
  exact hsafe.before_iff u v hd.1

end

/-- The blocks at 4096 and 8192 refer to each other, and the one at 8192 to the one at 12288. -/
def tailedCycleRun : List Label :=
  [.user 0 (.call (.registerStackBottom 28672)),.run 0 {},
    .user 0 (.call (.mallocInternal 16 16 (some 7) false)),.run 0 {},.run 0 { region := 4096 },
    .run 0 {},
    .user 0 (.call (.mallocInternal 16 16 (some 7) false)),.run 0 {},.run 0 { region := 8192 },
    .run 0 {},
    .user 0 (.call (.mallocInternal 16 16 (some 7) false)),.run 0 {},.run 0 { region := 12288 },
    .run 0 {},
    .user 0 (.storeByte 4128 0x20),.user 0 (.storeByte 4129 0x20),
    .user 0 (.storeByte 8224 0x20),.user 0 (.storeByte 8225 0x10),
    .user 0 (.storeByte 8232 0x20),.user 0 (.storeByte 8233 0x30),
    .user 0 (.call .collect),.run 0 {}]

def collectedTailedCycle : World := worldAfter (tailedCycleRun ++ [.run 0 { fuel := 50 }])

theorem completes_tailedCycleRun :
    Completes 0 { fuel := 50 } .collect (worldAfter tailedCycleRun) collectedTailedCycle
      [12288,8192,4096] :=
  ⟨worldAfter_step tailedCycleRun _ (by decide +kernel),[],by decide +kernel,by decide +kernel⟩

/-- Nothing refers back from the block at 12288, which the cycle refers to. -/
theorem acyclicDependency_tailedCycleRun :
    AcyclicDependency (worldAfter tailedCycleRun).state
      (detachedBlocks (worldAfter tailedCycleRun) collectedTailedCycle)
      ⟨8192,8224,8240,false⟩ ⟨12288,12320,12336,false⟩ := by
  have hset : detachedBlocks (worldAfter tailedCycleRun) collectedTailedCycle =
      [⟨4096,4128,4144,false⟩,⟨8192,8224,8240,false⟩,⟨12288,12320,12336,false⟩] := by
    decide +kernel
  rw [hset]
  refine ⟨by decide +kernel,fun hback => ?_⟩
  rcases hback.cases_head with heq | ⟨b,hb,-⟩
  · cases heq
  · have hnone : ∀ b ∈ [BlockRecord.mk 4096 4128 4144 false,⟨8192,8224,8240,false⟩,
        ⟨12288,12320,12336,false⟩], ¬ DependsOn (worldAfter tailedCycleRun).state
          [⟨4096,4128,4144,false⟩,⟨8192,8224,8240,false⟩,⟨12288,12320,12336,false⟩]
          ⟨12288,12320,12336,false⟩ b := by decide +kernel
    exact hnone b hb.2.1 hb

theorem belowCycle_tailedCycleRun :
    BelowCycle (worldAfter tailedCycleRun).state
      (detachedBlocks (worldAfter tailedCycleRun) collectedTailedCycle)
      ⟨8192,8224,8240,false⟩ := by
  refine ⟨⟨8192,8224,8240,false⟩,.head (b := ⟨4096,4128,4144,false⟩) ?_ (.single ?_),.refl⟩
  · decide +kernel
  · decide +kernel

/-- The order need not honour the reference out of a cycle to a higher address. -/
theorem dependency_order_iff_tailedCycleRun :
    ¬ ∀ u v, AcyclicDependency (worldAfter tailedCycleRun).state
        (detachedBlocks (worldAfter tailedCycleRun) collectedTailedCycle) u v →
      HasDestructor (worldAfter tailedCycleRun).state u →
      HasDestructor (worldAfter tailedCycleRun).state v →
        CalledBefore (worldAfter tailedCycleRun) collectedTailedCycle u v := by
  rw [dependency_order_iff (reachable_worldAfter tailedCycleRun) completes_tailedCycleRun]
  intro h
  have hlt := h _ _ acyclicDependency_tailedCycleRun (by decide +kernel) (by decide +kernel)
    belowCycle_tailedCycleRun
  exact absurd hlt (by decide)

/-- The first destructor called is that of the block at 12288. -/
theorem tail_finalized_before_cycle :
    ¬ ∀ w w' thread choice call blocks, ReachableWorld w →
      Completes thread choice call w w' blocks →
      ∀ u v, AcyclicDependency w.state (detachedBlocks w w') u v → HasDestructor w.state u →
        HasDestructor w.state v → CalledBefore w w' u v := by
  intro h
  have hcalled := h _ _ _ _ _ _ (reachable_worldAfter tailedCycleRun) completes_tailedCycleRun
    _ _ acyclicDependency_tailedCycleRun (by decide +kernel) (by decide +kernel)
  have hstep := worldAfter_step (tailedCycleRun ++ [.run 0 { fuel := 50 }]) (.run 0 {})
    (by decide +kernel)
  have hbefore := hcalled _ (.single ⟨_,hstep⟩) (by decide +kernel)
  exact absurd hbefore.mem_left (by decide +kernel)

end GcLib.Properties
