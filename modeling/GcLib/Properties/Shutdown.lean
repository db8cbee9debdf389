import GcLib.Protocol.Batches
import GcLib.Protocol.Calls
import GcLib.Protocol.Registrations
import GcLib.Protocol.WeakRefs

/-! # What a shutdown leaves

The window of a shutdown detaches every block and resets the counters, the weak references
and the statistics. The finalizers run after that, and what they allocate outlives the call:
a shutdown destroys the allocations it finds, not the ones made during it.
-/

namespace GcLib.Properties
open GcLib.Heap GcLib.Support GcLib.Protocol Relation

/-- The statistics an allocation changes. -/
def allocationStats (stats : GCStats) : GCStats where
  totalAllocations := stats.totalAllocations
  bytesAllocatedTotal := stats.bytesAllocatedTotal
  peakLiveBytes := stats.peakLiveBytes
  peakLiveBlocks := stats.peakLiveBlocks

/-- A step of the thread, or one with which another thread changes neither the registry, the
counters, the weak references nor the statistics. -/
def FinalizerStep (thread : ThreadId) (w w' : World) : Prop :=
  ∃ label, step label w = some w' ∧
    (label.thread = thread ∨ Intrusion label.thread w.state w'.state)

/-- A run from one world goes through the other. -/
def Visits (labels : List Label) (w v : World) : Prop :=
  ∃ before after, labels = before ++ after ∧ run step before w = some v

/-- Some thread is registering or unregistering a root range. -/
def TouchesRange (range : RootRange) (w : World) : Prop :=
  ∃ thread begin_ end_ stage rest, rootRange begin_ end_ = range ∧
    (w.control thread = .entering (.call (.registerRootRange begin_ end_)) stage :: rest ∨
      w.control thread = .entering (.call (.unregisterRootRange begin_ end_)) stage :: rest)

/-- A thread is changing its registration. -/
def TouchesThread (thread : ThreadId) (w : World) : Prop :=
  ∃ call stage rest, w.control thread = .entering (.call call) stage :: rest ∧
    call.registersThread = true

/-- The events added to a log since its registry was empty account for all that is live. -/
structure EmptiedSince (log : List Event) (new : List Event) (w : World) : Prop where
  log : w.log = log ++ new
  live : ∀ b ∈ w.state.allocations.values, .registered (w.state.serial b.header) ∈ new
  managed : w.state.managedBytes = w.state.payloadSum w.state.allocations.values
  reserved : w.state.reservedBytes = w.state.reservedSum w.state.allocations.values
  targets : TargetsLive w.state
  stats : w.state.stats = allocationStats w.state.stats
  empty : (∀ serial, .registered serial ∉ new) → w.state.allocations.values = [] ∧
    w.state.managedBytes = 0 ∧ w.state.reservedBytes = 0 ∧ w.state.weakRefs = [] ∧
    w.state.stats = {} ∧ ∀ storage supply,
      readWeakRefLocked storage w.state supply = .returns (.word 0) w.state supply

section
variable {w w' : World} {label : Label} {rest : List Frame}

theorem registered_since (h : ReachableWorld w) (hnone : w.state.allocations.values = [])
    (hsteps : ReflTransGen (Steps step) w w') {new : List Event} (hlog : w'.log = w.log ++ new)
    {b : BlockRecord} (hb : b ∈ w'.state.allocations.values) :
    .registered (w'.state.serial b.header) ∈ new := by
  have hr' := (h.log_extends hsteps).1
  obtain ⟨chunk,hchunk,-⟩ := hr'.invariant.heap.described b hb
  have hhistory := hr'.lifecycle.registered _ (List.mem_map_of_mem hb) chunk hchunk
  rw [State.serial_eq hchunk]
  rw [hlog, history_append] at hhistory
  have hmem : Event.registered chunk.serial ∈ history w.log chunk.serial ∨
      Event.registered chunk.serial ∈ history new chunk.serial := by
    rw [← List.mem_append, hhistory]
    simp
  rcases hmem with hold | hnew
  · -- Before, the block was held by a thread or gone, with too long a history for a live one.
    have hlength := congrArg List.length hhistory
    simp only [List.length_append, List.length_cons, List.length_nil] at hlength
    have hlt : chunk.serial < w.state.nextSerial := h.lifecycle.recorded _ (mem_history.mp hold).1
    have hlong : 2 < (history w.log chunk.serial).length := by
      by_cases hex : ∃ header chunk', w.state.chunks.find? header = some chunk' ∧
          chunk'.serial = chunk.serial
      · obtain ⟨header,chunk',hchunk',hserial⟩ := hex
        rcases (h.invariant.ownership.mem_chunks header).mp ⟨chunk',hchunk'⟩ with hreg | ⟨t,hheld⟩
        · obtain ⟨b',hb',-⟩ := mem_registered.mp hreg
          rw [hnone] at hb'
          cases hb'
        · obtain ⟨phase,hphase⟩ := mem_held.mp hheld
          have hpast := h.lifecycle.held t _ hphase chunk' hchunk'
          rw [hserial] at hpast
          exact hpast.length_lt hold
      · obtain ⟨destructor,phase,past,-,hpast,hevents⟩ := h.lifecycle.gone _ hlt
          (fun header chunk' hc hs => hex ⟨header,chunk',hc,hs⟩)
        rw [hevents] at hold ⊢
        have hmem : Event.registered chunk.serial ∈ past := by simpa using hold
        have hlt := hpast.length_lt hmem
        simp only [List.length_append, List.length_cons, List.length_nil]
        omega
    omega
  · exact (mem_history.mp hnew).1

/-- The statistics count the allocations since they were reset. -/
def ResetSince (log : List Event) (w : World) : Prop :=
  ∃ new, w.log = log ++ new ∧ w.state.stats = allocationStats w.state.stats ∧
    ((∀ serial, .registered serial ∉ new) → w.state.stats = {})

theorem allocationStats_publish {s : State} (h : s.stats = allocationStats s.stats)
    {header : ℕ} {constructing : Bool} :
    (s.publish header constructing).stats =
      allocationStats (s.publish header constructing).stats := by
  obtain ⟨total,bytes,peakBytes,peakBlocks,hs⟩ : ∃ total bytes peakBytes peakBlocks,
      (s.publish header constructing).stats = { s.stats with
        totalAllocations := total
        bytesAllocatedTotal := bytes
        peakLiveBytes := peakBytes
        peakLiveBlocks := peakBlocks } := ⟨_,_,_,_,rfl⟩
  rw [hs, h]
  rfl

/-- Without a window that completes, only registrations change the statistics. -/
theorem ResetSince.step {log : List Event} (h : ReachableWorld w)
    (hwait : ∀ other c above, w.control other ≠ .waiting c :: above)
    (hstep : step label w = some w') (hw : ResetSince log w) : ResetSince log w' := by
  obtain ⟨new,hlog,hstats,hempty⟩ := hw
  have hkept : ∀ events, w'.log = w.log ++ events → w'.state.stats = w.state.stats →
      ResetSince log w' := by
    intro events hl hs
    refine ⟨new ++ events,by rw [hl, hlog, List.append_assoc],by rw [hs]; exact hstats,?_⟩
    intro hnone
    rw [hs]
    exact hempty (fun serial hm => hnone serial (List.mem_append_left _ hm))
  cases h.heapChange hstep with
  | quiet ha hwr hm hr hs hn hl =>
    obtain ⟨events,hl,-⟩ := hl
    exact hkept events hl hs
  | «section» hc hco he hc' hl =>
    rename_i code stage above s next
    have hs : s.stats = w.state.stats := (congrArg State.stats hco.sameHeap.eq :)
    by_cases hp : ∃ header constructing, code = .publish header constructing
    · obtain ⟨header,constructing,rfl⟩ := hp
      refine ⟨new ++ [.registered (w'.state.serial header)],?_,?_,fun hnone => ?_⟩
      · rw [hl, hlog, List.append_assoc]
        rfl
      · rw [← hs] at hstats
        generalize w'.state = s' at he
        cases he with
        | publish => exact allocationStats_publish hstats
      · exact absurd (List.mem_append_right _ List.mem_cons_self) (hnone _)
    · refine hkept _ hl (Eq.trans ?_ hs)
      generalize w'.state = s' at he
      cases he with
      | publish => exact absurd ⟨_,_,rfl⟩ hp
      | _ => rfl
  | window hc => exact absurd hc (hwait _ _ _)

theorem finalizerStep_of_callPhase {call : WindowCall} {thread : ThreadId} (h : ReachableWorld w)
    (hp : CallPhase call rest 0 (w.control thread)) (hstep : step label w = some w') :
    FinalizerStep thread w w' := by
  refine ⟨label,hstep,or_iff_not_imp_left.mpr (fun hne => ?_)⟩
  obtain ⟨frame,hframe,howns⟩ := List.any_eq_true.mp (hp.any_owns rfl)
  have howner := (h.invariant.protocol.thread thread).owner_of_mem hframe howns
  exact (step_transition hstep).intrusion h.invariant.protocol howner hne

theorem readWord_shutDown {s : State} {entry : WeakRefEntry} (he : entry ∈ s.weakRefs)
    (h₀ : entry.storage ≠ 0) : readWord s.shutDown.memory entry.storage = 0 := by
  refine Memory.readBytes_eq_zero (fun x hx hx' => ?_)
  change (s.weakRefs.filter _).foldl _ s.memory x = 0
  rw [foldl_writeWord_zero, if_pos]
  exact ⟨entry,List.mem_filter.mpr ⟨he,decide_eq_true h₀⟩,trivial,hx,hx'⟩

theorem EmptiedSince.of_reset {log : List Event} (h : ReachableWorld w)
    (hlive : ∀ new, w.log = log ++ new →
      ∀ b ∈ w.state.allocations.values, .registered (w.state.serial b.header) ∈ new)
    (hreset : ResetSince log w) : ∃ new, EmptiedSince log new w := by
  obtain ⟨new,hlog,hstats,hempty⟩ := hreset
  have hheap := h.invariant.heap
  refine ⟨new,hlog,hlive new hlog,hheap.managed,hheap.reserved,h.targetsLive,hstats,
    fun hnone => ?_⟩
  have hvalues : w.state.allocations.values = [] :=
    List.eq_nil_iff_forall_not_mem.mpr (fun b hb => hnone _ (hlive new hlog b hb))
  have hweak := h.weakRefs_eq_nil hvalues
  refine ⟨hvalues,?_,?_,hweak,hempty hnone,fun storage supply => ?_⟩
  · rw [hheap.managed, hvalues]
    rfl
  · rw [hheap.reserved, hvalues]
    rfl
  · change Outcome.returns (Value.word ((findWeakRef w.state.weakRefs storage).elim 0 _)) _ _ = _
    rw [hweak]
    rfl

theorem Visits.cons {labels : List Label} {v : World} (hstep : step label w = some w')
    (h : Visits labels w' v) : Visits (label :: labels) w v := by
  obtain ⟨before,after,rfl,hrun⟩ := h
  refine ⟨label :: before,after,rfl,?_⟩
  rw [run, hstep]
  exact hrun

theorem count_range_run {range : RootRange} : ∀ {labels : List Label} {w w' : World},
    ReachableWorld w → run step labels w = some w' →
    (∀ v, Visits labels w v → ¬ TouchesRange range v) →
      w'.state.registeredRootRanges.count range = w.state.registeredRootRanges.count range
  | [], w, w', _, hrun, _ => by
    cases hrun
    rfl
  | label :: labels, w, w', h, hrun, huntouched => by
    obtain ⟨w₁,hstep,hrest⟩ := Option.bind_eq_some_iff.mp hrun
    rw [count_range_run (h.step hstep) hrest (fun v hv => huntouched v (hv.cons hstep))]
    have hnow := huntouched w ⟨[],label :: labels,rfl,rfl⟩
    cases h.rangeChange hstep with
    | same hr => rw [hr]
    | publishes hc hr =>
      have hne : rootRange _ _ ≠ range := fun he => hnow ⟨_,_,_,_,_,he,Or.inl hc⟩
      rw [hr, List.count_append, List.count_singleton, if_neg (by simpa using hne), Nat.add_zero]
    | erases hc hr =>
      have hne : rootRange _ _ ≠ range := fun he => hnow ⟨_,_,_,_,_,he,Or.inr hc⟩
      rw [hr, List.count_erase_of_ne hne.symm]

theorem stackBottomOf_run {thread : ThreadId} : ∀ {labels : List Label} {w w' : World},
    ReachableWorld w → run step labels w = some w' →
    (∀ v, Visits labels w v → ¬ TouchesThread thread v) →
      stackBottomOf w'.state thread = stackBottomOf w.state thread
  | [], w, w', _, hrun, _ => by
    cases hrun
    rfl
  | label :: labels, w, w', h, hrun, huntouched => by
    obtain ⟨w₁,hstep,hrest⟩ := Option.bind_eq_some_iff.mp hrun
    rw [stackBottomOf_run (h.step hstep) hrest (fun v hv => huntouched v (hv.cons hstep))]
    rcases h.stackBottomOf hstep thread with hs | ⟨-,call,stage,above,hc,hcall⟩
    · exact hs
    · exact absurd ⟨call,stage,above,hc,hcall⟩ (huntouched w ⟨[],label :: labels,rfl,rfl⟩)

end

/-- An outermost shutdown that returns has detached every block it found, with the counters, the
weak references and the statistics reset. What is live afterwards, or counted, was registered
since by the finalizers of the thread itself; without such blocks the heap is empty and every
weak handle has expired. Root ranges and threads nobody touched are as before. -/
theorem shutdown_empties {w w' : World} (h : ReachableWorld w) {thread : ThreadId} {stage : Stage}
    {rest : List Frame} {labels : List Label}
    (hc : w.control thread = .entering (.call .shutdown) stage :: rest)
    (houter : w.state.collectorThread ≠ some thread) (hrun : run step labels w = some w')
    (hin : Inside thread rest labels w) (hret : ReturnedOk w' thread rest) :
    (∃ choice blocks u u' new, ReflTransGen (Steps step) w u ∧
      Completes thread choice .shutdown u u' blocks ∧
      ReflTransGen (FinalizerStep thread) u' w' ∧ (registered u.state).Perm blocks ∧
      (∀ entry ∈ u.state.weakRefs, entry.storage ≠ 0 →
        readWord u'.state.memory entry.storage = 0) ∧
      EmptiedSince u'.log [] u' ∧ EmptiedSince u'.log new w') ∧
    (∀ range, (∀ v, Visits labels w v → ¬ TouchesRange range v) →
      w'.state.registeredRootRanges.count range = w.state.registeredRootRanges.count range) ∧
    ∀ other, (∀ v, Visits labels w v → ¬ TouchesThread other v) →
      stackBottomOf w'.state other = stackBottomOf w.state other := by
  refine ⟨?_,fun range hu => count_range_run h hrun hu,fun other hu => stackBottomOf_run h hrun hu⟩
  have hphase : CallPhase .shutdown rest (if rest.any Frame.owns then 0 else 1)
      (w.control thread) := hc ▸ .entering stage
  have hnone : ¬ rest.any Frame.owns = true := fun ha =>
    houter ((h.invariant.protocol.any_owns hc rfl).mp ha)
  have hcount := hphase.completed rfl h hrun hin hret
  rw [if_neg hnone] at hcount
  have hmem : (thread,rest) ∈ completedWindows .shutdown labels w :=
    List.count_pos_iff.mp (by rw [hcount]; exact one_pos)
  obtain ⟨before,label,after,u,u',rfl,hbefore,hstep,hcompleted,hafter⟩ :=
    exists_of_mem_completedWindows hrun hmem
  obtain ⟨choice,blocks,rfl,hcompletes,hc'⟩ := completes_of_completedWindow hstep hcompleted
  have hu : ReachableWorld u := Reachable.run h hbefore
  have hu' : ReachableWorld u' := hcompletes.reachable hu
  have heffect := hcompletes.effect hu
  have hdetached := heffect.detaches hu.invariant.heap
  obtain ⟨hstate,hblocks⟩ : u'.state = u.state.shutDown ∧ registered u'.state = [] := by
    generalize u'.state = s at heffect
    cases heffect
    exact ⟨rfl,rfl⟩
  have hvalues : u'.state.allocations.values = [] := List.map_eq_nil_iff.mp hblocks
  rw [hblocks, List.append_nil] at hdetached
  have hstart : ResetSince u'.log u' := by
    refine ⟨[],(List.append_nil _).symm,?_,fun _ => ?_⟩
    · rw [hstate]
      rfl
    · rw [hstate]
      rfl
  have hphase' : CallPhase .shutdown rest 0 (u'.control thread) := hc' ▸ .destroying [] _ rfl
  have hin' : Inside thread rest after u' := Inside.step (Inside.of_append hin hbefore) hstep
  have hcarried := hphase'.carries rfl
    (P := fun v => ReflTransGen (FinalizerStep thread) u' v ∧ ResetSince u'.log v)
    (fun label v v' hv hp hP hs => ⟨hP.1.tail (finalizerStep_of_callPhase hv hp hs),
      hP.2.step hv (fun other c above => hp.not_waiting hv other c above) hs⟩)
    hu' hafter hin' hret ⟨.refl,hstart⟩
  have hsince : ∀ {v}, ReachableWorld v → ReflTransGen (Steps step) u' v → ∀ new,
      v.log = u'.log ++ new →
        ∀ b ∈ v.state.allocations.values, .registered (v.state.serial b.header) ∈ new :=
    fun _ hsteps _ hlog _ hb => registered_since hu' hvalues hsteps hlog hb
  have hw' : ReachableWorld w' := Reachable.run hu' hafter
  obtain ⟨new,hnew⟩ := EmptiedSince.of_reset hw' (hsince hw' (steps_of_run hafter)) hcarried.2
  obtain ⟨old,hold⟩ := EmptiedSince.of_reset hu' (hsince hu' .refl) hstart
  obtain rfl : old = [] := List.self_eq_append_right.mp hold.log
  refine ⟨choice,blocks,u,u',new,steps_of_run hbefore,hcompletes,hcarried.1,hdetached,?_,hold,hnew⟩
  intro entry he h₀
  rw [hstate]
  exact readWord_shutDown he h₀

/-- The block of `allocatingRun` is destroyed by a shutdown. -/
def shutdownCall : List Label := allocatingRun ++ [.user 0 (.call .shutdown)]

def untilShutDown : List Label :=
  [.run 0 {},.run 0 { fuel := 50 },.run 0 {},.user 0 .finalizerReturns,.run 0 {},.run 0 {},
    .run 0 {},.run 0 {}]

theorem shutdown_empties_shutdownCall :
    ∃ log new, EmptiedSince log new (worldAfter (shutdownCall ++ untilShutDown)) := by
  obtain ⟨⟨_,_,_,u',new,-,-,-,-,-,-,hnew⟩,-⟩ :=
    @shutdown_empties _ _ (reachable_worldAfter shutdownCall) 0 .enter [] untilShutDown
      (by decide +kernel) (by decide +kernel)
      (worldAfter_run shutdownCall untilShutDown (by decide +kernel)) (by decide +kernel)
      (And.intro (by decide +kernel) (by decide +kernel))
  exact ⟨u'.log,new,hnew⟩

/-- The finalizer of the only block allocates another one. -/
def allocatingFinalizer : List Label :=
  [.run 0 {},.run 0 { fuel := 50 },.run 0 {},.user 0 (.call (.mallocInternal 16 16 none false)),
    .run 0 {},.run 0 { region := 8192 },.run 0 {},.user 0 .finalizerReturns,.run 0 {},.run 0 {},
    .run 0 {},.run 0 {}]

/-- What a finalizer allocates is live when the shutdown returns. -/
theorem live_after_shutdown : ¬ ∀ (w w' : World) (thread : ThreadId) (stage : Stage)
    (rest : List Frame) (labels : List Label), ReachableWorld w →
      (∀ b ∈ w.state.allocations.values, b.constructing = false) →
      w.control thread = .entering (.call .shutdown) stage :: rest →
      w.state.collectorThread ≠ some thread → run step labels w = some w' →
      Inside thread rest labels w → ReturnedOk w' thread rest →
        w'.state.allocations.values = [] := by
  intro hempties
  have hlive := hempties (worldAfter shutdownCall)
    (worldAfter (shutdownCall ++ allocatingFinalizer)) 0 .enter [] allocatingFinalizer
    (reachable_worldAfter _) (by decide +kernel) (by decide +kernel) (by decide +kernel)
    (worldAfter_run _ _ (by decide +kernel)) (by decide +kernel) (And.intro (by decide +kernel) (by decide +kernel))
  revert hlive
  decide +kernel

end GcLib.Properties
