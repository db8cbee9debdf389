import GcLib.Protocol.Calls
import GcLib.Protocol.Changes
import GcLib.Properties.BlockLifecycle

/-! # Conservation of the statistics

A ledger counts, without bounds, what the registering section of an allocation publishes, what the
windows of collections detach and what `release_unconstructed` erases since the start of a run or
the last completed shutdown. Nothing else moves a block into the registry or out of it, so the
ledger balances with what is live. The statistics are the ledger, saturated or taken modulo the
size of a word.
-/

namespace GcLib.Properties
open GcLib.Heap GcLib.Support GcLib.Protocol

def bytesOf (s : State) (headers : List ℕ) : ℕ :=
  (headers.map fun header => (s.header header).size).sum

/-- The events that a step adds to the log. -/
def newEvents (w w' : World) : List Event := w'.log.drop w.log.length

/-- The block of a registering section that logs its registration. -/
def registeredIn (label : Label) (w w' : World) : List ℕ :=
  match w.control label.thread with
  | .entering (.publish header _) _ :: _ =>
    if newEvents w w' = [.registered (w'.state.serial header)] then [header] else []
  | _ => []

/-- The batch of a collection whose window completes. -/
def collectedIn (label : Label) (w w' : World) : List ℕ :=
  match w.control label.thread, w'.control label.thread with
  | .waiting .collect :: _, .destroying blocks _ :: _ => blocks
  | _, _ => []

/-- The block of a `release_unconstructed` that logs its release. -/
def withdrawnIn (label : Label) (w w' : World) : List ℕ :=
  match w.control label.thread with
  | .entering (.call (.releaseUnconstructed payload)) _ :: _ =>
    match w.state.allocations.find? payload with
    | some block =>
      if newEvents w w' = [.released (w.state.serial block.header)] then [block.header] else []
    | none => []
  | _ => []

structure Ledger where
  registrations : ℕ := 0
  registeredBytes : ℕ := 0
  collectedBlocks : ℕ := 0
  collectedBytes : ℕ := 0
  withdrawnBlocks : ℕ := 0
  withdrawnBytes : ℕ := 0
  peakBytes : ℕ := 0
  peakBlocks : ℕ := 0
  deriving DecidableEq, Repr

/-- Enters the blocks of one step. -/
def Ledger.move (ledger : Ledger) (s s' : State) (entered collected withdrawn : List ℕ) :
    Ledger where
  registrations := ledger.registrations+entered.length
  registeredBytes := ledger.registeredBytes+bytesOf s entered
  collectedBlocks := ledger.collectedBlocks+collected.length
  collectedBytes := ledger.collectedBytes+bytesOf s collected
  withdrawnBlocks := ledger.withdrawnBlocks+withdrawn.length
  withdrawnBytes := ledger.withdrawnBytes+bytesOf s withdrawn
  peakBytes := max ledger.peakBytes s'.managedBytes
  peakBlocks := max ledger.peakBlocks s'.allocations.size

/-- A completed shutdown starts a new ledger. -/
def Ledger.record (ledger : Ledger) (label : Label) (w w' : World) : Ledger :=
  if (completedWindow .shutdown label w w').isSome then {}
  else ledger.move w.state w'.state (registeredIn label w w') (collectedIn label w w')
    (withdrawnIn label w w')

/-- The ledger of a run. -/
def ledgerOf : List Label → World → Ledger → Ledger
  | [], _, ledger => ledger
  | label :: labels, w, ledger =>
    match step label w with
    | none => ledger
    | some w' => ledgerOf labels w' (ledger.record label w w')

/-- The statistics agree with a ledger, and the ledger with what is live. -/
structure Balanced (s : State) (ledger : Ledger) : Prop where
  totalAllocations : s.stats.totalAllocations = min sizeMax ledger.registrations
  bytesAllocatedTotal : s.stats.bytesAllocatedTotal = min sizeMax ledger.registeredBytes
  bytesReclaimedTotal : s.stats.bytesReclaimedTotal = ledger.collectedBytes % addressLimit
  blocks : ledger.registrations =
    s.allocations.size+ledger.collectedBlocks+ledger.withdrawnBlocks
  bytes : ledger.registeredBytes =
    s.managedBytes+ledger.collectedBytes+ledger.withdrawnBytes
  peakLiveBytes : s.stats.peakLiveBytes = ledger.peakBytes
  peakLiveBlocks : s.stats.peakLiveBlocks = ledger.peakBlocks
  bytes_le : s.managedBytes ≤ ledger.peakBytes
  blocks_le : s.allocations.size ≤ ledger.peakBlocks

theorem saturatingAdd_min {total n : ℕ} (hn : n ≤ sizeMax) :
    saturatingAdd (min sizeMax total) n = min sizeMax (total+n) := by
  unfold saturatingAdd addWouldOverflow
  simp only [decide_eq_true_eq]
  split_ifs <;> omega

theorem wrapAdd_mod {total n : ℕ} : wrapAdd (total % addressLimit) n = (total+n) % addressLimit := by
  unfold wrapAdd
  rw [Nat.mod_add_mod]

/-- What one step registers and removes, and the statistics it keeps of that. -/
structure Accounted (s s' : State) (entered collected withdrawn : List ℕ) : Prop where
  blocks : (entered ++ registered s).Perm (collected ++ (withdrawn ++ registered s'))
  bytes : bytesOf s entered+s.managedBytes =
    bytesOf s collected+(bytesOf s withdrawn+s'.managedBytes)
  totalAllocations : ∀ n, s.stats.totalAllocations = min sizeMax n →
    s'.stats.totalAllocations = min sizeMax (n+entered.length)
  bytesAllocatedTotal : ∀ n, s.stats.bytesAllocatedTotal = min sizeMax n →
    s'.stats.bytesAllocatedTotal = min sizeMax (n+bytesOf s entered)
  bytesReclaimedTotal : ∀ n, s.stats.bytesReclaimedTotal = n % addressLimit →
    s'.stats.bytesReclaimedTotal = (n+bytesOf s collected) % addressLimit
  peakLiveBytes : s'.stats.peakLiveBytes = max s.stats.peakLiveBytes s'.managedBytes ∨
    s'.stats.peakLiveBytes = s.stats.peakLiveBytes ∧ s'.managedBytes ≤ s.managedBytes
  peakLiveBlocks : s'.stats.peakLiveBlocks = max s.stats.peakLiveBlocks s'.allocations.size ∨
    s'.stats.peakLiveBlocks = s.stats.peakLiveBlocks ∧ s'.allocations.size ≤ s.allocations.size

section
variable {s s' s₀ : State} {headers entered collected withdrawn : List ℕ}

theorem length_registered (s : State) : (registered s).length = s.allocations.size := by
  rw [registered, List.length_map, OrderedMap.size_eq_length_values]

@[simp] theorem bytesOf_nil (s : State) : bytesOf s [] = 0 := rfl

@[simp] theorem bytesOf_singleton (s : State) (header : ℕ) :
    bytesOf s [header] = (s.header header).size := by
  simp [bytesOf]

namespace Accounted

/-- The books do not see the protocol part of the state a step starts from. -/
theorem of_sameHeap (hs : SameHeap s₀ s) (h : Accounted s s' entered collected withdrawn) :
    Accounted s₀ s' entered collected withdrawn := by
  have hbytes : ∀ headers, bytesOf s headers = bytesOf s₀ headers := by
    intro headers
    simp only [bytesOf, hs.sameChunks.header]
  obtain ⟨hblocks,hb,htotal,hallocated,hreclaimed,hpeak,hpeak'⟩ := h
  rw [hs.registered] at hblocks
  rw [hs.managedBytes] at hb hpeak
  rw [hs.stats] at htotal hallocated hreclaimed hpeak hpeak'
  rw [hs.allocations] at hpeak'
  simp only [hbytes] at hb hallocated hreclaimed
  exact ⟨hblocks,hb,htotal,hallocated,hreclaimed,hpeak,hpeak'⟩

theorem stays (hr : registered s' = registered s) (hm : s'.managedBytes = s.managedBytes)
    (hs : s'.stats = s.stats) : Accounted s s' [] [] [] := by
  have hsize : s'.allocations.size = s.allocations.size := by
    rw [← length_registered, ← length_registered, hr]
  constructor
  · simp [hr]
  · simp [hm]
  · intro n hn
    rw [hs, hn]
    rfl
  · intro n hn
    rw [hs, hn]
    rfl
  · intro n hn
    rw [hs, hn]
    rfl
  · exact .inr ⟨congrArg GCStats.peakLiveBytes hs,hm.le⟩
  · exact .inr ⟨congrArg GCStats.peakLiveBlocks hs,hsize.le⟩

/-- A registration adds one block and its size. -/
theorem registers (hinv : HeapInvariant s) {header : ℕ} (hr : Registrable s header)
    (constructing : Bool) (hm : s.managedBytes+(s.header header).size < addressLimit) :
    Accounted s (s.publish header constructing) [header] [] [] := by
  obtain ⟨⟨chunk,hchunk⟩,hnew⟩ := hr
  have hperm : (registered (s.publish header constructing)).Perm ([header] ++ registered s) :=
    (hinv.publish_values hchunk hnew constructing).map BlockRecord.header
  have hmanaged : (s.publish header constructing).managedBytes =
      s.managedBytes+(s.header header).size := wrapAdd_of_lt hm
  have hfits : (s.header header).size ≤ sizeMax := by
    simp only [sizeMax, addressLimit] at hm ⊢
    omega
  have hone : 1 ≤ sizeMax := by simp [sizeMax]
  constructor
  · exact hperm.symm
  · simp only [bytesOf_singleton, bytesOf_nil, hmanaged]
    omega
  · intro n hn
    change saturatingAdd s.stats.totalAllocations 1 = _
    rw [hn, saturatingAdd_min hone]
    rfl
  · intro n hn
    change saturatingAdd s.stats.bytesAllocatedTotal (s.header header).size = _
    rw [hn, saturatingAdd_min hfits, bytesOf_singleton]
  · exact fun n hn => hn
  · exact .inl rfl
  · left
    simp only [State.publish, State.insertBlock, State.setConstructing, OrderedMap.modify,
      OrderedMap.size, List.length_map]
    rfl

/-- A step that takes blocks out of the registry. -/
theorem leaves (hp : (registered s).Perm (collected ++ (withdrawn ++ registered s')))
    (hm : s.managedBytes = bytesOf s collected+(bytesOf s withdrawn+s'.managedBytes))
    (hs : s'.stats.totalAllocations = s.stats.totalAllocations ∧
      s'.stats.bytesAllocatedTotal = s.stats.bytesAllocatedTotal ∧
      s'.stats.peakLiveBytes = s.stats.peakLiveBytes ∧
      s'.stats.peakLiveBlocks = s.stats.peakLiveBlocks)
    (hreclaimed : ∀ n, s.stats.bytesReclaimedTotal = n % addressLimit →
      s'.stats.bytesReclaimedTotal = (n+bytesOf s collected) % addressLimit) :
    Accounted s s' [] collected withdrawn := by
  have hsize := hp.length_eq
  simp only [List.length_append, length_registered] at hsize
  constructor
  · exact hp
  · simpa using hm
  · intro n hn
    rw [hs.1, hn]
    rfl
  · intro n hn
    rw [hs.2.1, hn]
    rfl
  · exact hreclaimed
  · exact .inr ⟨hs.2.2.1,by omega⟩
  · exact .inr ⟨hs.2.2.2,by omega⟩

end Accounted

/-- The books of a step carry the balance over. -/
theorem Balanced.move {ledger : Ledger} (h : Balanced s ledger)
    (ha : Accounted s s' entered collected withdrawn) :
    Balanced s' (ledger.move s s' entered collected withdrawn) := by
  have hblocks := ha.blocks.length_eq
  simp only [List.length_append, length_registered] at hblocks
  have hbytes := ha.bytes
  have hb := h.blocks
  have hb' := h.bytes
  constructor
  · exact ha.totalAllocations _ h.totalAllocations
  · exact ha.bytesAllocatedTotal _ h.bytesAllocatedTotal
  · exact ha.bytesReclaimedTotal _ h.bytesReclaimedTotal
  · simp only [Ledger.move]
    omega
  · simp only [Ledger.move]
    omega
  · rcases ha.peakLiveBytes with hpeak | ⟨hpeak,hle⟩
    · rw [hpeak, h.peakLiveBytes]
      rfl
    · rw [hpeak, h.peakLiveBytes]
      exact (max_eq_left (hle.trans h.bytes_le)).symm
  · rcases ha.peakLiveBlocks with hpeak | ⟨hpeak,hle⟩
    · rw [hpeak, h.peakLiveBlocks]
      rfl
    · rw [hpeak, h.peakLiveBlocks]
      exact (max_eq_left (hle.trans h.blocks_le)).symm
  · exact le_max_right ..
  · exact le_max_right ..

end

section
variable {w w' : World} {label : Label} {ledger : Ledger}

theorem newEvents_of_log {events : List Event} (h : w'.log = w.log ++ events) :
    newEvents w w' = events := by
  simp [newEvents, h]

theorem registeredIn_eq_nil (h : ∀ serial, .registered serial ∉ newEvents w w') :
    registeredIn label w w' = [] := by
  unfold registeredIn
  split
  · apply if_neg
    intro he
    apply h
    rw [he]
    exact List.mem_singleton_self _
  · rfl

theorem withdrawnIn_eq_nil (h : ∀ serial, .released serial ∉ newEvents w w') :
    withdrawnIn label w w' = [] := by
  unfold withdrawnIn
  split
  · split
    · apply if_neg
      intro he
      apply h
      rw [he]
      exact List.mem_singleton_self _
    · rfl
  · rfl

/-- Beside a completed shutdown, blocks enter the registry in a registering section and leave it in
the window of a collection or in `release_unconstructed`, and in no other step. -/
theorem accounted_step (hr : ReachableWorld w) (hstep : step label w = some w')
    (hno : completedWindow .shutdown label w w' = none) :
    Accounted w.state w'.state (registeredIn label w w') (collectedIn label w w')
      (withdrawnIn label w w') := by
  have hinv := hr.invariant
  cases hr.heapChange hstep with
  | quiet ha hw hm hrb hs hn hl =>
    obtain ⟨events,hlog,houtside⟩ := hl
    have hevents := newEvents_of_log hlog
    have hcollected : collectedIn label w w' = [] := by
      unfold collectedIn
      split
      · rename_i hc hc'
        exact absurd hc' (hn _ _ _ _ _ hc)
      · rfl
    rw [hcollected, registeredIn_eq_nil, withdrawnIn_eq_nil]
    · exact .stays (congrArg (fun m : OrderedMap ℕ BlockRecord => m.values.map _) ha) hm hs
    · intro serial hmem
      rw [hevents] at hmem
      cases houtside _ hmem
    · intro serial hmem
      rw [hevents] at hmem
      cases houtside _ hmem
  | «section» hc hco he hc' hl =>
    rename_i code stage rest s next
    have hs := hco.sameHeap
    have hheap := hs.heapInvariant hinv.heap
    have hpublish := hco.registrable hinv.ownership hc
    have hevents := newEvents_of_log hl
    have hcollected : collectedIn label w w' = [] := by simp [collectedIn, hc]
    have hsilent : code.events s w'.state next = [] → registered w'.state = registered s →
        w'.state.managedBytes = s.managedBytes → w'.state.stats = s.stats →
        Accounted w.state w'.state (registeredIn label w w') (collectedIn label w w')
          (withdrawnIn label w w') := by
      intro hnone hregistered hm hstats
      rw [hcollected, registeredIn_eq_nil, withdrawnIn_eq_nil]
      · exact .of_sameHeap hs (.stays hregistered hm hstats)
      · simp [hevents, hnone]
      · simp [hevents, hnone]
    generalize hs' : w'.state = s' at he hevents hsilent ⊢
    cases he with
    | publish hreg hm ht =>
      rename_i header constructing
      have hentered : registeredIn label w w' = [header] := by
        simp [registeredIn, hc, hevents, hs', Section.events]
      rw [hcollected, hentered, show withdrawnIn label w w' = [] by simp [withdrawnIn, hc]]
      exact .of_sameHeap hs (.registers hheap (hpublish _ _ rfl) _ hm)
    | release hreg hf =>
      rename_i payload block
      have hlive : block ∈ s.allocations.values :=
        OrderedMap.mem_values.mpr ⟨_,OrderedMap.find?_eq_some.mp hf⟩
      have hremoved := HeapInvariant.removed_removeBlock s block
      have hdead : ∀ b ∈ [block], b ∈ s.allocations.values := by simpa using hlive
      have hperm := hremoved.values_perm hheap hdead (List.nodup_singleton block)
      have hmanaged := (hremoved.managedBytes_eq hheap hdead (List.nodup_singleton block)).1
      have hwithdrawn : withdrawnIn label w w' = [block.header] := by
        simp [withdrawnIn, hc, ← hs.allocations, hf, hevents, Section.events, hs.sameChunks.serial]
      rw [hcollected, hwithdrawn, show registeredIn label w w' = [] by simp [registeredIn, hc]]
      apply Accounted.of_sameHeap hs
      apply Accounted.leaves
      · exact hperm.map BlockRecord.header
      · rw [hmanaged]
        simp [bytesOf, State.payloadSum]
      · exact ⟨rfl,rfl,rfl,rfl⟩
      · exact fun n hn => hn
    | finish hf => exact hsilent rfl (s.headers_setConstructing _ _) rfl rfl
    | _ => exact hsilent rfl rfl rfl rfl
  | window hc he hc' hl =>
    rename_i call rest env blocks
    rw [show registeredIn label w w' = [] by simp [registeredIn, hc],
      show withdrawnIn label w w' = [] by simp [withdrawnIn, hc]]
    have hperm := he.detaches hinv.heap
    cases call with
    | collect =>
      rw [show collectedIn label w w' = blocks by simp [collectedIn, hc, hc']]
      generalize w'.state = s' at he hperm ⊢
      cases he with
      | collect hcollected =>
        rename_i dead
        obtain ⟨order,rfl,hsafe⟩ := hcollected.order
        have hbytes : bytesOf w.state (order.map BlockRecord.header) =
            w.state.payloadSum dead := by
          rw [bytesOf, List.map_map]
          exact (hsafe.perm.map _).sum_eq
        have hstats := hcollected.stats
        apply Accounted.leaves hperm
        · rw [hbytes, bytesOf_nil, Nat.zero_add]
          exact hcollected.managedBytes_eq hinv.heap
        · rw [hstats]
          exact ⟨rfl,rfl,rfl,rfl⟩
        · intro n hn
          rw [hstats, hbytes, ← hcollected.bytesFreed_eq hinv.heap]
          change wrapAdd w.state.stats.bytesReclaimedTotal _ = _
          rw [hn, wrapAdd_mod]
    | shutdown => simp [completedWindow, hc, hc'] at hno
    | liveObjects | objectInfo =>
      generalize w'.state = s' at he
      cases he

theorem balanced_of_shutdown (hr : ReachableWorld w) (hstep : step label w = some w')
    (hshutdown : (completedWindow .shutdown label w w').isSome = true) : Balanced w'.state {} := by
  obtain ⟨⟨thread,rest⟩,hentry⟩ := Option.isSome_iff_exists.mp hshutdown
  obtain ⟨rfl,blocks,pending,above,hc,hc'⟩ := completedWindow_eq_some hentry
  cases hr.heapChange hstep with
  | quiet ha hw hm hrb hs hn => exact absurd hc' (hn _ _ _ _ _ hc)
  | «section» hc'' =>
    rw [hc] at hc''
    cases hc''
  | window hc'' he =>
    rw [hc] at hc''
    cases hc''
    generalize w'.state = s' at he
    cases he
    constructor <;> rfl

/-- Every step keeps the balance. -/
theorem Balanced.record (h : Balanced w.state ledger) (hr : ReachableWorld w)
    (hstep : step label w = some w') : Balanced w'.state (ledger.record label w w') := by
  unfold Ledger.record
  split_ifs with hshutdown
  · exact balanced_of_shutdown hr hstep hshutdown
  · exact h.move (accounted_step hr hstep (by simpa using hshutdown))

theorem Balanced.run : ∀ {labels : List Label} {w w' : World} {ledger : Ledger},
    Balanced w.state ledger → ReachableWorld w → run step labels w = some w' →
      Balanced w'.state (ledgerOf labels w ledger)
  | [], w, w', ledger, h, _, hrun => by
    cases hrun
    exact h
  | label :: labels, w, w', ledger, h, hr, hrun => by
    obtain ⟨w₁,hstep,hrest⟩ := Option.bind_eq_some_iff.mp hrun
    rw [ledgerOf, hstep]
    exact Balanced.run (h.record hr hstep) (hr.step hstep) hrest

end

/-- The statistics of every run against the ledger of its current period, and what one more step
moves into the registry and out of it. -/
theorem diagnostics_conservation {memory : Memory} {labels : List Label} {w : World}
    (hrun : run step labels (.initial memory) = some w) :
    let ledger := ledgerOf labels (.initial memory) {}
    let stats := w.state.snapshot
    stats.totalAllocations = min sizeMax ledger.registrations ∧
    stats.bytesAllocatedTotal = min sizeMax ledger.registeredBytes ∧
    ledger.registrations = stats.liveBlocks+ledger.collectedBlocks+ledger.withdrawnBlocks ∧
    ledger.registeredBytes = stats.liveBytes+ledger.collectedBytes+ledger.withdrawnBytes ∧
    stats.bytesReclaimedTotal = ledger.collectedBytes % addressLimit ∧
    stats.peakLiveBytes = ledger.peakBytes ∧ stats.peakLiveBlocks = ledger.peakBlocks ∧
    ∀ label w', step label w = some w' → completedWindow .shutdown label w w' = none →
      (registeredIn label w w' ++ registered w.state).Perm
        (collectedIn label w w' ++ (withdrawnIn label w w' ++ registered w'.state)) := by
  have hstart : Balanced (World.initial memory).state {} := by
    constructor <;> rfl
  have hinit : ReachableWorld (.initial memory) := .of_init ⟨memory,rfl⟩
  have h := hstart.run hinit hrun
  exact ⟨h.totalAllocations,h.bytesAllocatedTotal,h.blocks,h.bytes,h.bytesReclaimedTotal,
    h.peakLiveBytes,h.peakLiveBlocks,
    fun label w' hstep hno => (accounted_step (hinit.run hrun) hstep hno).blocks⟩

/-- Of three blocks one is withdrawn, one is rooted and one collected. -/
def bookedRun : List Label :=
  retiredRun ++ [.run 0 {},.user 0 (.call (.registerRootRange 256 264)),.run 0 {},
    .user 0 (.storeByte 256 32),.user 0 (.storeByte 257 16),.user 0 (.call .collect),.run 0 {},
    .run 0 { fuel := 50 }]

theorem diagnostics_conservation_bookedRun :
    let ledger := ledgerOf bookedRun (.initial fun _ => 0) {}
    let stats := (worldAfter bookedRun).state.snapshot
    (ledger.collectedBlocks = 1 ∧ ledger.withdrawnBlocks = 1 ∧ stats.liveBlocks = 1) ∧
      ledger.registrations = stats.liveBlocks+ledger.collectedBlocks+ledger.withdrawnBlocks ∧
      ledger.registeredBytes = stats.liveBytes+ledger.collectedBytes+ledger.withdrawnBytes := by
  have h := diagnostics_conservation (run_worldAfter bookedRun (by decide +kernel))
  exact ⟨by decide +kernel,h.2.2.1,h.2.2.2.1⟩

end GcLib.Properties
