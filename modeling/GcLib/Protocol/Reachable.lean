import GcLib.Protocol.Ownership
import GcLib.Support.TransitionSystem

/-! # The invariant of every run

Each transition is one move of blocks and keeps the heap invariant. With the protocol
invariant this is inductive, so it holds in every world any interleaving reaches.
-/

namespace GcLib.Protocol
open GcLib.Heap GcLib.Support

/-- Nothing but the protocol part of the state may differ. -/
def SameHeap (s s' : State) : Prop :=
  { s' with
    threads := s.threads
    registeredRootRanges := s.registeredRootRanges
    collectorThread := s.collectorThread
    stopTheWorldRequested := s.stopTheWorldRequested
    collecting := s.collecting } = s

namespace SameHeap
variable {s s' : State}

theorem eq (h : SameHeap s s') : { s' with
    threads := s.threads
    registeredRootRanges := s.registeredRootRanges
    collectorThread := s.collectorThread
    stopTheWorldRequested := s.stopTheWorldRequested
    collecting := s.collecting } = s := h

theorem allocations (h : SameHeap s s') : s'.allocations = s.allocations :=
  (congrArg State.allocations h.eq :)

theorem weakRefs (h : SameHeap s s') : s'.weakRefs = s.weakRefs :=
  (congrArg State.weakRefs h.eq :)

theorem memory (h : SameHeap s s') : s'.memory = s.memory := (congrArg State.memory h.eq :)

theorem managedBytes (h : SameHeap s s') : s'.managedBytes = s.managedBytes :=
  (congrArg State.managedBytes h.eq :)

theorem reservedBytes (h : SameHeap s s') : s'.reservedBytes = s.reservedBytes :=
  (congrArg State.reservedBytes h.eq :)

theorem stats (h : SameHeap s s') : s'.stats = s.stats := (congrArg State.stats h.eq :)

theorem sameChunks (h : SameHeap s s') : SameChunks s s' :=
  ⟨(congrArg State.chunks h.eq :),(congrArg State.nextSerial h.eq :)⟩

theorem registered (h : SameHeap s s') : registered s' = registered s := by
  simp only [Protocol.registered, h.allocations]

theorem heapInvariant (h : SameHeap s s') (hheap : HeapInvariant s) : HeapInvariant s' :=
  hheap.congr h.allocations h.sameChunks.chunks (congrArg State.managedBytes h.eq :)
    (congrArg State.reservedBytes h.eq :)

end SameHeap

section
variable {thread : ThreadId} {s s' : State} {code : Section} {stage : Stage} {next : Next}

theorem Published.sameHeap (h : Published s code s') : SameHeap s s' := by
  cases h <;> rfl

theorem Cooperated.sameHeap (h : Cooperated thread s code stage s') : SameHeap s s' := by
  cases h with
  | enter hp => exact hp.sameHeap
  | blocked | spilling | parked => rfl

theorem Stalled.sameHeap {stage' : Stage} (h : Stalled thread s code stage s' stage') :
    SameHeap s s' := by
  cases h with
  | spill hp => exact hp.sameHeap
  | block hp => exact hp.sameHeap
  | park | reblock => rfl

/-- A header whose registration is under way. -/
structure Registrable (s : State) (header : ℕ) : Prop where
  chunk : ∃ chunk, s.chunks.find? header = some chunk
  new : ∀ b ∈ s.allocations.values, b.header ≠ header

theorem Effect.heapInvariant (h : Effect thread s code next s') (hheap : HeapInvariant s)
    (hpublish : ∀ header constructing, code = .publish header constructing →
      Registrable s header) : HeapInvariant s' := by
  cases h with
  | publish hr hm ht =>
    obtain ⟨⟨chunk,hc⟩,hnew⟩ := hpublish _ _ rfl
    exact hheap.publish hc hnew hm ht _
  | finish hf => exact hheap.setConstructing _ _
  | release hr hf =>
    exact hheap.removeBlock (OrderedMap.mem_values.mpr ⟨_,OrderedMap.find?_eq_some.mp hf⟩)
  | read | collect | allocate => exact hheap
  | _ => exact hheap.congr rfl rfl rfl rfl

/-- Apart from a registration and a release, a section moves no block. -/
inductive SectionMove (s : State) (code : Section) (next : Next) (s' : State) : Prop where
  | stays (hr : registered s' = registered s) (hc : Frame.custody (.entering code .enter) = [])
      (hn : ∀ header, next ≠ .free header)
  | registers {header : ℕ} {constructing : Bool} {value : Value}
      (hr : (registered s').Perm (header :: registered s))
      (hc : code = .publish header constructing) (hn : next = .done value)
  | withdraws {call : Call} {header : ℕ} (hr : (registered s).Perm (header :: registered s'))
      (hc : code = .call call) (hn : next = .free header)

theorem Effect.sameChunks (h : Effect thread s code next s') : SameChunks s s' := by
  cases h <;> exact ⟨rfl,rfl⟩

theorem Effect.sectionMove (h : Effect thread s code next s') (hheap : HeapInvariant s)
    (hpublish : ∀ header constructing, code = .publish header constructing →
      Registrable s header) : SectionMove s code next s' := by
  cases h with
  | publish hr hm ht =>
    obtain ⟨⟨chunk,hc⟩,hnew⟩ := hpublish _ _ rfl
    exact .registers ((hheap.publish_values hc hnew _).map BlockRecord.header) rfl rfl
  | finish hf =>
    exact .stays (s.headers_setConstructing _ _) rfl (fun _ h => by cases h)
  | release hr hf =>
    rename_i payload block
    have hlive : block ∈ s.allocations.values :=
      OrderedMap.mem_values.mpr ⟨_,OrderedMap.find?_eq_some.mp hf⟩
    have hperm := (HeapInvariant.removed_removeBlock s block).values_perm hheap
      (by simpa using hlive) (List.nodup_singleton block)
    exact .withdraws (hperm.map BlockRecord.header) rfl rfl
  | _ => exact .stays rfl rfl (fun _ h => by cases h)

theorem custody_entering (code : Section) (stage : Stage) :
    Frame.custody (.entering code stage) = Frame.custody (.entering code .enter) := by
  cases code <;> rfl

theorem custody_proceeded {rest : List Frame} (hn : ∀ header, next ≠ .free header) :
    custody (proceeded rest next) = custody rest := by
  cases next with
  | done value => exact custody_resumed rest true
  | free header => exact absurd rfl (hn header)
  | _ => rfl

theorem events_of_stays {code : Section} (hc : Frame.custody (.entering code .enter) = [])
    (hn : ∀ header, next ≠ .free header) : code.events s s' next = [] := by
  cases code with
  | publish header constructing => cases hc
  | call call =>
    cases next with
    | free header => exact absurd rfl (hn header)
    | _ => rfl

/-- A completed window hands its blocks over to the batch. -/
theorem WindowEffect.detaches {env : ScanEnvironment} {call : WindowCall} {blocks : List ℕ}
    (h : WindowEffect thread env s call (.destroy blocks) s') (hheap : HeapInvariant s) :
    (registered s).Perm (blocks ++ registered s') := by
  cases h with
  | collect h =>
    obtain ⟨order,rfl,ho⟩ := h.order
    have hperm := h.removed.values_perm hheap h.dead_mem (h.dead_nodup hheap)
    have hmap := hperm.map BlockRecord.header
    rw [List.map_append] at hmap
    exact hmap.trans ((ho.perm.map BlockRecord.header).symm.append_right _)
  | shutdown hc hb ho =>
    subst hb
    have hnil : registered s.shutDown = [] := rfl
    rw [hnil, List.append_nil]
    exact (ho.perm.map BlockRecord.header).symm

theorem WindowEffect.heapInvariant {env : ScanEnvironment} {call : WindowCall}
    {after : Afterwards} (h : WindowEffect thread env s call after s') (hheap : HeapInvariant s) :
    HeapInvariant s' := by
  cases h with
  | collect h => exact h.invariant hheap
  | shutdown => exact hheap.shutDown
  | read => exact hheap

theorem WindowEffect.sameChunks {env : ScanEnvironment} {call : WindowCall}
    {after : Afterwards} (h : WindowEffect thread env s call after s') : SameChunks s s' := by
  cases h with
  | collect h =>
    exact ⟨(congrArg State.chunks h.removed.frame :),(congrArg State.nextSerial h.removed.frame :)⟩
  | shutdown => exact ⟨rfl,rfl⟩
  | read => exact .refl s

end

section
variable {w w' : World} {thread : ThreadId}

theorem Ownership.registrable (h : Ownership w) {header : ℕ} {constructing : Bool} {stage : Stage}
    {rest : List Frame}
    (hc : w.control thread = .entering (.publish header constructing) stage :: rest) :
    Registrable w.state header := by
  have hheld : header ∈ held (w.control thread) := by
    rw [hc]
    exact List.mem_cons_self
  exact ⟨h.held_chunk thread hheld,h.held_new thread hheld⟩

theorem Cooperated.registrable (ho : Ownership w) {code : Section} {stage : Stage} {s : State}
    {rest : List Frame} (hc : w.control thread = .entering code stage :: rest)
    (hco : Cooperated thread w.state code stage s) :
    ∀ header constructing, code = .publish header constructing → Registrable s header := by
  rintro header constructing rfl
  obtain ⟨hchunk,hnew⟩ := ho.registrable hc
  have hs := hco.sameHeap
  exact ⟨hs.sameChunks.chunks ▸ hchunk,hs.allocations ▸ hnew⟩

theorem Failed.same {s s' : State} {code : Section} (h : Failed s code s') :
    SameChunks s s' ∧ s'.allocations = s.allocations ∧ s'.managedBytes = s.managedBytes ∧
      s'.reservedBytes = s.reservedBytes := by
  cases h <;> exact ⟨⟨rfl,rfl⟩,rfl,rfl,rfl⟩

theorem Failed.heapInvariant {s s' : State} {code : Section} (h : Failed s code s')
    (hheap : HeapInvariant s) : HeapInvariant s' :=
  hheap.congr h.same.2.1 h.same.1.chunks h.same.2.2.1 h.same.2.2.2

theorem Failed.registered {s s' : State} {code : Section} (h : Failed s code s') :
    registered s' = registered s := by
  simp only [Protocol.registered, h.same.2.1]

theorem Transition.move (h : ProtocolInvariant w) (hheap : HeapInvariant w.state)
    (ho : Ownership w) (ht : Transition thread w w') : Move thread w w' := by
  have hvalid : ∀ {frame : Frame} {rest : List Frame}, w.control thread = frame :: rest →
      frame.Valid := fun hc => (h.thread thread).valid _ (by rw [hc]; exact List.mem_cons_self)
  have hbatch : ∀ {blocks pending : List ℕ} {header : ℕ} {rest : List Frame},
      w.control thread = .destroying blocks (header :: pending) :: rest →
      ∃ left right, custody (w.control thread) = left ++ (header,.detached) :: right ∧
        batchCustody blocks pending ++ custody rest = left ++ (header,.finalized) :: right ∧
        ∀ entry ∈ left, entry.2 = .finalized := by
    intro blocks pending header rest hc
    have hheld := (List.nodup_append.mp (ho.nodup thread)).2.1
    have hmap : held (w.control thread) = blocks ++ held rest := by
      rw [hc, held, custody_cons, List.map_append]
      change (batchCustody blocks _).map _ ++ _ = _
      rw [batchCustody, List.map_map]
      exact congrArg (· ++ held rest) (List.map_id blocks)
    rw [hmap] at hheld
    obtain ⟨left,right,h₁,h₂,hleft⟩ :=
      batchCustody_cons (List.nodup_append.mp hheld).1 (hvalid hc)
    refine ⟨left,right ++ custody rest,?_,?_,hleft⟩
    · rw [hc, custody_cons]
      change batchCustody blocks _ ++ _ = _
      rw [h₁]
      simp
    · rw [h₂]
      simp
  cases ht with
  | store address value hu => exact .stays ⟨rfl,rfl⟩ rfl rfl rfl
  | immediate hi hu => exact .stays ⟨rfl,rfl⟩ rfl rfl rfl
  | call hw hi hu => exact .stays ⟨rfl,rfl⟩ rfl (by simp [World.setControl, Frame.custody]) rfl
  | finalizerReturns hc =>
    exact .stays ⟨rfl,rfl⟩ rfl (by simp [World.setControl, hc, Frame.custody]) rfl
  | runsSection hc hco hrun =>
    rename_i code stage rest s s' fuel supply supply' next
    have he := effect_of_run hheap hco hrun
    have hs := hco.sameHeap
    have hchunks := hs.sameChunks.trans he.sameChunks
    have hreg := hs.registered
    have htop := custody_entering code stage
    cases he.sectionMove (hs.heapInvariant hheap) (hco.registrable ho hc) with
    | stays hr hcode hn =>
      refine .stays (by simpa [World.emit, World.setState] using hchunks)
        (by simpa [World.emit, World.setState, hreg] using hr) ?_ ?_
      · rw [proceed_control, Function.update_self, custody_proceeded hn, hc, custody_cons, htop,
          hcode, List.nil_append]
      · rw [proceed_log]
        simp [World.emit, World.setState, events_of_stays hcode hn]
    | registers hr hcode hn =>
      rename_i header constructing value
      subst hcode hn
      refine .registers header (by simpa [World.emit, World.setState] using hchunks)
        (by simpa [World.emit, World.setState, hreg] using hr) ?_ ?_
      · rw [proceed_control, Function.update_self, hc, proceeded, custody_resumed]
        rfl
      · rw [proceed_log]
        simp only [World.emit, World.setState, Section.events, hchunks.serial]
    | withdraws hr hcode hn =>
      rename_i call header
      subst hcode hn
      refine .withdraws header (by simpa [World.emit, World.setState] using hchunks)
        (by simpa [World.emit, World.setState, hreg] using hr) ?_ ?_
      · rw [proceed_control, Function.update_self, hc]
        rfl
      · rw [proceed_log]
        simp only [World.emit, World.setState, Section.events, hs.sameChunks.serial]
  | callThrows hc hco hrun =>
    have hf := failed_of_run hheap hco hrun
    have hs := hco.sameHeap
    refine .stays ?_ ?_ ?_ (deliver_log _)
    · rw [deliver_state]
      exact hs.sameChunks.trans hf.same.1
    · rw [deliver_state]
      exact hf.registered.trans hs.registered
    · rw [deliver_control, Function.update_self, custody_resumed, hc]
      rfl
  | publishThrows hc hco hrun =>
    rename_i header constructing stage rest s s' fuel supply e
    have hf := failed_of_run hheap hco hrun
    have hs := hco.sameHeap
    have hchunks := hs.sameChunks.trans hf.same.1
    refine .frees header .placed (by simp) ?_ ?_ ?_ ?_ ?_
    · rw [deliver_state]
      exact congrArg (·.erase header) hchunks.chunks
    · rw [deliver_state]
      exact hchunks.nextSerial
    · rw [deliver_state]
      exact hf.registered.trans hs.registered
    · rw [deliver_control, Function.update_self, custody_resumed, hc]
      rfl
    · rw [deliver_log]
      simp only [World.freeBlock, World.emit, World.setState, hchunks.serial]
  | prologueThrows hc =>
    refine .stays ?_ ?_ ?_ (deliver_log _)
    · rw [deliver_state]
      exact .refl _
    · rw [deliver_state]
    · rw [deliver_control, Function.update_self, custody_resumed, hc]
      rfl
  | stalls hc hs =>
    rename_i code stage stage' rest s
    refine .stays hs.sameHeap.sameChunks hs.sameHeap.registered ?_ rfl
    simp only [World.setControl, Function.update_self]
    rw [hc, custody_cons, custody_cons, custody_entering code stage', custody_entering code stage]
  | windowDestroys hc hp hm hrun =>
    rename_i call rest fuel env supply supply' blocks s
    have he := (meets_windowBody hheap (h.rootsInSpace hm) _ _).returns hrun
    refine .detaches blocks he.sameChunks (he.detaches hheap) ?_ ?_
    · simp only [World.setControl, Function.update_self]
      rw [hc, custody_cons, custody_cons]
      exact congrArg (· ++ custody rest) (batchCustody_self blocks)
    · simp only [World.setControl, World.emit, World.setState, he.sameChunks.serial]
  | windowReturns hc hp hm hrun =>
    cases (meets_windowBody hheap (h.rootsInSpace hm) _ _).returns hrun
    exact .stays (.refl _) rfl (by simp [World.setControl, hc, Frame.custody]) rfl
  | windowThrows hc hp hm hrun =>
    have he := (meets_windowBody hheap (h.rootsInSpace hm) _ _).throws hrun
    refine .stays ⟨he.chunks,(congrArg State.nextSerial he.eq :)⟩ ?_ ?_ rfl
    · exact congrArg (fun m : OrderedMap ℕ BlockRecord => m.values.map BlockRecord.header)
        he.allocations
    · simp [World.setControl, hc, Frame.custody]
  | destroyed hc =>
    rename_i blocks rest
    refine .stays ⟨rfl,rfl⟩ rfl ?_ rfl
    simp only [World.setControl, Function.update_self]
    rw [hc, custody_cons, custody_cons]
    exact congrArg (· ++ custody rest) (batchCustody_nil blocks).symm
  | skips hc hd =>
    obtain ⟨left,right,h₁,h₂,hleft⟩ := hbatch hc
    refine .finalizes _ _ _ ⟨rfl,rfl⟩ rfl h₁ ?_ (by simp [hd, World.setControl]) hleft
    simp only [World.setControl, Function.update_self]
    exact h₂
  | finalizes hc hd =>
    obtain ⟨left,right,h₁,h₂,hleft⟩ := hbatch hc
    refine .finalizes _ _ _ ⟨rfl,rfl⟩ rfl h₁ ?_ (by simp [hd, World.setControl, World.emit]) hleft
    simp only [World.setControl, Function.update_self]
    exact h₂
  | freed hc => exact .stays ⟨rfl,rfl⟩ rfl (by simp [World.setControl, hc, Frame.custody]) rfl
  | frees hc =>
    exact .frees _ .finalized (by simp) rfl rfl rfl
      (by simp [World.setControl, hc, Frame.custody]) rfl
  | releases hc =>
    refine .stays ?_ ?_ ?_ (deliver_log _)
    · rw [deliver_state]
      exact ⟨rfl,rfl⟩
    · rw [deliver_state]
      rfl
    · rw [deliver_control, Function.update_self, custody_resumed, hc]
      rfl
  | outOfMemory hc =>
    refine .stays ?_ ?_ ?_ (deliver_log _)
    · rw [deliver_state]
      exact .refl _
    · rw [deliver_state]
    · rw [deliver_control, Function.update_self, custody_resumed, hc]
      rfl
  | retries hc => exact .stays ⟨rfl,rfl⟩ rfl (by simp [World.setControl, hc, Frame.custody]) rfl
  | places hc hf =>
    exact .places _ _ (hvalid hc) hf rfl (by simp [World.setControl, hc, Frame.custody]) rfl
  | freesBlock hc =>
    refine .frees _ .released (by simp) ?_ ?_ ?_ ?_ (deliver_log _)
    · rw [deliver_state]
      rfl
    · rw [deliver_state]
      rfl
    · rw [deliver_state]
      rfl
    · rw [deliver_control, Function.update_self, custody_resumed, hc]
      rfl

theorem Transition.heapInvariant (h : ProtocolInvariant w) (hheap : HeapInvariant w.state)
    (ho : Ownership w) (ht : Transition thread w w') : HeapInvariant w'.state := by
  have hvalid : ∀ {frame : Frame} {rest : List Frame}, w.control thread = frame :: rest →
      frame.Valid := fun hc => (h.thread thread).valid _ (by rw [hc]; exact List.mem_cons_self)
  cases ht with
  | store | releases => exact hheap.congr (by simp; rfl) (by simp; rfl) (by simp; rfl) (by simp; rfl)
  | immediate | call | finalizerReturns | destroyed | skips | finalizes | freed | retries =>
    exact hheap
  | runsSection hc hco hrun =>
    rw [proceed_state]
    exact (effect_of_run hheap hco hrun).heapInvariant (hco.heapInvariant hheap)
      (hco.registrable ho hc)
  | callThrows hc hco hrun =>
    rw [deliver_state]
    exact (failed_of_run hheap hco hrun).heapInvariant (hco.heapInvariant hheap)
  | publishThrows hc hco hrun =>
    rw [deliver_state]
    have hf := failed_of_run hheap hco hrun
    refine (hf.heapInvariant (hco.heapInvariant hheap)).freeBlockMemory ?_
    rw [hf.same.2.1]
    exact (hco.registrable ho hc _ _ rfl).new
  | prologueThrows hc | outOfMemory hc =>
    rw [deliver_state]
    exact hheap
  | stalls hc hs => exact hs.sameHeap.heapInvariant hheap
  | windowDestroys hc hp hm hrun | windowReturns hc hp hm hrun =>
    exact ((meets_windowBody hheap (h.rootsInSpace hm) _ _).returns hrun).heapInvariant hheap
  | windowThrows hc hp hm hrun =>
    exact ((meets_windowBody hheap (h.rootsInSpace hm) _ _).throws hrun).invariant hheap
  | frees hc =>
    exact hheap.freeBlockMemory (ho.held_new thread (by simp [hc, held, Frame.custody]))
  | places hc hf => exact hheap.placeHeader (hvalid hc) hf
  | freesBlock hc =>
    rw [deliver_state]
    exact hheap.freeBlockMemory (ho.held_new thread (by simp [hc, held, Frame.custody]))

end

/-- What holds in every world of every run. -/
structure Invariant (w : World) : Prop where
  protocol : ProtocolInvariant w
  heap : HeapInvariant w.state
  ownership : Ownership w

/-- The manager before its first use. -/
def Initial (w : World) : Prop := ∃ memory, w = .initial memory

/-- A world some interleaving of the threads leads to. -/
abbrev ReachableWorld (w : World) : Prop := Reachable step Initial w

theorem Invariant.initial (memory : Memory) : Invariant (.initial memory) where
  protocol := by
    refine ⟨rfl,by simp [World.initial, State.initial],fun thread => ?_,?_,?_⟩
    · constructor <;> simp [World.initial, State.initial, parkedAtTop, blockedAtTop]
      constructor <;> simp [OrderedMap.find?]
    · simp [World.initial, State.initial]
    · simp [World.initial, State.initial, RangesInSpace]
  heap := .initial memory
  ownership := by
    constructor <;> simp [World.initial, State.initial, registered, held, custody,
      OrderedMap.values, OrderedMap.find?]

theorem Invariant.step {w w' : World} {label : Label} (h : Invariant w)
    (hstep : step label w = some w') : Invariant w' := by
  have ht := step_transition hstep
  have hmove := ht.move h.protocol h.heap h.ownership
  exact ⟨h.protocol.step h.heap ht,ht.heapInvariant h.protocol h.heap h.ownership,
    hmove.ownership h.ownership h.heap (ht.stepInvariant h.protocol h.heap).control⟩

theorem ReachableWorld.invariant {w : World} (h : ReachableWorld w) : Invariant w :=
  Reachable.invariant (fun _ ⟨memory,hw⟩ => hw ▸ .initial memory) (fun _ _ _ hi hs => hi.step hs) h

/-- What holds of a fresh manager and survives every step holds in every reachable world. -/
theorem ReachableWorld.induction {P : World → Prop} (hinit : ∀ memory, P (.initial memory))
    (hstep : ∀ label w w', ReachableWorld w → P w → step label w = some w' → P w') {w : World}
    (h : ReachableWorld w) : P w :=
  Reachable.induction (fun _ ⟨memory,hw⟩ => hw ▸ hinit memory) hstep h

/-- The world after a list of steps from a fresh manager on cleared memory, or the fresh manager
when one of the steps is not enabled. -/
def worldAfter (labels : List Label) : World :=
  (run step labels (.initial fun _ => 0)).getD (.initial fun _ => 0)

theorem reachable_worldAfter (labels : List Label) : ReachableWorld (worldAfter labels) := by
  have hinit : ReachableWorld (.initial fun _ => 0) := .of_init ⟨_,rfl⟩
  unfold worldAfter
  cases hrun : run step labels (.initial fun _ => 0) with
  | none => exact hinit
  | some w => exact hinit.run hrun

theorem run_worldAfter (labels : List Label)
    (h : (run step labels (.initial fun _ => 0)).isSome = true) :
    run step labels (.initial fun _ => 0) = some (worldAfter labels) := by
  obtain ⟨w,hw⟩ := Option.isSome_iff_exists.mp h
  rw [worldAfter, hw]
  rfl

theorem worldAfter_run (labels labels' : List Label)
    (h : (run step (labels ++ labels') (.initial fun _ => 0)).isSome = true) :
    run step labels' (worldAfter labels) = some (worldAfter (labels ++ labels')) := by
  have hwhole := run_worldAfter _ h
  rw [run_append] at hwhole
  obtain ⟨w,hw,hrest⟩ := Option.bind_eq_some_iff.mp hwhole
  have heq : worldAfter labels = w := by
    rw [worldAfter, hw]
    rfl
  rw [heq, hrest]

theorem worldAfter_step (labels : List Label) (label : Label)
    (h : (run step (labels ++ [label]) (.initial fun _ => 0)).isSome = true) :
    step label (worldAfter labels) = some (worldAfter (labels ++ [label])) := by
  have hrun := worldAfter_run labels [label] h
  rwa [run, show run step [] = some from rfl, Option.bind_fun_some] at hrun

/-- A thread registers its stack. -/
def registeredRun : List Label := [.user 0 (.call (.registerStackBottom 28672)),.run 0 {}]

/-- A thread allocates a block of 16 bytes with a destructor in a region. -/
def allocation (region : ℕ) : List Label :=
  [.user 0 (.call (.mallocInternal 16 16 (some 7) false)),.run 0 {},.run 0 { region := region },
    .run 0 {}]

/-- A thread registers its stack and allocates a block with a destructor. -/
def allocatingRun : List Label := registeredRun ++ allocation 4096

/-- A thread allocates a block and loses it to a collection. -/
def lostAllocation : List Label := allocation 8192 ++
  [.user 0 (.call .collect),.run 0 {},.run 0 { fuel := 50 },.run 0 {},.user 0 .finalizerReturns,
    .run 0 {},.run 0 {},.run 0 {},.run 0 {}]

/-- Two blocks that refer to each other, with a root word on the first. -/
def pairRun : List Label :=
  allocatingRun ++ allocation 8192 ++
    [.user 0 (.storeByte 4128 32),.user 0 (.storeByte 4129 32),.user 0 (.storeByte 8224 32),
      .user 0 (.storeByte 8225 16),.user 0 (.call (.registerRootRange 256 264)),.run 0 {},
      .user 0 (.storeByte 256 32),.user 0 (.storeByte 257 16)]

/-- Of three blocks the one in the middle is withdrawn, and its memory not freed yet. -/
def retiredRun : List Label :=
  allocatingRun ++ allocation 8192 ++ allocation 12288 ++
    [.user 0 (.call (.releaseUnconstructed 8224)),.run 0 {}]

end GcLib.Protocol
