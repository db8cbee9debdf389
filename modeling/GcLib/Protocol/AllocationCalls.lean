import GcLib.Protocol.Batches
import GcLib.Protocol.CallRuns

/-! # Calls of `malloc_internal`

Between its first section and its registering section an allocation keeps the registry, the
counters, the weak references and the statistics as they are, up to the one collection it
makes when `operator new` fails. The block it places is freed when its registration fails.
-/

namespace GcLib.Protocol
open GcLib.Heap GcLib.Support Relation

/-- The registry, the byte counters, the weak references and the statistics are the same. -/
structure SameBooks (s s' : State) : Prop where
  allocations : s'.allocations = s.allocations
  managedBytes : s'.managedBytes = s.managedBytes
  reservedBytes : s'.reservedBytes = s.reservedBytes
  weakRefs : s'.weakRefs = s.weakRefs
  stats : s'.stats = s.stats

theorem SameBooks.refl (s : State) : SameBooks s s := ⟨rfl,rfl,rfl,rfl,rfl⟩

theorem SameBooks.trans {s s' s'' : State} (h : SameBooks s s') (h' : SameBooks s' s'') :
    SameBooks s s'' :=
  ⟨h'.allocations.trans h.allocations,h'.managedBytes.trans h.managedBytes,
    h'.reservedBytes.trans h.reservedBytes,h'.weakRefs.trans h.weakRefs,h'.stats.trans h.stats⟩

theorem SameHeap.sameBooks {s s' : State} (h : SameHeap s s') : SameBooks s s' :=
  ⟨h.allocations,h.managedBytes,h.reservedBytes,h.weakRefs,h.stats⟩

/-- The thread is quiet, up to one collection called by the allocation it has under way. -/
inductive Undone (P : Label → World → Prop) (thread : ThreadId) (rest : List Frame)
    (w w' : World) : Prop where
  | quiet (h : ReflTransGen (QuietStep P thread) w w')
  | collected {u u' : World} {request : AllocationRequest}
      (h : ReflTransGen (QuietStep P thread) w u)
      (hc : u.control thread = .entering (.call .collect) .enter :: .collecting request :: rest)
      (hin : ReflTransGen (StepInside P thread (.collecting request :: rest)) u u')
      (h' : ReflTransGen (QuietStep P thread) u' w')

/-- `operator new` returns a region, and the header is placed there. -/
structure Places (P : Label → World → Prop) (request : AllocationRequest) (region : ℕ)
    (w w' : World) : Prop where
  step : StepBy P w w'
  fresh : w.state.FreshRegion region request.totalSize request.alignment
  new : w.state.chunks.find? region = none
  state : w'.state = w.state.placeHeader region request
  log : w'.log = w.log ++ [.placed w.state.nextSerial request.destructor]

/-- The region of a block is freed. -/
structure FreesRegion (P : Label → World → Prop) (region : ℕ) (w w' : World) : Prop where
  step : StepBy P w w'
  books : SameBooks w.state w'.state
  chunks : w'.state.chunks = w.state.chunks.erase region
  log : w'.log = w.log ++ [.freed (w.state.serial region)]

/-- How an allocation that throws leaves the state: it obtained no memory, or it freed the block
it placed, whose history ends there. -/
inductive FailedAllocation (P : Label → World → Prop) (thread : ThreadId) (rest : List Frame)
    (w w' : World) : Prop where
  | unplaced (h : Undone P thread rest w w')
  | placed {u v v' : World} {request : AllocationRequest} {region : ℕ}
      (h : Undone P thread rest w u) (hp : Places P request region u v)
      (hq : ReflTransGen (QuietStep P thread) v v') (hf : FreesRegion P region v' w')
      (hh : ∃ destructor, history w'.log u.state.nextSerial =
        [.placed u.state.nextSerial destructor,.freed u.state.nextSerial])

/-- An allocation that returns registered the block it placed for its request. -/
inductive Allocated (P : Label → World → Prop) (thread : ThreadId) (size alignment : ℕ)
    (destructor : Option ℕ) (constructing : Bool) (rest : List Frame) (w w' : World) (base : ℕ) :
    Prop where
  | intro {u v v' : World} {request : AllocationRequest} {region : ℕ} {s : State}
      (hq : allocationRequest size alignment destructor constructing = some request)
      (h : Undone P thread rest w u) (hp : Places P request region u v)
      (hl : ReflTransGen (QuietStep P thread) v v') (hs : SameHeap v'.state s)
      (hheader : s.header region = request.header)
      (hchunk : ∃ chunk, s.chunks.find? region = some chunk)
      (hnew : ∀ b ∈ s.allocations.values, b.header ≠ region)
      (hw : w'.state = s.publish region constructing) (hbase : base = s.payloadBegin region)

/-- How far a call of `malloc_internal` has come, and what it has done so far. -/
inductive Allocating (P : Label → World → Prop) (thread : ThreadId) (size alignment : ℕ)
    (destructor : Option ℕ) (constructing : Bool) (rest : List Frame) (w w' : World) : Prop where
  | requesting (stage : Stage)
      (hc : w'.control thread =
        .entering (.call (.mallocInternal size alignment destructor constructing)) stage :: rest)
      (h : ReflTransGen (QuietStep P thread) w w')
  | fresh {request : AllocationRequest}
      (hq : allocationRequest size alignment destructor constructing = some request)
      (hc : w'.control thread = .allocating request false :: rest)
      (h : ReflTransGen (QuietStep P thread) w w')
  | collecting {u : World} {request : AllocationRequest} {k : ℕ}
      (hq : allocationRequest size alignment destructor constructing = some request)
      (h : ReflTransGen (QuietStep P thread) w u)
      (hu : u.control thread = .entering (.call .collect) .enter :: .collecting request :: rest)
      (hin : ReflTransGen (StepInside P thread (.collecting request :: rest)) u w')
      (hc : CallPhase .collect (.collecting request :: rest) k (w'.control thread))
  | retrying {request : AllocationRequest}
      (hq : allocationRequest size alignment destructor constructing = some request)
      (hc : w'.control thread = .allocating request true :: rest) (h : Undone P thread rest w w')
  | publishing {u v : World} {request : AllocationRequest} {region : ℕ} {stage : Stage}
      (hq : allocationRequest size alignment destructor constructing = some request)
      (h : Undone P thread rest w u) (hp : Places P request region u v)
      (hl : ReflTransGen (QuietStep P thread) v w')
      (hs : w'.state.serial region = u.state.nextSerial)
      (hc : w'.control thread = .entering (.publish region constructing) stage :: rest)

section
variable {w w' : World} {thread : ThreadId} {rest : List Frame} {label : Label}
  {P : Label → World → Prop}

theorem constructing_of_request {size alignment : ℕ} {destructor : Option ℕ} {constructing : Bool}
    {request : AllocationRequest}
    (hq : allocationRequest size alignment destructor constructing = some request) :
    request.constructing = constructing := by
  unfold allocationRequest at hq
  dsimp only at hq
  split at hq
  · cases hq
  · split_ifs at hq
    cases hq
    rfl

theorem header_of_request {size alignment : ℕ} {destructor : Option ℕ} {constructing : Bool}
    {request : AllocationRequest}
    (hq : allocationRequest size alignment destructor constructing = some request) :
    request.header.size = size ∧ request.header.destructor = destructor := by
  unfold allocationRequest at hq
  dsimp only at hq
  split at hq
  · cases hq
  · split_ifs at hq
    cases hq
    exact ⟨rfl,rfl⟩

theorem meets_mallocSection {s : State} (fuel size alignment : ℕ) (destructor : Option ℕ)
    (constructing : Bool) :
    (Section.body thread fuel (.call (.mallocInternal size alignment destructor constructing))).Meets
      s (fun next s' => s' = s ∧ ∃ request,
        allocationRequest size alignment destructor constructing = some request ∧
          next = .allocate request) (fun _ s' => s' = s) := by
  refine Exec.meets_bind (Exec.meets_get ?_)
  refine Exec.meets_bind (meets_requireRegisteredThreadLocked (fun _ => ?_) (fun _ => rfl))
  cases hq : allocationRequest size alignment destructor constructing with
  | none => exact Exec.meets_raise rfl
  | some request => exact Exec.meets_pure ⟨rfl,request,rfl,rfl⟩

theorem Undone.quietStep {u : World} (h : Undone P thread rest w u) (hq : QuietStep P thread u w') :
    Undone P thread rest w w' := by
  cases h with
  | quiet h => exact .quiet (h.tail hq)
  | collected h hc hin h' => exact .collected h hc hin (h'.tail hq)

/-- The first section of an allocation checks the request and changes nothing. -/
theorem requesting_step {size alignment : ℕ} {destructor : Option ℕ} {constructing : Bool}
    {stage : Stage} (hc : w.control label.thread =
      .entering (.call (.mallocInternal size alignment destructor constructing)) stage :: rest)
    (hstep : step label w = some w') : SameHeap w.state w'.state ∧ w'.log = w.log ∧
      ((∃ stage', w'.control label.thread =
          .entering (.call (.mallocInternal size alignment destructor constructing)) stage' :: rest) ∨
        (∃ request, allocationRequest size alignment destructor constructing = some request ∧
          w'.control label.thread = .allocating request false :: rest) ∨
        ∃ (u : World) (e : GCError), w' = u.deliver label.thread rest (.error e)) := by
  cases step_transition hstep with
  | runsSection hc' hco hrun =>
    rw [hc] at hc'
    cases hc'
    obtain ⟨hs,request,hq,rfl⟩ := (meets_mallocSection _ _ _ _ _).returns hrun
    rw [proceed_state, proceed_control, Function.update_self]
    exact ⟨hs ▸ hco.sameHeap,List.append_nil _,Or.inr (Or.inl ⟨request,hq,rfl⟩)⟩
  | callThrows hc' hco hrun =>
    rw [hc] at hc'
    cases hc'
    have hs := (meets_mallocSection _ _ _ _ _).throws hrun
    rw [deliver_state, deliver_log]
    exact ⟨hs ▸ hco.sameHeap,rfl,Or.inr (Or.inr ⟨_,_,rfl⟩)⟩
  | prologueThrows hc' =>
    rw [hc] at hc'
    cases hc'
  | stalls hc' hs =>
    rw [hc] at hc'
    cases hc'
    exact ⟨hs.sameHeap,rfl,Or.inl ⟨_,Function.update_self ..⟩⟩
  | _ => simp_all [inUserCode]

/-- `operator new` succeeds, fails for good, or fails for the first time. -/
theorem allocating_step (hP : P label w) (h : ReachableWorld w)
    {request : AllocationRequest} {retried : Bool}
    (hc : w.control label.thread = .allocating request retried :: rest)
    (hstep : step label w = some w') :
    (∃ region, Places P request region w w' ∧ w'.control label.thread =
        .entering (.publish region request.constructing) .enter :: rest) ∨
    w'.state = w.state ∧ w'.log = w.log ∧ (retried = false ∧ w'.control label.thread =
        .entering (.call .collect) .enter :: .collecting request :: rest ∨
      ∃ (u : World) (e : GCError), w' = u.deliver label.thread rest (.error e)) := by
  cases step_transition hstep with
  | outOfMemory hc' =>
    rw [hc] at hc'
    cases hc'
    rw [deliver_state, deliver_log]
    exact Or.inr ⟨rfl,rfl,Or.inr ⟨_,_,rfl⟩⟩
  | retries hc' =>
    rw [hc] at hc'
    cases hc'
    exact Or.inr ⟨rfl,rfl,Or.inl ⟨rfl,Function.update_self ..⟩⟩
  | places hc' hf =>
    rw [hc] at hc'
    cases hc'
    have hvalid : request.Valid :=
      (h.invariant.protocol.thread label.thread).valid (.allocating request retried)
        (by rw [hc]; exact List.mem_cons_self)
    have hpos : 0 < request.totalSize := Nat.add_pos_right _ hvalid.size_pos
    exact Or.inl ⟨_,⟨⟨label,hP,hstep⟩,hf,HeapInvariant.fresh_new hf h.invariant.heap hpos,rfl,rfl⟩,
      Function.update_self ..⟩
  | _ => simp_all [inUserCode]

/-- The registering section publishes the block, or frees it. -/
theorem publishing_step (hP : P label w) (h : ReachableWorld w)
    {header : ℕ} {constructing : Bool} {stage : Stage}
    (hc : w.control label.thread = .entering (.publish header constructing) stage :: rest)
    (hstep : step label w = some w') :
    (SameHeap w.state w'.state ∧ w'.log = w.log ∧ ∃ stage', w'.control label.thread =
      .entering (.publish header constructing) stage' :: rest) ∨
    (∃ (s : State) (u : World), SameHeap w.state s ∧ s.isRegistered label.thread = true ∧
      w'.state = s.publish header constructing ∧
      w' = u.deliver label.thread rest (.ok (.word (s.payloadBegin header)))) ∨
    FreesRegion P header w w' ∧
      ∃ (u : World) (e : GCError), w' = u.deliver label.thread rest (.error e) := by
  have hheap := h.invariant.heap
  cases step_transition hstep with
  | runsSection hc' hco hrun =>
    rename_i code stage' rest' s s' fuel supply supply' next
    rw [hc] at hc'
    cases hc'
    have heffect := effect_of_run hheap hco hrun
    right
    left
    cases heffect with
    | publish hr =>
      exact ⟨s,_,hco.sameHeap,hr,proceed_state _,rfl⟩
  | publishThrows hc' hco hrun =>
    rename_i s s' fuel supply e
    rw [hc] at hc'
    cases hc'
    have hf := failed_of_run hheap hco hrun
    have hsame : SameBooks w.state s' ∧ SameChunks w.state s' := by
      have hs := hco.sameHeap
      have hb := hs.sameBooks
      cases hf with
      | publish => exact ⟨hb,hs.sameChunks⟩
      | cleared => exact ⟨⟨hb.allocations,hb.managedBytes,hb.reservedBytes,hb.weakRefs,hb.stats⟩,
          ⟨hs.sameChunks.chunks,hs.sameChunks.nextSerial⟩⟩
    right
    right
    refine ⟨⟨⟨label,hP,hstep⟩,?_,?_,?_⟩,_,_,rfl⟩
    · rw [deliver_state]
      exact ⟨hsame.1.allocations,hsame.1.managedBytes,hsame.1.reservedBytes,hsame.1.weakRefs,
        hsame.1.stats⟩
    · rw [deliver_state]
      exact congrArg (OrderedMap.erase · header) hsame.2.chunks
    · rw [deliver_log]
      exact congrArg (fun serial => w.log ++ [Event.freed serial]) (hsame.2.serial header)
  | stalls hc' hs =>
    rw [hc] at hc'
    cases hc'
    exact Or.inl ⟨hs.sameHeap,rfl,_,Function.update_self ..⟩
  | _ => simp_all [inUserCode]

theorem serial_publishing (h : ReachableWorld w) (hstep : step label w = some w') {header : ℕ}
    {constructing constructing' : Bool} {stage stage' : Stage} {rest' : List Frame}
    (hc : w.control thread = .entering (.publish header constructing) stage :: rest)
    (hc' : w'.control thread = .entering (.publish header constructing') stage' :: rest') :
    w'.state.serial header = w.state.serial header := by
  have hr' : ReachableWorld w' := Reachable.step h hstep
  exact (h.move hstep).serial_of_chunk h.invariant.heap (h.invariant.ownership.registrable hc).chunk
    (hr'.invariant.ownership.registrable hc').chunk

theorem Places.books {request : AllocationRequest} {region : ℕ}
    (h : Places P request region w w') : SameBooks w.state w'.state := by
  rw [h.state]
  exact ⟨rfl,rfl,rfl,rfl,rfl⟩

theorem Places.find? {request : AllocationRequest} {region : ℕ} (h : Places P request region w w') :
    w'.state.chunks.find? region = some ⟨request.header,w.state.nextSerial⟩ := by
  rw [h.state, placeHeader_find? request h.new, if_pos rfl]

theorem CallPhase.suffix {call : WindowCall} {stack : List Frame} {k : ℕ}
    (h : CallPhase call rest k stack) : rest <:+ stack ∧ stack ≠ rest := by
  refine ⟨?_,fun he => ?_⟩
  · cases h with
    | destroying upper frame => exact (List.suffix_cons frame rest).trans (List.suffix_append _ _)
    | _ => exact List.suffix_cons _ _
  · have hlt := h.length_lt
    rw [he] at hlt
    exact lt_irrefl _ hlt

section
variable {size alignment : ℕ} {destructor : Option ℕ} {constructing : Bool} {w₀ : World}

theorem Allocating.places {request : AllocationRequest} {region : ℕ}
    (hq : allocationRequest size alignment destructor constructing = some request)
    (hu : Undone P label.thread rest w₀ w) (hp : Places P request region w w')
    (hc' : w'.control label.thread =
      .entering (.publish region request.constructing) .enter :: rest) :
    Allocating P label.thread size alignment destructor constructing rest w₀ w' := by
  rw [constructing_of_request hq] at hc'
  exact .publishing hq hu hp .refl (State.serial_eq hp.find?) hc'

theorem Allocating.other (hP : P label w) (h : ReachableWorld w)
    (ha : Allocating P thread size alignment destructor constructing rest w₀ w)
    (hstep : Protocol.step label w = some w') (hne : label.thread ≠ thread) :
    Allocating P thread size alignment destructor constructing rest w₀ w' := by
  have hcontrol := h.control hstep thread (Ne.symm hne)
  have hquiet : QuietStep P thread w w' := quietStep_of_other hP hstep hne
  cases ha with
  | requesting stage hc hl => exact .requesting stage (hcontrol.trans hc) (hl.tail hquiet)
  | fresh hq hc hl => exact .fresh hq (hcontrol.trans hc) (hl.tail hquiet)
  | collecting hq hl hu hin hp =>
    obtain ⟨hsuffix,habove⟩ := hp.suffix
    exact .collecting hq hl hu (hin.tail ⟨⟨label,hP,hstep⟩,hsuffix,habove⟩) (hcontrol ▸ hp)
  | retrying hq hc hun => exact .retrying hq (hcontrol.trans hc) (hun.quietStep hquiet)
  | publishing hq hun hp hl hs hc =>
    have hc' := hcontrol.trans hc
    exact .publishing hq hun hp (hl.tail hquiet) ((serial_publishing h hstep hc hc').trans hs) hc'

theorem Allocating.step (hP : P label w) (hu : inUserCode rest = true) (h : ReachableWorld w)
    (ha : Allocating P thread size alignment destructor constructing rest w₀ w)
    (hstep : Protocol.step label w = some w') (hne : w'.control thread ≠ rest) :
    Allocating P thread size alignment destructor constructing rest w₀ w' := by
  by_cases hthread : label.thread = thread
  swap
  · exact ha.other hP h hstep hthread
  subst hthread
  have hresumed : ∀ (u : World) (e : GCError), w' ≠ u.deliver label.thread rest (.error e) := by
    rintro u e rfl
    rw [deliver_control, Function.update_self, resumed_user hu] at hne
    exact hne rfl
  cases ha with
  | requesting stage hc hl =>
    obtain ⟨hs,hlog,⟨stage',hc'⟩ | ⟨request,hq,hc'⟩ | ⟨u,e,hw⟩⟩ := requesting_step hc hstep
    · exact .requesting stage' hc' (hl.tail (quietStep_of_same hP hstep hs hlog))
    · exact .fresh hq hc' (hl.tail (quietStep_of_same hP hstep hs hlog))
    · exact absurd hw (hresumed u e)
  | @fresh request hq hc hl =>
    rcases allocating_step hP h hc hstep with ⟨region,hp,hc'⟩ | ⟨hs,hlog,⟨-,hc'⟩ | ⟨u,e,hw⟩⟩
    · exact .places hq (.quiet hl) hp hc'
    · have hphase := @CallPhase.entering .collect (.collecting request :: rest) .enter
      rw [← show w'.control label.thread = .entering (.call WindowCall.collect.call) .enter :: _
        from hc'] at hphase
      have hquiet : QuietStep P label.thread w w' := quietStep_of_same hP hstep (by rw [hs]; rfl) hlog
      exact .collecting hq (hl.tail hquiet) hc' .refl hphase
    · exact absurd hw (hresumed u e)
  | collecting hq hl hstart hin hp =>
    obtain ⟨hsuffix,habove⟩ := hp.suffix
    have hinside := hin.tail ⟨⟨label,hP,hstep⟩,hsuffix,habove⟩
    cases hp.step rfl h hstep with
    | lasts k' hp' => exact .collecting hq hl hstart hinside hp'
    | returns hk hn hc' => exact .retrying hq hc' (.collected hl hstart hinside .refl)
    | fails hc' => exact absurd hc' hne
  | retrying hq hc hun =>
    rcases allocating_step hP h hc hstep with ⟨region,hp,hc'⟩ | ⟨-,-,⟨hfalse,-⟩ | ⟨u,e,hw⟩⟩
    · exact .places hq hun hp hc'
    · cases hfalse
    · exact absurd hw (hresumed u e)
  | publishing hq hun hp hl hs hc =>
    rcases publishing_step hP h hc hstep with ⟨hsame,hlog,stage',hc'⟩ | ⟨s,u,-,-,-,hw⟩ | ⟨-,u,e,hw⟩
    · exact .publishing hq hun hp (hl.tail (quietStep_of_same hP hstep hsame hlog))
        ((hsame.sameChunks.serial _).trans hs) hc'
    · refine absurd ?_ hne
      rw [hw, deliver_control, Function.update_self, resumed_user hu]
    · exact absurd hw (hresumed u e)

theorem Undone.steps (h : Undone P thread rest w w') :
    ReflTransGen (Steps Protocol.step) w w' := by
  cases h with
  | quiet h => exact steps_of_quiet h
  | collected h _ hin h' =>
    exact ((steps_of_quiet h).trans (steps_of_inside hin)).trans (steps_of_quiet h')

theorem Places.reachable {request : AllocationRequest} {region : ℕ}
    (hp : Places P request region w w') (h : ReachableWorld w) : ReachableWorld w' := by
  obtain ⟨label,-,hstep⟩ := hp.step
  exact h.step hstep

/-- The block being registered has the header of its request, and was only placed so far. -/
theorem Places.registering {u v : World} {request : AllocationRequest} {region : ℕ} {stage : Stage}
    (hr : ReachableWorld u) (hp : Places P request region u v)
    (hl : ReflTransGen (QuietStep P thread) v w) (hs : w.state.serial region = u.state.nextSerial)
    (hc : w.control thread = .entering (.publish region constructing) stage :: rest) :
    w.state.header region = request.header ∧ ∃ destructor,
      history w.log u.state.nextSerial = [.placed u.state.nextSerial destructor] := by
  have hv : ReachableWorld v := hp.reachable hr
  have hw : ReachableWorld w := Reachable.steps hv (steps_of_quiet hl)
  obtain ⟨chunk,hchunk⟩ := (hw.invariant.ownership.registrable hc).chunk
  have hserial : chunk.serial = u.state.nextSerial := by rw [← State.serial_eq hchunk, hs]
  have hlt : u.state.nextSerial < v.state.nextSerial := by
    rw [hp.state]
    exact Nat.lt_succ_self _
  obtain ⟨-,-,hback⟩ := hv.chunk_stable (steps_of_quiet hl) hlt
  have hplaced := hback region chunk hchunk hserial
  rw [hp.find?] at hplaced
  constructor
  · rw [State.header_eq hchunk, ← Option.some.inj hplaced]
  · have hcustody : (region,Phase.placed) ∈ custody (w.control thread) := by
      rw [hc]
      exact List.mem_cons_self
    have hpast := hw.lifecycle.held thread _ hcustody chunk hchunk
    rw [hserial] at hpast
    generalize history w.log u.state.nextSerial = events at hpast
    cases hpast
    exact ⟨_,rfl⟩

/-- The step that returns from the call tells the caller what the call did. -/
theorem Allocating.returns (hP : P label w) (hu : inUserCode rest = true) (h₀ : ReachableWorld w₀)
    (h : ReachableWorld w)
    (ha : Allocating P label.thread size alignment destructor constructing rest w₀ w)
    (hstep : Protocol.step label w = some w') (hc' : w'.control label.thread = rest) :
    (∃ e, w'.result label.thread = some (.error e) ∧ FailedAllocation P label.thread rest w₀ w') ∨
    ∃ base, w'.result label.thread = some (.ok (.word base)) ∧
      Allocated P label.thread size alignment destructor constructing rest w₀ w' base := by
  have habove : ∀ {frames : List Frame}, frames ≠ [] → w'.control label.thread ≠ frames ++ rest := by
    intro frames hne he
    rw [hc'] at he
    exact hne (List.self_eq_append_left.mp he)
  cases ha with
  | requesting stage hc hl =>
    obtain ⟨hs,hlog,⟨stage',hc''⟩ | ⟨request,hq,hc''⟩ | ⟨u,e,hw⟩⟩ := requesting_step hc hstep
    · exact absurd hc'' (habove (List.cons_ne_nil _ []))
    · exact absurd hc'' (habove (List.cons_ne_nil _ []))
    · exact Or.inl ⟨e,hw ▸ deliver_result hu _,
        .unplaced (.quiet (hl.tail (quietStep_of_same hP hstep hs hlog)))⟩
  | fresh hq hc hl =>
    rcases allocating_step hP h hc hstep with ⟨region,hp,hc''⟩ | ⟨hs,hlog,⟨-,hc''⟩ | ⟨u,e,hw⟩⟩
    · exact absurd hc'' (habove (List.cons_ne_nil _ []))
    · exact absurd hc'' (habove (List.cons_ne_nil _ [_]))
    · have hquiet : QuietStep P label.thread w w' := quietStep_of_same hP hstep (by rw [hs]; rfl) hlog
      exact Or.inl ⟨e,hw ▸ deliver_result hu _,.unplaced (.quiet (hl.tail hquiet))⟩
  | @collecting _ request _ hq hl hstart hin hp =>
    obtain ⟨hsuffix,hne⟩ := hp.suffix
    have hinside := hin.tail ⟨⟨label,hP,hstep⟩,hsuffix,hne⟩
    have hrest := (List.suffix_cons _ rest).trans hsuffix
    have hlong : rest.length + 1 < (w.control label.thread).length :=
      lt_of_le_of_ne hsuffix.length_le fun he => hne (hsuffix.eq_of_length he).symm
    have hnotrest : w.control label.thread ≠ rest := by
      intro he
      rw [he] at hlong
      exact absurd hlong (by omega)
    obtain ⟨frame,below,w₁,result,hframe,hw,rfl | ⟨hresult,request',rfl⟩⟩ :=
      delivers_to_caller hstep hu hrest hnotrest hc'
    · rw [hframe] at hlong
      exact absurd hlong (lt_irrefl _)
    · cases result with
      | ok value => cases hresult
      | error e =>
        have hdelivered : w'.result label.thread = some (.error e) := by
          rw [hw]
          exact Function.update_self ..
        exact Or.inl ⟨e,hdelivered,.unplaced (.collected hl hstart hinside .refl)⟩
  | retrying hq hc hun =>
    rcases allocating_step hP h hc hstep with ⟨region,hp,hc''⟩ | ⟨hs,hlog,⟨hfalse,-⟩ | ⟨u,e,hw⟩⟩
    · exact absurd hc'' (habove (List.cons_ne_nil _ []))
    · cases hfalse
    · have hquiet : QuietStep P label.thread w w' := quietStep_of_same hP hstep (by rw [hs]; rfl) hlog
      exact Or.inl ⟨e,hw ▸ deliver_result hu _,.unplaced (hun.quietStep hquiet)⟩
  | publishing hq hun hp hl hs hc =>
    have hplaced := hp.registering (Reachable.steps h₀ hun.steps) hl hs hc
    obtain ⟨hchunk,hnew⟩ := h.invariant.ownership.registrable hc
    rcases publishing_step hP h hc hstep with
      ⟨hsame,hlog,stage',hc''⟩ | ⟨s,u,hsame,-,hw,hdeliver⟩ | ⟨hf,u,e,hw⟩
    · exact absurd hc'' (habove (List.cons_ne_nil _ []))
    · refine Or.inr ⟨_,hdeliver ▸ deliver_result hu _,.intro hq hun hp hl hsame ?_ ?_ ?_ hw rfl⟩
      · rw [← hplaced.1]
        simp only [State.header, hsame.sameChunks.chunks]
      · rw [hsame.sameChunks.chunks]
        exact hchunk
      · rw [hsame.allocations]
        exact hnew
    · refine Or.inl ⟨e,hw ▸ deliver_result hu _,.placed hun hp hl hf ?_⟩
      obtain ⟨destructor,hhistory⟩ := hplaced.2
      refine ⟨destructor,?_⟩
      rw [hf.log, history_append, hhistory, hs]
      simp [history, Event.serial]

theorem ReturnsBy.mallocInternal {w w' : World} {result : Except GCError Value}
    (h : ReachableWorld w)
    (hret : ReturnsBy P thread (.mallocInternal size alignment destructor constructing) w w' result) :
    (∃ e, result = .error e ∧ FailedAllocation P thread (w.control thread) w w') ∨
    ∃ base, result = .ok (.word base) ∧
      Allocated P thread size alignment destructor constructing (w.control thread) w w' base := by
  cases hret with
  | immediate hi hP hcall =>
    have hquiet : QuietStep P thread w w' :=
      quietStep_of_same hP hcall
      (by rw [step_immediate hi hcall]; rfl) (by rw [step_immediate hi hcall]; rfl)
    simp only [Call.immediate] at hi
    split_ifs at hi
    exact Or.inl ⟨_,(Option.some.inj hi).symm,.unplaced (.quiet (.single hquiet))⟩
  | @run w₁ _ _ hi hP hcall hin hc hr =>
    obtain ⟨hu,hw₁⟩ := step_call hi hcall
    have hreach : ReachableWorld w₁ := h.step hcall
    have hquiet : QuietStep P thread w w₁ := quietStep_of_same hP hcall
      (by rw [hw₁]; rfl) (by rw [hw₁]; rfl)
    have hcontrol : w₁.control thread = .entering (.call (.mallocInternal size alignment destructor
        constructing)) .enter :: w.control thread := by
      rw [hw₁]
      exact Function.update_self ..
    have habove : w₁.control thread ≠ w.control thread := by
      rw [hcontrol]
      exact List.cons_ne_self _ _
    obtain ⟨u,label,hlabel,hru,ha,hlast,rfl,-⟩ := StepInside.last hreach
      (Allocating.requesting .enter hcontrol (.single hquiet))
      (fun label u u' hlabel hru ha hstep hne => ha.step hlabel hu hru hstep hne) hin habove hc
    rcases ha.returns hlabel hu h hru hlast hc with ⟨e,he,hf⟩ | ⟨base,hbase,hall⟩
    · exact Or.inl ⟨e,Option.some.inj (hr.symm.trans he),hf⟩
    · exact Or.inr ⟨base,Option.some.inj (hr.symm.trans hbase),hall⟩

theorem Allocated.record {w w' : World} {base : ℕ} (h : ReachableWorld w)
    (ha : Allocated P thread size alignment destructor constructing rest w w' base) :
    ∃ b ∈ w'.state.allocations.values, b.payloadBegin = base ∧ b.constructing = constructing ∧
      b.payloadEnd = base+size ∧ (w'.state.header b.header).destructor = destructor := by
  cases ha with
  | intro hq hun hp hl hs hheader hchunk hnew hw hbase =>
    have hv : ReachableWorld _ :=
      Reachable.steps (hp.reachable (Reachable.steps h hun.steps)) (steps_of_quiet hl)
    have hheap := hs.heapInvariant hv.invariant.heap
    obtain ⟨chunk,hchunk⟩ := hchunk
    have hmem := (hheap.publish_values hchunk hnew constructing).mem_iff.mpr List.mem_cons_self
    have hrequest := header_of_request hq
    refine ⟨_,hw ▸ hmem,hbase.symm,rfl,?_,?_⟩
    · rw [hheader, hrequest.1, hbase]
    · rw [hw]
      exact (congrArg ChunkHeader.destructor hheader).trans hrequest.2

end
end
end GcLib.Protocol
