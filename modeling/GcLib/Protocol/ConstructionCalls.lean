import GcLib.Protocol.AllocationCalls
import GcLib.Protocol.Pinning
import GcLib.Protocol.Registrations

/-! # Calls that end a construction

`finish_construction` clears the flag of its block. `release_unconstructed` takes the record of
its block out of the registry, with every weak reference into it, and frees the block.
-/

namespace GcLib.Protocol
open GcLib.Heap GcLib.Support Relation

/-- The record of a block leaves the registry: the counters drop by its share, every handle into
it is cleared, and nothing else changes. -/
structure Withdraws (P : Label → World → Prop) (b : BlockRecord) (w w' : World) : Prop where
  step : StepBy P w w'
  live : b ∈ w.state.allocations.values
  values : ∀ v, v ∈ w'.state.allocations.values ↔ v ∈ w.state.allocations.values ∧ v ≠ b
  managedBytes : w.state.managedBytes = (w.state.header b.header).size+w'.state.managedBytes
  reservedBytes : w.state.reservedBytes =
    (w.state.header b.header).blockAllocationSize+w'.state.reservedBytes
  stats : w'.state.stats = w.state.stats
  chunks : SameChunks w.state w'.state
  weakRefs : w'.state.weakRefs =
    w.state.weakRefs.filter fun entry => decide (¬ b.Contains entry.target)
  expired : ∀ entry ∈ w.state.weakRefs, b.Contains entry.target →
    readWord w'.state.memory entry.storage = 0
  memory : ∀ x, ¬ InWordOf w.state.weakRefs (fun entry => b.Contains entry.target) x →
    w'.state.memory x = w.state.memory x
  log : w'.log = w.log ++ [.released (w.state.serial b.header)]

/-- The construction of a block is finished: its flag is cleared and nothing else changes. -/
structure Finishes (P : Label → World → Prop) (b : BlockRecord) (w w' : World) : Prop where
  step : StepBy P w w'
  live : b ∈ w.state.allocations.values
  state : ∃ s, SameHeap w.state s ∧ w'.state = s.setConstructing b.payloadBegin false
  log : w'.log = w.log

/-- A block is withdrawn and freed; its destructor was not called. -/
inductive Withdrawn (P : Label → World → Prop) (thread : ThreadId) (b : BlockRecord)
    (w w' : World) : Prop where
  | intro {u v v' : World} {serial : ℕ} {destructor : Option ℕ}
      (h : ReflTransGen (QuietStep P thread) w u) (hw : Withdraws P b u v)
      (hl : ReflTransGen (QuietStep P thread) v v') (hf : FreesRegion P b.header v' w')
      (hh : history w'.log serial =
        [.placed serial destructor,.registered serial,.released serial,.freed serial])
      (hserial : serial = u.state.serial b.header)

section
variable {w w' : World} {thread : ThreadId} {rest : List Frame} {label : Label}
  {P : Label → World → Prop} {b : BlockRecord} {payload : ℕ}

theorem Withdrawn.reachable (hw : Withdrawn P thread b w w') (h : ReachableWorld w) :
    ReachableWorld w' := by
  cases hw with
  | intro hquiet hw hl hf =>
    obtain ⟨label,-,hstep⟩ := hw.step
    obtain ⟨label',-,hstep'⟩ := hf.step
    have hu : ReachableWorld _ := Reachable.steps h (steps_of_quiet hquiet)
    exact (Reachable.steps (hu.step hstep) (steps_of_quiet hl)).step hstep'

/-- A quiet thread keeps the blocks that the others leave pinned. -/
theorem pinned_quiet (h : ReachableWorld w) (hb : b ∈ w.state.allocations.values)
    (hc : b.constructing = true)
    (hP : ∀ label u, P label u → label.thread ≠ thread → ¬ UnpinsBy label.thread b.payloadBegin u)
    (hsteps : ReflTransGen (QuietStep P thread) w w') :
    ReachableWorld w' ∧ b ∈ w'.state.allocations.values := by
  induction hsteps with
  | refl => exact ⟨h,hb⟩
  | tail _ hstep ih =>
    obtain ⟨label,hlabel,hstep,hquiet⟩ := hstep
    refine ⟨ih.1.step hstep,?_⟩
    by_cases hthread : label.thread = thread
    · rw [(hquiet hthread).1.allocations]
      exact ih.2
    · exact pinned_step_by ih.1 ih.2 hc (hP label _ hlabel hthread) hstep

theorem meets_finishSection {s : State} (fuel : ℕ) :
    (Section.body thread fuel (.call (.finishConstruction payload))).Meets s
      (fun next s' => next = .done .unit ∧ s' = s.setConstructing payload false)
      (fun _ s' => s' = s ∧ s.allocations.find? payload = none) := by
  refine Exec.meets_bind (Exec.meets_get ?_)
  refine Exec.meets_bind (Exec.meets_bind (Exec.meets_get ?_))
  cases hf : s.allocations.find? payload with
  | none => exact Exec.meets_raise ⟨rfl,rfl⟩
  | some block =>
    exact Exec.meets_bind (Exec.meets_modify (Exec.meets_pure (Exec.meets_pure ⟨rfl,rfl⟩)))

theorem meets_releaseSection {s : State} (fuel : ℕ) :
    (Section.body thread fuel (.call (.releaseUnconstructed payload))).Meets s
      (fun next s' => (∃ block, s.allocations.find? payload = some block ∧
          next = .free block.header ∧ s' = s.removeBlock block) ∨
        s.allocations.find? payload = none ∧ next = .done .unit ∧ s' = s)
      (fun _ s' => s' = s ∧ s.isRegistered thread = false) := by
  refine Exec.meets_bind (Exec.meets_get ?_)
  refine Exec.meets_bind (Exec.meets_bind ?_)
  refine Exec.meets_bind (Exec.meets_get ?_)
  split_ifs with hr
  · refine Exec.meets_pure (Exec.meets_bind (Exec.meets_get ?_))
    cases hf : s.allocations.find? payload with
    | none => exact Exec.meets_pure (Exec.meets_pure (Or.inr ⟨rfl,rfl,rfl⟩))
    | some block =>
      refine Exec.meets_bind (Exec.meets_modify (Exec.meets_pure (Exec.meets_pure ?_)))
      exact Or.inl ⟨block,rfl,rfl,rfl⟩
  · exact Exec.meets_raise ⟨rfl,by simpa using hr⟩

/-- What `release_unconstructed` does to the state in its section. -/
theorem Withdraws.of_removeBlock {s : State} (hstep : StepBy P w w') (hs : SameHeap w.state s)
    (hheap : HeapInvariant w.state) (hb : b ∈ w.state.allocations.values)
    (hw : w'.state = s.removeBlock b)
    (hl : w'.log = w.log ++ [.released (w.state.serial b.header)]) : Withdraws P b w w' := by
  have hinv := hs.heapInvariant hheap
  have hbs : ∀ d ∈ [b], d ∈ s.allocations.values := by simpa [hs.allocations] using hb
  have hr := HeapInvariant.removed_removeBlock s b
  have hheader : s.header b.header = w.state.header b.header := hs.sameChunks.header _
  have htargets : ∀ entry : WeakRefEntry, entry.Targets [b] ↔ b.Contains entry.target := by
    simp [WeakRefEntry.Targets]
  have hmanaged := (hr.managedBytes_eq hinv hbs (List.nodup_singleton b)).1
  have hreserved := (hr.reservedBytes_eq hinv hbs (List.nodup_singleton b)).1
  have hsum : s.payloadSum [b] = (s.header b.header).size := by simp [State.payloadSum]
  have hsum' : s.reservedSum [b] = (s.header b.header).blockAllocationSize := by
    simp [State.reservedSum]
  refine ⟨hstep,hb,fun v => ?_,?_,?_,?_,?_,?_,fun entry he hc => ?_,fun x hx => ?_,hl⟩
  · rw [hw, hr.mem_values hinv hbs, hs.allocations, List.mem_singleton]
  · rw [hw, ← hs.managedBytes, hmanaged, hsum, hheader]
  · rw [hw, ← hs.reservedBytes, hreserved, hsum', hheader]
  · rw [hw, ← hs.stats]
    rfl
  · rw [hw]
    exact hs.sameChunks.trans ⟨hr.chunks,rfl⟩
  · rw [hw, hr.weakRefs, hs.weakRefs]
    simp only [htargets]
  · refine Memory.readBytes_eq_zero fun x hlo hhi => ?_
    rw [hw, hr.memory, if_pos ⟨entry,hs.weakRefs ▸ he,(htargets entry).mpr hc,hlo,hhi⟩]
  · rw [hw, hr.memory, hs.memory, if_neg]
    rintro ⟨entry,he,ht,hin⟩
    exact hx ⟨entry,hs.weakRefs ▸ he,(htargets entry).mp ht,hin⟩

theorem isRegistered_eq (s : State) (thread : ThreadId) :
    s.isRegistered thread = (stackBottomOf s thread).any fun bottom => decide (bottom ≠ 0) := by
  simp [State.isRegistered, State.findThreadStateLocked, stackBottomOf, Option.any_map]

theorem Cooperated.isRegistered {s s' : State} {code : Section} {stage : Stage}
    (h : Cooperated thread s code stage s') (other : ThreadId) :
    s'.isRegistered other = s.isRegistered other := by
  rw [isRegistered_eq, isRegistered_eq, h.stackBottomOf]

theorem find?_of_live (h : HeapInvariant w.state) (hb : b ∈ w.state.allocations.values) :
    w.state.allocations.find? b.payloadBegin = some b :=
  OrderedMap.find?_eq_some.mpr (h.entry_mem hb)

/-- The section of `release_unconstructed` withdraws a live block. -/
theorem SectionRuns.withdraws (hP : P label w) (h : ReachableWorld w)
    (hb : b ∈ w.state.allocations.values) (hr : w.state.isRegistered label.thread = true)
    (hstep : step label w = some w')
    (hruns : SectionRuns label.thread (.releaseUnconstructed b.payloadBegin) rest w w') :
    Withdraws P b w w' ∧ w'.control label.thread = .freeingBlock b.header :: rest := by
  have hfind := find?_of_live h.invariant.heap hb
  cases hruns with
  | returns hco hrun hw =>
    have hs := hco.sameHeap
    rw [← hs.allocations] at hfind
    rcases (meets_releaseSection _).returns hrun with ⟨block,hf,rfl,hs'⟩ | ⟨hf,-⟩
    · rw [hfind] at hf
      obtain rfl := Option.some.inj hf
      subst hw
      refine ⟨.of_removeBlock ⟨label,hP,hstep⟩ hs h.invariant.heap hb hs' ?_,
        Function.update_self ..⟩
      rw [← hs.sameChunks.serial]
      rfl
    · rw [hfind] at hf
      cases hf
  | throws hco hrun hw =>
    have hn := ((meets_releaseSection _).throws hrun).2
    rw [hco.isRegistered, hr] at hn
    cases hn
  | prologueThrows hcall => cases hcall

/-- The section of `finish_construction` clears the flag of a live block. -/
theorem SectionRuns.finishes (hP : P label w) (h : ReachableWorld w)
    (hb : b ∈ w.state.allocations.values) (hu : inUserCode rest = true)
    (hstep : step label w = some w')
    (hruns : SectionRuns label.thread (.finishConstruction b.payloadBegin) rest w w') :
    Finishes P b w w' ∧ w'.control label.thread = rest ∧
      w'.result label.thread = some (.ok .unit) := by
  have hfind := find?_of_live h.invariant.heap hb
  cases hruns with
  | returns hco hrun hw =>
    obtain ⟨rfl,hs'⟩ := (meets_finishSection _).returns hrun
    subst hw
    refine ⟨⟨⟨label,hP,hstep⟩,hb,⟨_,hco.sameHeap,?_⟩,?_⟩,?_,deliver_result hu _⟩
    · rw [proceed_state]
      exact hs'
    · rw [proceed_log]
      exact List.append_nil _
    · rw [proceed_control, Function.update_self]
      exact resumed_user hu
  | throws hco hrun hw =>
    have hn := ((meets_finishSection _).throws hrun).2
    rw [hco.sameHeap.allocations, hfind] at hn
    cases hn
  | prologueThrows hcall => cases hcall

theorem ReturnsBy.finishes {result : Except GCError Value} (h : ReachableWorld w)
    (hb : b ∈ w.state.allocations.values) (hc : b.constructing = true)
    (hP : ∀ label u, P label u → label.thread ≠ thread →
      ¬ UnpinsBy label.thread b.payloadBegin u)
    (hret : ReturnsBy P thread (.finishConstruction b.payloadBegin) w w' result) :
    result = .ok .unit ∧ ∃ u, ReachableWorld u ∧ ReflTransGen (QuietStep P thread) w u ∧
      Finishes P b u w' := by
  obtain ⟨hreturn,hresult,hu⟩ := hret.result rfl
  obtain ⟨u,v,label,stage,hru,hquiet,hcontrol,hlabel,rfl,hstep,hruns,hin⟩ := hret.section h rfl
  obtain ⟨-,hbu⟩ := pinned_quiet h hb hc hP hquiet
  obtain ⟨hf,hcv,hrv⟩ := hruns.finishes hlabel hru hbu hu hstep
  obtain rfl := returned_inside hin hcv
  exact ⟨Option.some.inj (hresult.symm.trans hrv),u,hru,hquiet,hf⟩

theorem freeing_step {header : ℕ} (hP : P label w) (hu : inUserCode rest = true)
    (hc : w.control label.thread = .freeingBlock header :: rest) (hstep : step label w = some w') :
    FreesRegion P header w w' ∧ w'.control label.thread = rest ∧
      w'.result label.thread = some (.ok .unit) := by
  cases step_transition hstep with
  | freesBlock hc' =>
    rw [hc] at hc'
    cases hc'
    refine ⟨⟨⟨label,hP,hstep⟩,?_,?_,?_⟩,?_,deliver_result hu _⟩
    · rw [deliver_state]
      exact ⟨rfl,rfl,rfl,rfl,rfl⟩
    · rw [deliver_state]
      rfl
    · rw [deliver_log]
      rfl
    · rw [deliver_control, Function.update_self, resumed_user hu]
  | _ => simp_all [inUserCode]

/-- The thread waits to free the block it withdrew. -/
structure AwaitingFree (P : Label → World → Prop) (thread : ThreadId) (header : ℕ)
    (rest : List Frame) (w w' : World) : Prop where
  control : w'.control thread = .freeingBlock header :: rest
  quiet : ReflTransGen (QuietStep P thread) w w'
  serial : w'.state.serial header = w.state.serial header

theorem AwaitingFree.step {header : ℕ} {w₀ : World} (hP : P label w) (h : ReachableWorld w)
    (hu : inUserCode rest = true) (ha : AwaitingFree P thread header rest w₀ w)
    (hstep : Protocol.step label w = some w') (hne : w'.control thread ≠ rest) :
    AwaitingFree P thread header rest w₀ w' := by
  by_cases hthread : label.thread = thread
  · subst hthread
    exact absurd (freeing_step hP hu ha.control hstep).2.1 hne
  · have hcontrol := (h.control hstep thread (Ne.symm hthread)).trans ha.control
    have hr' : ReachableWorld w' := Reachable.step h hstep
    have hheld : ∀ {u : World}, u.control thread = .freeingBlock header :: rest →
        header ∈ held (u.control thread) := by
      intro u hc
      rw [hc]
      exact List.mem_cons_self
    have hserial := (h.move hstep).serial_eq h.invariant.ownership hr'.invariant.ownership
      h.invariant.heap (hheld ha.control) (hheld hcontrol)
    exact ⟨hcontrol,ha.quiet.tail (quietStep_of_other hP hstep hthread),hserial.trans ha.serial⟩

theorem AwaitingFree.history {header : ℕ} {w₀ : World} (h : ReachableWorld w)
    (ha : AwaitingFree P thread header rest w₀ w) : ∃ destructor,
    history w.log (w₀.state.serial header) = [.placed (w₀.state.serial header) destructor,
      .registered (w₀.state.serial header),.released (w₀.state.serial header)] := by
  have hcustody : (header,Phase.released) ∈ custody (w.control thread) := by
    rw [ha.control]
    exact List.mem_cons_self
  obtain ⟨chunk,hchunk⟩ :=
    h.invariant.ownership.held_chunk thread (mem_held.mpr ⟨_,hcustody⟩)
  have hpast := h.lifecycle.held thread _ hcustody chunk hchunk
  rw [← State.serial_eq hchunk, ha.serial] at hpast
  generalize Protocol.history w.log (w₀.state.serial header) = events at hpast
  cases hpast
  exact ⟨_,rfl⟩

/-- Withdrawing the construction of a block that nobody else ends. -/
theorem ReturnsBy.withdraws {result : Except GCError Value} (h : ReachableWorld w)
    (hb : b ∈ w.state.allocations.values) (hc : b.constructing = true)
    (hP : ∀ label u, P label u → u.state.isRegistered thread = true ∧
      (label.thread ≠ thread → ¬ UnpinsBy label.thread b.payloadBegin u))
    (hret : ReturnsBy P thread (.releaseUnconstructed b.payloadBegin) w w' result) :
    result = .ok .unit ∧ Withdrawn P thread b w w' := by
  have hpos : b.payloadBegin ≠ 0 := by
    have hbounds := (h.invariant.heap.payload_bounds hb).1
    unfold chunkHeaderSize at hbounds
    omega
  have hi : (Call.releaseUnconstructed b.payloadBegin).immediate = none := if_neg hpos
  obtain ⟨hreturn,hresult,hu⟩ := hret.result hi
  obtain ⟨u,v,label,stage,hru,hquiet,hcontrol,hlabel,rfl,hstep,hruns,hin⟩ := hret.section h hi
  obtain ⟨-,hbu⟩ := pinned_quiet h hb hc (fun label u hl => (hP label u hl).2) hquiet
  obtain ⟨hw,hwaiting⟩ := hruns.withdraws hlabel hru hbu (hP label u hlabel).1 hstep
  have hrv : ReachableWorld v := hru.step hstep
  have habove : v.control label.thread ≠ w.control label.thread := by
    rw [hwaiting]
    exact List.cons_ne_self _ _
  have hstart : AwaitingFree P label.thread b.header (w.control label.thread) v v :=
    ⟨hwaiting,.refl,rfl⟩
  obtain ⟨v',label',hlabel',hrv',hawait,hstep',hthread,-⟩ := StepInside.last hrv hstart
    (fun _ _ _ hl hz haz hzstep hne => haz.step hl hz hu hzstep hne) hin habove hreturn
  have hawaiting := hawait.control
  rw [← hthread] at hawaiting hresult
  obtain ⟨hf,-,hfreed⟩ := freeing_step hlabel' (hthread ▸ hu) hawaiting hstep'
  rw [hresult] at hfreed
  obtain ⟨destructor,hhistory⟩ := hawait.history hrv'
  have hserial : v.state.serial b.header = u.state.serial b.header := hw.chunks.serial _
  rw [hserial] at hhistory
  have hwhole : history w'.log (u.state.serial b.header) =
      [.placed (u.state.serial b.header) destructor,.registered (u.state.serial b.header),
        .released (u.state.serial b.header),.freed (u.state.serial b.header)] := by
    rw [hf.log, history_append, hhistory, hawait.serial, hserial]
    simp [history, Event.serial]
  exact ⟨Option.some.inj hfreed,.intro hquiet hw hawait.quiet hf hwhole rfl⟩

/-- The history of a block is one of the few the manager produces. -/
theorem ReachableWorld.history_cases (h : ReachableWorld w) {serial : ℕ}
    (hlt : serial < w.state.nextSerial) :
    (∃ destructor, history w.log serial = [.placed serial destructor,.registered serial]) ∨
    (∃ destructor phase, Past serial destructor phase (history w.log serial)) ∨
    ∃ destructor, Finished serial destructor (history w.log serial) := by
  by_cases hlive : ∃ header chunk, w.state.chunks.find? header = some chunk ∧ chunk.serial = serial
  · obtain ⟨header,chunk,hchunk,rfl⟩ := hlive
    rcases (h.invariant.ownership.mem_chunks header).mp ⟨chunk,hchunk⟩ with hreg | ⟨thread,hheld⟩
    · exact Or.inl ⟨_,h.lifecycle.registered header hreg chunk hchunk⟩
    · obtain ⟨phase,hphase⟩ := mem_held.mp hheld
      exact Or.inr (Or.inl ⟨_,phase,h.lifecycle.held thread _ hphase chunk hchunk⟩)
  · refine Or.inr (Or.inr (h.lifecycle.gone serial hlt fun header chunk hchunk he => ?_))
    exact hlive ⟨header,chunk,hchunk,he⟩

theorem count_destructorCall (serial : ℕ) (destructor : Option ℕ) :
    (destructorCall serial destructor).count (.finalized serial) ≤ 1 := by
  cases destructor <;> simp [destructorCall]

theorem Past.finalized_le {serial : ℕ} {destructor : Option ℕ} {phase : Phase}
    {events : List Event} (h : Past serial destructor phase events) :
    events.count (.finalized serial) ≤ 1 := by
  cases h with
  | finalized batch =>
    rw [List.count_append]
    simpa [List.count_cons] using count_destructorCall serial destructor
  | _ => simp

theorem ReachableWorld.finalized_once (h : ReachableWorld w) {serial : ℕ}
    (hlt : serial < w.state.nextSerial) : (history w.log serial).count (.finalized serial) ≤ 1 := by
  rcases h.history_cases hlt with ⟨destructor,he⟩ | ⟨destructor,phase,hp⟩ |
    ⟨destructor,phase,past,-,hp,he⟩
  · simp [he]
  · exact hp.finalized_le
  · rw [he, List.count_append]
    simpa [List.count_cons] using hp.finalized_le

theorem ReachableWorld.not_finalized (h : ReachableWorld w) {serial : ℕ}
    (hr : .released serial ∈ w.log) : .finalized serial ∉ w.log := by
  intro hf
  have hmem : ∀ {e : Event}, e ∈ w.log → e.serial = serial → e ∈ history w.log serial :=
    fun he hs => List.mem_filter.mpr ⟨he,decide_eq_true hs⟩
  have hr' := hmem hr rfl
  have hf' := hmem hf rfl
  have hpast : ∀ {destructor phase past}, Past serial destructor phase past →
      .released serial ∈ past → .finalized serial ∉ past := by
    intro destructor phase past hp hr
    cases hp with
    | finalized batch => cases destructor <;> simp [destructorCall] at hr
    | _ => simp_all
  have hlt : serial < w.state.nextSerial := h.lifecycle.recorded _ hr
  rcases h.history_cases hlt with ⟨destructor,he⟩ |
    ⟨destructor,phase,hp⟩ | ⟨destructor,phase,past,-,hp,he⟩
  · simp [he] at hr'
  · exact hpast hp hr' hf'
  · rw [he, List.mem_append] at hr' hf'
    have hrp : .released serial ∈ past := by simpa using hr'
    have hfp : .finalized serial ∈ past := by simpa using hf'
    exact hpast hp hrp hfp

end
end GcLib.Protocol
