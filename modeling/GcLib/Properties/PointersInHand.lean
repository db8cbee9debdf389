import GcLib.Client.StrongRegistry
import GcLib.Protocol.ConstructionCalls

/-! # Pointers in the hand of a thread

A pointer that the manager returns to a registered thread is in nobody's root range yet. Its block
stays registered as long as the thread is in its own code, whatever the other threads do, because no
window completes before the thread parks.
-/

namespace GcLib.Properties
open GcLib.Heap GcLib.Support GcLib.Protocol GcLib.Client Relation

/-- The pointer that a section returns to its thread: of a new block, of a block that the thread
has constructed, or of the block that a weak handle promotes. -/
inductive Hands (s : State) : Section → Value → ℕ → Prop where
  | allocated (header : ℕ) (constructing : Bool) :
      Hands s (.publish header constructing) (.word (s.payloadBegin header)) (s.payloadBegin header)
  | constructed (payload : ℕ) : Hands s (.call (.finishConstruction payload)) .unit payload
  | promoted {storage pointer : ℕ} (h : pointer ≠ 0) :
      Hands s (.call (.readWeakRef storage)) (.word pointer) pointer

/-- A step past a registered thread in its own code, which spares the block of the pointer. -/
def Attended (thread : ThreadId) (origin : Origin) (w w' : World) : Prop :=
  ∃ label, step label w = some w' ∧ w.state.isRegistered thread = true ∧
    inUserCode (w.control thread) = true ∧
    ∀ b ∈ w.state.allocations.values, b.Contains origin.pointer → SparesBlock b label w

section
variable {w w' : World} {thread : ThreadId} {origin : Origin} {s : State} {b : BlockRecord}
  {payload : ℕ}

theorem contains_payloadBegin (h : HeapInvariant s) (hb : b ∈ s.allocations.values) :
    b.Contains b.payloadBegin :=
  ⟨le_refl _,(h.payload_bounds hb).2.1⟩

theorem meets_finished (thread : ThreadId) (fuel : ℕ) :
    (Section.body thread fuel (.call (.finishConstruction payload))).Meets s
      (fun _ s' => (∃ block, s.allocations.find? payload = some block) ∧
        s' = s.setConstructing payload false) (fun _ _ => True) := by
  refine Exec.meets_bind (Exec.meets_get ?_)
  refine Exec.meets_bind (Exec.meets_bind (Exec.meets_get ?_))
  cases hf : s.allocations.find? payload with
  | none => exact Exec.meets_raise trivial
  | some block =>
    exact Exec.meets_bind (Exec.meets_modify (Exec.meets_pure (Exec.meets_pure ⟨⟨block,rfl⟩,rfl⟩)))

/-- A thread that returns with a value has run its section. -/
theorem returned_section {code : Section} {stage : Stage} {below : List Frame} {choice : Choice}
    {value : Value} (hc : w.control thread = .entering code stage :: below)
    (hu : inUserCode below = true) (hstep : step (.run thread choice) w = some w')
    (hc' : w'.control thread = below) (hresult : w'.result thread = some (.ok value)) :
    ∃ s s' fuel supply supply', Cooperated thread w.state code stage s ∧
      code.body thread fuel s supply = .returns (.done value) s' supply' ∧ w'.state = s' := by
  have hne : ∀ {frame : Frame}, frame :: below ≠ below := fun {_} => List.cons_ne_self _ _
  have herror : ∀ {u : World} {e : GCError}, (u.deliver thread below (.error e)).result thread ≠
      some (.ok value) := by
    intro u e he
    rw [deliver_result hu] at he
    cases he
  have htransition : Transition thread w w' := step_transition hstep
  cases htransition with
  | runsSection hc'' hco hrun =>
    rename_i s s' fuel supply supply' next
    rw [hc] at hc''
    cases hc''
    refine ⟨s,s',fuel,supply,supply',hco,?_,proceed_state next⟩
    rw [proceed_control, Function.update_self] at hc'
    cases next with
    | done value' =>
      have he := (deliver_result hu _).symm.trans hresult
      cases he
      exact hrun
    | _ => exact absurd hc' hne
  | callThrows hc'' =>
    rw [hc] at hc''
    cases hc''
    exact absurd hresult herror
  | publishThrows hc'' =>
    rw [hc] at hc''
    cases hc''
    exact absurd hresult herror
  | prologueThrows hc'' =>
    rw [hc] at hc''
    cases hc''
    exact absurd hresult herror
  | stalls hc'' =>
    rw [hc] at hc''
    cases hc''
    exact absurd ((Function.update_self ..).symm.trans hc') hne
  | _ => simp_all [inUserCode]

/-- What `read_weak_ref` returns is null, or the target of an entry. -/
theorem promoted_entry {storage pointer : ℕ} {weakRefs : List WeakRefEntry} {memory : Memory}
    (h : WeakOutcome s (.readWeakRef storage) (.ok (.word pointer)) weakRefs memory)
    (hne : pointer ≠ 0) : ∃ entry ∈ s.weakRefs, entry.target = pointer := by
  generalize hresult : Except.ok (Value.word pointer) = result at h
  cases h with
  | reads =>
    cases hf : findWeakRef s.weakRefs storage with
    | none =>
      rw [hf] at hresult
      cases hresult
      exact absurd rfl hne
    | some entry =>
      rw [hf] at hresult
      cases hresult
      exact ⟨entry,List.mem_of_find?_eq_some hf,rfl⟩
  | changes h => cases h
  | fails => cases hresult

/-- What a section hands out points into a registered block when it returns. -/
theorem hands_live (h : ReachableWorld w) {code : Section} {stage : Stage} {below : List Frame}
    {choice : Choice} {value : Value} {pointer : ℕ} (hhands : Hands w.state code value pointer)
    (hc : w.control thread = .entering code stage :: below) (hu : inUserCode below = true)
    (hstep : step (.run thread choice) w = some w') (hc' : w'.control thread = below)
    (hresult : w'.result thread = some (.ok value)) :
    ∃ b ∈ w'.state.allocations.values, b.Contains pointer := by
  obtain ⟨s,s',fuel,supply,supply',hco,hrun,hstate⟩ := returned_section hc hu hstep hc' hresult
  have hs := hco.sameHeap
  have hheap := hs.heapInvariant h.invariant.heap
  have hr' : ReachableWorld w' := h.step hstep
  have hheap' := hr'.invariant.heap
  rw [hstate] at hheap' ⊢
  cases hhands with
  | allocated header constructing =>
    obtain ⟨⟨chunk,hchunk⟩,hnew⟩ := hco.registrable h.invariant.ownership hc _ _ rfl
    have heffect := effect_of_run h.invariant.heap hco hrun
    generalize Next.done (.word (w.state.payloadBegin header)) = next at heffect
    cases heffect with
    | publish =>
      have hmem := (hheap.publish_values hchunk hnew constructing).mem_iff.mpr List.mem_cons_self
      have hpayload : s.payloadBegin header = w.state.payloadBegin header := by
        simp only [State.payloadBegin, hs.sameChunks.header]
      exact ⟨_,hmem,hpayload ▸ contains_payloadBegin hheap' hmem⟩
  | constructed =>
    obtain ⟨⟨block,hf⟩,rfl⟩ := (meets_finished thread fuel).returns hrun
    have hmem := OrderedMap.find?_eq_some.mp hf
    obtain rfl := hheap.key _ _ hmem
    have hb : block ∈ s.allocations.values := OrderedMap.mem_values.mpr ⟨_,hmem⟩
    obtain ⟨b',hb',-,hbegin,hend⟩ := setConstructing_contains hb
    refine ⟨b',hb',?_⟩
    rw [← hbegin]
    exact contains_payloadBegin hheap' hb'
  | promoted hne =>
    rcases weakCall_step (.run thread choice) rfl hu hc hstep with
      ⟨-,-,stage',hstage⟩ | ⟨u,_,_,_,hsame,hstate',-,-,hresult',houtcome⟩
    · exact absurd (hstage.symm.trans hc') (List.cons_ne_self _ _)
    · obtain rfl := Option.some.inj (hresult.symm.trans hresult')
      obtain ⟨entry,hentry,rfl⟩ := promoted_entry houtcome hne
      obtain ⟨b,hb,hcontains⟩ := h.targetsLive entry hentry
      rw [← hstate, hstate']
      exact ⟨b,hsame.allocations ▸ hb,hcontains⟩

/-- Steps of others spare what the thread has in hand, and its own do nothing to the heap. -/
theorem attended_live {origin : Origin} (h : origin.Live w.state) (hr : ReachableWorld w)
    (hstep : Attended thread origin w w') : origin.Live w'.state := by
  obtain ⟨label,hstep,hregistered,huser,hspares⟩ := hstep
  refine h.step hr hstep fun b hb hcontains => ?_
  by_cases hne : thread = label.thread
  · refine hr.kept hstep hb (hspares b hb hcontains) fun rest blocks env hc _ _ => ?_
    rw [← hne] at hc
    rw [hc] at huser
    cases huser
  · exact hr.in_hand hstep hb (hspares b hb hcontains) hne (hr.unparked hregistered huser)

theorem attended_run (hr : ReachableWorld w) (h : origin.Live w.state)
    (hsteps : ReflTransGen (Attended thread origin) w w') :
    ReachableWorld w' ∧ origin.Live w'.state := by
  induction hsteps with
  | refl => exact ⟨hr,h⟩
  | tail _ hstep ih =>
    refine ⟨?_,attended_live ih.2 ih.1 hstep⟩
    obtain ⟨label,hstep,-⟩ := hstep
    exact ih.1.step hstep

/-- The pointer to a new block, to a block that the thread has constructed, or to a block that a
weak handle promotes, points into a registered block when it is returned. With every pointer into
it this very block stays registered through all steps of all threads as long as the thread that got
it is registered and in its own code, unless the manager is shut down or the block is withdrawn by
hand. -/
theorem pointer_in_hand (h : ReachableWorld w) {code : Section} {stage : Stage}
    {below : List Frame} {choice : Choice} {value : Value} {pointer : ℕ}
    (hhands : Hands w.state code value pointer)
    (hc : w.control thread = .entering code stage :: below) (hu : inUserCode below = true)
    (hstep : step (.run thread choice) w = some w') (hc' : w'.control thread = below)
    (hresult : w'.result thread = some (.ok value)) :
    ∃ b ∈ w'.state.allocations.values, b.Contains pointer ∧ ∀ inner, b.Contains inner →
      let origin : Origin := ⟨inner,w'.state.serial b.header⟩
      origin.Live w'.state ∧
        ∀ w'', ReflTransGen (Attended thread origin) w' w'' → origin.Live w''.state := by
  obtain ⟨b,hb,hcontains⟩ := hands_live h hhands hc hu hstep hc' hresult
  refine ⟨b,hb,hcontains,fun inner hinner => ?_⟩
  intro origin
  have hlive : origin.Live w'.state := ⟨b,hb,hinner,rfl⟩
  exact ⟨hlive,fun w'' hsteps => (attended_run (h.step hstep) hlive hsteps).2⟩

theorem pointer_in_hand_allocatingRun : ∃ b ∈ (worldAfter allocatingRun).state.allocations.values,
    b.Contains 4128 ∧ ∀ inner, b.Contains inner →
      let origin : Origin := ⟨inner,(worldAfter allocatingRun).state.serial b.header⟩
      origin.Live (worldAfter allocatingRun).state ∧
        ∀ w, ReflTransGen (Attended 0 origin) (worldAfter allocatingRun) w →
          origin.Live w.state := by
  have hpayload : (worldAfter allocatingRun.dropLast).state.payloadBegin 4096 = 4128 := by
    decide +kernel
  have hhands : Hands (worldAfter allocatingRun.dropLast).state (.publish 4096 false) (.word 4128)
      4128 := hpayload ▸ .allocated 4096 false
  have hcontrol : (worldAfter allocatingRun.dropLast).control 0 =
      [.entering (.publish 4096 false) .enter] := by decide +kernel
  have hstep : step (.run 0 {}) (worldAfter allocatingRun.dropLast) =
      some (worldAfter allocatingRun) :=
    worldAfter_step allocatingRun.dropLast (.run 0 {}) (by decide +kernel)
  exact pointer_in_hand (reachable_worldAfter _) hhands hcontrol rfl hstep (by decide +kernel)
    (by decide +kernel)

end
end GcLib.Properties
