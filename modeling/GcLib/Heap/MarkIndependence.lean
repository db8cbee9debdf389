import GcLib.Heap.Collect
import GcLib.Heap.Operations
import GcLib.Support.Agreement

/-! # Where mark bytes have no influence

A collection clears the mark byte of every registered block before it reads any, and
nothing else decides by mark bytes. So the windows return the same from two states
that differ in mark bytes only, and whatever a failed collection leaves set is
forgotten by the next one. Diagnostic snapshots report the byte and are compared
without it.
-/

namespace GcLib.Heap
open Support Exec

section
variable {α : Type} {R : State → State → Prop} {visitor : α → ℕ → M α}

theorem State.EqButMarks.eq_with {s₁ s₂ : State} (h : s₁.EqButMarks s₂) :
    s₁ = { s₂ with marks := s₁.marks } :=
  congrArg (fun s : State => { s with marks := s₁.marks }) h.eq

theorem State.EqButMarks.symm {s₁ s₂ : State} (h : s₁.EqButMarks s₂) : s₂.EqButMarks s₁ :=
  h.eq_with.symm

/-! ## Computations that read no mark byte -/

/-- What follows a read does not depend on the mark bytes it found. -/
theorem respects_getState {k : State → M α}
    (heq : ∀ (s : State) marks, k { s with marks := marks } = k s)
    (hk : ∀ s, Respects State.EqButMarks (k s)) : Respects State.EqButMarks (get >>= k) := by
  refine respects_get (fun s₁ s₂ h => ?_) hk
  rw [h.eq_with]
  exact heq s₂ s₁.marks

theorem respects_modifyState {g : State → State}
    (h : ∀ (s : State) marks, ∃ marks', g { s with marks := marks } = { g s with marks := marks' }) :
    Respects State.EqButMarks (modify g : M Unit) := by
  refine respects_modify fun s₁ s₂ hs => ?_
  obtain ⟨marks',heq⟩ := h s₂ s₁.marks
  rw [hs.eq_with, heq]
  rfl

theorem respects_forPayloadWords {body : α → ℕ → M α} (h : ∀ a cur, Respects R (body a cur))
    (payloadEnd fuel : ℕ) : ∀ cur a, Respects R (forPayloadWords payloadEnd body fuel cur a) := by
  induction fuel with
  | zero => exact fun _ _ => respects_diverge
  | succ fuel ih =>
    intro cur a
    exact .ite ((h a cur).bind fun a => ih _ a) (respects_pure a)

section
variable (hR : ∀ s₁ s₂, R s₁ s₂ → s₁.EqButMarks s₂) (hv : ∀ a word, Respects R (visitor a word))
include hR hv

theorem respects_scanWordsLoop (finish fuel : ℕ) :
    ∀ cur a, Respects R (scanWordsLoop finish visitor fuel cur a) := by
  induction fuel with
  | zero => exact fun _ _ => respects_diverge
  | succ fuel ih =>
    intro cur a
    apply Respects.ite _ (respects_pure a)
    refine respects_get (fun s₁ s₂ h => ?_) fun s => (hv a _).bind fun a => ih _ a
    rw [(hR s₁ s₂ h).memory]

theorem respects_scanWords (fuel begin_ end_ : ℕ) (a : α) :
    Respects R (scanWords fuel begin_ end_ visitor a) := by
  have hascending : ∀ start finish, Respects R (scanAscending fuel start finish visitor a) :=
    fun start finish => .ite (respects_pure a) (respects_scanWordsLoop hR hv finish fuel _ a)
  exact .ite (respects_pure a) (.ite (hascending _ _) (hascending _ _))

theorem respects_scanStackRange (fuel top bottom : ℕ) (a : α) :
    Respects R (scanStackRange fuel top bottom visitor a) :=
  .ite (respects_pure a) (respects_scanWords hR hv fuel top bottom a)

theorem respects_rootScan (fuel bottom : ℕ) (env : ScanEnvironment) (a : α) :
    Respects R (rootScan fuel bottom env visitor a) := by
  refine (respects_foldlM hv env.registers a).bind fun a => ?_
  refine (respects_scanStackRange hR hv fuel env.localMarker bottom a).bind fun a => ?_
  refine respects_foldlM (fun a image => ?_) env.images a
  exact respects_foldlM (fun a segment => .ite (respects_scanWords hR hv fuel _ _ a)
    (respects_pure a)) image.segments a

end

/-! ## Finalization order -/

section
variable (hR : ∀ s₁ s₂, R s₁ s₂ → s₁.EqButMarks s₂)

theorem respects_recordReference (blocks : List BlockRecord) (indexByBegin : OrderedMap ℕ ℕ)
    (sourceIndex : ℕ) (graph : FinalizationGraph) (candidate : ℕ) :
    Respects R (recordReference blocks indexByBegin sourceIndex graph candidate) := by
  unfold recordReference
  cases indexByBegin.floor? candidate with
  | none => exact respects_pure graph
  | some targetIndex =>
    exact .ite (respects_pure graph) (.ite (respects_pure graph)
      ((Vec.respects_pushBack _ _ _).bind fun _ => respects_pure _))

theorem respects_relaxTarget (progress : EmissionState) (targetIndex : ℕ) :
    Respects R (relaxTarget progress targetIndex) :=
  .ite (.ite ((Vec.respects_pushBack _ _ _).bind fun _ => respects_pure _) (respects_pure _))
    (respects_pure _)

theorem respects_emitReady (blocks : List BlockRecord) (edges : ℕ → Vec ℕ) (fuel : ℕ) :
    ∀ progress, Respects R (emitReady blocks edges fuel progress) := by
  induction fuel with
  | zero => exact fun _ => respects_diverge
  | succ fuel ih =>
    intro progress
    unfold emitReady
    cases progress.ready.items.argmax (fun index => (blockAt blocks index).payloadBegin) with
    | none => exact respects_pure progress
    | some index =>
      apply Respects.ite (ih _)
      refine (Vec.respects_pushBack _ _ _).bind fun _ => ?_
      exact (respects_foldlM respects_relaxTarget _ _).bind fun progress => ih progress

include hR in
theorem respects_orderBlocksForFinalizationLocked (fuel : ℕ) (blocks : List BlockRecord) :
    Respects R (orderBlocksForFinalizationLocked fuel blocks) := by
  have hallocate : Respects R allocate := respects_allocate _
  have hindex : Respects R (indexBlocksByBegin blocks) :=
    respects_foldlM (fun _ _ => hallocate.bind fun _ => respects_pure _) _ _
  have hedges : ∀ indexByBegin, Respects R (collectEdges fuel blocks indexByBegin) := by
    intro indexByBegin
    refine respects_foldlM (fun graph sourceIndex => ?_) _ _
    refine respects_forPayloadWords (fun graph cur => ?_) _ _ _ _
    refine respects_get (fun s₁ s₂ h => ?_) fun s => respects_recordReference _ _ _ _ _
    rw [(hR s₁ s₂ h).memory]
  have hready : ∀ indegree, Respects R (readyIndices blocks.length indegree) := fun indegree =>
    respects_foldlM (fun _ _ => .ite (Vec.respects_pushBack _ _ _) (respects_pure _)) _ _
  have hremaining : ∀ progress, Respects R (emitRemaining blocks progress) := fun progress =>
    respects_foldlM (fun _ _ => .ite (respects_pure _) (Vec.respects_pushBack _ _ _)) _ _
  apply Respects.ite
  · exact (Vec.respects_reserve _ _).bind fun _ => respects_pure _
  · refine hindex.bind fun indexByBegin => hallocate.bind fun _ => hallocate.bind fun _ => ?_
    refine (hedges indexByBegin).bind fun graph => (hready _).bind fun ready => ?_
    refine (Vec.respects_reserve _ _).bind fun ordered => hallocate.bind fun _ => ?_
    refine (respects_emitReady blocks graph.edges fuel _).bind fun progress => ?_
    exact (hremaining progress).bind fun _ => respects_pure _

end
end

/-! ## The windows -/

/-- The mark bytes of the registered blocks are the same. -/
def SameLiveMarks (s₁ s₂ : State) : Prop :=
  s₁.EqButMarks s₂ ∧ ∀ b ∈ s₂.allocations.values, s₁.marks b.header = s₂.marks b.header

section
variable {s₁ s₂ : State} {fuel : ℕ} {collector : ThreadId} {env : ScanEnvironment}

theorem SameLiveMarks.setMarked (h : SameLiveMarks s₁ s₂) (header : ℕ) (value : Bool) :
    SameLiveMarks (s₁.setMarked header value) (s₂.setMarked header value) := by
  constructor
  · rw [h.1.eq_with]
    rfl
  · intro b hb
    simp only [State.setMarked, Function.update_apply]
    split_ifs
    · rfl
    · exact h.2 b hb

/-- Clearing leaves no trace of the mark bytes of registered blocks. -/
theorem sameLiveMarks_clear (h : s₁.EqButMarks s₂) :
    SameLiveMarks s₁.clearMarksLocked s₂.clearMarksLocked := by
  have hclear : s₂.clearMarksLocked.allocations = s₂.allocations :=
    s₂.clearMarksLocked_eqButMarks.allocations
  refine ⟨(s₁.clearMarksLocked_eqButMarks.trans h).trans s₂.clearMarksLocked_eqButMarks.symm,?_⟩
  intro b hb
  rw [hclear] at hb
  have hmem := List.mem_map_of_mem (f := BlockRecord.header) hb
  rw [State.clearMarksLocked_marks, State.clearMarksLocked_marks, h.allocations, if_pos hmem,
    if_pos hmem]

theorem respects_markCandidateLocked (worklist : Worklist) (word : ℕ) :
    Respects SameLiveMarks (markCandidateLocked worklist word) := by
  refine respects_get (fun s₁ s₂ h => ?_) fun s => ?_
  · rw [h.1.findBlockLocked]
    cases hfound : s₂.findBlockLocked word with
    | none => rfl
    | some block =>
      have hlive : block ∈ s₂.allocations.values := by
        unfold State.findBlockLocked at hfound
        split at hfound
        · cases hfound
        · rename_i block' hfloor
          split_ifs at hfound
          cases hfound
          obtain ⟨key,hmem,-⟩ := OrderedMap.floor?_eq_some.mp hfloor
          exact OrderedMap.mem_values.mpr ⟨key,hmem⟩
      refine if_congr ?_ rfl rfl
      rw [h.1.header, State.isMarked, State.isMarked, h.2 block hlive]
  · cases s.findBlockLocked word with
    | none => exact respects_pure worklist
    | some block =>
      apply Respects.ite (respects_pure worklist)
      refine (respects_modify fun s₁ s₂ h => h.setMarked block.header true).bind fun _ => ?_
      exact Vec.respects_pushBack _ _ _

theorem respects_drainMarkWorklistLocked (scanFuel fuel : ℕ) :
    ∀ worklist, Respects SameLiveMarks (drainMarkWorklistLocked scanFuel fuel worklist) := by
  induction fuel with
  | zero => exact fun _ => respects_diverge
  | succ fuel ih =>
    rintro ⟨items,capacity⟩
    cases items with
    | nil => exact respects_pure _
    | cons block items =>
      apply Respects.bind _ ih
      refine respects_forPayloadWords (fun worklist cur => ?_) _ _ _ _
      refine respects_get (fun s₁ s₂ h => ?_) fun s => respects_markCandidateLocked _ _
      rw [h.1.memory]

theorem agree_markLocked (h : s₁.EqButMarks s₂) :
    Agree (markLocked fuel collector env) (markLocked fuel collector env) s₁ s₂
      (fun _ t₁ _ t₂ => SameLiveMarks t₁ t₂) SameLiveMarks := by
  have hv := respects_markCandidateLocked
  have hR : ∀ s₁ s₂, SameLiveMarks s₁ s₂ → s₁.EqButMarks s₂ := fun _ _ h => h.1
  have hconstructing : ∀ worklist, Respects SameLiveMarks (markConstructing worklist) := by
    intro worklist
    refine respects_get (fun s₁ s₂ h => ?_) fun s => ?_
    · rw [h.1.allocations]
    · exact respects_foldlM (fun worklist entry => .ite (hv worklist _) (respects_pure _)) _ _
  have hthread : ∀ worklist entry,
      Respects SameLiveMarks (scanRegisteredThread fuel collector env worklist entry) := by
    intro worklist entry
    apply Respects.ite (respects_pure worklist)
    apply Respects.ite (respects_rootScan hR hv fuel _ env worklist)
    exact (respects_foldlM hv _ worklist).bind fun _ => respects_scanStackRange hR hv fuel _ _ _
  have hthreads : ∀ worklist,
      Respects SameLiveMarks (scanRegisteredThreadsLocked fuel collector env worklist) := by
    intro worklist
    refine respects_get (fun s₁ s₂ h => ?_) fun s => respects_foldlM hthread _ _
    rw [h.1.threads]
  have hroots : ∀ worklist,
      Respects SameLiveMarks (scanRegisteredRootsLocked fuel worklist) := by
    intro worklist
    refine respects_get (fun s₁ s₂ h => ?_) fun s => ?_
    · rw [h.1.registeredRootRanges]
    · exact respects_foldlM (fun worklist range => respects_scanWords hR hv fuel _ _ _) _ _
  have hmark : Respects SameLiveMarks (do
      let s ← (get : M State)
      let worklist ← Vec.reserve .badAlloc s.allocations.size
      let worklist ← markConstructing worklist
      let worklist ← scanRegisteredThreadsLocked fuel collector env worklist
      let worklist ← scanRegisteredRootsLocked fuel worklist
      let _ ← drainMarkWorklistLocked fuel fuel worklist) := by
    refine respects_get (fun s₁ s₂ h => ?_) fun s => ?_
    · rw [h.1.allocations]
    · refine (Vec.respects_reserve _ _).bind fun worklist => (hconstructing worklist).bind ?_
      refine fun worklist => (hthreads worklist).bind fun worklist => (hroots worklist).bind ?_
      exact fun worklist => (respects_drainMarkWorklistLocked fuel fuel worklist).bind fun _ =>
        respects_pure _
  refine agree_bind (agree_modify ?_)
  exact (hmark _ _ (sameLiveMarks_clear h)).mono (fun _ _ _ _ h => h.2) fun _ _ => id

/-- The erase loop decides by the mark bytes of the registered blocks. -/
theorem foldl_sweepBlock_agree (entries : List (ℕ × BlockRecord)) : ∀ {s₁ s₂ : State},
    s₁.EqButMarks s₂ → (∀ e ∈ entries, s₁.marks e.2.header = s₂.marks e.2.header) →
      (entries.foldl sweepBlock s₁).EqButMarks (entries.foldl sweepBlock s₂) := by
  induction entries with
  | nil => exact fun h _ => h
  | cons entry entries ih =>
    intro s₁ s₂ h hm
    rw [List.foldl_cons, List.foldl_cons]
    apply ih
    · have he := hm entry List.mem_cons_self
      unfold sweepBlock
      cases hmark : s₂.marks entry.2.header with
      | true =>
        simp only [State.isMarked, he, hmark]
        rw [h.eq_with]
        rfl
      | false =>
        simp only [State.isMarked, he, hmark]
        rw [h.eq_with]
        rfl
    · intro e hmem
      rw [sweepBlock_marks, sweepBlock_marks, hm e (List.mem_cons_of_mem _ hmem)]

theorem agree_sweepLocked (h : SameLiveMarks s₁ s₂) :
    Agree (sweepLocked fuel) (sweepLocked fuel) s₁ s₂
      (fun a₁ t₁ a₂ t₂ => a₁ = a₂ ∧ t₁.EqButMarks t₂) State.EqButMarks := by
  have hlive : s₁.unmarkedBlocks = s₂.unmarkedBlocks := by
    simp only [State.unmarkedBlocks, State.isMarked, h.1.allocations]
    exact List.filter_congr fun b hb => by rw [h.2 b hb]
  have hR : ∀ s₁ s₂, SameLiveMarks s₁ s₂ → s₁.EqButMarks s₂ := fun _ _ h => h.1
  apply agree_get
  rw [hlive, h.1.allocations]
  refine agree_bind ((Vec.respects_reserve _ _ s₁ s₂ h).mono ?_ hR)
  rintro _ t₁ _ t₂ ⟨-,ht⟩
  refine agree_bind ((respects_orderBlocksForFinalizationLocked hR _ _ t₁ t₂ ht).mono ?_ hR)
  rintro ordered u₁ _ u₂ ⟨rfl,hu⟩
  refine agree_bind (agree_modify (agree_pure ⟨rfl,?_⟩))
  rw [hu.1.allocations]
  refine foldl_sweepBlock_agree _ hu.1 fun e he => ?_
  exact hu.2 e.2 (OrderedMap.mem_values.mpr ⟨e.1,he⟩)

/-- A collection does not depend on the mark bytes it finds. -/
theorem respects_collectWindow :
    Respects State.EqButMarks (collectWindow fuel collector env) := by
  intro s₁ s₂ h
  refine agree_bind ((agree_markLocked h).mono ?_ fun _ _ h => h.1)
  intro _ t₁ _ t₂ ht
  refine agree_bind ((agree_sweepLocked ht).mono ?_ fun _ _ => id)
  rintro unreachable u₁ _ u₂ ⟨rfl,hu⟩
  refine agree_bind (agree_modify (agree_pure ⟨rfl,?_⟩))
  rw [hu.eq_with]
  rfl

theorem respects_shutdownWindow : Respects State.EqButMarks (shutdownWindow fuel) := by
  have hdetach : Respects State.EqButMarks (detachAllBlocksLocked fuel) := by
    refine respects_getState (fun _ _ => rfl) fun s => (Vec.respects_reserve _ _).bind fun _ => ?_
    refine (respects_orderBlocksForFinalizationLocked (fun _ _ => id) _ _).bind fun _ => ?_
    exact (respects_modifyState fun s marks => ⟨marks,rfl⟩).bind fun _ => respects_pure _
  refine respects_getState (fun _ _ => rfl) fun s => .ite (respects_raise _) ?_
  refine hdetach.bind fun blocks => ?_
  exact (respects_modifyState fun s marks => ⟨marks,rfl⟩).bind fun _ => respects_pure _

end

/-! ## Sections of the other operations -/

section
variable {thread : ThreadId}

theorem respects_allocateState : Respects State.EqButMarks allocate := respects_allocate _

theorem respects_requireRegisteredThreadLocked :
    Respects State.EqButMarks (requireRegisteredThreadLocked thread) :=
  respects_getState (fun _ _ => rfl) fun _ => .ite (respects_pure _) (respects_raise _)

theorem respects_registerStackBottomLocked (stackBottom : ℕ) :
    Respects State.EqButMarks (registerStackBottomLocked thread stackBottom) := by
  have hset : Respects State.EqButMarks (do
      Exec.modify (fun s => s.setStackBottom thread stackBottom)
      pure Value.unit : M Value) :=
    (respects_modifyState fun s marks => ⟨marks,rfl⟩).bind fun _ => respects_pure _
  exact respects_getState (fun _ _ => rfl) fun _ =>
    .ite (respects_allocateState.bind fun _ => hset) hset

theorem respects_publishAllocation (header : ℕ) (constructing : Bool) :
    Respects State.EqButMarks (publishAllocation thread header constructing) := by
  refine respects_requireRegisteredThreadLocked.bind fun _ => ?_
  refine respects_getState (fun _ _ => rfl) fun s => .ite (respects_raise _) ?_
  refine (respects_modifyState fun s marks => ⟨marks,rfl⟩).bind fun _ => ?_
  have hblock : Respects State.EqButMarks (registerBlockLocked header) :=
    respects_allocateState.bind fun _ => respects_modifyState fun s marks => ⟨marks,rfl⟩
  refine hblock.bind fun _ => ?_
  exact (respects_modifyState fun s marks => ⟨marks,rfl⟩).bind fun _ => respects_pure _

theorem respects_finishConstructionLocked (payload : ℕ) :
    Respects State.EqButMarks (finishConstructionLocked payload) := by
  refine respects_getState (fun _ _ => rfl) fun s => ?_
  cases s.allocations.find? payload with
  | none => exact respects_raise _
  | some block =>
    exact (respects_modifyState fun s marks => ⟨marks,rfl⟩).bind fun _ => respects_pure _

theorem respects_releaseUnconstructedLocked (payload : ℕ) :
    Respects State.EqButMarks (releaseUnconstructedLocked thread payload) := by
  refine respects_requireRegisteredThreadLocked.bind fun _ => ?_
  refine respects_getState (fun _ _ => rfl) fun s => ?_
  cases s.allocations.find? payload with
  | none => exact respects_pure _
  | some block =>
    exact (respects_modifyState fun s marks => ⟨marks,rfl⟩).bind fun _ => respects_pure _

theorem respects_shouldCollectLocked (incoming : ℕ) :
    Respects State.EqButMarks (shouldCollectLocked thread incoming) :=
  respects_requireRegisteredThreadLocked.bind fun _ =>
    respects_getState (fun _ _ => rfl) fun _ => respects_pure _

theorem respects_registerWeakRefLocked (target storage : ℕ) :
    Respects State.EqButMarks (registerWeakRefLocked target storage) := by
  refine respects_getState (fun _ _ => rfl) fun s => .ite (respects_pure _) (.ite ?_ ?_)
  · exact (respects_modifyState fun s marks => ⟨marks,rfl⟩).bind fun _ => respects_pure _
  · refine respects_allocateState.bind fun _ => ?_
    exact (respects_modifyState fun s marks => ⟨marks,rfl⟩).bind fun _ => respects_pure _

theorem respects_copyWeakRefLocked (oldStorage newStorage : ℕ) :
    Respects State.EqButMarks (copyWeakRefLocked oldStorage newStorage) := by
  refine respects_getState (fun _ _ => rfl) fun s => ?_
  cases findWeakRef s.weakRefs oldStorage with
  | none => exact (respects_modifyState fun s marks => ⟨marks,rfl⟩).bind fun _ => respects_pure _
  | some entry =>
    refine respects_allocateState.bind fun _ => ?_
    exact (respects_modifyState fun s marks => ⟨marks,rfl⟩).bind fun _ => respects_pure _

theorem respects_updateWeakRefLocked (oldStorage newStorage : ℕ) :
    Respects State.EqButMarks (updateWeakRefLocked oldStorage newStorage) := by
  refine respects_getState (fun _ _ => rfl) fun s => ?_
  cases findWeakRef s.weakRefs oldStorage with
  | none => exact (respects_modifyState fun s marks => ⟨marks,rfl⟩).bind fun _ => respects_pure _
  | some entry =>
    exact (respects_modifyState fun s marks => ⟨marks,rfl⟩).bind fun _ => respects_pure _

end

/-! ## Diagnostics -/

def HeapObjectInfo.forgetMark (object : HeapObjectInfo) : HeapObjectInfo :=
  { object with marked := false }

def Value.forgetMarks : Value → Value
  | .objects snapshots => .objects (snapshots.map HeapObjectInfo.forgetMark)
  | .object snapshot => .object (snapshot.map HeapObjectInfo.forgetMark)
  | value => value

/-- Two lists of descriptions of the same shape, in vectors of the same capacity. -/
def SameDescriptions (v₁ v₂ : Vec HeapObjectInfo) : Prop :=
  v₁.items.map HeapObjectInfo.forgetMark = v₂.items.map HeapObjectInfo.forgetMark ∧
    v₁.capacity = v₂.capacity

section
variable {s₁ s₂ : State} {fuel : ℕ}

theorem respects_collectOutgoingReferencesLocked (block : BlockRecord) :
    Respects State.EqButMarks (collectOutgoingReferencesLocked fuel block) := by
  refine (respects_forPayloadWords (fun references cur => ?_) _ _ _ _).bind fun _ =>
    respects_pure _
  refine respects_getState (fun _ _ => rfl) fun s => ?_
  cases s.findBlockLocked (readWord s.memory cur) with
  | none => exact respects_pure _
  | some target =>
    exact .ite (respects_pure _) (.ite (respects_pure _) (Vec.respects_pushBack _ _ _))

theorem agree_describeBlockLocked (h : s₁.EqButMarks s₂) (block : BlockRecord) :
    Agree (describeBlockLocked fuel block) (describeBlockLocked fuel block) s₁ s₂
      (fun o₁ t₁ o₂ t₂ => o₁.forgetMark = o₂.forgetMark ∧ t₁.EqButMarks t₂) State.EqButMarks := by
  apply agree_get
  refine agree_bind ((respects_collectOutgoingReferencesLocked block s₁ s₂ h).mono ?_
    fun _ _ => id)
  rintro references t₁ _ t₂ ⟨rfl,ht⟩
  refine agree_pure ⟨?_,ht⟩
  simp only [HeapObjectInfo.forgetMark, State.payloadBegin, h.header]

theorem agree_pushDescription {v₁ v₂ : Vec HeapObjectInfo} {o₁ o₂ : HeapObjectInfo}
    (h : s₁.EqButMarks s₂) (hv : SameDescriptions v₁ v₂) (ho : o₁.forgetMark = o₂.forgetMark) :
    Agree (v₁.pushBack .badAlloc o₁) (v₂.pushBack .badAlloc o₂ : M (Vec HeapObjectInfo)) s₁ s₂
      (fun v₁ t₁ v₂ t₂ => SameDescriptions v₁ v₂ ∧ t₁.EqButMarks t₂) State.EqButMarks := by
  have hlength : v₁.items.length = v₂.items.length := by
    simpa using congrArg List.length hv.1
  have hitems : (o₁ :: v₁.items).map HeapObjectInfo.forgetMark =
      (o₂ :: v₂.items).map HeapObjectInfo.forgetMark := by
    rw [List.map_cons, List.map_cons, ho, hv.1]
  unfold Vec.pushBack
  rw [hlength, hv.2]
  split_ifs
  · exact agree_pure ⟨⟨hitems,rfl⟩,h⟩
  · exact agree_bind (agree_allocate (agree_pure ⟨⟨hitems,rfl⟩,h⟩) h)

/-- The snapshots of all blocks are the same but for the mark bytes they report. -/
theorem agree_liveObjectsLocked (h : s₁.EqButMarks s₂) :
    Agree (liveObjectsLocked fuel) (liveObjectsLocked fuel) s₁ s₂
      (fun l₁ t₁ l₂ t₂ => l₁.map HeapObjectInfo.forgetMark = l₂.map HeapObjectInfo.forgetMark ∧
        t₁.EqButMarks t₂) State.EqButMarks := by
  apply agree_get
  rw [h.allocations]
  refine agree_bind ((Vec.respects_reserve _ _ s₁ s₂ h).mono ?_ fun _ _ => id)
  rintro objects t₁ _ t₂ ⟨rfl,ht⟩
  refine agree_bind ((agree_foldlM (I := fun _ v₁ t₁ v₂ t₂ => SameDescriptions v₁ v₂ ∧
    t₁.EqButMarks t₂) ?_ _ ⟨⟨rfl,rfl⟩,ht⟩).mono ?_ fun _ _ => id)
  · rintro block - v₁ u₁ v₂ u₂ ⟨hv,hu⟩
    refine agree_bind ((agree_describeBlockLocked hu block).mono ?_ fun _ _ => id)
    rintro o₁ u₁ o₂ u₂ ⟨ho,hu⟩
    exact agree_pushDescription hu hv ho
  · rintro v₁ u₁ v₂ u₂ ⟨hv,hu⟩
    refine agree_pure ⟨?_,hu⟩
    rw [List.map_reverse, List.map_reverse, hv.1]

theorem agree_objectInfoLocked (h : s₁.EqButMarks s₂) (pointer : ℕ) :
    Agree (objectInfoLocked fuel pointer) (objectInfoLocked fuel pointer) s₁ s₂
      (fun o₁ t₁ o₂ t₂ => o₁.map HeapObjectInfo.forgetMark = o₂.map HeapObjectInfo.forgetMark ∧
        t₁.EqButMarks t₂) State.EqButMarks := by
  apply agree_get
  rw [h.findBlockLocked]
  cases s₂.findBlockLocked pointer with
  | none => exact agree_pure ⟨rfl,h⟩
  | some block =>
    refine agree_bind ((agree_describeBlockLocked h block).mono ?_ fun _ _ => id)
    rintro o₁ t₁ o₂ t₂ ⟨ho,ht⟩
    exact agree_pure ⟨congrArg some ho,ht⟩

end
end GcLib.Heap
