import GcLib.Protocol.Machine
import GcLib.Heap.Updates

/-! # What a critical section can do

The section bodies, taken together, change the state in nine ways. A section that
throws has changed nothing, except that a failed registration may have cleared the
payload it then frees.
-/

namespace GcLib.Protocol
open GcLib.Heap GcLib.Support

/-- The targets of some entries are old ones or addresses in live blocks. -/
def TargetsFrom (s : State) (weakRefs : List WeakRefEntry) : Prop :=
  ∀ entry ∈ weakRefs, (∃ old ∈ s.weakRefs, entry.target = old.target) ∨
    s.findBlockLocked entry.target ≠ none

theorem TargetsFrom.refl (s : State) : TargetsFrom s s.weakRefs :=
  fun entry he => Or.inl ⟨entry,he,rfl⟩

theorem mem_swapAndPop {storage : ℕ} {weakRefs : List WeakRefEntry} {entry : WeakRefEntry}
    (h : entry ∈ swapAndPop storage weakRefs) : entry ∈ weakRefs := by
  induction weakRefs with
  | nil => cases h
  | cons first rest ih =>
    unfold swapAndPop at h
    split_ifs at h
    · cases hback : rest.getLast? with
      | none => simp [hback] at h
      | some back =>
        rw [hback] at h
        refine List.mem_cons_of_mem _ ?_
        rcases List.mem_cons.mp h with rfl | h
        · exact List.mem_of_getLast? hback
        · exact List.mem_of_mem_dropLast h
    · rcases List.mem_cons.mp h with rfl | h
      · exact List.mem_cons_self
      · exact List.mem_cons_of_mem _ (ih h)

theorem mem_moveStorage {oldStorage newStorage : ℕ} {weakRefs : List WeakRefEntry}
    {entry : WeakRefEntry} (h : entry ∈ moveStorage oldStorage newStorage weakRefs) :
    ∃ old ∈ weakRefs, entry.target = old.target := by
  induction weakRefs with
  | nil => cases h
  | cons first rest ih =>
    unfold moveStorage at h
    split_ifs at h
    · rcases List.mem_cons.mp h with rfl | h
      · exact ⟨first,List.mem_cons_self,rfl⟩
      · exact ⟨entry,List.mem_cons_of_mem _ h,rfl⟩
    · rcases List.mem_cons.mp h with rfl | h
      · exact ⟨entry,List.mem_cons_self,rfl⟩
      · obtain ⟨old,hold,he⟩ := ih h
        exact ⟨old,List.mem_cons_of_mem _ hold,he⟩

/-- What the weak-reference operations write to the registry and to memory. -/
inductive WeakChange (s : State) : Call → List WeakRefEntry → Memory → Prop where
  | registersNothing {target storage : ℕ} (h₀ : storage ≠ 0)
      (hf : s.findBlockLocked target = none) :
      WeakChange s (.registerWeakRef target storage) s.weakRefs (writeWord s.memory storage 0)
  | registers {target storage : ℕ} (h₀ : storage ≠ 0) (hf : s.findBlockLocked target ≠ none) :
      WeakChange s (.registerWeakRef target storage) (s.weakRefs ++ [⟨target,storage⟩]) s.memory
  | unregisters {storage : ℕ} :
      WeakChange s (.unregisterWeakRef storage) (swapAndPop storage s.weakRefs) s.memory
  | copiesNothing {oldStorage newStorage : ℕ} (hf : findWeakRef s.weakRefs oldStorage = none) :
      WeakChange s (.copyWeakRef oldStorage newStorage) s.weakRefs
        (writeWord s.memory newStorage 0)
  | copies {oldStorage newStorage : ℕ} {entry : WeakRefEntry}
      (hf : findWeakRef s.weakRefs oldStorage = some entry) :
      WeakChange s (.copyWeakRef oldStorage newStorage)
        (s.weakRefs ++ [⟨entry.target,newStorage⟩])
        (writeWord s.memory newStorage (readWord s.memory oldStorage))
  | movesNothing {oldStorage newStorage : ℕ} (hf : findWeakRef s.weakRefs oldStorage = none) :
      WeakChange s (.updateWeakRef oldStorage newStorage) s.weakRefs
        (writeWord s.memory newStorage 0)
  | moves {oldStorage newStorage : ℕ} {entry : WeakRefEntry}
      (hf : findWeakRef s.weakRefs oldStorage = some entry) :
      WeakChange s (.updateWeakRef oldStorage newStorage)
        (moveStorage oldStorage newStorage s.weakRefs)
        (writeWord (writeWord s.memory newStorage (readWord s.memory oldStorage)) oldStorage 0)

/-- A new entry joins the old ones. -/
theorem TargetsFrom.concat {s : State} {entry : WeakRefEntry}
    (h : (∃ old ∈ s.weakRefs, entry.target = old.target) ∨
      s.findBlockLocked entry.target ≠ none) : TargetsFrom s (s.weakRefs ++ [entry]) := by
  intro e he
  rcases List.mem_append.mp he with he | he
  · exact TargetsFrom.refl s e he
  · rw [List.mem_singleton.mp he]
    exact h

namespace WeakChange
variable {s : State} {call : Call} {weakRefs : List WeakRefEntry} {memory : Memory}

/-- No operation invents a target. -/
theorem targetsFrom (h : WeakChange s call weakRefs memory) : TargetsFrom s weakRefs := by
  cases h with
  | registersNothing => exact .refl s
  | registers h₀ hf => exact .concat (Or.inr hf)
  | unregisters => exact fun entry he => Or.inl ⟨entry,mem_swapAndPop he,rfl⟩
  | copiesNothing => exact .refl s
  | copies hf => exact .concat (Or.inl ⟨_,List.mem_of_find?_eq_some hf,rfl⟩)
  | movesNothing => exact .refl s
  | moves hf => exact fun entry he => Or.inl (mem_moveStorage he)

end WeakChange

/-- What a section that returns does to the state, by how its thread goes on. -/
inductive Effect (thread : ThreadId) (s : State) : Section → Next → State → Prop where
  | read {call : Call} {value : Value} : Effect thread s (.call call) (.done value) s
  | collect {incoming : ℕ} (hr : s.isRegistered thread = true) :
      Effect thread s (.call (.collectIfNeeded incoming)) .collect s
  | allocate {size alignment : ℕ} {destructor : Option ℕ} {constructing : Bool}
      {request : AllocationRequest} (hr : s.isRegistered thread = true)
      (hq : allocationRequest size alignment destructor constructing = some request) :
      Effect thread s (.call (.mallocInternal size alignment destructor constructing))
        (.allocate request) s
  | window {call : Call} {window : WindowCall} (hc : s.collecting = false) :
      Effect thread s (.call call) (.window window) (s.openWindow thread)
  | registerThread {stackBottom : ℕ} :
      Effect thread s (.call (.registerStackBottom stackBottom)) (.done .unit)
        (s.setStackBottom thread stackBottom)
  | unregisterThread :
      Effect thread s (.call .unregisterCurrentThread) (.done .unit) (s.unregisterThread thread)
  | eraseRootRange {begin_ end_ : ℕ} :
      Effect thread s (.call (.unregisterRootRange begin_ end_)) (.done .unit)
        (s.eraseRootRange (rootRange begin_ end_))
  | setThreshold {bytes : ℕ} :
      Effect thread s (.call (.setCollectionThresholdBytes bytes)) (.done .unit)
        { s with collectionThresholdBytes := bytes }
  | publish {header : ℕ} {constructing : Bool} (hr : s.isRegistered thread = true)
      (hm : s.managedBytes+(s.header header).size < addressLimit)
      (ht : s.reservedBytes+((s.header header).payloadOffset+(s.header header).size) <
        addressLimit) :
      Effect thread s (.publish header constructing) (.done (.word (s.payloadBegin header)))
        (s.publish header constructing)
  | finish {payload : ℕ} {block : BlockRecord} (hf : s.allocations.find? payload = some block) :
      Effect thread s (.call (.finishConstruction payload)) (.done .unit)
        (s.setConstructing payload false)
  | release {payload : ℕ} {block : BlockRecord} (hr : s.isRegistered thread = true)
      (hf : s.allocations.find? payload = some block) :
      Effect thread s (.call (.releaseUnconstructed payload)) (.free block.header)
        (s.removeBlock block)
  | weak {call : Call} {weakRefs : List WeakRefEntry} {memory : Memory}
      (h : WeakChange s call weakRefs memory) :
      Effect thread s (.call call) (.done .unit) { s with weakRefs := weakRefs, memory := memory }

/-- What a section that throws leaves behind. -/
inductive Failed (s : State) : Section → State → Prop where
  | call {call : Call} : Failed s (.call call) s
  | publish {header : ℕ} {constructing : Bool} : Failed s (.publish header constructing) s
  | cleared {header : ℕ} {constructing : Bool} :
      Failed s (.publish header constructing) (s.zeroPayload header)

section Heap
variable {s : State} {thread : ThreadId}

theorem meets_requireRegisteredThreadLocked {Q : Unit → State → Prop} {E : GCError → State → Prop}
    (hQ : s.isRegistered thread = true → Q () s) (hE : ∀ e, E e s) :
    (requireRegisteredThreadLocked thread).Meets s Q E := by
  refine Exec.meets_bind (Exec.meets_get ?_)
  split_ifs with h
  · exact Exec.meets_pure (hQ h)
  · exact Exec.meets_raise (hE _)

theorem meets_collectOutgoingReferencesLocked (fuel : ℕ) (block : BlockRecord) :
    (collectOutgoingReferencesLocked fuel block).Meets s (fun _ s' => s' = s) (Unchanged s) := by
  refine Exec.meets_bind ((meets_forPayloadWords_frame (J := fun _ s' => s' = s) ?_ fuel rfl).mono
    (fun _ _ h => Exec.meets_pure h) (fun _ _ => id))
  rintro cur references s' rfl
  refine Exec.meets_bind (Exec.meets_get ?_)
  cases s'.findBlockLocked (readWord s'.memory cur) with
  | none => exact Exec.meets_pure rfl
  | some target =>
    dsimp only
    split_ifs
    · exact Exec.meets_pure rfl
    · exact Exec.meets_pure rfl
    · exact Vec.meets_pushBack (fun _ => rfl) ⟨rfl,rfl⟩

theorem meets_describeBlockLocked (fuel : ℕ) (block : BlockRecord) :
    (describeBlockLocked fuel block).Meets s (fun _ s' => s' = s) (Unchanged s) := by
  refine Exec.meets_bind (Exec.meets_get ?_)
  exact Exec.meets_bind ((meets_collectOutgoingReferencesLocked fuel block).mono
    (fun _ _ h => Exec.meets_pure h) (fun _ _ => id))

/-- The diagnostic snapshots read the heap and leave it as it is. -/
theorem meets_liveObjectsLocked (fuel : ℕ) :
    (liveObjectsLocked fuel).Meets s (fun _ s' => s' = s) (Unchanged s) := by
  refine Exec.meets_bind (Exec.meets_get (Exec.meets_bind (Vec.meets_reserve ?_ ⟨rfl,rfl⟩)))
  refine Exec.meets_bind ((Exec.meets_foldlM (I := fun _ _ s' => s' = s) ?_ _ rfl).mono
    (fun _ _ h => Exec.meets_pure h) (fun _ _ => id))
  rintro block _ objects s' rfl
  refine Exec.meets_bind ((meets_describeBlockLocked fuel block).mono ?_ (fun _ _ => id))
  rintro object s'' rfl
  exact Vec.meets_pushBack (fun _ => rfl) ⟨rfl,rfl⟩

theorem meets_objectInfoLocked (fuel pointer : ℕ) :
    (objectInfoLocked fuel pointer).Meets s (fun _ s' => s' = s) (Unchanged s) := by
  refine Exec.meets_bind (Exec.meets_get ?_)
  cases s.findBlockLocked pointer with
  | none => exact Exec.meets_pure rfl
  | some block =>
    exact Exec.meets_bind ((meets_describeBlockLocked fuel block).mono
      (fun _ _ h => Exec.meets_pure h) (fun _ _ => id))

end Heap

theorem meets_returning {m : M Value} {s : State} {Q : Next → State → Prop}
    {E : GCError → State → Prop} (h : m.Meets s (fun value s' => Q (.done value) s') E) :
    (returning m).Meets s Q E :=
  Exec.meets_bind (h.mono (fun _ _ h' => Exec.meets_pure h') (fun _ _ => id))

theorem meets_publishAllocation {s : State} {thread : ThreadId} (header : ℕ)
    (constructing : Bool) (hsize : (s.header header).size < addressLimit)
    (htotal : (s.header header).payloadOffset+(s.header header).size < addressLimit) :
    (publishAllocation thread header constructing).Meets s
      (fun value s' => Effect thread s (.publish header constructing) (.done value) s')
      (fun _ s' => Failed s (.publish header constructing) s') := by
  refine Exec.meets_bind (meets_requireRegisteredThreadLocked (fun hr => ?_) (fun _ => .publish))
  refine Exec.meets_bind (Exec.meets_get ?_)
  dsimp only
  split_ifs with hover
  · exact Exec.meets_raise .publish
  · obtain ⟨hm,ht⟩ : addWouldOverflow s.managedBytes (s.header header).size = false ∧
        addWouldOverflow s.reservedBytes
          ((s.header header).payloadOffset+(s.header header).size) = false := by
      simpa using hover
    refine Exec.meets_bind (Exec.meets_modify ?_)
    refine Exec.meets_bind (Exec.meets_bind (Exec.meets_allocate (Exec.meets_modify ?_) .cleared))
    refine Exec.meets_bind (Exec.meets_modify (Exec.meets_pure ?_))
    exact .publish hr (addWouldOverflow_eq_false hm hsize) (addWouldOverflow_eq_false ht htotal)

/-- Every critical section has one of the listed effects. -/
theorem meets_body {s : State} (thread : ThreadId) (fuel : ℕ) (code : Section)
    (hpublish : ∀ header constructing, code = .publish header constructing →
      (s.header header).size < addressLimit ∧
      (s.header header).payloadOffset+(s.header header).size < addressLimit) :
    (code.body thread fuel).Meets s (Effect thread s code) (fun _ => Failed s code) := by
  have hfail : ∀ {call : Call} {e : GCError} {s' : State}, Unchanged s e s' →
      Failed s (.call call) s' := by
    rintro call e s' ⟨-,rfl⟩
    exact .call
  cases code with
  | publish header constructing =>
    obtain ⟨hsize,htotal⟩ := hpublish header constructing rfl
    exact meets_returning (meets_publishAllocation header constructing hsize htotal)
  | call operation =>
    refine Exec.meets_bind (Exec.meets_get ?_)
    cases operation with
    | registerStackBottom stackBottom =>
      refine meets_returning (Exec.meets_bind (Exec.meets_get ?_))
      split_ifs
      · exact Exec.meets_bind (Exec.meets_allocate
          (Exec.meets_bind (Exec.meets_modify (Exec.meets_pure .registerThread))) .call)
      · exact Exec.meets_bind (Exec.meets_modify (Exec.meets_pure .registerThread))
    | unregisterCurrentThread =>
      exact Exec.meets_bind (Exec.meets_modify (Exec.meets_pure .unregisterThread))
    | isCurrentThreadRegistered => exact Exec.meets_pure .read
    | safepoint => exact Exec.meets_pure .read
    | registerRootRange begin_ end_ => exact Exec.meets_pure .read
    | unregisterRootRange begin_ end_ =>
      exact Exec.meets_bind (Exec.meets_modify (Exec.meets_pure .eraseRootRange))
    | setCollectionThresholdBytes bytes =>
      exact Exec.meets_bind (Exec.meets_modify (Exec.meets_pure .setThreshold))
    | collectionThresholdBytes => exact Exec.meets_pure .read
    | managedBytes => exact Exec.meets_pure .read
    | managedBlockCount => exact Exec.meets_pure .read
    | stats => exact Exec.meets_pure .read
    | liveObjects =>
      dsimp only
      split_ifs with hc
      · refine Exec.meets_bind ((meets_liveObjectsLocked fuel).mono ?_ (fun _ _ => hfail))
        rintro objects s' rfl
        exact Exec.meets_pure .read
      · exact Exec.meets_bind (Exec.meets_modify (Exec.meets_pure (.window (by simpa using hc))))
    | objectInfo pointer =>
      dsimp only
      split_ifs with hc
      · refine Exec.meets_bind ((meets_objectInfoLocked fuel pointer).mono ?_ (fun _ _ => hfail))
        rintro object s' rfl
        exact Exec.meets_pure .read
      · exact Exec.meets_bind (Exec.meets_modify (Exec.meets_pure (.window (by simpa using hc))))
    | isLive payload => exact Exec.meets_pure .read
    | mallocInternal size alignment destructor constructing =>
      refine Exec.meets_bind (meets_requireRegisteredThreadLocked (fun hr => ?_) (fun _ => .call))
      cases hq : allocationRequest size alignment destructor constructing with
      | none => exact Exec.meets_raise .call
      | some request => exact Exec.meets_pure (.allocate hr hq)
    | finishConstruction payload =>
      refine meets_returning (Exec.meets_bind (Exec.meets_get ?_))
      cases hf : s.allocations.find? payload with
      | none => exact Exec.meets_raise .call
      | some block => exact Exec.meets_bind (Exec.meets_modify (Exec.meets_pure (.finish hf)))
    | releaseUnconstructed payload =>
      refine Exec.meets_bind (Exec.meets_bind
        (meets_requireRegisteredThreadLocked (fun hr => ?_) (fun _ => .call)))
      refine Exec.meets_bind (Exec.meets_get ?_)
      cases hf : s.allocations.find? payload with
      | none => exact Exec.meets_pure (Exec.meets_pure .read)
      | some block =>
        exact Exec.meets_bind (Exec.meets_modify (Exec.meets_pure (Exec.meets_pure (.release hr hf))))
    | collectIfNeeded incoming =>
      refine Exec.meets_bind (Exec.meets_bind
        (meets_requireRegisteredThreadLocked (fun hr => ?_) (fun _ => .call)))
      refine Exec.meets_bind (Exec.meets_get (Exec.meets_pure ?_))
      split_ifs
      · exact Exec.meets_pure (.collect hr)
      · exact Exec.meets_pure .read
    | collect =>
      dsimp only
      split_ifs with hc
      · exact Exec.meets_pure .read
      · refine Exec.meets_bind (meets_requireRegisteredThreadLocked (fun _ => ?_) (fun _ => .call))
        exact Exec.meets_bind (Exec.meets_modify (Exec.meets_pure (.window (by simpa using hc))))
    | shutdown =>
      dsimp only
      split_ifs with hc
      · exact Exec.meets_pure .read
      · exact Exec.meets_bind (Exec.meets_modify (Exec.meets_pure (.window (by simpa using hc))))
    | registerWeakRef target storage =>
      refine meets_returning (Exec.meets_bind (Exec.meets_get ?_))
      split_ifs with h₀ hf
      · exact Exec.meets_pure .read
      · exact Exec.meets_bind (Exec.meets_modify (Exec.meets_pure (.weak (.registersNothing h₀ hf))))
      · exact Exec.meets_bind (Exec.meets_allocate (Exec.meets_bind
          (Exec.meets_modify (Exec.meets_pure (.weak (.registers h₀ hf))))) .call)
    | readWeakRef storage =>
      exact meets_returning (Exec.meets_bind (Exec.meets_get (Exec.meets_pure .read)))
    | unregisterWeakRef storage =>
      exact meets_returning (Exec.meets_bind (Exec.meets_modify
        (Exec.meets_pure (.weak .unregisters))))
    | copyWeakRef oldStorage newStorage =>
      refine meets_returning (Exec.meets_bind (Exec.meets_get ?_))
      cases hf : findWeakRef s.weakRefs oldStorage with
      | none => exact Exec.meets_bind (Exec.meets_modify (Exec.meets_pure (.weak (.copiesNothing hf))))
      | some entry =>
        exact Exec.meets_bind (Exec.meets_allocate (Exec.meets_bind (Exec.meets_modify
          (Exec.meets_pure (.weak (.copies hf))))) .call)
    | updateWeakRef oldStorage newStorage =>
      refine meets_returning (Exec.meets_bind (Exec.meets_get ?_))
      cases hf : findWeakRef s.weakRefs oldStorage with
      | none => exact Exec.meets_bind (Exec.meets_modify (Exec.meets_pure (.weak (.movesNothing hf))))
      | some entry =>
        exact Exec.meets_bind (Exec.meets_modify (Exec.meets_pure (.weak (.moves hf))))

/-- What a paused window does to the state, by what it leaves to do. -/
inductive WindowEffect (thread : ThreadId) (env : ScanEnvironment) (s : State) :
    WindowCall → Afterwards → State → Prop where
  | collect {dead : List BlockRecord} {unreachable : List ℕ} {s' : State}
      (h : Collected s thread env dead unreachable s') :
      WindowEffect thread env s .collect (.destroy unreachable) s'
  | shutdown {blocks : List ℕ} {order : List BlockRecord}
      (hc : ∀ b ∈ s.allocations.values, b.constructing = false)
      (hb : blocks = order.map BlockRecord.header)
      (ho : SafeOrder s s.allocations.values order) :
      WindowEffect thread env s .shutdown (.destroy blocks) s.shutDown
  | read {call : WindowCall} {value : Value} : WindowEffect thread env s call (.done value) s

/-- A window that throws leaves at most mark bytes behind. -/
theorem meets_windowBody {s : State} {thread : ThreadId} {env : ScanEnvironment}
    (hinv : HeapInvariant s) (hspace : RootsInSpace s env) (fuel : ℕ) (call : WindowCall) :
    (call.body thread fuel env).Meets s (WindowEffect thread env s call)
      (fun _ s' => s'.EqButMarks s) := by
  have hsame : ∀ {e : GCError} {s' : State}, Unchanged s e s' → s'.EqButMarks s := by
    rintro e s' ⟨-,rfl⟩
    exact .refl _
  cases call with
  | collect =>
    refine Exec.meets_bind ((meets_collectWindow hinv hspace fuel).mono ?_ (fun _ _ h => h.2))
    rintro unreachable s' ⟨dead,h⟩
    exact Exec.meets_pure (.collect h)
  | shutdown =>
    refine Exec.meets_bind ((meets_shutdownWindow hinv fuel).mono ?_ ?_)
    · rintro blocks s' ⟨rfl,hc,order,hb,ho⟩
      exact Exec.meets_pure (.shutdown hc hb ho)
    · rintro e s' ⟨rfl,-⟩
      exact .refl _
  | liveObjects =>
    refine Exec.meets_bind ((meets_liveObjectsLocked fuel).mono ?_ (fun _ _ => hsame))
    rintro objects s' rfl
    exact Exec.meets_pure .read
  | objectInfo pointer =>
    refine Exec.meets_bind ((meets_objectInfoLocked fuel pointer).mono ?_ (fun _ _ => hsame))
    rintro object s' rfl
    exact Exec.meets_pure .read

end GcLib.Protocol
