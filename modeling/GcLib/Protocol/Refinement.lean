import GcLib.Protocol.Abstraction
import GcLib.Protocol.ConstructionCalls
import GcLib.Protocol.WeakCalls

/-! # Every step is an operation of the store

A registration brings an object to life, the window of a collection keeps what the root words of
that moment lead to, and whatever else a thread does leaves the objects alone.
-/

namespace GcLib.Protocol
open GcLib.Heap GcLib.Support

/-- The operations that a step carries out. -/
inductive Acts (label : Label) (w w' : World) : Operation ManagedObject → Prop where
  | write {x : ℕ} {value : UInt8} (hl : label = .user label.thread (.storeByte x value)) :
      Acts label w w' (.write x value)
  | scratch {header : ℕ} {constructing : Bool} {stage : Stage} {rest : List Frame}
      (hc : w.control label.thread = .entering (.publish header constructing) stage :: rest)
      (hr : .registered (w.state.serial header) ∉ w'.log) :
      Acts label w w' (.scratch {x | w.state.payloadBegin header ≤ x ∧
        x < w.state.payloadBegin header+(w.state.header header).size})
  | allocate {header : ℕ} {constructing : Bool} {stage : Stage} {rest : List Frame}
      (hc : w.control label.thread = .entering (.publish header constructing) stage :: rest)
      (hr : .registered (w.state.serial header) ∈ w'.log) :
      Acts label w w' (.allocate ⟨w.state.serial header,w.state.payloadBegin header,
        w.state.payloadBegin header+(w.state.header header).size⟩ (constructing = true))
  | unpin {payload : ℕ} {block : BlockRecord} {stage : Stage} {rest : List Frame}
      (hc : w.control label.thread = .entering (.call (.finishConstruction payload)) stage :: rest)
      (hf : w.state.allocations.find? payload = some block)
      (hc' : w'.control label.thread = resumed rest true) :
      Acts label w w' (.unpin (objectOf w.state block))
  | point {call : Call} {stage : Stage} {rest : List Frame}
      (hc : w.control label.thread = .entering (.call call) stage :: rest)
      (hw : call.onWeakRefs = true) : Acts label w w' (.point {storage | storage ∈ call.storages})
  | collect {choice : Choice} {rest : List Frame} {blocks : List ℕ}
      (hl : label = .run label.thread choice) (hc : w.control label.thread = .waiting .collect :: rest)
      (hc' : w'.control label.thread = .destroying blocks blocks :: rest) :
      Acts label w w' (.collect {word | RootWord w.state label.thread choice.env word})
  | release {payload header : ℕ} {block : BlockRecord} {stage : Stage} {rest : List Frame}
      (hc : w.control label.thread = .entering (.call (.releaseUnconstructed payload)) stage :: rest)
      (hf : w.state.allocations.find? payload = some block)
      (hc' : w'.control label.thread = .freeingBlock header :: rest) :
      Acts label w w' (.release (objectOf w.state block))
  | empty {rest : List Frame} {blocks : List ℕ}
      (hc : w.control label.thread = .waiting .shutdown :: rest)
      (hc' : w'.control label.thread = .destroying blocks blocks :: rest) : Acts label w w' .empty

/-- The operation that a step stands for: the one it carries out, or none. -/
inductive Mirrors (label : Label) (w w' : World) : Operation ManagedObject → Prop where
  | idle (hn : ∀ operation, ¬ Acts label w w' operation) : Mirrors label w w' .idle
  | acts {operation : Operation ManagedObject} (h : Acts label w w' operation) :
      Mirrors label w w' operation

section
variable {s s' : State} {born : Set ℕ} {header : ℕ} {chunk : Chunk}

theorem placed_apart (hinv : HeapInvariant s) (hc : s.chunks.find? header = some chunk)
    (hnew : ∀ b ∈ s.allocations.values, b.header ≠ header) {b : BlockRecord}
    (hb : b ∈ s.allocations.values) {x : ℕ} (hlo : s.payloadBegin header ≤ x)
    (hhi : x < s.payloadBegin header+(s.header header).size) : ¬ b.Contains x := by
  obtain ⟨chunk',hc',hd⟩ := hinv.chunk_mem hb
  have hentry := OrderedMap.find?_eq_some.mp hc
  have hbegin := hd.payloadBegin_eq
  have hend := hd.payloadEnd_eq
  rw [State.payloadBegin, State.header_eq hc] at hlo hhi
  rintro ⟨hlo',hhi'⟩
  rcases lt_or_gt_of_ne (hnew b hb) with hlt | hlt
  · have hapart := hinv.disjoint _ _ hc' _ _ hentry hlt
    unfold Chunk.extent at hapart
    omega
  · have hapart := hinv.disjoint _ _ hentry _ _ hc' hlt
    unfold Chunk.extent at hapart
    omega

theorem zeroPayload_zero {x : ℕ} (hlo : s.payloadBegin header ≤ x)
    (hhi : x < s.payloadBegin header+(s.header header).size) :
    (s.zeroPayload header).memory x = 0 := by
  simp only [State.zeroPayload, Memory.writeBytes]
  rw [if_pos ⟨hlo,hhi⟩, Nat.zero_div]
  rfl

theorem storeOf_publish (born : Set ℕ) (hinv : HeapInvariant s)
    (hc : s.chunks.find? header = some chunk)
    (hnew : ∀ b ∈ s.allocations.values, b.header ≠ header) (constructing : Bool) (born' : Set ℕ) :
    storeOf (s.publish header constructing) born' =
      let o : ManagedObject := ⟨s.serial header,s.payloadBegin header,
        s.payloadBegin header+(s.header header).size⟩
      { storeOf s born with
        live := insert o (storeOf s born).live
        pinned := {o' | o' ∈ (storeOf s born).pinned ∨ constructing = true ∧ o' = o}
        born := born'
        contents := (s.zeroPayload header).memory } := by
  have hmem := fun b => (hinv.publish_values hc hnew constructing).mem_iff (a := b)
  have hobject : ∀ b, objectOf (s.publish header constructing) b = objectOf s b := fun _ => rfl
  ext o
  · constructor
    · rintro ⟨b,hb,rfl⟩
      rcases List.mem_cons.mp ((hmem b).mp hb) with rfl | hb
      · exact Or.inl rfl
      · exact Or.inr ⟨b,hb,rfl⟩
    · rintro (rfl | ⟨b,hb,rfl⟩)
      · exact ⟨_,(hmem _).mpr List.mem_cons_self,rfl⟩
      · exact ⟨b,(hmem b).mpr (List.mem_cons_of_mem _ hb),rfl⟩
  · constructor
    · rintro ⟨b,hb,hconstructing,rfl⟩
      rcases List.mem_cons.mp ((hmem b).mp hb) with rfl | hb
      · exact Or.inr ⟨hconstructing,rfl⟩
      · exact Or.inl ⟨b,hb,hconstructing,rfl⟩
    · rintro (⟨b,hb,hconstructing,rfl⟩ | ⟨hconstructing,rfl⟩)
      · exact ⟨b,(hmem b).mpr (List.mem_cons_of_mem _ hb),hconstructing,rfl⟩
      · exact ⟨_,(hmem _).mpr List.mem_cons_self,hconstructing,rfl⟩
  · rfl
  · rfl
  · rfl

theorem storeOf_finish (hinv : HeapInvariant s) {payload : ℕ} {block : BlockRecord}
    (hf : s.allocations.find? payload = some block) :
    storeOf (s.setConstructing payload false) born =
      { storeOf s born with pinned := (storeOf s born).pinned \ {objectOf s block} } := by
  have hentry := OrderedMap.find?_eq_some.mp hf
  have hblock : block ∈ s.allocations.values := OrderedMap.mem_values.mpr ⟨_,hentry⟩
  have hkey := hinv.key _ _ hentry
  -- every record keeps its place, and the one found is no longer under construction
  have hmem : ∀ b, b ∈ (s.setConstructing payload false).allocations.values ↔
      ∃ b₀ ∈ s.allocations.values, b = if b₀ = block then { b₀ with constructing := false }
        else b₀ := by
    intro b
    constructor
    · intro hb
      obtain ⟨k,hk⟩ := OrderedMap.mem_values.mp hb
      obtain ⟨b₀,hb₀,heq⟩ := OrderedMap.mem_modify.mp hk
      have hkey₀ := hinv.key _ _ hb₀
      refine ⟨b₀,OrderedMap.mem_values.mpr ⟨_,hb₀⟩,?_⟩
      by_cases hk' : k = payload
      · subst hk'
        rw [s.allocations.value_unique hb₀ hentry] at heq ⊢
        simpa using heq
      · have hne : b₀ ≠ block := by
          rintro rfl
          exact hk' (hkey₀.trans hkey.symm)
        rw [if_neg hne]
        simpa [hk'] using heq
    · rintro ⟨b₀,hb₀,rfl⟩
      have hentry₀ := hinv.entry_mem hb₀
      apply OrderedMap.mem_values.mpr
      refine ⟨b₀.payloadBegin,OrderedMap.mem_modify.mpr ⟨b₀,hentry₀,?_⟩⟩
      by_cases he : b₀ = block
      · simp [he, hkey]
      · have hne : b₀.payloadBegin ≠ payload := by
          intro heq
          exact he (s.allocations.value_unique (heq ▸ hentry₀) hentry)
        simp [he, hne]
  ext o
  · constructor
    · rintro ⟨b,hb,rfl⟩
      obtain ⟨b₀,hb₀,rfl⟩ := (hmem b).mp hb
      refine ⟨b₀,hb₀,?_⟩
      split_ifs <;> rfl
    · rintro ⟨b₀,hb₀,rfl⟩
      refine ⟨_,(hmem _).mpr ⟨b₀,hb₀,rfl⟩,?_⟩
      split_ifs <;> rfl
  · constructor
    · rintro ⟨b,hb,hconstructing,rfl⟩
      obtain ⟨b₀,hb₀,rfl⟩ := (hmem b).mp hb
      by_cases he : b₀ = block
      · simp [he] at hconstructing
      · rw [if_neg he] at hconstructing ⊢
        refine ⟨⟨b₀,hb₀,hconstructing,rfl⟩,fun heq => he ?_⟩
        exact objectOf_inj hinv hb₀ hblock heq
    · rintro ⟨⟨b₀,hb₀,hconstructing,rfl⟩,hne⟩
      have he : b₀ ≠ block := by
        rintro rfl
        exact hne rfl
      refine ⟨b₀,(hmem b₀).mpr ⟨b₀,hb₀,?_⟩,hconstructing,rfl⟩
      rw [if_neg he]
  · rfl
  · rfl
  · rfl

theorem shrinks_of_release (born : Set ℕ) (hinv : HeapInvariant s) {block : BlockRecord}
    (hb : block ∈ s.allocations.values) :
    (storeOf s born).Shrinks managedLayout ((storeOf s born).live \ {objectOf s block})
      (storeOf (s.removeBlock block) born) := by
  have hstaying : staying s [block] = (storeOf s born).live \ {objectOf s block} := by
    ext o
    constructor
    · rintro ⟨b,hb',hne,rfl⟩
      refine ⟨objectOf_live hb',fun heq => hne ?_⟩
      exact List.mem_singleton.mpr (objectOf_inj hinv hb' hb heq)
    · rintro ⟨⟨b,hb',rfl⟩,hne⟩
      refine ⟨b,hb',fun heq => hne ?_,rfl⟩
      rw [List.mem_singleton.mp heq]
      rfl
  rw [← hstaying]
  exact shrinks_of_removed born hinv (HeapInvariant.removed_removeBlock s block) (by simpa using hb)

/-- A shutdown leaves no object and no handle. -/
theorem shrinks_of_shutDown (born : Set ℕ) (htargets : TargetsLive s) :
    (storeOf s born).Shrinks managedLayout ∅ (storeOf s.shutDown born) := by
  have hdangles : ∀ handle ∈ (storeOf s born).handles,
      (storeOf s born).Dangles managedLayout ∅ handle := by
    intro handle hhandle
    obtain ⟨b,hb,hcontains⟩ := htargets _ hhandle
    exact ⟨hhandle,objectOf s b,objectOf_live hb,Set.notMem_empty _,hcontains⟩
  have hmemory : ∀ x, s.shutDown.memory x = if InWordOf (s.weakRefs.filter fun entry =>
      decide (entry.storage ≠ 0)) (fun _ => True) x then 0 else s.memory x :=
    fun x => foldl_writeWord_zero _ s.memory x
  constructor
  · ext o
    exact iff_of_false (fun ⟨b,hb,_⟩ => absurd hb List.not_mem_nil) (Set.notMem_empty o)
  · ext o
    exact iff_of_false (fun ⟨b,hb,_⟩ => absurd hb List.not_mem_nil) fun h => Set.notMem_empty o h.2
  · rfl
  · ext handle
    exact iff_of_false List.not_mem_nil fun h => h.2 (hdangles handle h.1)
  · intro handle hh hne x hx
    change s.shutDown.memory x = 0
    rw [hmemory, if_pos]
    exact ⟨_,List.mem_filter.mpr ⟨hh.1,by simpa using hne⟩,trivial,hx⟩
  · intro x hx
    change s.shutDown.memory x = s.memory x
    rw [hmemory, if_neg]
    rintro ⟨entry,hentry,-,hword⟩
    exact hx ⟨entry.target,entry.storage⟩ (hdangles _ (List.mem_filter.mp hentry).1) hword

theorem shrinks_of_collected (born : Set ℕ) {collector : ThreadId} {env : ScanEnvironment}
    {dead : List BlockRecord} {unreachable : List ℕ} (hinv : HeapInvariant s)
    (h : Collected s collector env dead unreachable s') :
    (storeOf s born).Shrinks managedLayout
      ((storeOf s born).Kept managedLayout {word | RootWord s collector env word})
      (storeOf s' born) := by
  have hstaying : staying s dead =
      (storeOf s born).Kept managedLayout {word | RootWord s collector env word} := by
    ext o
    rw [retained_iff_kept hinv]
    constructor
    · rintro ⟨b,hb,hstays,rfl⟩
      refine ⟨b,?_,rfl⟩
      by_contra hn
      exact hstays ((h.mem_dead b).mpr ⟨hb,hn⟩)
    · rintro ⟨b,hb,rfl⟩
      exact ⟨b,hb.mem,fun hd => ((h.mem_dead b).mp hd).2 hb,rfl⟩
  have hshrinks := shrinks_of_removed born hinv h.removed h.dead_mem
  rw [hstaying] at hshrinks
  exact hshrinks

end

section
variable {w w' : World} {label : Label}

theorem born_congr (h : ReachableWorld w) (hstep : step label w = some w')
    (hr : registered w'.state = registered w.state) (serial : ℕ) :
    .registered serial ∈ w'.log ↔ .registered serial ∈ w.log := by
  have happend : ∀ {events : List Event}, w'.log = w.log ++ events →
      .registered serial ∉ events → (.registered serial ∈ w'.log ↔ .registered serial ∈ w.log) := by
    intro events hl hnot
    rw [hl, List.mem_append]
    exact ⟨fun hmem => hmem.resolve_right hnot,Or.inl⟩
  cases h.move hstep with
  | stays _ _ _ hl => rw [hl]
  | registers header _ hperm =>
    have hlength := hperm.length_eq
    rw [hr, List.length_cons] at hlength
    omega
  | places _ _ _ _ _ _ hl | withdraws _ _ _ _ hl | frees _ _ _ _ _ _ _ hl =>
    exact happend hl (by simp)
  | detaches _ _ _ _ hl => exact happend hl (by simp)
  | finalizes _ _ _ _ _ _ _ hl =>
    apply happend hl
    split_ifs <;> simp

theorem serial_congr (h : ReachableWorld w) (hstep : step label w = some w')
    (ha : w'.state.allocations = w.state.allocations) {b : BlockRecord}
    (hb : b ∈ w.state.allocations.values) :
    w'.state.serial b.header = w.state.serial b.header := by
  obtain ⟨chunk,hchunk,-⟩ := h.invariant.heap.described b hb
  have h' : ReachableWorld w' := h.step hstep
  obtain ⟨chunk',hchunk',-⟩ := h'.invariant.heap.described b (ha ▸ hb)
  exact (h.move hstep).serial_of_chunk h.invariant.heap ⟨chunk,hchunk⟩ ⟨chunk',hchunk'⟩

/-- A step that leaves the registry and the handles alone may change memory only. -/
theorem store_congr (h : ReachableWorld w) (hstep : step label w = some w')
    (ha : w'.state.allocations = w.state.allocations)
    (hw : w'.state.weakRefs = w.state.weakRefs) :
    w'.store = { w.store with contents := w'.state.memory } := by
  have hr : registered w'.state = registered w.state := by rw [registered, ha]; rfl
  have hborn : {serial | .registered serial ∈ w'.log} = {serial | .registered serial ∈ w.log} :=
    Set.ext (born_congr h hstep hr)
  have hsame : storeOf w'.state {serial | .registered serial ∈ w.log} =
      storeOf { w.state with memory := w'.state.memory } {serial | .registered serial ∈ w.log} :=
    storeOf_congr _ ha hw rfl fun b hb => serial_congr h hstep ha hb
  rw [World.store, hborn, hsame]
  rfl

/-- A step that leaves every object and every handle as it was. -/
structure KeepsObjects (label : Label) (w w' : World) : Prop where
  allocations : w'.state.allocations = w.state.allocations
  weakRefs : w'.state.weakRefs = w.state.weakRefs
  memory : w'.state.memory = w.state.memory
  store : ∀ x value, label ≠ .user label.thread (.storeByte x value)
  publish : ∀ header constructing stage rest,
    w.control label.thread = .entering (.publish header constructing) stage :: rest →
      .registered (w.state.serial header) ∉ w'.log
  finish : ∀ payload block stage rest,
    w.control label.thread = .entering (.call (.finishConstruction payload)) stage :: rest →
      w.state.allocations.find? payload = some block →
        w'.control label.thread ≠ resumed rest true
  release : ∀ payload header stage rest,
    w.control label.thread = .entering (.call (.releaseUnconstructed payload)) stage :: rest →
      w'.control label.thread ≠ .freeingBlock header :: rest
  window : ∀ call blocks rest, w.control label.thread = .waiting call :: rest →
    w'.control label.thread ≠ .destroying blocks blocks :: rest

/-- Such a step is no operation, or one that makes no difference this time. -/
theorem performs_kept (h : ReachableWorld w) (hstep : step label w = some w')
    (hu : KeepsObjects label w w') :
    ∃ operation, Mirrors label w w' operation ∧
      w.store.Performs managedLayout operation w'.store := by
  have heq : w'.store = w.store := by
    rw [store_congr h hstep hu.allocations hu.weakRefs, hu.memory]
    rfl
  by_cases hacts : ∃ operation, Acts label w w' operation
  · obtain ⟨operation,hacts⟩ := hacts
    refine ⟨operation,.acts hacts,?_⟩
    rw [heq]
    cases hacts with
    | write hl => exact absurd hl (hu.store _ _)
    | scratch hc =>
      obtain ⟨⟨chunk,hchunk⟩,hnew⟩ := h.invariant.ownership.registrable hc
      refine .scratch ?_ fun _ _ => rfl
      rintro o ⟨b,hb,rfl⟩ x ⟨hlo,hhi⟩
      exact placed_apart h.invariant.heap hchunk hnew hb hlo hhi
    | allocate hc hr => exact absurd hr (hu.publish _ _ _ _ hc)
    | unpin hc hf hc' => exact absurd hc' (hu.finish _ _ _ _ hc hf)
    | point => exact .point (fun handle hh => Or.inl ⟨handle,hh,rfl⟩) fun _ _ => rfl
    | collect _ hc hc' => exact absurd hc' (hu.window _ _ _ hc)
    | release hc hf hc' => exact absurd hc' (hu.release _ _ _ _ hc)
    | empty hc hc' => exact absurd hc' (hu.window _ _ _ hc)
  · refine ⟨.idle,.idle fun operation hop => hacts ⟨operation,hop⟩,?_⟩
    rw [heq]
    exact .idle

/-- The frames above which a step may be an operation of the store. -/
def Frame.acts : Frame → Bool
  | .entering _ _ => true
  | .waiting _ => true
  | _ => false

theorem KeepsObjects.of_inert (ha : w'.state.allocations = w.state.allocations)
    (hw : w'.state.weakRefs = w.state.weakRefs) (hm : w'.state.memory = w.state.memory)
    (hl : ∀ x value, label ≠ .user label.thread (.storeByte x value))
    (hi : ∀ frame rest, w.control label.thread = frame :: rest → frame.acts = false) :
    KeepsObjects label w w' where
  allocations := ha
  weakRefs := hw
  memory := hm
  store := hl
  publish _ _ _ _ hc := Bool.noConfusion (hi _ _ hc)
  finish _ _ _ _ hc := Bool.noConfusion (hi _ _ hc)
  release _ _ _ _ hc := Bool.noConfusion (hi _ _ hc)
  window _ _ _ hc := Bool.noConfusion (hi _ _ hc)

theorem KeepsObjects.of_section {thread : ThreadId} {choice : Choice} {code : Section} {stage : Stage}
    {rest : List Frame} (hc : w.control thread = .entering code stage :: rest)
    (ha : w'.state.allocations = w.state.allocations)
    (hw : w'.state.weakRefs = w.state.weakRefs) (hm : w'.state.memory = w.state.memory)
    (hpublish : ∀ header constructing, code = .publish header constructing →
      .registered (w.state.serial header) ∉ w'.log)
    (hfinish : ∀ payload block, code = .call (.finishConstruction payload) →
      w.state.allocations.find? payload = some block → w'.control thread ≠ resumed rest true)
    (hrelease : ∀ header, w'.control thread ≠ .freeingBlock header :: rest) :
    KeepsObjects (.run thread choice) w w' where
  allocations := ha
  weakRefs := hw
  memory := hm
  store _ _ hl := by cases hl
  publish header constructing stage' rest' hc' := by
    cases hc.symm.trans hc'
    exact hpublish header constructing rfl
  finish payload block stage' rest' hc' hf := by
    cases hc.symm.trans hc'
    exact hfinish payload block rfl hf
  release payload header stage' rest' hc' := by
    cases hc.symm.trans hc'
    exact hrelease header
  window call blocks rest' hc' := by cases hc.symm.trans hc'

theorem KeepsObjects.of_window {thread : ThreadId} {choice : Choice} {call : WindowCall}
    {rest : List Frame} (hc : w.control thread = .waiting call :: rest)
    (ha : w'.state.allocations = w.state.allocations)
    (hw : w'.state.weakRefs = w.state.weakRefs) (hm : w'.state.memory = w.state.memory)
    (hwindow : ∀ blocks, w'.control thread ≠ .destroying blocks blocks :: rest) :
    KeepsObjects (.run thread choice) w w' where
  allocations := ha
  weakRefs := hw
  memory := hm
  store _ _ hl := by cases hl
  publish _ _ _ _ hc' := by cases hc.symm.trans hc'
  finish _ _ _ _ hc' := by cases hc.symm.trans hc'
  release _ _ _ _ hc' := by cases hc.symm.trans hc'
  window call' blocks rest' hc' := by
    cases hc.symm.trans hc'
    exact hwindow blocks

theorem resumed_ne_cons (rest : List Frame) (ok : Bool) (frame : Frame) :
    resumed rest ok ≠ frame :: rest := by
  intro heq
  have hlength := length_resumed_le rest ok
  rw [heq, List.length_cons] at hlength
  omega

theorem proceeded_ne_freeingBlock {rest : List Frame} {next : Next} {header : ℕ}
    (hn : next ≠ .free header) : proceeded rest next ≠ .freeingBlock header :: rest := by
  cases next with
  | done => exact resumed_ne_cons rest true _
  | free header' =>
    intro heq
    cases heq
    exact hn rfl
  | _ => exact fun heq => by cases heq

theorem performs_user {thread : ThreadId} {action : Action} (h : ReachableWorld w)
    (hstep : step (.user thread action) w = some w') :
    ∃ operation, Mirrors (.user thread action) w w' operation ∧
      w.store.Performs managedLayout operation w'.store := by
  have hstep' := hstep
  simp only [step] at hstep'
  split_ifs at hstep' with hu
  have hinert : ∀ frame rest, w.control thread = frame :: rest → frame.acts = false := by
    intro frame rest hc
    rw [hc] at hu
    cases frame <;> first | rfl | cases hu
  cases action with
  | storeByte x value =>
    cases hstep'
    exact ⟨.write x value,.acts (.write rfl),.write x value⟩
  | call call =>
    have hquiet : w'.state = w.state := by
      simp only [runAction] at hstep'
      split_ifs at hstep'
      split at hstep' <;> cases hstep' <;> rfl
    exact performs_kept h hstep (.of_inert (by rw [hquiet]) (by rw [hquiet]) (by rw [hquiet])
      (fun _ _ hl => by cases hl) hinert)
  | finalizerReturns =>
    have hquiet : w'.state = w.state := by
      simp only [runAction] at hstep'
      split at hstep' <;> cases hstep'
      rfl
    exact performs_kept h hstep (.of_inert (by rw [hquiet]) (by rw [hquiet]) (by rw [hquiet])
      (fun _ _ hl => by cases hl) hinert)

theorem not_registered (h : ReachableWorld w) {thread : ThreadId} {header : ℕ}
    {constructing : Bool} {stage : Stage} {rest : List Frame}
    (hc : w.control thread = .entering (.publish header constructing) stage :: rest) :
    .registered (w.state.serial header) ∉ w.log := by
  obtain ⟨⟨chunk,hchunk⟩,-⟩ := h.invariant.ownership.registrable hc
  rw [State.serial_eq hchunk]
  exact fun hreg => not_publishing h hchunk hreg hc

/-- A failed registration has cleared bytes of a block that no one has seen. -/
theorem performs_failed {thread : ThreadId} {choice : Choice} (h : ReachableWorld w)
    (hstep : step (.run thread choice) w = some w') {s s' : State} {header : ℕ}
    {constructing : Bool} {stage : Stage} {rest : List Frame}
    (hc : w.control thread = .entering (.publish header constructing) stage :: rest)
    (hs : SameHeap w.state s) (hf : Failed s (.publish header constructing) s')
    (hw : w'.state = s'.freeBlockMemory header) (hc' : w'.control thread = resumed rest false)
    (hl : w'.log = w.log ++ [.freed (s'.serial header)]) :
    ∃ operation, Mirrors (.run thread choice) w w' operation ∧
      w.store.Performs managedLayout operation w'.store := by
  have hfresh : .registered (w.state.serial header) ∉ w'.log := by
    rw [hl, List.mem_append]
    rintro (hr | hr)
    · exact not_registered h hc hr
    · simp at hr
  cases hf with
  | publish =>
    refine performs_kept h hstep (.of_section hc ?_ ?_ ?_ ?_ (fun _ _ hcode => by cases hcode)
      ?_)
    · rw [hw, ← hs.allocations]
      rfl
    · rw [hw, ← hs.weakRefs]
      rfl
    · rw [hw, ← hs.memory]
      rfl
    · intro header' constructing' hcode
      cases hcode
      exact hfresh
    · intro header'
      rw [hc']
      exact resumed_ne_cons rest false _
  | cleared =>
    have ha : w'.state.allocations = w.state.allocations := by rw [hw, ← hs.allocations]; rfl
    have hweak : w'.state.weakRefs = w.state.weakRefs := by rw [hw, ← hs.weakRefs]; rfl
    obtain ⟨⟨chunk,hchunk⟩,hnew⟩ := h.invariant.ownership.registrable hc
    refine ⟨_,.acts (.scratch hc hfresh),?_⟩
    rw [store_congr h hstep ha hweak]
    apply Store.Performs.scratch
    · rintro o ⟨b,hb,rfl⟩ x ⟨hlo,hhi⟩
      exact placed_apart h.invariant.heap hchunk hnew hb hlo hhi
    · intro x hx
      have hmemory : w'.state.memory x = (s.zeroPayload header).memory x := by rw [hw]; rfl
      rw [hmemory, zeroPayload_memory]
      · exact congrFun hs.memory x
      · rw [State.payloadBegin, hs.sameChunks.header]
        exact hx

theorem performs_publish {thread : ThreadId} {choice : Choice} (h : ReachableWorld w) {s : State}
    {header : ℕ} {constructing : Bool} {stage : Stage} {rest : List Frame}
    (hc : w.control thread = .entering (.publish header constructing) stage :: rest)
    (hs : SameHeap w.state s) (hw : w'.state = s.publish header constructing)
    (hl : w'.log = w.log ++ [.registered (w'.state.serial header)]) :
    ∃ operation, Mirrors (.run thread choice) w w' operation ∧
      w.store.Performs managedLayout operation w'.store := by
  obtain ⟨⟨chunk,hchunk⟩,hnew⟩ := h.invariant.ownership.registrable hc
  have hheap := hs.heapInvariant h.invariant.heap
  have hchunk' : s.chunks.find? header = some chunk := by rw [hs.sameChunks.chunks, hchunk]
  have hnew' : ∀ b ∈ s.allocations.values, b.header ≠ header := by rwa [hs.allocations]
  have hserial : w'.state.serial header = w.state.serial header := by
    rw [hw]
    exact hs.sameChunks.serial header
  have hstore : storeOf s {serial | .registered serial ∈ w.log} = w.store :=
    storeOf_congr _ hs.allocations hs.weakRefs hs.memory fun b _ => hs.sameChunks.serial b.header
  have hborn : {serial | .registered serial ∈ w'.log} =
      insert (w.state.serial header) {serial | .registered serial ∈ w.log} := by
    ext serial
    simp [hl, hserial, or_comm]
  have hpayload : s.payloadBegin header = w.state.payloadBegin header := by
    rw [State.payloadBegin, State.payloadBegin, hs.sameChunks.header]
  have hregistered : .registered (w.state.serial header) ∈ w'.log := by
    rw [hl, hserial]
    exact List.mem_append_right _ (List.mem_singleton_self _)
  have hstore' : w'.store = storeOf (s.publish header constructing)
      (insert (w.state.serial header) {serial | .registered serial ∈ w.log}) := by
    rw [World.store, hborn, hw]
  refine ⟨_,.acts (.allocate hc hregistered),?_⟩
  rw [hstore', storeOf_publish {serial | .registered serial ∈ w.log} hheap hchunk' hnew',
    hstore, hs.sameChunks.serial, hs.sameChunks.header, hpayload]
  apply Store.Performs.allocate
  · exact not_registered h hc
  · rintro o ⟨b,hb,rfl⟩ x ⟨hlo,hhi⟩
    exact placed_apart h.invariant.heap hchunk hnew hb hlo hhi
  · rintro x ⟨hlo,hhi⟩
    apply zeroPayload_zero
    · rwa [hpayload]
    · rwa [hpayload, hs.sameChunks.header]
  · intro x hx
    rw [zeroPayload_memory]
    · exact congrFun hs.memory x
    · rw [hpayload, hs.sameChunks.header]
      exact hx

theorem performs_finish {thread : ThreadId} {choice : Choice} (h : ReachableWorld w)
    {payload : ℕ} {block : BlockRecord} {stage : Stage} {rest : List Frame} {s : State}
    (hc : w.control thread = .entering (.call (.finishConstruction payload)) stage :: rest)
    (hf : s.allocations.find? payload = some block) (hs : SameHeap w.state s)
    (hw : w'.state = s.setConstructing payload false)
    (hc' : w'.control thread = resumed rest true) (hl : w'.log = w.log) :
    ∃ operation, Mirrors (.run thread choice) w w' operation ∧
      w.store.Performs managedLayout operation w'.store := by
  have hheap := hs.heapInvariant h.invariant.heap
  have hf' : w.state.allocations.find? payload = some block := by rwa [← hs.allocations]
  have hobject : objectOf s block = objectOf w.state block := by
    rw [objectOf, objectOf, hs.sameChunks.serial]
  have hstore : storeOf s {serial | .registered serial ∈ w.log} = w.store :=
    storeOf_congr _ hs.allocations hs.weakRefs hs.memory fun b _ => hs.sameChunks.serial b.header
  refine ⟨_,.acts (.unpin hc hf' hc'),?_⟩
  have hstore' : w'.store = { w.store with
      pinned := w.store.pinned \ {objectOf w.state block} } := by
    rw [World.store, hl, hw, storeOf_finish hheap hf, hstore, hobject]
  rw [hstore']
  apply Store.Performs.unpin
  exact objectOf_live (OrderedMap.mem_values.mpr ⟨_,OrderedMap.find?_eq_some.mp hf'⟩)

theorem performs_section {thread : ThreadId} {choice : Choice} (h : ReachableWorld w)
    (hstep : step (.run thread choice) w = some w') {code : Section} {stage : Stage}
    {rest : List Frame} {s : State} {next : Next}
    (hc : w.control thread = .entering code stage :: rest)
    (hco : Cooperated thread w.state code stage s) (he : Effect thread s code next w'.state)
    (hfinish : ∀ payload block, code = .call (.finishConstruction payload) →
      s.allocations.find? payload = some block →
        next = .done .unit ∧ w'.state = s.setConstructing payload false)
    (hc' : w'.control thread = proceeded rest next)
    (hl : w'.log = w.log ++ code.events s w'.state next) :
    ∃ operation, Mirrors (.run thread choice) w w' operation ∧
      w.store.Performs managedLayout operation w'.store := by
  have hs := hco.sameHeap
  have hheap := hs.heapInvariant h.invariant.heap
  have hstore : storeOf s {serial | .registered serial ∈ w.log} = w.store :=
    storeOf_congr _ hs.allocations hs.weakRefs hs.memory fun b _ => hs.sameChunks.serial b.header
  have hobject : ∀ b, objectOf s b = objectOf w.state b := by
    intro b
    rw [objectOf, objectOf, hs.sameChunks.serial]
  -- an operation of the store that changes the state of this section only
  have hborn : ∀ {events : List Event}, w'.log = w.log ++ events →
      (∀ serial, .registered serial ∉ events) →
      w'.store = storeOf w'.state {serial | .registered serial ∈ w.log} := by
    intro events hl hnot
    rw [World.store]
    congr 1
    ext serial
    simp [hl, hnot]
  by_cases hfound : ∃ payload block, code = .call (.finishConstruction payload) ∧
      s.allocations.find? payload = some block
  · obtain ⟨payload,block,rfl,hf⟩ := hfound
    obtain ⟨rfl,hw⟩ := hfinish payload block rfl hf
    exact performs_finish h hc hf hs hw hc' (hl.trans (List.append_nil _))
  generalize hw : w'.state = s' at he
  cases he with
  | publish => exact performs_publish h hc hs hw hl
  | finish hf => exact absurd ⟨_,_,rfl,hf⟩ hfound
  | @release payload block hr hf =>
    have hf' : w.state.allocations.find? payload = some block := by rwa [← hs.allocations]
    have hlive := OrderedMap.mem_values.mpr ⟨_,OrderedMap.find?_eq_some.mp hf⟩
    have hshrinks := shrinks_of_release {serial | .registered serial ∈ w.log} hheap hlive
    refine ⟨_,.acts (.release hc hf' hc'),?_⟩
    rw [hborn hl (by simp [Section.events]), hw]
    apply Store.Performs.release
    · exact objectOf_live (OrderedMap.mem_values.mpr ⟨_,OrderedMap.find?_eq_some.mp hf'⟩)
    · rwa [hstore, hobject] at hshrinks
  | @weak call weakRefs memory hchange =>
    have hweak : call.onWeakRefs = true := by cases hchange <;> rfl
    refine ⟨_,.acts (.point hc hweak),?_⟩
    have hpoint : storeOf { s with weakRefs := weakRefs, memory := memory }
        {serial | .registered serial ∈ w.log} =
          { w.store with
            handles := {handle | ⟨handle.target,handle.storage⟩ ∈ weakRefs}
            contents := memory } := by
      rw [← hstore]
      rfl
    have hnot : ∀ serial, Event.registered serial ∉ Section.events s w'.state (.call call)
        (.done .unit) := by simp [Section.events]
    rw [hborn hl hnot, hw, hpoint]
    apply Store.Performs.point
    · intro handle hh
      rcases hchange.targetsFrom _ hh with ⟨old,hold,heq⟩ | hfound
      · rw [hs.weakRefs] at hold
        exact Or.inl ⟨⟨old.target,old.storage⟩,hold,heq⟩
      · obtain ⟨b,hb⟩ := Option.ne_none_iff_exists'.mp hfound
        obtain ⟨hlive,hcontains⟩ := hheap.findBlockLocked_eq_some.mp hb
        rw [hs.allocations] at hlive
        exact Or.inr ⟨objectOf w.state b,objectOf_live hlive,hcontains⟩
    · intro x hx
      rw [hchange.memory hx]
      exact congrFun hs.memory x
  | _ =>
    refine performs_kept h hstep (.of_section hc (hw ▸ hs.allocations) (hw ▸ hs.weakRefs)
      (hw ▸ hs.memory) (fun _ _ hcode => by cases hcode) (fun payload block hcode hf => ?_)
      fun header => ?_)
    · exact absurd ⟨payload,block,hcode,hs.allocations ▸ hf⟩ hfound
    · rw [hc']
      exact proceeded_ne_freeingBlock (by simp)

theorem performs_window {thread : ThreadId} {choice : Choice} (h : ReachableWorld w)
    (hstep : step (.run thread choice) w = some w') {call : WindowCall} {rest : List Frame}
    {blocks : List ℕ} (hc : w.control thread = .waiting call :: rest)
    (hc' : w'.control thread = .destroying blocks blocks :: rest)
    (hl : w'.log = w.log ++ blocks.map fun header =>
      .detached (w'.state.serial header) w.log.length) :
    ∃ operation, Mirrors (.run thread choice) w w' operation ∧
      w.store.Performs managedLayout operation w'.store := by
  have hcompletes : Completes thread choice call w w' blocks := ⟨hstep,rest,hc,hc'⟩
  have hheap := h.invariant.heap
  have hstore : w'.store = storeOf w'.state {serial | .registered serial ∈ w.log} := by
    rw [World.store]
    congr 1
    ext serial
    simp [hl]
  have heffect := hcompletes.effect h
  generalize hw : w'.state = s' at heffect
  cases heffect with
  | collect hcollected =>
    refine ⟨_,.acts (.collect rfl hc hc'),?_⟩
    rw [hstore, hw]
    exact .collect (shrinks_of_collected _ hheap hcollected)
  | shutdown hunpinned =>
    refine ⟨_,.acts (.empty hc hc'),?_⟩
    rw [hstore, hw]
    apply Store.Performs.empty _ (shrinks_of_shutDown _ h.targetsLive)
    apply Set.eq_empty_of_forall_notMem
    rintro o ⟨b,hb,hconstructing,rfl⟩
    rw [hunpinned b hb] at hconstructing
    cases hconstructing

/-- Every step of the manager is an operation of the store. -/
theorem ReachableWorld.performs (h : ReachableWorld w) (hstep : step label w = some w') :
    ∃ operation, Mirrors label w w' operation ∧
      w.store.Performs managedLayout operation w'.store := by
  cases label with
  | user thread action => exact performs_user h hstep
  | run thread choice =>
    have hnot := run_not_user hstep
    have hheap := h.invariant.heap
    have hprotocol := h.invariant.protocol
    have hinert : w'.state.allocations = w.state.allocations →
        w'.state.weakRefs = w.state.weakRefs → w'.state.memory = w.state.memory →
        ∀ {frame : Frame} {rest : List Frame}, w.control thread = frame :: rest →
          frame.acts = false → ∃ operation, Mirrors (.run thread choice) w w' operation ∧
            w.store.Performs managedLayout operation w'.store := by
      intro ha hw hm frame rest hc hframe
      refine performs_kept h hstep (.of_inert ha hw hm (fun _ _ hl => by cases hl) ?_)
      intro frame' rest' hc'
      cases hc.symm.trans hc'
      exact hframe
    have htransition : Transition thread w w' := step_transition hstep
    cases htransition with
    | store address value hu | immediate hi hu | call hw hi hu =>
      rw [hu] at hnot
      cases hnot
    | @runsSection code stage rest s s' fuel supply supply' next hc hco hrun =>
      refine @performs_section _ _ _ _ h hstep _ _ _ _ next hc hco ?_ ?_ ?_ ?_
      · rw [proceed_state]
        exact effect_of_run hheap hco hrun
      · rintro payload block rfl hf
        rw [proceed_state]
        exact (meets_finishSection _).returns hrun
      · rw [proceed_control, Function.update_self]
      · rw [proceed_log, proceed_state]
        rfl
    | callThrows hc hco hrun =>
      have hs := hco.sameHeap
      cases failed_of_run hheap hco hrun
      refine performs_kept h hstep (.of_section hc ?_ ?_ ?_ (fun _ _ hcode => by cases hcode)
        ?_ fun header => ?_)
      · rw [deliver_state]
        exact hs.allocations
      · rw [deliver_state]
        exact hs.weakRefs
      · rw [deliver_state]
        exact hs.memory
      · intro payload block hcode hf
        cases hcode
        have hnone := ((meets_finishSection _).throws hrun).2
        rw [hs.allocations, hf] at hnone
        cases hnone
      · rw [deliver_control, Function.update_self]
        exact resumed_ne_cons _ _ _
    | publishThrows hc hco hrun =>
      refine performs_failed h hstep hc hco.sameHeap (failed_of_run hheap hco hrun)
        (deliver_state _) ?_ ?_
      · rw [deliver_control, Function.update_self]
        rfl
      · rw [deliver_log]
        rfl
    | windowDestroys hc => exact performs_window h hstep hc (Function.update_self ..) rfl
    | windowReturns hc hp hm hrun =>
      cases (meets_windowBody hheap (hprotocol.rootsInSpace hm) _ _).returns hrun
      refine performs_kept h hstep (.of_window hc rfl rfl rfl fun blocks heq => ?_)
      rw [show (World.setControl _ _ _).control thread = _ from Function.update_self ..] at heq
      cases heq
    | windowThrows hc hp hm hrun =>
      have he := (meets_windowBody hheap (hprotocol.rootsInSpace hm) _ _).throws hrun
      refine performs_kept h hstep (.of_window hc he.allocations he.weakRefs
        (congrArg State.memory he.eq :) fun blocks heq => ?_)
      rw [show (World.setControl _ _ _).control thread = _ from Function.update_self ..] at heq
      cases heq
    | stalls hc hs =>
      have hsame := hs.sameHeap
      refine performs_kept h hstep (.of_section hc hsame.allocations hsame.weakRefs
        hsame.memory ?_ ?_ ?_)
      · rintro header constructing rfl
        exact not_registered h hc
      · intro payload block hcode hf heq
        rw [show (World.setControl _ _ _).control thread = _ from Function.update_self ..] at heq
        exact resumed_ne_cons _ _ _ heq.symm
      · intro header heq
        rw [show (World.setControl _ _ _).control thread = _ from Function.update_self ..] at heq
        cases heq
    | prologueThrows hc =>
      refine performs_kept h hstep (.of_section hc ?_ ?_ ?_ (fun _ _ hcode => by cases hcode)
        (fun _ _ hcode => by cases hcode) fun header => ?_)
      · rw [deliver_state]
      · rw [deliver_state]
      · rw [deliver_state]
      · rw [deliver_control, Function.update_self]
        exact resumed_ne_cons _ _ _
    | outOfMemory hc | releases hc | freesBlock hc =>
      refine hinert ?_ ?_ ?_ hc rfl <;> rw [deliver_state] <;> rfl
    | finalizerReturns hc | destroyed hc | skips hc | finalizes hc => exact hinert rfl rfl rfl hc rfl
    | freed hc | frees hc | retries hc | places hc => exact hinert rfl rfl rfl hc rfl

end
end GcLib.Protocol
