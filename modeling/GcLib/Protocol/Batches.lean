import GcLib.Protocol.Lifecycle
import GcLib.Support.Kahn

/-! # Batches of detached blocks

The blocks detached together form a batch. Their memory is freed only after the last
destructor call of the batch, so the finalizers of one batch may look at each other's
blocks.
-/

namespace GcLib.Protocol
open GcLib.Heap GcLib.Support

/-- The batch of that name consists of these blocks. -/
def NamesBatch (log : List Event) (serialOf : ℕ → ℕ) (blocks : List ℕ) (batch : ℕ) : Prop :=
  ∀ serial, .detached serial batch ∈ log ↔ ∃ header ∈ blocks, serialOf header = serial

/-- Every destructor call of the batch has been made. -/
def FinalizedBatch (log : List Event) (batch : ℕ) : Prop :=
  ∀ serial destructor, .detached serial batch ∈ log → .placed serial (some destructor) ∈ log →
    .finalized serial ∈ log

/-- What the log says about the batch a frame works on. -/
def Frame.Batched (log : List Event) (serialOf : ℕ → ℕ) : Frame → Prop
  | .destroying blocks _ => blocks ≠ [] → ∃ batch, NamesBatch log serialOf blocks batch
  | .finalizer blocks _ => blocks ≠ [] → ∃ batch, NamesBatch log serialOf blocks batch
  | .freeing pending => pending ≠ [] → ∃ batch,
      (∀ header ∈ pending, .detached (serialOf header) batch ∈ log) ∧ FinalizedBatch log batch
  | _ => True

structure Batches (w : World) : Prop where
  named : ∀ serial batch, .detached serial batch ∈ w.log → batch < w.log.length
  frames : ∀ thread, ∀ frame ∈ w.control thread, frame.Batched w.log w.state.serial
  ordered : ∀ a b batch destructor, .detached a batch ∈ w.log → .detached b batch ∈ w.log →
    .placed b (some destructor) ∈ w.log → .freed a ∈ w.log → Before w.log (.finalized b) (.freed a)

/-- The events of one step name a new batch and new blocks. -/
structure Growth (log events : List Event) : Prop where
  batch : ∀ serial batch, .detached serial batch ∈ events → batch = log.length
  fresh : ∀ serial destructor, .placed serial destructor ∈ events → ∀ e ∈ log, e.serial ≠ serial
  unfreed : ∀ serial batch, .detached serial batch ∈ events → .freed serial ∉ log ++ events

theorem Growth.nil (log : List Event) : Growth log [] := ⟨by simp,by simp,by simp⟩

section
variable {w w' : World} {thread : ThreadId} {log events : List Event}

theorem Move.growth (h : Lifecycle w) (ho : Ownership w) (hm : Move thread w w') :
    ∃ events, w'.log = w.log ++ events ∧ Growth w.log events := by
  cases hm with
  | stays hs hr hc hl => exact ⟨[],by simpa using hl,.nil _⟩
  | places region request hv hf hs hc hl =>
    refine ⟨_,hl,by simp,?_,by simp⟩
    intro serial destructor he e hlog
    obtain ⟨rfl,-⟩ := Event.placed.inj (List.mem_singleton.mp he)
    exact (h.recorded e hlog).ne
  | registers header hs hr hc hl => exact ⟨_,hl,by simp,by simp,by simp⟩
  | detaches blocks hs hr hc hl =>
    refine ⟨_,hl,fun serial batch he => ?_,by simp,fun serial batch he hfreed => ?_⟩
    · obtain ⟨header,-,heq⟩ := List.mem_map.mp he
      exact (Event.detached.inj heq).2.symm
    · obtain ⟨header,hh,heq⟩ := List.mem_map.mp he
      have hreg : header ∈ registered w.state := hr.mem_iff.mpr (List.mem_append_left _ hh)
      obtain ⟨chunk,hchunk⟩ := (ho.mem_chunks header).mpr (Or.inl hreg)
      have hserial : chunk.serial = serial := by
        rw [← State.serial_eq hchunk]
        exact (Event.detached.inj heq).1
      have hmem : Event.freed serial ∈ history w.log chunk.serial :=
        mem_history.mpr ⟨by simpa using hfreed,hserial.symm⟩
      rw [h.registered header hreg chunk hchunk] at hmem
      simp at hmem
  | withdraws header hs hr hc hl => exact ⟨_,hl,by simp,by simp,by simp⟩
  | finalizes header left right hs hr hc hc' hl =>
    refine ⟨_,hl,?_,?_,?_⟩ <;> split_ifs <;> simp
  | frees header phase hphase hchunks hserial hr hc hl => exact ⟨_,hl,by simp,by simp,by simp⟩

theorem Move.serial_of_chunk (hheap : HeapInvariant w.state) (hm : Move thread w w') {header : ℕ}
    (hh : ∃ chunk, w.state.chunks.find? header = some chunk)
    (hh' : ∃ chunk, w'.state.chunks.find? header = some chunk) :
    w'.state.serial header = w.state.serial header := by
  cases hm with
  | stays hs | registers _ hs | detaches _ hs | withdraws _ hs | finalizes _ _ _ hs =>
    exact hs.serial header
  | places region request hv hf hs hc hl =>
    have hpos : 0 < request.totalSize := Nat.add_pos_right _ hv.size_pos
    have hnone := HeapInvariant.fresh_new hf hheap hpos
    obtain ⟨chunk,hchunk⟩ := hh
    have hne : header ≠ region := by
      rintro rfl
      rw [hnone] at hchunk
      cases hchunk
    rw [State.serial, hs, placeHeader_find? request hnone, if_neg hne]
    rfl
  | frees freed phase hphase hchunks hserial hr hc hl =>
    obtain ⟨chunk,hchunk⟩ := hh'
    have hne : header ≠ freed := by
      rintro rfl
      rw [hchunks, OrderedMap.find?_erase, if_pos rfl] at hchunk
      cases hchunk
    rw [State.serial, hchunks, OrderedMap.find?_erase, if_neg hne]
    rfl

theorem Move.serial_eq (ho : Ownership w) (ho' : Ownership w') (hheap : HeapInvariant w.state)
    (hm : Move thread w w') {other : ThreadId} {header : ℕ}
    (hh : header ∈ held (w.control other)) (hh' : header ∈ held (w'.control other)) :
    w'.state.serial header = w.state.serial header :=
  hm.serial_of_chunk hheap (ho.held_chunk other hh) (ho'.held_chunk other hh')

theorem FinalizedBatch.grow {batch : ℕ} (h : FinalizedBatch log batch) (hg : Growth log events)
    (hlt : batch < log.length) : FinalizedBatch (log ++ events) batch := by
  intro serial destructor hd hp
  have hd : Event.detached serial batch ∈ log := by
    rcases List.mem_append.mp hd with hd | hd
    · exact hd
    · exact absurd (hg.batch serial batch hd) hlt.ne
  rcases List.mem_append.mp hp with hp | hp
  · exact List.mem_append_left _ (h serial destructor hd hp)
  · exact absurd rfl (hg.fresh serial _ hp _ hd)

theorem NamesBatch.grow {serialOf serialOf' : ℕ → ℕ} {blocks : List ℕ} {batch : ℕ}
    (h : NamesBatch log serialOf blocks batch) (hg : Growth log events) (hlt : batch < log.length)
    (hs : ∀ header ∈ blocks, serialOf' header = serialOf header) :
    NamesBatch (log ++ events) serialOf' blocks batch := by
  intro serial
  rw [List.mem_append]
  constructor
  · rintro (hd | hd)
    · obtain ⟨header,hh,he⟩ := (h serial).mp hd
      exact ⟨header,hh,(hs header hh).trans he⟩
    · exact absurd (hg.batch serial batch hd) hlt.ne
  · rintro ⟨header,hh,he⟩
    exact Or.inl ((h serial).mpr ⟨header,hh,(hs header hh).symm.trans he⟩)

/-- A named batch that is not empty has an old name. -/
theorem NamesBatch.lt {serialOf : ℕ → ℕ} {blocks : List ℕ} {batch : ℕ}
    (h : NamesBatch log serialOf blocks batch) (hne : blocks ≠ [])
    (hnamed : ∀ serial batch, .detached serial batch ∈ log → batch < log.length) :
    batch < log.length := by
  obtain ⟨header,hh⟩ := List.exists_mem_of_ne_nil _ hne
  exact hnamed _ _ ((h (serialOf header)).mpr ⟨header,hh,rfl⟩)

/-- What the log says about the batch of a frame stays true as the log grows. -/
theorem Frame.Batched.grow {frame : Frame} {serialOf serialOf' : ℕ → ℕ}
    (h : frame.Batched log serialOf) (hg : Growth log events)
    (hnamed : ∀ serial batch, .detached serial batch ∈ log → batch < log.length)
    (hs : ∀ header ∈ frame.custody.map Prod.fst, serialOf' header = serialOf header) :
    frame.Batched (log ++ events) serialOf' := by
  have hbatch : ∀ {blocks pending : List ℕ},
      (batchCustody blocks pending).map Prod.fst = blocks := by
    intro blocks pending
    rw [batchCustody, List.map_map]
    exact List.map_id blocks
  cases frame with
  | destroying blocks pending =>
    intro hne
    obtain ⟨batch,hb⟩ := h hne
    exact ⟨batch,hb.grow hg (hb.lt hne hnamed) (fun x hx => hs x (hbatch.symm ▸ hx))⟩
  | finalizer blocks pending =>
    intro hne
    obtain ⟨batch,hb⟩ := h hne
    exact ⟨batch,hb.grow hg (hb.lt hne hnamed) (fun x hx => hs x (hbatch.symm ▸ hx))⟩
  | freeing pending =>
    intro hne
    obtain ⟨batch,hb,hf⟩ := h hne
    obtain ⟨header,hh⟩ := List.exists_mem_of_ne_nil _ hne
    refine ⟨batch,fun x hx => List.mem_append_left _ ?_,hf.grow hg (hnamed _ _ (hb header hh))⟩
    rw [hs x (by simpa [Frame.custody] using hx)]
    exact hb x hx
  | _ => trivial

/-- The two facts about a step that the batches depend on: which frames are new, and that no
block of an unfinished batch is freed. -/
theorem Batches.of_growth (h : Batches w) (hg : Growth w.log events)
    (hl : w'.log = w.log ++ events)
    (hframes : ∀ thread, ∀ frame ∈ w'.control thread,
      (frame ∈ w.control thread ∧ ∀ header ∈ frame.custody.map Prod.fst,
        w'.state.serial header = w.state.serial header) ∨
      frame.Batched w'.log w'.state.serial)
    (hfreed : ∀ a batch, .freed a ∈ events → .detached a batch ∈ w.log →
      FinalizedBatch w.log batch) : Batches w' := by
  refine ⟨fun serial batch hd => ?_,fun thread frame hf => ?_,?_⟩
  · rw [hl] at hd ⊢
    rw [List.length_append]
    rcases List.mem_append.mp hd with hd | hd
    · exact (h.named serial batch hd).trans_le (Nat.le_add_right _ _)
    · rw [hg.batch serial batch hd]
      exact Nat.lt_add_of_pos_right (List.length_pos_of_mem hd)
  · rcases hframes thread frame hf with ⟨hold,hs⟩ | hnew
    · rw [hl]
      exact (h.frames thread frame hold).grow hg h.named hs
    · exact hnew
  · intro a b batch destructor ha hb hp hfree
    rw [hl] at ha hb hp hfree ⊢
    have ha : Event.detached a batch ∈ w.log := by
      rcases List.mem_append.mp ha with ha | ha
      · exact ha
      · exact absurd hfree (hg.unfreed a batch ha)
    have hlt := h.named a batch ha
    have hb : Event.detached b batch ∈ w.log := by
      rcases List.mem_append.mp hb with hb | hb
      · exact hb
      · exact absurd (hg.batch b batch hb) hlt.ne
    have hp : Event.placed b (some destructor) ∈ w.log := by
      rcases List.mem_append.mp hp with hp | hp
      · exact hp
      · exact absurd rfl (hg.fresh b _ hp _ hb)
    rcases List.mem_append.mp hfree with hfree | hfree
    · exact (h.ordered a b batch destructor ha hb hp hfree).append_right _
    · exact Before.of_append (hfreed a batch hfree ha b destructor hb hp) hfree

theorem mem_resumed {rest : List Frame} {ok : Bool} {frame : Frame}
    (hf : frame ∈ resumed rest ok) : frame ∈ rest ∨ ∃ request, frame = .allocating request true := by
  unfold resumed at hf
  split at hf
  · split_ifs at hf
    · exact (List.mem_cons.mp hf).elim (fun h => Or.inr ⟨_,h⟩)
        (fun h => Or.inl (List.mem_cons_of_mem _ h))
    · exact Or.inl (List.mem_cons_of_mem _ hf)
  · exact Or.inl hf

/-- The frames a step adds, and what they say about their batch. -/
theorem Transition.batched (h : Batches w) (hinv : Invariant w) (hlife : Lifecycle w)
    (ht : Transition thread w w') : ∀ frame ∈ w'.control thread,
      frame ∈ w.control thread ∨ frame.Batched w'.log w'.state.serial := by
  have hsame : ∀ {frame : Frame}, frame ∈ w.control thread →
      frame.Batched w.log w.state.serial := fun hf => h.frames thread _ hf
  have hreturn : ∀ {top : Frame} {rest : List Frame} {ok : Bool},
      w.control thread = top :: rest →
      w'.control = Function.update w.control thread (resumed rest ok) →
      ∀ frame ∈ w'.control thread,
        frame ∈ w.control thread ∨ frame.Batched w'.log w'.state.serial := by
    intro top rest ok hc hcontrol frame hf
    rw [hcontrol, Function.update_self] at hf
    rcases mem_resumed hf with hf | ⟨request,rfl⟩
    · rw [hc]
      exact Or.inl (List.mem_cons_of_mem _ hf)
    · exact Or.inr trivial
  have hreplace : ∀ {top new : Frame} {rest : List Frame}, w.control thread = top :: rest →
      w'.control = Function.update w.control thread (new :: rest) →
      new.Batched w'.log w'.state.serial → ∀ frame ∈ w'.control thread,
        frame ∈ w.control thread ∨ frame.Batched w'.log w'.state.serial := by
    intro top new rest hc hcontrol hnew frame hf
    rw [hcontrol, Function.update_self] at hf
    rcases List.mem_cons.mp hf with rfl | hf
    · exact Or.inr hnew
    · rw [hc]
      exact Or.inl (List.mem_cons_of_mem _ hf)
  cases ht with
  | store | immediate => exact fun frame hf => Or.inl hf
  | call =>
    intro frame hf
    simp only [World.setControl, Function.update_self] at hf
    rcases List.mem_cons.mp hf with rfl | hf
    · exact Or.inr trivial
    · exact Or.inl hf
  | finalizerReturns hc =>
    have hb := hsame (hc ▸ List.mem_cons_self)
    exact hreplace hc rfl hb
  | runsSection hc hco hrun =>
    rename_i next
    cases next with
    | done value => exact hreturn hc (proceed_control _)
    | window call => exact hreplace hc (proceed_control _) trivial
    | allocate request => exact hreplace hc (proceed_control _) trivial
    | free header => exact hreplace hc (proceed_control _) trivial
    | collect => exact hreplace hc (proceed_control _) trivial
  | callThrows hc | publishThrows hc | prologueThrows hc | releases hc | outOfMemory hc
  | freesBlock hc => exact hreturn hc (deliver_control _)
  | stalls hc hs => exact hreplace hc rfl trivial
  | windowDestroys hc hp hm hrun =>
    rename_i call rest fuel env supply supply' blocks s
    refine hreplace hc rfl (fun hne => ⟨w.log.length,fun serial => ?_⟩)
    change Event.detached serial w.log.length ∈ w.log ++ _ ↔ _
    rw [List.mem_append]
    constructor
    · rintro (hd | hd)
      · exact absurd (h.named _ _ hd) (lt_irrefl _)
      · obtain ⟨header,hh,he⟩ := List.mem_map.mp hd
        exact ⟨header,hh,(Event.detached.inj he).1⟩
    · rintro ⟨header,hh,rfl⟩
      exact Or.inr (List.mem_map.mpr ⟨header,hh,rfl⟩)
  | windowReturns hc => exact hreplace hc rfl trivial
  | windowThrows hc => exact hreplace hc rfl trivial
  | destroyed hc =>
    rename_i blocks rest
    refine hreplace hc rfl (fun hne => ?_)
    have hold : (Frame.destroying blocks []).Batched w.log w.state.serial :=
      hsame (hc ▸ List.mem_cons_self)
    obtain ⟨batch,hb⟩ := hold hne
    refine ⟨batch,fun header hh => (hb _).mpr ⟨header,hh,rfl⟩,?_⟩
    intro serial destructor hd hp
    obtain ⟨header,hh,rfl⟩ := (hb serial).mp hd
    have hentry : (header,Phase.finalized) ∈ custody (w.control thread) := by
      rw [hc, custody_cons]
      refine List.mem_append_left _ ?_
      change _ ∈ batchCustody blocks []
      rw [batchCustody_nil]
      exact List.mem_map_of_mem hh
    obtain ⟨chunk,hchunk⟩ := hinv.ownership.held_chunk thread (List.mem_map_of_mem hentry)
    have hpast := hlife.held thread _ hentry chunk hchunk
    rw [State.serial_eq hchunk] at hp ⊢
    have hplaced : Event.placed chunk.serial (some destructor) ∈ history w.log chunk.serial :=
      mem_history.mpr ⟨hp,rfl⟩
    have hmem : Event.finalized chunk.serial ∈ history w.log chunk.serial := by
      generalize history w.log chunk.serial = events at hpast hplaced
      cases hpast with
      | finalized k =>
        have hcall : chunk.header.destructor = some destructor := by
          unfold destructorCall at hplaced
          split_ifs at hplaced <;> simpa [eq_comm] using hplaced
        simp [destructorCall, hcall]
    exact (mem_history.mp hmem).1
  | skips hc hd =>
    have hb := hsame (hc ▸ List.mem_cons_self)
    exact hreplace hc rfl hb
  | finalizes hc hd =>
    rename_i blocks pending header rest
    have hfull : (Frame.destroying blocks (header :: pending)).Batched w.log w.state.serial :=
      hsame (hc ▸ List.mem_cons_self)
    have hold : (Frame.finalizer blocks pending).Batched w.log w.state.serial := hfull
    have hg : Growth w.log [.finalized (w.state.serial header)] := ⟨by simp,by simp,by simp⟩
    exact hreplace hc rfl (hold.grow hg h.named (fun _ _ => rfl))
  | freed hc => exact hreplace hc rfl trivial
  | frees hc =>
    rename_i pending header rest
    have hold : (Frame.freeing pending).Batched w.log w.state.serial := by
      intro hne
      have hfull : (Frame.freeing (header :: pending)).Batched w.log w.state.serial :=
        hsame (hc ▸ List.mem_cons_self)
      obtain ⟨batch,hb,hf⟩ := hfull (List.cons_ne_nil _ _)
      exact ⟨batch,fun x hx => hb x (List.mem_cons_of_mem _ hx),hf⟩
    have hg : Growth w.log [.freed (w.state.serial header)] := ⟨by simp,by simp,by simp⟩
    have hnew : header ∉ pending := by
      have hnodup := (List.nodup_append.mp (hinv.ownership.nodup thread)).2.1
      rw [hc, held, custody_cons, List.map_append] at hnodup
      have htop := (List.nodup_append.mp hnodup).1
      simp only [Frame.custody, List.map_cons] at htop
      exact fun hh => (List.nodup_cons.mp htop).1 (by simpa using hh)
    refine hreplace hc rfl (hold.grow hg h.named (fun x hx => ?_))
    have hx : x ∈ pending := by simpa [Frame.custody] using hx
    have hne : x ≠ header := fun he => hnew (he ▸ hx)
    change ((w.state.chunks.erase header).find? x).elim 0 Chunk.serial = _
    rw [OrderedMap.find?_erase, if_neg hne]
    rfl
  | retries hc =>
    intro frame hf
    simp only [World.setControl, Function.update_self] at hf
    rw [hc]
    rcases List.mem_cons.mp hf with rfl | hf
    · exact Or.inr trivial
    · rcases List.mem_cons.mp hf with rfl | hf
      · exact Or.inr trivial
      · exact Or.inl (List.mem_cons_of_mem _ hf)
  | places hc hf => exact hreplace hc rfl trivial

/-- A block whose history ends in a phase other than `finalized` was never detached. -/
theorem Past.not_detached {serial batch : ℕ} {destructor : Option ℕ} {phase : Phase}
    {past : List Event} (h : Past serial destructor phase past) (hd : phase ≠ .detached)
    (hf : phase ≠ .finalized) : Event.detached serial batch ∉ past := by
  cases h with
  | placed | released => simp
  | detached => exact absurd rfl hd
  | finalized => exact absurd rfl hf

theorem Past.batch_unique {serial k k' : ℕ} {destructor : Option ℕ} {phase : Phase}
    {past : List Event} (h : Past serial destructor phase past)
    (hk : Event.detached serial k ∈ past) (hk' : Event.detached serial k' ∈ past) : k = k' := by
  have hcall : ∀ k, Event.detached serial k ∉ destructorCall serial destructor := by
    intro k hk
    unfold destructorCall at hk
    split_ifs at hk <;> simp at hk
  cases h with
  | placed | released => simp at hk
  | detached batch => simp at hk hk'; omega
  | finalized batch =>
    simp only [List.cons_append, List.nil_append, List.mem_cons, reduceCtorEq, false_or,
      hcall, or_false, Event.detached.injEq, true_and] at hk hk'
    omega

theorem Section.not_freed (s s' : State) (code : Section) (next : Next) (a : ℕ) :
    Event.freed a ∉ code.events s s' next := by
  cases code with
  | publish => simp [Section.events]
  | call => cases next <;> simp [Section.events]

/-- A block is freed on behalf of its batch only when the batch has been finalized. -/
theorem Transition.freed_batch (h : Batches w) (hinv : Invariant w) (hlife : Lifecycle w)
    (ht : Transition thread w w') (hl : w'.log = w.log ++ events) :
    ∀ a batch, .freed a ∈ events → .detached a batch ∈ w.log → FinalizedBatch w.log batch := by
  intro a batch ha hd
  have hnone : w'.log = w.log → FinalizedBatch w.log batch := by
    intro heq
    rw [heq, List.self_eq_append_right] at hl
    rw [hl] at ha
    cases ha
  have hsome : ∀ {new : List Event}, w'.log = w.log ++ new → .freed a ∈ new := by
    intro new heq
    rw [hl] at heq
    rw [← List.append_cancel_left heq]
    exact ha
  have hheld : ∀ {header : ℕ} {phase : Phase}, (header,phase) ∈ custody (w.control thread) →
      phase ≠ .detached → phase ≠ .finalized → a = w.state.serial header →
        FinalizedBatch w.log batch := by
    intro header phase hentry hdetached hfinalized heq
    obtain ⟨chunk,hchunk⟩ := hinv.ownership.held_chunk thread (List.mem_map_of_mem hentry)
    have hpast := hlife.held thread _ hentry chunk hchunk
    rw [State.serial_eq hchunk] at heq
    subst heq
    exact absurd (mem_history.mpr ⟨hd,rfl⟩) (hpast.not_detached hdetached hfinalized)
  cases ht with
  | store | immediate | call | finalizerReturns | stalls | windowReturns | windowThrows
  | destroyed | skips | freed | retries => exact hnone rfl
  | callThrows | prologueThrows | releases | outOfMemory => exact hnone (deliver_log _)
  | runsSection hc hco hrun => exact absurd (hsome (proceed_log _)) (Section.not_freed _ _ _ _ _)
  | windowDestroys hc hp hm hrun =>
    have hmem := hsome rfl
    simp at hmem
  | finalizes hc hd =>
    have hmem := hsome rfl
    simp at hmem
  | places hc hf =>
    have hmem := hsome rfl
    simp at hmem
  | publishThrows hc hco hrun =>
    rename_i header constructing stage rest s s' fuel supply e
    have hmem := hsome (deliver_log _)
    have hchunks := hco.sameHeap.sameChunks.trans (failed_of_run hinv.heap hco hrun).same.1
    have heq : a = w.state.serial header := by
      rw [← hchunks.serial]
      simpa [World.setState] using hmem
    exact hheld (by rw [hc]; exact List.mem_cons_self) (by simp) (by simp) heq
  | freesBlock hc =>
    have hmem := hsome (deliver_log _)
    exact hheld (by rw [hc]; exact List.mem_cons_self) (by simp) (by simp) (by simpa using hmem)
  | frees hc =>
    rename_i pending header rest
    have hmem := hsome rfl
    obtain rfl : a = w.state.serial header := by simpa using hmem
    have hframe : (Frame.freeing (header :: pending)).Batched w.log w.state.serial :=
      h.frames thread _ (hc ▸ List.mem_cons_self)
    obtain ⟨k,hk,hfinal⟩ := hframe (List.cons_ne_nil _ _)
    have hentry : (header,Phase.finalized) ∈ custody (w.control thread) := by
      rw [hc]
      exact List.mem_cons_self
    obtain ⟨chunk,hchunk⟩ := hinv.ownership.held_chunk thread (List.mem_map_of_mem hentry)
    have hpast := hlife.held thread _ hentry chunk hchunk
    have hin : ∀ k, .detached (w.state.serial header) k ∈ w.log →
        .detached chunk.serial k ∈ history w.log chunk.serial := by
      intro k hk
      rw [State.serial_eq hchunk] at hk
      exact mem_history.mpr ⟨hk,rfl⟩
    rw [hpast.batch_unique (hin _ hd) (hin _ (hk header List.mem_cons_self))]
    exact hfinal

theorem Batches.step (h : Batches w) (hinv : Invariant w) (hinv' : Invariant w')
    (hlife : Lifecycle w) (ht : Transition thread w w')
    (hcontrol : ∀ other, other ≠ thread → w'.control other = w.control other) : Batches w' := by
  have hmove := ht.move hinv.protocol hinv.heap hinv.ownership
  obtain ⟨events,hl,hg⟩ := hmove.growth hlife hinv.ownership
  refine h.of_growth hg hl (fun other frame hf => ?_) (ht.freed_batch h hinv hlife hl)
  have hkept : frame ∈ w.control other → ∀ header ∈ frame.custody.map Prod.fst,
      w'.state.serial header = w.state.serial header := by
    intro hold header hheader
    have hheld : ∀ {stack : List Frame}, frame ∈ stack → header ∈ held stack := by
      intro stack hmem
      obtain ⟨entry,hentry,rfl⟩ := List.mem_map.mp hheader
      exact List.mem_map_of_mem (List.mem_flatMap.mpr ⟨frame,hmem,hentry⟩)
    exact hmove.serial_eq hinv.ownership hinv'.ownership hinv.heap (hheld hold) (hheld hf)
  by_cases hne : other = thread
  · subst hne
    exact (ht.batched h hinv hlife frame hf).imp (fun hold => ⟨hold,hkept hold⟩) id
  · have hold : frame ∈ w.control other := hcontrol other hne ▸ hf
    exact Or.inl ⟨hold,hkept hold⟩

end

theorem ReachableWorld.batches {w : World} (h : ReachableWorld w) : Batches w := by
  refine h.induction (fun memory => ?_) (fun label w w' hr hb hstep => ?_)
  · constructor <;> simp [World.initial]
  · exact hb.step hr.invariant (hr.invariant.step hstep) hr.lifecycle (step_transition hstep)
      (hr.control hstep)

theorem ReachableWorld.log_extends {w w' : World} (h : ReachableWorld w)
    (hsteps : Relation.ReflTransGen (Steps step) w w') :
    ReachableWorld w' ∧ ∃ events, w'.log = w.log ++ events := by
  induction hsteps with
  | refl => exact ⟨h,[],(List.append_nil _).symm⟩
  | tail _ hstep ih =>
    obtain ⟨label,hstep⟩ := hstep
    obtain ⟨hr,events,hlog⟩ := ih
    obtain ⟨events',hlog',-⟩ := (hr.move hstep).growth hr.lifecycle hr.invariant.ownership
    exact ⟨Reachable.step hr hstep,events ++ events',by rw [hlog', hlog, List.append_assoc]⟩

end GcLib.Protocol
