import GcLib.Protocol.Batches

/-! # Exactly-once life of every block

A registered block is in one place at a time: the registry, one pending batch, the hands
of the call that released it, or freed. Its history says which, so it moves only from
the registry to a batch or to a release, and from there to `operator delete`.
-/

namespace GcLib.Properties
open GcLib.Heap GcLib.Support GcLib.Protocol

/-- Where a registered block can be. A frame is named by its height on its thread's stack. -/
inductive Place where
  | registry
  | batch (thread : ThreadId) (height : ℕ)
  | withdrawn (thread : ThreadId) (height : ℕ)
  | freed
  deriving DecidableEq, Repr

/-- The block at a header address has the number. -/
def HasSerial (w : World) (header serial : ℕ) : Prop :=
  ∃ chunk, w.state.chunks.find? header = some chunk ∧ chunk.serial = serial

/-- The frame at a height, counted from the bottom of a thread's stack. -/
def frameAt (w : World) (thread : ThreadId) (height : ℕ) : Option Frame :=
  (w.control thread).reverse[height]?

/-- The blocks a frame of `destroy_blocks` has yet to free. -/
def batchOf : Frame → List ℕ
  | .destroying blocks _ => blocks
  | .finalizer blocks _ => blocks
  | .freeing pending => pending
  | _ => []

def At (w : World) (serial : ℕ) : Place → Prop
  | .registry => ∃ block ∈ w.state.allocations.values, HasSerial w block.header serial
  | .batch thread height => ∃ frame, frameAt w thread height = some frame ∧
      ∃ header ∈ batchOf frame, HasSerial w header serial
  | .withdrawn thread height => ∃ header, frameAt w thread height = some (.freeingBlock header) ∧
      HasSerial w header serial
  | .freed => .freed serial ∈ w.log

/-- The history of a registered block in a place. -/
def Place.History (serial : ℕ) (events : List Event) : Place → Prop
  | .registry => ∃ destructor, events = [.placed serial destructor,.registered serial]
  | .batch _ _ => ∃ destructor batch, ∃ call ∈ [[],destructorCall serial destructor],
      events = [.placed serial destructor,.registered serial,.detached serial batch] ++ call
  | .withdrawn _ _ => ∃ destructor,
      events = [.placed serial destructor,.registered serial,.released serial]
  | .freed => ∃ destructor,
      (∃ batch, events = [.placed serial destructor,.registered serial,.detached serial batch] ++
        destructorCall serial destructor ++ [.freed serial]) ∨
      events = [.placed serial destructor,.registered serial,.released serial,.freed serial]

/-- The places a block can be in later. -/
def Place.Before : Place → Place → Prop
  | .registry, _ => True
  | .batch _ _, .batch _ _ => True
  | .batch _ _, .freed => True
  | .withdrawn _ _, .withdrawn _ _ => True
  | .withdrawn _ _, .freed => True
  | .freed, .freed => True
  | _, _ => False

section
variable {w : World} {serial header : ℕ} {thread : ThreadId} {height : ℕ} {frame : Frame}
  {place place' : Place}

theorem mem_control_of_frameAt (hf : frameAt w thread height = some frame) :
    frame ∈ w.control thread :=
  List.mem_reverse.mp (List.mem_of_getElem? hf)

theorem mem_custody_of_frameAt {entry : ℕ × Phase} (hf : frameAt w thread height = some frame)
    (he : entry ∈ frame.custody) : entry ∈ custody (w.control thread) :=
  List.mem_flatMap.mpr ⟨frame,mem_control_of_frameAt hf,he⟩

theorem exists_frameAt {entry : ℕ × Phase} (he : entry ∈ custody (w.control thread)) :
    ∃ height frame, frameAt w thread height = some frame ∧ entry ∈ frame.custody := by
  obtain ⟨frame,hf,he⟩ := List.mem_flatMap.mp he
  obtain ⟨height,hheight⟩ := List.mem_iff_getElem?.mp (List.mem_reverse.mpr hf)
  exact ⟨height,frame,hheight,he⟩

/-- The phase of a block says what kind of frame holds it. -/
theorem custody_frame {phase : Phase} (he : (header,phase) ∈ frame.custody) :
    match phase with
    | .placed => ∃ constructing stage, frame = .entering (.publish header constructing) stage
    | .detached => header ∈ batchOf frame
    | .finalized => header ∈ batchOf frame
    | .released => frame = .freeingBlock header := by
  have hbatch : ∀ {blocks pending : List ℕ}, (header,phase) ∈ batchCustody blocks pending →
      header ∈ blocks ∧ (phase = .detached ∨ phase = .finalized) := by
    intro blocks pending he
    obtain ⟨x,hx,heq⟩ := List.mem_map.mp he
    cases heq
    refine ⟨hx,?_⟩
    split_ifs
    · exact Or.inl rfl
    · exact Or.inr rfl
  cases frame with
  | entering code stage =>
    cases code with
    | call call => cases he
    | publish x constructing =>
      cases List.mem_singleton.mp he
      exact ⟨constructing,stage,rfl⟩
  | destroying blocks pending =>
    obtain ⟨hb,rfl | rfl⟩ := hbatch he
    · exact hb
    · exact hb
  | finalizer blocks pending =>
    obtain ⟨hb,rfl | rfl⟩ := hbatch he
    · exact hb
    · exact hb
  | freeing pending =>
    obtain ⟨x,hx,heq⟩ := List.mem_map.mp he
    cases heq
    exact hx
  | freeingBlock x =>
    cases List.mem_singleton.mp he
    rfl
  | _ => cases he

theorem custody_of_batchOf (hb : header ∈ batchOf frame) :
    ∃ phase, (header,phase) ∈ frame.custody ∧ (phase = .detached ∨ phase = .finalized) := by
  have hbatch : ∀ {blocks pending : List ℕ}, header ∈ blocks → ∃ phase,
      (header,phase) ∈ batchCustody blocks pending ∧ (phase = .detached ∨ phase = .finalized) := by
    intro blocks pending hb
    refine ⟨_,List.mem_map_of_mem hb,?_⟩
    split_ifs
    · exact Or.inl rfl
    · exact Or.inr rfl
  cases frame with
  | destroying blocks pending => exact hbatch hb
  | finalizer blocks pending => exact hbatch hb
  | freeing pending => exact ⟨.finalized,List.mem_map_of_mem hb,Or.inr rfl⟩
  | _ => cases hb

theorem frameAt_unique (ho : Ownership w) {thread' : ThreadId} {height' : ℕ} {frame' : Frame}
    {phase phase' : Phase} (hf : frameAt w thread height = some frame)
    (hf' : frameAt w thread' height' = some frame') (he : (header,phase) ∈ frame.custody)
    (he' : (header,phase') ∈ frame'.custody) : thread = thread' ∧ height = height' := by
  have hheld : header ∈ held (w.control thread) :=
    mem_held.mpr ⟨phase,mem_custody_of_frameAt hf he⟩
  have hheld' : header ∈ held (w.control thread') :=
    mem_held.mpr ⟨phase',mem_custody_of_frameAt hf' he'⟩
  obtain rfl : thread = thread' := by
    by_contra hne
    exact ho.apart thread thread' hne header hheld hheld'
  refine ⟨rfl,?_⟩
  have hnodup := (List.nodup_append.mp (ho.nodup thread)).2.1
  rw [held, custody, List.map_flatMap] at hnodup
  have hpair : (w.control thread).reverse.Pairwise
      (fun f g => (f.custody.map Prod.fst).Disjoint (g.custody.map Prod.fst)) :=
    List.pairwise_reverse.mpr ((List.nodup_flatMap.mp hnodup).2.imp (fun hd => hd.symm))
  have hapart : ∀ {i j : ℕ} {f g : Frame} {p q : Phase}, i < j → frameAt w thread i = some f →
      frameAt w thread j = some g → (header,p) ∈ f.custody → (header,q) ∈ g.custody → False := by
    intro i j f g p q hij hi hj hp hq
    obtain ⟨hil,rfl⟩ := List.getElem?_eq_some_iff.mp hi
    obtain ⟨hjl,rfl⟩ := List.getElem?_eq_some_iff.mp hj
    have hi : header ∈ ((w.control thread).reverse[i]).custody.map Prod.fst :=
      List.mem_map.mpr ⟨_,hp,rfl⟩
    have hj : header ∈ ((w.control thread).reverse[j]).custody.map Prod.fst :=
      List.mem_map.mpr ⟨_,hq,rfl⟩
    exact List.pairwise_iff_getElem.mp hpair i j hil hjl hij hi hj
  rcases lt_trichotomy height height' with hlt | heq | hlt
  · exact (hapart hlt hf hf' he he').elim
  · exact heq
  · exact (hapart hlt hf' hf he' he).elim

/-- A block in a frame's custody, by its number. -/
structure Held (w : World) (serial : ℕ) (thread : ThreadId) (height : ℕ) (phase : Phase) :
    Prop where
  frame : ∃ frame header, frameAt w thread height = some frame ∧ (header,phase) ∈ frame.custody ∧
    HasSerial w header serial

theorem At.held_batch (h : At w serial (.batch thread height)) :
    ∃ phase, Held w serial thread height phase ∧ (phase = .detached ∨ phase = .finalized) := by
  obtain ⟨frame,hf,header,hb,hs⟩ := h
  obtain ⟨phase,he,hphase⟩ := custody_of_batchOf hb
  exact ⟨phase,⟨frame,header,hf,he,hs⟩,hphase⟩

theorem At.held_withdrawn (h : At w serial (.withdrawn thread height)) :
    Held w serial thread height .released := by
  obtain ⟨header,hf,hs⟩ := h
  exact ⟨_,header,hf,List.mem_singleton_self _,hs⟩

theorem HasSerial.unique (hl : Lifecycle w) {header' : ℕ} (h : HasSerial w header serial)
    (h' : HasSerial w header' serial) : header = header' := by
  obtain ⟨chunk,hc,hs⟩ := h
  obtain ⟨chunk',hc',hs'⟩ := h'
  exact hl.serial_inj _ _ _ _ hc hc' (hs.trans hs'.symm)

theorem Held.past (hl : Lifecycle w) {phase : Phase} (h : Held w serial thread height phase) :
    ∃ destructor, Past serial destructor phase (history w.log serial) := by
  obtain ⟨frame,header,hf,he,chunk,hc,rfl⟩ := h
  exact ⟨chunk.header.destructor,hl.held thread _ (mem_custody_of_frameAt hf he) chunk hc⟩

theorem Held.unique (ho : Ownership w) (hl : Lifecycle w) {phase phase' : Phase}
    {thread' : ThreadId} {height' : ℕ} (h : Held w serial thread height phase)
    (h' : Held w serial thread' height' phase') : thread = thread' ∧ height = height' := by
  obtain ⟨frame,header,hf,he,hs⟩ := h
  obtain ⟨frame',header',hf',he',hs'⟩ := h'
  obtain rfl := hs.unique hl hs'
  exact frameAt_unique ho hf hf' he he'

theorem At.registry_history (hl : Lifecycle w) (h : At w serial .registry) :
    ∃ destructor, history w.log serial = [.placed serial destructor,.registered serial] := by
  obtain ⟨block,hb,chunk,hc,rfl⟩ := h
  exact ⟨_,hl.registered block.header (List.mem_map_of_mem hb) chunk hc⟩

theorem At.freed_gone (ho : Ownership w) (hl : Lifecycle w) (h : At w serial .freed) :
    ¬ ∃ header, HasSerial w header serial := by
  rintro ⟨header,chunk,hc,rfl⟩
  have hmem : Event.freed chunk.serial ∈ history w.log chunk.serial := mem_history.mpr ⟨h,rfl⟩
  rcases (ho.mem_chunks header).mp ⟨chunk,hc⟩ with hr | ⟨thread,hh⟩
  · rw [hl.registered header hr chunk hc] at hmem
    simp at hmem
  · obtain ⟨phase,he⟩ := mem_held.mp hh
    have hpast := hl.held thread _ he chunk hc
    generalize history w.log chunk.serial = events at hpast hmem
    cases hpast with
    | finalized batch =>
      unfold destructorCall at hmem
      split_ifs at hmem <;> simp at hmem
    | _ => simp at hmem

/-- A place determines the history of its block. -/
theorem At.history (ho : Ownership w) (hl : Lifecycle w)
    (hr : .registered serial ∈ w.log) (h : At w serial place) :
    place.History serial (history w.log serial) := by
  cases place with
  | registry => exact h.registry_history hl
  | batch thread height =>
    obtain ⟨phase,hheld,hphase⟩ := h.held_batch
    obtain ⟨destructor,hpast⟩ := hheld.past hl
    generalize Protocol.history w.log serial = events at hpast
    rcases hphase with rfl | rfl
    · cases hpast with
      | detached batch => exact ⟨destructor,batch,[],by simp,rfl⟩
    · cases hpast with
      | finalized batch => exact ⟨destructor,batch,_,by simp,rfl⟩
  | withdrawn thread height =>
    obtain ⟨destructor,hpast⟩ := h.held_withdrawn.past hl
    generalize Protocol.history w.log serial = events at hpast
    cases hpast
    exact ⟨destructor,rfl⟩
  | freed =>
    have hgone := h.freed_gone ho hl
    have hlt := hl.recorded _ hr
    obtain ⟨destructor,phase,past,hphase,hpast,heq⟩ :=
      hl.gone serial hlt (fun header chunk hc hs => hgone ⟨header,chunk,hc,hs⟩)
    have hmem : Event.registered serial ∈ Protocol.history w.log serial := mem_history.mpr ⟨hr,rfl⟩
    rw [heq] at hmem ⊢
    cases hpast with
    | placed => simp at hmem
    | detached => exact absurd rfl hphase
    | finalized batch => exact ⟨destructor,Or.inl ⟨batch,rfl⟩⟩
    | released => exact ⟨destructor,Or.inr rfl⟩

theorem exists_place (ho : Ownership w) (hl : Lifecycle w) (hr : .registered serial ∈ w.log) :
    ∃ place, At w serial place := by
  have hmem : Event.registered serial ∈ history w.log serial := mem_history.mpr ⟨hr,rfl⟩
  by_cases hlive : ∃ header, HasSerial w header serial
  · obtain ⟨header,chunk,hc,hs⟩ := hlive
    rcases (ho.mem_chunks header).mp ⟨chunk,hc⟩ with hreg | ⟨thread,hh⟩
    · obtain ⟨block,hb,rfl⟩ := mem_registered.mp hreg
      exact ⟨.registry,block,hb,chunk,hc,hs⟩
    · obtain ⟨phase,he⟩ := mem_held.mp hh
      obtain ⟨height,frame,hf,hin⟩ := exists_frameAt he
      have hframe := custody_frame hin
      cases phase with
      | placed =>
        have hpast := hl.held thread _ he chunk hc
        rw [hs] at hpast
        generalize history w.log serial = events at hpast hmem
        cases hpast
        simp at hmem
      | detached => exact ⟨.batch thread height,frame,hf,header,hframe,chunk,hc,hs⟩
      | finalized => exact ⟨.batch thread height,frame,hf,header,hframe,chunk,hc,hs⟩
      | released => exact ⟨.withdrawn thread height,header,hframe ▸ hf,chunk,hc,hs⟩
  · obtain ⟨destructor,phase,past,-,-,heq⟩ := hl.gone serial (hl.recorded _ hr)
      (fun header chunk hc hs => hlive ⟨header,chunk,hc,hs⟩)
    have hfreed : Event.freed serial ∈ history w.log serial := by
      rw [heq]
      simp
    exact ⟨.freed,(mem_history.mp hfreed).1⟩

/-- Every place but the last is a place of a block in memory. -/
theorem At.freed_or_live (h : At w serial place) :
    place = .freed ∨ ∃ header, HasSerial w header serial := by
  cases place with
  | registry =>
    obtain ⟨block,-,hs⟩ := h
    exact Or.inr ⟨_,hs⟩
  | batch thread height =>
    obtain ⟨frame,-,header,-,hs⟩ := h
    exact Or.inr ⟨_,hs⟩
  | withdrawn thread height =>
    obtain ⟨header,-,hs⟩ := h
    exact Or.inr ⟨_,hs⟩
  | freed => exact Or.inl rfl

theorem At.not_held (ho : Ownership w) (hl : Lifecycle w) {phase : Phase}
    (h : At w serial .registry) : ¬ Held w serial thread height phase := by
  rintro ⟨frame,header,hf,he,hs'⟩
  obtain ⟨block,hb,hs⟩ := h
  obtain rfl := hs.unique hl hs'
  exact (List.nodup_append.mp (ho.nodup thread)).2.2 _ (List.mem_map_of_mem hb) _
    (mem_held.mpr ⟨phase,mem_custody_of_frameAt hf he⟩) rfl

/-- A batch and a release are never one frame. -/
theorem At.batch_ne_withdrawn (ho : Ownership w) (hl : Lifecycle w) {thread' : ThreadId}
    {height' : ℕ} (h : At w serial (.batch thread height)) :
    ¬ At w serial (.withdrawn thread' height') := by
  intro h'
  obtain ⟨phase,hheld,-⟩ := h.held_batch
  obtain ⟨rfl,rfl⟩ := hheld.unique ho hl h'.held_withdrawn
  obtain ⟨frame,hf,header,hb,-⟩ := h
  obtain ⟨header',hf',-⟩ := h'
  rw [hf] at hf'
  cases hf'
  cases hb

theorem At.unique (ho : Ownership w) (hl : Lifecycle w) (h : At w serial place)
    (h' : At w serial place') : place = place' := by
  by_cases hfreed : place = .freed
  · subst hfreed
    exact (h'.freed_or_live.resolve_right (h.freed_gone ho hl)).symm
  by_cases hfreed' : place' = .freed
  · subst hfreed'
    exact h.freed_or_live.resolve_right (h'.freed_gone ho hl)
  cases place with
  | registry =>
    cases place' with
    | registry => rfl
    | batch thread height =>
      obtain ⟨phase,hheld,-⟩ := h'.held_batch
      exact absurd hheld (h.not_held ho hl)
    | withdrawn thread height => exact absurd h'.held_withdrawn (h.not_held ho hl)
    | freed => exact absurd rfl hfreed'
  | batch thread height =>
    obtain ⟨phase,hheld,-⟩ := h.held_batch
    cases place' with
    | registry => exact absurd hheld (h'.not_held ho hl)
    | batch thread' height' =>
      obtain ⟨phase',hheld',-⟩ := h'.held_batch
      obtain ⟨rfl,rfl⟩ := hheld.unique ho hl hheld'
      rfl
    | withdrawn thread' height' => exact absurd h' (h.batch_ne_withdrawn ho hl)
    | freed => exact absurd rfl hfreed'
  | withdrawn thread height =>
    cases place' with
    | registry => exact absurd h.held_withdrawn (h'.not_held ho hl)
    | batch thread' height' => exact absurd h (h'.batch_ne_withdrawn ho hl)
    | withdrawn thread' height' =>
      obtain ⟨rfl,rfl⟩ := h.held_withdrawn.unique ho hl h'.held_withdrawn
      rfl
    | freed => exact absurd rfl hfreed'
  | freed => exact absurd rfl hfreed

theorem mem_destructorCall {destructor : Option ℕ} {e : Event}
    (he : e ∈ destructorCall serial destructor) : e = .finalized serial := by
  unfold destructorCall at he
  split_ifs at he
  · cases he
  · exact List.mem_singleton.mp he

/-- Which events the history of a place holds. -/
theorem Place.History.mem {events : List Event} (h : place.History serial events) :
    ((∃ batch, .detached serial batch ∈ events) → place ≠ .registry ∧
      ∀ thread height, place ≠ .withdrawn thread height) ∧
    (.released serial ∈ events → place ≠ .registry ∧ ∀ thread height, place ≠ .batch thread height) ∧
    (.freed serial ∈ events → place = .freed) := by
  cases place with
  | registry =>
    obtain ⟨destructor,rfl⟩ := h
    simp
  | batch thread height =>
    obtain ⟨destructor,batch,call,hcall,rfl⟩ := h
    have hfinal : ∀ e ∈ call, e = .finalized serial := by
      intro e he
      rcases List.mem_cons.mp hcall with rfl | hcall
      · cases he
      · rw [List.mem_singleton.mp hcall] at he
        exact mem_destructorCall he
    refine ⟨fun _ => ⟨by simp,by simp⟩,fun hr => ?_,fun hf => ?_⟩
    · rcases List.mem_append.mp hr with hr | hr
      · simp at hr
      · cases hfinal _ hr
    · rcases List.mem_append.mp hf with hf | hf
      · simp at hf
      · cases hfinal _ hf
  | withdrawn thread height =>
    obtain ⟨destructor,rfl⟩ := h
    simp
  | freed => simp

/-- Histories only grow, so places only follow each other in one order. -/
theorem Place.History.before {events events' : List Event} (h : place.History serial events)
    (h' : place'.History serial events') (hp : events <+: events') : place.Before place' := by
  have hsub := hp.subset
  cases place with
  | registry => exact trivial
  | batch thread height =>
    obtain ⟨destructor,batch,call,-,rfl⟩ := h
    have hd : Event.detached serial batch ∈ events' := hsub (by simp)
    obtain ⟨hregistry,hwithdrawn⟩ := h'.mem.1 ⟨batch,hd⟩
    cases place' with
    | registry => exact absurd rfl hregistry
    | withdrawn thread' height' => exact absurd rfl (hwithdrawn thread' height')
    | _ => exact trivial
  | withdrawn thread height =>
    obtain ⟨destructor,rfl⟩ := h
    have hr : Event.released serial ∈ events' := hsub (by simp)
    obtain ⟨hregistry,hbatch⟩ := h'.mem.2.1 hr
    cases place' with
    | registry => exact absurd rfl hregistry
    | batch thread' height' => exact absurd rfl (hbatch thread' height')
    | _ => exact trivial
  | freed =>
    have hf : Event.freed serial ∈ events := by
      obtain ⟨destructor,⟨batch,rfl⟩ | rfl⟩ := h <;> simp
    rw [h'.mem.2.2 (hsub hf)]
    exact trivial

/-- A block whose registration failed, or has not run yet. -/
theorem unregistered_history (ho : Ownership w) (hl : Lifecycle w)
    (hp : serial < w.state.nextSerial) (hr : .registered serial ∉ w.log) :
    ∃ destructor, (history w.log serial = [.placed serial destructor] ∧
      ∃ thread header constructing stage,
        .entering (.publish header constructing) stage ∈ w.control thread ∧
        HasSerial w header serial) ∨
      history w.log serial = [.placed serial destructor,.freed serial] := by
  have hnone : Event.registered serial ∉ history w.log serial := fun hm => hr (mem_history.mp hm).1
  by_cases hlive : ∃ header, HasSerial w header serial
  · obtain ⟨header,chunk,hc,rfl⟩ := hlive
    rcases (ho.mem_chunks header).mp ⟨chunk,hc⟩ with hreg | ⟨thread,hh⟩
    · rw [hl.registered header hreg chunk hc] at hnone
      simp at hnone
    · obtain ⟨phase,he⟩ := mem_held.mp hh
      obtain ⟨frame,hf,hin⟩ := List.mem_flatMap.mp he
      have hframe := custody_frame hin
      have hpast := hl.held thread _ he chunk hc
      refine ⟨chunk.header.destructor,Or.inl ?_⟩
      generalize history w.log chunk.serial = events at hpast hnone
      cases hpast with
      | placed =>
        obtain ⟨constructing,stage,rfl⟩ := hframe
        exact ⟨rfl,thread,header,constructing,stage,hf,chunk,hc,rfl⟩
      | _ => simp at hnone
  · obtain ⟨destructor,phase,past,-,hpast,heq⟩ := hl.gone serial hp
      (fun header chunk hc hs => hlive ⟨header,chunk,hc,hs⟩)
    refine ⟨destructor,Or.inr ?_⟩
    rw [heq] at hnone ⊢
    cases hpast with
    | placed => rfl
    | _ => simp at hnone

end

/-- The life of every block, in any run: a registered block is in one place, its place fixes its
history, places follow each other in one order, a batch is freed after its last destructor call,
and a block whose registration fails is freed once. -/
theorem block_lifecycle {w : World} (h : ReachableWorld w) :
    (∀ serial, .registered serial ∈ w.log → ∃! place, At w serial place) ∧
    (∀ serial place, .registered serial ∈ w.log → At w serial place →
      place.History serial (history w.log serial)) ∧
    (∀ label w' serial place place', step label w = some w' → .registered serial ∈ w.log →
      At w serial place → At w' serial place' → place.Before place') ∧
    (∀ a b batch destructor, .detached a batch ∈ w.log → .detached b batch ∈ w.log →
      .placed b (some destructor) ∈ w.log → .freed a ∈ w.log →
        Before w.log (.finalized b) (.freed a)) ∧
    (∀ serial < w.state.nextSerial, .registered serial ∉ w.log → ∃ destructor,
      (history w.log serial = [.placed serial destructor] ∧
        ∃ thread header constructing stage,
          .entering (.publish header constructing) stage ∈ w.control thread ∧
          HasSerial w header serial) ∨
      history w.log serial = [.placed serial destructor,.freed serial]) := by
  have ho := h.invariant.ownership
  have hl := h.lifecycle
  refine ⟨fun serial hr => ?_,fun serial place hr hp => hp.history ho hl hr,?_,
    h.batches.ordered,fun serial hlt hr => unregistered_history ho hl hlt hr⟩
  · obtain ⟨place,hp⟩ := exists_place ho hl hr
    exact ⟨place,hp,fun place' hp' => hp'.unique ho hl hp⟩
  · intro label w' serial place place' hstep hr hp hp'
    obtain ⟨events,hlog,-⟩ := (h.move hstep).growth hl ho
    have h' : ReachableWorld w' := h.step hstep
    have hr' : Event.registered serial ∈ w'.log := by
      rw [hlog]
      exact List.mem_append_left _ hr
    refine (hp.history ho hl hr).before (hp'.history h'.invariant.ownership h'.lifecycle hr') ?_
    rw [hlog, history_append]
    exact List.prefix_append _ _

/-- The block of `allocatingRun` is dropped and collected. -/
def collectedRun : List Label :=
  allocatingRun ++ [.user 0 (.call .collect),.run 0 {},.run 0 { fuel := 50 },.run 0 {},
    .user 0 .finalizerReturns,.run 0 {},.run 0 {},.run 0 {},.run 0 {}]

theorem block_lifecycle_collectedRun :
    (worldAfter collectedRun).log = [.placed 0 (some 7),.registered 0,.detached 0 2,.finalized 0,
      .freed 0] ∧ ∃! place, At (worldAfter collectedRun) 0 place :=
  ⟨by decide +kernel,
    (block_lifecycle (reachable_worldAfter collectedRun)).1 0 (by decide +kernel)⟩

end GcLib.Properties
