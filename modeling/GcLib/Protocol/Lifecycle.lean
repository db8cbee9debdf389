import GcLib.Protocol.Reachable

/-! # The life of a block

The log of a run, restricted to one block, is the history of that block. It is fixed by
the place the block is in, up to the number of its batch, and the history of a freed
block ends with its only `freed` event.
-/

namespace GcLib.Protocol
open GcLib.Heap GcLib.Support

/-- The block an event is about. -/
def Event.serial : Event → ℕ
  | .placed serial _ => serial
  | .registered serial => serial
  | .detached serial _ => serial
  | .finalized serial => serial
  | .released serial => serial
  | .freed serial => serial

/-- What happened to one block, in order. -/
def history (log : List Event) (serial : ℕ) : List Event :=
  log.filter fun e => decide (e.serial = serial)

theorem history_append (log events : List Event) (serial : ℕ) :
    history (log ++ events) serial = history log serial ++ history events serial :=
  List.filter_append ..

theorem history_eq_nil {log : List Event} {serial : ℕ} (h : ∀ e ∈ log, e.serial ≠ serial) :
    history log serial = [] := by
  refine List.filter_eq_nil_iff.mpr (fun e he => ?_)
  simpa using h e he

theorem mem_history {log : List Event} {serial : ℕ} {e : Event} :
    e ∈ history log serial ↔ e ∈ log ∧ e.serial = serial := by
  simp [history]

/-- The destructor call of a block, which a null destructor leaves out. -/
def destructorCall (serial : ℕ) (destructor : Option ℕ) : List Event :=
  if destructor = none then [] else [.finalized serial]

/-- The history of a block outside the registry. -/
inductive Past (serial : ℕ) (destructor : Option ℕ) : Phase → List Event → Prop where
  | placed : Past serial destructor .placed [.placed serial destructor]
  | detached (batch : ℕ) : Past serial destructor .detached
      [.placed serial destructor,.registered serial,.detached serial batch]
  | finalized (batch : ℕ) : Past serial destructor .finalized
      ([.placed serial destructor,.registered serial,.detached serial batch] ++
        destructorCall serial destructor)
  | released : Past serial destructor .released
      [.placed serial destructor,.registered serial,.released serial]

/-- A registered block outside the live ones has a longer history than a live one. -/
theorem Past.length_lt {serial : ℕ} {destructor : Option ℕ} {phase : Phase} {events : List Event}
    (h : Past serial destructor phase events) (hmem : .registered serial ∈ events) :
    2 < events.length := by
  cases h with
  | placed => simp at hmem
  | finalized batch => simp
  | _ => simp

/-- The history of a freed block. -/
def Finished (serial : ℕ) (destructor : Option ℕ) (events : List Event) : Prop :=
  ∃ phase past, phase ≠ .detached ∧ Past serial destructor phase past ∧
    events = past ++ [.freed serial]

structure Lifecycle (w : World) : Prop where
  recorded : ∀ e ∈ w.log, e.serial < w.state.nextSerial
  serial_lt : ∀ header chunk, w.state.chunks.find? header = some chunk →
    chunk.serial < w.state.nextSerial
  serial_inj : ∀ a chunk a' chunk', w.state.chunks.find? a = some chunk →
    w.state.chunks.find? a' = some chunk' → chunk.serial = chunk'.serial → a = a'
  registered : ∀ header ∈ registered w.state, ∀ chunk,
    w.state.chunks.find? header = some chunk → history w.log chunk.serial =
      [.placed chunk.serial chunk.header.destructor,.registered chunk.serial]
  held : ∀ thread, ∀ entry ∈ custody (w.control thread), ∀ chunk,
    w.state.chunks.find? entry.1 = some chunk →
      Past chunk.serial chunk.header.destructor entry.2 (history w.log chunk.serial)
  gone : ∀ serial, serial < w.state.nextSerial →
    (∀ header chunk, w.state.chunks.find? header = some chunk → chunk.serial ≠ serial) →
      ∃ destructor, Finished serial destructor (history w.log serial)

theorem Lifecycle.initial (memory : Memory) : Lifecycle (.initial memory) := by
  constructor <;> simp [World.initial, State.initial, Protocol.registered, custody,
    OrderedMap.values, OrderedMap.find?]

theorem State.serial_eq {s : State} {header : ℕ} {chunk : Chunk}
    (hc : s.chunks.find? header = some chunk) : s.serial header = chunk.serial := by
  simp [State.serial, hc]

namespace Lifecycle
variable {w w' : World} {thread : ThreadId}

/-- Events of other blocks leave the history of a block alone. -/
theorem untouched (h : Lifecycle w) {touched : List ℕ} {events : List Event}
    (hevents : ∀ e ∈ events, ∃ header ∈ touched, e.serial = w.state.serial header)
    (hchunks : ∀ header ∈ touched, ∃ chunk, w.state.chunks.find? header = some chunk)
    {x : ℕ} {chunk : Chunk} (hx : x ∉ touched) (hc : w.state.chunks.find? x = some chunk) :
    history (w.log ++ events) chunk.serial = history w.log chunk.serial := by
  have hforeign : ∀ e ∈ events, e.serial ≠ chunk.serial := by
    intro e he heq
    obtain ⟨header,hheader,hs⟩ := hevents e he
    obtain ⟨chunk',hc'⟩ := hchunks header hheader
    rw [hs, State.serial_eq hc'] at heq
    exact hx (h.serial_inj _ _ _ _ hc hc' heq.symm ▸ hheader)
  rw [history_append, history_eq_nil hforeign, List.append_nil]

/-- A step that neither places nor frees a block. `touched` lists the blocks it is about. -/
theorem of_sameChunks (h : Lifecycle w) (ho : Ownership w)
    (hcontrol : ∀ other, other ≠ thread → w'.control other = w.control other)
    (hs : SameChunks w.state w'.state) (touched : List ℕ) {events : List Event}
    (hl : w'.log = w.log ++ events)
    (hevents : ∀ e ∈ events, ∃ header ∈ touched, e.serial = w.state.serial header)
    (htouched : ∀ header ∈ touched,
      header ∈ Protocol.registered w.state ++ Protocol.held (w.control thread))
    (hregistered : ∀ header ∈ Protocol.registered w'.state, ∀ chunk,
      w.state.chunks.find? header = some chunk → history (w.log ++ events) chunk.serial =
        [.placed chunk.serial chunk.header.destructor,.registered chunk.serial])
    (hheld : ∀ entry ∈ custody (w'.control thread), ∀ chunk,
      w.state.chunks.find? entry.1 = some chunk →
        Past chunk.serial chunk.header.destructor entry.2
          (history (w.log ++ events) chunk.serial)) : Lifecycle w' := by
  have hchunks : ∀ header ∈ touched, ∃ chunk, w.state.chunks.find? header = some chunk := by
    intro header hheader
    exact (ho.mem_chunks header).mpr
      ((List.mem_append.mp (htouched header hheader)).imp id (fun hm => ⟨thread,hm⟩))
  have hevent : ∀ e ∈ events, ∃ header chunk, w.state.chunks.find? header = some chunk ∧
      e.serial = chunk.serial := by
    intro e he
    obtain ⟨header,hheader,hserial⟩ := hevents e he
    obtain ⟨chunk,hc⟩ := hchunks header hheader
    exact ⟨header,chunk,hc,hserial.trans (State.serial_eq hc)⟩
  constructor
  · intro e he
    rw [hl, List.mem_append] at he
    rw [hs.nextSerial]
    rcases he with he | he
    · exact h.recorded e he
    · obtain ⟨header,chunk,hc,hserial⟩ := hevent e he
      exact hserial ▸ h.serial_lt _ _ hc
  · rw [hs.chunks, hs.nextSerial]
    exact h.serial_lt
  · rw [hs.chunks]
    exact h.serial_inj
  · rw [hs.chunks, hl]
    exact hregistered
  · intro other entry hentry chunk hc
    rw [hs.chunks] at hc
    rw [hl]
    by_cases hne : other = thread
    · exact hheld entry (hne ▸ hentry) chunk hc
    · rw [hcontrol other hne] at hentry
      rw [h.untouched hevents hchunks (fun hx => ?_) hc]
      · exact h.held other entry hentry chunk hc
      · have hother : entry.1 ∈ Protocol.held (w.control other) := List.mem_map_of_mem hentry
        rcases List.mem_append.mp (htouched _ hx) with hm | hm
        · exact (List.nodup_append.mp (ho.nodup other)).2.2 _ hm _ hother rfl
        · exact ho.apart other thread hne _ hother hm
  · intro serial hlt hgone
    rw [hs.nextSerial] at hlt
    rw [hs.chunks] at hgone
    have hforeign : ∀ e ∈ events, e.serial ≠ serial := by
      intro e he heq
      obtain ⟨header,chunk,hc,hserial⟩ := hevent e he
      exact hgone header chunk hc (hserial.symm.trans heq)
    rw [hl, history_append, history_eq_nil hforeign, List.append_nil]
    exact h.gone serial hlt hgone

theorem stays (h : Lifecycle w) (ho : Ownership w)
    (hcontrol : ∀ other, other ≠ thread → w'.control other = w.control other)
    (hs : SameChunks w.state w'.state)
    (hr : Protocol.registered w'.state = Protocol.registered w.state)
    (hc : custody (w'.control thread) = custody (w.control thread)) (hl : w'.log = w.log) :
    Lifecycle w' := by
  have hl' : w'.log = w.log ++ [] := by rw [hl, List.append_nil]
  refine h.of_sameChunks ho hcontrol hs [] hl' (by simp) (by simp) ?_ ?_
  · rw [hr, List.append_nil]
    exact h.registered
  · rw [hc, List.append_nil]
    exact h.held thread

theorem registers (h : Lifecycle w) (ho : Ownership w)
    (hcontrol : ∀ other, other ≠ thread → w'.control other = w.control other)
    (hs : SameChunks w.state w'.state) {header : ℕ}
    (hr : (Protocol.registered w'.state).Perm (header :: Protocol.registered w.state))
    (hc : custody (w.control thread) = (header,.placed) :: custody (w'.control thread))
    (hl : w'.log = w.log ++ [.registered (w.state.serial header)]) : Lifecycle w' := by
  have hmem : (header,Phase.placed) ∈ custody (w.control thread) := by
    rw [hc]
    exact List.mem_cons_self
  have hnodup := ho.nodup thread
  have hheld : Protocol.held (w.control thread) = header :: Protocol.held (w'.control thread) := by
    rw [Protocol.held, hc, List.map_cons]
    rfl
  rw [hheld] at hnodup
  obtain ⟨-,hheldNodup,hdisjoint⟩ := List.nodup_append.mp hnodup
  have hevents : ∀ e ∈ [Event.registered (w.state.serial header)], ∃ x ∈ [header],
      e.serial = w.state.serial x := by simp [Event.serial]
  have htouched : ∀ x ∈ [header],
      x ∈ Protocol.registered w.state ++ Protocol.held (w.control thread) := by
    simp [hheld]
  have hchunks : ∀ x ∈ [header], ∃ chunk, w.state.chunks.find? x = some chunk := by
    intro x hx
    rw [List.mem_singleton.mp hx]
    exact ho.held_chunk thread (by simp [hheld])
  refine h.of_sameChunks ho hcontrol hs [header] hl hevents htouched ?_ ?_
  · intro x hx chunk hchunk
    rcases List.mem_cons.mp (hr.mem_iff.mp hx) with rfl | hx
    · have hpast := h.held thread _ hmem chunk hchunk
      rw [history_append, State.serial_eq hchunk]
      generalize history w.log chunk.serial = events at hpast
      cases hpast
      simp [history, Event.serial]
    · rw [h.untouched hevents hchunks ?_ hchunk]
      · exact h.registered x hx chunk hchunk
      · intro hm
        exact hdisjoint x hx header List.mem_cons_self (List.mem_singleton.mp hm)
  · intro entry hentry chunk hchunk
    rw [h.untouched hevents hchunks ?_ hchunk]
    · exact h.held thread entry (by rw [hc]; exact List.mem_cons_of_mem _ hentry) chunk hchunk
    · intro hm
      rw [← List.mem_singleton.mp hm] at hheldNodup
      exact (List.nodup_cons.mp hheldNodup).1 (List.mem_map_of_mem hentry)

/-- The events of one detachment name each block once. -/
theorem history_detached {blocks : List ℕ} (hnodup : blocks.Nodup) {serialOf : ℕ → ℕ}
    (hinj : ∀ a ∈ blocks, ∀ b ∈ blocks, serialOf a = serialOf b → a = b) (batch : ℕ) {x : ℕ}
    (hx : x ∈ blocks) : history (blocks.map fun a => .detached (serialOf a) batch) (serialOf x) =
      [.detached (serialOf x) batch] := by
  have hfilter : blocks.filter (fun a => decide (serialOf a = serialOf x)) = [x] := by
    have hcongr : blocks.filter (fun a => decide (serialOf a = serialOf x)) =
        blocks.filter (fun a => decide (a = x)) := by
      refine List.filter_congr (fun a ha => decide_eq_decide.mpr ⟨hinj a ha x hx,?_⟩)
      exact congrArg serialOf
    rw [hcongr, List.filter_eq, List.count_eq_one_of_mem hnodup hx, List.replicate_one]
  rw [history, List.filter_map]
  change List.map _ (blocks.filter fun a => decide (serialOf a = serialOf x)) = _
  rw [hfilter]
  rfl

theorem detaches (h : Lifecycle w) (ho : Ownership w)
    (hcontrol : ∀ other, other ≠ thread → w'.control other = w.control other)
    (hs : SameChunks w.state w'.state) {blocks : List ℕ}
    (hr : (Protocol.registered w.state).Perm (blocks ++ Protocol.registered w'.state))
    (hc : custody (w'.control thread) =
      (blocks.map fun header => (header,Phase.detached)) ++ custody (w.control thread))
    (hl : w'.log = w.log ++
      blocks.map fun header => .detached (w.state.serial header) w.log.length) :
    Lifecycle w' := by
  obtain ⟨hregNodup,-,hdisjoint⟩ := List.nodup_append.mp (ho.nodup thread)
  obtain ⟨hblocks,-,hsplit⟩ := List.nodup_append.mp (hr.nodup_iff.mp hregNodup)
  have hreg : ∀ x ∈ blocks, x ∈ Protocol.registered w.state :=
    fun x hx => hr.mem_iff.mpr (List.mem_append_left _ hx)
  have hevents : ∀ e ∈ blocks.map (fun header =>
      Event.detached (w.state.serial header) w.log.length), ∃ x ∈ blocks,
        e.serial = w.state.serial x := by
    intro e he
    obtain ⟨x,hx,rfl⟩ := List.mem_map.mp he
    exact ⟨x,hx,rfl⟩
  have hchunks : ∀ x ∈ blocks, ∃ chunk, w.state.chunks.find? x = some chunk :=
    fun x hx => (ho.mem_chunks x).mpr (Or.inl (hreg x hx))
  have hinj : ∀ a ∈ blocks, ∀ b ∈ blocks, w.state.serial a = w.state.serial b → a = b := by
    intro a ha b hb heq
    obtain ⟨chunk,hca⟩ := hchunks a ha
    obtain ⟨chunk',hcb⟩ := hchunks b hb
    rw [State.serial_eq hca, State.serial_eq hcb] at heq
    exact h.serial_inj _ _ _ _ hca hcb heq
  refine h.of_sameChunks ho hcontrol hs blocks hl hevents
    (fun x hx => List.mem_append_left _ (hreg x hx)) ?_ ?_
  · intro x hx chunk hchunk
    rw [h.untouched hevents hchunks (fun hm => hsplit x hm x hx rfl) hchunk]
    exact h.registered x (hr.mem_iff.mpr (List.mem_append_right _ hx)) chunk hchunk
  · intro entry hentry chunk hchunk
    rw [hc, List.mem_append] at hentry
    rcases hentry with hentry | hentry
    · obtain ⟨x,hx,rfl⟩ := List.mem_map.mp hentry
      rw [history_append, h.registered x (hreg x hx) chunk hchunk, ← State.serial_eq hchunk,
        history_detached hblocks hinj w.log.length hx]
      exact .detached _
    · rw [h.untouched hevents hchunks (fun hm => ?_) hchunk]
      · exact h.held thread entry hentry chunk hchunk
      · exact hdisjoint _ (hreg _ hm) _ (List.mem_map_of_mem hentry) rfl

theorem withdraws (h : Lifecycle w) (ho : Ownership w)
    (hcontrol : ∀ other, other ≠ thread → w'.control other = w.control other)
    (hs : SameChunks w.state w'.state) {header : ℕ}
    (hr : (Protocol.registered w.state).Perm (header :: Protocol.registered w'.state))
    (hc : custody (w'.control thread) = (header,.released) :: custody (w.control thread))
    (hl : w'.log = w.log ++ [.released (w.state.serial header)]) : Lifecycle w' := by
  obtain ⟨hregNodup,-,hdisjoint⟩ := List.nodup_append.mp (ho.nodup thread)
  have hnew := (List.nodup_cons.mp (hr.nodup_iff.mp hregNodup)).1
  have hreg : header ∈ Protocol.registered w.state := hr.mem_iff.mpr List.mem_cons_self
  have hevents : ∀ e ∈ [Event.released (w.state.serial header)], ∃ x ∈ [header],
      e.serial = w.state.serial x := by simp [Event.serial]
  have hchunks : ∀ x ∈ [header], ∃ chunk, w.state.chunks.find? x = some chunk := by
    intro x hx
    rw [List.mem_singleton.mp hx]
    exact (ho.mem_chunks header).mpr (Or.inl hreg)
  refine h.of_sameChunks ho hcontrol hs [header] hl hevents (by simpa using Or.inl hreg) ?_ ?_
  · intro x hx chunk hchunk
    rw [h.untouched hevents hchunks (fun hm => ?_) hchunk]
    · exact h.registered x (hr.mem_iff.mpr (List.mem_cons_of_mem _ hx)) chunk hchunk
    · exact hnew (List.mem_singleton.mp hm ▸ hx)
  · intro entry hentry chunk hchunk
    rw [hc] at hentry
    rcases List.mem_cons.mp hentry with rfl | hentry
    · rw [history_append, h.registered header hreg chunk hchunk, State.serial_eq hchunk]
      simp only [history, Event.serial, decide_true, List.filter_cons_of_pos, List.filter_nil]
      exact .released
    · rw [h.untouched hevents hchunks (fun hm => ?_) hchunk]
      · exact h.held thread entry hentry chunk hchunk
      · exact hdisjoint _ (List.mem_singleton.mp hm ▸ hreg) _ (List.mem_map_of_mem hentry) rfl

theorem finalizes (h : Lifecycle w) (ho : Ownership w)
    (hcontrol : ∀ other, other ≠ thread → w'.control other = w.control other)
    (hs : SameChunks w.state w'.state) {header : ℕ} {left right : List (ℕ × Phase)}
    (hr : Protocol.registered w'.state = Protocol.registered w.state)
    (hc : custody (w.control thread) = left ++ (header,.detached) :: right)
    (hc' : custody (w'.control thread) = left ++ (header,.finalized) :: right)
    (hl : w'.log = w.log ++ if (w.state.header header).destructor = none then []
      else [.finalized (w.state.serial header)]) : Lifecycle w' := by
  have hmem : (header,Phase.detached) ∈ custody (w.control thread) := by
    rw [hc]
    simp
  have hheld : header ∈ Protocol.held (w.control thread) := List.mem_map_of_mem hmem
  obtain ⟨-,hheldNodup,hdisjoint⟩ := List.nodup_append.mp (ho.nodup thread)
  have hother : ∀ entry ∈ left ++ right, entry.1 ≠ header := by
    rw [Protocol.held, hc, List.map_append, List.map_cons] at hheldNodup
    have hnew := (List.nodup_middle.mp hheldNodup)
    intro entry hentry heq
    rw [← List.map_append] at hnew
    exact (List.nodup_cons.mp hnew).1 (List.mem_map.mpr ⟨entry,hentry,heq⟩)
  have hevents : ∀ e ∈ (if (w.state.header header).destructor = none then []
      else [Event.finalized (w.state.serial header)]), ∃ x ∈ [header],
        e.serial = w.state.serial x := by
    intro e he
    split_ifs at he
    · cases he
    · rw [List.mem_singleton.mp he]
      exact ⟨header,List.mem_singleton_self _,rfl⟩
  have hchunks : ∀ x ∈ [header], ∃ chunk, w.state.chunks.find? x = some chunk := by
    intro x hx
    rw [List.mem_singleton.mp hx]
    exact ho.held_chunk thread hheld
  refine h.of_sameChunks ho hcontrol hs [header] hl hevents (by simpa using Or.inr hheld) ?_ ?_
  · intro x hx chunk hchunk
    rw [hr] at hx
    rw [h.untouched hevents hchunks (fun hm => ?_) hchunk]
    · exact h.registered x hx chunk hchunk
    · exact hdisjoint x hx header hheld (List.mem_singleton.mp hm)
  · intro entry hentry chunk hchunk
    have hsplit : entry = (header,.finalized) ∨ entry ∈ left ++ right := by
      rw [hc'] at hentry
      simpa [or_assoc, or_comm, or_left_comm] using hentry
    rcases hsplit with rfl | hentry
    · have hpast := h.held thread _ hmem chunk hchunk
      rw [history_append, State.header_eq hchunk, State.serial_eq hchunk]
      generalize history w.log chunk.serial = events at hpast
      cases hpast with
      | detached batch =>
        have hcall : history (if chunk.header.destructor = none then []
            else [.finalized chunk.serial]) chunk.serial =
              destructorCall chunk.serial chunk.header.destructor := by
          unfold destructorCall
          split_ifs
          · rfl
          · simp [history, Event.serial]
        rw [hcall]
        exact .finalized batch
    · rw [h.untouched hevents hchunks (fun hm => ?_) hchunk]
      · refine h.held thread entry ?_ chunk hchunk
        rw [hc]
        rcases List.mem_append.mp hentry with hm | hm
        · exact List.mem_append_left _ hm
        · exact List.mem_append_right _ (List.mem_cons_of_mem _ hm)
      · exact hother entry hentry (List.mem_singleton.mp hm)

theorem frees (h : Lifecycle w) (ho : Ownership w)
    (hcontrol : ∀ other, other ≠ thread → w'.control other = w.control other)
    {header : ℕ} {phase : Phase} (hphase : phase ≠ .detached)
    (hchunks : w'.state.chunks = w.state.chunks.erase header)
    (hserial : w'.state.nextSerial = w.state.nextSerial)
    (hr : Protocol.registered w'.state = Protocol.registered w.state)
    (hc : custody (w.control thread) = (header,phase) :: custody (w'.control thread))
    (hl : w'.log = w.log ++ [.freed (w.state.serial header)]) : Lifecycle w' := by
  have hmem : (header,phase) ∈ custody (w.control thread) := by
    rw [hc]
    exact List.mem_cons_self
  have hheld : header ∈ Protocol.held (w.control thread) := List.mem_map_of_mem hmem
  obtain ⟨chunk,hchunk⟩ := ho.held_chunk thread hheld
  have hown := State.serial_eq hchunk
  have hfind : ∀ x chunk', w'.state.chunks.find? x = some chunk' →
      x ≠ header ∧ w.state.chunks.find? x = some chunk' := by
    intro x chunk' hx
    rw [hchunks, OrderedMap.find?_erase] at hx
    split_ifs at hx with he
    exact ⟨he,hx⟩
  have hevents : ∀ e ∈ [Event.freed (w.state.serial header)], ∃ x ∈ [header],
      e.serial = w.state.serial x := by simp [Event.serial]
  have htouched : ∀ x ∈ [header], ∃ chunk, w.state.chunks.find? x = some chunk := by
    intro x hx
    rw [List.mem_singleton.mp hx]
    exact ⟨chunk,hchunk⟩
  have hkeep : ∀ x chunk', w'.state.chunks.find? x = some chunk' →
      history w'.log chunk'.serial = history w.log chunk'.serial := by
    intro x chunk' hx
    obtain ⟨hne,hx⟩ := hfind x chunk' hx
    rw [hl]
    exact h.untouched hevents htouched (by simpa using hne) hx
  constructor
  · intro e he
    rw [hl, List.mem_append] at he
    rw [hserial]
    rcases he with he | he
    · exact h.recorded e he
    · rw [List.mem_singleton.mp he]
      exact hown ▸ h.serial_lt _ _ hchunk
  · intro x chunk' hx
    rw [hserial]
    exact h.serial_lt _ _ (hfind x chunk' hx).2
  · exact fun a c a' c' ha ha' => h.serial_inj _ _ _ _ (hfind a c ha).2 (hfind a' c' ha').2
  · intro x hx chunk' hchunk'
    rw [hkeep x chunk' hchunk']
    exact h.registered x (hr ▸ hx) chunk' (hfind x chunk' hchunk').2
  · intro other entry hentry chunk' hchunk'
    rw [hkeep _ chunk' hchunk']
    refine h.held other entry ?_ chunk' (hfind _ chunk' hchunk').2
    by_cases hne : other = thread
    · subst hne
      rw [hc]
      exact List.mem_cons_of_mem _ hentry
    · exact hcontrol other hne ▸ hentry
  · intro serial hlt hgone
    rw [hserial] at hlt
    by_cases he : serial = chunk.serial
    · subst he
      refine ⟨chunk.header.destructor,phase,_,hphase,h.held thread _ hmem chunk hchunk,?_⟩
      rw [hl, history_append, hown]
      simp [history, Event.serial]
    · have hforeign : ∀ e ∈ [Event.freed (w.state.serial header)], e.serial ≠ serial := by
        intro e he'
        rw [List.mem_singleton.mp he', hown]
        exact fun heq => he heq.symm
      rw [hl, history_append, history_eq_nil hforeign, List.append_nil]
      refine h.gone serial hlt (fun x chunk' hx heq => ?_)
      have hne : x ≠ header := by
        rintro rfl
        rw [hchunk] at hx
        cases hx
        exact he heq.symm
      refine hgone x chunk' ?_ heq
      rw [hchunks, OrderedMap.find?_erase, if_neg hne]
      exact hx

theorem places (h : Lifecycle w) (hheap : HeapInvariant w.state)
    (hcontrol : ∀ other, other ≠ thread → w'.control other = w.control other)
    {region : ℕ} {request : AllocationRequest} (hv : request.Valid)
    (hf : w.state.FreshRegion region request.totalSize request.alignment)
    (hs : w'.state = w.state.placeHeader region request)
    (hc : custody (w'.control thread) = (region,.placed) :: custody (w.control thread))
    (hl : w'.log = w.log ++ [.placed w.state.nextSerial request.destructor])
    (ho : Ownership w) : Lifecycle w' := by
  have hpos : 0 < request.totalSize := Nat.add_pos_right _ hv.size_pos
  have hnone := HeapInvariant.fresh_new hf hheap hpos
  have hnext : w'.state.nextSerial = w.state.nextSerial+1 := by
    rw [hs]
    rfl
  have hempty : history w.log w.state.nextSerial = [] :=
    history_eq_nil (fun e he => (h.recorded e he).ne)
  have hold : ∀ serial, serial ≠ w.state.nextSerial →
      history w'.log serial = history w.log serial := by
    intro serial hne
    have hforeign : ∀ e ∈ [Event.placed w.state.nextSerial request.destructor],
        e.serial ≠ serial := by
      intro e he
      rw [List.mem_singleton.mp he]
      exact hne.symm
    rw [hl, history_append, history_eq_nil hforeign, List.append_nil]
  have hfind : ∀ x chunk, w'.state.chunks.find? x = some chunk →
      (x = region ∧ chunk.serial = w.state.nextSerial ∧
        chunk.header.destructor = request.destructor) ∨
      (x ≠ region ∧ w.state.chunks.find? x = some chunk) := by
    intro x chunk hx
    rw [hs, placeHeader_find? request hnone] at hx
    split_ifs at hx with he
    · cases hx
      exact Or.inl ⟨he,rfl,rfl⟩
    · exact Or.inr ⟨he,hx⟩
  have hkeep : ∀ x, x ≠ region → ∀ chunk, w'.state.chunks.find? x = some chunk →
      w.state.chunks.find? x = some chunk ∧
        history w'.log chunk.serial = history w.log chunk.serial := by
    intro x hne chunk hx
    rcases hfind x chunk hx with ⟨he,-⟩ | ⟨-,hx⟩
    · exact absurd he hne
    · exact ⟨hx,hold _ (h.serial_lt _ _ hx).ne⟩
  constructor
  · intro e he
    rw [hl, List.mem_append] at he
    rw [hnext]
    rcases he with he | he
    · exact (h.recorded e he).trans (Nat.lt_succ_self _)
    · rw [List.mem_singleton.mp he]
      exact Nat.lt_succ_self _
  · intro x chunk hx
    rw [hnext]
    rcases hfind x chunk hx with ⟨-,hserial,-⟩ | ⟨-,hx⟩
    · rw [hserial]
      exact Nat.lt_succ_self _
    · exact (h.serial_lt _ _ hx).trans (Nat.lt_succ_self _)
  · intro a c a' c' ha ha' heq
    rcases hfind a c ha with ⟨rfl,hserial,-⟩ | ⟨-,hold⟩ <;>
      rcases hfind a' c' ha' with ⟨rfl,hserial',-⟩ | ⟨-,hold'⟩
    · rfl
    · exact absurd (heq.symm.trans hserial) (h.serial_lt _ _ hold').ne
    · exact absurd (heq.trans hserial') (h.serial_lt _ _ hold).ne
    · exact h.serial_inj _ _ _ _ hold hold' heq
  · intro x hx chunk hchunk
    have hreg : x ∈ Protocol.registered w.state := by
      rw [hs] at hx
      exact hx
    have hne : x ≠ region := by
      rintro rfl
      obtain ⟨chunk',hc'⟩ := (ho.mem_chunks x).mpr (Or.inl hreg)
      rw [hnone] at hc'
      cases hc'
    obtain ⟨hchunk,hkept⟩ := hkeep x hne chunk hchunk
    rw [hkept]
    exact h.registered x hreg chunk hchunk
  · intro other entry hentry chunk hchunk
    by_cases hne : entry.1 = region
    · rcases hfind _ chunk hchunk with ⟨-,hserial,hdestructor⟩ | ⟨hn,-⟩
      · have hthread : other = thread := by
          by_contra hot
          rw [hcontrol other hot] at hentry
          obtain ⟨chunk',hc'⟩ := ho.held_chunk other (List.mem_map_of_mem hentry)
          rw [hne, hnone] at hc'
          cases hc'
        subst hthread
        rw [hc] at hentry
        rcases List.mem_cons.mp hentry with rfl | hentry
        · rw [hl, history_append, hserial, hempty, hdestructor]
          simp only [history, Event.serial, decide_true, List.filter_cons_of_pos,
            List.filter_nil, List.nil_append]
          exact .placed
        · obtain ⟨chunk',hc'⟩ := ho.held_chunk other (List.mem_map_of_mem hentry)
          rw [hne, hnone] at hc'
          cases hc'
      · exact absurd hne hn
    · obtain ⟨hchunk,hkept⟩ := hkeep _ hne chunk hchunk
      rw [hkept]
      refine h.held other entry ?_ chunk hchunk
      by_cases hot : other = thread
      · subst hot
        rw [hc] at hentry
        rcases List.mem_cons.mp hentry with rfl | hentry
        · exact absurd rfl hne
        · exact hentry
      · exact hcontrol other hot ▸ hentry
  · intro serial hlt hgone
    rw [hnext] at hlt
    have hne : serial ≠ w.state.nextSerial := by
      rintro rfl
      have hplaced := placeHeader_find? request hnone region
      rw [if_pos rfl, ← hs] at hplaced
      exact hgone region _ hplaced rfl
    rw [hold serial hne]
    refine h.gone serial (by omega) (fun x chunk hx heq => ?_)
    refine hgone x chunk ?_ heq
    have hnr : x ≠ region := by
      rintro rfl
      rw [hnone] at hx
      cases hx
    rw [hs, placeHeader_find? request hnone, if_neg hnr]
    exact hx

theorem step (h : Lifecycle w) (hheap : HeapInvariant w.state) (ho : Ownership w)
    (hcontrol : ∀ other, other ≠ thread → w'.control other = w.control other)
    (hm : Move thread w w') : Lifecycle w' := by
  cases hm with
  | stays hs hr hc hl => exact h.stays ho hcontrol hs hr hc hl
  | places region request hv hf hs hc hl => exact h.places hheap hcontrol hv hf hs hc hl ho
  | registers header hs hr hc hl => exact h.registers ho hcontrol hs hr hc hl
  | detaches blocks hs hr hc hl => exact h.detaches ho hcontrol hs hr hc hl
  | withdraws header hs hr hc hl => exact h.withdraws ho hcontrol hs hr hc hl
  | finalizes header left right hs hr hc hc' hl => exact h.finalizes ho hcontrol hs hr hc hc' hl
  | frees header phase hphase hchunks hserial hr hc hl =>
    exact h.frees ho hcontrol hphase hchunks hserial hr hc hl

end Lifecycle

theorem ReachableWorld.move {w w' : World} {label : Label} (h : ReachableWorld w)
    (hstep : step label w = some w') : Move label.thread w w' :=
  (step_transition hstep).move h.invariant.protocol h.invariant.heap h.invariant.ownership

theorem ReachableWorld.control {w w' : World} {label : Label} (h : ReachableWorld w)
    (hstep : step label w = some w') :
    ∀ other, other ≠ label.thread → w'.control other = w.control other :=
  ((step_transition hstep).stepInvariant h.invariant.protocol h.invariant.heap).control

theorem ReachableWorld.lifecycle {w : World} (h : ReachableWorld w) : Lifecycle w :=
  h.induction .initial (fun _ _ _ hr hl hstep =>
    hl.step hr.invariant.heap hr.invariant.ownership (hr.control hstep) (hr.move hstep))

/-- A step keeps the chunks it does not free, and a new chunk has a new number. -/
theorem Move.chunk_of_serial {w w' : World} {thread : ThreadId} (hm : Move thread w w')
    (hheap : HeapInvariant w.state) {serial : ℕ} (hlt : serial < w.state.nextSerial) :
    serial < w'.state.nextSerial ∧ ∀ a chunk, w'.state.chunks.find? a = some chunk →
      chunk.serial = serial → w.state.chunks.find? a = some chunk := by
  have hsame : SameChunks w.state w'.state → serial < w'.state.nextSerial ∧
      ∀ a chunk, w'.state.chunks.find? a = some chunk → chunk.serial = serial →
        w.state.chunks.find? a = some chunk := by
    intro hs
    rw [hs.nextSerial, hs.chunks]
    exact ⟨hlt,fun a chunk hc _ => hc⟩
  cases hm with
  | stays hs hr hc hl => exact hsame hs
  | detaches blocks hs hr hc hl => exact hsame hs
  | finalizes header left right hs hr hc hc' hl hleft => exact hsame hs
  | registers header hs hr hc hl => exact hsame hs
  | withdraws header hs hr hc hl => exact hsame hs
  | places region request hv hf hs hc hl =>
    have hnone := HeapInvariant.fresh_new hf hheap (Nat.add_pos_right _ hv.size_pos)
    rw [hs]
    refine ⟨Nat.lt_succ_of_lt hlt,fun a chunk hc he => ?_⟩
    rw [placeHeader_find? request hnone] at hc
    split_ifs at hc
    · cases hc
      exact absurd he hlt.ne'
    · exact hc
  | frees header phase hphase hchunks hnext hr hc hl =>
    rw [hchunks, hnext]
    refine ⟨hlt,fun a chunk hc _ => ?_⟩
    rw [OrderedMap.find?_erase] at hc
    split_ifs at hc
    exact hc

/-- A block keeps its place and its header until it is freed. -/
theorem ReachableWorld.chunk_stable {w w' : World} (h : ReachableWorld w)
    (hsteps : Relation.ReflTransGen (Steps step) w w') {serial : ℕ}
    (hlt : serial < w.state.nextSerial) : ReachableWorld w' ∧ serial < w'.state.nextSerial ∧
      ∀ a chunk, w'.state.chunks.find? a = some chunk → chunk.serial = serial →
        w.state.chunks.find? a = some chunk := by
  induction hsteps with
  | refl => exact ⟨h,hlt,fun _ _ hc _ => hc⟩
  | tail _ hstep ih =>
    obtain ⟨label,hstep⟩ := hstep
    obtain ⟨hr,hlt',hold⟩ := ih
    obtain ⟨hlt'',hback⟩ := (hr.move hstep).chunk_of_serial hr.invariant.heap hlt'
    exact ⟨Reachable.step hr hstep,hlt'',fun a chunk hc he => hold a chunk (hback a chunk hc he) he⟩

end GcLib.Protocol
