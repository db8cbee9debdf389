import GcLib.Protocol.Batches
import GcLib.Protocol.Changes

/-! # Mark bytes along a run

Only the window of a collection sets mark bytes. One that completes leaves every block
unmarked, and one that throws leaves set what it had marked.
-/

namespace GcLib.Protocol
open GcLib.Heap GcLib.Support

section
variable {s s' : State} {thread : ThreadId}

theorem meets_windowBody_marks {env : ScanEnvironment} (hinv : HeapInvariant s)
    (hspace : RootsInSpace s env) (fuel : ℕ) (call : WindowCall) :
    (call.body thread fuel env).Meets s
      (fun _ s' => (call = .collect ∧ SameMarksOutside s s') ∨ s'.marks = s.marks)
      (fun _ s' => (call = .collect ∧ LeftMarked s thread env s') ∨
        (call ≠ .collect ∧ s' = s)) := by
  cases call with
  | collect =>
    refine Exec.meets_bind ((meets_collectWindow_marks hinv hspace fuel).mono ?_ ?_)
    · exact fun _ _ h => Exec.meets_pure (Or.inl ⟨rfl,h⟩)
    · exact fun _ _ h => Or.inl ⟨rfl,h⟩
  | shutdown =>
    refine Exec.meets_bind ((meets_shutdownWindow hinv fuel).mono ?_ ?_)
    · rintro blocks s' ⟨rfl,-⟩
      exact Exec.meets_pure (Or.inr rfl)
    · exact fun _ _ h => Or.inr ⟨nofun,h.1⟩
  | liveObjects =>
    refine Exec.meets_bind ((meets_liveObjectsLocked fuel).mono ?_
      (fun _ _ h => Or.inr ⟨nofun,h.2⟩))
    rintro objects s' rfl
    exact Exec.meets_pure (Or.inr rfl)
  | objectInfo pointer =>
    refine Exec.meets_bind ((meets_objectInfoLocked fuel pointer).mono ?_
      (fun _ _ h => Or.inr ⟨nofun,h.2⟩))
    rintro object s' rfl
    exact Exec.meets_pure (Or.inr rfl)

theorem Effect.marks {code : Section} {next : Next} (h : Effect thread s code next s') :
    s'.marks = s.marks := by
  cases h <;> rfl

theorem SameHeap.marks (h : SameHeap s s') : s'.marks = s.marks := (congrArg State.marks h.eq :)

end

/-- What a step of a thread does to the mark bytes. -/
inductive MarkChange (thread : ThreadId) (w w' : World) : Prop where
  | keeps (h : w'.state.marks = w.state.marks)
  | clears (header : ℕ) (h : w'.state.marks = Function.update w.state.marks header false)
  | sweeps {rest : List Frame} {blocks : List ℕ} (hc : w.control thread = .waiting .collect :: rest)
      (ho : SameMarksOutside w.state w'.state)
      (hu : ∀ b ∈ w.state.allocations.values, w'.state.marks b.header = false)
      (hc' : w'.control thread = .destroying blocks blocks :: rest)
  | fails {rest : List Frame} {env : ScanEnvironment} {e : GCError}
      (hc : w.control thread = .waiting .collect :: rest)
      (hl : LeftMarked w.state thread env w'.state)
      (hc' : w'.control thread = .releasing (.error e) :: rest)

section
variable {w w' : World} {thread : ThreadId}

theorem Transition.markChange (h : ProtocolInvariant w) (hheap : HeapInvariant w.state)
    (ht : Transition thread w w') : MarkChange thread w w' := by
  cases ht with
  | store | immediate | call | finalizerReturns | destroyed | skips | finalizes | freed
  | retries => exact .keeps rfl
  | runsSection hc hco hrun =>
    refine .keeps ?_
    rw [proceed_state]
    exact (effect_of_run hheap hco hrun).marks.trans hco.sameHeap.marks
  | callThrows hc hco hrun =>
    have hf := failed_of_run hheap hco hrun
    cases hf
    refine .keeps ?_
    rw [deliver_state]
    exact hco.sameHeap.marks
  | publishThrows hc hco hrun =>
    rename_i header constructing stage rest s s' fuel supply e
    have hmarks : s'.marks = w.state.marks := by
      have hf := failed_of_run hheap hco hrun
      rw [← hco.sameHeap.marks]
      cases hf <;> rfl
    refine .clears header ?_
    rw [deliver_state, ← hmarks]
    rfl
  | prologueThrows | outOfMemory => exact .keeps (congrArg State.marks (deliver_state _))
  | releases =>
    refine .keeps ?_
    rw [deliver_state]
    rfl
  | stalls hc hs => exact .keeps hs.sameHeap.marks
  | windowDestroys hc hp hm hrun =>
    have hspace := h.rootsInSpace hm
    rcases (meets_windowBody_marks hheap hspace _ _).returns hrun with ⟨rfl,ho⟩ | hk
    · cases (meets_windowBody hheap hspace _ _).returns hrun with
      | collect hcollected => exact .sweeps hc ho hcollected.unmarked (Function.update_self ..)
    · exact .keeps hk
  | windowReturns hc hp hm hrun =>
    cases (meets_windowBody hheap (h.rootsInSpace hm) _ _).returns hrun
    exact .keeps rfl
  | windowThrows hc hp hm hrun =>
    rcases (meets_windowBody_marks hheap (h.rootsInSpace hm) _ _).throws hrun with ⟨rfl,hl⟩ | ⟨-,hk⟩
    · exact .fails hc hl (Function.update_self ..)
    · exact .keeps (congrArg State.marks hk)
  | frees hc => exact .clears _ rfl
  | places hc hf => exact .clears _ rfl
  | freesBlock hc =>
    rename_i header rest
    refine .clears header ?_
    rw [deliver_state]
    rfl

/-- A mark byte that is set after a step was set before it, or a collection that failed left it. -/
theorem MarkChange.marked (h : MarkChange thread w w') {header : ℕ}
    (hm : w'.state.marks header = true) : w.state.marks header = true ∨
      (∃ rest e, w.control thread = .waiting .collect :: rest ∧
        w'.control thread = .releasing (.error e) :: rest) ∧ header ∈ registered w.state := by
  cases h with
  | keeps h =>
    rw [h] at hm
    exact Or.inl hm
  | clears cleared h =>
    rw [h, Function.update_apply] at hm
    split_ifs at hm
    exact Or.inl hm
  | sweeps hc ho hu hc' =>
    by_cases hr : header ∈ registered w.state
    · obtain ⟨b,hb,rfl⟩ := mem_registered.mp hr
      rw [hu b hb] at hm
      cases hm
    · rw [ho header hr] at hm
      exact Or.inl hm
  | fails hc hl hc' =>
    by_cases hr : header ∈ registered w.state
    · exact Or.inr ⟨⟨_,_,hc,hc'⟩,hr⟩
    · rw [hl.outside header hr] at hm
      exact Or.inl hm

end

/-- Marks are left only on registered blocks whose number is below a bound, and a block on its way
into the registry has none. -/
structure MarksBelow (w : World) (bound : ℕ) : Prop where
  registered : ∀ header ∈ registered w.state, w.state.marks header = true →
    w.state.serial header < bound
  placed : ∀ thread header, (header,Phase.placed) ∈ custody (w.control thread) →
    w.state.marks header = false

/-- Moves the bound: a collection that throws raises it, one that completes takes it back. -/
def leftoverStep (label : Label) (w w' : World) (bound : ℕ) : ℕ :=
  match w.control label.thread, w'.control label.thread with
  | .waiting .collect :: _, .releasing (.error _) :: _ => w'.state.nextSerial
  | .waiting .collect :: _, .destroying _ _ :: _ => 0
  | _, _ => bound

section
variable {w w' : World} {label : Label} {bound : ℕ}

/-- The blocks of the registry after a step were registered before it or are the one it registers. -/
theorem Move.registered_old {thread : ThreadId} (hm : Move thread w w') {header : ℕ}
    (hr : header ∈ registered w'.state) :
    header ∈ registered w.state ∨ (header,Phase.placed) ∈ custody (w.control thread) := by
  cases hm with
  | stays hs hr' => exact Or.inl (hr' ▸ hr)
  | places region request hv hf hs =>
    rw [hs] at hr
    exact Or.inl hr
  | registers added hs hr' hc =>
    rcases List.mem_cons.mp (hr'.mem_iff.mp hr) with rfl | hr
    · exact Or.inr (hc ▸ List.mem_cons_self)
    · exact Or.inl hr
  | detaches blocks hs hr' => exact Or.inl (hr'.mem_iff.mpr (List.mem_append_right _ hr))
  | withdraws removed hs hr' => exact Or.inl (hr'.mem_iff.mpr (List.mem_cons_of_mem _ hr))
  | finalizes called left right hs hr' => exact Or.inl (hr' ▸ hr)
  | frees freed phase hphase hchunks hserial hr' => exact Or.inl (hr' ▸ hr)

/-- A block on its way into the registry was so before the step, or its header was placed in it. -/
theorem Move.placed_old {thread : ThreadId} (hm : Move thread w w') {header : ℕ}
    (hp : (header,Phase.placed) ∈ custody (w'.control thread)) :
    (header,Phase.placed) ∈ custody (w.control thread) ∨
      ∃ request, w'.state = w.state.placeHeader header request := by
  cases hm with
  | stays hs hr hc => exact Or.inl (hc ▸ hp)
  | places region request hv hf hs hc =>
    rw [hc] at hp
    rcases List.mem_cons.mp hp with he | hp
    · cases he
      exact Or.inr ⟨request,hs⟩
    · exact Or.inl hp
  | registers added hs hr hc =>
    rw [hc]
    exact Or.inl (List.mem_cons_of_mem _ hp)
  | detaches blocks hs hr hc =>
    rw [hc] at hp
    exact Or.inl (by simpa using hp)
  | withdraws removed hs hr hc =>
    rw [hc] at hp
    exact Or.inl (by simpa using hp)
  | finalizes called left right hs hr hc hc' =>
    rw [hc'] at hp
    rw [hc]
    exact Or.inl (by simpa using hp)
  | frees freed phase hphase hchunks hserial hr hc =>
    rw [hc]
    exact Or.inl (List.mem_cons_of_mem _ hp)

theorem leftoverStep_cases (label : Label) (w w' : World) (bound : ℕ) :
    leftoverStep label w w' bound = w'.state.nextSerial ∨
      leftoverStep label w w' bound = bound ∧ (∀ rest e,
        w.control label.thread = .waiting .collect :: rest →
          w'.control label.thread ≠ .releasing (.error e) :: rest) ∨
      ∃ rest blocks pending above, w.control label.thread = .waiting .collect :: rest ∧
        w'.control label.thread = .destroying blocks pending :: above := by
  unfold leftoverStep
  split
  · exact Or.inl rfl
  · rename_i rest blocks pending above hc hc'
    exact Or.inr (Or.inr ⟨rest,blocks,pending,above,hc,hc'⟩)
  · rename_i hnot hnot'
    exact Or.inr (Or.inl ⟨rfl,fun rest e hc hc' => hnot _ _ _ hc hc'⟩)

/-- The bound on the leftover marks survives every step. -/
theorem MarksBelow.step (h : MarksBelow w bound) (hr : ReachableWorld w)
    (hstep : step label w = some w') : MarksBelow w' (leftoverStep label w w' bound) := by
  have hinv := hr.invariant
  have ho := hinv.ownership
  have hmove := hr.move hstep
  have hmarks := (step_transition hstep).markChange hinv.protocol hinv.heap
  have hr' : ReachableWorld w' := Reachable.step hr hstep
  have hclear : ∀ other header, (header,Phase.placed) ∈ custody (w.control other) →
      w'.state.marks header = false := by
    intro other header hp
    by_contra hm
    rcases hmarks.marked (by simpa using hm) with hm | ⟨-,hreg⟩
    · rw [h.placed other header hp] at hm
      cases hm
    · exact (List.nodup_append.mp (ho.nodup other)).2.2 _ hreg _ (List.mem_map_of_mem hp) rfl
  refine ⟨fun header hheader hm => ?_,fun other header hp => ?_⟩
  · have hold : header ∈ Protocol.registered w.state := by
      rcases hmove.registered_old hheader with hold | hp
      · exact hold
      · rw [hclear _ _ hp] at hm
        cases hm
    have hserial := hmove.serial_of_chunk hinv.heap ((ho.mem_chunks header).mpr (Or.inl hold))
      ((hr'.invariant.ownership.mem_chunks header).mpr (Or.inl hheader))
    rcases leftoverStep_cases label w w' bound with heq | ⟨heq,hnot⟩ |
        ⟨rest,blocks,pending,above,hc,hc'⟩
    · obtain ⟨chunk,hchunk⟩ := (hr'.invariant.ownership.mem_chunks header).mpr (Or.inl hheader)
      rw [heq, State.serial_eq hchunk]
      exact hr'.lifecycle.serial_lt header chunk hchunk
    · rw [heq, hserial]
      rcases hmarks.marked hm with hm | ⟨⟨rest,e,hc,hc'⟩,-⟩
      · exact h.registered header hold hm
      · exact absurd hc' (hnot rest e hc)
    · obtain ⟨b,hb,rfl⟩ := mem_registered.mp hold
      cases hr.heapChange hstep with
      | quiet ha hw hmb hrb hs hn hl => exact absurd hc' (hn _ _ _ _ _ hc)
      | «section» hc'' =>
        rw [hc] at hc''
        cases hc''
      | window hc'' he =>
        rw [hc] at hc''
        cases hc''
        generalize w'.state = s' at he hm
        cases he with
        | collect hcollected =>
          rw [hcollected.unmarked b hb] at hm
          cases hm
  · by_cases hother : other = label.thread
    · subst hother
      rcases hmove.placed_old hp with hp | ⟨request,hs⟩
      · exact hclear _ _ hp
      · rw [hs]
        exact Function.update_self ..
    · rw [hr.control hstep other hother] at hp
      exact hclear _ _ hp

end

/-- The bound after a run. -/
def leftover : List Label → World → ℕ → ℕ
  | [], _, bound => bound
  | label :: labels, w, bound =>
    match step label w with
    | none => bound
    | some w' => leftover labels w' (leftoverStep label w w' bound)

theorem MarksBelow.run : ∀ {labels : List Label} {w w' : World} {bound : ℕ}, MarksBelow w bound →
    ReachableWorld w → run Protocol.step labels w = some w' →
      MarksBelow w' (leftover labels w bound)
  | [], w, w', bound, h, _, hrun => by
    cases hrun
    exact h
  | label :: labels, w, w', bound, h, hr, hrun => by
    obtain ⟨w₁,hstep,hrest⟩ := Option.bind_eq_some_iff.mp hrun
    rw [leftover, hstep]
    exact MarksBelow.run (h.step hr hstep) (hr.step hstep) hrest

theorem MarksBelow.initial (memory : Memory) : MarksBelow (.initial memory) 0 := by
  constructor <;> simp [World.initial, State.initial, custody]

end GcLib.Protocol
