import GcLib.Heap.CollectTermination
import GcLib.Heap.ReferenceGraph
import GcLib.Protocol.Settling
import GcLib.Support.Halting

/-! # Threads that can go on

With enough fuel every critical section and every window comes to an end, unless a payload ends in
the last word of the address space, where the walk over it may loop for ever. So a thread inside an
operation can take a step, unless its predicate on the condition variable is false.
-/

namespace GcLib.Protocol
open GcLib.Heap GcLib.Support

/-- No registered payload ends in the last word of the address space. -/
def BelowTop (s : State) : Prop := ∀ b ∈ s.allocations.values, b.payloadEnd+wordSize < addressLimit

instance (s : State) : Decidable (BelowTop s) :=
  inferInstanceAs (Decidable (∀ b ∈ s.allocations.values, b.payloadEnd+wordSize < addressLimit))

section
variable {s : State} {thread : ThreadId} {fuel : ℕ}

theorem halts_returning {m : M Value} (h : m.Halts s) : (returning m).Halts s :=
  Exec.halts_bind h fun _ _ => Exec.halts_pure _

theorem halts_openWindow (call : WindowCall) : (openWindow thread call).Halts s :=
  Exec.halts_bind (Exec.halts_modify _) fun _ _ => Exec.halts_pure _

theorem halts_requireRegisteredThreadLocked : (requireRegisteredThreadLocked thread).Halts s := by
  apply Exec.halts_get
  exact Exec.halts_ite (Exec.halts_pure _) (Exec.halts_raise _)

theorem halts_modify_pure {α : Type} (g : State → State) (a : α) :
    (Exec.modify g >>= fun _ => pure a : M α).Halts s :=
  Exec.halts_bind (Exec.halts_modify _) fun _ _ => Exec.halts_pure _

theorem halts_publishAllocation (header : ℕ) (constructing : Bool) :
    (publishAllocation thread header constructing).Halts s := by
  apply Exec.halts_bind halts_requireRegisteredThreadLocked
  intro _ s'
  apply Exec.halts_get
  apply Exec.halts_ite (Exec.halts_raise _)
  apply Exec.halts_bind (Exec.halts_modify _)
  intro _ _
  apply Exec.halts_bind
  · apply Exec.halts_bind (Exec.halts_allocate _)
    exact fun _ _ => Exec.halts_modify _
  · exact fun _ _ => halts_modify_pure _ _

/-- The sections without loops. -/
theorem halts_call (call : Call) (hlive : call = .liveObjects → (liveObjectsLocked fuel).Halts s)
    (hobject : ∀ pointer, call = .objectInfo pointer → (objectInfoLocked fuel pointer).Halts s) :
    (Section.body thread fuel (.call call)).Halts s := by
  apply Exec.halts_get
  cases call with
  | registerStackBottom stackBottom =>
    apply halts_returning
    apply Exec.halts_get
    apply Exec.halts_ite
    · exact Exec.halts_bind (Exec.halts_allocate _) fun _ _ => halts_modify_pure _ _
    · exact halts_modify_pure _ _
  | liveObjects =>
    apply Exec.halts_ite
    · exact Exec.halts_bind (hlive rfl) fun _ _ => Exec.halts_pure _
    · exact halts_openWindow _
  | objectInfo pointer =>
    apply Exec.halts_ite
    · exact Exec.halts_bind (hobject pointer rfl) fun _ _ => Exec.halts_pure _
    · exact halts_openWindow _
  | mallocInternal payloadSize payloadAlignment destructor constructing =>
    apply Exec.halts_bind halts_requireRegisteredThreadLocked
    intro _ _
    cases allocationRequest payloadSize payloadAlignment destructor constructing with
    | none => exact Exec.halts_raise _
    | some request => exact Exec.halts_pure _
  | finishConstruction payload =>
    apply halts_returning
    apply Exec.halts_get
    cases s.allocations.find? payload with
    | none => exact Exec.halts_raise _
    | some block => exact halts_modify_pure _ _
  | releaseUnconstructed payload =>
    apply Exec.halts_bind
    · apply Exec.halts_bind halts_requireRegisteredThreadLocked
      intro _ s'
      apply Exec.halts_get
      cases s'.allocations.find? payload with
      | none => exact Exec.halts_pure _
      | some block => exact halts_modify_pure _ _
    · rintro (_ | header) _ <;> exact Exec.halts_pure _
  | collectIfNeeded incoming =>
    apply Exec.halts_bind
    · apply Exec.halts_bind halts_requireRegisteredThreadLocked
      exact fun _ _ => Exec.halts_pure _
    · exact fun _ _ => Exec.halts_ite (Exec.halts_pure _) (Exec.halts_pure _)
  | collect =>
    apply Exec.halts_ite (Exec.halts_pure _)
    apply Exec.halts_bind halts_requireRegisteredThreadLocked
    exact fun _ _ => halts_openWindow _
  | shutdown => exact Exec.halts_ite (Exec.halts_pure _) (halts_openWindow _)
  | registerWeakRef target storage =>
    apply halts_returning
    apply Exec.halts_get
    apply Exec.halts_ite (Exec.halts_pure _)
    apply Exec.halts_ite (halts_modify_pure _ _)
    exact Exec.halts_bind (Exec.halts_allocate _) fun _ _ => halts_modify_pure _ _
  | copyWeakRef oldStorage newStorage =>
    apply halts_returning
    apply Exec.halts_get
    cases findWeakRef s.weakRefs oldStorage with
    | none => exact halts_modify_pure _ _
    | some entry =>
      exact Exec.halts_bind (Exec.halts_allocate _) fun _ _ => halts_modify_pure _ _
  | updateWeakRef oldStorage newStorage =>
    apply halts_returning
    apply Exec.halts_get
    cases findWeakRef s.weakRefs oldStorage <;> exact halts_modify_pure _ _
  | _ => exact Exec.halts_pure _

theorem exists_halting_body (hinv : HeapInvariant s) (htop : BelowTop s) (code : Section) :
    ∃ fuel, (code.body thread fuel).Halts s := by
  obtain ⟨fuel,hfuel⟩ := exists_enoughFuel s.allocations.values
  have henough := hfuel fuel (le_refl fuel)
  refine ⟨fuel,?_⟩
  cases code with
  | publish header constructing => exact halts_returning (halts_publishAllocation header constructing)
  | call call =>
    apply halts_call
    · exact fun _ => (terminates_liveObjectsLocked hinv htop henough).halts
    · exact fun pointer _ => (terminates_objectInfoLocked hinv htop henough pointer).halts

theorem halts_shutdownWindow (hinv : HeapInvariant s) (htop : BelowTop s)
    (henough : EnoughFuel s.allocations.values fuel) : (shutdownWindow fuel).Halts s := by
  have hset := hinv.finalizationSet (List.Sublist.refl _)
  apply Exec.halts_get
  apply Exec.halts_ite (Exec.halts_raise _)
  apply Exec.halts_bind
  · apply Exec.Terminates.halts (Q := fun _ _ => True) (E := fun _ _ => True)
    apply Exec.terminates_bind (Exec.terminates_get _)
    apply Exec.terminates_bind (Vec.terminates_reserve _ trivial)
    apply Exec.terminates_bind ((terminates_orderBlocksForFinalizationLocked hset htop
      henough).mono _ fun _ _ _ => trivial)
    exact fun _ _ _ => Exec.terminates_bind (Exec.terminates_modify (Exec.terminates_pure trivial))
  · exact fun _ _ => halts_modify_pure _ _

theorem exists_halting_window (thread : ThreadId) {env : ScanEnvironment} (hinv : HeapInvariant s)
    (htop : BelowTop s)
    (hspace : RootsInSpace s env) (call : WindowCall) :
    ∃ fuel, (call.body thread fuel env).Halts s := by
  obtain ⟨fuel,hfuel⟩ := exists_collectFuel s
  have hcollect := hfuel fuel (le_refl fuel)
  have henough : EnoughFuel s.allocations.values fuel := by
    apply hcollect.enough _ (List.Sublist.refl _)
    intro b hb
    exact lt_of_le_of_lt (Nat.le_add_right _ _) (htop b hb)
  refine ⟨fuel,?_⟩
  cases call with
  | collect =>
    exact Exec.halts_bind (terminates_collectWindow hinv hspace htop hcollect).halts
      fun _ _ => Exec.halts_pure _
  | shutdown =>
    exact Exec.halts_bind (halts_shutdownWindow hinv htop henough) fun _ _ => Exec.halts_pure _
  | liveObjects =>
    exact Exec.halts_bind (terminates_liveObjectsLocked hinv htop henough).halts
      fun _ _ => Exec.halts_pure _
  | objectInfo pointer =>
    exact Exec.halts_bind (terminates_objectInfoLocked hinv htop henough pointer).halts
      fun _ _ => Exec.halts_pure _

end

/-- The predicate with which the thread waits on the condition variable is false. -/
def World.waitsForOthers (w : World) (thread : ThreadId) : Bool :=
  match w.control thread with
  | .entering _ .blocked :: _ => !w.state.mayProceed thread
  | .entering _ .parked :: _ => w.state.stopTheWorldRequested
  | .waiting _ :: _ => !w.state.othersPaused thread
  | _ => false

/-- The predicates and the mutex let the thread take a step inside its operation. -/
def World.CanGoOn (w : World) (thread : ThreadId) : Prop :=
  ∃ label w', label.inside = true ∧ label.thread = thread ∧ step label w = some w'

/-- The thread has entered a loop of a section or a window that no fuel brings to an end. -/
inductive World.Loops (w : World) (thread : ThreadId) : Prop where
  | inSection {code : Section} {stage : Stage} {rest : List Frame} {s : State} {supply : Supply}
      (hc : w.control thread = .entering code stage :: rest)
      (hco : Cooperated thread w.state code stage s)
      (hloop : ∀ fuel, code.body thread fuel s supply = .diverges) : Loops w thread
  | inWindow {call : WindowCall} {rest : List Frame} {env : ScanEnvironment} {supply : Supply}
      (hc : w.control thread = .waiting call :: rest)
      (hp : w.state.othersPaused thread = true) (hm : env.localMarker < addressLimit)
      (hloop : ∀ fuel, call.body thread fuel env w.state supply = .diverges) : Loops w thread

section
variable {w : World} {thread : ThreadId} {code : Section} {stage : Stage} {rest : List Frame}

theorem waitsForOthers_cases (h : w.waitsForOthers thread = true) :
    (∃ code rest, w.control thread = .entering code .blocked :: rest ∧
      w.state.mayProceed thread = false) ∨
    (∃ code rest, w.control thread = .entering code .parked :: rest ∧
      w.state.stopTheWorldRequested = true) ∨
    ∃ call rest, w.control thread = .waiting call :: rest ∧
      w.state.othersPaused thread = false := by
  unfold World.waitsForOthers at h
  split at h
  · rename_i code rest hc
    exact .inl ⟨code,rest,hc,by simpa using h⟩
  · rename_i code rest hc
    exact .inr (.inl ⟨code,rest,hc,h⟩)
  · rename_i call rest hc
    exact .inr (.inr ⟨call,rest,hc,by simpa using h⟩)
  · cases h

theorem valid_of_fuel (fuel : ℕ) : Choice.valid { fuel := fuel } = true := by
  simp [Choice.valid, addressLimit]

theorem canGoOn_of_frame {frame : Frame} (choice : Choice) (hc : w.control thread = frame :: rest)
    (hv : choice.valid = true) (h : (runFrame w thread choice rest frame).isSome = true) :
    w.CanGoOn thread := by
  obtain ⟨w',hw'⟩ := Option.isSome_iff_exists.mp h
  refine ⟨.run thread choice,w',rfl,rfl,?_⟩
  simp only [step, hc, hv, if_true]
  exact hw'

theorem runSection_isSome {choice : Choice} {s : State} {supply : Supply}
    (h : (code.body thread choice.fuel).Halts s) :
    (runSection w thread choice code rest s supply).isSome = true := by
  unfold runSection
  cases hrun : code.body thread choice.fuel s supply with
  | diverges => exact absurd hrun (h supply)
  | returns => rfl
  | throws => cases code <;> rfl

theorem exists_halting_cooperated {s : State} (hheap : HeapInvariant w.state)
    (htop : BelowTop w.state) (hco : Cooperated thread w.state code stage s) :
    ∃ fuel, (code.body thread fuel).Halts s := by
  have hsame := hco.sameHeap
  apply exists_halting_body (hsame.heapInvariant hheap)
  intro b hb
  rw [hsame.allocations] at hb
  exact htop b hb

theorem canGoOn_section (hheap : HeapInvariant w.state) (htop : BelowTop w.state)
    (hc : w.control thread = .entering code stage :: rest) (hstage : stage ≠ .enter) {s : State}
    (hco : Cooperated thread w.state code stage s) : w.CanGoOn thread := by
  obtain ⟨fuel,hhalts⟩ := exists_halting_cooperated hheap htop hco
  apply canGoOn_of_frame { fuel := fuel } hc (valid_of_fuel fuel)
  change (runEntering w thread { fuel := fuel } code stage rest).isSome = true
  unfold runEntering
  cases hco with
  | enter => exact absurd rfl hstage
  | blocked hm | spilling hm =>
    simp only [hm, if_true]
    exact runSection_isSome hhalts
  | parked hs =>
    simp only [hs, Bool.false_eq_true, if_false]
    exact runSection_isSome hhalts

theorem canGoOn_enter (hheap : HeapInvariant w.state) (htop : BelowTop w.state)
    (hc : w.control thread = .entering code .enter :: rest) : w.CanGoOn thread := by
  rcases prologue_run code w.state none with ⟨begin_,end_,e,hcode,hrun⟩ | ⟨s,supply,hrun,hp⟩
  · apply canGoOn_of_frame {} hc (valid_of_fuel 0)
    simp only [runFrame, runEntering, hrun, Option.isSome_some]
  · by_cases hm : s.mayProceed thread = true
    · obtain ⟨fuel,hhalts⟩ := exists_halting_cooperated hheap htop (.enter hp hm)
      apply canGoOn_of_frame { fuel := fuel } hc (valid_of_fuel fuel)
      simp only [runFrame, runEntering, hrun, hm, if_true]
      exact runSection_isSome hhalts
    · apply canGoOn_of_frame {} hc (valid_of_fuel 0)
      simp only [runFrame, runEntering, hrun, hm, Bool.false_eq_true, if_false]
      split_ifs <;> rfl

theorem canGoOn_entering (hheap : HeapInvariant w.state) (htop : BelowTop w.state)
    (hc : w.control thread = .entering code stage :: rest) :
    w.CanGoOn thread ∨ w.waitsForOthers thread = true := by
  cases stage with
  | enter => exact .inl (canGoOn_enter hheap htop hc)
  | blocked =>
    by_cases hm : w.state.mayProceed thread = true
    · exact .inl (canGoOn_section hheap htop hc (by decide) (.blocked hm))
    · apply Or.inr
      simpa [World.waitsForOthers, hc] using hm
  | spilling =>
    apply Or.inl
    by_cases hm : w.state.mayProceed thread = true
    · exact canGoOn_section hheap htop hc (by decide) (.spilling hm)
    · apply canGoOn_of_frame {} hc (valid_of_fuel 0)
      simp only [runFrame, runEntering, hm, Bool.false_eq_true, if_false]
      split_ifs <;> rfl
  | parked =>
    by_cases hs : w.state.stopTheWorldRequested = true
    · apply Or.inr
      simpa [World.waitsForOthers, hc] using hs
    · exact .inl (canGoOn_section hheap htop hc (by decide) (.parked (by simpa using hs)))

theorem canGoOn_waiting {call : WindowCall} (h : ReachableWorld w) (htop : BelowTop w.state)
    (hc : w.control thread = .waiting call :: rest) :
    w.CanGoOn thread ∨ w.waitsForOthers thread = true := by
  by_cases hp : w.state.othersPaused thread = true
  · have hspace : RootsInSpace w.state {} := h.invariant.protocol.rootsInSpace (by decide)
    obtain ⟨fuel,hhalts⟩ := exists_halting_window thread h.invariant.heap htop hspace call
    apply Or.inl
    apply canGoOn_of_frame { fuel := fuel } hc (valid_of_fuel fuel)
    simp only [runFrame, runWindow, hp, if_true]
    cases hrun : call.body thread fuel {} w.state none with
    | diverges => exact absurd hrun (hhalts none)
    | returns afterwards => cases afterwards <;> rfl
    | throws => rfl
  · apply Or.inr
    simpa [World.waitsForOthers, hc] using hp

/-- No thread loops for ever while every payload ends below the last word. -/
theorem not_loops (h : ReachableWorld w) (htop : BelowTop w.state) : ¬ w.Loops thread := by
  intro hloops
  cases hloops with
  | inSection hc hco hloop =>
    obtain ⟨fuel,hhalts⟩ := exists_halting_cooperated h.invariant.heap htop hco
    exact hhalts _ (hloop fuel)
  | inWindow hc hp hm hloop =>
    have hspace := h.invariant.protocol.rootsInSpace hm
    obtain ⟨fuel,hhalts⟩ := exists_halting_window thread h.invariant.heap htop hspace _
    exact hhalts _ (hloop fuel)

/-- A thread inside an operation can take a step, unless it waits for others. -/
theorem canGoOn_or_waits (h : ReachableWorld w) (htop : BelowTop w.state)
    (hne : w.control thread ≠ []) : w.CanGoOn thread ∨ w.waitsForOthers thread = true := by
  have hupright := h.upright thread
  cases hc : w.control thread with
  | nil => exact absurd hc hne
  | cons frame rest =>
    rw [hc] at hupright
    have hgo : (runFrame w thread {} rest frame).isSome = true →
        w.CanGoOn thread ∨ w.waitsForOthers thread = true :=
      fun hsome => .inl (canGoOn_of_frame {} hc (valid_of_fuel 0) hsome)
    cases frame with
    | entering => exact canGoOn_entering h.invariant.heap htop hc
    | waiting => exact canGoOn_waiting h htop hc
    | destroying blocks pending =>
      apply hgo
      cases pending with
      | nil => rfl
      | cons =>
        simp only [runFrame]
        split_ifs <;> rfl
    | finalizer blocks pending =>
      apply Or.inl
      refine ⟨.user thread .finalizerReturns,w.setControl thread (.destroying blocks pending :: rest),
        rfl,rfl,?_⟩
      simp [step, runAction, hc, inUserCode]
    | freeing pending => cases pending <;> exact hgo rfl
    | releasing | freeingBlock => exact hgo rfl
    | allocating request retried => cases retried <;> exact hgo rfl
    | collecting => cases hupright.top

end
end GcLib.Protocol
