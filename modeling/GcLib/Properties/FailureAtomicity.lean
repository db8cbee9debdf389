import GcLib.Properties.ConstructionPinning
import GcLib.Protocol.FailedCalls

/-! # Failed collections and shutdowns

A collection or a shutdown that throws leaves the heap, the registrations and the
statistics as they were, runs no destructor, frees nothing and closes its window. The
mark bytes it may leave set have no influence on anything that follows.
-/

namespace GcLib.Properties
open GcLib.Heap GcLib.Support GcLib.Protocol Relation

/-- What a step of a thread whose window is open does: the window completes, or the call fails. It
fails if it runs out of memory at any of its allocations, and a shutdown fails if some block is
under construction. Then only mark bytes differ, and the next step of the thread closes the window
and throws. -/
def FailsInWindow (call : WindowCall) (w : World) (label : Label) (rest : List Frame)
    (w' : World) : Prop :=
  ∃ s e, w' = (w.setState s).setControl label.thread (.releasing (.error e) :: rest) ∧
    s.EqButMarks w.state ∧
    (e = .badAlloc ∨ call = .shutdown ∧ e = .logicError shutdownDuringConstructionMessage ∧
      ∃ b ∈ w.state.allocations.values, b.constructing = true) ∧
    ∀ choice u, step (.run label.thread choice) w' = some u →
      u = (w'.setState w'.state.releaseStopTheWorld).deliver label.thread rest (.error e)

/-- Which errors a window throws. -/
theorem meets_windowBody_error {s : State} {thread : ThreadId} {env : ScanEnvironment}
    {call : WindowCall} (hinv : HeapInvariant s) (hspace : RootsInSpace s env) (fuel : ℕ)
    (hd : call.detaches = true) : (call.body thread fuel env).Meets s (fun _ _ => True)
      (fun e _ => e = .badAlloc ∨
        call = .shutdown ∧ e = .logicError shutdownDuringConstructionMessage ∧
          ∃ b ∈ s.allocations.values, b.constructing = true) := by
  cases call with
  | collect =>
    refine Exec.meets_bind ((meets_collectWindow hinv hspace fuel).mono ?_ ?_)
    · exact fun _ _ _ => Exec.meets_pure trivial
    · exact fun _ _ h => Or.inl h.1
  | shutdown =>
    refine Exec.meets_bind ((meets_shutdownWindow hinv fuel).mono ?_ ?_)
    · exact fun _ _ _ => Exec.meets_pure trivial
    · exact fun _ _ h => h.2.imp id fun h => ⟨rfl,h⟩
  | liveObjects => cases hd
  | objectInfo pointer => cases hd

theorem fails_in_window {w w' : World} {call : WindowCall} {label : Label} {rest : List Frame}
    (h : ReachableWorld w) (hd : call.detaches = true)
    (hc : w.control label.thread = .waiting call :: rest) (hstep : step label w = some w') :
    FailsInWindow call w label rest w' ∨
      (∃ blocks, w'.control label.thread = .destroying blocks blocks :: rest) ∧
        (call = .shutdown → ∀ b ∈ w.state.allocations.values, b.constructing = false) := by
  have hh := h.invariant
  cases step_transition hstep with
  | windowDestroys hc' hp hm hrun =>
    rw [hc] at hc'
    cases hc'
    refine Or.inr ⟨⟨_,Function.update_self ..⟩,?_⟩
    rintro rfl b hb
    by_contra hn
    rw [shutdownWindow_refused hb (by simpa using hn) label.thread] at hrun
    cases hrun
  | windowReturns hc' hp hm hrun =>
    rw [hc] at hc'
    cases hc'
    obtain ⟨blocks,h⟩ := WindowCall.body_returns_destroy hd hrun
    cases h
  | windowThrows hc' hp hm hrun =>
    rename_i call' rest' fuel env supply e s
    rw [hc] at hc'
    cases hc'
    have hspace := hh.protocol.rootsInSpace hm
    refine Or.inl ⟨s,e,rfl,(meets_windowBody hh.heap hspace _ _).throws hrun,?_,?_⟩
    · exact (meets_windowBody_error hh.heap hspace fuel hd).throws hrun
    · intro choice u hstep'
      simp only [step, World.setControl, Function.update_self] at hstep'
      split_ifs at hstep'
      exact (Option.some.inj hstep').symm
  | _ => simp_all [inUserCode]

/-- In every reachable world, for both operations. An open window completes or the call fails in
it. A call that throws, while other threads at most wait or go on, has kept everything but mark
bytes, has run no destructor and freed nothing, and has closed the window. Worlds that differ in
mark bytes only go the same way for ever, and so the world after a failed call, if no other thread
ran meanwhile, goes the way it would have gone without the call. -/
theorem failed_call_atomic {w : World} (h : ReachableWorld w) {call : WindowCall}
    (hd : call.detaches = true) :
    (∀ label rest w', w.control label.thread = .waiting call :: rest → step label w = some w' →
      FailsInWindow call w label rest w' ∨
        (∃ blocks, w'.control label.thread = .destroying blocks blocks :: rest) ∧
          (call = .shutdown → ∀ b ∈ w.state.allocations.values, b.constructing = false)) ∧
    ∀ thread rest w' e, w.control thread = .entering (.call call.call) .enter :: rest →
      ReflTransGen (StepInside (Undisturbed thread) thread rest) w w' →
      w'.control thread = resumed rest false → w'.result thread = some (.error e) →
        Kept w.state w'.state ∧ w'.log = w.log ∧ WindowClosed w'.state ∧
        (∀ v, v.state.EqButMarks w'.state → v.control = w'.control → v.log = w'.log →
          ∀ labels, Option.Rel (Twins v.result w'.result) (run step labels v)
            (run step labels w')) ∧
        (ReflTransGen (StepInside (fun label _ => label.thread = thread) thread rest) w w' →
          ∀ labels, Option.Rel (Twins w.result w'.result)
            (run step labels (w.without thread rest)) (run step labels w')) := by
  refine ⟨fun label rest w' hc hstep => fails_in_window h hd hc hstep,?_⟩
  intro thread rest w' e hstart hin hc hr
  obtain ⟨hk,hl,hw⟩ := failed_run hd h (.entering hstart (.refl _) rfl) hin hc hr
  refine ⟨hk,hl,hw,?_,?_⟩
  · intro v hs hcontrol hlog labels
    refine Twins.run labels ⟨hs,fun t => ?_,hlog,fun t => Or.inl ⟨rfl,rfl⟩⟩
    rw [hcontrol]
    exact alike_rfl _
  · intro halone labels
    obtain ⟨s,e',hs,rfl⟩ := failed_alone h hd hstart h .start halone hc hr
    refine Twins.run labels ⟨?_,fun t => ?_,?_,fun t => Or.inl ⟨rfl,rfl⟩⟩
    · rw [deliver_state]
      exact hs.symm
    · rw [deliver_control]
      exact alike_rfl _
    · rw [deliver_log]
      rfl

/-- A thread has a block and starts a collection. -/
def startedCollectRun : List Label :=
  [.user 0 (.call (.registerStackBottom 28672)),.run 0 {},
    .user 0 (.call (.mallocInternal 16 16 none false)),.run 0 {},.run 0 { region := 4096 },
    .run 0 {},.user 0 (.call .collect)]

/-- The collection finds no memory for its worklist. -/
def starvedCollectRun : List Label := [.run 0 {},.run 0 { fuel := 50, supply := some 0 },.run 0 {}]

theorem failed_call_atomic_starvedCollectRun :
    Kept (worldAfter startedCollectRun).state
      (worldAfter (startedCollectRun ++ starvedCollectRun)).state := by
  have hin : ReflTransGen (StepInside (Undisturbed 0) 0 []) (worldAfter startedCollectRun)
      (worldAfter (startedCollectRun ++ starvedCollectRun)) :=
    Inside.steps (worldAfter_run _ starvedCollectRun (by decide +kernel)) (by decide +kernel)
      (Obeys.mono (fun _ _ => Or.inl)
        (by decide +kernel : Obeys (fun label _ => label.thread = 0) _ _))
  exact ((failed_call_atomic (reachable_worldAfter startedCollectRun)
    (rfl : WindowCall.collect.detaches = true)).2 0 [] _ .badAlloc (by decide +kernel) hin
      (by decide +kernel) (by decide +kernel)).1

end GcLib.Properties
