import GcLib.Protocol.Lifecycle

/-! # Completed windows

A window of `collect` or `shutdown` completes in one step, which detaches its blocks and
hands them to `destroy_blocks` before the first destructor call.
-/

namespace GcLib.Protocol
open GcLib.Heap GcLib.Support

/-- The step by which the window of a call completes with these blocks to destroy. -/
structure Completes (thread : ThreadId) (choice : Choice) (call : WindowCall) (w w' : World)
    (blocks : List ℕ) : Prop where
  step : step (.run thread choice) w = some w'
  control : ∃ rest, w.control thread = .waiting call :: rest ∧
    w'.control thread = .destroying blocks blocks :: rest

section
variable {thread : ThreadId} {choice : Choice} {call : WindowCall} {w w' : World}
  {blocks : List ℕ}

/-- A thread that waits with a window goes on by running the body of its call, with every other
thread paused. -/
theorem waiting_step {rest : List Frame} (hstep : step (.run thread choice) w = some w')
    (hc : w.control thread = .waiting call :: rest) :
    w.state.othersPaused thread = true ∧ choice.env.localMarker < addressLimit ∧
      ((∃ blocks s supply', call.body thread choice.fuel choice.env w.state choice.supply =
          .returns (.destroy blocks) s supply' ∧
        w' = ((w.setState s).emit (blocks.map fun header =>
          .detached (s.serial header) w.log.length)).setControl thread
            (.destroying blocks blocks :: rest)) ∨
      (∃ value s supply', call.body thread choice.fuel choice.env w.state choice.supply =
          .returns (.done value) s supply' ∧
        w' = (w.setState s).setControl thread (.releasing (.ok value) :: rest)) ∨
      ∃ e s, call.body thread choice.fuel choice.env w.state choice.supply = .throws e s ∧
        w' = (w.setState s).setControl thread (.releasing (.error e) :: rest)) := by
  simp only [Protocol.step, hc] at hstep
  split_ifs at hstep with hv
  have hm : choice.env.localMarker < addressLimit := by
    simp only [Choice.valid, Bool.and_eq_true, decide_eq_true_eq] at hv
    exact hv.1
  simp only [runFrame, runWindow] at hstep
  split_ifs at hstep with hp
  refine ⟨hp,hm,?_⟩
  cases hrun : call.body thread choice.fuel choice.env w.state choice.supply with
  | diverges =>
    rw [hrun] at hstep
    cases hstep
  | throws e s =>
    rw [hrun] at hstep
    exact .inr (.inr ⟨e,s,rfl,(Option.some.inj hstep).symm⟩)
  | returns after s supply' =>
    rw [hrun] at hstep
    cases after with
    | done value => exact .inr (.inl ⟨value,s,supply',rfl,(Option.some.inj hstep).symm⟩)
    | destroy blocks => exact .inl ⟨blocks,s,supply',rfl,(Option.some.inj hstep).symm⟩

theorem Completes.run (h : Completes thread choice call w w' blocks) :
    w.state.othersPaused thread = true ∧ choice.env.localMarker < addressLimit ∧
      ∃ supply', call.body thread choice.fuel choice.env w.state choice.supply =
        .returns (.destroy blocks) w'.state supply' ∧
      w'.log = w.log ++ blocks.map (fun header =>
        .detached (w'.state.serial header) w.log.length) := by
  obtain ⟨rest,hc,hc'⟩ := h.control
  obtain ⟨hp,hm,hrun⟩ := waiting_step h.step hc
  refine ⟨hp,hm,?_⟩
  rcases hrun with ⟨blocks',s,supply',hrun,rfl⟩ | ⟨value,s,supply',-,rfl⟩ | ⟨e,s,-,rfl⟩
  · simp only [World.setControl, Function.update_self, List.cons.injEq, Frame.destroying.injEq,
      and_true] at hc'
    obtain rfl := hc'.1
    exact ⟨supply',hrun,rfl⟩
  · simp [World.setControl] at hc'
  · simp [World.setControl] at hc'

theorem Completes.effect (h : Completes thread choice call w w' blocks) (hw : ReachableWorld w) :
    WindowEffect thread choice.env w.state call (.destroy blocks) w'.state := by
  obtain ⟨-,hm,supply',hrun,-⟩ := h.run
  have hinv := hw.invariant
  exact (meets_windowBody hinv.heap (hinv.protocol.rootsInSpace hm) _ _).returns hrun

theorem Completes.reachable (h : Completes thread choice call w w' blocks)
    (hw : ReachableWorld w) : ReachableWorld w' := Reachable.step hw h.step

theorem Completes.sameChunks (h : Completes thread choice call w w' blocks)
    (hw : ReachableWorld w) : SameChunks w.state w'.state := (h.effect hw).sameChunks

/-- The window of a collection removes exactly what it does not retain. -/
theorem Completes.collected (h : Completes thread choice .collect w w' blocks)
    (hw : ReachableWorld w) :
    ∃ dead, Collected w.state thread choice.env dead blocks w'.state := by
  cases h.effect hw with
  | collect hc => exact ⟨_,hc⟩

/-- The blocks a window finalizes together: those it removed from the registry. -/
def detachedBlocks (w w' : World) : List BlockRecord :=
  w.state.allocations.values.filter fun b => decide (b ∉ w'.state.allocations.values)

/-- The batch of a window is a safe order of the blocks it detached. -/
theorem Completes.safeOrder (h : Completes thread choice call w w' blocks)
    (hw : ReachableWorld w) : ∃ order, blocks = order.map BlockRecord.header ∧
      SafeOrder w.state (detachedBlocks w w') order := by
  have hinv := hw.invariant.heap
  have heffect := h.effect hw
  unfold detachedBlocks
  generalize w'.state = s' at heffect ⊢
  cases heffect with
  | collect hc =>
    obtain ⟨order,hblocks,hsafe⟩ := hc.order
    refine ⟨order,hblocks,hsafe.of_mem_iff (hc.dead_nodup hinv) (hinv.values_nodup.filter _) ?_⟩
    intro b
    simp only [List.mem_filter, decide_eq_true_eq, hc.mem_dead, hc.mem_values hinv]
  | shutdown _ hblocks hsafe =>
    refine ⟨_,hblocks,hsafe.of_mem_iff hinv.values_nodup (hinv.values_nodup.filter _) ?_⟩
    simp [State.shutDown, OrderedMap.values]

end

/-- The calls `destroy_blocks` makes for some blocks. -/
def destructorCalls (s : State) (blocks : List ℕ) : List Event :=
  (blocks.filter fun header => decide ((s.header header).destructor ≠ none)).map
    fun header => .finalized (s.serial header)

/-- Nothing keeps `destroy_blocks` from making all of its calls. -/
theorem exists_destructorCalls {thread : ThreadId} {blocks : List ℕ} {rest : List Frame} :
    ∀ {pending : List ℕ} {w : World}, w.control thread = .destroying blocks pending :: rest →
      ∃ w', Relation.ReflTransGen (Steps step) w w' ∧
        w'.log = w.log ++ destructorCalls w.state pending
  | [], w, _ => ⟨w,.refl,(List.append_nil _).symm⟩
  | header :: pending, w, hc => by
    by_cases hd : (w.state.header header).destructor = none
    · let w₁ := w.setControl thread (.destroying blocks pending :: rest)
      have hstep : step (.run thread {}) w = some w₁ := by
        simp [step, hc, Choice.valid, runFrame, hd, addressLimit, w₁]
      have hc₁ : w₁.control thread = .destroying blocks pending :: rest := Function.update_self ..
      obtain ⟨w',hsteps,hl⟩ := exists_destructorCalls hc₁
      refine ⟨w',.head ⟨_,hstep⟩ hsteps,hl.trans ?_⟩
      simp [destructorCalls, hd, World.setControl, w₁]
    · let w₁ := (w.emit [.finalized (w.state.serial header)]).setControl thread
        (.finalizer blocks pending :: rest)
      let w₂ := w₁.setControl thread (.destroying blocks pending :: rest)
      have hstep : step (.run thread {}) w = some w₁ := by
        simp [step, hc, Choice.valid, runFrame, hd, addressLimit, w₁]
      have hc₁ : w₁.control thread = .finalizer blocks pending :: rest := Function.update_self ..
      have hstep₁ : step (.user thread .finalizerReturns) w₁ = some w₂ := by
        simp [step, hc₁, inUserCode, runAction, w₂]
      have hc₂ : w₂.control thread = .destroying blocks pending :: rest := Function.update_self ..
      obtain ⟨w',hsteps,hl⟩ := exists_destructorCalls hc₂
      refine ⟨w',.head ⟨_,hstep⟩ (.head ⟨_,hstep₁⟩ hsteps),hl.trans ?_⟩
      simp [destructorCalls, hd, World.setControl, World.emit, w₁, w₂]

end GcLib.Protocol
