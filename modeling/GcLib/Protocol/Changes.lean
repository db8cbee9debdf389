import GcLib.Protocol.Windows

/-! # What a step does to the heap

The registry, the byte counters, the weak references and the statistics change in two kinds
of steps only: a critical section that returns, and a window that completes.
-/

namespace GcLib.Protocol
open GcLib.Heap GcLib.Support

/-- Events that move no block into the registry or out of it. -/
def Event.outside : Event → Bool
  | .placed _ _ => true
  | .finalized _ => true
  | .freed _ => true
  | _ => false

/-- What a step of a thread does to the registry, the counters and the statistics. -/
inductive HeapChange (thread : ThreadId) (w w' : World) : Prop where
  | quiet (ha : w'.state.allocations = w.state.allocations)
      (hw : w'.state.weakRefs = w.state.weakRefs)
      (hm : w'.state.managedBytes = w.state.managedBytes)
      (hr : w'.state.reservedBytes = w.state.reservedBytes)
      (hs : w'.state.stats = w.state.stats)
      (hn : ∀ call rest blocks pending above, w.control thread = .waiting call :: rest →
        w'.control thread ≠ .destroying blocks pending :: above)
      (hl : ∃ events, w'.log = w.log ++ events ∧ ∀ e ∈ events, e.outside = true)
  | section {code : Section} {stage : Stage} {rest : List Frame} {s : State} {next : Next}
      (hc : w.control thread = .entering code stage :: rest)
      (hco : Cooperated thread w.state code stage s)
      (he : Effect thread s code next w'.state)
      (hc' : w'.control thread = proceeded rest next)
      (hl : w'.log = w.log ++ code.events s w'.state next)
  | window {call : WindowCall} {rest : List Frame} {env : ScanEnvironment} {blocks : List ℕ}
      (hc : w.control thread = .waiting call :: rest)
      (he : WindowEffect thread env w.state call (.destroy blocks) w'.state)
      (hc' : w'.control thread = .destroying blocks blocks :: rest)
      (hl : w'.log = w.log ++ blocks.map fun header =>
        .detached (w'.state.serial header) w.log.length)

section
variable {w w' : World} {thread : ThreadId}

/-- Every step is quiet, a section that returns or a window that completes. -/
theorem Transition.heapChange (h : ProtocolInvariant w) (hheap : HeapInvariant w.state)
    (ht : Transition thread w w') : HeapChange thread w w' := by
  have hquiet : ∀ {s : State} (events : List Event), SameHeap w.state s →
      w'.state.allocations = s.allocations →
      w'.state.weakRefs = s.weakRefs → w'.state.managedBytes = s.managedBytes →
      w'.state.reservedBytes = s.reservedBytes → w'.state.stats = s.stats →
      w'.log = w.log ++ events → (∀ e ∈ events, e.outside = true) →
      (∀ call rest, w.control thread ≠ .waiting call :: rest) → HeapChange thread w w' := by
    intro s events hs ha hw hm hr hst hl he hn
    exact .quiet (ha.trans hs.allocations) (hw.trans hs.weakRefs)
      (hm.trans (congrArg State.managedBytes hs.eq :)) (hr.trans (congrArg State.reservedBytes hs.eq :))
      (hst.trans (congrArg State.stats hs.eq :)) (fun call rest _ _ _ hc => absurd hc (hn call rest))
      ⟨events,hl,he⟩
  have hsilent : ∀ {log : List Event}, log = w.log → log = w.log ++ [] :=
    fun hl => hl.trans (List.append_nil _).symm
  have hnot : ∀ {frame : Frame} {rest : List Frame}, w.control thread = frame :: rest →
      (∀ call, frame ≠ .waiting call) → ∀ call rest', w.control thread ≠ .waiting call :: rest' := by
    intro frame rest hc hf call rest' hc'
    rw [hc] at hc'
    exact hf call (List.cons.inj hc').1
  have huser : inUserCode (w.control thread) = true →
      ∀ call rest, w.control thread ≠ .waiting call :: rest := by
    intro hu call rest hc
    rw [hc] at hu
    cases hu
  cases ht with
  | store address value hu =>
    exact hquiet [] rfl rfl rfl rfl rfl rfl (hsilent rfl) (by simp) (huser hu)
  | immediate hi hu => exact hquiet [] rfl rfl rfl rfl rfl rfl (hsilent rfl) (by simp) (huser hu)
  | call hw hi hu => exact hquiet [] rfl rfl rfl rfl rfl rfl (hsilent rfl) (by simp) (huser hu)
  | finalizerReturns hc | destroyed hc | skips hc | freed hc | retries hc =>
    exact hquiet [] rfl rfl rfl rfl rfl rfl (hsilent rfl) (by simp)
      (hnot hc (fun _ h => by cases h))
  | finalizes hc | frees hc | places hc =>
    exact hquiet _ rfl rfl rfl rfl rfl rfl rfl (by simp [Event.outside])
      (hnot hc (fun _ h => by cases h))
  | runsSection hc hco hrun =>
    rename_i code stage rest s s' fuel supply supply' next
    refine @HeapChange.section thread w _ code stage rest s next hc hco ?_ ?_ ?_
    · rw [proceed_state]
      exact effect_of_run hheap hco hrun
    · rw [proceed_control, Function.update_self]
    · rw [proceed_log, proceed_state]
      rfl
  | callThrows hc hco hrun =>
    have hf := failed_of_run hheap hco hrun
    cases hf
    refine hquiet [] hco.sameHeap ?_ ?_ ?_ ?_ ?_ (hsilent (deliver_log _)) (by simp)
      (hnot hc (fun _ h => by cases h)) <;>
      rw [deliver_state] <;> rfl
  | publishThrows hc hco hrun =>
    have hf := failed_of_run hheap hco hrun
    refine hquiet _ hco.sameHeap ?_ ?_ ?_ ?_ ?_ (deliver_log _) (by simp [Event.outside])
      (hnot hc (fun _ h => by cases h)) <;>
      rw [deliver_state] <;> cases hf <;> rfl
  | prologueThrows hc | outOfMemory hc | releases hc =>
    refine hquiet (s := w.state) [] rfl ?_ ?_ ?_ ?_ ?_ (hsilent (deliver_log _)) (by simp)
      (hnot hc (fun _ h => by cases h)) <;>
      rw [deliver_state] <;> rfl
  | freesBlock hc =>
    refine hquiet (s := w.state) _ rfl ?_ ?_ ?_ ?_ ?_ (deliver_log _) (by simp [Event.outside])
      (hnot hc (fun _ h => by cases h)) <;>
      rw [deliver_state] <;> rfl
  | stalls hc hs =>
    have hsame := hs.sameHeap
    exact hquiet [] hsame rfl rfl rfl rfl rfl (hsilent rfl) (by simp)
      (hnot hc (fun _ h => by cases h))
  | windowDestroys hc hp hm hrun =>
    exact .window hc ((meets_windowBody hheap (h.rootsInSpace hm) _ _).returns hrun)
      (Function.update_self ..) rfl
  | windowReturns hc hp hm hrun =>
    have he := (meets_windowBody hheap (h.rootsInSpace hm) _ _).returns hrun
    cases he
    refine .quiet rfl rfl rfl rfl rfl (fun call rest blocks pending above _ hc' => ?_)
      ⟨[],hsilent rfl,by simp⟩
    simp [World.setControl] at hc'
  | windowThrows hc hp hm hrun =>
    have he := (meets_windowBody hheap (h.rootsInSpace hm) _ _).throws hrun
    refine .quiet he.allocations he.weakRefs he.managedBytes he.reservedBytes
      (congrArg State.stats he.eq :) (fun call rest blocks pending above _ hc' => ?_)
      ⟨[],hsilent rfl,by simp⟩
    simp [World.setControl] at hc'

end

theorem ReachableWorld.heapChange {w w' : World} {label : Label} (h : ReachableWorld w)
    (hstep : step label w = some w') : HeapChange label.thread w w' :=
  (step_transition hstep).heapChange h.invariant.protocol h.invariant.heap

end GcLib.Protocol
