import GcLib.Protocol.Registrations

/-! # Stacks of frames

A thread calls operations from its own code only. The one frame that an operation leaves below
itself is that of an allocation, and only a collection runs above it. The thread that owns the
window is never parked.
-/

namespace GcLib.Protocol
open GcLib.Heap GcLib.Support

/-- An allocation that waits for its collection. -/
def Frame.isCollecting : Frame → Bool
  | .collecting _ => true
  | _ => false

/-- Frames of a collection, which may run above an allocation. -/
def Frame.collects : Frame → Bool
  | .entering (.call .collect) _ => true
  | .waiting _ => true
  | .destroying _ _ => true
  | .finalizer _ _ => true
  | .freeing _ => true
  | .releasing _ => true
  | _ => false

/-- Every frame lies above user code, or above an allocation whose collection it is. -/
inductive Upright : List Frame → Prop where
  | nil : Upright []
  | user {frame : Frame} {rest : List Frame} (hf : frame.isCollecting = false)
      (hu : inUserCode rest = true) (hrest : Upright rest) : Upright (frame :: rest)
  | collects {frame : Frame} {request : AllocationRequest} {rest : List Frame}
      (hf : frame.collects = true) (hu : inUserCode rest = true) (hrest : Upright rest) :
      Upright (frame :: .collecting request :: rest)

section
variable {frame new : Frame} {rest : List Frame}

theorem Upright.top (h : Upright (frame :: rest)) : frame.isCollecting = false := by
  cases h with
  | user hf => exact hf
  | collects hf => cases frame <;> first | rfl | cases hf

theorem Upright.replace (h : Upright (frame :: rest)) (hnew : new.isCollecting = false)
    (hc : frame.collects = true → new.collects = true) : Upright (new :: rest) := by
  cases h with
  | user hf hu hrest => exact .user hnew hu hrest
  | collects hf hu hrest => exact .collects (hc hf) hu hrest

/-- A frame that is of no collection lies above user code. -/
theorem Upright.user_of (h : Upright (frame :: rest)) (hc : frame.collects = false) :
    inUserCode rest = true ∧ Upright rest := by
  cases h with
  | user hf hu hrest => exact ⟨hu,hrest⟩
  | collects hf =>
    rw [hc] at hf
    cases hf

theorem Upright.resumed (h : Upright (frame :: rest)) (ok : Bool) : Upright (resumed rest ok) := by
  cases h with
  | user hf hu hrest =>
    rw [resumed_user hu]
    exact hrest
  | collects hf hu hrest =>
    cases ok with
    | false => exact hrest
    | true => exact .user rfl hu hrest

theorem Upright.resumed_unparked (h : Upright (frame :: rest)) (ok : Bool) :
    parkedAtTop (Protocol.resumed rest ok) ≠ true := by
  have huser : ∀ {stack : List Frame}, inUserCode stack = true → parkedAtTop stack ≠ true := by
    intro stack hu
    rw [(inUserCode_stack hu).1]
    exact Bool.false_ne_true
  cases h with
  | user hf hu => simpa [resumed_user hu] using huser hu
  | collects hf hu => cases ok <;> first | exact huser hu | exact Bool.false_ne_true

end

section
variable {w w' : World} {thread : ThreadId}

theorem Transition.upright (ht : Transition thread w w') (hheap : HeapInvariant w.state)
    (h : Upright (w.control thread)) : Upright (w'.control thread) := by
  have hset : ∀ {u : World} {frames : List Frame}, Upright frames →
      Upright ((u.setControl thread frames).control thread) := by
    intro u frames hframes
    simpa [World.setControl] using hframes
  have hdeliver : ∀ {u : World} {rest : List Frame} {result : Except GCError Value},
      (∀ ok, Upright (resumed rest ok)) →
      Upright ((u.deliver thread rest result).control thread) := by
    intro u rest result hrest
    rw [deliver_control, Function.update_self]
    exact hrest _
  cases ht with
  | store | immediate => exact h
  | call hw hi hu => exact hset (.user rfl hu h)
  | finalizerReturns hc =>
    rw [hc] at h
    exact hset (h.replace rfl fun _ => rfl)
  | runsSection hc hco hrun =>
    rename_i code stage rest s s' fuel supply supply' next
    rw [hc] at h
    rw [proceed_control, Function.update_self]
    have heffect := effect_of_run hheap hco hrun
    clear hrun hco hc
    cases heffect with
    | window => exact h.replace rfl fun _ => rfl
    | collect | allocate | release => exact h.replace rfl fun hf => by first | rfl | cases hf
    | _ => exact h.resumed true
  | callThrows hc | publishThrows hc | prologueThrows hc | releases hc | outOfMemory hc
    | freesBlock hc =>
    rw [hc] at h
    exact hdeliver h.resumed
  | stalls hc hs =>
    rename_i code stage stage' rest s
    clear hs
    rw [hc] at h
    refine hset (h.replace rfl fun hf => ?_)
    cases code with
    | call call => cases call <;> first | rfl | cases hf
    | publish => cases hf
  | windowDestroys hc | windowReturns hc | windowThrows hc | destroyed hc | skips hc | finalizes hc
    | freed hc | frees hc =>
    rw [hc] at h
    exact hset (h.replace rfl fun _ => rfl)
  | retries hc =>
    rw [hc] at h
    obtain ⟨hu,hrest⟩ := h.user_of rfl
    exact hset (.collects rfl hu hrest)
  | places hc =>
    rw [hc] at h
    exact hset (h.replace rfl fun hf => by cases hf)

theorem ReachableWorld.upright (h : ReachableWorld w) (thread : ThreadId) :
    Upright (w.control thread) := by
  refine h.induction (P := fun w => ∀ thread, Upright (w.control thread)) (fun _ _ => .nil) ?_ thread
  intro label w w' hr ih hstep thread
  by_cases hthread : thread = label.thread
  · subst hthread
    exact (step_transition hstep).upright hr.invariant.heap (ih _)
  · rw [hr.control hstep thread hthread]
    exact ih thread

/-- Only a thread that may not proceed parks. -/
theorem Transition.parks (ht : Transition thread w w') (h : Upright (w.control thread))
    (hp : parkedAtTop (w'.control thread) = true) :
    w.state.mayProceed thread = false ∧ w'.state.collectorThread = w.state.collectorThread := by
  have huser : ∀ {stack : List Frame}, inUserCode stack = true → parkedAtTop stack ≠ true := by
    intro stack hu hp
    rw [(inUserCode_stack hu).1] at hp
    cases hp
  have hset : ∀ {u : World} {frame : Frame} {rest : List Frame},
      parkedAtTop ((u.setControl thread (frame :: rest)).control thread) =
        parkedAtTop (frame :: rest) := by
    intro u frame rest
    simp [World.setControl]
  have hdeliver : ∀ {u : World} {frame : Frame} {rest : List Frame} {result : Except GCError Value},
      Upright (frame :: rest) →
      parkedAtTop ((u.deliver thread rest result).control thread) ≠ true := by
    intro u frame rest result hstack
    rw [deliver_control, Function.update_self]
    exact hstack.resumed_unparked _
  cases ht with
  | store _ _ hu | immediate _ hu => exact absurd hp (huser hu)
  | runsSection hc =>
    rename_i next _ _
    rw [hc] at h
    rw [proceed_control, Function.update_self] at hp
    cases next with
    | done => exact absurd hp (h.resumed_unparked true)
    | _ => cases hp
  | callThrows hc | publishThrows hc | prologueThrows hc | releases hc | outOfMemory hc
    | freesBlock hc =>
    rw [hc] at h
    exact absurd hp (hdeliver h)
  | stalls hc hs =>
    rw [hset] at hp
    cases hs with
    | park hm => exact ⟨hm,rfl⟩
    | _ => cases hp
  | _ =>
    rw [hset] at hp
    cases hp

theorem ReachableWorld.owner_unparked (h : ReachableWorld w)
    (ho : w.state.collectorThread = some thread) : parkedAtTop (w.control thread) = false := by
  refine h.induction (P := fun w => ∀ thread, w.state.collectorThread = some thread →
    parkedAtTop (w.control thread) = false) (fun _ _ _ => rfl) ?_ thread ho
  intro label w w' hr ih hstep thread ho
  by_cases hthread : thread = label.thread
  · subst hthread
    by_contra hp
    rw [Bool.not_eq_false] at hp
    obtain ⟨hm,hsame⟩ := (step_transition hstep).parks (hr.upright _) hp
    rw [hsame] at ho
    simp [State.mayProceed, ho] at hm
  · have hstepped := (step_transition hstep).stepInvariant hr.invariant.protocol hr.invariant.heap
    rw [hr.control hstep thread hthread]
    exact ih thread ((hstepped.others thread hthread).owner.mp ho)

end
end GcLib.Protocol
