import Mathlib.Data.Prod.Lex
import GcLib.Protocol.CallRuns
import GcLib.Protocol.Stacks
import GcLib.Support.Parties

/-! # Calls settle

Every step inside an operation takes effort from the stack of its thread: there are fewer windows
to open, or no more of them and less work besides.
-/

namespace GcLib.Protocol
open GcLib.Heap GcLib.Support

/-- The windows that a frame may still open. -/
def Frame.windows : Frame → ℕ
  | .entering (.call _) _ => 1
  | .waiting _ => 1
  | .allocating _ false => 1
  | _ => 0

/-- How often cooperation may still hold the thread up. -/
def Stage.delays : Stage → ℕ
  | .enter => 2
  | .spilling => 1
  | _ => 0

/-- What a frame has to do between two windows. -/
def Frame.work : Frame → ℕ
  | .entering (.call .collect) stage => stage.delays+2
  | .entering (.call _) stage => stage.delays+11
  | .entering (.publish _ _) stage => stage.delays+2
  | .waiting _ => 1
  | .destroying blocks pending => 2*pending.length+blocks.length+4
  | .finalizer blocks pending => 2*pending.length+blocks.length+5
  | .freeing pending => pending.length+3
  | .releasing _ => 2
  | .allocating _ true => 5
  | .allocating _ false => 10
  | .collecting _ => 5
  | .freeingBlock _ => 1

def windows (stack : List Frame) : ℕ := (stack.map Frame.windows).sum

def work (stack : List Frame) : ℕ := (stack.map Frame.work).sum

/-- Fewer windows, or as many and less work. -/
def Eases (stack stack' : List Frame) : Prop :=
  windows stack' < windows stack ∨ windows stack' = windows stack ∧ work stack' < work stack

@[simp] theorem windows_cons (frame : Frame) (rest : List Frame) :
    windows (frame :: rest) = frame.windows+windows rest := by
  simp [windows]

@[simp] theorem work_cons (frame : Frame) (rest : List Frame) :
    work (frame :: rest) = frame.work+work rest := by
  simp [work]

/-- Steps inside operations, and the ends of finalizers. -/
def Label.inside : Label → Bool
  | .run _ _ => true
  | .user _ .finalizerReturns => true
  | .user _ _ => false

section
variable {frame new : Frame} {rest : List Frame} {w w' : World} {thread : ThreadId}

theorem Frame.work_pos (frame : Frame) : 0 < frame.work := by
  cases frame with
  | entering code stage =>
    cases code with
    | call call => cases call <;> simp [Frame.work]
    | publish => simp [Frame.work]
  | allocating request retried => cases retried <;> simp [Frame.work]
  | _ => simp [Frame.work]

/-- A new top frame with no more windows and less work. -/
theorem Eases.replace (hwindows : new.windows ≤ frame.windows) (hwork : new.work < frame.work) :
    Eases (frame :: rest) (new :: rest) := by
  unfold Eases
  simp only [windows_cons, work_cons]
  omega

theorem Eases.resumed (ok : Bool) : Eases (frame :: rest) (resumed rest ok) := by
  have hpos := frame.work_pos
  unfold Eases Protocol.resumed
  split
  · rename_i request below
    have hcollecting : (Frame.collecting request).windows = 0 := rfl
    have hretried : (Frame.allocating request true).windows = 0 := rfl
    have hsame : (Frame.collecting request).work = (Frame.allocating request true).work := rfl
    split_ifs <;> simp only [windows_cons, work_cons] <;> omega
  · simp only [windows_cons, work_cons]
    omega

theorem work_entering_call (call : Call) (stage : Stage) :
    stage.delays+2 ≤ (Frame.entering (.call call) stage).work := by
  cases call <;> simp [Frame.work]

/-- Cooperation holds a thread up twice at most. -/
theorem Stalled.delays {s s' : State} {code : Section} {stage stage' : Stage}
    (h : Stalled thread s code stage s' stage') : stage'.delays < stage.delays := by
  cases h <;> simp [Stage.delays]

theorem Transition.eases (ht : Transition thread w w') (hheap : HeapInvariant w.state)
    (hu : inUserCode (w.control thread) = false) : Eases (w.control thread) (w'.control thread) := by
  have hset : ∀ {u : World} {stack frames : List Frame}, Eases stack frames →
      Eases stack ((u.setControl thread frames).control thread) := by
    intro u stack frames hframes
    simpa [World.setControl] using hframes
  have hdeliver : ∀ {u : World} {frame : Frame} {rest : List Frame}
      {result : Except GCError Value},
      Eases (frame :: rest) ((u.deliver thread rest result).control thread) := by
    intro u frame rest result
    rw [deliver_control, Function.update_self]
    exact .resumed _
  cases ht with
  | store _ _ hu' | immediate _ hu' | call _ _ hu' =>
    rw [hu] at hu'
    cases hu'
  | finalizerReturns hc => simp [hc, inUserCode] at hu
  | runsSection hc hco hrun =>
    rename_i code stage rest s s' fuel supply supply' next
    have heffect := effect_of_run hheap hco hrun
    rw [hc, proceed_control, Function.update_self]
    clear hrun hco hc
    cases heffect with
    | window =>
      apply Eases.replace (le_refl 1)
      exact lt_of_lt_of_le (Nat.lt_add_left _ Nat.one_lt_two) (work_entering_call _ stage)
    | collect | allocate | release =>
      apply Eases.replace
      · simp [Frame.windows]
      · simp only [Frame.work, Stage.delays]
        omega
    | _ => exact .resumed true
  | callThrows hc | publishThrows hc | prologueThrows hc | releases hc | outOfMemory hc
    | freesBlock hc =>
    rw [hc]
    exact hdeliver
  | stalls hc hs =>
    rename_i code stage stage' rest s
    have hdelays := hs.delays
    rw [hc]
    apply hset
    cases code with
    | publish => exact .replace (le_refl 0) (Nat.add_lt_add_right hdelays 2)
    | call call =>
      apply Eases.replace (le_refl 1)
      cases call <;> exact Nat.add_lt_add_right hdelays _
  | retries hc =>
    rw [hc]
    apply hset
    simp [Eases, Frame.windows, Frame.work, Stage.delays]
    omega
  | places hc =>
    rename_i request retried rest region hf
    rw [hc]
    apply hset
    cases retried <;> exact .replace (by simp [Frame.windows]) (by simp [Frame.work, Stage.delays])
  | windowDestroys hc | windowReturns hc | windowThrows hc =>
    rw [hc]
    apply hset
    simp [Eases, Frame.windows]
  | _ hc =>
    rw [hc]
    apply hset
    exact .replace (le_refl 0) (by simp only [Frame.work, List.length_cons, List.length_nil]; omega)

/-- Windows first, then work. -/
def rank (w : World) (thread : ThreadId) : ℕ ×ₗ ℕ :=
  toLex (windows (w.control thread), work (w.control thread))

theorem Eases.rank_lt (h : Eases (w.control thread) (w'.control thread)) :
    rank w' thread < rank w thread := by
  apply Prod.Lex.toLex_lt_toLex.mpr
  simpa [Eases] using h

theorem finalizerReturns_step (h : step (.user thread .finalizerReturns) w = some w') :
    ∃ blocks pending rest, w.control thread = .finalizer blocks pending :: rest ∧
      w'.control thread = .destroying blocks pending :: rest := by
  simp only [step, runAction] at h
  split_ifs at h with hu
  split at h
  · rename_i blocks pending rest hc
    cases h
    refine ⟨blocks,pending,rest,hc,?_⟩
    simp [World.setControl]
  · cases h

/-- A thread in none of the operations has nothing left to do. -/
theorem isMin_rank_iff : IsMin (rank w thread) ↔ w.control thread = [] := by
  constructor
  · intro hmin
    by_contra hne
    obtain ⟨frame,rest,hc⟩ := List.exists_cons_of_ne_nil hne
    have hpos := frame.work_pos
    have hlt : (toLex (0,0) : ℕ ×ₗ ℕ) < rank w thread := by
      rw [rank, hc]
      apply Prod.Lex.toLex_lt_toLex.mpr
      simp only [windows_cons, work_cons]
      omega
    exact hmin.not_lt hlt
  · intro hc
    rw [rank, hc]
    exact isMin_bot

/-- A step inside an operation lowers the rank of its thread. -/
theorem ReachableWorld.lowers {label : Label} (hr : ReachableWorld w) (hin : label.inside = true)
    (h : step label w = some w') : Lowers (rank w) (rank w') := by
  refine ⟨label.thread,?_,fun other hne => ?_⟩
  · apply Eases.rank_lt
    cases label with
    | run thread choice => exact (step_transition h).eases hr.invariant.heap (run_not_user h)
    | user thread action =>
      cases action with
      | finalizerReturns =>
        obtain ⟨blocks,pending,rest,hc,hw'⟩ := finalizerReturns_step h
        rw [Label.thread, hc, hw']
        exact .replace (le_refl 0) (Nat.lt_succ_self _)
      | _ => cases hin
  · rw [rank, rank, hr.control h other hne]

theorem ReachableWorld.run_control (h : ReachableWorld w) {labels : List Label}
    (hrun : run step labels w = some w') (hidle : thread ∉ labels.map Label.thread) :
    w'.control thread = w.control thread := by
  induction labels generalizing w with
  | nil =>
    cases hrun
    rfl
  | cons label labels ih =>
    obtain ⟨w₁,hstep,hrest⟩ := Option.bind_eq_some_iff.mp hrun
    rw [List.map_cons, List.mem_cons, not_or] at hidle
    rw [ih (h.step hstep) hrest hidle.2, h.control hstep thread hidle.1]

theorem ReachableWorld.finite_active (h : ReachableWorld w) :
    {thread | w.control thread ≠ []}.Finite := by
  refine h.induction (P := fun w => {thread | w.control thread ≠ []}.Finite) ?_ ?_
  · intro memory
    simp [World.initial]
  · intro label w w' hr ih hstep
    apply (ih.insert label.thread).subset
    intro thread hthread
    by_cases he : thread = label.thread
    · exact Or.inl he
    · apply Or.inr
      rwa [Set.mem_ofPred_eq, hr.control hstep thread he] at hthread

end
end GcLib.Protocol
