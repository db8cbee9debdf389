import GcLib.Protocol.CallRuns
import GcLib.Protocol.WeakRefs

/-! # Operations on weak handles

The section of an operation on weak handles is all the operation does. It reads the registry or
changes it together with the handle words, and fails only where it appends an entry.
-/

namespace GcLib.Protocol
open GcLib.Heap GcLib.Support

/-- The operations on the weak-reference registry. -/
def Call.onWeakRefs : Call → Bool
  | .registerWeakRef _ _ => true
  | .readWeakRef _ => true
  | .unregisterWeakRef _ => true
  | .copyWeakRef _ _ => true
  | .updateWeakRef _ _ => true
  | _ => false

/-- The operations that append an entry. -/
def Call.appendsWeakRef : Call → Bool
  | .registerWeakRef _ _ => true
  | .copyWeakRef _ _ => true
  | _ => false

/-- What such an operation returns and leaves. -/
inductive WeakOutcome (s : State) :
    Call → Except GCError Value → List WeakRefEntry → Memory → Prop where
  | reads (storage : ℕ) : WeakOutcome s (.readWeakRef storage)
      (.ok (.word ((findWeakRef s.weakRefs storage).elim 0 WeakRefEntry.target)))
      s.weakRefs s.memory
  | ignores (target : ℕ) :
      WeakOutcome s (.registerWeakRef target 0) (.ok .unit) s.weakRefs s.memory
  | changes {call : Call} {weakRefs : List WeakRefEntry} {memory : Memory}
      (h : WeakChange s call weakRefs memory) : WeakOutcome s call (.ok .unit) weakRefs memory
  | fails {call : Call} (h : call.appendsWeakRef = true) :
      WeakOutcome s call (.error .badAlloc) s.weakRefs s.memory

section
variable {s s' : State} {call : Call}

theorem WeakChange.congr {weakRefs : List WeakRefEntry} {memory : Memory}
    (h : WeakChange s' call weakRefs memory) (hs : SameHeap s s') :
    WeakChange s call weakRefs memory := by
  have hfind : ∀ target, s'.findBlockLocked target = s.findBlockLocked target := by
    intro target
    simp only [State.findBlockLocked, hs.allocations]
  have hw := hs.weakRefs
  have hm := hs.memory
  cases h with
  | registersNothing h₀ hf =>
    rw [hw, hm]
    exact .registersNothing h₀ (hfind _ ▸ hf)
  | registers h₀ hf =>
    rw [hw, hm]
    exact .registers h₀ (hfind _ ▸ hf)
  | unregisters =>
    rw [hw, hm]
    exact .unregisters
  | copiesNothing hf =>
    rw [hw, hm]
    exact .copiesNothing (hw ▸ hf)
  | copies hf =>
    rw [hw, hm]
    exact .copies (hw ▸ hf)
  | movesNothing hf =>
    rw [hw, hm]
    exact .movesNothing (hw ▸ hf)
  | moves hf =>
    rw [hw, hm]
    exact .moves (hw ▸ hf)

theorem WeakOutcome.congr {result : Except GCError Value} {weakRefs : List WeakRefEntry}
    {memory : Memory} (h : WeakOutcome s' call result weakRefs memory) (hs : SameHeap s s') :
    WeakOutcome s call result weakRefs memory := by
  cases h with
  | reads storage =>
    rw [hs.weakRefs, hs.memory]
    exact .reads storage
  | ignores target =>
    rw [hs.weakRefs, hs.memory]
    exact .ignores target
  | changes h => exact .changes (h.congr hs)
  | fails h =>
    rw [hs.weakRefs, hs.memory]
    exact .fails h

/-- Every such section has one of the listed outcomes. -/
theorem meets_weakCall (h : call.onWeakRefs = true) (thread : ThreadId) (fuel : ℕ) :
    (Section.body thread fuel (.call call)).Meets s
      (fun next s' => ∃ value weakRefs memory, next = .done value ∧
        s' = { s with weakRefs := weakRefs, memory := memory } ∧
        WeakOutcome s call (.ok value) weakRefs memory)
      (fun e s' => s' = s ∧ WeakOutcome s call (.error e) s.weakRefs s.memory) := by
  refine Exec.meets_bind (Exec.meets_get ?_)
  cases call with
  | registerWeakRef target storage =>
    refine meets_returning (Exec.meets_bind (Exec.meets_get ?_))
    split_ifs with h₀ hf
    · subst h₀
      exact Exec.meets_pure ⟨_,_,_,rfl,rfl,.ignores target⟩
    · exact Exec.meets_bind (Exec.meets_modify
        (Exec.meets_pure ⟨_,_,_,rfl,rfl,.changes (.registersNothing h₀ hf)⟩))
    · exact Exec.meets_bind (Exec.meets_allocate (Exec.meets_bind (Exec.meets_modify
        (Exec.meets_pure ⟨_,_,_,rfl,rfl,.changes (.registers h₀ hf)⟩))) ⟨rfl,.fails rfl⟩)
  | readWeakRef storage =>
    exact meets_returning (Exec.meets_bind (Exec.meets_get
      (Exec.meets_pure ⟨_,_,_,rfl,rfl,.reads storage⟩)))
  | unregisterWeakRef storage =>
    exact meets_returning (Exec.meets_bind (Exec.meets_modify
      (Exec.meets_pure ⟨_,_,_,rfl,rfl,.changes .unregisters⟩)))
  | copyWeakRef oldStorage newStorage =>
    refine meets_returning (Exec.meets_bind (Exec.meets_get ?_))
    cases hf : findWeakRef s.weakRefs oldStorage with
    | none =>
      exact Exec.meets_bind (Exec.meets_modify
        (Exec.meets_pure ⟨_,_,_,rfl,rfl,.changes (.copiesNothing hf)⟩))
    | some entry =>
      exact Exec.meets_bind (Exec.meets_allocate (Exec.meets_bind (Exec.meets_modify
        (Exec.meets_pure ⟨_,_,_,rfl,rfl,.changes (.copies hf)⟩))) ⟨rfl,.fails rfl⟩)
  | updateWeakRef oldStorage newStorage =>
    refine meets_returning (Exec.meets_bind (Exec.meets_get ?_))
    cases hf : findWeakRef s.weakRefs oldStorage with
    | none =>
      exact Exec.meets_bind (Exec.meets_modify
        (Exec.meets_pure ⟨_,_,_,rfl,rfl,.changes (.movesNothing hf)⟩))
    | some entry =>
      exact Exec.meets_bind (Exec.meets_modify
        (Exec.meets_pure ⟨_,_,_,rfl,rfl,.changes (.moves hf)⟩))
  | _ => cases h

end

section
variable {w w' : World} {label : Label} {call : Call} {stage : Stage} {below : List Frame}

/-- A thread in such an operation is held up, or returns to its caller. -/
theorem weakCall_step (label : Label) (h : call.onWeakRefs = true) (hu : inUserCode below = true)
    (hc : w.control label.thread = .entering (.call call) stage :: below)
    (hstep : step label w = some w') :
    (SameHeap w.state w'.state ∧ w'.log = w.log ∧
      ∃ stage', w'.control label.thread = .entering (.call call) stage' :: below) ∨
    ∃ s result weakRefs memory, SameHeap w.state s ∧
      w'.state = { s with weakRefs := weakRefs, memory := memory } ∧ w'.log = w.log ∧
      w'.control label.thread = below ∧ w'.result label.thread = some result ∧
      WeakOutcome w.state call result weakRefs memory := by
  rcases entering_step hc hstep with hstalls | hruns
  · exact Or.inl hstalls
  · right
    cases hruns with
    | returns hco hrun hw =>
      obtain ⟨value,weakRefs,memory,rfl,rfl,houtcome⟩ := (meets_weakCall h _ _).returns hrun
      refine ⟨_,_,_,_,hco.sameHeap,?_,?_,?_,?_,houtcome.congr hco.sameHeap⟩
      · rw [hw, proceed_state]
        rfl
      · rw [hw, proceed_log]
        exact List.append_nil _
      · rw [hw, proceed_control, Function.update_self]
        exact resumed_user hu
      · rw [hw]
        exact deliver_result hu _
    | throws hco hrun hw =>
      obtain ⟨rfl,houtcome⟩ := (meets_weakCall h _ _).throws hrun
      refine ⟨_,_,_,_,hco.sameHeap,?_,?_,?_,?_,houtcome.congr hco.sameHeap⟩
      · rw [hw, deliver_state]
        rfl
      · rw [hw, deliver_log]
        rfl
      · rw [hw, deliver_control, Function.update_self]
        exact resumed_user hu
      · rw [hw]
        exact deliver_result hu _
    | prologueThrows hcall hw =>
      subst hcall
      cases h

end

/-! ## One entry of the registry -/

section
variable {storage : ℕ} {weakRefs : List WeakRefEntry}

end
end GcLib.Protocol
