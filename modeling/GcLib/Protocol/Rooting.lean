import GcLib.Protocol.Expiry
import GcLib.Protocol.Registrations

/-! # Rooted blocks

A block stays registered while a registered root range holds a pointer into it, and while a
registered thread has not parked since it got hold of the block, as no window completes before
every other registered thread is parked. Only a shutdown and a withdrawal by hand go past this.
-/

namespace GcLib.Protocol
open GcLib.Heap GcLib.Support

/-- Some registered root range holds a pointer into the block. -/
def RootsInto (s : State) (b : BlockRecord) : Prop :=
  ∃ range ∈ s.registeredRootRanges, ∃ word ∈ rangeWords s.memory range.begin_ range.end_,
    b.Contains word

/-- The thread is registered and not parked. -/
def Unparked (s : State) (thread : ThreadId) : Prop :=
  ∃ state, s.threads.find? thread = some state ∧ state.stackBottom ≠ 0 ∧
    state.pausedForCollection = false

/-- A step neither shuts the manager down nor withdraws the block. -/
structure SparesBlock (b : BlockRecord) (label : Label) (w : World) : Prop where
  shutdown : ∀ rest, w.control label.thread ≠ .waiting .shutdown :: rest
  release : ∀ stage rest,
    w.control label.thread ≠ .entering (.call (.releaseUnconstructed b.payloadBegin)) stage :: rest

section
variable {w w' : World} {label : Label} {thread : ThreadId} {b : BlockRecord}

theorem unparked_congr {s s' : State} (h : s'.threads.find? thread = s.threads.find? thread) :
    Unparked s' thread ↔ Unparked s thread := by
  unfold Unparked
  rw [h]

theorem ReachableWorld.unparked (h : ReachableWorld w)
    (hr : w.state.isRegistered thread = true) (hu : inUserCode (w.control thread) = true) :
    Unparked w.state thread := by
  obtain ⟨state,hf,hb⟩ := isRegistered_iff.mp hr
  have hp : parkedAtTop (w.control thread) = false := (inUserCode_stack hu).1
  exact ⟨state,hf,hb,(((h.invariant.protocol.thread thread).unpaused hp).paused state hf).1⟩

theorem ReachableWorld.record (h : ReachableWorld w) (hstep : step label w = some w')
    (hne : thread ≠ label.thread) :
    w'.state.threads.find? thread = w.state.threads.find? thread :=
  (((step_transition hstep).stepInvariant h.invariant.protocol h.invariant.heap).others thread
    hne).record

theorem ReachableWorld.not_window (h : ReachableWorld w) (hstep : step label w = some w')
    (hne : thread ≠ label.thread) (hunparked : Unparked w.state thread) {blocks : List ℕ}
    {rest : List Frame} : w'.control label.thread ≠ .destroying blocks blocks :: rest := by
  intro hc
  have h' : ReachableWorld w' := h.step hstep
  have hp := h'.invariant.protocol
  have howner := (hp.thread label.thread).owner_of_mem (hc ▸ List.mem_cons_self) rfl
  have hpast : (w'.control label.thread).any Frame.pastWait = true := by
    rw [hc]
    rfl
  obtain ⟨state,hf,hb,hpaused⟩ := hunparked
  rw [← h.record hstep hne] at hf
  have := othersPaused_iff.mp (hp.stopped _ howner hpast) thread hne state hf hb
  rw [hpaused] at this
  cases this

/-- What a step takes out of the registry it withdraws, or a window does not keep it. -/
theorem ReachableWorld.kept (h : ReachableWorld w) (hstep : step label w = some w')
    (hb : b ∈ w.state.allocations.values) (hspares : SparesBlock b label w)
    (hwindow : ∀ rest blocks env, w.control label.thread = .waiting .collect :: rest →
      w'.control label.thread = .destroying blocks blocks :: rest →
      WindowEffect label.thread env w.state .collect (.destroy blocks) w'.state →
        b ∈ w'.state.allocations.values) :
    w'.state.live (w.state.serial b.header) = true := by
  rw [h.live_iff_registered hstep hb]
  have hsame : ∀ {s : State}, w'.state.allocations = s.allocations →
      s.allocations = w.state.allocations → b.header ∈ registered w'.state := by
    intro s ha hs
    exact mem_registered.mpr ⟨b,by rwa [ha, hs],rfl⟩
  cases h.heapChange hstep with
  | quiet ha => exact hsame ha rfl
  | window hc he hc' hl =>
    rename_i call rest env blocks
    clear hl
    cases call with
    | shutdown => exact absurd hc (hspares.shutdown rest)
    | collect => exact mem_registered.mpr ⟨b,hwindow rest blocks env hc hc' he,rfl⟩
    | _ => generalize w'.state = s' at he; cases he
  | «section» hc hco he hc' hl =>
    rename_i code stage rest s next
    clear hl
    have hs := hco.sameHeap
    have hheap := hs.heapInvariant h.invariant.heap
    have hpublish := hco.registrable h.invariant.ownership hc
    have hbs : b ∈ s.allocations.values := hs.allocations ▸ hb
    generalize w'.state = s' at he hsame ⊢
    cases he with
    | publish hreg hm ht =>
      obtain ⟨⟨chunk,hchunk⟩,hnew⟩ := hpublish _ _ rfl
      exact mem_registered.mpr
        ⟨b,(hheap.publish_values hchunk hnew _).mem_iff.mpr (List.mem_cons_of_mem _ hbs),rfl⟩
    | finish hf =>
      rw [registered, State.headers_setConstructing]
      exact List.mem_map_of_mem hbs
    | release hreg hf =>
      rename_i payload block
      have hmem := OrderedMap.find?_eq_some.mp hf
      have hlive : block ∈ s.allocations.values := OrderedMap.mem_values.mpr ⟨_,hmem⟩
      have hremoved := HeapInvariant.removed_removeBlock s block
      refine mem_registered.mpr
        ⟨b,(hremoved.mem_values hheap (by simpa using hlive)).mpr ⟨hbs,?_⟩,rfl⟩
      rw [List.mem_singleton]
      rintro rfl
      have hkey := hheap.key _ _ hmem
      subst hkey
      exact hspares.release _ _ hc
    | _ => exact mem_registered.mpr ⟨b,hbs,rfl⟩

theorem ReachableWorld.rooted (h : ReachableWorld w) (hstep : step label w = some w')
    (hb : b ∈ w.state.allocations.values) (hspares : SparesBlock b label w)
    (hroots : RootsInto w.state b) : w'.state.live (w.state.serial b.header) = true := by
  refine h.kept hstep hb hspares fun rest blocks env _ _ he => ?_
  obtain ⟨range,hrange,word,hword,hcontains⟩ := hroots
  generalize w'.state = s' at he ⊢
  cases he with
  | collect hcollected =>
    have hroot : MarkRoot w.state label.thread env b := ⟨hb,Or.inr ⟨word,.range hrange hword,hcontains⟩⟩
    exact (hcollected.mem_values h.invariant.heap b).mpr ⟨b,hroot,.refl⟩

/-- Nothing that a thread got hold of is collected before the thread parks. -/
theorem ReachableWorld.in_hand (h : ReachableWorld w) (hstep : step label w = some w')
    (hb : b ∈ w.state.allocations.values) (hspares : SparesBlock b label w)
    (hne : thread ≠ label.thread) (hunparked : Unparked w.state thread) :
    w'.state.live (w.state.serial b.header) = true :=
  h.kept hstep hb hspares fun _ _ _ _ hc' _ => absurd hc' (h.not_window hstep hne hunparked)

theorem rangeCall_sameHeap {begin_ end_ : ℕ} {c : Call} {stage : Stage} {below : List Frame}
    (hcall : c = .registerRootRange begin_ end_ ∨ c = .unregisterRootRange begin_ end_)
    (hc : w.control label.thread = .entering (.call c) stage :: below)
    (hstep : step label w = some w') : SameHeap w.state w'.state := by
  rcases entering_step hc hstep with ⟨hs,-⟩ | hruns
  · exact hs
  · rcases hcall with rfl | rfl
    · cases hruns with
      | returns hco hrun hw =>
        obtain ⟨-,rfl⟩ := (meets_registerRootRange _ _ _).returns hrun
        rw [hw, proceed_state]
        exact hco.sameHeap
      | throws hco hrun hw => exact ((meets_registerRootRange _ _ _).throws hrun).elim
      | prologueThrows hcall hw =>
        rw [hw, deliver_state]
        exact rfl
    · cases hruns with
      | returns hco hrun hw =>
        obtain ⟨-,rfl⟩ := (meets_unregisterRootRange _ _ _).returns hrun
        rw [hw, proceed_state]
        exact hco.sameHeap
      | throws hco hrun hw => exact ((meets_unregisterRootRange _ _ _).throws hrun).elim
      | prologueThrows hcall hw => cases hcall

theorem rootsInto_of_word {s : State} {storage : ℕ} (h₀ : storage ≠ 0)
    (haligned : storage % wordSize = 0)
    (hrange : rootRange storage (storage+wordSize) ∈ s.registeredRootRanges)
    (hcontains : b.Contains (readWord s.memory storage)) : RootsInto s b := by
  have hle : storage ≤ storage+wordSize := Nat.le_add_right ..
  have heq : rootRange storage (storage+wordSize) = ⟨storage,storage+wordSize⟩ :=
    if_neg (Nat.not_lt.mpr hle)
  rw [heq] at hrange
  refine ⟨_,hrange,_,?_,hcontains⟩
  have hne : ¬ (storage = 0 ∨ storage+wordSize = 0) := by omega
  rw [rangeWords, if_neg hne, Nat.min_eq_left hle, Nat.max_eq_right hle]
  exact List.mem_map_of_mem (mem_alignedWords.mpr ⟨haligned,le_refl _,le_refl _⟩)

end
end GcLib.Protocol
