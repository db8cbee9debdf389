import GcLib.Protocol.Refinement

/-! # The manager is a store of objects

However the threads interleave, each step of the manager is an operation of the store of objects:
objects come to life apart from each other, cleared and under a new number, never move and never
come back, and a collection takes exactly those that the root words of its window do not lead to.
The bytes of an object are its own: they start cleared and read back what was last stored in them.
-/

namespace GcLib.Properties
open GcLib.Heap GcLib.Support GcLib.Protocol

section
variable {w w' : World} {label : Label}

theorem store_initial (memory : Memory) : (World.initial memory).store.Sound managedLayout := by
  have hlive : (World.initial memory).store.live = ∅ := by
    apply Set.eq_empty_of_forall_notMem
    rintro o ⟨b,hb,-⟩
    exact absurd hb List.not_mem_nil
  constructor
  · rintro o ⟨b,hb,-⟩
    exact absurd hb List.not_mem_nil
  · simp [hlive]
  · simp [hlive]
  · simp [hlive]
  · exact fun handle hh => absurd hh List.not_mem_nil

theorem store_sound (h : ReachableWorld w) : w.store.Sound managedLayout := by
  refine h.induction (P := fun w => w.store.Sound managedLayout) store_initial ?_
  intro label w w' hr hsound hstep
  obtain ⟨operation,-,hperforms⟩ := hr.performs hstep
  exact hperforms.sound hsound

/-- Every step from a reachable world is an operation of the store of objects. -/
theorem manager_refines_store {w : World} (h : ReachableWorld w) :
    w.store.Sound managedLayout ∧ ∀ label w', step label w = some w' →
      ∃ operation, Mirrors label w w' operation ∧
        w.store.Performs managedLayout operation w'.store :=
  ⟨store_sound h,fun _ _ hstep => h.performs hstep⟩

end

/-- The window of a collection, in which the one block is found in a register of its thread. -/
def keepingRun : List Label :=
  allocatingRun ++ [.user 0 (.storeByte 4130 7),.user 0 (.call .collect),.run 0 {}]

def keepingStep : Label := .run 0 { fuel := 50, env := { registers := [4128] } }

theorem manager_refines_store_keepingRun : ∃ operation,
    Mirrors keepingStep (worldAfter keepingRun) (worldAfter (keepingRun ++ [keepingStep]))
      operation ∧
      (worldAfter keepingRun).store.Performs managedLayout operation
        (worldAfter (keepingRun ++ [keepingStep])).store :=
  (manager_refines_store (reachable_worldAfter keepingRun)).2 keepingStep _
    (worldAfter_step keepingRun keepingStep (by decide +kernel))

/-! ## The bytes of a payload -/

/-- No weak handle covers the byte, and none is about to. -/
def NoHandleAt (x : ℕ) (label : Label) (w : World) : Prop :=
  (∀ entry ∈ w.state.weakRefs, ¬ (entry.storage ≤ x ∧ x < entry.storage+wordSize)) ∧
    ∀ storage ∈ handleWords w label.thread, ¬ (storage ≤ x ∧ x < storage+wordSize)

instance (x : ℕ) (label : Label) (w : World) : Decidable (NoHandleAt x label w) :=
  inferInstanceAs (Decidable (_ ∧ _))

/-- The byte after a step, if the step is no more than a store to it. -/
def stored (x : ℕ) (value : UInt8) : Label → UInt8
  | .user _ (.storeByte y value') => if y = x then value' else value
  | _ => value

/-- A step while no weak handle covers the byte. -/
def PlainStep (x : ℕ) (label : Label) (w w' : World) : Prop :=
  NoHandleAt x label w ∧ step label w = some w'

section
variable {w w' : World} {label : Label} {x : ℕ} {operation : Operation ManagedObject}

theorem bare_of_noHandleAt (h : NoHandleAt x label w) (hm : Mirrors label w w' operation) :
    Store.Bare managedLayout x operation w.store := by
  refine ⟨fun handle hh => h.1 _ hh,?_⟩
  rintro storages rfl storage hstorage
  cases hm with
  | acts hacts =>
    cases hacts with
    | point hc =>
      apply h.2
      rw [handleWords, hc]
      exact hstorage

/-- Only a store of user code is a write. -/
theorem written_eq_stored (hm : Mirrors label w w' operation) (hstep : step label w = some w')
    (value : UInt8) : operation.written x value = stored x value label := by
  have hquiet : ∀ {frame : Frame} {rest : List Frame}, w.control label.thread = frame :: rest →
      inUserCode (frame :: rest) = false → stored x value label = value := by
    intro frame rest hc hu
    cases label with
    | run => rfl
    | user thread action =>
      rw [← hc] at hu
      simp only [step, show inUserCode (w.control thread) = false from hu] at hstep
      cases hstep
  cases hm with
  | idle hn =>
    cases label with
    | run => rfl
    | user thread action =>
      cases action with
      | storeByte y value' => exact absurd (.write rfl) (hn (.write y value'))
      | _ => rfl
  | acts hacts =>
    cases hacts with
    | write hl =>
      rw [hl]
      rfl
    | scratch hc | allocate hc | unpin hc | point hc | collect _ hc | release hc | empty hc =>
      exact (hquiet hc rfl).symm

theorem reachable_plainStep (h : ReachableWorld w) (hstep : PlainStep x label w w') :
    ReachableWorld w' := h.step hstep.2

/-- The payload of a block is cleared when the block is registered. From then on, while no weak
handle covers it, a byte of the payload is what was last stored there, and the block is where it
was. -/
theorem payload_contents {w w' : World} (h : ReachableWorld w) :
    (∀ label, step label w = some w' → ∀ b ∈ w'.state.allocations.values,
      .registered (w'.state.serial b.header) ∉ w.log → ∀ x, b.Contains x →
        w'.state.memory x = 0) ∧
    ∀ x labels, Along (PlainStep x) labels w w' → ∀ b ∈ w'.state.allocations.values,
      .registered (w'.state.serial b.header) ∈ w.log → b.Contains x →
        (∃ b₀ ∈ w.state.allocations.values, objectOf w.state b₀ = objectOf w'.state b) ∧
          w'.state.memory x = labels.foldl (stored x) (w.state.memory x) := by
  constructor
  · intro label hstep b hb hnew x hx
    obtain ⟨operation,-,hperforms⟩ := h.performs hstep
    exact hperforms.zeroed (store_sound h) (objectOf_live hb) hnew hx
  · intro x labels hrun b hb hborn hx
    have hplain : ∀ label w w', ReachableWorld w → PlainStep x label w w' →
        ∃ operation, (∀ value : UInt8, operation.written x value = stored x value label) ∧
          Store.BareStep managedLayout x operation w.store w'.store := by
      rintro label w w' hr ⟨hplain,hstep⟩
      obtain ⟨operation,hmirrors,hperforms⟩ := hr.performs hstep
      exact ⟨operation,written_eq_stored hmirrors hstep,bare_of_noHandleAt hplain hmirrors,
        hperforms⟩
    have hsimulates := hrun.simulate World.store
      (fun label operation => ∀ value, Operation.written x value operation = stored x value label)
      (fun _ _ _ hr hstep => reachable_plainStep hr hstep) hplain h
    obtain ⟨operations,hmatch,hbare⟩ := hsimulates
    obtain ⟨hlive,hcontents⟩ := Store.contents_along hbare (objectOf_live hb) hborn hx
    exact ⟨hlive,hcontents.trans (foldl_matching hmatch _)⟩

end

/-- A byte that is stored before a collection is still there when the collection is over. -/
theorem payload_contents_keepingRun :
    (worldAfter (keepingRun ++ [keepingStep])).state.memory 4130 = 7 := by
  have hrun : Along (PlainStep 4130) [.user 0 (.storeByte 4130 7),.user 0 (.call .collect),
      .run 0 {},keepingStep] (worldAfter allocatingRun)
      (worldAfter (keepingRun ++ [keepingStep])) :=
    .cons ⟨by decide +kernel,worldAfter_step allocatingRun _ (by decide +kernel)⟩
      (.cons ⟨by decide +kernel,worldAfter_step (allocatingRun ++ [_]) _ (by decide +kernel)⟩
        (.cons ⟨by decide +kernel,worldAfter_step (allocatingRun ++ [_,_]) _ (by decide +kernel)⟩
          (.cons ⟨by decide +kernel,worldAfter_step keepingRun _ (by decide +kernel)⟩ (.nil _))))
  exact ((payload_contents (reachable_worldAfter allocatingRun)).2 4130 _ hrun
    ⟨4096,4128,4144,false⟩ (by decide +kernel) (by decide +kernel) (by decide)).2

end GcLib.Properties
