import GcLib.Client.RootHandles
import GcLib.Protocol.Registrations

/-! # The ledger of root ranges

Every `gc_root` owns the range of its own storage, an engaged scoped handle the range it was
given, and a registration by hand its range. What an operation registers it holds, until it
gives it to a handle or unregisters it.
-/

namespace GcLib.Client
open GcLib.Heap GcLib.Support GcLib.Protocol Relation

/-- The range of an object, which is not registered for a null pointer. -/
def objectRange (object size : ℕ) : List RootRange :=
  if object = 0 then [] else [rootRange object (object+size)]

def RootOwner.owned : RootOwner → List RootRange
  | .root this => objectRange this wordSize
  | .range handle => if handle.registered then [rootRange handle.begin_ handle.end_] else []
  | .object handle => objectRange handle.object handle.size
  | .manual extent => [extent]

/-- A registration past its start has published its range already. -/
def rangeRule (c : Call) (stage : Stage) (held : List RootRange)
    (post : CallRecord → List RootRange → Prop) : Prop :=
  match c with
  | .registerRootRange begin_ end_ =>
    if emptyRange begin_ end_ then ∀ before, post ⟨c,before,.ok .unit⟩ held
    else if stage = .enter then
      (∀ before, post ⟨c,before,.ok .unit⟩ (rootRange begin_ end_ :: held)) ∧
        ∀ before e, post ⟨c,before,.error e⟩ held
    else ∀ before, post ⟨c,before,.ok .unit⟩ held
  | .unregisterRootRange begin_ end_ =>
    if emptyRange begin_ end_ then ∀ before, post ⟨c,before,.ok .unit⟩ held
    else ∃ held', held.Perm (rootRange begin_ end_ :: held') ∧
      ∀ before, post ⟨c,before,.ok .unit⟩ held'
  | _ => False

section
variable (Asks : RootOperation → List RootOwner → List RootOperation → Prop)
  (Admits : List RootOwner → List RootOperation → Label → World → Prop)

def rootLedger : Ledger (rootInterface Asks Admits) RootRange where
  owned := RootOwner.owned
  fresh _ _ := []
  Spent _ := False
  Concerns _ _ _ := True
  Registry w parts := w.state.registeredRootRanges.Perm parts
  CallRule c stage held _ post := rangeRule c stage held post
  LoadRule _ held _ post := ∀ word, post word held
  StoreRule _ _ held _ post := post held

end

section
variable {Asks : RootOperation → List RootOwner → List RootOperation → Prop}
  {Admits : List RootOwner → List RootOperation → Label → World → Prop}
  {thread : ThreadId} {operation : RootOperation} {trace : Trace} {held held' : List RootRange}
  {begin_ end_ object size : ℕ} {f : Unit → Program (Trace → List RootOwner)}

/-! ## Operations keep to the rules -/

theorem within_rootLedger : (rootLedger Asks Admits).Within thread operation held := fun _ _ => trivial

theorem covers_rootLedger {handles : List RootOwner}
    (h : held.Perm (handles.flatMap RootOwner.owned)) :
    (rootLedger Asks Admits).Covers held handles := ⟨[],h,nofun⟩

theorem immediate_registerRootRange (begin_ end_ : ℕ) :
    Call.immediate (.registerRootRange begin_ end_) =
      if emptyRange begin_ end_ then some (.ok .unit) else none := by
  unfold Call.immediate emptyRange
  rfl

theorem immediate_unregisterRootRange (begin_ end_ : ℕ) :
    Call.immediate (.unregisterRootRange begin_ end_) =
      if emptyRange begin_ end_ then some (.ok .unit) else none := by
  unfold Call.immediate emptyRange
  rfl

theorem undone_nil : ∀ event ∈ ([] : Trace), event.Undone operation.constructs :=
  fun _ hevent => absurd hevent List.not_mem_nil

theorem undone_stored {address value : ℕ} (h : address ∈ operation.constructs) :
    ∀ event ∈ [] ++ [OperationEvent.stored address value],
      event.Undone operation.constructs := by
  intro event hevent
  obtain rfl := List.mem_singleton.mp hevent
  exact h

/-- The first call of an operation registers a range, or fails and ends the operation. -/
theorem outline_registerRootRange (hne : ¬ emptyRange begin_ end_)
    (htakes : held.Perm (operation.takes.flatMap RootOwner.owned))
    (hundone : ∀ event ∈ trace, event.Undone operation.constructs)
    (hok : ∀ trace, (rootLedger Asks Admits).Outline thread operation trace (f ())
      (rootRange begin_ end_ :: held)) :
    (rootLedger Asks Admits).Outline thread operation trace (registerRootRange begin_ end_ >>= f)
      held := by
  refine ⟨within_rootLedger,?_⟩
  simp only [rootLedger, rangeRule, if_neg hne, if_true]
  refine ⟨fun before => hok _,fun before e => ⟨within_rootLedger,covers_rootLedger htakes,?_⟩⟩
  intro event hevent
  rcases List.mem_append.mp hevent with hevent | hevent
  · exact hundone event hevent
  · obtain rfl := List.mem_singleton.mp hevent
    rfl

theorem outline_unregisterRootRange (hne : ¬ emptyRange begin_ end_)
    (hheld : held.Perm (rootRange begin_ end_ :: held'))
    (hok : ∀ trace, (rootLedger Asks Admits).Outline thread operation trace (f ()) held') :
    (rootLedger Asks Admits).Outline thread operation trace (unregisterRootRange begin_ end_ >>= f)
      held := by
  refine ⟨within_rootLedger,?_⟩
  simp only [rootLedger, rangeRule, if_neg hne]
  exact ⟨held',hheld,fun before => hok _⟩

theorem outline_emptyRegistration (hempty : emptyRange begin_ end_)
    (hok : ∀ trace, (rootLedger Asks Admits).Outline thread operation trace (f ()) held) :
    (rootLedger Asks Admits).Outline thread operation trace (registerRootRange begin_ end_ >>= f)
      held := by
  refine ⟨within_rootLedger,?_⟩
  simp only [rootLedger, rangeRule, if_pos hempty]
  exact fun before => hok _

theorem outline_emptyUnregistration (hempty : emptyRange begin_ end_)
    (hok : ∀ trace, (rootLedger Asks Admits).Outline thread operation trace (f ()) held) :
    (rootLedger Asks Admits).Outline thread operation trace (unregisterRootRange begin_ end_ >>= f)
      held := by
  refine ⟨within_rootLedger,?_⟩
  simp only [rootLedger, rangeRule, if_pos hempty]
  exact fun before => hok _

theorem outline_registerRootObject (hsize : 0 < size)
    (htakes : held.Perm (operation.takes.flatMap RootOwner.owned))
    (hundone : ∀ event ∈ trace, event.Undone operation.constructs)
    (hok : ∀ trace, (rootLedger Asks Admits).Outline thread operation trace (f ())
      (objectRange object size ++ held)) :
    (rootLedger Asks Admits).Outline thread operation trace (registerRootObject object size >>= f)
      held := by
  unfold registerRootObject
  unfold objectRange at hok
  split_ifs at hok ⊢ with hobject
  · exact hok trace
  · refine outline_registerRootRange ?_ htakes hundone hok
    unfold emptyRange
    omega

theorem outline_unregisterRootObject (hsize : 0 < size)
    (hheld : held.Perm (objectRange object size ++ held'))
    (hok : ∀ trace held, held.Perm held' →
      (rootLedger Asks Admits).Outline thread operation trace (f ()) held) :
    (rootLedger Asks Admits).Outline thread operation trace (unregisterRootObject object size >>= f)
      held := by
  unfold unregisterRootObject
  unfold objectRange at hheld
  split_ifs at hheld ⊢ with hobject
  · exact hok trace held hheld
  · refine outline_unregisterRootRange ?_ hheld fun trace => hok trace held' (List.Perm.refl _)
    unfold emptyRange
    omega

/-- A reset registers the new range before it unregisters the old one. -/
theorem outline_resetRange {handle : ScopedRootRange}
    {g : ScopedRootRange → Program (Trace → List RootOwner)}
    (htakes : held.Perm (operation.takes.flatMap RootOwner.owned))
    (hheld : held.Perm (RootOwner.owned (.range handle) ++ held'))
    (hok : ∀ trace held, let handle' := ⟨handle.this,begin_,end_,¬ emptyRange begin_ end_,
        of_decide_eq_true⟩
      held.Perm (RootOwner.owned (.range handle') ++ held') →
        (rootLedger Asks Admits).Outline thread operation trace (g handle') held) :
    (rootLedger Asks Admits).Outline thread operation [] (handle.reset begin_ end_ >>= g) held := by
  unfold ScopedRootRange.reset
  simp only [Program.bind_assoc, Program.pure_eq, Program.returns_bind]
  have hrest : ∀ trace held₁ held₂, held₁.Perm (RootOwner.owned (.range handle) ++ held₂) →
      held₂.Perm (RootOwner.owned (.range ⟨handle.this,begin_,end_,¬ emptyRange begin_ end_,
        of_decide_eq_true⟩) ++ held') →
      (rootLedger Asks Admits).Outline thread operation trace
        (whenever handle.registered (unregisterRootRange handle.begin_ handle.end_) >>= fun _ =>
          g ⟨handle.this,begin_,end_,¬ emptyRange begin_ end_,of_decide_eq_true⟩) held₁ := by
    intro trace held₁ held₂ hheld₁ hheld₂
    simp only [RootOwner.owned] at hheld₁
    unfold whenever
    split_ifs at hheld₁ ⊢ with hregistered
    · exact outline_unregisterRootRange (handle.nonempty hregistered) hheld₁
        fun trace => hok trace held₂ hheld₂
    · exact hok trace held₁ (hheld₁.trans hheld₂)
  unfold whenever
  by_cases hempty : emptyRange begin_ end_
  · rw [if_neg (by simpa using hempty)]
    refine hrest [] held held' hheld ?_
    simp [RootOwner.owned, hempty]
  · rw [if_pos (by simpa using hempty)]
    refine outline_registerRootRange hempty htakes undone_nil fun trace => ?_
    refine hrest trace _ (rootRange begin_ end_ :: held') ?_ ?_
    · exact (hheld.cons _).trans List.perm_middle.symm
    · simp [RootOwner.owned, hempty]

/-- The same for objects. -/
theorem outline_resetObject {handle : ScopedRootObject}
    {g : ScopedRootObject → Program (Trace → List RootOwner)}
    (htakes : held.Perm (operation.takes.flatMap RootOwner.owned))
    (hheld : held.Perm (objectRange handle.object handle.size ++ held'))
    (hok : ∀ trace held, held.Perm (objectRange object handle.size ++ held') →
      (rootLedger Asks Admits).Outline thread operation trace (g { handle with object := object })
        held) :
    (rootLedger Asks Admits).Outline thread operation [] (handle.reset object >>= g) held := by
  unfold ScopedRootObject.reset
  simp only [Program.bind_assoc, Program.pure_eq, Program.returns_bind]
  have hrest : ∀ trace held₁ held₂, held₁.Perm (objectRange handle.object handle.size ++ held₂) →
      held₂.Perm (objectRange object handle.size ++ held') →
      (rootLedger Asks Admits).Outline thread operation trace
        (whenever (handle.object ≠ 0) (unregisterRootObject handle.object handle.size) >>= fun _ =>
          g { handle with object := object }) held₁ := by
    intro trace held₁ held₂ hheld₁ hheld₂
    unfold whenever
    split_ifs with hobject
    · exact outline_unregisterRootObject handle.size_pos hheld₁
        fun trace held hheld => hok trace held (hheld.trans hheld₂)
    · refine hok trace held₁ (hheld₁.trans ?_)
      simpa [objectRange, show handle.object = 0 by simpa using hobject] using hheld₂
  unfold whenever
  by_cases hobject : object = 0
  · rw [if_neg (by simpa using hobject)]
    refine hrest [] held held' hheld ?_
    simp [objectRange, hobject]
  · rw [if_pos (by simpa using hobject)]
    refine outline_registerRootObject handle.size_pos htakes undone_nil fun trace => ?_
    refine hrest trace _ (objectRange object handle.size ++ held') ?_ (List.Perm.refl _)
    refine (hheld.append_left _).trans ?_
    rw [← List.append_assoc, ← List.append_assoc]
    exact List.perm_append_comm.append_right _

/-- What is left of an operation that has done its calls. -/
theorem outline_done {handles : List RootOwner}
    (h : held.Perm (handles.flatMap RootOwner.owned)) :
    (rootLedger Asks Admits).Outline thread operation trace (pure fun _ => handles) held :=
  ⟨within_rootLedger,covers_rootLedger h⟩

theorem outline_writeWord {address value : ℕ}
    (h : (rootLedger Asks Admits).Outline thread operation (trace ++ [.stored address value]) (f ())
      held) :
    (rootLedger Asks Admits).Outline thread operation trace (Program.writeWord address value >>= f)
      held :=
  ⟨within_rootLedger,h⟩

theorem outline_readWord {address : ℕ} {g : ℕ → Program (Trace → List RootOwner)}
    (h : ∀ word, (rootLedger Asks Admits).Outline thread operation trace (g word) held) :
    (rootLedger Asks Admits).Outline thread operation trace (Program.readWord address >>= g) held :=
  ⟨within_rootLedger,h⟩

theorem outline_rootOperation (hw : operation.WellTyped) :
    (rootLedger Asks Admits).Outline thread operation [] operation.code
      (operation.takes.flatMap RootOwner.owned) := by
  have hword : 0 < wordSize := by decide
  have hself : ∀ ranges : List RootRange, ranges.Perm ranges := List.Perm.refl
  cases operation with
  | constructRoot this pointer =>
    simp only [RootOperation.code, GcRoot.construct, Program.bind_assoc]
    apply outline_writeWord
    exact outline_registerRootObject hword (hself _) (undone_stored (List.mem_singleton_self _))
      fun trace => outline_done (hself _)
  | copyConstructRoot this other =>
    simp only [RootOperation.code, GcRoot.copyConstruct, Program.bind_assoc]
    refine outline_readWord fun word => outline_writeWord ?_
    exact outline_registerRootObject hword (hself _) (undone_stored (List.mem_singleton_self _))
      fun trace => outline_done (hself _)
  | moveConstructRoot this other =>
    simp only [RootOperation.code, GcRoot.moveConstruct, Program.bind_assoc]
    refine outline_readWord fun word => outline_writeWord ?_
    refine outline_registerRootObject hword (hself _) (undone_stored (List.mem_singleton_self _))
      fun trace => ?_
    exact outline_writeWord (outline_done (hself _))
  | destroyRoot this =>
    refine outline_unregisterRootObject hword (hself _) fun trace held hheld => ?_
    exact outline_done hheld
  | copyAssignRoot this other =>
    simp only [RootOperation.code, GcRoot.copyAssign]
    split_ifs
    · exact outline_readWord fun word => outline_writeWord (outline_done (hself _))
    · exact outline_done (hself _)
  | moveAssignRoot this other =>
    simp only [RootOperation.code, GcRoot.moveAssign, RootOperation.takes]
    split_ifs
    · simp only [Program.bind_assoc]
      refine outline_readWord fun word => outline_writeWord (outline_writeWord ?_)
      exact outline_done (hself _)
    · exact outline_done (hself _)
  | assignRoot this pointer => exact outline_writeWord (outline_done (hself _))
  | defaultRange this => exact outline_done (hself _)
  | constructRange this begin_ end_ =>
    exact outline_resetRange (hself _) (hself _) fun trace held hheld => outline_done hheld
  | moveConstructRange this other =>
    apply outline_done
    simp [RootOperation.takes, ScopedRootRange.moveConstruct, ScopedRootRange.empty,
      RootOwner.owned]
  | destroyRange handle =>
    refine outline_resetRange (hself _) (hself _) fun trace held hheld => outline_done ?_
    simpa [RootOwner.owned, emptyRange] using hheld
  | moveAssignRange handle other =>
    simp only [RootOperation.code, ScopedRootRange.moveAssign, RootOperation.takes]
    split_ifs with hne
    · simp only [Program.bind_assoc]
      refine outline_resetRange (by rw [RootOperation.takes, if_pos hne]) (hself _)
        fun trace held hheld => outline_done ?_
      simpa [RootOwner.owned, emptyRange, ScopedRootRange.empty] using hheld
    · exact outline_done (hself _)
  | resetRange handle begin_ end_ =>
    exact outline_resetRange (hself _) (hself _) fun trace held hheld => outline_done hheld
  | defaultObject this size size_pos => exact outline_done (hself _)
  | constructObject this size object size_pos =>
    exact outline_resetObject (hself _) (hself _) fun trace held hheld => outline_done hheld
  | moveConstructObject this other =>
    apply outline_done
    simp [RootOperation.takes, ScopedRootObject.moveConstruct, RootOwner.owned, objectRange]
  | destroyObject handle =>
    refine outline_resetObject (hself _) (hself _) fun trace held hheld => outline_done ?_
    simpa [objectRange] using hheld
  | moveAssignObject handle other =>
    simp only [RootOperation.code, ScopedRootObject.moveAssign, RootOperation.takes]
    split_ifs with hne
    · simp only [Program.bind_assoc]
      refine outline_resetObject (by rw [RootOperation.takes, if_pos hne]) (hself _)
        fun trace held hheld => outline_done ?_
      simpa [RootOwner.owned, objectRange, hw.1] using hheld
    · exact outline_done (hself _)
  | resetObject handle object =>
    exact outline_resetObject (hself _) (hself _) fun trace held hheld => outline_done hheld
  | register begin_ end_ =>
    simp only [RootOperation.code]
    by_cases hempty : emptyRange begin_ end_
    · apply outline_emptyRegistration hempty
      simp only [manualRange, if_pos hempty]
      exact fun trace => outline_done (hself _)
    · refine outline_registerRootRange hempty (hself _) undone_nil fun trace => outline_done ?_
      simp only [manualRange, if_neg hempty]
      exact hself _
  | unregister begin_ end_ =>
    simp only [RootOperation.code, RootOperation.takes, manualRange]
    by_cases hempty : emptyRange begin_ end_
    · rw [if_pos hempty]
      exact outline_emptyUnregistration hempty fun trace => outline_done (hself _)
    · rw [if_neg hempty]
      exact outline_unregisterRootRange hempty (hself _) fun trace => outline_done (hself _)

/-! ## The rules are those of the manager -/

section
variable {w w' : World} {thread : ThreadId} {choice : Choice} {c : Call} {stage : Stage}
  {below : List Frame} {others : List RootRange} {post : CallRecord → List RootRange → Prop}

/-- A call that is held up may have published its range. -/
theorem rangeRule_waits {stage' : Stage} (hr : ReachableWorld w) (hu : inUserCode below = true)
    (hc : w.control thread = .entering (.call c) stage :: below)
    (hstep : step (.run thread choice) w = some w')
    (hc' : w'.control thread = .entering (.call c) stage' :: below)
    (hrule : rangeRule c stage held post)
    (hregistry : w.state.registeredRootRanges.Perm (held ++ others)) :
    ∃ held', rangeRule c stage' held' post ∧
      w'.state.registeredRootRanges.Perm (held' ++ others) := by
  have hne : ∀ {frame : Frame}, frame :: below ≠ below := fun {_} => List.cons_ne_self _ _
  cases c with
  | registerRootRange begin_ end_ =>
    have hvalid := hr.immediate_of_entering hc
    have hempty : ¬ emptyRange begin_ end_ := by
      intro hempty
      rw [immediate_registerRootRange, if_pos hempty] at hvalid
      cases hvalid
    simp only [rangeRule, if_neg hempty] at hrule ⊢
    rcases registerRootRange_step (.run thread choice) hu hc hstep with
      ⟨-,-,hdone,-⟩ | ⟨hranges,⟨stage'',hstage,hcontrol⟩ | ⟨hdone,-⟩⟩
    · exact absurd (hc'.symm.trans hdone) hne
    · obtain rfl : stage'' = stage' := by
        have he := hcontrol.symm.trans hc'
        cases he
        rfl
      rw [hranges, publishedRanges]
      simp only [if_neg hstage]
      split_ifs at hrule ⊢ with henter
      · refine ⟨rootRange begin_ end_ :: held,hrule.1,?_⟩
        exact List.perm_append_singleton _ _ |>.trans (hregistry.cons _)
      · exact ⟨held,hrule,hregistry⟩
    · exact absurd (hc'.symm.trans hdone) hne
  | unregisterRootRange begin_ end_ =>
    rcases unregisterRootRange_step (.run thread choice) hu hc hstep with
      ⟨hranges,-⟩ | ⟨-,hdone,-⟩
    · exact ⟨held,hrule,hranges ▸ hregistry⟩
    · exact absurd (hc'.symm.trans hdone) hne
  | _ => exact hrule.elim

theorem rangeRule_returns {result : Except GCError Value} (hr : ReachableWorld w)
    (hu : inUserCode below = true) (hc : w.control thread = .entering (.call c) stage :: below)
    (hstep : step (.run thread choice) w = some w') (hc' : w'.control thread = below)
    (hresult : w'.result thread = some result) (hrule : rangeRule c stage held post)
    (hregistry : w.state.registeredRootRanges.Perm (held ++ others)) :
    ∃ held', post ⟨c,w.state,result⟩ held' ∧
      w'.state.registeredRootRanges.Perm (held' ++ others) := by
  have hne : ∀ {frame : Frame}, frame :: below ≠ below := fun {_} => List.cons_ne_self _ _
  have hvalid := hr.immediate_of_entering hc
  cases c with
  | registerRootRange begin_ end_ =>
    have hempty : ¬ emptyRange begin_ end_ := by
      intro hempty
      rw [immediate_registerRootRange, if_pos hempty] at hvalid
      cases hvalid
    simp only [rangeRule, if_neg hempty] at hrule
    rcases registerRootRange_step (.run thread choice) hu hc hstep with
      ⟨henter,hstate,-,e,he⟩ | ⟨hranges,⟨stage',-,hcontrol⟩ | ⟨-,hok⟩⟩
    · rw [if_pos henter] at hrule
      obtain rfl := Option.some.inj (hresult.symm.trans he)
      exact ⟨held,hrule.2 w.state e,hstate ▸ hregistry⟩
    · exact absurd (hcontrol.symm.trans hc') hne
    · obtain rfl := Option.some.inj (hresult.symm.trans hok)
      rw [hranges, publishedRanges]
      split_ifs at hrule ⊢ with henter
      · refine ⟨rootRange begin_ end_ :: held,hrule.1 w.state,?_⟩
        exact (List.perm_append_singleton _ _).trans (hregistry.cons _)
      · exact ⟨held,hrule w.state,hregistry⟩
  | unregisterRootRange begin_ end_ =>
    have hempty : ¬ emptyRange begin_ end_ := by
      intro hempty
      rw [immediate_unregisterRootRange, if_pos hempty] at hvalid
      cases hvalid
    simp only [rangeRule, if_neg hempty] at hrule
    obtain ⟨held',hheld,hpost⟩ := hrule
    rcases unregisterRootRange_step (.run thread choice) hu hc hstep with
      ⟨-,stage',hcontrol⟩ | ⟨hranges,-,hok⟩
    · exact absurd (hcontrol.symm.trans hc') hne
    · obtain rfl := Option.some.inj (hresult.symm.trans hok)
      refine ⟨held',hpost w.state,?_⟩
      rw [hranges]
      have hall := (hregistry.trans (hheld.append_right others)).erase (rootRange begin_ end_)
      rwa [List.cons_append, List.erase_cons_head] at hall
  | _ => exact hrule.elim

end

theorem sound_rootLedger : (rootLedger Asks Admits).Sound where
  outline hpromised _ := outline_rootOperation hpromised.1
  initial _ := List.Perm.refl _
  perm h hperm := h.trans hperm
  congr {w w' parts} h hstate _ := by
    change w'.state.registeredRootRanges.Perm parts
    rw [hstate]
    exact h
  fresh _ _ _ _ h := h
  spent {w spent parts} hspent h := by
    cases spent with
    | nil => exact h
    | cons part _ => exact (hspent part List.mem_cons_self).elim
  outside {w w' parts label handles tasks} hr _ _ _ hfree hstep h := by
    cases hr.rangeChange hstep with
    | same hsame =>
      change w'.state.registeredRootRanges.Perm parts
      rw [hsame]
      exact h
    | publishes hc => exact Bool.noConfusion (hfree _ _ _ hc)
    | erases hc => exact Bool.noConfusion (hfree _ _ _ hc)
  immediate {w w' held others borrowed thread c result post} hr hreserved hi hstep hrule _ h := by
    obtain rfl := step_immediate hi hstep
    refine ⟨held,?_,h⟩
    change rangeRule c .enter held post at hrule
    cases c with
    | registerRootRange begin_ end_ =>
      rw [immediate_registerRootRange] at hi
      split_ifs at hi with hempty
      obtain rfl := Option.some.inj hi
      rw [rangeRule, if_pos hempty] at hrule
      exact hrule w.state
    | unregisterRootRange begin_ end_ =>
      rw [immediate_unregisterRootRange] at hi
      split_ifs at hi with hempty
      obtain rfl := Option.some.inj hi
      rw [rangeRule, if_pos hempty] at hrule
      exact hrule w.state
    | _ => exact hrule.elim
  waits hr _ _ _ hu hc hstep hc' hrule _ _ h := by
    obtain ⟨held',hrule',h'⟩ := rangeRule_waits hr hu hc hstep hc' hrule h
    exact ⟨held',hrule',within_rootLedger,h'⟩
  returns hr _ hu hc hstep hc' hresult hrule _ _ h :=
    rangeRule_returns hr hu hc hstep hc' hresult hrule h
  loads _ hrule _ h := ⟨_,hrule _,h⟩
  stores _ hrule _ h := ⟨_,hrule,h⟩

end
end GcLib.Client
