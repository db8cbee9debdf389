import GcLib.Client.StrongLedger

/-! # Operations on roots keep their books

Every operation of `gc_root` hands its value on without a gap: the word is written before its
range is published, and what the value came from is given up only afterwards.
-/

namespace GcLib.Client
open GcLib.Heap GcLib.Support GcLib.Protocol

/-- An outline of what only touches the roots of its operation. -/
def StrongPlan (thread : ThreadId) (operation : StrongOperation) (trace : Trace)
    (code : Program (Trace → List StrongHandle)) (held : List StrongPart) : Prop :=
  strongLedger.Within thread operation held → strongLedger.Outline thread operation trace code held

/-- What an operation may look at: what it holds, and the roots that it borrows. -/
def StrongOperation.sees (operation : StrongOperation) (held : List StrongPart) : List StrongPart :=
  held ++ operation.borrows.map .linked

section
variable {thread : ThreadId} {operation : StrongOperation} {trace : Trace}
  {held held' rest : List StrongPart} {part new : StrongPart} {handle : StrongHandle} {slot : Slot}
  {value : Option Origin} {f : Unit → Program (Trace → List StrongHandle)}
  {g : ℕ → Program (Trace → List StrongHandle)}

theorem borrowed_eq (operation : StrongOperation) :
    (strongInterface.borrows operation).flatMap strongLedger.owned =
      operation.borrows.map .linked :=
  List.flatMap_pure_eq_map ..

theorem strongWithin_perm (h : strongLedger.Within thread operation held)
    (hperm : held.Perm held') : strongLedger.Within thread operation held' :=
  fun part hpart => h part (hperm.mem_iff.mpr hpart)

theorem strongWithin_cons : strongLedger.Within thread operation (part :: rest) ↔
    strongLedger.Concerns thread operation part ∧ strongLedger.Within thread operation rest :=
  List.forall_mem_cons

/-- A part takes the place of another at the same word. -/
theorem StrongStore.concerns (h : StrongStore value part new)
    (hvalue : ∀ origin ∈ value, origin ∈ operation.origins)
    (hpart : strongLedger.Concerns thread operation part) :
    strongLedger.Concerns thread operation new := by
  cases h with
  | word => exact ⟨hpart.1,nofun,nofun⟩
  | root => exact ⟨hpart.1,hvalue,nofun⟩

namespace StrongPlan

theorem load (hmem : .linked handle ∈ operation.sees held)
    (hok : StrongPlan thread operation trace (g (pointerOf handle.origin)) held) :
    StrongPlan thread operation trace (Program.readWord handle.slot.address >>= g) held :=
  fun hw => ⟨hw,handle,rfl,borrowed_eq operation ▸ hmem,hok hw⟩

theorem store (hheld : held.Perm (part :: rest)) (hpart : part.slot = some slot)
    (hstore : StrongStore value part new) (hsourced : Sourced value (operation.sees held))
    (hvalue : ∀ origin ∈ value, origin ∈ operation.origins)
    (hok : StrongPlan thread operation (trace ++ [.stored slot.address (pointerOf value)]) (f ())
      (new :: rest)) :
    StrongPlan thread operation trace
      (Program.writeWord slot.address (pointerOf value) >>= f) held := by
  intro hw
  refine ⟨hw,slot,value,part,new,rest,rfl,rfl,hpart,hstore,hheld,borrowed_eq operation ▸ hsourced,?_⟩
  obtain ⟨hfirst,hrest⟩ := strongWithin_cons.mp (strongWithin_perm hw hheld)
  exact hok (strongWithin_cons.mpr ⟨hstore.concerns hvalue hfirst,hrest⟩)

theorem owned_eq (handles : List StrongHandle) :
    handles.flatMap strongLedger.owned = handles.map .linked :=
  List.flatMap_pure_eq_map ..

/-- The range of a new root is published, and the hands forgotten, or the operation throws. -/
theorem register (hands : List StrongPart)
    (hheld : held.Perm (.holds slot (pointerOf value) ::
      (hands ++ operation.takes.map .linked)))
    (hspent : ∀ part ∈ hands, part.Spent)
    (hsourced : Sourced value (operation.sees (hands ++ operation.takes.map .linked)))
    (hvalue : ∀ origin ∈ value, origin ∈ operation.origins)
    (htrace : ∀ event ∈ trace, event.Undone (strongInterface.constructs operation))
    (hok : ∀ trace, StrongPlan thread operation trace (f ())
      (.linked ⟨slot,value⟩ :: operation.takes.map .linked)) :
    StrongPlan thread operation trace (registerRootObject slot.address wordSize >>= f) held := by
  intro hw
  rw [registerRootObject, if_neg slot.address_ne]
  obtain ⟨hfirst,hrest⟩ := strongWithin_cons.mp (strongWithin_perm hw hheld)
  refine ⟨hw,slot,value,hands,operation.takes.map .linked,rfl,rfl,hheld,hspent,?_,?_,?_,?_⟩
  · intro part hpart
    obtain ⟨handle,-,rfl⟩ := List.mem_map.mp hpart
    rfl
  · exact borrowed_eq operation ▸ hsourced
  · intro before
    refine hok _ (strongWithin_cons.mpr ⟨⟨hfirst.1,hvalue,nofun⟩,fun part hpart => ?_⟩)
    exact hrest part (List.mem_append_right _ hpart)
  · intro before e
    refine ⟨hw,⟨.holds slot (pointerOf value) :: hands,?_,?_⟩,?_⟩
    · rw [show strongInterface.takes operation = operation.takes from rfl, owned_eq]
      exact hheld
    · exact List.forall_mem_cons.mpr ⟨trivial,hspent⟩
    · intro event hevent
      rcases List.mem_append.mp hevent with hevent | hevent
      · exact htrace event hevent
      · obtain rfl := List.mem_singleton.mp hevent
        rfl

theorem unregister (hheld : held.Perm (.linked handle :: rest))
    (hrest : Restful rest)
    (hok : ∀ trace, StrongPlan thread operation trace (f ()) (.loose handle.slot :: rest)) :
    StrongPlan thread operation trace
      (unregisterRootObject handle.slot.address wordSize >>= f) held := by
  intro hw
  rw [unregisterRootObject, if_neg handle.slot.address_ne]
  obtain ⟨hfirst,hwithin⟩ := strongWithin_cons.mp (strongWithin_perm hw hheld)
  refine ⟨hw,fun part hpart => ?_,handle,rest,rfl,rfl,hheld,fun before => ?_⟩
  · rcases List.mem_cons.mp (hheld.subset hpart) with rfl | hpart
    · rfl
    · exact hrest part hpart
  · exact hok _ (strongWithin_cons.mpr ⟨⟨hfirst.1,nofun,nofun⟩,hwithin⟩)

theorem done {handles : Trace → List StrongHandle} (spent : List StrongPart)
    (hheld : held.Perm (spent ++ (handles trace).map .linked))
    (hspent : ∀ part ∈ spent, part.Spent) :
    StrongPlan thread operation trace (pure handles) held := by
  intro hw
  refine ⟨hw,spent,?_,hspent⟩
  rwa [owned_eq]

end StrongPlan

/-! ## The operations -/

theorem undone_construct {this : Slot} {word : ℕ}
    (h : this.address ∈ strongInterface.constructs operation) :
    ∀ event ∈ [] ++ [OperationEvent.stored this.address word],
      event.Undone (strongInterface.constructs operation) := by
  intro event hevent
  obtain rfl := List.mem_singleton.mp hevent
  exact h

/-- A value comes from the hand of the thread. -/
theorem sourced_hands (thread : ThreadId) {given : Option Origin}
    (h : ∀ origin ∈ given, origin ∈ operation.hands)
    (hheld : ∀ part ∈ operation.hands.map (.inHand thread), part ∈ held) :
    Sourced given (operation.sees held) := by
  intro origin ho
  refine ⟨.inHand thread origin,List.mem_append_left _ (hheld _ ?_),rfl⟩
  exact List.mem_map_of_mem (h origin ho)

/-- A value comes from a root. -/
theorem sourced_root (h : .linked handle ∈ operation.sees held) :
    Sourced handle.origin (operation.sees held) :=
  fun _ ho => ⟨_,h,ho⟩

theorem sourced_null {parts : List StrongPart} : Sourced none parts :=
  fun _ ho => absurd ho (Option.not_mem_none _)

theorem null_origins : ∀ origin ∈ (none : Option Origin), origin ∈ operation.origins :=
  fun _ ho => absurd ho (Option.not_mem_none _)

theorem spent_hands (origins : List Origin) :
    ∀ part ∈ origins.map (StrongPart.inHand thread), part.Spent := by
  intro part hpart
  obtain ⟨origin,-,rfl⟩ := List.mem_map.mp hpart
  trivial

theorem spent_nil : ∀ part ∈ ([] : List StrongPart), part.Spent :=
  fun _ h => absurd h List.not_mem_nil

theorem mem_origins_takes (h : handle ∈ operation.takes) :
    ∀ origin ∈ handle.origin, origin ∈ operation.origins := fun _ ho =>
  List.mem_append_left _ (List.mem_filterMap.mpr ⟨handle,List.mem_append_left _ h,ho⟩)

theorem mem_origins_borrows (h : handle ∈ operation.borrows) :
    ∀ origin ∈ handle.origin, origin ∈ operation.origins := fun _ ho =>
  List.mem_append_left _ (List.mem_filterMap.mpr ⟨handle,List.mem_append_right _ h,ho⟩)

theorem mem_origins_hands {origin : Origin} (h : origin ∈ operation.hands) :
    origin ∈ operation.origins := List.mem_append_right _ h

theorem sees_borrowed (h : handle ∈ operation.borrows) : .linked handle ∈ operation.sees held :=
  List.mem_append_right _ (List.mem_map_of_mem h)

theorem sees_held (h : part ∈ held) : part ∈ operation.sees held := List.mem_append_left _ h

theorem plan_strongOperation :
    StrongPlan thread operation [] operation.code
      (operation.constructs.map .loose ++ operation.hands.map (.inHand thread) ++
        operation.takes.map .linked) := by
  have hself : ∀ parts : List StrongPart, parts.Perm parts := List.Perm.refl
  cases operation with
  | construct this given =>
    have hgiven : ∀ origin ∈ given, origin ∈ (StrongOperation.construct this given).hands :=
      fun origin ho => Option.mem_toList.mpr ho
    have horigins := fun origin ho => mem_origins_hands (hgiven origin ho)
    simp only [StrongOperation.code, GcRoot.construct, Program.bind_assoc]
    refine StrongPlan.store (hself _) rfl (.word this) ?_ horigins ?_
    · refine sourced_hands thread hgiven fun part hpart => ?_
      exact List.mem_append_left _ (List.mem_append_right _ hpart)
    · refine StrongPlan.register _ (hself _) (spent_hands _) ?_ horigins
        (undone_construct (List.mem_singleton_self _)) fun trace => ?_
      · exact sourced_hands thread hgiven fun part hpart => List.mem_append_left _ hpart
      · exact StrongPlan.done [] (hself _) spent_nil
  | copyConstruct this other =>
    have hmem : other ∈ (StrongOperation.copyConstruct this other).borrows :=
      List.mem_singleton_self _
    simp only [StrongOperation.code, GcRoot.copyConstruct, Program.bind_assoc]
    refine StrongPlan.load (sees_borrowed hmem) ?_
    refine StrongPlan.store (hself _) rfl (.word this) (sourced_root (sees_borrowed hmem))
      (mem_origins_borrows hmem) ?_
    refine StrongPlan.register [] (hself _) spent_nil (sourced_root (sees_borrowed hmem))
      (mem_origins_borrows hmem) (undone_construct (List.mem_singleton_self _)) fun trace => ?_
    exact StrongPlan.done [] (hself _) spent_nil
  | moveConstruct this other =>
    have hmem : other ∈ (StrongOperation.moveConstruct this other).takes :=
      List.mem_singleton_self _
    have hpart : StrongPart.linked other ∈ [.loose this,.linked other] :=
      List.mem_cons_of_mem _ (List.mem_singleton_self _)
    simp only [StrongOperation.code, GcRoot.moveConstruct, Program.bind_assoc]
    refine StrongPlan.load (sees_held hpart) ?_
    refine StrongPlan.store (hself _) rfl (.word this) (sourced_root (sees_held hpart))
      (mem_origins_takes hmem) ?_
    refine StrongPlan.register [] (hself _) spent_nil
      (sourced_root (sees_held (List.mem_singleton_self _))) (mem_origins_takes hmem)
      (undone_construct (List.mem_singleton_self _)) fun trace => ?_
    refine StrongPlan.store (List.Perm.swap ..) rfl (.root other) sourced_null null_origins ?_
    exact StrongPlan.done [] (List.Perm.swap ..) spent_nil
  | destroy handle =>
    refine StrongPlan.unregister (hself _) (fun _ h => absurd h List.not_mem_nil) fun trace => ?_
    exact StrongPlan.done [.loose handle.slot] (hself _) (List.forall_mem_singleton.mpr trivial)
  | copyAssign handle other =>
    simp only [StrongOperation.code, GcRoot.copyAssign]
    by_cases he : handle.slot = other.slot
    · simp only [he, ne_eq, not_true_eq_false, if_false]
      exact StrongPlan.done [] (hself _) spent_nil
    · have hmem : other ∈ (StrongOperation.copyAssign handle other).borrows := by
        rw [StrongOperation.borrows, if_pos he]
        exact List.mem_singleton_self _
      simp only [ne_eq, Slot.address_injective.eq_iff, he, not_false_eq_true, if_true,
        Program.bind_assoc]
      refine StrongPlan.load (sees_borrowed hmem) ?_
      refine StrongPlan.store (hself _) rfl (.root handle) (sourced_root (sees_borrowed hmem))
        (mem_origins_borrows hmem) ?_
      exact StrongPlan.done [] (hself _) spent_nil
  | moveAssign handle other =>
    simp only [StrongOperation.code, GcRoot.moveAssign]
    by_cases he : handle.slot = other.slot
    · have htakes : (StrongOperation.moveAssign handle other).takes = [handle] :=
        if_neg (not_not.mpr he)
      simp only [he, ne_eq, not_true_eq_false, if_false, htakes]
      exact StrongPlan.done [] (hself _) spent_nil
    · have htakes : (StrongOperation.moveAssign handle other).takes = [handle,other] :=
        if_pos he
      have hmem : other ∈ (StrongOperation.moveAssign handle other).takes :=
        htakes ▸ List.mem_cons_of_mem _ (List.mem_singleton_self _)
      have hpart : StrongPart.linked other ∈ [.linked handle,.linked other] :=
        List.mem_cons_of_mem _ (List.mem_singleton_self _)
      simp only [ne_eq, Slot.address_injective.eq_iff, he, not_false_eq_true, if_true,
        Program.bind_assoc, htakes]
      refine StrongPlan.load (sees_held hpart) ?_
      refine StrongPlan.store (hself _) rfl (.root handle) (sourced_root (sees_held hpart))
        (mem_origins_takes hmem) ?_
      refine StrongPlan.store (List.Perm.swap ..) rfl (.root other) sourced_null null_origins ?_
      exact StrongPlan.done [] (List.Perm.swap ..) spent_nil
  | assign handle given =>
    have hgiven : ∀ origin ∈ given, origin ∈ (StrongOperation.assign handle given).hands :=
      fun origin ho => Option.mem_toList.mpr ho
    simp only [StrongOperation.code, GcRoot.assign]
    refine StrongPlan.store List.perm_append_comm rfl (.root handle) ?_
      (fun origin ho => mem_origins_hands (hgiven origin ho)) ?_
    · exact sourced_hands thread hgiven fun part hpart => List.mem_append_left _ hpart
    · refine StrongPlan.done _ ?_ (@spent_hands thread given.toList)
      exact (List.perm_append_singleton _ _).symm

end

/-! ## The rules are those of the manager -/

section
variable {w w' : World} {thread : ThreadId} {choice : Choice} {c : Call} {stage : Stage}
  {below : List Frame} {held others borrowed : List StrongPart} {begin_ end_ : ℕ}
  {post : CallRecord → List StrongPart → Prop}

theorem concerns_sourced {operation : StrongOperation} {value : Option Origin}
    (hwithin : strongLedger.Within thread operation held)
    (hsourced : Sourced value (operation.sees held)) :
    ∀ origin ∈ value, origin ∈ operation.origins := by
  intro origin ho
  obtain ⟨part,hpart,hvalue⟩ := hsourced origin ho
  rcases List.mem_append.mp hpart with hpart | hpart
  · exact (hwithin part hpart).2.1 origin hvalue
  · obtain ⟨handle,hhandle,rfl⟩ := List.mem_map.mp hpart
    exact mem_origins_borrows hhandle origin hvalue

theorem restful_foreign (hheld : Restful held)
    (hothers : ∀ part ∈ others, strongLedger.Foreign thread part) :
    ∀ part ∈ held ++ others, ∀ other, part.thread = some other → other ≠ thread := by
  intro part hpart other ht
  rcases List.mem_append.mp hpart with hpart | hpart
  · rw [hheld part hpart] at ht
    cases ht
  · exact foreign_thread (hothers part hpart) ht

theorem strongRule_publishes (hr : ReachableWorld w) (hstep : step (.run thread choice) w = some w')
    (hs : SameHeap w.state w'.state)
    (hranges : w'.state.registeredRootRanges =
      publishedRanges w.state stage (rootRange begin_ end_))
    (hrule : strongCallRule (.registerRootRange begin_ end_) stage held borrowed post)
    (hborrowed : ∀ part ∈ borrowed, part ∈ others)
    (hothers : ∀ part ∈ others, strongLedger.Foreign thread part)
    (h : StrongRegistry w (held ++ others)) :
    ∃ held', Restful held' ∧
      (∀ before, post ⟨.registerRootRange begin_ end_,before,.ok .unit⟩ held') ∧
      StrongRegistry w' (held' ++ others) ∧
      ∀ operation : StrongOperation, borrowed = operation.borrows.map .linked →
        strongLedger.Within thread operation held → strongLedger.Within thread operation held' := by
  unfold publishedRanges at hranges
  unfold strongCallRule at hrule
  by_cases henter : stage = .enter
  · simp only [if_pos henter] at hrule hranges
    obtain ⟨slot,value,hands,rest,rfl,rfl,hheld,hspent,hrest,hsourced,hok,-⟩ := hrule
    have hparts : (held ++ others).Perm
        ([.holds slot (pointerOf value)] ++ ((hands ++ rest) ++ others)) :=
      hheld.append_right others
    have hmoved : (held ++ others).Perm
        (hands ++ (.holds slot (pointerOf value) :: (rest ++ others))) := by
      rw [List.append_assoc, List.singleton_append] at hparts
      exact hparts.trans List.perm_middle.symm
    have hlive : ∀ origin ∈ value, origin.Live w.state :=
      (h.perm hparts).spent.live_of_sourced hborrowed hsourced
    refine ⟨.linked ⟨slot,value⟩ :: rest,List.forall_mem_cons.mpr ⟨rfl,hrest⟩,hok,?_,?_⟩
    · refine (StrongRegistry.spent (h.perm hmoved)).publish hr hstep hs ?_ hlive hranges
      exact restful_foreign hrest hothers
    · rintro operation rfl hwithin
      have hwithin' := strongWithin_perm hwithin hheld
      obtain ⟨hfirst,hlast⟩ := strongWithin_cons.mp hwithin'
      refine strongWithin_cons.mpr ⟨⟨hfirst.1,?_,nofun⟩,fun part hpart =>
        hlast part (List.mem_append_right _ hpart)⟩
      exact concerns_sourced hlast hsourced
  · simp only [if_neg henter] at hrule hranges
    exact ⟨held,hrule.1,hrule.2,h.waits hr hstep hs (restful_foreign hrule.1 hothers) hranges,
      fun _ _ hwithin => hwithin⟩

theorem strongRule_erases (hr : ReachableWorld w) (hstep : step (.run thread choice) w = some w')
    (hs : SameHeap w.state w'.state)
    (hranges : w'.state.registeredRootRanges =
      w.state.registeredRootRanges.erase (rootRange begin_ end_))
    (hrule : strongCallRule (.unregisterRootRange begin_ end_) stage held borrowed post)
    (hothers : ∀ part ∈ others, strongLedger.Foreign thread part)
    (h : StrongRegistry w (held ++ others)) :
    ∃ held', (∀ before, post ⟨.unregisterRootRange begin_ end_,before,.ok .unit⟩ held') ∧
      StrongRegistry w' (held' ++ others) := by
  obtain ⟨hrestful,handle,rest,rfl,rfl,hheld,hok⟩ := hrule
  refine ⟨.loose handle.slot :: rest,hok,?_⟩
  have hparts : (held ++ others).Perm (.linked handle :: (rest ++ others)) :=
    hheld.append_right others
  refine StrongRegistry.erase (h.perm hparts) hr hstep hs ?_ hranges
  refine restful_foreign (fun part hpart => hrestful part (hheld.symm.subset ?_)) hothers
  exact List.mem_cons_of_mem _ hpart

theorem nodup_strongConstructs (operation : StrongOperation) : operation.constructs.Nodup := by
  cases operation <;> simp [StrongOperation.constructs]

end

section
variable {handles : List StrongHandle} {tasks : List (ThreadId × StrongOperation)}
  {parts : List StrongPart} {slot : Slot} {origin : Origin}

theorem slot_of_concerned (h : ∀ part ∈ parts, strongLedger.Concerned handles tasks part)
    (hmem : slot ∈ parts.filterMap StrongPart.slot) :
    slot ∈ strongSlots handles (tasks.map Prod.snd) := by
  obtain ⟨part,hpart,hslot⟩ := List.mem_filterMap.mp hmem
  rcases h part hpart with ⟨handle,hhandle,howned⟩ | ⟨task,htask,hconcerns⟩
  · obtain rfl := List.mem_singleton.mp howned
    cases hslot
    exact List.mem_append_left _ (List.mem_map_of_mem hhandle)
  · exact List.mem_append_right _
      (List.mem_flatMap.mpr ⟨task.2,List.mem_map_of_mem htask,hconcerns.1 slot hslot⟩)

theorem origin_of_concerned (h : ∀ part ∈ parts, strongLedger.Concerned handles tasks part)
    (hmem : origin ∈ parts.filterMap StrongPart.origin) :
    origin ∈ strongOrigins handles (tasks.map Prod.snd) := by
  obtain ⟨part,hpart,horigin⟩ := List.mem_filterMap.mp hmem
  rcases h part hpart with ⟨handle,hhandle,howned⟩ | ⟨task,htask,hconcerns⟩
  · obtain rfl := List.mem_singleton.mp howned
    exact List.mem_append_left _ (List.mem_filterMap.mpr ⟨handle,hhandle,horigin⟩)
  · exact List.mem_append_right _
      (List.mem_flatMap.mpr ⟨task.2,List.mem_map_of_mem htask,hconcerns.2.1 origin horigin⟩)

end

theorem within_strongOperation (thread : ThreadId) (operation : StrongOperation) :
    strongLedger.Within thread operation
      (operation.constructs.map .loose ++ operation.hands.map (.inHand thread) ++
        operation.takes.map .linked) := by
  intro part hpart
  rcases List.mem_append.mp hpart with hpart | hpart
  · rcases List.mem_append.mp hpart with hpart | hpart
    · obtain ⟨this,hthis,rfl⟩ := List.mem_map.mp hpart
      refine ⟨fun slot hslot => ?_,nofun,nofun⟩
      cases hslot
      exact List.mem_append_right _ hthis
    · obtain ⟨origin,horigin,rfl⟩ := List.mem_map.mp hpart
      refine ⟨nofun,fun other ho => ?_,fun other ht => ?_⟩
      · cases ho
        exact mem_origins_hands horigin
      · cases ht
        rfl
  · obtain ⟨handle,hhandle,rfl⟩ := List.mem_map.mp hpart
    refine ⟨fun slot hslot => ?_,mem_origins_takes hhandle,nofun⟩
    cases hslot
    exact List.mem_append_left _ (List.mem_map_of_mem hhandle)

theorem sound_strongLedger : strongLedger.Sound where
  outline {_ thread} {operation : StrongOperation} {handles operations} _ _ := by
    have hplan := plan_strongOperation (within_strongOperation thread operation)
    rwa [← StrongPlan.owned_eq] at hplan
  initial _ := ⟨fun _ h => absurd h List.not_mem_nil,List.nodup_nil⟩
  perm := StrongRegistry.perm
  congr h hstate _ := h.congr hstate
  fresh hr huser hpromised hconcerned h :=
    h.fresh (nodup_strongConstructs _)
      (fun slot hslot hmem => hpromised.fresh slot hslot (slot_of_concerned hconcerned hmem))
      fun origin horigin =>
        have hhand := hpromised.hands origin horigin
        ⟨hhand.2,hr.unparked hhand.1 huser⟩
  spent _ h := h.spent
  outside {w w' parts label handles tasks} hr hadmits hconcerned hforeign _ hstep h := by
    refine h.outside hr hstep (fun slot hslot => hadmits.roots slot ?_)
      (fun origin horigin => hadmits.blocks origin ?_) fun thread hthread => ?_
    · exact slot_of_concerned hconcerned hslot
    · exact origin_of_concerned hconcerned horigin
    · obtain ⟨part,hpart,ht⟩ := List.mem_filterMap.mp hthread
      exact foreign_thread (hforeign part hpart) ht
  immediate {w w' held others borrowed thread c result post} hr hreserved hi hstep hrule _ h := by
    cases c with
    | registerRootRange begin_ end_ =>
      obtain ⟨slot,value,hands,rest,rfl,rfl,-⟩ := hrule
      rw [immediate_registerRootRange, if_neg slot.range_nonempty] at hi
      cases hi
    | unregisterRootRange begin_ end_ =>
      obtain ⟨-,handle,rest,rfl,rfl,-⟩ := hrule
      rw [immediate_unregisterRootRange, if_neg handle.slot.range_nonempty] at hi
      cases hi
    | _ => exact hrule.elim
  waits {w w' held others borrowed thread choice operation c stage stage' below post}
      hr hb hwithin hreserved hu hc hstep hc' hrule hborrowed hothers h := by
    have hne : ∀ {frame : Frame}, frame :: below ≠ below := fun {_} => List.cons_ne_self _ _
    cases c with
    | registerRootRange begin_ end_ =>
      have hs := rangeCall_sameHeap (Or.inl rfl) hc hstep
      rcases registerRootRange_step (.run thread choice) hu hc hstep with
        ⟨-,-,hdone,-⟩ | ⟨hranges,⟨stage'',hstage,hcontrol⟩ | ⟨hdone,-⟩⟩
      · exact absurd (hc'.symm.trans hdone) hne
      · obtain rfl : stage'' = stage' := by
          have he := hcontrol.symm.trans hc'
          cases he
          rfl
        obtain ⟨held',hrestful,hok,hregistry,hkept⟩ :=
          strongRule_publishes hr hstep hs hranges hrule hborrowed hothers h
        refine ⟨held',?_,hkept operation (hb.trans (borrowed_eq operation)) hwithin,hregistry⟩
        simp only [strongLedger, strongCallRule, if_neg hstage]
        exact ⟨hrestful,hok⟩
      · exact absurd (hc'.symm.trans hdone) hne
    | unregisterRootRange begin_ end_ =>
      have hs := rangeCall_sameHeap (Or.inr rfl) hc hstep
      rcases unregisterRootRange_step (.run thread choice) hu hc hstep with
        ⟨hranges,-⟩ | ⟨-,hdone,-⟩
      · exact ⟨held,hrule,hwithin,
          StrongRegistry.waits h hr hstep hs (restful_foreign hrule.1 hothers) hranges⟩
      · exact absurd (hc'.symm.trans hdone) hne
    | _ => exact hrule.elim
  returns {w w' held others borrowed thread choice c stage below result post}
      hr _ hu hc hstep hc' hresult hrule hborrowed hothers h := by
    have hne : ∀ {frame : Frame}, frame :: below ≠ below := fun {_} => List.cons_ne_self _ _
    cases c with
    | registerRootRange begin_ end_ =>
      have hs := rangeCall_sameHeap (Or.inl rfl) hc hstep
      rcases registerRootRange_step (.run thread choice) hu hc hstep with
        ⟨rfl,hstate,-,e,he⟩ | ⟨hranges,⟨stage',-,hcontrol⟩ | ⟨-,hok⟩⟩
      · obtain rfl := Option.some.inj (hresult.symm.trans he)
        obtain ⟨slot,value,hands,rest,-,-,-,-,-,-,-,herror⟩ := hrule
        exact ⟨held,herror w.state e,StrongRegistry.congr h hstate⟩
      · exact absurd (hcontrol.symm.trans hc') hne
      · obtain rfl := Option.some.inj (hresult.symm.trans hok)
        obtain ⟨held',-,hpost,hregistry,-⟩ :=
          strongRule_publishes hr hstep hs hranges hrule hborrowed hothers h
        exact ⟨held',hpost w.state,hregistry⟩
    | unregisterRootRange begin_ end_ =>
      have hs := rangeCall_sameHeap (Or.inr rfl) hc hstep
      rcases unregisterRootRange_step (.run thread choice) hu hc hstep with
        ⟨-,stage',hcontrol⟩ | ⟨hranges,-,hok⟩
      · exact absurd (hcontrol.symm.trans hc') hne
      · obtain rfl := Option.some.inj (hresult.symm.trans hok)
        change strongCallRule (.unregisterRootRange begin_ end_) stage held borrowed post at hrule
        obtain ⟨held',hpost,hregistry⟩ := strongRule_erases hr hstep hs hranges hrule hothers h
        exact ⟨held',hpost w.state,hregistry⟩
    | _ => exact hrule.elim
  loads {w held others borrowed address post} _ hrule hborrowed h := by
    obtain ⟨handle,rfl,hmem,hpost⟩ := hrule
    refine ⟨held,?_,h⟩
    have hall : StrongPart.linked handle ∈ held ++ others := by
      rcases List.mem_append.mp hmem with hmem | hmem
      · exact List.mem_append_left _ hmem
      · exact List.mem_append_right _ (hborrowed _ hmem)
    have hrooted : Rooted w.state handle := h.holds _ hall
    rwa [hrooted.word]
  stores {w held others borrowed address word post} hr hrule hborrowed h := by
    obtain ⟨slot,value,part,new,rest,rfl,rfl,hpart,hstore,hheld,hsourced,hpost⟩ := hrule
    refine ⟨new :: rest,hpost,?_⟩
    have hlive := StrongRegistry.live_of_sourced h hborrowed hsourced
    exact StrongRegistry.store (h.perm (hheld.append_right others)) hr hpart hstore hlive

end GcLib.Client
