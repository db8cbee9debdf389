import GcLib.Client.Sequences
import GcLib.Client.StrongPlans

/-! # Vectors of roots

A `gc_vector` is a vector of `gc_root`s, whose elements the standard library constructs, copies
and destroys. What an operation on a root is going to leave in a root has a source at any time of
the operation, so that its block stays registered.
-/

namespace GcLib.Client
open GcLib.Heap GcLib.Support GcLib.Protocol

/-! ## What operations on roots leave -/

namespace StrongOperation

/-- The roots that are live after an operation. -/
def leaves : StrongOperation → List StrongHandle
  | construct this given => [⟨this,given⟩]
  | copyConstruct this other => [⟨this,other.origin⟩]
  | moveConstruct this other => [⟨this,other.origin⟩,⟨other.slot,none⟩]
  | destroy _ => []
  | copyAssign handle other =>
    if handle.slot ≠ other.slot then [⟨handle.slot,other.origin⟩] else [handle]
  | moveAssign handle other =>
    if handle.slot ≠ other.slot then [⟨handle.slot,other.origin⟩,⟨other.slot,none⟩] else [handle]
  | assign handle given => [⟨handle.slot,given⟩]

end StrongOperation

theorem settles_invoke (c : Call) : (Program.invoke c).Settles fun _ => True := by
  refine ⟨trivial,fun result => ?_⟩
  cases result with
  | ok value => exact .inl trivial
  | error e => exact .inr ⟨_,rfl⟩

theorem settles_registerRootObject (object size : ℕ) :
    (registerRootObject object size).Settles fun _ => True := by
  unfold registerRootObject registerRootRange
  split_ifs
  · trivial
  · refine Program.Settles.bind ?_ (settles_invoke _)
    exact fun _ _ => trivial

theorem settles_unregisterRootObject (object size : ℕ) :
    (unregisterRootObject object size).Settles fun _ => True := by
  unfold unregisterRootObject unregisterRootRange
  split_ifs
  · trivial
  · refine Program.Settles.bind ?_ (settles_invoke _)
    exact fun _ _ => trivial

theorem StrongOperation.settles (operation : StrongOperation) :
    operation.code.Settles fun done => ∀ trace, done trace = operation.leaves := by
  have hends : ∀ {p : Program Unit} {handles : Trace → List StrongHandle},
      p.Settles (fun _ => True) → (∀ trace, handles trace = operation.leaves) →
      (p >>= fun _ => pure handles).Settles fun done => ∀ trace, done trace = operation.leaves := by
    intro p handles hp hhandles
    refine Program.Settles.bind ?_ hp
    exact fun _ _ => hhandles
  have hregister := settles_registerRootObject
  cases operation with
  | construct this given => exact hends (hregister _ _) fun _ => rfl
  | copyConstruct this other => exact hends (fun _ => hregister _ _) fun _ => rfl
  | moveConstruct this other =>
    refine hends (fun word => ?_) fun _ => rfl
    change (registerRootObject this.address wordSize >>= fun _ =>
      Program.writeWord other.slot.address 0).Settles _
    refine Program.Settles.bind ?_ (hregister _ _)
    exact fun _ _ => trivial
  | destroy handle => exact hends (settles_unregisterRootObject _ _) fun _ => rfl
  | copyAssign handle other =>
    refine hends ?_ fun _ => rfl
    unfold GcRoot.copyAssign
    split_ifs
    · exact fun _ => trivial
    · trivial
  | moveAssign handle other =>
    refine hends ?_ fun _ => rfl
    unfold GcRoot.moveAssign
    split_ifs
    · exact fun _ => trivial
    · trivial
  | assign handle given => exact fun _ => rfl

/-! ## Where the values of an operation are -/

section
variable {thread : ThreadId} {operation : StrongOperation} {handle : StrongHandle}
  {value : Option Origin} {held rest : List StrongPart} {part new : StrongPart}

theorem Sourced.mono {parts parts' : List StrongPart} (h : Sourced value parts)
    (hparts : ∀ part ∈ parts, part ∈ parts') : Sourced value parts' := by
  intro origin ho
  obtain ⟨part,hpart,horigin⟩ := h origin ho
  exact ⟨part,hparts part hpart,horigin⟩

/-- A part that was changed had its value from a part before. -/
theorem Sourced.before {value' : Option Origin} {borrowed parts : List StrongPart}
    (h : Sourced value (new :: rest ++ borrowed)) (hnew : new.origin = value' ∨ new.origin = none)
    (hvalue : Sourced value' parts) (hrest : ∀ part ∈ rest ++ borrowed, part ∈ parts) :
    Sourced value parts := by
  intro origin ho
  obtain ⟨part,hpart,horigin⟩ := h origin ho
  rcases List.mem_cons.mp hpart with rfl | hmem
  · rcases hnew with hnew | hnew
    · exact hvalue origin (hnew.symm.trans horigin)
    · rw [hnew] at horigin
      cases horigin
  · exact ⟨part,hrest part hmem,horigin⟩

theorem sees_rest (hheld : held.Perm (part :: rest)) :
    ∀ other ∈ rest ++ operation.borrows.map .linked, other ∈ operation.sees held := by
  intro other hother
  rcases List.mem_append.mp hother with hother | hother
  · exact sees_held (hheld.symm.subset (List.mem_cons_of_mem _ hother))
  · exact List.mem_append_right _ hother

/-- What an operation has when a call returned to it, it had when it made the call. -/
theorem sourced_of_callRule {c : Call} {stage : Stage} {post : CallRecord → List StrongPart → Prop}
    (hrule : strongLedger.CallRule c stage held
      ((strongInterface.borrows operation).flatMap strongLedger.owned) post)
    (hpost : ∀ before held', post ⟨c,before,.ok .unit⟩ held' →
      Sourced value (operation.sees held')) : Sourced value (operation.sees held) := by
  have before : State := (World.initial fun _ => 0).state
  rw [borrowed_eq] at hrule
  change strongCallRule c stage held _ post at hrule
  cases c with
  | registerRootRange begin_ end_ =>
    simp only [strongCallRule] at hrule
    split_ifs at hrule with hstage
    · obtain ⟨slot,given,hands,rest,-,-,hheld,-,-,hsourced,hok,-⟩ := hrule
      refine (hpost before _ (hok before)).before (.inl rfl) (hsourced.mono (sees_rest hheld))
        fun part hpart => sees_rest hheld part ?_
      rcases List.mem_append.mp hpart with hpart | hpart
      · exact List.mem_append_left _ (List.mem_append_right _ hpart)
      · exact List.mem_append_right _ hpart
    · exact hpost before held (hrule.2 before)
  | unregisterRootRange begin_ end_ =>
    obtain ⟨-,root,rest,-,-,hheld,hok⟩ := hrule
    exact (hpost before _ (hok before)).before (.inr rfl) sourced_null (sees_rest hheld)
  | _ => exact hrule.elim

/-- An operation that keeps to its outline has whatever it is going to leave. -/
theorem sourced_of_outline (hleaves : handle ∈ operation.leaves) :
    ∀ {code : Program (Trace → List StrongHandle)} {trace : Trace} {held : List StrongPart},
      code.Settles (fun done => ∀ trace, done trace = operation.leaves) →
      strongLedger.Outline thread operation trace code held →
        Sourced handle.origin (operation.sees held) := by
  intro code
  induction code with
  | returns done =>
    intro trace held hsettles houtline
    obtain ⟨-,spent,hheld,-⟩ := houtline
    rw [hsettles trace, StrongPlan.owned_eq] at hheld
    refine sourced_root (sees_held (hheld.symm.subset ?_))
    exact List.mem_append_right _ (List.mem_map_of_mem hleaves)
  | throws => exact fun hsettles => hsettles.elim
  | call c next ih =>
    intro trace held hsettles houtline
    exact sourced_of_callRule houtline.2 fun before held' hpost => ih _ hsettles.1 hpost
  | load address next ih =>
    intro trace held hsettles houtline
    obtain ⟨-,root,-,-,hpost⟩ := houtline
    exact ih _ (hsettles _) hpost
  | store address word next ih =>
    intro trace held hsettles houtline
    obtain ⟨-,slot,value,part,new,rest,-,-,-,hstore,hheld,hsourced,hpost⟩ := houtline
    rw [borrowed_eq] at hsourced
    refine (ih hsettles hpost).before ?_ hsourced (sees_rest hheld)
    cases hstore with
    | word => exact .inr rfl
    | root => exact .inl rfl
  | construct => exact fun hsettles => hsettles.elim
  | destroy => exact fun hsettles => hsettles.elim

end

/-- What an operation in progress is going to leave in a root points into a registered block. -/
theorem live_of_leaves {s : Session strongInterface} (h : s.Reachable)
    {job : Job strongInterface} (hjob : job ∈ s.jobs)
    (hprogress : ∀ exception, job.progress ≠ .running (.throws exception)) {handle : StrongHandle}
    (hleaves : handle ∈ StrongOperation.leaves job.operation) :
    ∀ origin ∈ handle.origin, origin.Live s.world.state := by
  have hsettles := h.settles StrongOperation.settles job hjob
  have hplaced := h.placed
  obtain ⟨others,hjobs⟩ := Session.perm_of_mem hjob
  obtain ⟨held,accounts,-,hheld,-,hregistry⟩ := (sound_strongLedger.balanced h).account
    sound_strongLedger hjobs
  have hborrowed : ∀ part ∈ (StrongOperation.borrows job.operation).map StrongPart.linked,
      part ∈ accounts.flatMap Prod.snd ++ s.handles.flatMap strongLedger.owned := by
    intro part hpart
    obtain ⟨root,hroot,rfl⟩ := List.mem_map.mp hpart
    refine List.mem_append_right _ (List.mem_flatMap.mpr ⟨root,?_,List.mem_singleton_self _⟩)
    exact hplaced.borrowed job hjob root hroot
  refine StrongRegistry.live_of_sourced hregistry hborrowed ?_
  cases hp : job.progress with
  | running code =>
    have hcode : ∀ exception, code ≠ .throws exception := by
      rintro exception rfl
      exact hprogress exception hp
    exact sourced_of_outline hleaves (hsettles.running hp hcode) (hheld.running hp)
  | calling c below next =>
    obtain ⟨-,stage,-,hrule⟩ := hheld.calling hp
    refine sourced_of_callRule hrule fun before held' hpost => ?_
    exact sourced_of_outline hleaves (hsettles.calling hp).1 hpost

/-! ## `gc_vector` -/

namespace GcVector

/-- `roots_.push_back(value)`: a copy at the end, or in new storage, which is filled by copies of
the elements, as the move constructor of `gc_root` may throw, before these are destroyed. -/
def pushBack (elements : List StrongHandle) (value : StrongHandle) (place : Slot) :
    Option (List Slot) → List StrongOperation
  | none => [.copyConstruct place value]
  | some places => .copyConstruct place value ::
    (List.zipWith .copyConstruct places elements ++ elements.map .destroy)

/-- `emplace_new` from the pointer that `gc_new` returned on: it is held by a root on the stack
while the vector grows. -/
def emplaceNew (elements : List StrongHandle) (created : Slot) (given : Option Origin)
    (place : Slot) (places : Option (List Slot)) : List StrongOperation :=
  .construct created given :: (pushBack elements ⟨created,given⟩ place places ++
    [.destroy ⟨created,given⟩])

/-- The elements after `emplace_new`. -/
def emplaced (elements : List StrongHandle) (given : Option Origin) (place : Slot) :
    Option (List Slot) → List StrongHandle
  | none => elements ++ [⟨place,given⟩]
  | some places =>
    List.zipWith (fun place element => ⟨place,element.origin⟩) places elements ++ [⟨place,given⟩]

end GcVector

namespace StrongOperation

theorem afterwards_copies : ∀ (places : List Slot) (elements : List StrongHandle)
    (own : Multiset StrongHandle),
    afterwards takes leaves own (List.zipWith copyConstruct places elements) =
      ↑(List.zipWith (fun place element => StrongHandle.mk place element.origin) places elements) +
        own
  | [], _, own => (zero_add own).symm
  | _ :: _, [], own => (zero_add own).symm
  | place :: places, element :: elements, own => by
    have hcopy : ∀ own : Multiset StrongHandle, ↑(leaves (.copyConstruct place element)) +
        (own - ↑(takes (.copyConstruct place element))) = {⟨place,element.origin⟩} + own :=
      fun own => congrArg _ (tsub_zero own)
    rw [List.zipWith_cons_cons, List.zipWith_cons_cons, afterwards, hcopy, afterwards_copies,
      ← Multiset.cons_coe, ← Multiset.singleton_add]
    ac_rfl

theorem afterwards_destroys : ∀ (elements : List StrongHandle) (own : Multiset StrongHandle),
    afterwards takes leaves (↑elements + own) (elements.map destroy) = own
  | [], own => zero_add own
  | element :: elements, own => by
    have hdestroy : ↑(leaves (.destroy element)) +
        ((↑(element :: elements) + own : Multiset StrongHandle) - ↑(takes (.destroy element))) =
          ↑elements + own := by
      change 0 + (_ - ({element} : Multiset StrongHandle)) = _
      rw [zero_add, ← Multiset.cons_coe, Multiset.cons_add, Multiset.sub_singleton,
        Multiset.erase_cons_head]
    rw [List.map_cons, afterwards, hdestroy, afterwards_destroys]

theorem afterwards_pushBack (elements : List StrongHandle) (created : Slot) (given : Option Origin)
    (place : Slot) (places : Option (List Slot)) :
    afterwards takes leaves ({⟨created,given⟩} + ↑elements)
      (GcVector.pushBack elements ⟨created,given⟩ place places) =
        {⟨created,given⟩} + ↑(GcVector.emplaced elements given place places) := by
  have hcopy : ∀ (own : Multiset StrongHandle) (operations : List StrongOperation),
      afterwards takes leaves own (.copyConstruct place ⟨created,given⟩ :: operations) =
        afterwards takes leaves ({⟨place,given⟩} + own) operations :=
    fun own operations => congrArg (fun own => afterwards takes leaves own operations)
      (congrArg _ (tsub_zero own))
  cases places with
  | none =>
    rw [GcVector.pushBack, GcVector.emplaced, hcopy, afterwards, ← Multiset.coe_add,
      Multiset.coe_singleton]
    ac_rfl
  | some places =>
    rw [GcVector.pushBack, GcVector.emplaced, hcopy, afterwards_append, afterwards_copies,
      ← Multiset.coe_add, Multiset.coe_singleton]
    refine Eq.trans ?_ (afterwards_destroys elements _)
    congr 1
    ac_rfl

/-- The elements have their values, and the new one has the value that was given. -/
theorem afterwards_emplaceNew (elements : List StrongHandle) (created : Slot)
    (given : Option Origin) (place : Slot) (places : Option (List Slot)) :
    afterwards takes leaves elements
      (GcVector.emplaceNew elements created given place places) =
      ↑(GcVector.emplaced elements given place places) := by
  have hconstruct : ↑(leaves (.construct created given)) +
      ((elements : Multiset StrongHandle) - ↑(takes (.construct created given))) =
        {⟨created,given⟩} + ↑elements := congrArg _ (tsub_zero _)
  rw [GcVector.emplaceNew, afterwards, hconstruct, afterwards_append, afterwards_pushBack,
    afterwards, afterwards]
  change 0 + (_ - ({⟨created,given⟩} : Multiset StrongHandle)) = _
  rw [zero_add, add_tsub_cancel_left]

end StrongOperation
end GcLib.Client
