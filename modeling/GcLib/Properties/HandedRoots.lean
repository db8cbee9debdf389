import GcLib.Client.GcVector
import GcLib.Client.ObjectConstruction
import GcLib.Properties.ArrayConstruction
import GcLib.Properties.PointersInHand
import GcLib.Properties.StrongOwnership

/-! # From the allocation to the root

A thread is given a pointer by `gc_new`, by the construction of an array or by `lock`, and passes
it to a root at once. The block stays registered on the way: the thread does not park before the
root has published its range.
-/

namespace GcLib.Properties
open GcLib.Heap GcLib.Support GcLib.Protocol GcLib.Client Relation

/-- A thread was just given a pointer that is not null. The construction of an array is nobody
else's. -/
inductive Obtained (thread : ThreadId) (w' : World) : ℕ → Prop where
  | object {calls user : Label → World → Prop} {size alignment destroyObject : ℕ} {w : World}
      {events : List ElementEvent} {pointer : ℕ} (hw : ReachableWorld w)
      (hruns : Runs calls user thread (gcNew size alignment destroyObject) w events
        (.returned pointer) w') : Obtained thread w' pointer
  | array {T : ElementType} {count base : ℕ} {w w₁ : World} {events : List ElementEvent}
      {pointer : ℕ} (hw : ReachableWorld w) (hpos : 0 < count)
      (hfits : T.arrayElementsOffset+T.size*count ≤ sizeMax)
      (hret : Returns thread (.mallocInternal (T.payloadSize count) T.payloadAlignment
        (some T.destructor) true) w w₁ (.ok (.word base)))
      (hruns : Runs (SparesPayload thread base) (PinsPayload thread base) thread
        (T.constructArrayAt base count) w₁ events (.returned pointer) w') :
      Obtained thread w' pointer
  | locked {calls user : Label → World → Prop} {storage : ℕ} {w : World}
      {events : List ElementEvent} {pointer : ℕ} (hw : ReachableWorld w)
      (hruns : Runs calls user thread (GcWeakPtr.lock storage) w events (.returned pointer) w')
      (hne : pointer ≠ 0) : Obtained thread w' pointer

/-- A registered thread was given a pointer into the block of a value, and has been in its own
code since. -/
def Handed (thread : ThreadId) (origin : Origin) (w : World) : Prop :=
  w.state.isRegistered thread = true ∧ ∃ w₀ pointer, Obtained thread w₀ pointer ∧
    (∀ b ∈ w₀.state.allocations.values, b.Contains pointer →
      b.Contains origin.pointer ∧ w₀.state.serial b.header = origin.serial) ∧
    ReflTransGen (Attended thread origin) w₀ w

/-- Roots are constructed at places of their own, and given what their thread has in hand. -/
structure HandedPromise (w : World) (thread : ThreadId) (operation : StrongOperation)
    (handles : List StrongHandle) (operations : List StrongOperation) : Prop where
  fresh : ∀ this ∈ operation.constructs, this ∉ strongSlots handles operations
  hands : ∀ origin ∈ operation.hands, Handed thread origin w

/-- The `gc_root`s of a client that passes on what it was given. -/
abbrev handedInterface : Interface StrongHandle := strongInterface.promising HandedPromise

section
variable {w w' : World} {thread : ThreadId} {P : Label → World → Prop} {b : BlockRecord}
  {payload pointer storage : ℕ} {value : Value}

/-! ## What is returned points into a block -/

/-- A call whose section ends with a value returns in the step of its section. -/
theorem returns_in_section {call : Call} (h : ReachableWorld w) (hi : call.immediate = none)
    (hdone : ∀ fuel s supply next s' supply',
      (Section.body thread fuel (.call call)) s supply = .returns next s' supply' →
        ∃ value, next = .done value)
    (hret : ReturnsBy P thread call w w' (.ok value)) :
    ∃ u choice stage, ReachableWorld u ∧
      u.control thread = .entering (.call call) stage :: w.control thread ∧
      step (.run thread choice) u = some w' ∧ SectionRuns thread call (w.control thread) u w' := by
  obtain ⟨-,-,hu⟩ := hret.result hi
  obtain ⟨u,v,label,stage,hru,-,hcontrol,-,rfl,hstep,hruns,hin⟩ := hret.section h hi
  have hback : v.control label.thread = w.control label.thread := by
    cases hruns with
    | returns hco hrun hw =>
      obtain ⟨value,rfl⟩ := hdone _ _ _ _ _ _ hrun
      rw [hw, proceed_control, Function.update_self]
      exact resumed_user hu
    | throws hco hrun hw =>
      rw [hw, deliver_control, Function.update_self]
      exact resumed_user hu
    | prologueThrows hcall hw =>
      rw [hw, deliver_control, Function.update_self]
      exact resumed_user hu
  obtain rfl := returned_inside hin hback
  cases label with
  | run thread choice => exact ⟨u,choice,stage,hru,hcontrol,hstep,hruns⟩
  | user thread action =>
    have huser : inUserCode (u.control thread) = true := by
      simp only [step] at hstep
      split_ifs at hstep with huser
      exact huser
    rw [show u.control thread = _ from hcontrol] at huser
    cases huser

/-- What `finish_construction` returns for is registered. -/
theorem finished_live (h : ReachableWorld w)
    (hret : ReturnsBy P thread (.finishConstruction payload) w w' (.ok value)) :
    ∃ b ∈ w'.state.allocations.values, b.Contains payload := by
  obtain ⟨hback,hresult,hu⟩ := hret.result rfl
  obtain ⟨u,choice,stage,hru,hcontrol,hstep,hruns⟩ := returns_in_section h rfl
    (fun _ _ _ _ _ _ hrun => ⟨_,((meets_finishSection _).returns hrun).1⟩) hret
  have hunit : value = .unit := by
    cases hruns with
    | returns hco hrun hw =>
      obtain ⟨rfl,-⟩ := (meets_finishSection _).returns hrun
      rw [hw, World.proceed, deliver_result hu] at hresult
      cases hresult
      rfl
    | throws hco hrun hw =>
      rw [hw, deliver_result hu] at hresult
      cases hresult
    | prologueThrows hcall => cases hcall
  subst hunit
  exact hands_live hru (.constructed payload) hcontrol hu hstep hback hresult

/-- What `read_weak_ref` returns lies in a registered block. -/
theorem read_live (h : ReachableWorld w) (hne : pointer ≠ 0)
    (hret : ReturnsBy P thread (.readWeakRef storage) w w' (.ok (.word pointer))) :
    ∃ b ∈ w'.state.allocations.values, b.Contains pointer := by
  obtain ⟨hback,hresult,hu⟩ := hret.result rfl
  obtain ⟨u,choice,stage,hru,hcontrol,hstep,-⟩ := returns_in_section h rfl
    (fun _ _ _ _ _ _ hrun => singleSection_done rfl hrun) hret
  exact hands_live hru (.promoted hne) hcontrol hu hstep hback hresult

theorem steps_of_user {rest : List Frame} (h : ReflTransGen (UserStep P thread rest) w w') :
    ReflTransGen (Steps step) w w' :=
  ReflTransGen.mono (fun _ _ ⟨⟨label,_,hstep⟩,_⟩ => ⟨label,hstep⟩) _ _ h

/-- The pointer that `gc_new` returns. -/
theorem object_live {calls user : Label → World → Prop} {size alignment destroyObject : ℕ}
    {events : List ElementEvent} (h : ReachableWorld w)
    (hruns : Runs calls user thread (gcNew size alignment destroyObject) w events
      (.returned pointer) w') :
    ReachableWorld w' ∧ ∃ b ∈ w'.state.allocations.values, b.Contains pointer := by
  rcases hruns.allocation h with ⟨-,-,u,e,-,-,hthrew⟩ | ⟨u,u',base,hu,hret,hruns⟩
  · cases hthrew
  have hu' : ReachableWorld u' := hret.reachable hu
  have hobject := constructObject_shape hruns
  generalize houtcome : Outcome.returned pointer = outcome at hobject
  cases hobject with
  | constructing => cases houtcome
  | @constructed v₁ v₂ v₃ result ho huser hc ho' hret' =>
    have hv₂ : ReachableWorld v₂ :=
      Reachable.steps (control_of_other hu' ho).1 (steps_of_user huser)
    have hv₃ := (control_of_other hv₂ ho').1
    cases result with
    | ok value =>
      cases houtcome
      exact ⟨hret'.reachable hv₃,finished_live hv₃ hret'⟩
    | error e => cases houtcome
  | @failed _ _ _ exception result => cases result <;> cases houtcome

/-- A block under construction stays registered through the loop and the calls around it. -/
theorem array_live {T : ElementType} {count : ℕ} {events : List ElementEvent}
    (h : ReachableWorld w) (hb : b ∈ w.state.allocations.values) (hc : b.constructing = true)
    (hcount : count < addressLimit)
    (hruns : Runs (SparesPayload thread b.payloadBegin) (PinsPayload thread b.payloadBegin) thread
      (T.constructArrayAt b.payloadBegin count) w events (.returned pointer) w') :
    pointer = T.arrayElementsBegin b.payloadBegin ∧ ReachableWorld w' ∧
      ∃ b' ∈ w'.state.allocations.values, b'.payloadBegin = b.payloadBegin ∧
        b'.payloadEnd = b.payloadEnd := by
  have hother : ∀ {u u'}, ReflTransGen (OtherStep (SparesPayload thread b.payloadBegin) thread)
      u u' → ReachableWorld u ∧ b ∈ u.state.allocations.values →
        ReachableWorld u' ∧ b ∈ u'.state.allocations.values :=
    fun ho hu => pinned_other hu.1 hu.2 hc (fun _ _ hP => hP.2) ho
  have huser : ∀ {rest u u'}, ReflTransGen (UserStep (PinsPayload thread b.payloadBegin) thread
      rest) u u' → ReachableWorld u ∧ b ∈ u.state.allocations.values →
        ReachableWorld u' ∧ b ∈ u'.state.allocations.values :=
    fun huser hu => pinned_user hu.1 hu.2 hc (fun _ _ hP => hP.2) huser
  have hstored : ∀ {n u u'}, run step (storeLabels thread b.payloadBegin n) u = some u' →
      ReachableWorld u ∧ b ∈ u.state.allocations.values →
        ReachableWorld u' ∧ b ∈ u'.state.allocations.values := by
    intro n u u' hrun hu
    refine ⟨Reachable.steps hu.1 (steps_of_run hrun),?_⟩
    rw [run_storeWord hrun]
    exact hu.2
  cases hruns with
  | store ho hs hruns =>
    have hstart := hstored hs (hother ho ⟨h,hb⟩)
    rcases Runs.bind (p := T.constructElements b.payloadBegin 0 count) hruns with
      ⟨failure,u,before,after,-,hloop,hend⟩ | ⟨e,he,-⟩ | ⟨address,index,he,-⟩
    · obtain ⟨-,hu,-⟩ := constructElements_runs (I := fun _ u => ReachableWorld u ∧
        b ∈ u.state.allocations.values) hother huser (fun _ => hstored) (by omega) hstart hloop
      cases failure with
      | none =>
        obtain ⟨u₀,u₁,result,ho',hret,⟨value,rfl,hend⟩ | ⟨e,-,he,-⟩⟩ := Runs.invoke hend
        · obtain ⟨hr₀,hb₀⟩ := hother ho' hu
          obtain ⟨-,v,-,-,hfinishes⟩ := hret.finishes hr₀ hb₀ hc fun _ _ hP => hP.2
          obtain ⟨s,hs,hstate⟩ := hfinishes.state
          cases hend
          obtain ⟨b',hb',-,hbegin,hend'⟩ := @setConstructing_contains _ b.payloadBegin false _
            (hs.allocations ▸ hfinishes.live)
          exact ⟨rfl,hret.reachable hr₀,b',hstate ▸ hb',hbegin,hend'⟩
        · cases he
      | some exception =>
        change Runs _ _ _ (T.arrayDestructor b.payloadBegin >>= fun _ =>
          Program.invoke (.releaseUnconstructed b.payloadBegin) >>= fun _ => .throws exception)
          _ _ _ _ at hend
        rcases Runs.bind hend with ⟨_,v,_,_,-,-,htail⟩ | ⟨e,he,-⟩ | ⟨address,index,he,-⟩
        · obtain ⟨u₀,u₁,result,-,-,⟨value,-,hthrows⟩ | ⟨e,-,he,-⟩⟩ := Runs.invoke htail
          · cases hthrows
          · cases he
        · cases he
        · cases he
    · cases he
    · cases he

theorem Obtained.live (h : Obtained thread w' pointer) :
    ReachableWorld w' ∧ ∃ b ∈ w'.state.allocations.values, b.Contains pointer := by
  cases h with
  | object hw hruns => exact object_live hw hruns
  | array hw hpos hfits hret hruns =>
    rename_i T count base w w₁ events
    obtain ⟨e,he,-⟩ | ⟨base',hbase',hall⟩ := hret.mallocInternal hw
    · cases he
    cases hbase'
    obtain ⟨hnonzero,hword⟩ := payloadSize_bounds T hpos hfits
    obtain ⟨halign,hspace⟩ := allocated_aligned hword (payloadAlignment_lt T) hnonzero
      (payloadAlignment_two_pow T) hall
    have hlaid := array_laid_out T hpos hfits hspace halign
    obtain ⟨b,hb,rfl,hc,hend,-⟩ := hall.record hw
    have hsize := payloadSize_eq T hfits
    have hprod : count ≤ T.size*count := Nat.le_mul_of_pos_left _ T.size_pos
    have hlt : count < addressLimit := by
      unfold sizeMax at hfits
      unfold addressLimit
      omega
    obtain ⟨rfl,hr,b',hb',hbegin',hend'⟩ := array_live (hret.reachable hw) hb hc hlt hruns
    refine ⟨hr,b',hb',?_,?_⟩
    · rw [hbegin', hlaid.begin_eq]
      exact Nat.le_add_right _ _
    · rw [hend', hend, hlaid.begin_eq]
      omega
  | locked hw hruns hne =>
    obtain ⟨u,u',result,ho,hret,⟨value,rfl,hruns⟩ | ⟨e,-,hthrew,-⟩⟩ := hruns.invoke
    · have hu := (control_of_other hw ho).1
      cases hruns
      cases value with
      | word target => exact ⟨hret.reachable hu,read_live hu hne hret⟩
      | _ => exact absurd rfl hne
    · cases hthrew

/-! ## What is in hand reaches the roots -/

theorem Handed.live {origin : Origin} (h : Handed thread origin w) : origin.Live w.state := by
  obtain ⟨-,w₀,pointer,hobtained,hvalue,hsteps⟩ := h
  obtain ⟨hw₀,b,hb,hcontains⟩ := hobtained.live
  obtain ⟨hinner,hserial⟩ := hvalue b hb hcontains
  exact (attended_run hw₀ ⟨b,hb,hinner,hserial⟩ hsteps).2

theorem HandedPromise.promises {operation : StrongOperation} {handles : List StrongHandle}
    {operations : List StrongOperation} (h : HandedPromise w thread operation handles operations) :
    StrongPromise w thread operation handles operations where
  fresh := h.fresh
  hands origin horigin := ⟨(h.hands origin horigin).1,(h.hands origin horigin).live⟩

theorem forget_reachable {s : Session handedInterface} (h : s.Reachable) : s.forget.Reachable :=
  h.forget fun _ _ hpromise => hpromise.promises

end

/-- Whoever runs and whatever the scans of stacks find: what `gc_new`, the construction of an array
or `lock` returned to a registered thread, which passed it on to a root, is registered in the
whole operation and when it is done, and stays registered as long as some root holds it. The
operations leave the roots with the values they should have, and `emplace_new` leaves the elements
with theirs and the new one with what was created. -/
theorem rooted_from_hand {s : Session handedInterface} (h : s.Reachable) :
    (∀ handle ∈ s.handles, Rooted s.world.state handle ∧
      ∀ origin ∈ handle.origin, ∀ w, ReachableWorld w → ReflTransGen (Steps step) w s.world →
        .registered origin.serial ∈ w.log → w.state.live origin.serial = true) ∧
    (∀ job ∈ s.jobs, (∀ exception, job.progress ≠ .running (.throws exception)) →
      ∀ handle ∈ StrongOperation.leaves job.operation,
        ∀ origin ∈ handle.origin, origin.Live s.world.state) ∧
    (∀ job others done, s.jobs.Perm (job :: others) →
      job.progress = .running (.returns done) →
        done job.trace = StrongOperation.leaves job.operation ∧
        ∀ handle ∈ StrongOperation.leaves job.operation, Rooted s.world.state handle) ∧
    ∀ thread elements created given place places own s',
      Session.Sequence thread elements
        (GcVector.emplaceNew elements created given place places) s own s' →
      elements.Subperm s.handles → own.Perm (GcVector.emplaced elements given place places) ∧
        ∀ handle ∈ GcVector.emplaced elements given place places,
          handle ∈ s'.handles ∧ Rooted s'.world.state handle := by
  have hrooted : ∀ {s : Session handedInterface}, s.Reachable → ∀ handle ∈ s.handles,
      Rooted s.world.state handle := by
    intro s h handle hmem
    obtain ⟨accounts,-,-,hregistry⟩ := sound_strongLedger.balanced (forget_reachable h)
    exact rooted_of_mem hregistry hmem
  have hsettles : ∀ operation : StrongOperation,
      operation.code.Settles fun done => ∀ trace, done trace = operation.leaves :=
    StrongOperation.settles
  refine ⟨fun handle hmem => ⟨hrooted h handle hmem,fun origin ho w hw hsteps hregistered => ?_⟩,
    fun job hjob hprogress handle hleaves => ?_,fun job others done hjobs hprogress => ?_,
    fun thread elements created given place places own s' hsequence hown => ?_⟩
  · exact live_since (s := s.forget) hw hsteps ((hrooted h handle hmem).live origin ho) hregistered
  · exact live_of_leaves (forget_reachable h) (List.mem_map_of_mem hjob) hprogress hleaves
  · have hdone := h.settles hsettles job (Session.Placed.mem hjobs)
    have hleaves : done job.trace = StrongOperation.leaves job.operation :=
      hdone.running hprogress (by simp) _
    refine ⟨hleaves,fun handle hmem => ?_⟩
    have hfinished := h.step (.finishes hjobs hprogress)
    refine hrooted hfinished handle (List.mem_append_left _ ?_)
    rw [hleaves]
    exact hmem
  · have hvalues := hsequence.owned_eq hsettles h
    rw [show afterwards handedInterface.takes StrongOperation.leaves elements _ = _ from
      StrongOperation.afterwards_emplaceNew elements created given place places] at hvalues
    have hperm := Multiset.coe_eq_coe.mp hvalues
    refine ⟨hperm,fun handle hmem => ?_⟩
    have hrest := (hsequence.owns hown).subset (hperm.symm.subset hmem)
    exact ⟨hrest,hrooted (hsequence.reachable h) handle hrest⟩

/-- A thread makes an object with `gc_new`. -/
def checkedRun : List Label :=
  registeredRun ++ [.user 0 (.call (.collectIfNeeded 16)),.run 0 {}]

def placedRun : List Label := checkedRun ++
  [.user 0 (.call (.mallocInternal 16 16 (some 7) true)),.run 0 {},.run 0 { region := 4096 },
    .run 0 {}]

def objectRun : List Label := placedRun ++ [.user 0 (.call (.finishConstruction 4128)),.run 0 {}]

theorem obtained_objectRun : Obtained 0 (worldAfter objectRun) 4128 := by
  have hchecks : Returns 0 (.collectIfNeeded 16) (worldAfter registeredRun) (worldAfter checkedRun)
      (.ok .unit) :=
    .run (by decide +kernel) trivial (worldAfter_step registeredRun _ (by decide +kernel))
      (Inside.steps (worldAfter_run _ _ (by decide +kernel)) (by decide +kernel)
        (by decide +kernel)) (by decide +kernel) (by decide +kernel)
  have hplaces : Returns 0 (.mallocInternal 16 16 (some 7) true) (worldAfter checkedRun)
      (worldAfter placedRun) (.ok (.word 4128)) :=
    .run (by decide +kernel) trivial (worldAfter_step checkedRun _ (by decide +kernel))
      (Inside.steps (worldAfter_run _ _ (by decide +kernel)) (by decide +kernel)
        (by decide +kernel)) (by decide +kernel) (by decide +kernel)
  have hfinishes : Returns 0 (.finishConstruction 4128) (worldAfter placedRun)
      (worldAfter objectRun) (.ok .unit) :=
    .run (by decide +kernel) trivial (worldAfter_step placedRun _ (by decide +kernel))
      (Inside.steps (worldAfter_run _ _ (by decide +kernel)) (by decide +kernel)
        (by decide +kernel)) (by decide +kernel) (by decide +kernel)
  have hruns : Runs (fun _ _ => True) (fun _ _ => True) 0 (gcNew 16 16 7)
      (worldAfter registeredRun) [.constructs 4128 0 (.ok ())] (.returned 4128)
      (worldAfter objectRun) :=
    .call .refl hchecks (.call .refl hplaces
      (.construct .refl .refl rfl (.call .refl hfinishes .returns)))
  exact .object (reachable_worldAfter registeredRun) hruns

theorem handed_objectRun : Handed 0 ⟨4128,0⟩ (worldAfter objectRun) := by
  have hblocks : (worldAfter objectRun).state.allocations.values = [⟨4096,4128,4144,false⟩] := by
    decide +kernel
  refine ⟨by decide +kernel,worldAfter objectRun,4128,obtained_objectRun,fun b hb hcontains => ?_,
    .refl⟩
  rw [hblocks] at hb
  obtain rfl := List.mem_singleton.mp hb
  exact ⟨hcontains,by decide +kernel⟩

/-- The object goes to a vector without elements, through a root on the stack. -/
def createdStores : List Label := objectRun ++ storeLabels 0 256 4128

def createdCall : List Label := createdStores ++ [.user 0 (.call (.registerRootRange 256 264))]

def createdRun : List Label := createdCall ++ [.run 0 {}]

def elementSlot : Slot := ⟨264,by decide,by decide⟩

def elementStores : List Label := createdRun ++ storeLabels 0 264 4128

def elementCall : List Label := elementStores ++ [.user 0 (.call (.registerRootRange 264 272))]

def elementRun : List Label := elementCall ++ [.run 0 {}]

def emplacedCall : List Label := elementRun ++ [.user 0 (.call (.unregisterRootRange 256 264))]

def emplacedRun : List Label := emplacedCall ++ [.run 0 {}]

theorem performs_created : Session.Performs (I := handedInterface) 0
    (.construct strongSlot (some ⟨4128,0⟩)) [] [⟨strongSlot,some ⟨4128,0⟩⟩]
    ⟨worldAfter objectRun,[],[]⟩ ⟨worldAfter createdRun,[],[⟨strongSlot,some ⟨4128,0⟩⟩]⟩ := by
  have huser : inUserCode ((worldAfter objectRun).control 0) = true := by decide +kernel
  have hhanded := handed_objectRun
  have hstores : run step (storeLabels 0 256 4128) (worldAfter objectRun) =
      some (worldAfter createdStores) := worldAfter_run objectRun _ (by decide +kernel)
  have hcalls : step (.user 0 (.call (.registerRootRange 256 264))) (worldAfter createdStores) =
      some (worldAfter createdCall) := worldAfter_step createdStores _ (by decide +kernel)
  have hreturns : step (.run 0 {}) (worldAfter createdCall) = some (worldAfter createdRun) :=
    worldAfter_step createdCall _ (by decide +kernel)
  have hcontrol : (worldAfter createdRun).control 0 = (worldAfter createdStores).control 0 := by
    decide +kernel
  have hresult : (worldAfter createdRun).result 0 = some (.ok .unit) := by decide +kernel
  generalize worldAfter objectRun = w₀ at *
  generalize worldAfter createdStores = w₁ at *
  generalize worldAfter createdCall = w₂ at *
  generalize worldAfter createdRun = w₃ at *
  let operation : StrongOperation := .construct strongSlot (some ⟨4128,0⟩)
  have hpromised : HandedPromise w₀ 0 operation [] [] := by
    refine ⟨fun _ _ hmem => absurd hmem List.not_mem_nil,fun origin horigin => ?_⟩
    obtain rfl := List.mem_singleton.mp horigin
    exact hhanded
  let begun : Session handedInterface := ⟨w₀,[⟨0,operation,.running operation.code,[]⟩],[]⟩
  have hbegins : Session.Step (I := handedInterface) ⟨w₀,[],[]⟩ begun :=
    .begins_alone huser (List.Perm.refl _) (fun _ h => absurd h List.not_mem_nil) hpromised
  have hbegun : ReflTransGen (Session.Continues (0,operation) []) begun begun := .refl
  have hstored := hbegun.tail
    ⟨.stores (List.Perm.refl _) rfl hstores,List.mem_singleton_self _,List.nil_subperm⟩
  have hcalled := hstored.tail
    ⟨.calls (List.Perm.refl _) rfl (by decide) hcalls,List.mem_singleton_self _,List.nil_subperm⟩
  have hreturned := hcalled.tail ⟨.returns (List.Perm.refl _) rfl hreturns hcontrol hresult,
    List.mem_singleton_self _,List.nil_subperm⟩
  exact ⟨_,_,_,_,_,hbegins,rfl,hreturned,List.Perm.refl _,rfl,rfl,rfl,rfl,rfl⟩

theorem performs_element : Session.Performs (I := handedInterface) 0
    (.copyConstruct elementSlot ⟨strongSlot,some ⟨4128,0⟩⟩) [⟨strongSlot,some ⟨4128,0⟩⟩]
    [⟨elementSlot,some ⟨4128,0⟩⟩] ⟨worldAfter createdRun,[],[⟨strongSlot,some ⟨4128,0⟩⟩]⟩
    ⟨worldAfter elementRun,[],[⟨elementSlot,some ⟨4128,0⟩⟩,⟨strongSlot,some ⟨4128,0⟩⟩]⟩ := by
  have huser : inUserCode ((worldAfter createdRun).control 0) = true := by decide +kernel
  have hword : readWord (worldAfter createdRun).state.memory 256 = 4128 := by decide +kernel
  have hstores : run step (storeLabels 0 264 4128) (worldAfter createdRun) =
      some (worldAfter elementStores) := worldAfter_run createdRun _ (by decide +kernel)
  have hcalls : step (.user 0 (.call (.registerRootRange 264 272))) (worldAfter elementStores) =
      some (worldAfter elementCall) := worldAfter_step elementStores _ (by decide +kernel)
  have hreturns : step (.run 0 {}) (worldAfter elementCall) = some (worldAfter elementRun) :=
    worldAfter_step elementCall _ (by decide +kernel)
  have hcontrol : (worldAfter elementRun).control 0 = (worldAfter elementStores).control 0 := by
    decide +kernel
  have hresult : (worldAfter elementRun).result 0 = some (.ok .unit) := by decide +kernel
  generalize worldAfter createdRun = w₀ at *
  generalize worldAfter elementStores = w₁ at *
  generalize worldAfter elementCall = w₂ at *
  generalize worldAfter elementRun = w₃ at *
  let created : StrongHandle := ⟨strongSlot,some ⟨4128,0⟩⟩
  let operation : StrongOperation := .copyConstruct elementSlot created
  let rest (word : ℕ) : Program (Trace → List StrongHandle) :=
    Program.writeWord 264 word >>= fun _ => registerRootObject 264 wordSize >>= fun _ =>
      pure fun _ => [⟨elementSlot,some ⟨4128,0⟩⟩]
  have hpromised : HandedPromise w₀ 0 operation [created] [] :=
    ⟨by decide,fun _ hmem => absurd hmem List.not_mem_nil⟩
  let begun : Session handedInterface := ⟨w₀,[⟨0,operation,.running (.load 256 rest),[]⟩],[created]⟩
  have hbegins : Session.Step (I := handedInterface) ⟨w₀,[],[created]⟩ begun :=
    .begins_alone huser (List.Perm.refl _) (fun _ h => h) hpromised
  have hbegun : ReflTransGen (Session.Continues (0,operation) [created]) begun begun := .refl
  have hloads := hbegun.tail ⟨@Session.Step.loads _ _ _ _ [] 256 rest (List.Perm.refl _) rfl,
    List.mem_singleton_self _,List.Subperm.refl _⟩
  have hloaded : ∀ word, word = readWord w₀.state.memory 256 →
      ReflTransGen (Session.Continues (0,operation) [created]) begun
        ⟨w₀,[⟨0,operation,.running (rest word),[]⟩],[created]⟩ := by
    rintro word rfl
    exact hloads
  have hstored := (hloaded 4128 hword.symm).tail
    ⟨.stores (List.Perm.refl _) rfl hstores,List.mem_singleton_self _,List.Subperm.refl _⟩
  have hcalled := hstored.tail ⟨.calls (List.Perm.refl _) rfl (by decide) hcalls,
    List.mem_singleton_self _,List.Subperm.refl _⟩
  have hreturned := hcalled.tail ⟨.returns (List.Perm.refl _) rfl hreturns hcontrol hresult,
    List.mem_singleton_self _,List.Subperm.refl _⟩
  exact ⟨_,_,_,_,_,hbegins,rfl,hreturned,List.Perm.refl _,rfl,rfl,rfl,rfl,rfl⟩

theorem performs_destroyed : Session.Performs (I := handedInterface) 0
    (.destroy ⟨strongSlot,some ⟨4128,0⟩⟩) [⟨elementSlot,some ⟨4128,0⟩⟩] []
    ⟨worldAfter elementRun,[],[⟨elementSlot,some ⟨4128,0⟩⟩,⟨strongSlot,some ⟨4128,0⟩⟩]⟩
    ⟨worldAfter emplacedRun,[],[⟨elementSlot,some ⟨4128,0⟩⟩]⟩ := by
  have huser : inUserCode ((worldAfter elementRun).control 0) = true := by decide +kernel
  have hcalls : step (.user 0 (.call (.unregisterRootRange 256 264))) (worldAfter elementRun) =
      some (worldAfter emplacedCall) := worldAfter_step elementRun _ (by decide +kernel)
  have hreturns : step (.run 0 {}) (worldAfter emplacedCall) = some (worldAfter emplacedRun) :=
    worldAfter_step emplacedCall _ (by decide +kernel)
  have hcontrol : (worldAfter emplacedRun).control 0 = (worldAfter elementRun).control 0 := by
    decide +kernel
  have hresult : (worldAfter emplacedRun).result 0 = some (.ok .unit) := by decide +kernel
  generalize worldAfter elementRun = w₀ at *
  generalize worldAfter emplacedCall = w₁ at *
  generalize worldAfter emplacedRun = w₂ at *
  let created : StrongHandle := ⟨strongSlot,some ⟨4128,0⟩⟩
  let element : StrongHandle := ⟨elementSlot,some ⟨4128,0⟩⟩
  let operation : StrongOperation := .destroy created
  have hpromised : HandedPromise w₀ 0 operation [element,created] [] :=
    ⟨fun _ hmem => absurd hmem List.not_mem_nil,fun _ hmem => absurd hmem List.not_mem_nil⟩
  let begun : Session handedInterface :=
    ⟨w₀,[⟨0,operation,.running operation.code,[]⟩],[element]⟩
  have hbegins : Session.Step (I := handedInterface) ⟨w₀,[],[element,created]⟩ begun :=
    .begins_alone huser (List.Perm.swap ..) (fun _ h => absurd h List.not_mem_nil) hpromised
  have hbegun : ReflTransGen (Session.Continues (0,operation) [element]) begun begun := .refl
  have hcalled := hbegun.tail ⟨.calls (List.Perm.refl _) rfl (by decide) hcalls,
    List.mem_singleton_self _,List.Subperm.refl _⟩
  have hreturned := hcalled.tail ⟨.returns (List.Perm.refl _) rfl hreturns hcontrol hresult,
    List.mem_singleton_self _,List.Subperm.refl _⟩
  exact ⟨_,_,_,_,_,hbegins,rfl,hreturned,List.Perm.refl _,rfl,rfl,rfl,rfl,rfl⟩

theorem reachable_objectRun :
    Session.Reachable (I := handedInterface) ⟨worldAfter objectRun,[],[]⟩ := by
  have hinitial : Session.Reachable (I := handedInterface) ⟨worldAfter [],[],[]⟩ :=
    ⟨_,⟨fun _ => 0,rfl⟩,.refl⟩
  exact hinitial.outside_run rfl (fun _ _ _ _ => rfl)
    (fun _ _ _ => ⟨fun _ hmem => absurd hmem List.not_mem_nil,
      fun _ hmem => absurd hmem List.not_mem_nil⟩) (worldAfter_run [] objectRun (by decide +kernel))

theorem rooted_from_hand_emplacedRun :
    Rooted (worldAfter emplacedRun).state ⟨elementSlot,some ⟨4128,0⟩⟩ := by
  obtain ⟨-,-,-,hemplaces⟩ := rooted_from_hand reachable_objectRun
  obtain ⟨-,helements⟩ := hemplaces 0 [] strongSlot (some ⟨4128,0⟩) elementSlot none _ _
    (.performs (List.Perm.refl _) performs_created
      (.performs (List.Perm.refl _) performs_element
        (.performs (List.Perm.swap ..) performs_destroyed .done))) List.nil_subperm
  exact (helements _ (List.mem_singleton_self _)).2

end GcLib.Properties
