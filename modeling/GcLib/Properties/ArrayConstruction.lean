import GcLib.Client.Contracts
import GcLib.Properties.ArrayLayout
import GcLib.Protocol.ConstructionCalls

/-! # Array construction

The elements are constructed in order, and the count in front of them is the number of those
that are complete whenever user code runs. When a construction fails the complete elements are
destroyed from the last one down, and the block is withdrawn.
-/

namespace GcLib.Properties
open GcLib.Heap GcLib.Support GcLib.Protocol GcLib.Client Relation

/-- The rules for an array outside its callbacks. -/
def SparesArray (thread : ThreadId) (payload : ℕ) : Label → World → Prop := fun label w =>
  SparesPayload thread payload label w ∧ SparesWord payload label w

/-- The rules for its callbacks. -/
def PinsArray (thread : ThreadId) (payload : ℕ) : Label → World → Prop := fun label w =>
  PinsPayload thread payload label w ∧ SparesWord payload label w

instance (thread : ThreadId) (payload : ℕ) (label : Label) (w : World) :
    Decidable (SparesArray thread payload label w) := inferInstanceAs (Decidable (_ ∧ _))

instance (thread : ThreadId) (payload : ℕ) (label : Label) (w : World) :
    Decidable (PinsArray thread payload label w) := inferInstanceAs (Decidable (_ ∧ _))

/-- How a construction of an array ended. -/
inductive ArrayEnd (T : ElementType) (thread : ThreadId) (b : BlockRecord) (serial count : ℕ)
    (w' : World) : List ElementEvent → Outcome ℕ → Prop where
  | finished {u : World} (h : HoldsCount b serial count u)
      (hf : Finishes (SparesArray thread b.payloadBegin) b u w') :
      ArrayEnd T thread b serial count w' (constructedEvents T b.payloadBegin 0 count)
        (.returned (T.arrayElementsBegin b.payloadBegin))
  | failed {k : ℕ} {exception : Thrown} {u : World} (hk : k < count) (h : HoldsCount b serial k u)
      (hw : Withdrawn (SparesArray thread b.payloadBegin) thread b u w') :
      ArrayEnd T thread b serial count w' (constructedEvents T b.payloadBegin 0 k ++
        [.constructs (T.constructedElement b.payloadBegin k) k (.error exception)] ++
          destroyedEvents T b.payloadBegin k) (.threw exception)
  | constructing {k : ℕ} (hk : k < count) (h : HoldsCount b serial k w') :
      ArrayEnd T thread b serial count w' (constructedEvents T b.payloadBegin 0 k)
        (.constructing (T.constructedElement b.payloadBegin k) k)

section
variable {T : ElementType} {b : BlockRecord} {w w' : World} {thread : ThreadId}
  {serial count : ℕ}

theorem other_spares : ∀ label u, SparesArray thread b.payloadBegin label u →
    label.thread ≠ thread → ¬ UnpinsBy label.thread b.payloadBegin u ∧
      SparesWord b.payloadBegin label u :=
  fun _ _ h hne => ⟨h.1.2 hne,h.2⟩

theorem user_spares : ∀ label u, PinsArray thread b.payloadBegin label u →
    ¬ UnpinsBy label.thread b.payloadBegin u ∧ SparesWord b.payloadBegin label u :=
  fun _ _ h => ⟨h.1.2,h.2⟩

/-- The construction loop keeps the count at the number of complete elements. -/
theorem constructElements_counts (hc : b.constructing = true)
    (hsize : b.payloadBegin+wordSize ≤ b.payloadEnd) (hlt : count < addressLimit)
    (hw : HoldsCount b serial 0 w) {outcome : Outcome (Option Thrown)} {events : List ElementEvent}
    (hruns : Runs (SparesArray thread b.payloadBegin) (PinsArray thread b.payloadBegin) thread
      (T.constructElements b.payloadBegin 0 count) w events outcome w') :
    ∃ completed, HoldsCount b serial completed w' ∧
      LoopEvents T b.payloadBegin 0 count completed events outcome := by
  obtain ⟨completed,hw',hevents⟩ := constructElements_runs (I := HoldsCount b serial)
    (fun ho hI => hI.other hc hsize other_spares ho)
    (fun hu hI => hI.user hc hsize user_spares hu) (fun hn hs hI => hI.store hn hs)
    (by omega) hw hruns
  rw [Nat.zero_add] at hw'
  exact ⟨completed,hw',hevents⟩

theorem arrayDestructor_counts (hc : b.constructing = true)
    (hsize : b.payloadBegin+wordSize ≤ b.payloadEnd) (hlaid : ArrayLaidOut T count b.payloadBegin)
    {k : ℕ} (hk : k ≤ count) (hw : HoldsCount b serial k w) {outcome : Outcome Unit}
    {events : List ElementEvent}
    (hruns : Runs (SparesArray thread b.payloadBegin) (PinsArray thread b.payloadBegin) thread
      (T.arrayDestructor b.payloadBegin) w events outcome w') :
    outcome = .returned () ∧ HoldsCount b serial k w' ∧
      events = destroyedEvents T b.payloadBegin k := by
  obtain ⟨houtcome,hw',u,ho,hevents⟩ := arrayDestructor_runs (I := HoldsCount b serial k)
    (fun ho hI => hI.other hc hsize other_spares ho)
    (fun hu hI => hI.user hc hsize user_spares hu) hlaid hw hruns
  have hcount := (hw.other hc hsize other_spares ho).count_eq
  rw [hcount] at hevents
  exact ⟨houtcome,hw',hevents hk⟩

/-- After its loop, `construct_array` finishes the construction, or destroys and withdraws. -/
theorem ArrayEnd.of_loop (hc : b.constructing = true)
    (hsize : b.payloadBegin+wordSize ≤ b.payloadEnd) (hlaid : ArrayLaidOut T count b.payloadBegin)
    {u : World} {result : Option Thrown} {before events : List ElementEvent}
    {outcome : Outcome ℕ} {completed : ℕ} (h : HoldsCount b serial completed u)
    (hloop : LoopEvents T b.payloadBegin 0 count completed before (.returned result))
    (hruns : Runs (SparesArray thread b.payloadBegin) (PinsArray thread b.payloadBegin) thread
      (T.endConstruction b.payloadBegin result) u events outcome w') :
    ArrayEnd T thread b serial count w' (before ++ events) outcome := by
  cases hloop with
  | done =>
    obtain ⟨u₀,u₁,result,ho,hret,hend⟩ := Runs.invoke hruns
    have h₀ := h.other hc hsize other_spares ho
    obtain ⟨rfl,v,hv,hquiet,hf⟩ := hret.finishes h₀.reachable h₀.live hc
      (fun label z hz hne => (other_spares label z hz hne).1)
    rcases hend with ⟨value,-,hruns⟩ | ⟨e,he,-⟩
    · cases hruns
      rw [List.append_nil]
      exact .finished (h₀.quiet hc hsize other_spares hquiet) hf
    · cases he
  | failed hk =>
    rename_i exception
    rw [Nat.zero_add]
    change Runs _ _ _ (T.arrayDestructor b.payloadBegin >>= fun _ =>
      Program.invoke (.releaseUnconstructed b.payloadBegin) >>= fun _ => .throws exception) _ _ _ _
      at hruns
    rcases Runs.bind hruns with ⟨_,v,events₁,events₂,rfl,hdestroy,htail⟩ | ⟨e,-,hdestroy⟩ |
      ⟨address,index,-,hdestroy⟩
    · obtain ⟨-,hv,rfl⟩ := arrayDestructor_counts hc hsize hlaid hk.le h hdestroy
      obtain ⟨u₀,u₁,result,ho,hret,hend⟩ := Runs.invoke htail
      have h₀ := hv.other hc hsize other_spares ho
      obtain ⟨rfl,hwithdrawn⟩ := hret.withdraws h₀.reachable h₀.live hc fun _ _ hl => hl.1
      rcases hend with ⟨value,-,hruns⟩ | ⟨e,he,-⟩
      · cases hruns
        rw [List.append_nil]
        exact .failed hk h₀ hwithdrawn
      · cases he
    · cases (arrayDestructor_counts hc hsize hlaid hk.le h hdestroy).1
    · cases (arrayDestructor_counts hc hsize hlaid hk.le h hdestroy).1

theorem constructArrayAt_runs (hc : b.constructing = true) (hb : b ∈ w.state.allocations.values)
    (hsize : b.payloadBegin+wordSize ≤ b.payloadEnd) (hlaid : ArrayLaidOut T count b.payloadBegin)
    (hcount : count < addressLimit) (hserial : w.state.serial b.header = serial)
    (h : ReachableWorld w) {events : List ElementEvent}
    {outcome : Outcome ℕ}
    (hruns : Runs (SparesArray thread b.payloadBegin) (PinsArray thread b.payloadBegin) thread
      (T.constructArrayAt b.payloadBegin count) w events outcome w') :
    ArrayEnd T thread b serial count w' events outcome := by
  cases hruns with
  | store ho hs hruns =>
    have hw : HoldsCount b serial (readWord w.state.memory b.payloadBegin) w := ⟨h,hb,hserial,rfl⟩
    have hstored := (hw.other hc hsize other_spares ho).store (by unfold addressLimit; omega) hs
    rcases Runs.bind (p := T.constructElements b.payloadBegin 0 count) hruns with
      ⟨result,v,before,after,rfl,hloop,htail⟩ | ⟨e,rfl,hloop⟩ |
      ⟨address,index,rfl,hloop⟩
    · obtain ⟨completed,hv,hevents⟩ := constructElements_counts hc hsize hcount hstored hloop
      exact .of_loop hc hsize hlaid hv hevents htail
    · obtain ⟨completed,-,hevents⟩ := constructElements_counts hc hsize hcount hstored hloop
      cases hevents
    · obtain ⟨completed,hv,hevents⟩ := constructElements_counts hc hsize hcount hstored hloop
      cases hevents with
      | constructing hk =>
        rw [Nat.zero_add]
        exact .constructing hk hv

theorem finished_count (h : HoldsCount b serial count w)
    (hf : Finishes (SparesArray thread b.payloadBegin) b w w') :
    ReachableWorld w' ∧ readWord w'.state.memory b.payloadBegin = count ∧
      SameChunks w.state w'.state := by
  obtain ⟨label,-,hstep⟩ := hf.step
  obtain ⟨s,hs,hw⟩ := hf.state
  refine ⟨h.reachable.step hstep,?_,?_⟩
  · rw [hw, ← h.count_eq, ← hs.memory]
    rfl
  · rw [hw]
    exact hs.sameChunks.trans ⟨rfl,rfl⟩

theorem finished_serial (h : HoldsCount b serial count w)
    (hf : Finishes (SparesArray thread b.payloadBegin) b w w') :
    serial < w'.state.nextSerial := by
  obtain ⟨chunk,hchunk,-⟩ := h.reachable.invariant.heap.described b h.live
  rw [(finished_count h hf).2.2.nextSerial, ← h.serial_eq, State.serial_eq hchunk]
  exact h.reachable.lifecycle.serial_lt _ _ hchunk

theorem withdrawn_history (h : HoldsCount b serial count w) (hc : b.constructing = true)
    (hsize : b.payloadBegin+wordSize ≤ b.payloadEnd)
    (hw : Withdrawn (SparesArray thread b.payloadBegin) thread b w w') :
    ∃ destructor, history w'.log serial =
      [.placed serial destructor,.registered serial,.released serial,.freed serial] := by
  cases hw with
  | intro hquiet hw hl hf hh hserial =>
    rw [(h.quiet hc hsize other_spares hquiet).serial_eq] at hserial
    subst hserial
    exact ⟨_,hh⟩

/-- A block that a thread holds keeps its number while the others take steps. -/
theorem held_other {P : Label → World → Prop} {header : ℕ} (h : ReachableWorld w)
    (hheld : header ∈ held (w.control thread))
    (hsteps : ReflTransGen (OtherStep P thread) w w') :
    header ∈ held (w'.control thread) ∧ w'.state.serial header = w.state.serial header := by
  induction hsteps with
  | refl => exact ⟨hheld,rfl⟩
  | tail hsteps hstep ih =>
    have hr := (control_of_other h hsteps).1
    obtain ⟨label,hne,-,hstep⟩ := hstep
    have hcontrol := hr.control hstep thread (Ne.symm hne)
    have hr' : ReachableWorld _ := hr.step hstep
    have hheld' := ih.1
    rw [← hcontrol] at hheld'
    exact ⟨hheld',((hr.move hstep).serial_eq hr.invariant.ownership hr'.invariant.ownership
      hr.invariant.heap ih.1 hheld').trans ih.2⟩

/-- The destructor of a finished array destroys all its elements. -/
theorem finished_destructor (h : HoldsCount b serial count w)
    (hsize : b.payloadBegin+wordSize ≤ b.payloadEnd)
    (hlaid : ArrayLaidOut T count b.payloadBegin) {u w₃ w₄ : World}
    (hf : Finishes (SparesArray thread b.payloadBegin) b w u)
    (hsteps : ReflTransGen (StepBy (SparesWord b.payloadBegin)) u w₃) {thread' : ThreadId}
    (hheld : b.header ∈ held (w₃.control thread')) (hserial : w₃.state.serial b.header = serial)
    {calls user : Label → World → Prop}
    (hcalls : ∀ label u, calls label u → SparesWord b.payloadBegin label u)
    {events : List ElementEvent} {outcome : Outcome Unit}
    (hruns : Runs calls user thread' (T.arrayDestructor b.payloadBegin) w₃ events outcome w₄) :
    outcome = .returned () ∧ events = destroyedEvents T b.payloadBegin count := by
  obtain ⟨hu,hcount,hchunks⟩ := finished_count h hf
  obtain ⟨chunk,hchunk,hd⟩ := h.reachable.invariant.heap.described b h.live
  have hnumber : chunk.serial = serial := by rw [← State.serial_eq hchunk, h.serial_eq]
  have hchunku : u.state.chunks.find? b.header = some chunk := by rw [hchunks.chunks, hchunk]
  have hr₃ : ReachableWorld w₃ := Reachable.steps hu (steps_of_stepBy hsteps)
  have hlt : chunk.serial < u.state.nextSerial := hu.lifecycle.serial_lt _ _ hchunku
  have hreg : .registered chunk.serial ∈ u.log := by
    obtain ⟨label,-,hstep⟩ := hf.step
    refine h.reachable.log_step hstep ?_
    have hmem : .registered chunk.serial ∈ history w.log chunk.serial := by
      rw [h.reachable.lifecycle.registered _ (List.mem_map_of_mem h.live) chunk hchunk]
      simp
    exact (List.mem_filter.mp hmem).1
  cases hruns with
  | load ho hruns =>
    rename_i w₀
    obtain ⟨hheld₀,hserial₀⟩ := held_other hr₃ hheld ho
    have hr₀ := (control_of_other hr₃ ho).1
    have hspared : ReflTransGen (StepBy (SparesWord b.payloadBegin)) w₃ w₀ :=
      ReflTransGen.mono (fun _ _ ⟨label,_,hP,hstep⟩ => ⟨label,hcalls _ _ hP,hstep⟩) _ _ ho
    obtain ⟨chunk₀,hchunk₀⟩ := hr₀.invariant.ownership.held_chunk thread' hheld₀
    have hsame : chunk₀.serial = chunk.serial := by
      rw [← State.serial_eq hchunk₀, hserial₀, hserial, hnumber]
    obtain ⟨-,-,hback⟩ := hu.chunk_stable (steps_of_stepBy (hsteps.trans hspared)) hlt
    have hchunk₀' := hback _ _ hchunk₀ hsame
    rw [hchunku] at hchunk₀'
    obtain rfl := Option.some.inj hchunk₀'
    have hbegin := hd.payloadBegin_eq
    have hend := hd.payloadEnd_eq
    have hextent : chunk.extent = chunk.header.payloadOffset+chunk.header.size := rfl
    have hkept := word_kept hu (hsteps.trans hspared) hchunk₀ hlt hreg (by omega) (by omega)
    rw [hkept, hcount] at hruns
    obtain ⟨houtcome,-,hevents⟩ := destroyElements_runs (I := fun _ => True)
      (fun _ _ => trivial) (fun _ _ => trivial) trivial hruns
    refine ⟨houtcome,hevents.trans (List.map_congr_left fun i hi => ?_)⟩
    rw [List.mem_reverse, List.mem_range] at hi
    rw [hlaid.recomputed i hi]

end

/-- A construction of an array calls its callback once for each index, in order, until one call
throws. While it does, the block is registered and its count is the number of complete elements.
After the last call the count is the length, and the one finalization there can be destroys all
elements from the last one down; after a failed one the complete elements are destroyed in that
order, the block is withdrawn and never finalized, and the exception goes on. -/
theorem array_construction (T : ElementType) {count : ℕ} (hpos : 0 < count)
    (hlt : count < addressLimit) :
    T.constructArray 0 = .returns 0 ∧
    (sizeMax < T.arrayElementsOffset+T.size*count →
      T.constructArray count = .throws (.manager .badAlloc)) ∧
    (T.arrayElementsOffset+T.size*count ≤ sizeMax →
      (∀ calls user thread w events outcome w', ReachableWorld w →
        Runs calls user thread (T.constructArray count) w events outcome w' →
          (∃ c u e, ReturnsBy calls thread c u w' (.error e) ∧ events = [] ∧
            outcome = .threw (.manager e)) ∨
          ∃ u u' base, ReachableWorld u ∧
            ReturnsBy calls thread (.mallocInternal (T.payloadSize count) T.payloadAlignment
              (some T.destructor) true) u u' (.ok (.word base)) ∧
            Runs calls user thread (T.constructArrayAt base count) u' events outcome w') ∧
      ∀ thread w w' base, ReachableWorld w →
        Returns thread (.mallocInternal (T.payloadSize count) T.payloadAlignment
          (some T.destructor) true) w w' (.ok (.word base)) →
        ∃ b ∈ w'.state.allocations.values, b.payloadBegin = base ∧
          (w'.state.header b.header).destructor = some T.destructor ∧
          ∀ events outcome w'',
            Runs (SparesArray thread base) (PinsArray thread base) thread
              (T.constructArrayAt base count) w' events outcome w'' →
            let serial := w'.state.serial b.header
            ArrayEnd T thread b serial count w'' events outcome ∧
            (∀ address, outcome = .returned address → address = T.constructedElement base 0 ∧
              readWord w''.state.memory base = count ∧
              ∀ w₃, ReflTransGen (StepBy (SparesWord base)) w'' w₃ →
                (history w₃.log serial).count (.finalized serial) ≤ 1 ∧
                ∀ thread', b.header ∈ held (w₃.control thread') →
                  w₃.state.serial b.header = serial → ∀ calls user destroyed result w₄,
                  (∀ label u, calls label u → SparesWord base label u) →
                  Runs calls user thread' (T.arrayDestructor base) w₃ destroyed result w₄ →
                    result = .returned () ∧ destroyed = destroyedEvents T base count) ∧
            ∀ exception, outcome = .threw exception →
              (∃ destructor, history w''.log serial = [.placed serial destructor,
                .registered serial,.released serial,.freed serial]) ∧
              w''.state.managedBytes = w''.state.payloadSum w''.state.allocations.values ∧
              ∀ w₃, ReflTransGen (Steps step) w'' w₃ → .finalized serial ∉ w₃.log) := by
  have hguards := array_guards T hlt
  refine ⟨rfl,fun hbig => ?_,fun hfits => ⟨fun calls user thread w events outcome w' h hruns => ?_,
    fun thread w w' base hw hret => ?_⟩⟩
  · unfold ElementType.constructArray
    rw [if_neg hpos.ne', if_pos (hguards.mpr hbig)]
  · unfold ElementType.constructArray at hruns
    rw [if_neg hpos.ne', if_neg (mt hguards.mp (not_lt.mpr hfits))] at hruns
    exact (hruns.allocation h).imp_left fun ⟨c,_,u,e,hthrew⟩ => ⟨c,u,e,hthrew⟩
  · obtain ⟨e,he,-⟩ | ⟨base',hbase',hall⟩ := hret.mallocInternal hw
    · cases he
    cases hbase'
    obtain ⟨hnonzero,hword⟩ := payloadSize_bounds T hpos hfits
    obtain ⟨halign,hspace⟩ := allocated_aligned hword (payloadAlignment_lt T) hnonzero
      (payloadAlignment_two_pow T) hall
    have hlaid := array_laid_out T hpos hfits hspace halign
    obtain ⟨b,hb,rfl,hc,hend,hdestructor⟩ := hall.record hw
    have hprefix := hlaid.prefix_below
    have hpayload := payloadSize_eq T hfits
    have hsize : b.payloadBegin+wordSize ≤ b.payloadEnd := by omega
    refine ⟨b,hb,rfl,hdestructor,fun events outcome w'' hruns => ?_⟩
    have harray := constructArrayAt_runs hc hb hsize hlaid hlt rfl (hret.reachable hw) hruns
    refine ⟨harray,fun address haddress => ?_,fun exception hexception => ?_⟩
    · subst haddress
      cases harray with
      | finished h hf =>
        obtain ⟨hr,hcount,-⟩ := finished_count h hf
        refine ⟨?_,hcount,fun w₃ hsteps => ⟨?_,fun thread' hheld hserial calls user destroyed
          result w₄ hcalls hdestroy =>
            finished_destructor h hsize hlaid hf hsteps hheld hserial hcalls hdestroy⟩⟩
        · rw [hlaid.begin_eq, hlaid.constructed 0 hpos, Nat.mul_zero, Nat.add_zero]
        · obtain ⟨hr₃,hlt₃,-⟩ := hr.chunk_stable (steps_of_stepBy hsteps) (finished_serial h hf)
          exact hr₃.finalized_once hlt₃
    · subst hexception
      cases harray with
      | failed hk h hwithdrawn =>
        have hr : ReachableWorld w'' := hwithdrawn.reachable h.reachable
        obtain ⟨destructor,hhistory⟩ := withdrawn_history h hc hsize hwithdrawn
        have hreleased : .released (w'.state.serial b.header) ∈ w''.log := by
          have hmem : .released (w'.state.serial b.header) ∈
              history w''.log (w'.state.serial b.header) := by
            rw [hhistory]
            simp
          exact (List.mem_filter.mp hmem).1
        refine ⟨⟨destructor,hhistory⟩,hr.invariant.heap.managed,fun w₃ hsteps => ?_⟩
        have hr₃ : ReachableWorld w₃ := Reachable.steps hr hsteps
        exact hr₃.not_finalized (hr.log_mono hsteps hreleased)

/-- Two elements of an array of three are complete; the second one lost a block to a collection
while it was constructed. -/
def secondElementRun : List Label := tripleRun ++ storeLabels 0 4128 0 ++ storeLabels 0 4128 1 ++
  lostAllocation ++ storeLabels 0 4128 2

def failedTripleRun : List Label :=
  secondElementRun ++ [.user 0 (.call (.releaseUnconstructed 4128))] ++ [.run 0 {},.run 0 {}]

def finishedTripleRun : List Label := secondElementRun ++ storeLabels 0 4128 3 ++
  [.user 0 (.call (.finishConstruction 4128))] ++ [.run 0 {}]

theorem runs_secondElement {events : List ElementEvent} {outcome : Outcome ℕ} {w' : World}
    (h : Runs (SparesArray 0 4128) (PinsArray 0 4128) 0
      (tripleElement.constructElements 4128 2 1 >>= tripleElement.endConstruction 4128)
      (worldAfter secondElementRun) events outcome w') :
    Runs (SparesArray 0 4128) (PinsArray 0 4128) 0 (tripleElement.constructArrayAt 4128 3)
      (worldAfter tripleRun) (constructedEvents tripleElement 4128 0 2 ++ events) outcome w' := by
  have hcallback : ReflTransGen (UserStep (PinsArray 0 4128) 0
      ((worldAfter (tripleRun ++ storeLabels 0 4128 0 ++ storeLabels 0 4128 1)).control 0))
      (worldAfter (tripleRun ++ storeLabels 0 4128 0 ++ storeLabels 0 4128 1))
      (worldAfter (tripleRun ++ storeLabels 0 4128 0 ++ storeLabels 0 4128 1 ++ lostAllocation)) :=
    userSteps_of_run (worldAfter_run _ lostAllocation (by decide +kernel)) (by decide +kernel)
      (by decide +kernel)
  have hfirst : run step (storeLabels 0 4128 (wrapAdd 0 1))
      (worldAfter (tripleRun ++ storeLabels 0 4128 0)) =
      some (worldAfter (tripleRun ++ storeLabels 0 4128 0 ++ storeLabels 0 4128 1)) := by
    rw [show wrapAdd 0 1 = 1 by decide +kernel]
    exact worldAfter_run (tripleRun ++ storeLabels 0 4128 0) _ (by decide +kernel)
  have hsecond : run step (storeLabels 0 4128 (wrapAdd 1 1)) (worldAfter
      (tripleRun ++ storeLabels 0 4128 0 ++ storeLabels 0 4128 1 ++ lostAllocation)) =
      some (worldAfter secondElementRun) := by
    rw [show wrapAdd 1 1 = 2 by decide +kernel]
    exact worldAfter_run
      (tripleRun ++ storeLabels 0 4128 0 ++ storeLabels 0 4128 1 ++ lostAllocation) _
      (by decide +kernel)
  refine .store .refl (worldAfter_run tripleRun _ (by decide +kernel)) ?_
  exact .construct .refl .refl rfl (.store .refl hfirst
    (.construct .refl hcallback (by decide +kernel) (.store .refl hsecond h)))

theorem returns_failedTriple : ReturnsBy (SparesArray 0 4128) 0 (.releaseUnconstructed 4128)
    (worldAfter secondElementRun) (worldAfter failedTripleRun) (.ok .unit) :=
  .run (by decide +kernel) (by decide +kernel)
    (worldAfter_step secondElementRun _ (by decide +kernel))
    (Inside.steps (worldAfter_run _ _ (by decide +kernel)) (by decide +kernel) (by decide +kernel))
    (by decide +kernel) (by decide +kernel)

theorem returns_finishedTriple : ReturnsBy (SparesArray 0 4128) 0 (.finishConstruction 4128)
    (worldAfter (secondElementRun ++ storeLabels 0 4128 3)) (worldAfter finishedTripleRun)
    (.ok .unit) :=
  .run (by decide +kernel) (by decide +kernel)
    (worldAfter_step (secondElementRun ++ storeLabels 0 4128 3) _ (by decide +kernel))
    (Inside.steps (worldAfter_run _ _ (by decide +kernel)) (by decide +kernel) (by decide +kernel))
    (by decide +kernel) (by decide +kernel)

/-- The third element throws, and the two complete ones are destroyed. -/
theorem runs_failedTriple : Runs (SparesArray 0 4128) (PinsArray 0 4128) 0
    (tripleElement.constructArrayAt 4128 3) (worldAfter tripleRun)
    (constructedEvents tripleElement 4128 0 2 ++
      ([.constructs (tripleElement.constructedElement 4128 2) 2 (.error (.user 9))] ++
        destroyedEvents tripleElement 4128 2))
    (.threw (.user 9)) (worldAfter failedTripleRun) := by
  have hcount : readWord (worldAfter secondElementRun).state.memory 4128 = 2 := by decide +kernel
  refine runs_secondElement (.construct .refl .refl rfl (.loads hcount ?_))
  exact .destroy .refl .refl rfl (.destroy .refl .refl rfl (.call .refl returns_failedTriple .throws))

/-- All three elements are constructed. -/
theorem runs_finishedTriple : Runs (SparesArray 0 4128) (PinsArray 0 4128) 0
    (tripleElement.constructArrayAt 4128 3) (worldAfter tripleRun)
    (constructedEvents tripleElement 4128 0 2 ++
      [.constructs (tripleElement.constructedElement 4128 2) 2 (.ok ())])
    (.returned (tripleElement.arrayElementsBegin 4128)) (worldAfter finishedTripleRun) := by
  have hstores : run step (storeLabels 0 4128 (wrapAdd 2 1)) (worldAfter secondElementRun) =
      some (worldAfter (secondElementRun ++ storeLabels 0 4128 3)) := by
    rw [show wrapAdd 2 1 = 3 by decide +kernel]
    exact worldAfter_run secondElementRun _ (by decide +kernel)
  exact runs_secondElement (.construct .refl .refl rfl (.store .refl hstores
    (.call .refl returns_finishedTriple .returns)))

theorem array_construction_triple :
    ∃ b ∈ (worldAfter tripleRun).state.allocations.values, b.payloadBegin = 4128 ∧
      (∃ destructor, history (worldAfter failedTripleRun).log
          ((worldAfter tripleRun).state.serial b.header) =
        [.placed ((worldAfter tripleRun).state.serial b.header) destructor,
          .registered ((worldAfter tripleRun).state.serial b.header),
          .released ((worldAfter tripleRun).state.serial b.header),
          .freed ((worldAfter tripleRun).state.serial b.header)]) ∧
      tripleElement.arrayElementsBegin 4128 = tripleElement.constructedElement 4128 0 ∧
      readWord (worldAfter finishedTripleRun).state.memory 4128 = 3 := by
  obtain ⟨b,hb,hbegin,-,hruns⟩ := ((array_construction tripleElement (by decide : 0 < 3)
    (by decide)).2.2 (by decide +kernel)).2 0 _ _ 4128 (reachable_worldAfter registeredRun)
    returns_triple
  obtain ⟨-,-,hfails⟩ := hruns _ _ _ runs_failedTriple
  obtain ⟨-,hreturns,-⟩ := hruns _ _ _ runs_finishedTriple
  obtain ⟨hfirst,hcount,-⟩ := hreturns _ rfl
  exact ⟨b,hb,hbegin,(hfails _ rfl).1,hfirst,hcount⟩

end GcLib.Properties
