import GcLib.Client.Contracts
import GcLib.Client.ObjectConstruction
import GcLib.Protocol.ConstructionCalls
import GcLib.Protocol.WeakRefs

/-! # Failed allocations and constructions

An allocation that throws has kept the books, up to the collection it made when `operator new`
failed, and has freed what it obtained. A constructor that throws has its block withdrawn: no
destructor is called, and the exception goes on to the caller.
-/

namespace GcLib.Properties
open GcLib.Heap GcLib.Support GcLib.Protocol GcLib.Client Relation

/-- Only one thread takes steps. -/
def Alone (thread : ThreadId) : Label → World → Prop := fun label _ => label.thread = thread

instance (thread : ThreadId) (label : Label) (w : World) : Decidable (Alone thread label w) :=
  inferInstanceAs (Decidable (label.thread = thread))

/-- The books at the end are those at the start, or one collection lies between. -/
def BooksKept (thread : ThreadId) (rest : List Frame) (w w' : World) : Prop :=
  SameBooks w.state w'.state ∨ ∃ (u u' : World) (request : AllocationRequest),
    SameBooks w.state u.state ∧
    u.control thread = .entering (.call .collect) .enter :: .collecting request :: rest ∧
    ReflTransGen (StepInside (Alone thread) thread (.collecting request :: rest)) u u' ∧
    SameBooks u'.state w'.state

/-- How the construction of an object ended. -/
inductive ObjectEnd (thread : ThreadId) (b : BlockRecord) (w' : World) :
    List ElementEvent → Outcome ℕ → Prop where
  | constructing (h : ReachableWorld w') (hb : b ∈ w'.state.allocations.values) :
      ObjectEnd thread b w' [] (.constructing b.payloadBegin 0)
  | finished {u : World} (h : ReachableWorld u)
      (hf : Finishes (SparesPayload thread b.payloadBegin) b u w') :
      ObjectEnd thread b w' [.constructs b.payloadBegin 0 (.ok ())] (.returned b.payloadBegin)
  | failed {u : World} {exception : Thrown} (h : ReachableWorld u)
      (hw : Withdrawn (SparesPayload thread b.payloadBegin) thread b u w') :
      ObjectEnd thread b w' [.constructs b.payloadBegin 0 (.error exception)] (.threw exception)

section
variable {w w' : World} {thread : ThreadId} {rest : List Frame} {b : BlockRecord}

theorem books_of_quiet (h : ReflTransGen (QuietStep (Alone thread) thread) w w') :
    SameBooks w.state w'.state := by
  induction h with
  | refl => exact SameBooks.refl _
  | tail _ hstep ih =>
    obtain ⟨label,hlabel,-,hquiet⟩ := hstep
    exact ih.trans (hquiet hlabel).1.sameBooks

theorem BooksKept.trans {w'' : World} (h : BooksKept thread rest w w')
    (hs : SameBooks w'.state w''.state) : BooksKept thread rest w w'' := by
  rcases h with h | ⟨u,u',request,h,hc,hin,h'⟩
  · exact Or.inl (h.trans hs)
  · exact Or.inr ⟨u,u',request,h,hc,hin,h'.trans hs⟩

theorem booksKept_of_undone (h : Undone (Alone thread) thread rest w w') :
    BooksKept thread rest w w' := by
  cases h with
  | quiet h => exact Or.inl (books_of_quiet h)
  | collected h hc hin h' => exact Or.inr ⟨_,_,_,books_of_quiet h,hc,hin,books_of_quiet h'⟩

/-- Undisturbed, an allocation that throws keeps the books. -/
theorem booksKept_of_failed (h : FailedAllocation (Alone thread) thread rest w w') :
    BooksKept thread rest w w' := by
  cases h with
  | unplaced h => exact booksKept_of_undone h
  | placed h hp hq hf =>
    have hplaced : SameBooks _ _ := hp.books
    exact (((booksKept_of_undone h).trans hplaced).trans (books_of_quiet hq)).trans hf.books

/-- The block of a construction is registered until it is finished or withdrawn. -/
theorem ObjectEnd.of_run {events : List ElementEvent} {outcome : Outcome ℕ}
    (h : ReachableWorld w) (hb : b ∈ w.state.allocations.values) (hc : b.constructing = true)
    (hrun : ObjectRun (SparesPayload thread b.payloadBegin) (PinsPayload thread b.payloadBegin)
      thread b.payloadBegin w w' events outcome) : ObjectEnd thread b w' events outcome := by
  have hspares : ∀ label u, SparesPayload thread b.payloadBegin label u → label.thread ≠ thread →
      ¬ UnpinsBy label.thread b.payloadBegin u := fun _ _ hl => hl.2
  have hpins : ∀ label u, PinsPayload thread b.payloadBegin label u →
      ¬ UnpinsBy label.thread b.payloadBegin u := fun _ _ hl => hl.2
  cases hrun with
  | constructing ho hu =>
    obtain ⟨hr,hb⟩ := pinned_other h hb hc hspares ho
    obtain ⟨hr,hb⟩ := pinned_user hr hb hc hpins hu
    exact .constructing hr hb
  | constructed ho hu hback ho' hret =>
    obtain ⟨hr,hb⟩ := pinned_other h hb hc hspares ho
    obtain ⟨hr,hb⟩ := pinned_user hr hb hc hpins hu
    obtain ⟨hr,hb⟩ := pinned_other hr hb hc hspares ho'
    obtain ⟨rfl,u,hu,-,hf⟩ := hret.finishes hr hb hc hspares
    exact .finished hu hf
  | failed ho hu hback ho' hret =>
    obtain ⟨hr,hb⟩ := pinned_other h hb hc hspares ho
    obtain ⟨hr,hb⟩ := pinned_user hr hb hc hpins hu
    obtain ⟨hr,hb⟩ := pinned_other hr hb hc hspares ho'
    obtain ⟨rfl,hw⟩ := hret.withdraws hr hb hc fun _ _ hl => hl
    exact .failed hr hw

/-- What a failed constructor leaves: its block is withdrawn, and its exception goes on. -/
theorem ObjectEnd.of_failure {events : List ElementEvent} {outcome : Outcome ℕ}
    {exception : Thrown} (hend : ObjectEnd thread b w' events outcome)
    (he : .constructs b.payloadBegin 0 (.error exception) ∈ events) :
    outcome = .threw exception ∧ ∃ u, ReachableWorld u ∧
      Withdrawn (SparesPayload thread b.payloadBegin) thread b u w' := by
  cases hend with
  | constructing => exact absurd he List.not_mem_nil
  | finished h hf => simp at he
  | failed h hw =>
    rename_i u exception'
    have hsame : exception = exception' := by simpa using he
    exact ⟨by rw [hsame],u,h,hw⟩

end

/-- An allocation that throws has undone what it did, up to its one collection, and undisturbed
it leaves the books as they were. A `gc_new` runs its constructor in the block it obtained, and
finishes the construction. If the constructor throws it withdraws the block instead, with every
weak reference into it and without a destructor call, and goes on with the exception. -/
theorem failed_construction_undone {w : World} (h : ReachableWorld w) (thread : ThreadId)
    (size alignment : ℕ) :
    (∀ destructor constructing w' e,
      Returns thread (.mallocInternal size alignment destructor constructing) w w' (.error e) →
        FailedAllocation (fun _ _ => True) thread (w.control thread) w w') ∧
    (∀ destructor constructing w' e,
      ReturnsBy (Alone thread) thread (.mallocInternal size alignment destructor constructing) w w'
        (.error e) → BooksKept thread (w.control thread) w w') ∧
    (∀ calls user destroyObject events outcome w',
      Runs calls user thread (gcNew size alignment destroyObject) w events outcome w' →
        (∃ c ∈ [Call.collectIfNeeded size,
            .mallocInternal size alignment (some destroyObject) true], ∃ u e,
          ReturnsBy calls thread c u w' (.error e) ∧ events = [] ∧ outcome = .threw (.manager e)) ∨
        ∃ u u' base, ReachableWorld u ∧
          ReturnsBy calls thread (.mallocInternal size alignment (some destroyObject) true) u u'
            (.ok (.word base)) ∧
          Runs calls user thread (constructObject base) u' events outcome w') ∧
    (∀ calls user base u events outcome w',
      Runs calls user thread (constructObject base) u events outcome w' ↔
        ObjectRun calls user thread base u w' events outcome) ∧
    ∀ destroyObject w' base,
      Returns thread (.mallocInternal size alignment (some destroyObject) true) w w'
        (.ok (.word base)) → ∃ b ∈ w'.state.allocations.values, b.payloadBegin = base ∧
      ∀ events outcome w'', Runs (SparesPayload thread base) (PinsPayload thread base) thread
        (constructObject base) w' events outcome w'' → ObjectEnd thread b w'' events outcome ∧
      ∀ exception, .constructs base 0 (.error exception) ∈ events →
        outcome = .threw exception ∧
        (∃ u, ReachableWorld u ∧ Withdrawn (SparesPayload thread base) thread b u w'') ∧
        w''.state.managedBytes = w''.state.payloadSum w''.state.allocations.values ∧
        w''.state.reservedBytes = w''.state.reservedSum w''.state.allocations.values ∧
        TargetsLive w''.state := by
  refine ⟨fun destructor constructing w' e hret => ?_,fun destructor constructing w' e hret => ?_,
    fun calls user destroyObject events outcome w' hruns => hruns.allocation h,
    fun calls user base u events outcome w' => constructObject_runs,
    fun destroyObject w' base hret => ?_⟩
  · obtain ⟨e',-,hf⟩ | ⟨base,hbase,-⟩ := hret.mallocInternal h
    · exact hf
    · cases hbase
  · obtain ⟨e',-,hf⟩ | ⟨base,hbase,-⟩ := hret.mallocInternal h
    · exact booksKept_of_failed hf
    · cases hbase
  · obtain ⟨e',he',-⟩ | ⟨base',hbase,hall⟩ := hret.mallocInternal h
    · cases he'
    · cases hbase
      obtain ⟨b,hb,rfl,hc,-⟩ := hall.record h
      refine ⟨b,hb,rfl,fun events outcome w'' hruns => ?_⟩
      have hend := ObjectEnd.of_run (hret.reachable h) hb hc (constructObject_runs.mp hruns)
      refine ⟨hend,fun exception he => ?_⟩
      obtain ⟨hthrew,u,hu,hwithdrawn⟩ := hend.of_failure he
      have hr : ReachableWorld w'' := hwithdrawn.reachable hu
      exact ⟨hthrew,⟨u,hu,hwithdrawn⟩,hr.invariant.heap.managed,hr.invariant.heap.reserved,
        hr.targetsLive⟩

/-- `operator new` fails twice, with a collection in between. -/
def exhaustedCall : Call := .mallocInternal 16 16 (some 7) true

def exhaustedSteps : List Label := List.replicate 8 (.run 0 { fuel := 50 })

def exhaustedRun : List Label := registeredRun ++ [.user 0 (.call exhaustedCall)] ++ exhaustedSteps

theorem returns_exhausted : ReturnsBy (Alone 0) 0 exhaustedCall (worldAfter registeredRun)
    (worldAfter exhaustedRun) (.error .badAlloc) :=
  .run (by decide +kernel) rfl (worldAfter_step registeredRun _ (by decide +kernel))
    (Inside.steps (worldAfter_run _ exhaustedSteps (by decide +kernel)) (by decide +kernel)
      (by decide +kernel))
    (by decide +kernel) (by decide +kernel)

def constructedCall : Call := .mallocInternal 16 16 (some 7) true

def constructedRun : List Label := registeredRun ++ [.user 0 (.call constructedCall)] ++
  [.run 0 {},.run 0 { region := 4096 },.run 0 {}]

/-- The constructor makes a weak handle into its own block and loses another block to a
collection before it throws. -/
def constructorSteps : List Label :=
  [.user 0 (.call (.registerWeakRef 4128 256)),.run 0 {}] ++ lostAllocation

def thrownRun : List Label := constructedRun ++ constructorSteps

def withdrawnRun : List Label :=
  thrownRun ++ [.user 0 (.call (.releaseUnconstructed 4128))] ++ [.run 0 {},.run 0 {}]

theorem returns_constructed : Returns 0 constructedCall (worldAfter registeredRun)
    (worldAfter constructedRun) (.ok (.word 4128)) :=
  .run (by decide +kernel) trivial (worldAfter_step registeredRun _ (by decide +kernel))
    (Inside.steps (worldAfter_run _ _ (by decide +kernel)) (by decide +kernel) (by decide +kernel))
    (by decide +kernel) (by decide +kernel)

theorem returns_withdrawn : ReturnsBy (SparesPayload 0 4128) 0 (.releaseUnconstructed 4128)
    (worldAfter thrownRun) (worldAfter withdrawnRun) (.ok .unit) :=
  .run (by decide +kernel) (by decide +kernel) (worldAfter_step thrownRun _ (by decide +kernel))
    (Inside.steps (worldAfter_run _ _ (by decide +kernel)) (by decide +kernel) (by decide +kernel))
    (by decide +kernel) (by decide +kernel)

/-- The constructor of the new block throws. -/
theorem runs_thrown : Runs (SparesPayload 0 4128) (PinsPayload 0 4128) 0 (constructObject 4128)
    (worldAfter constructedRun) [.constructs 4128 0 (.error (.user 9))] (.threw (.user 9))
    (worldAfter withdrawnRun) := by
  have hconstructor : ReflTransGen (UserStep (PinsPayload 0 4128) 0
      ((worldAfter constructedRun).control 0)) (worldAfter constructedRun) (worldAfter thrownRun) :=
    userSteps_of_run (worldAfter_run constructedRun constructorSteps (by decide +kernel))
      (by decide +kernel) (by decide +kernel)
  exact .construct .refl hconstructor (by decide +kernel) (.call .refl returns_withdrawn .throws)

theorem failed_construction_undone_thrown :
    BooksKept 0 ((worldAfter registeredRun).control 0) (worldAfter registeredRun)
      (worldAfter exhaustedRun) ∧
    ∃ b ∈ (worldAfter constructedRun).state.allocations.values, b.payloadBegin = 4128 ∧
      ∃ u, ReachableWorld u ∧ Withdrawn (SparesPayload 0 4128) 0 b u (worldAfter withdrawnRun) := by
  obtain ⟨-,halone,-,-,hconstructs⟩ :=
    failed_construction_undone (reachable_worldAfter registeredRun) 0 16 16
  obtain ⟨b,hb,hbegin,hruns⟩ := hconstructs 7 _ 4128 returns_constructed
  obtain ⟨-,hfails⟩ := hruns _ _ _ runs_thrown
  exact ⟨halone (some 7) true _ .badAlloc returns_exhausted,b,hb,hbegin,
    (hfails (.user 9) (List.mem_singleton_self _)).2.1⟩

end GcLib.Properties
