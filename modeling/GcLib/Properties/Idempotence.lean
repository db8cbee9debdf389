import GcLib.Heap.ReferenceGraph
import GcLib.Protocol.Changes

/-! # Collecting twice

A collection that scans the words of an earlier one again removes nothing. The blocks
the first one left are the closure of its roots, and lookups among them are not
changed by what it removed, so the second one marks all of them. Expired weak handles
are cleared by the first collection; a cleared word counts as changed only if it
pointed into a block.
-/

namespace GcLib.Properties
open GcLib.Heap GcLib.Support GcLib.Protocol Relation

/-- The registered blocks and the registered weak references are the same. -/
structure SameRegistrations (s s' : State) : Prop where
  allocations : s'.allocations = s.allocations
  weakRefs : s'.weakRefs = s.weakRefs

/-- Some live payload contains the word. -/
def Resolves (s : State) (word : ℕ) : Prop := ∃ b ∈ s.allocations.values, b.Contains word

/-- The second collection scans every word again that led the first one to a block: the root words,
and the words in the payloads of the blocks that it kept. -/
structure SameWordsScanned (s : State) (collector : ThreadId) (env : ScanEnvironment)
    (s' : State) (collector' : ThreadId) (env' : ScanEnvironment) : Prop where
  roots : ∀ word, Resolves s word → RootWord s collector env word → RootWord s' collector' env' word
  payloads : ∀ b, Retained s collector env b →
    ∀ x ∈ alignedWords b.payloadBegin b.payloadEnd, Resolves s (readWord s.memory x) →
      readWord s'.memory x = readWord s.memory x

section
variable {s s₁ s₂ s₃ : State} {collector collector' : ThreadId} {env env' : ScanEnvironment}
  {dead dead' : List BlockRecord} {blocks blocks' : List ℕ}

/-- The byte counters are sums over the registered blocks. -/
theorem payloadSum_eq (hinv : HeapInvariant s) :
    s.managedBytes = (s.allocations.values.map fun b => b.payloadEnd-b.payloadBegin).sum := by
  rw [hinv.managed]
  refine congrArg List.sum (List.map_congr_left fun b hb => ?_)
  have hsize := (hinv.header_size hb).1
  omega

theorem reservedSum_eq (hinv : HeapInvariant s) :
    s.reservedBytes = (s.allocations.values.map fun b => b.payloadEnd-b.header).sum := by
  rw [hinv.reserved]
  refine congrArg List.sum (List.map_congr_left fun b hb => ?_)
  have hsize := (hinv.header_size hb).1
  have hbegin := hinv.payloadBegin_header hb
  rw [hinv.blockAllocationSize_eq hb]
  unfold State.payloadBegin at hbegin
  omega

/-- What the first collection kept is reached from the roots of the second one. -/
theorem retained_again (hinv : HeapInvariant s) (hc : Collected s collector env dead blocks s₁)
    (hr : SameRegistrations s₁ s₂) (hw : SameWordsScanned s collector env s₂ collector' env')
    {b : BlockRecord} (hb : Retained s collector env b) : Retained s₂ collector' env' b := by
  have hlive : ∀ {b}, Retained s collector env b → b ∈ s₂.allocations.values := fun hb => by
    rw [hr.allocations]
    exact (hc.mem_values hinv _).mpr hb
  obtain ⟨r,hroot,hreach⟩ := hb
  have hkept : ∀ {v}, ReflTransGen (References s) r v → Retained s collector env v :=
    fun hv => ⟨r,hroot,hv⟩
  induction hreach with
  | refl =>
    refine .of_root ⟨hlive (hkept .refl),hroot.2.imp id ?_⟩
    rintro ⟨word,hword,hcontains⟩
    exact ⟨word,hw.roots word ⟨r,hroot.1,hcontains⟩ hword,hcontains⟩
  | @tail u v hru huv ih =>
    have huv' := huv
    obtain ⟨hv,x,hx,hcontains⟩ := huv'
    refine ih.step ⟨hlive (hkept (hru.tail huv)),x,hx,?_⟩
    rw [hw.payloads u (hkept hru) x hx ⟨v,hv,hcontains⟩]
    exact hcontains

/-- Removing no block changes nothing but mark bytes. -/
theorem Removed.nothing (h : Removed s [] s₁) : SameRegistrations s s₁ ∧
    s₁.managedBytes = s.managedBytes ∧ s₁.reservedBytes = s.reservedBytes ∧
    s₁.memory = s.memory := by
  refine ⟨⟨OrderedMap.ext ?_,?_⟩,h.managed,h.reserved,funext fun x => ?_⟩
  · rw [h.entries]
    simp
  · rw [h.weakRefs]
    simp [WeakRefEntry.Targets]
  · rw [h.memory]
    simp [InWordOf, WeakRefEntry.Targets]

theorem collected_again (hinv : HeapInvariant s)
    (hc : Collected s collector env dead blocks s₁) (hr : SameRegistrations s₁ s₂)
    (hw : SameWordsScanned s collector env s₂ collector' env')
    (hc' : Collected s₂ collector' env' dead' blocks' s₃) :
    blocks' = [] ∧ SameRegistrations s₂ s₃ ∧ s₃.managedBytes = s₂.managedBytes ∧
      s₃.reservedBytes = s₂.reservedBytes ∧ s₃.memory = s₂.memory := by
  have hdead : dead' = [] := by
    refine List.eq_nil_iff_forall_not_mem.mpr fun b hb => ?_
    obtain ⟨hlive,hnot⟩ := (hc'.mem_dead b).mp hb
    rw [hr.allocations, hc.mem_values hinv] at hlive
    exact hnot (retained_again hinv hc hr hw hlive)
  subst hdead
  obtain ⟨order,hblocks,hsafe⟩ := hc'.order
  obtain rfl := hsafe.perm.eq_nil
  obtain ⟨hsame,hm,hres,hmem⟩ := Removed.nothing hc'.removed
  exact ⟨hblocks,⟨hsame.allocations,hsame.weakRefs⟩,hm,hres,hmem⟩

end

/-- Two collections complete one after the other, on any threads. If the second scans the words of
the first again, and in between no block and no weak reference is registered or removed, it
removes no block, hands none to a finalizer, clears no weak handle, and leaves the registry, the
byte counters and the weak references as the first one left them. -/
theorem collect_idempotent {w w₁ w₂ w₃ : World} {thread thread' : ThreadId}
    {choice choice' : Choice} {blocks blocks' : List ℕ} (h : ReachableWorld w)
    (hc : Completes thread choice .collect w w₁ blocks) (hrun : ReflTransGen (Steps step) w₁ w₂)
    (hr : SameRegistrations w₁.state w₂.state)
    (hw : SameWordsScanned w.state thread choice.env w₂.state thread' choice'.env)
    (hc' : Completes thread' choice' .collect w₂ w₃ blocks') :
    blocks' = [] ∧ w₃.state.allocations = w₁.state.allocations ∧
      w₃.state.managedBytes = w₁.state.managedBytes ∧
      w₃.state.reservedBytes = w₁.state.reservedBytes ∧
      w₃.state.weakRefs = w₁.state.weakRefs ∧ w₃.state.memory = w₂.state.memory := by
  have h₁ := hc.reachable h
  have h₂ : ReachableWorld w₂ := Reachable.steps h₁ hrun
  obtain ⟨dead,hcollected⟩ := hc.collected h
  obtain ⟨dead',hcollected'⟩ := hc'.collected h₂
  obtain ⟨hblocks,hsame,hm,hres,hmem⟩ :=
    collected_again h.invariant.heap hcollected hr hw hcollected'
  refine ⟨hblocks,hsame.allocations.trans hr.allocations,?_,?_,hsame.weakRefs.trans hr.weakRefs,hmem⟩
  · rw [hm, payloadSum_eq h₂.invariant.heap, payloadSum_eq h₁.invariant.heap, hr.allocations]
  · rw [hres, reservedSum_eq h₂.invariant.heap, reservedSum_eq h₁.invariant.heap, hr.allocations]

/-- A thread constructs the block at 4096 and drops the block at 8192. -/
def droppedBlockRun : List Label :=
  [.user 0 (.call (.registerStackBottom 28672)),.run 0 {},
    .user 0 (.call (.mallocInternal 16 16 none true)),.run 0 {},.run 0 { region := 4096 },.run 0 {},
    .user 0 (.call (.mallocInternal 16 16 none false)),.run 0 {},.run 0 { region := 8192 },.run 0 {},
    .user 0 (.call .collect),.run 0 {}]

/-- The rest of a collection that reclaims one block, and the start of another one. -/
def collectAgainRun : List Label :=
  [.run 0 {},.run 0 {},.run 0 {},.run 0 {},.run 0 {},.user 0 (.call .collect),.run 0 {}]

theorem no_rootWord_droppedBlockRun (word : ℕ) :
    ¬ RootWord (worldAfter droppedBlockRun).state 0 {} word := by
  have hranges : (worldAfter droppedBlockRun).state.registeredRootRanges = [] := by decide +kernel
  have hthreads : (worldAfter droppedBlockRun).state.threads.entries.map Prod.fst = [0] := by
    decide +kernel
  rintro (⟨hr,-⟩ | ⟨ht,-,hw⟩)
  · rw [hranges] at hr
    exact absurd hr List.not_mem_nil
  · have hmem := List.mem_map_of_mem (f := Prod.fst) ht
    rw [hthreads, List.mem_singleton] at hmem
    cases hw with
    | spill hne => exact hne hmem
    | parkedStack hne => exact hne hmem
    | registers _ hw => exact absurd hw List.not_mem_nil
    | stack _ hw => simp [rangeWords] at hw
    | global _ hi => exact absurd hi List.not_mem_nil

theorem completes_droppedBlockRun :
    Completes 0 { fuel := 50 } .collect (worldAfter droppedBlockRun)
      (worldAfter (droppedBlockRun ++ [.run 0 { fuel := 50 }])) [8192] :=
  ⟨worldAfter_step _ _ (by decide +kernel),[],by decide +kernel,by decide +kernel⟩

theorem completes_collectAgainRun :
    Completes 0 { fuel := 50 } .collect
      (worldAfter (droppedBlockRun ++ [.run 0 { fuel := 50 }] ++ collectAgainRun))
      (worldAfter (droppedBlockRun ++ [.run 0 { fuel := 50 }] ++ collectAgainRun ++
        [.run 0 { fuel := 50 }])) [] :=
  ⟨worldAfter_step _ _ (by decide +kernel),[],by decide +kernel,by decide +kernel⟩

theorem collect_idempotent_droppedBlockRun :
    (worldAfter (droppedBlockRun ++ [.run 0 { fuel := 50 }] ++ collectAgainRun ++
      [.run 0 { fuel := 50 }])).state.allocations =
        (worldAfter (droppedBlockRun ++ [.run 0 { fuel := 50 }])).state.allocations := by
  have hnowhere : ∀ b ∈ (worldAfter droppedBlockRun).state.allocations.values,
      ∀ x ∈ alignedWords b.payloadBegin b.payloadEnd,
      ∀ b' ∈ (worldAfter droppedBlockRun).state.allocations.values,
        ¬ b'.Contains (readWord (worldAfter droppedBlockRun).state.memory x) := by decide +kernel
  refine (collect_idempotent (reachable_worldAfter _) completes_droppedBlockRun
    (steps_of_run (worldAfter_run _ collectAgainRun (by decide +kernel)))
    ⟨OrderedMap.ext (by decide +kernel),by decide +kernel⟩ ⟨?_,?_⟩
    completes_collectAgainRun).2.1
  · exact fun word _ hw => absurd hw (no_rootWord_droppedBlockRun word)
  · rintro b hb x hx ⟨b',hb',hc⟩
    exact absurd hc (hnowhere b hb.mem x hx b' hb')

end GcLib.Properties
