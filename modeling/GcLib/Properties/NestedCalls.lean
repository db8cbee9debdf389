import GcLib.Protocol.Calls
import GcLib.Protocol.Changes

/-! # Only the window owner's collections are skipped

The owner of the window is the thread whose finalizer is running. Its own `collect` and
`shutdown` calls return at once, and its diagnostic calls read the heap in place. Every
other call completes exactly one window of its own before it returns normally.
-/

namespace GcLib.Properties
open GcLib.Heap GcLib.Support GcLib.Protocol

section
variable {w w' : World} {label : Label} {rest : List Frame}

/-- A thread inside a call owns the window exactly when the call was made from a finalizer. -/
theorem collectorThread_iff_finalizer (h : ReachableWorld w) {thread : ThreadId}
    {code : Section} {stage : Stage} (hc : w.control thread = .entering code stage :: rest) :
    w.state.collectorThread = some thread ↔
      ∃ blocks pending, Frame.finalizer blocks pending ∈ rest := by
  have hp := h.invariant.protocol
  rw [← hp.any_owns hc rfl, List.any_eq_true]
  constructor
  · rintro ⟨frame,hmem,howns⟩
    have hbelow := (h.invariant.protocol.thread thread).below frame (by rw [hc]; exact hmem)
    cases frame with
    | finalizer blocks pending => exact ⟨blocks,pending,hmem⟩
    | collecting request => cases howns
    | _ => cases hbelow
  · rintro ⟨blocks,pending,hmem⟩
    exact ⟨_,hmem,rfl⟩

theorem totalCollections_step (h : ReachableWorld w) (hstep : step label w = some w')
    (hshutdown : completedWindow .shutdown label w w' = none) :
    w'.state.stats.totalCollections ≡ w.state.stats.totalCollections +
      (completedWindow .collect label w w').toList.length [MOD addressLimit] := by
  cases h.heapChange hstep with
  | quiet ha hw hm hr hs hn hl =>
    have hnone : completedWindow .collect label w w' = none := by
      rw [Option.eq_none_iff_forall_ne_some]
      rintro ⟨thread,rest⟩ hsome
      obtain ⟨rfl,blocks,pending,above,hc,hc'⟩ := completedWindow_eq_some hsome
      exact hn _ _ _ _ _ hc hc'
    rw [hs, hnone]
    rfl
  | «section» hc hco he =>
    have hnone : completedWindow .collect label w w' = none := by
      simp [completedWindow, hc]
    have htotal : w'.state.stats.totalCollections = w.state.stats.totalCollections := by
      have hstats := congrArg State.stats hco.sameHeap.eq
      generalize w'.state = s' at he
      cases he <;> exact (congrArg GCStats.totalCollections hstats :)
    rw [htotal, hnone]
    rfl
  | window hc he hc' hl =>
    rename_i call rest env blocks
    generalize w'.state = s' at he
    cases he with
    | collect hcollected =>
      have hsome : completedWindow .collect label w w' = some (label.thread,rest) := by
        simp [completedWindow, hc, hc']
      rw [hsome, hcollected.stats]
      change wrapAdd w.state.stats.totalCollections 1 ≡ _ [MOD _]
      unfold wrapAdd
      exact Nat.mod_modEq _ _
    | shutdown =>
      simp [completedWindow, hc, hc'] at hshutdown

/-- Between shutdowns the number of collections counts the completed windows of `collect`. -/
theorem totalCollections_run : ∀ {labels : List Label} {w w' : World}, ReachableWorld w →
    run step labels w = some w' → completedWindows .shutdown labels w = [] →
      w'.state.stats.totalCollections ≡ w.state.stats.totalCollections +
        (completedWindows .collect labels w).length [MOD addressLimit]
  | [], w, w', _, hrun, _ => by
    cases hrun
    rfl
  | label :: labels, w, w', h, hrun, hshutdown => by
    obtain ⟨w₁,hstep,hrest⟩ := Option.bind_eq_some_iff.mp hrun
    have hunfold : ∀ call, completedWindows call (label :: labels) w =
        (completedWindow call label w w₁).toList ++ completedWindows call labels w₁ := by
      intro call
      simp only [completedWindows, hstep]
    rw [hunfold, List.append_eq_nil_iff] at hshutdown
    have hone := totalCollections_step h hstep (Option.toList_eq_nil_iff.mp hshutdown.1)
    have hmany := totalCollections_run (h.step hstep) hrest hshutdown.2
    rw [hunfold, List.length_append, ← Nat.add_assoc]
    exact hmany.trans (hone.add_right _)

theorem meets_collectIfNeeded {s : State} (thread : ThreadId) (fuel incoming : ℕ) :
    (Section.body thread fuel (.call (.collectIfNeeded incoming))).Meets s
      (fun next s' => s' = s ∧ (next = .done .unit ∨ next = .collect)) (fun _ s' => s' = s) := by
  refine Exec.meets_bind (Exec.meets_get ?_)
  refine Exec.meets_bind (Exec.meets_bind
    (meets_requireRegisteredThreadLocked (fun _ => ?_) (fun _ => rfl)))
  refine Exec.meets_bind (Exec.meets_get (Exec.meets_pure ?_))
  split_ifs
  · exact Exec.meets_pure ⟨rfl,Or.inr rfl⟩
  · exact Exec.meets_pure ⟨rfl,Or.inl rfl⟩

/-- `collect_if_needed` decides under the lock and then calls `collect` like anyone else. -/
theorem collectIfNeeded_step {incoming : ℕ} {stage : Stage}
    (hc : w.control label.thread = .entering (.call (.collectIfNeeded incoming)) stage :: rest)
    (hstep : step label w = some w') : SameHeap w.state w'.state ∧
      ((∃ stage', w'.control label.thread =
          .entering (.call (.collectIfNeeded incoming)) stage' :: rest) ∨
        (∃ ok, w'.control label.thread = resumed rest ok) ∨
        w'.control label.thread = .entering (.call .collect) .enter :: rest) := by
  cases step_transition hstep with
  | runsSection hc' hco hrun =>
    rw [hc] at hc'
    cases hc'
    rw [proceed_state, proceed_control, Function.update_self]
    obtain ⟨hs,rfl | rfl⟩ := (meets_collectIfNeeded _ _ incoming).returns hrun
    · exact ⟨hs ▸ hco.sameHeap,Or.inr (Or.inl ⟨true,rfl⟩)⟩
    · exact ⟨hs ▸ hco.sameHeap,Or.inr (Or.inr rfl)⟩
  | callThrows hc' hco hrun =>
    rw [hc] at hc'
    cases hc'
    have hs := (meets_collectIfNeeded _ _ incoming).throws hrun
    rw [deliver_state, deliver_control, Function.update_self]
    exact ⟨hs ▸ hco.sameHeap,Or.inr (Or.inl ⟨_,rfl⟩)⟩
  | prologueThrows hc' =>
    rw [hc] at hc'
    cases hc'
  | stalls hc' hs =>
    rw [hc] at hc'
    cases hc'
    exact ⟨hs.sameHeap,Or.inl ⟨_,Function.update_self ..⟩⟩
  | _ => simp_all [inUserCode]

end

/-- A call of `collect` or `shutdown` skips its window exactly when its thread owns one, and
otherwise completes exactly one before it returns. -/
theorem nested_calls {w : World} (h : ReachableWorld w) :
    (∀ thread code stage rest, w.control thread = .entering code stage :: rest →
      (w.state.collectorThread = some thread ↔
        ∃ blocks pending, Frame.finalizer blocks pending ∈ rest)) ∧
    (∀ call : WindowCall, ∀ label stage rest w',
      w.control label.thread = .entering (.call call.call) stage :: rest →
      w.state.collectorThread = some label.thread → step label w = some w' →
        w'.state = w.state ∧ ∃ result, w' = w.deliver label.thread rest result ∧
          (call.detaches = true → result = .ok .unit)) ∧
    (∀ call : WindowCall, call.detaches = true → ∀ thread stage rest labels w',
      w.control thread = .entering (.call call.call) stage :: rest →
      run step labels w = some w' → Inside thread rest labels w → ReturnedOk w' thread rest →
        (completedWindows call labels w).count (thread,rest) =
          if w.state.collectorThread = some thread then 0 else 1) ∧
    (∀ call thread rest label w', step label w = some w' →
      completedWindow call label w w' = some (thread,rest) →
        ∃ choice blocks, label = .run thread choice ∧ Completes thread choice call w w' blocks) ∧
    (∀ labels w', run step labels w = some w' → completedWindows .shutdown labels w = [] →
      w'.state.stats.totalCollections ≡ w.state.stats.totalCollections +
        (completedWindows .collect labels w).length [MOD addressLimit]) ∧
    (∀ incoming label stage rest w',
      w.control label.thread = .entering (.call (.collectIfNeeded incoming)) stage :: rest →
      step label w = some w' → SameHeap w.state w'.state ∧
        ((∃ stage', w'.control label.thread =
            .entering (.call (.collectIfNeeded incoming)) stage' :: rest) ∨
          (∃ ok, w'.control label.thread = resumed rest ok) ∨
          w'.control label.thread = .entering (.call .collect) .enter :: rest)) := by
  refine ⟨fun _ _ _ _ hc => collectorThread_iff_finalizer h hc,?_,?_,?_,
    fun _ _ hrun hshutdown => totalCollections_run h hrun hshutdown,
    fun _ _ _ _ _ hc hstep => collectIfNeeded_step hc hstep⟩
  · intro call label stage rest w' hc howner hstep
    obtain ⟨result,rfl,hresult⟩ := owner_call h hc howner hstep
    exact ⟨deliver_state _,result,rfl,hresult⟩
  · intro call hd thread stage rest labels w' hc hrun hin hret
    have hphase : CallPhase call rest (if rest.any Frame.owns then 0 else 1)
        (w.control thread) := hc ▸ .entering stage
    rw [hphase.completed hd h hrun hin hret]
    simp only [h.invariant.protocol.any_owns hc rfl]
  · intro call thread rest label w' hstep hcompleted
    obtain ⟨choice,blocks,hlabel,hcompletes,-⟩ := completes_of_completedWindow hstep hcompleted
    exact ⟨choice,blocks,hlabel,hcompletes⟩

/-- A finalizer calls `collect` again while the collection that runs it is under way. -/
def outerCall : List Label := allocatingRun ++ [.user 0 (.call .collect)]

def untilNested : List Label :=
  [.run 0 {},.run 0 { fuel := 50 },.run 0 {},.user 0 (.call .collect)]

def nestedCall : List Label := [.run 0 {}]

def untilReturn : List Label :=
  [.user 0 .finalizerReturns,.run 0 {},.run 0 {},.run 0 {},.run 0 {}]

theorem nested_calls_recursiveCollect :
    (completedWindows .collect nestedCall (worldAfter (outerCall ++ untilNested))).count
        (0,[.finalizer [4096] []]) = 0 ∧
      (completedWindows .collect (untilNested ++ nestedCall ++ untilReturn)
        (worldAfter outerCall)).count (0,[]) = 1 :=
  ⟨(nested_calls (reachable_worldAfter (outerCall ++ untilNested))).2.2.1 .collect rfl 0 .enter
      [.finalizer [4096] []] nestedCall _ (by decide +kernel)
      (worldAfter_run (outerCall ++ untilNested) nestedCall (by decide +kernel))
      (by decide +kernel) (And.intro (by decide +kernel) (by decide +kernel)),
    (nested_calls (reachable_worldAfter outerCall)).2.2.1 .collect rfl 0 .enter [] _ _
      (by decide +kernel) (worldAfter_run outerCall _ (by decide +kernel))
      (by decide +kernel) (And.intro (by decide +kernel) (by decide +kernel))⟩

end GcLib.Properties
