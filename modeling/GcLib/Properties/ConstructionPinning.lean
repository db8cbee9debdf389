import GcLib.Protocol.Calls
import GcLib.Protocol.Pinning

/-! # Construction pinning

A block under construction is a root of every collection and refuses every shutdown. So
it keeps its record, and what it refers to survives, until its construction is finished
or withdrawn.
-/

namespace GcLib.Properties
open GcLib.Heap GcLib.Support GcLib.Protocol Relation

section
variable {w w' : World} {label : Label} {b : BlockRecord}

/-- A cleared payload refers to nothing. -/
theorem not_references_of_zeroed {s : State} (hinv : HeapInvariant s)
    (hzero : ∀ x, b.payloadBegin ≤ x → x < b.payloadEnd → s.memory x = 0) (v : BlockRecord) :
    ¬ References s b v := by
  rintro ⟨hv,x,hx,hcontains⟩
  obtain ⟨-,hlo,hhi⟩ := mem_alignedWords.mp hx
  have hword : readWord s.memory x = 0 :=
    Memory.readBytes_eq_zero (fun y hy hy' => hzero y (by omega) (by omega))
  have hbounds := (hinv.payload_bounds hv).1
  have hpos : 0 < chunkHeaderSize := by decide
  rw [hword] at hcontains
  have hle := hcontains.1
  omega

theorem shutdownWindow_refused {s : State} (hb : b ∈ s.allocations.values)
    (hc : b.constructing = true) (thread : ThreadId) (fuel : ℕ) (env : ScanEnvironment)
    (supply : Supply) : WindowCall.shutdown.body thread fuel env s supply =
      .throws (.logicError shutdownDuringConstructionMessage) s := by
  have hany : s.allocations.values.any BlockRecord.constructing = true :=
    List.any_eq_true.mpr ⟨b,hb,hc⟩
  have hwindow : shutdownWindow fuel s supply =
      .throws (.logicError shutdownDuringConstructionMessage) s := by
    unfold shutdownWindow
    rw [Exec.bind_run]
    simp only [Exec.get, hany, if_true]
    rfl
  change (shutdownWindow fuel >>= _) s supply = _
  rw [Exec.bind_run, hwindow]

/-- A shutdown that opens its window while a block is pinned throws and changes nothing. -/
theorem shutdown_refused (hb : b ∈ w.state.allocations.values) (hc : b.constructing = true)
    {rest : List Frame} (hctl : w.control label.thread = .waiting .shutdown :: rest)
    (hstep : step label w = some w') :
    w' = w.setControl label.thread
      (.releasing (.error (.logicError shutdownDuringConstructionMessage)) :: rest) ∧
    ∀ choice u, step (.run label.thread choice) w' = some u →
      u = (w'.setState w'.state.releaseStopTheWorld).deliver label.thread rest
        (.error (.logicError shutdownDuringConstructionMessage)) := by
  have hrefused := shutdownWindow_refused hb hc label.thread
  cases step_transition hstep with
  | windowDestroys hctl' hp hm hrun =>
    rw [hctl] at hctl'
    cases hctl'
    rw [hrefused] at hrun
    cases hrun
  | windowReturns hctl' hp hm hrun =>
    rw [hctl] at hctl'
    cases hctl'
    rw [hrefused] at hrun
    cases hrun
  | windowThrows hctl' hp hm hrun =>
    rw [hctl] at hctl'
    cases hctl'
    rw [hrefused] at hrun
    cases hrun
    refine ⟨rfl,fun choice u hstep' => ?_⟩
    simp only [step, World.setControl, Function.update_self] at hstep'
    split_ifs at hstep'
    exact (Option.some.inj hstep').symm
  | _ => simp_all [inUserCode]

end

/-- While a construction is neither finished nor withdrawn: its block stays in the registry and
outside every batch, what it refers to survives every collection, and no shutdown that opens a
window goes through. Registration starts it with a payload that refers to nothing. -/
theorem construction_pinning {w : World} (h : ReachableWorld w) :
    (∀ b ∈ w.state.allocations.values, b.constructing = true → ∀ w',
      ReflTransGen (PinnedStep b.payloadBegin) w w' →
        b ∈ w'.state.allocations.values ∧
        (∀ thread, b.header ∉ held (w'.control thread)) ∧
        (∀ thread choice call w'' blocks, Completes thread choice call w' w'' blocks →
          b.header ∉ blocks) ∧
        (∀ thread choice w'' blocks, Completes thread choice .collect w' w'' blocks →
          ∀ v, ReflTransGen (References w'.state) b v → v ∈ w''.state.allocations.values) ∧
        (∀ label rest w'', w'.control label.thread = .waiting .shutdown :: rest →
          step label w' = some w'' →
            w'' = w'.setControl label.thread
              (.releasing (.error (.logicError shutdownDuringConstructionMessage)) :: rest) ∧
            ∀ choice u, step (.run label.thread choice) w'' = some u →
              u = (w''.setState w''.state.releaseStopTheWorld).deliver label.thread rest
                (.error (.logicError shutdownDuringConstructionMessage))) ∧
        ∀ label stage rest w'',
          w'.control label.thread = .entering (.call .shutdown) stage :: rest →
          w'.state.collectorThread = some label.thread → step label w' = some w'' →
            w'' = w'.deliver label.thread rest (.ok .unit)) ∧
    ∀ label header stage rest w',
      w.control label.thread = .entering (.publish header true) stage :: rest →
      step label w = some w' → header ∈ registered w'.state →
        ∃ b ∈ w'.state.allocations.values, b.header = header ∧ b.constructing = true ∧
          (∀ x, b.payloadBegin ≤ x → x < b.payloadEnd → w'.state.memory x = 0) ∧
          ∀ v, ¬ References w'.state b v := by
  constructor
  · intro b hb hc w' hsteps
    obtain ⟨hr,hb'⟩ := pinned_run h hb hc hsteps
    have hregistered : b.header ∈ registered w'.state := List.mem_map_of_mem hb'
    refine ⟨hb',fun thread hheld => ?_,fun thread choice call w'' blocks hcompletes hmem => ?_,
      fun thread choice w'' blocks hcompletes v hv => ?_,
      fun label rest w'' hctl hstep => shutdown_refused hb' hc hctl hstep,
      fun label stage rest w'' hctl howner hstep => ?_⟩
    · exact hr.invariant.ownership.held_new thread hheld b hb' rfl
    · have he := hcompletes.effect hr
      have hperm := he.detaches hr.invariant.heap
      have hkept : b.header ∈ registered w''.state :=
        List.mem_map_of_mem (kept_by_window he hr.invariant.heap hb' hc)
      have hnodup := (List.nodup_append.mp (hr.invariant.ownership.nodup thread)).1
      exact (List.nodup_append.mp (hperm.nodup_iff.mp hnodup)).2.2 _ hmem _ hkept rfl
    · obtain ⟨dead,hcollected⟩ := hcompletes.collected hr
      exact (hcollected.mem_values hr.invariant.heap v).mpr ⟨b,⟨hb',Or.inl hc⟩,hv⟩
    · obtain ⟨result,hw'',hresult⟩ := @owner_call _ _ _ _ hr .shutdown _ hctl howner hstep
      rw [hw'', hresult rfl]
  · intro label header stage rest w' hctl hstep hregistered
    obtain ⟨b,hb,hheader,hc,hzero⟩ := registered_zeroed h hctl hstep hregistered
    have hr' : ReachableWorld w' := Reachable.step h hstep
    exact ⟨b,hb,hheader,hc,hzero,not_references_of_zeroed hr'.invariant.heap hzero⟩

/-- A shutdown waits in its window while a block is under construction. -/
def pinnedRun : List Label :=
  [.user 0 (.call (.registerStackBottom 28672)),.run 0 {},
    .user 0 (.call (.mallocInternal 16 16 (some 7) true)),.run 0 {},.run 0 { region := 4096 },
    .run 0 {},.user 0 (.call .shutdown),.run 0 {}]

theorem construction_pinning_pinnedRun :
    worldAfter (pinnedRun ++ [.run 0 {}]) = (worldAfter pinnedRun).setControl 0
      [.releasing (.error (.logicError shutdownDuringConstructionMessage))] :=
  (((construction_pinning (reachable_worldAfter pinnedRun)).1 ⟨4096,4128,4144,true⟩
    (by decide +kernel) rfl _ .refl).2.2.2.2.1 (.run 0 {}) [] _ (by decide +kernel)
    (worldAfter_step pinnedRun _ (by decide +kernel))).1

end GcLib.Properties
