import GcLib.Heap.Finalization

/-! # The in-degree counters

The emission loop tests a counter before it decrements it. The test always succeeds:
a counter holds the number of referrers whose edges are still to be relaxed, so the
loop that throws at a counter of zero is the same function.
-/

namespace GcLib.Heap
open Support

def indegreeUnderflowMessage : String := "An indegree counter is decremented below zero."

def relaxTargetChecked (progress : EmissionState) (targetIndex : ℕ) : M EmissionState :=
  if progress.indegree targetIndex = 0 then Exec.raise (.logicError indegreeUnderflowMessage)
  else relaxTarget progress targetIndex

/-- `emitReady` with the checked decrement. -/
def emitReadyChecked (blocks : List BlockRecord) (edges : ℕ → Vec ℕ) :
    ℕ → EmissionState → M EmissionState
  | 0, _ => Exec.diverge
  | fuel+1, progress =>
    match progress.ready.items.argmax (fun index => (blockAt blocks index).payloadBegin) with
    | none => pure progress
    | some index =>
      let popped := { progress.ready with items := progress.ready.items.erase index }
      if progress.emitted index then
        emitReadyChecked blocks edges fuel { progress with ready := popped }
      else do
        let ordered ← progress.ordered.pushBack .badAlloc (blockAt blocks index).header
        let progress ← (edges index).items.reverse.foldlM relaxTargetChecked
          { progress with
            ready := popped
            ordered := ordered
            emitted := Function.update progress.emitted index true }
        emitReadyChecked blocks edges fuel progress

/-- `orderBlocksForFinalizationLocked` with the checked decrement. -/
def orderBlocksForFinalizationChecked (fuel : ℕ) (blocks : List BlockRecord) : M (List ℕ) := do
  if blocks.length ≤ 1 then
    let _ ← (Vec.reserve .badAlloc blocks.length : M (Vec ℕ))
    pure (blocks.map BlockRecord.header)
  else
    let indexByBegin ← indexBlocksByBegin blocks
    allocate
    allocate
    let graph ← collectEdges fuel blocks indexByBegin
    let ready ← readyIndices blocks.length graph.indegree
    let ordered ← Vec.reserve .badAlloc blocks.length
    allocate
    let progress ← emitReadyChecked blocks graph.edges fuel
      ⟨graph.indegree,ready,ordered,fun _ => false⟩
    let ordered ← emitRemaining blocks progress
    pure ordered.items.reverse

section
variable {s₀ : State} {blocks : List BlockRecord} {g : Kahn.Graph ℕ} {edges : ℕ → Vec ℕ}

/-- A target that is relaxed still counts the referrer it is relaxed for. -/
theorem relaxTargetChecked_eq {emitted targets : List ℕ} {t : ℕ} {progress : EmissionState}
    (h : Emitting g blocks emitted (t :: targets) progress) :
    relaxTargetChecked progress t = relaxTarget progress t := by
  have hpos : 0 < progress.indegree t := h.1.relax.1
  exact if_neg hpos.ne'

theorem emitReadyChecked_eq (hg : ∀ i, g.succ i = (edges i).items) (fuel : ℕ) :
    ∀ {emitted : List ℕ} {progress : EmissionState}, Emitting g blocks emitted [] progress →
      ∀ supply, emitReadyChecked blocks edges fuel progress s₀ supply =
        emitReady blocks edges fuel progress s₀ supply := by
  induction fuel with
  | zero => exact fun _ _ => rfl
  | succ fuel ih =>
    intro emitted progress h supply
    rw [emitReadyChecked, emitReady]
    cases htop : progress.ready.items.argmax (fun index => (blockAt blocks index).payloadBegin) with
    | none => rfl
    | some index =>
      have hready : index ∈ progress.ready.items := List.argmax_mem htop
      have hnew := ((h.1.mem_ready index).mp hready).2.1
      have hemitted : progress.emitted index = false := by simp [h.2.2, hnew]
      simp only [hemitted, Bool.false_eq_true, if_false]
      have hpush : (progress.ordered.pushBack .badAlloc (blockAt blocks index).header :
          M (Vec ℕ)).Meets s₀ (fun ordered s => s = s₀ ∧
            ordered.items = (blockAt blocks index).header :: progress.ordered.items)
          (fun _ _ => True) := Vec.meets_pushBack (fun _ => ⟨rfl,rfl⟩) trivial
      refine Exec.bind_congr hpush ?_ supply
      rintro ⟨items,capacity⟩ s ⟨rfl,rfl⟩ supply
      let J : List ℕ → EmissionState → State → Prop := fun l progress s' =>
        s' = s ∧ Emitting g blocks (emitted ++ [index]) l progress
      have hrelax : ∀ t l progress s', J (t :: l) progress s' →
          (relaxTarget progress t).Meets s' (J l) (Unchanged s) := by
        rintro t l progress s' ⟨rfl,h⟩
        exact meets_relaxTarget h
      have hstart := h.emit hg hready capacity progress.ready.capacity
      rw [Exec.bind_run, Exec.foldlM_congr hrelax ?_ _ ⟨rfl,hstart⟩, ← Exec.bind_run]
      · refine Exec.bind_congr (Exec.meets_foldlM hrelax _ ⟨rfl,hstart⟩) ?_ supply
        rintro progress s' ⟨rfl,h'⟩ supply
        exact ih h' supply
      · rintro t l progress s' ⟨rfl,h⟩ supply
        rw [relaxTargetChecked_eq h]

/-- No counter is ever decremented below zero. -/
theorem orderBlocksForFinalizationChecked_eq (h : FinalizationSet blocks) (fuel : ℕ)
    (supply : Supply) : orderBlocksForFinalizationChecked fuel blocks s₀ supply =
      orderBlocksForFinalizationLocked fuel blocks s₀ supply := by
  unfold orderBlocksForFinalizationChecked orderBlocksForFinalizationLocked
  split_ifs with hone
  · rfl
  · refine Exec.bind_congr (meets_indexBlocksByBegin h) ?_ supply
    rintro indexByBegin s ⟨rfl,hindex⟩ supply
    have hallocate : ∀ {s : State}, (allocate : M Unit).Meets s (fun _ s' => s' = s)
        (fun _ _ => True) := Exec.meets_allocate rfl trivial
    refine Exec.bind_congr hallocate ?_ supply
    rintro - s rfl supply
    refine Exec.bind_congr hallocate ?_ supply
    rintro - s rfl supply
    refine Exec.bind_congr (meets_collectEdges h hindex fuel) ?_ supply
    rintro graph s ⟨rfl,hr⟩ supply
    refine Exec.bind_congr (meets_readyIndices blocks.length graph.indegree) ?_ supply
    rintro ready s ⟨rfl,hready⟩ supply
    have hreserve : (Vec.reserve .badAlloc blocks.length : M (Vec ℕ)).Meets s
        (fun ordered s' => s' = s ∧ ordered = ⟨[],blocks.length⟩) (fun _ _ => True) :=
      Vec.meets_reserve ⟨rfl,rfl⟩ trivial
    refine Exec.bind_congr hreserve ?_ supply
    rintro ordered s ⟨rfl,rfl⟩ supply
    refine Exec.bind_congr hallocate ?_ supply
    rintro - s rfl supply
    rw [Exec.bind_run, Exec.bind_run,
      emitReadyChecked_eq (fun _ => rfl) fuel (hr.emitting hready) supply]

end
end GcLib.Heap
