import GcLib.Heap.Finalization

/-! # Ordering terminates

Every loop of the ordering visits finitely many words, edges or blocks, so enough fuel
makes it return or run out of memory. The payload walks need blocks that end below the
last eight bytes of the address space.
-/

namespace GcLib.Heap
open Support

section
variable {α : Type} {E : GCError → State → Prop} {J : α → State → Prop} {s₀ : State}
  {blocks : List BlockRecord} {indexByBegin : OrderedMap ℕ ℕ}

/-- A payload walk takes one round for each complete word. -/
theorem terminates_forPayloadWords {payloadEnd : ℕ} {body : α → ℕ → M α}
    (hend : payloadEnd+wordSize < addressLimit)
    (hbody : ∀ x a s, J a s → (body a x).Terminates s J E) (fuel : ℕ) :
    ∀ {cur : ℕ} {a : α} {s : State}, payloadEnd-cur < wordSize*fuel → cur ≤ payloadEnd → J a s →
      (forPayloadWords payloadEnd body fuel cur a).Terminates s J E := by
  induction fuel with
  | zero => exact fun hfuel => absurd hfuel (Nat.not_lt_zero _)
  | succ fuel ih =>
    intro cur a s hfuel hle h
    have hnext : wrapAdd cur wordSize = cur+wordSize := wrapAdd_of_lt (by omega)
    rw [forPayloadWords, hnext]
    split_ifs with hc
    · refine Exec.terminates_bind ((hbody cur a s h).mono (fun _ _ h' => ?_) (fun _ _ => id))
      exact ih (by simp only [wordSize] at *; omega) hc h'
    · exact Exec.terminates_pure h

theorem terminates_indexBlocksByBegin :
    (indexBlocksByBegin blocks).Terminates s₀ (fun _ s => s = s₀) (Unchanged s₀) := by
  refine Exec.terminates_foldlM (I := fun _ _ s => s = s₀) ?_ _ rfl
  rintro entry l indexByBegin s rfl
  exact Exec.terminates_bind (Exec.terminates_allocate (Exec.terminates_pure rfl) ⟨rfl,rfl⟩)

theorem terminates_recordReference (source : ℕ) (graph : FinalizationGraph) (candidate : ℕ) :
    (recordReference blocks indexByBegin source graph candidate).Terminates s₀
      (fun _ s => s = s₀) (Unchanged s₀) := by
  unfold recordReference
  cases indexByBegin.floor? candidate with
  | none => exact Exec.terminates_pure rfl
  | some target =>
    dsimp only
    split_ifs
    · exact Exec.terminates_pure rfl
    · exact Exec.terminates_pure rfl
    · exact Exec.terminates_bind
        (Vec.terminates_pushBack (fun _ => Exec.terminates_pure rfl) ⟨rfl,rfl⟩)

/-- Fuel that suffices for the longest payload and for one round per block. -/
structure EnoughFuel (blocks : List BlockRecord) (fuel : ℕ) : Prop where
  words : ∀ u ∈ blocks, u.payloadEnd-u.payloadBegin < wordSize*fuel
  rounds : blocks.length < fuel

theorem exists_enoughFuel (blocks : List BlockRecord) :
    ∃ fuel₀, ∀ fuel ≥ fuel₀, EnoughFuel blocks fuel := by
  let total := (blocks.map fun u => u.payloadEnd-u.payloadBegin).sum
  refine ⟨total+blocks.length+1,fun fuel hfuel => ⟨fun u hu => ?_,by omega⟩⟩
  have hle : u.payloadEnd-u.payloadBegin ≤ total :=
    List.single_le_sum (fun _ _ => Nat.zero_le _) _
      (List.mem_map_of_mem (f := fun u : BlockRecord => u.payloadEnd-u.payloadBegin) hu)
  simp only [wordSize]
  omega

theorem terminates_collectEdges (h : FinalizationSet blocks)
    (hend : ∀ u ∈ blocks, u.payloadEnd+wordSize < addressLimit) {fuel : ℕ}
    (hfuel : EnoughFuel blocks fuel) :
    (collectEdges fuel blocks indexByBegin).Terminates s₀ (fun _ s => s = s₀) (Unchanged s₀) := by
  refine (Exec.terminates_foldlM (I := fun l _ s => s = s₀ ∧ ∀ i ∈ l, i < blocks.length) ?_ _
    ⟨rfl,fun i hi => List.mem_range.mp hi⟩).mono (fun _ _ h' => h'.1) (fun _ _ => id)
  rintro source l graph s ⟨rfl,hl⟩
  have hmem := FinalizationSet.blockAt_mem (hl source List.mem_cons_self)
  refine (terminates_forPayloadWords (J := fun _ s' => s' = s) (hend _ hmem) ?_ fuel
    (hfuel.words _ hmem) (h.payload _ hmem).1.le rfl).mono
    (fun _ _ h' => ⟨h',fun i hi => hl i (List.mem_cons_of_mem _ hi)⟩) (fun _ _ => id)
  rintro x graph s' rfl
  exact Exec.terminates_bind (Exec.terminates_get (terminates_recordReference _ _ _))

theorem terminates_readyIndices (n : ℕ) (indegree : ℕ → ℕ) :
    (readyIndices n indegree).Terminates s₀ (fun _ s => s = s₀) (Unchanged s₀) := by
  refine Exec.terminates_foldlM (I := fun _ _ s => s = s₀) ?_ _ rfl
  rintro index l ready s rfl
  split_ifs
  · exact Vec.terminates_pushBack (fun _ => rfl) ⟨rfl,rfl⟩
  · exact Exec.terminates_pure rfl

theorem terminates_relaxTarget (progress : EmissionState) (target : ℕ) :
    (relaxTarget progress target).Terminates s₀ (fun _ s => s = s₀) (Unchanged s₀) := by
  unfold relaxTarget
  split_ifs
  · exact Exec.terminates_bind
      (Vec.terminates_pushBack (fun _ => Exec.terminates_pure rfl) ⟨rfl,rfl⟩)
  · exact Exec.terminates_pure rfl
  · exact Exec.terminates_pure rfl

/-- Each round of the emission loop uses up a block. -/
theorem terminates_emitReady {g : Kahn.Graph ℕ} {edges : ℕ → Vec ℕ}
    (hg : ∀ i, g.succ i = (edges i).items) (fuel : ℕ) :
    ∀ {emitted : List ℕ} {progress : EmissionState}, Emitting g blocks emitted [] progress →
      g.nodes.length < fuel+emitted.length →
      (emitReady blocks edges fuel progress).Terminates s₀ (fun _ s => s = s₀) (Unchanged s₀) := by
  induction fuel with
  | zero =>
    intro emitted progress h hfuel
    have hle := h.1.length_le
    omega
  | succ fuel ih =>
    intro emitted progress h hfuel
    rw [emitReady]
    cases htop : progress.ready.items.argmax (fun index => (blockAt blocks index).payloadBegin) with
    | none => exact Exec.terminates_pure rfl
    | some index =>
      have hready : index ∈ progress.ready.items := List.argmax_mem htop
      have hnew := ((h.1.mem_ready index).mp hready).2.1
      dsimp only
      rw [if_neg (by simp [h.2.2, hnew])]
      refine Exec.terminates_bind (Vec.terminates_pushBack (fun c => ?_) ⟨rfl,rfl⟩)
      refine Exec.terminates_bind ?_
      refine (Exec.terminates_foldlM (I := fun l progress s => s = s₀ ∧
        Emitting g blocks (emitted ++ [index]) l progress) ?_ _
        ⟨rfl,h.emit hg hready c progress.ready.capacity⟩).mono ?_ (fun _ _ => id)
      · rintro t l progress s ⟨rfl,h⟩
        exact ((terminates_relaxTarget progress t).and_meets (meets_relaxTarget h)).mono
          (fun _ _ h' => h'.2) (fun _ _ h' => h'.1)
      · rintro progress s ⟨rfl,h'⟩
        exact ih h' (by rw [List.length_append, List.length_singleton]; omega)

theorem terminates_emitRemaining (progress : EmissionState) :
    (emitRemaining blocks progress).Terminates s₀ (fun _ s => s = s₀) (Unchanged s₀) := by
  refine Exec.terminates_foldlM (I := fun _ _ s => s = s₀) ?_ _ rfl
  rintro index l ordered s rfl
  split_ifs
  · exact Exec.terminates_pure rfl
  · exact Vec.terminates_pushBack (fun _ => rfl) ⟨rfl,rfl⟩

/-- With enough fuel the ordering returns, or throws where an allocation fails. -/
theorem terminates_orderBlocksForFinalizationLocked (h : FinalizationSet blocks)
    (hend : ∀ u ∈ blocks, u.payloadEnd+wordSize < addressLimit) {fuel : ℕ}
    (hfuel : EnoughFuel blocks fuel) :
    (orderBlocksForFinalizationLocked fuel blocks).Terminates s₀ (fun _ s => s = s₀)
      (Unchanged s₀) := by
  unfold orderBlocksForFinalizationLocked
  split_ifs with hone
  · exact Exec.terminates_bind
      (Vec.terminates_reserve (Exec.terminates_pure rfl) ⟨rfl,rfl⟩)
  · refine Exec.terminates_bind ((terminates_indexBlocksByBegin.and_meets
      (meets_indexBlocksByBegin h)).mono ?_ (fun _ _ h' => h'.1))
    rintro indexByBegin s ⟨-,rfl,hindex⟩
    refine Exec.terminates_bind (Exec.terminates_allocate ?_ ⟨rfl,rfl⟩)
    refine Exec.terminates_bind (Exec.terminates_allocate ?_ ⟨rfl,rfl⟩)
    refine Exec.terminates_bind (((terminates_collectEdges h hend hfuel).and_meets
      (meets_collectEdges h hindex fuel)).mono ?_ (fun _ _ h' => h'.1))
    rintro graph s ⟨-,rfl,hr⟩
    refine Exec.terminates_bind (((terminates_readyIndices _ _).and_meets
      (meets_readyIndices blocks.length graph.indegree)).mono ?_ (fun _ _ h' => h'.1))
    rintro ready s ⟨-,rfl,hready⟩
    refine Exec.terminates_bind (Vec.terminates_reserve ?_ ⟨rfl,rfl⟩)
    refine Exec.terminates_bind (Exec.terminates_allocate ?_ ⟨rfl,rfl⟩)
    have hrounds : hr.graph.nodes.length < fuel+([] : List ℕ).length := by
      simpa [Recording.graph] using hfuel.rounds
    refine Exec.terminates_bind ((terminates_emitReady (fun _ => rfl) fuel
      (hr.emitting hready) hrounds).mono ?_ (fun _ _ => id))
    rintro progress s rfl
    refine Exec.terminates_bind ((terminates_emitRemaining progress).mono ?_ (fun _ _ => id))
    rintro ordered s rfl
    exact Exec.terminates_pure rfl

end
end GcLib.Heap
