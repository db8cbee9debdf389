import GcLib.Heap.ReferenceGraph
import GcLib.Protocol.Windows

/-! # Pointer lookup

`find_block_locked` looks at one predecessor of an address in the ordered map. Since
regions are disjoint and keyed by their payloads, that is as good as a linear search
of the live blocks: `is_live` and `object_info` answer from the payload the address
lies in, and bytes outside the live payloads never resolve.
-/

namespace GcLib.Properties
open GcLib.Heap GcLib.Support GcLib.Protocol

/-- One more word of a payload, as `collect_outgoing_references_locked` lists it. -/
def listReference (s : State) (block : BlockRecord) (references : List ℕ) (candidate : ℕ) :
    List ℕ :=
  match s.findBlockLocked candidate with
  | none => references
  | some target =>
    if target = block then references
    else if s.payloadBegin target.header ∈ references then references
    else s.payloadBegin target.header :: references

def listReferences (s : State) (block : BlockRecord) (words : List ℕ) (references : List ℕ) :
    List ℕ :=
  words.foldl (fun references x => listReference s block references (readWord s.memory x))
    references

/-- What diagnostics report about a block. -/
def description (s : State) (block : BlockRecord) : HeapObjectInfo where
  payload := s.payloadBegin block.header
  payloadSize := (s.header block.header).size
  reservedSize := (s.header block.header).blockAllocationSize
  payloadOffset := (s.header block.header).payloadOffset
  allocationAlignment := (s.header block.header).allocationAlignment
  marked := s.isMarked block.header
  outgoingReferences :=
    (listReferences s block (alignedWords block.payloadBegin block.payloadEnd) []).reverse

section
variable {s : State} {block : BlockRecord}

theorem meets_collectOutgoingReferencesLocked_value (hinv : HeapInvariant s)
    (hb : block ∈ s.allocations.values) (fuel : ℕ) :
    (collectOutgoingReferencesLocked fuel block).Meets s
      (fun references s' => s' = s ∧ references = (description s block).outgoingReferences)
      (Unchanged s) := by
  obtain ⟨-,hlt,-,haligned⟩ := hinv.payload_bounds hb
  refine Exec.meets_bind ((meets_forPayloadWords (J := fun _ s' => s' = s)
    (I := fun words (references : Vec ℕ) s' => s' = s ∧
      listReferences s block words references.items =
        listReferences s block (alignedWords block.payloadBegin block.payloadEnd) [])
    haligned hlt.le (fun _ _ _ h => h.1) ?_ ?_ ⟨rfl,rfl⟩).mono ?_ (fun _ _ => id))
  · rintro x references s' rfl
    refine Exec.meets_bind (Exec.meets_get ?_)
    cases s'.findBlockLocked (readWord s'.memory x) with
    | none => exact Exec.meets_pure rfl
    | some target =>
      dsimp only
      split_ifs
      · exact Exec.meets_pure rfl
      · exact Exec.meets_pure rfl
      · exact Vec.meets_pushBack (fun _ => rfl) ⟨rfl,rfl⟩
  · rintro x words references s' ⟨rfl,h⟩
    have hnext : listReferences s' block words
        (listReference s' block references.items (readWord s'.memory x)) =
          listReferences s' block (alignedWords block.payloadBegin block.payloadEnd) [] := h
    refine Exec.meets_bind (Exec.meets_get ?_)
    unfold listReference at hnext
    cases hf : s'.findBlockLocked (readWord s'.memory x) with
    | none =>
      rw [hf] at hnext
      exact Exec.meets_pure ⟨rfl,hnext⟩
    | some target =>
      rw [hf] at hnext
      dsimp only at hnext ⊢
      split_ifs at hnext ⊢
      · exact Exec.meets_pure ⟨rfl,hnext⟩
      · exact Exec.meets_pure ⟨rfl,hnext⟩
      · exact Vec.meets_pushBack (fun _ => ⟨rfl,hnext⟩) ⟨rfl,rfl⟩
  · rintro references s' ⟨rfl,h⟩
    exact Exec.meets_pure ⟨rfl,congrArg List.reverse h⟩

theorem meets_describeBlockLocked_value (hinv : HeapInvariant s)
    (hb : block ∈ s.allocations.values) (fuel : ℕ) :
    (describeBlockLocked fuel block).Meets s
      (fun object s' => s' = s ∧ object = description s block) (Unchanged s) := by
  refine Exec.meets_bind (Exec.meets_get ?_)
  refine Exec.meets_bind ((meets_collectOutgoingReferencesLocked_value hinv hb fuel).mono ?_
    (fun _ _ => id))
  rintro references s' ⟨rfl,rfl⟩
  exact Exec.meets_pure ⟨rfl,rfl⟩

/-- A block is described only when it ends below the last eight bytes of the address space. -/
theorem meets_describeBlockLocked_end (hinv : HeapInvariant s)
    (hb : block ∈ s.allocations.values) (fuel : ℕ) :
    (describeBlockLocked fuel block).Meets s
      (fun _ _ => block.payloadEnd+wordSize < addressLimit) (fun _ _ => True) := by
  by_cases hend : block.payloadEnd+wordSize < addressLimit
  · exact (meets_describeBlockLocked_value hinv hb fuel).mono (fun _ _ _ => hend)
      (fun _ _ _ => trivial)
  · refine Exec.meets_bind (Exec.meets_get (Exec.meets_bind (Exec.meets_bind ?_)))
    exact (forPayloadWords_never_returns _ (not_lt.mp hend) fuel
      (hinv.payload_bounds hb).2.2.2).mono (fun _ _ => False.elim) (fun _ _ => id)

/-- A snapshot is the list of the descriptions of the live blocks. -/
theorem meets_liveObjectsLocked_value (hinv : HeapInvariant s) (fuel : ℕ) :
    (liveObjectsLocked fuel).Meets s (fun objects s' => s' = s ∧
      objects = s.allocations.values.map (description s) ∧
      ∀ b ∈ s.allocations.values, b.payloadEnd+wordSize < addressLimit) (Unchanged s) := by
  refine Exec.meets_bind (Exec.meets_get (Exec.meets_bind (Vec.meets_reserve ?_ ⟨rfl,rfl⟩)))
  refine Exec.meets_bind ((Exec.meets_foldlM (I := fun blocks (objects : Vec HeapObjectInfo) s' =>
    s' = s ∧ ∃ done, s.allocations.values = done ++ blocks ∧
      objects.items.reverse = done.map (description s) ∧
      ∀ b ∈ done, b.payloadEnd+wordSize < addressLimit) ?_ _ ⟨rfl,[],rfl,rfl,by simp⟩).mono ?_
      (fun _ _ => id))
  · rintro block blocks objects s' ⟨rfl,done,hdone,h,hends⟩
    have hb : block ∈ s'.allocations.values := hdone ▸ by simp
    have hvalue := meets_describeBlockLocked_value hinv hb fuel
    have hwalked := meets_describeBlockLocked_end hinv hb fuel
    refine Exec.meets_bind ((hvalue.and hwalked).mono ?_ (fun _ _ h => h.1))
    rintro object s'' ⟨⟨rfl,rfl⟩,hend⟩
    refine Vec.meets_pushBack (fun c => ⟨rfl,done ++ [block],?_,?_,?_⟩) ⟨rfl,rfl⟩
    · rw [hdone, List.append_assoc]
      rfl
    · rw [List.reverse_cons, h, List.map_append]
      rfl
    · intro b hb
      rcases List.mem_append.mp hb with hb | hb
      · exact hends b hb
      · obtain rfl := List.mem_singleton.mp hb
        exact hend
  · rintro objects s' ⟨rfl,done,hdone,h,hends⟩
    rw [List.append_nil] at hdone
    exact Exec.meets_pure ⟨rfl,hdone ▸ h,hdone ▸ hends⟩

theorem meets_objectInfoLocked_value (hinv : HeapInvariant s) (fuel pointer : ℕ) :
    (objectInfoLocked fuel pointer).Meets s (fun object s' => s' = s ∧
      object = (s.findBlockLocked pointer).map (description s)) (Unchanged s) := by
  refine Exec.meets_bind (Exec.meets_get ?_)
  cases hf : s.findBlockLocked pointer with
  | none => exact Exec.meets_pure ⟨rfl,rfl⟩
  | some block =>
    have hb := (hinv.findBlockLocked_eq_some.mp hf).1
    refine Exec.meets_bind ((meets_describeBlockLocked_value hinv hb fuel).mono ?_ (fun _ _ => id))
    rintro object s' ⟨rfl,rfl⟩
    exact Exec.meets_pure ⟨rfl,rfl⟩

end

end GcLib.Properties
