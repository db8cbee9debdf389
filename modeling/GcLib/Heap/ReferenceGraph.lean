import GcLib.Heap.Operations
import GcLib.Heap.OrderTermination

/-! # The reference graph

Diagnostics, the mark phase and the finalization order each walk the payloads with a
loop of their own, and the last of them looks words up in a map of its own. All three
find the same references between live blocks; diagnostics list each of them once and
leave out those of a block to itself.
-/

namespace GcLib.Heap
open Support

/-- A reference of a live block to another one. -/
def ReferencesOther (s : State) (u v : BlockRecord) : Prop := References s u v ∧ v ≠ u

section
variable {s : State} {fuel : ℕ}

theorem HeapInvariant.payloadBegin_header (h : HeapInvariant s) {block : BlockRecord}
    (hb : block ∈ s.allocations.values) : s.payloadBegin block.header = block.payloadBegin := by
  obtain ⟨chunk,hc,hd⟩ := h.described block hb
  rw [State.payloadBegin, State.header_eq hc, hd.payloadBegin_eq]

theorem HeapInvariant.payloadBegin_inj (h : HeapInvariant s) {b b' : BlockRecord}
    (hb : b ∈ s.allocations.values) (hb' : b' ∈ s.allocations.values)
    (he : b.payloadBegin = b'.payloadBegin) : b = b' :=
  s.allocations.value_unique (h.entry_mem hb) (he ▸ h.entry_mem hb')

/-- The reported references of a block, once each. -/
structure ListsReferences (s : State) (block : BlockRecord) (references : List ℕ) : Prop where
  nodup : references.Nodup
  mem : ∀ p, p ∈ references ↔ ∃ v, ReferencesOther s block v ∧ p = v.payloadBegin

/-- The diagnostic walk between two words: what is listed is right, and what is missing lies in
a word that is left. -/
structure Listing (s : State) (block : BlockRecord) (words : List ℕ) (references : Vec ℕ) :
    Prop where
  inside : ∀ x ∈ words, x ∈ alignedWords block.payloadBegin block.payloadEnd
  nodup : references.items.Nodup
  sound : ∀ p ∈ references.items, ∃ v, ReferencesOther s block v ∧ p = v.payloadBegin
  complete : ∀ v, ReferencesOther s block v → v.payloadBegin ∈ references.items ∨
    ∃ x ∈ words, v.Contains (readWord s.memory x)

/-- Passing over a word whose references are listed already. -/
theorem Listing.skip {block : BlockRecord} {x : ℕ} {words : List ℕ} {references : Vec ℕ}
    (h : Listing s block (x :: words) references)
    (hx : ∀ v, ReferencesOther s block v → v.Contains (readWord s.memory x) →
      v.payloadBegin ∈ references.items) : Listing s block words references where
  inside y hy := h.inside y (List.mem_cons_of_mem _ hy)
  nodup := h.nodup
  sound := h.sound
  complete v hv := by
    rcases h.complete v hv with hl | ⟨y,hy,hc⟩
    · exact Or.inl hl
    · rcases List.mem_cons.mp hy with rfl | hy
      · exact Or.inl (hx v hv hc)
      · exact Or.inr ⟨y,hy,hc⟩

/-- The diagnostic walk lists every other block the payload refers to, once. -/
theorem meets_collectOutgoingReferencesLocked_exact (hinv : HeapInvariant s) {block : BlockRecord}
    (hb : block ∈ s.allocations.values) :
    (collectOutgoingReferencesLocked fuel block).Meets s
      (fun references s' => s' = s ∧ ListsReferences s block references) (Unchanged s) := by
  obtain ⟨-,hlt,-,haligned⟩ := hinv.payload_bounds hb
  have hstart : Listing s block (alignedWords block.payloadBegin block.payloadEnd) {} :=
    ⟨fun _ => id,List.nodup_nil,by simp,fun v hv => Or.inr hv.1.2⟩
  refine Exec.meets_bind ((meets_forPayloadWords (J := fun _ s' => s' = s)
    (I := fun words references s' => s' = s ∧ Listing s block words references) haligned hlt.le
    (fun _ _ _ h => h.1) ?_ ?_ ⟨rfl,hstart⟩).mono ?_ (fun _ _ => id))
  · rintro x references s' rfl
    refine Exec.meets_bind (Exec.meets_get ?_)
    cases s'.findBlockLocked (readWord s'.memory x) with
    | none => exact Exec.meets_pure rfl
    | some target =>
      dsimp only
      split_ifs
      · exact Exec.meets_pure rfl
      · exact Exec.meets_pure rfl
      · exact Vec.meets_pushBack (fun _ => rfl) ⟨rfl,rfl⟩
  · rintro x words references s' ⟨rfl,h⟩
    refine Exec.meets_bind (Exec.meets_get ?_)
    cases hf : s'.findBlockLocked (readWord s'.memory x) with
    | none =>
      refine Exec.meets_pure ⟨rfl,h.skip fun v hv hc => ?_⟩
      exact absurd hc (hinv.findBlockLocked_eq_none.mp hf v hv.1.1)
    | some target =>
      obtain ⟨hlive,hc⟩ := hinv.findBlockLocked_eq_some.mp hf
      have honly : ∀ v, ReferencesOther s' block v → v.Contains (readWord s'.memory x) →
          v = target := fun v hv hcv => hinv.contains_unique hv.1.1 hlive hcv hc
      dsimp only
      rw [hinv.payloadBegin_header hlive]
      split_ifs with hself hold
      · refine Exec.meets_pure ⟨rfl,h.skip fun v hv hcv => ?_⟩
        exact absurd ((honly v hv hcv).trans hself) hv.2
      · refine Exec.meets_pure ⟨rfl,h.skip fun v hv hcv => ?_⟩
        rw [honly v hv hcv]
        exact hold
      · have href : ReferencesOther s' block target :=
          ⟨⟨hlive,x,h.inside x List.mem_cons_self,hc⟩,hself⟩
        refine Vec.meets_pushBack (fun c => ⟨rfl,?_⟩) ⟨rfl,rfl⟩
        have hpushed : Listing s' block (x :: words) ⟨target.payloadBegin :: references.items,c⟩ := by
          refine ⟨h.inside,List.nodup_cons.mpr ⟨hold,h.nodup⟩,fun p hp => ?_,fun v hv => ?_⟩
          · rcases List.mem_cons.mp hp with rfl | hp
            · exact ⟨target,href,rfl⟩
            · exact h.sound p hp
          · exact (h.complete v hv).imp (List.mem_cons_of_mem _) id
        refine hpushed.skip fun v hv hcv => ?_
        rw [honly v hv hcv]
        exact List.mem_cons_self
  · rintro references s' ⟨rfl,h⟩
    refine Exec.meets_pure ⟨rfl,List.nodup_reverse.mpr h.nodup,fun p => ?_⟩
    rw [List.mem_reverse]
    constructor
    · exact h.sound p
    · rintro ⟨v,hv,rfl⟩
      exact (h.complete v hv).resolve_right (by simp)

/-- What diagnostics say about a live block. -/
structure Describes (s : State) (block : BlockRecord) (object : HeapObjectInfo) : Prop where
  payload : object.payload = block.payloadBegin
  marked : object.marked = s.marks block.header
  references : ListsReferences s block object.outgoingReferences

theorem meets_describeBlockLocked_exact (hinv : HeapInvariant s) {block : BlockRecord}
    (hb : block ∈ s.allocations.values) :
    (describeBlockLocked fuel block).Meets s
      (fun object s' => s' = s ∧ Describes s block object) (Unchanged s) := by
  refine Exec.meets_bind (Exec.meets_get ?_)
  refine Exec.meets_bind ((meets_collectOutgoingReferencesLocked_exact hinv hb).mono ?_
    (fun _ _ => id))
  rintro references s' ⟨rfl,h⟩
  exact Exec.meets_pure ⟨rfl,hinv.payloadBegin_header hb,rfl,h⟩

theorem exists_describes {blocks : List BlockRecord} {objects : List HeapObjectInfo}
    (h : List.Forall₂ (Describes s) blocks objects) :
    (∀ o ∈ objects, ∃ b ∈ blocks, Describes s b o) ∧
      ∀ b ∈ blocks, ∃ o ∈ objects, Describes s b o := by
  induction h with
  | nil => simp
  | cons hd _ ih =>
    constructor
    · intro o ho
      rcases List.mem_cons.mp ho with rfl | ho
      · exact ⟨_,List.mem_cons_self,hd⟩
      · obtain ⟨b,hb,hd'⟩ := ih.1 o ho
        exact ⟨b,List.mem_cons_of_mem _ hb,hd'⟩
    · intro b hb
      rcases List.mem_cons.mp hb with rfl | hb
      · exact ⟨_,List.mem_cons_self,hd⟩
      · obtain ⟨o,ho,hd'⟩ := ih.2 b hb
        exact ⟨o,List.mem_cons_of_mem _ ho,hd'⟩

/-- A snapshot describes every live block once, in address order. -/
theorem meets_liveObjectsLocked_exact (hinv : HeapInvariant s) :
    (liveObjectsLocked fuel).Meets s
      (fun objects s' => s' = s ∧ List.Forall₂ (Describes s) s.allocations.values objects)
      (Unchanged s) := by
  refine Exec.meets_bind (Exec.meets_get (Exec.meets_bind (Vec.meets_reserve ?_ ⟨rfl,rfl⟩)))
  refine Exec.meets_bind ((Exec.meets_foldlM (I := fun blocks (objects : Vec HeapObjectInfo) s' =>
    s' = s ∧ ∃ done, s.allocations.values = done ++ blocks ∧
      List.Forall₂ (Describes s) done objects.items.reverse) ?_ _ ⟨rfl,[],rfl,.nil⟩).mono ?_
      (fun _ _ => id))
  · rintro block blocks objects s' ⟨rfl,done,hdone,h⟩
    have hb : block ∈ s'.allocations.values := hdone ▸ by simp
    refine Exec.meets_bind ((meets_describeBlockLocked_exact hinv hb).mono ?_ (fun _ _ => id))
    rintro object s'' ⟨rfl,ho⟩
    refine Vec.meets_pushBack (fun c => ⟨rfl,done ++ [block],?_,?_⟩) ⟨rfl,rfl⟩
    · rw [hdone, List.append_assoc]
      rfl
    · rw [List.reverse_cons]
      exact List.rel_append h (.cons ho .nil)
  · rintro objects s' ⟨rfl,done,hdone,h⟩
    rw [List.append_nil] at hdone
    exact Exec.meets_pure ⟨rfl,hdone ▸ h⟩

theorem meets_objectInfoLocked_exact (hinv : HeapInvariant s) (pointer : ℕ) :
    (objectInfoLocked fuel pointer).Meets s (fun object s' => s' = s ∧
      (∀ block, s.findBlockLocked pointer = some block → ∃ o, object = some o ∧
        Describes s block o) ∧ (s.findBlockLocked pointer = none → object = none))
      (Unchanged s) := by
  refine Exec.meets_bind (Exec.meets_get ?_)
  cases hf : s.findBlockLocked pointer with
  | none => exact Exec.meets_pure ⟨rfl,by simp,fun _ => rfl⟩
  | some block =>
    have hb := (hinv.findBlockLocked_eq_some.mp hf).1
    refine Exec.meets_bind ((meets_describeBlockLocked_exact hinv hb).mono ?_ (fun _ _ => id))
    rintro object s' ⟨rfl,h⟩
    refine Exec.meets_pure ⟨rfl,fun block' he => ?_,by simp⟩
    obtain rfl := Option.some.inj he
    exact ⟨object,rfl,h⟩

/-- Visiting a word marks the live block that contains it, whatever is marked already. -/
theorem meets_markCandidateLocked_any {s₀ : State} (hinv : HeapInvariant s₀)
    (hs : s.EqButMarks s₀) (worklist : Worklist) (word : ℕ) :
    (markCandidateLocked worklist word).Meets s
      (fun _ s' => s'.EqButMarks s₀ ∧ (∀ h, s.marks h = true → s'.marks h = true) ∧
        (∀ b ∈ s₀.allocations.values, b.Contains word → s'.marks b.header = true) ∧
        ∀ b ∈ s₀.allocations.values, s'.marks b.header = true →
          s.marks b.header = true ∨ b.Contains word)
      (fun e _ => e = .badAlloc) := by
  refine Exec.meets_bind (Exec.meets_get ?_)
  rw [hs.findBlockLocked]
  cases hf : s₀.findBlockLocked word with
  | none =>
    refine Exec.meets_pure ⟨hs,fun _ => id,fun b hb hc => ?_,fun _ _ => Or.inl⟩
    exact absurd hc (hinv.findBlockLocked_eq_none.mp hf b hb)
  | some target =>
    obtain ⟨hlive,hc⟩ := hinv.findBlockLocked_eq_some.mp hf
    have honly : ∀ b ∈ s₀.allocations.values, b.Contains word → b = target :=
      fun b hb hcb => hinv.contains_unique hb hlive hcb hc
    have hmagic : (s.header target.header).magicNumber = kChunkMagicNumber := by
      rw [hs.header]
      exact hinv.header_magic hlive
    dsimp only
    split_ifs with hskip
    · have hm : s.marks target.header = true := hskip.resolve_left (not_not.mpr hmagic)
      refine Exec.meets_pure ⟨hs,fun _ => id,fun b hb hcb => ?_,fun _ _ => Or.inl⟩
      rw [honly b hb hcb]
      exact hm
    · refine Exec.meets_bind (Exec.meets_modify ?_)
      refine Vec.meets_pushBack (fun _ => ⟨hs.setMarked _ _,?_,?_,?_⟩) rfl
      · intro h hm
        by_cases he : h = target.header <;> simp [State.setMarked, he, hm]
      · intro b hb hcb
        rw [honly b hb hcb]
        simp [State.setMarked]
      · intro b hb hm
        by_cases he : b.header = target.header
        · rw [hinv.header_inj hb hlive he]
          exact Or.inr hc
        · simp only [State.setMarked, Function.update_of_ne he] at hm
          exact Or.inl hm

/-- Scanning a payload marks the live blocks it refers to, and no others. -/
theorem meets_scanPayloadLocked_exact (hinv : HeapInvariant s) {block : BlockRecord}
    (hb : block ∈ s.allocations.values) (worklist : Worklist) :
    (scanPayloadLocked fuel block worklist).Meets s
      (fun _ s' => ∀ v ∈ s.allocations.values, s'.marks v.header = true ↔
        s.marks v.header = true ∨ References s block v)
      (fun e _ => e = .badAlloc) := by
  obtain ⟨-,hlt,-,haligned⟩ := hinv.payload_bounds hb
  let I : List ℕ → Worklist → State → Prop := fun words _ s' => s'.EqButMarks s ∧
    (∀ x ∈ words, x ∈ alignedWords block.payloadBegin block.payloadEnd) ∧
    ∀ v ∈ s.allocations.values,
      (s'.marks v.header = true → s.marks v.header = true ∨ References s block v) ∧
      (s.marks v.header = true ∨ References s block v → s'.marks v.header = true ∨
        ∃ x ∈ words, v.Contains (readWord s.memory x))
  have hwalk : (scanPayloadLocked fuel block worklist).Meets s (I []) (fun e _ => e = .badAlloc) := by
    refine meets_forPayloadWords (J := fun _ s' => s'.EqButMarks s) haligned hlt.le
      (fun _ _ _ h => h.1) ?_ ?_ ⟨.refl s,fun _ => id,fun v hv => ⟨Or.inl,?_⟩⟩
    · intro x worklist s' hs
      exact Exec.meets_bind (Exec.meets_get ((meets_markCandidateLocked_any hinv hs worklist _).mono
        (fun _ _ h => h.1) (fun _ _ => id)))
    · rintro x words worklist s' ⟨hs,hinside,hmarks⟩
      refine Exec.meets_bind (Exec.meets_get ?_)
      rw [hs.memory]
      refine (meets_markCandidateLocked_any hinv hs worklist _).mono ?_ (fun _ _ => id)
      rintro _ s'' ⟨hs',hkept,hhit,hnew⟩
      refine ⟨hs',fun y hy => hinside y (List.mem_cons_of_mem _ hy),fun v hv => ⟨fun hm => ?_,?_⟩⟩
      · rcases hnew v hv hm with hm | hc
        · exact (hmarks v hv).1 hm
        · exact Or.inr ⟨hv,x,hinside x List.mem_cons_self,hc⟩
      · intro hor
        rcases (hmarks v hv).2 hor with hm | ⟨y,hy,hc⟩
        · exact Or.inl (hkept _ hm)
        · rcases List.mem_cons.mp hy with rfl | hy
          · exact Or.inl (hhit v hv hc)
          · exact Or.inr ⟨y,hy,hc⟩
    · exact fun hor => hor.imp id And.right
  refine hwalk.mono (fun _ s' h v hv => ⟨(h.2.2 v hv).1,fun hor => ?_⟩) (fun _ _ => id)
  exact ((h.2.2 v hv).2 hor).resolve_right (by simp)

/-- The edges recorded for a set of live blocks are the references among its members. -/
theorem dependsOn_iff {blocks : List BlockRecord} (hsub : ∀ b ∈ blocks, b ∈ s.allocations.values)
    (u v : BlockRecord) :
    DependsOn s blocks u v ↔ u ∈ blocks ∧ v ∈ blocks ∧ ReferencesOther s u v := by
  constructor
  · rintro ⟨hu,hv,hne,hw⟩
    exact ⟨hu,hv,⟨hsub v hv,hw⟩,hne⟩
  · rintro ⟨hu,hv,⟨-,hw⟩,hne⟩
    exact ⟨hu,hv,hne,hw⟩

/-! ## Termination -/

theorem terminates_collectOutgoingReferencesLocked {block : BlockRecord}
    (hle : block.payloadBegin ≤ block.payloadEnd)
    (hend : block.payloadEnd+wordSize < addressLimit)
    (hfuel : block.payloadEnd-block.payloadBegin < wordSize*fuel) :
    (collectOutgoingReferencesLocked fuel block).Terminates s (fun _ s' => s' = s)
      (Unchanged s) := by
  refine Exec.terminates_bind ((terminates_forPayloadWords (J := fun _ s' => s' = s) hend ?_ fuel
    hfuel hle rfl).mono (fun _ _ h => Exec.terminates_pure h) (fun _ _ => id))
  rintro x references s' rfl
  refine Exec.terminates_bind (Exec.terminates_get ?_)
  cases s'.findBlockLocked (readWord s'.memory x) with
  | none => exact Exec.terminates_pure rfl
  | some target =>
    dsimp only
    split_ifs
    · exact Exec.terminates_pure rfl
    · exact Exec.terminates_pure rfl
    · exact Vec.terminates_pushBack (fun _ => rfl) ⟨rfl,rfl⟩

theorem terminates_describeBlockLocked {block : BlockRecord}
    (hle : block.payloadBegin ≤ block.payloadEnd)
    (hend : block.payloadEnd+wordSize < addressLimit)
    (hfuel : block.payloadEnd-block.payloadBegin < wordSize*fuel) :
    (describeBlockLocked fuel block).Terminates s (fun _ s' => s' = s) (Unchanged s) := by
  refine Exec.terminates_bind (Exec.terminates_get (Exec.terminates_bind
    ((terminates_collectOutgoingReferencesLocked hle hend hfuel).mono ?_ (fun _ _ => id))))
  rintro references s' rfl
  exact Exec.terminates_pure rfl

theorem terminates_liveObjectsLocked (hinv : HeapInvariant s)
    (hend : ∀ b ∈ s.allocations.values, b.payloadEnd+wordSize < addressLimit)
    (hfuel : EnoughFuel s.allocations.values fuel) :
    (liveObjectsLocked fuel).Terminates s (fun _ s' => s' = s) (Unchanged s) := by
  refine Exec.terminates_bind (Exec.terminates_get (Exec.terminates_bind
    (Vec.terminates_reserve ?_ ⟨rfl,rfl⟩)))
  refine Exec.terminates_bind ((Exec.terminates_foldlM (I := fun blocks _ s' => s' = s ∧
    ∀ b ∈ blocks, b ∈ s.allocations.values) ?_ _ ⟨rfl,fun _ => id⟩).mono
    (fun _ _ h => Exec.terminates_pure h.1) (fun _ _ => id))
  rintro block blocks objects s' ⟨rfl,hblocks⟩
  have hb := hblocks block List.mem_cons_self
  refine Exec.terminates_bind ((terminates_describeBlockLocked (hinv.payload_bounds hb).2.1.le
    (hend block hb) (hfuel.words block hb)).mono ?_ (fun _ _ => id))
  rintro object s'' rfl
  exact Vec.terminates_pushBack
    (fun _ => ⟨rfl,fun b hb => hblocks b (List.mem_cons_of_mem _ hb)⟩) ⟨rfl,rfl⟩

theorem terminates_objectInfoLocked (hinv : HeapInvariant s)
    (hend : ∀ b ∈ s.allocations.values, b.payloadEnd+wordSize < addressLimit)
    (hfuel : EnoughFuel s.allocations.values fuel) (pointer : ℕ) :
    (objectInfoLocked fuel pointer).Terminates s (fun _ s' => s' = s) (Unchanged s) := by
  refine Exec.terminates_bind (Exec.terminates_get ?_)
  cases hf : s.findBlockLocked pointer with
  | none => exact Exec.terminates_pure rfl
  | some block =>
    have hb := (hinv.findBlockLocked_eq_some.mp hf).1
    exact Exec.terminates_bind ((terminates_describeBlockLocked (hinv.payload_bounds hb).2.1.le
      (hend block hb) (hfuel.words block hb)).mono (fun _ _ h => Exec.terminates_pure h)
      (fun _ _ => id))

theorem terminates_scanPayloadLocked_any (hinv : HeapInvariant s) {block : BlockRecord}
    (hb : block ∈ s.allocations.values) (hend : block.payloadEnd+wordSize < addressLimit)
    (hfuel : block.payloadEnd-block.payloadBegin < wordSize*fuel) (worklist : Worklist) :
    (scanPayloadLocked fuel block worklist).Terminates s (fun _ s' => s'.EqButMarks s)
      (fun e _ => e = .badAlloc) := by
  refine terminates_forPayloadWords hend ?_ fuel hfuel (hinv.payload_bounds hb).2.1.le (.refl s)
  intro x worklist s' hs
  refine Exec.terminates_bind (Exec.terminates_get (Exec.terminates_bind
    (Exec.terminates_get ?_)))
  cases s'.findBlockLocked (readWord s'.memory x) with
  | none => exact Exec.terminates_pure hs
  | some target =>
    dsimp only
    split_ifs
    · exact Exec.terminates_pure hs
    · exact Exec.terminates_bind (Exec.terminates_modify
        (Vec.terminates_pushBack (fun _ => hs.setMarked _ _) rfl))

end
end GcLib.Heap
