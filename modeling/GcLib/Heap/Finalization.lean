import GcLib.Heap.Scanner
import GcLib.Heap.Invariant
import GcLib.Support.Kahn

/-! # Finalization order

Blocks detached together are emitted along their references as long as some block has
no referrer left; the blocks that remain follow in descending address order. The
remaining blocks are those below a reference cycle, so a reference out of such a
block goes forward only when it goes to a lower address.
-/

namespace GcLib.Heap
open Support Relation

def blockAt (blocks : List BlockRecord) (index : ℕ) : BlockRecord := blocks.getD index ⟨0,0,0,false⟩

/-- Every insertion into a `std::map` allocates a node. -/
def indexBlocksByBegin (blocks : List BlockRecord) : M (OrderedMap ℕ ℕ) :=
  blocks.zipIdx.foldlM (fun indexByBegin entry => do
    allocate
    pure (indexByBegin.emplace entry.1.payloadBegin entry.2)) .empty

structure FinalizationGraph where
  edges : ℕ → Vec ℕ
  indegree : ℕ → ℕ

def recordReference (blocks : List BlockRecord) (indexByBegin : OrderedMap ℕ ℕ)
    (sourceIndex : ℕ) (graph : FinalizationGraph) (candidate : ℕ) : M FinalizationGraph :=
  match indexByBegin.floor? candidate with
  | none => pure graph
  | some targetIndex =>
    if ¬ (blockAt blocks targetIndex).Contains candidate ∨ targetIndex = sourceIndex then pure graph
    else if targetIndex ∈ (graph.edges sourceIndex).items then pure graph
    else do
      let outgoing ← (graph.edges sourceIndex).pushBack .badAlloc targetIndex
      pure {
        edges := Function.update graph.edges sourceIndex outgoing
        indegree := Function.update graph.indegree targetIndex (graph.indegree targetIndex+1) }

def collectEdges (fuel : ℕ) (blocks : List BlockRecord) (indexByBegin : OrderedMap ℕ ℕ) :
    M FinalizationGraph :=
  (List.range blocks.length).foldlM (fun graph sourceIndex =>
    forPayloadWords (blockAt blocks sourceIndex).payloadEnd (fun graph cur => do
      let s ← Exec.get
      recordReference blocks indexByBegin sourceIndex graph (readWord s.memory cur))
      fuel (blockAt blocks sourceIndex).payloadBegin graph) ⟨fun _ => {},fun _ => 0⟩

/-- The locals of the emission loop; `ordered` holds headers and `ready` indices. -/
structure EmissionState where
  indegree : ℕ → ℕ
  ready : Vec ℕ
  ordered : Vec ℕ
  emitted : ℕ → Bool

def readyIndices (n : ℕ) (indegree : ℕ → ℕ) : M (Vec ℕ) :=
  (List.range n).foldlM (fun ready index =>
    if indegree index = 0 then ready.pushBack .badAlloc index else pure ready) {}

def relaxTarget (progress : EmissionState) (targetIndex : ℕ) : M EmissionState := do
  if progress.indegree targetIndex > 0 then
    let indegree := Function.update progress.indegree targetIndex (progress.indegree targetIndex-1)
    if progress.indegree targetIndex-1 = 0 then
      let ready ← progress.ready.pushBack .badAlloc targetIndex
      pure { progress with indegree := indegree, ready := ready }
    else pure { progress with indegree := indegree }
  else pure progress

/-- `higher_address_first` makes the highest block the top of the priority queue. -/
def emitReady (blocks : List BlockRecord) (edges : ℕ → Vec ℕ) :
    ℕ → EmissionState → M EmissionState
  | 0, _ => Exec.diverge
  | fuel+1, progress =>
    match progress.ready.items.argmax (fun index => (blockAt blocks index).payloadBegin) with
    | none => pure progress
    | some index =>
      let popped := { progress.ready with items := progress.ready.items.erase index }
      if progress.emitted index then emitReady blocks edges fuel { progress with ready := popped }
      else do
        let ordered ← progress.ordered.pushBack .badAlloc (blockAt blocks index).header
        let progress ← (edges index).items.reverse.foldlM relaxTarget
          { progress with
            ready := popped
            ordered := ordered
            emitted := Function.update progress.emitted index true }
        emitReady blocks edges fuel progress

def emitRemaining (blocks : List BlockRecord) (progress : EmissionState) : M (Vec ℕ) :=
  (List.range blocks.length).reverse.foldlM (fun ordered index =>
    if progress.emitted index then pure ordered
    else ordered.pushBack .badAlloc (blockAt blocks index).header) progress.ordered

/-- The headers of the blocks, first to be finalized first. -/
def orderBlocksForFinalizationLocked (fuel : ℕ) (blocks : List BlockRecord) : M (List ℕ) := do
  if blocks.length ≤ 1 then
    let _ ← (Vec.reserve .badAlloc blocks.length : M (Vec ℕ))
    pure (blocks.map BlockRecord.header)
  else
    let indexByBegin ← indexBlocksByBegin blocks
    allocate
    allocate
    let graph ← collectEdges fuel blocks indexByBegin
    let ready ← readyIndices blocks.length graph.indegree
    let ordered ← Vec.reserve .badAlloc blocks.length
    allocate
    let progress ← emitReady blocks graph.edges fuel ⟨graph.indegree,ready,ordered,fun _ => false⟩
    let ordered ← emitRemaining blocks progress
    pure ordered.items.reverse

/-- What ordering relies on: blocks in ascending order, with disjoint aligned payloads. -/
structure FinalizationSet (blocks : List BlockRecord) : Prop where
  ascending : blocks.Pairwise (fun u v => u.payloadEnd ≤ v.payloadBegin)
  payload : ∀ u ∈ blocks, u.payloadBegin < u.payloadEnd ∧ u.payloadBegin % wordSize = 0

/-- `u` holds a reference to another block `v` of the same set. -/
def DependsOn (s : State) (blocks : List BlockRecord) (u v : BlockRecord) : Prop :=
  u ∈ blocks ∧ v ∈ blocks ∧ v ≠ u ∧
    ∃ x ∈ alignedWords u.payloadBegin u.payloadEnd, v.Contains (readWord s.memory x)

instance (s : State) (blocks : List BlockRecord) (u v : BlockRecord) :
    Decidable (DependsOn s blocks u v) := inferInstanceAs (Decidable (_ ∧ _))

theorem HeapInvariant.finalizationSet {s : State} (h : HeapInvariant s)
    {blocks : List BlockRecord} (hsub : blocks.Sublist s.allocations.values) :
    FinalizationSet blocks where
  ascending := by
    refine List.Pairwise.sublist hsub (List.pairwise_map.mpr ?_)
    refine List.Pairwise.imp_of_mem ?_ s.allocations.sorted
    intro e e' he he' hlt
    rw [← h.key _ _ he']
    exact h.range_disjoint he he' hlt
  payload u hu := by
    have hb := h.payload_bounds (hsub.subset hu)
    exact ⟨hb.2.1,hb.2.2.2⟩

theorem blockAt_eq {blocks : List BlockRecord} {i : ℕ} (hi : i < blocks.length) :
    blockAt blocks i = blocks[i] := by
  simp [blockAt, List.getD_eq_getElem?_getD, hi]

namespace FinalizationSet
variable {blocks : List BlockRecord} {i j : ℕ}

theorem blockAt_mem (hi : i < blocks.length) : blockAt blocks i ∈ blocks := by
  rw [blockAt_eq hi]
  exact List.getElem_mem hi

theorem end_le (h : FinalizationSet blocks) (hij : i < j) (hj : j < blocks.length) :
    (blockAt blocks i).payloadEnd ≤ (blockAt blocks j).payloadBegin := by
  have hi := hij.trans hj
  rw [blockAt_eq hi, blockAt_eq hj]
  exact List.pairwise_iff_getElem.mp h.ascending i j hi hj hij

theorem begin_lt (h : FinalizationSet blocks) (hi : i < blocks.length) (hj : j < blocks.length) :
    (blockAt blocks i).payloadBegin < (blockAt blocks j).payloadBegin ↔ i < j := by
  have hpi := (h.payload _ (blockAt_mem hi)).1
  have hpj := (h.payload _ (blockAt_mem hj)).1
  constructor
  · intro hlt
    by_contra hle
    rcases (not_lt.mp hle).lt_or_eq with hji | rfl
    · have := h.end_le hji hi
      omega
    · exact lt_irrefl _ hlt
  · intro hij
    have := h.end_le hij hj
    omega

theorem index_inj (h : FinalizationSet blocks) (hi : i < blocks.length) (hj : j < blocks.length)
    (he : blockAt blocks i = blockAt blocks j) : i = j := by
  by_contra hne
  rcases lt_or_gt_of_ne hne with hlt | hlt
  · have hlt := (h.begin_lt hi hj).mpr hlt
    rw [he] at hlt
    exact lt_irrefl _ hlt
  · have hlt := (h.begin_lt hj hi).mpr hlt
    rw [he] at hlt
    exact lt_irrefl _ hlt

theorem nodup (h : FinalizationSet blocks) : blocks.Nodup := by
  refine h.ascending.imp_of_mem (fun {u v} hu _ huv he => ?_)
  have hp := (h.payload u hu).1
  rw [he] at hp huv
  omega

end FinalizationSet

/-- Reference between two positions of the set. -/
def IndexEdge (s : State) (blocks : List BlockRecord) (i j : ℕ) : Prop :=
  i < blocks.length ∧ j < blocks.length ∧ DependsOn s blocks (blockAt blocks i) (blockAt blocks j)

instance (s : State) (blocks : List BlockRecord) (i j : ℕ) : Decidable (IndexEdge s blocks i j) :=
  inferInstanceAs (Decidable (_ ∧ _))

/-- Ordering reads the state, and can fail only by running out of memory. -/
def Unchanged (s₀ : State) (e : GCError) (s : State) : Prop := e = .badAlloc ∧ s = s₀

section
variable {s₀ : State} {blocks : List BlockRecord} {indexByBegin : OrderedMap ℕ ℕ}

/-- The finished index finds the position of the block around an address. -/
def IndexesBlocks (blocks : List BlockRecord) (indexByBegin : OrderedMap ℕ ℕ) : Prop :=
  ∀ k i, (k,i) ∈ indexByBegin.entries ↔ i < blocks.length ∧ k = (blockAt blocks i).payloadBegin

theorem meets_indexBlocksByBegin (h : FinalizationSet blocks) :
    (indexBlocksByBegin blocks).Meets s₀
      (fun m s => s = s₀ ∧ IndexesBlocks blocks m) (Unchanged s₀) := by
  let I : List (BlockRecord × ℕ) → OrderedMap ℕ ℕ → State → Prop := fun l m s =>
    s = s₀ ∧ l = blocks.zipIdx.drop (blocks.length-l.length) ∧ l.length ≤ blocks.length ∧
      ∀ k i, (k,i) ∈ m.entries ↔
        i < blocks.length-l.length ∧ k = (blockAt blocks i).payloadBegin
  refine (Exec.meets_foldlM (I := I) ?_ blocks.zipIdx ?_).mono ?_ (fun _ _ => id)
  · rintro ⟨block,index⟩ l m s ⟨rfl,hl,hlen,hm⟩
    rw [List.length_cons] at hl hlen hm
    have hpos : blocks.length-(l.length+1) < blocks.zipIdx.length := by
      rw [List.length_zipIdx]
      omega
    rw [List.drop_eq_getElem_cons hpos, List.getElem_zipIdx] at hl
    obtain ⟨hhead,htail⟩ := List.cons.inj hl
    obtain ⟨rfl,rfl⟩ := Prod.mk.inj hhead
    have hlt : blocks.length-(l.length+1) < blocks.length := by omega
    have hat : blocks[blocks.length-(l.length+1)] =
        blockAt blocks (blocks.length-(l.length+1)) := (blockAt_eq hlt).symm
    have hnew : m.find? (blockAt blocks (blocks.length-(l.length+1))).payloadBegin = none := by
      refine OrderedMap.find?_eq_none.mpr (fun i hi => ?_)
      obtain ⟨hi,he⟩ := (hm _ _).mp hi
      have hb := (h.begin_lt (by omega) hlt).mpr hi
      omega
    refine Exec.meets_bind (Exec.meets_allocate (Exec.meets_pure ?_) ⟨rfl,rfl⟩)
    refine ⟨rfl,?_,by omega,fun k i => ?_⟩
    · rw [show blocks.length-l.length = blocks.length-(l.length+1)+1 by omega]
      exact htail
    · simp only [hat, Nat.zero_add]
      rw [OrderedMap.mem_emplace hnew, hm, Prod.mk.injEq]
      constructor
      · rintro (⟨rfl,rfl⟩ | ⟨hi,hk⟩)
        · exact ⟨by omega,rfl⟩
        · exact ⟨by omega,hk⟩
      · rintro ⟨hi,hk⟩
        by_cases he : i = blocks.length-(l.length+1)
        · exact Or.inl ⟨he ▸ hk,he⟩
        · exact Or.inr ⟨by omega,hk⟩
  · refine ⟨rfl,?_,by simp,?_⟩
    · simp
    · simp
  · rintro m s ⟨rfl,-,-,hm⟩
    exact ⟨rfl,by simpa [IndexesBlocks] using hm⟩

theorem IndexesBlocks.floor? (hm : IndexesBlocks blocks indexByBegin) (h : FinalizationSet blocks)
    {a i : ℕ} (hi : i < blocks.length) (hc : (blockAt blocks i).Contains a) :
    indexByBegin.floor? a = some i := by
  refine OrderedMap.floor?_of_range (fun i => (blockAt blocks i).payloadEnd) ?_
    ((hm _ _).mpr ⟨hi,rfl⟩) hc.1 hc.2
  rintro ⟨k,i⟩ he ⟨k',i'⟩ he' hlt
  obtain ⟨hi,rfl⟩ := (hm _ _).mp he
  obtain ⟨hi',rfl⟩ := (hm _ _).mp he'
  exact h.end_le ((h.begin_lt hi hi').mp hlt) hi'

/-- The edge loop: what is recorded is right, and what is missing is still pending. -/
structure Recording (s₀ : State) (blocks : List BlockRecord) (pending : ℕ → ℕ → Prop)
    (graph : FinalizationGraph) : Prop where
  sound : ∀ i, ∀ j ∈ (graph.edges i).items, IndexEdge s₀ blocks i j
  nodup : ∀ i, (graph.edges i).items.Nodup
  complete : ∀ i j, IndexEdge s₀ blocks i j → j ∈ (graph.edges i).items ∨ pending i j
  indegree : ∀ j, graph.indegree j =
    ((List.range blocks.length).filter (fun i => decide (j ∈ (graph.edges i).items))).length

/-- A new edge adds its source to the referrers of its target. -/
theorem Recording.length_filter {graph : FinalizationGraph} {i j k : ℕ} {outgoing : Vec ℕ}
    (hi : i < blocks.length) (hnew : j ∉ (graph.edges i).items)
    (ho : outgoing.items = j :: (graph.edges i).items) :
    ((List.range blocks.length).filter (fun u => decide (k ∈
      (Function.update graph.edges i outgoing u).items))).length =
      ((List.range blocks.length).filter (fun u => decide (k ∈ (graph.edges u).items))).length +
        if k = j then 1 else 0 := by
  have hmem : ∀ u, k ∈ (Function.update graph.edges i outgoing u).items ↔
      (u = i ∧ k = j) ∨ k ∈ (graph.edges u).items := by
    intro u
    by_cases hu : u = i
    · subst hu
      simp [ho]
    · simp [hu]
  have hnd : ∀ p : ℕ → Bool, ((List.range blocks.length).filter p).Nodup :=
    fun p => List.nodup_range.filter p
  split_ifs with hk
  · subst hk
    have hp : ((List.range blocks.length).filter (fun u => decide (k ∈
        (Function.update graph.edges i outgoing u).items))).Perm
        (i :: (List.range blocks.length).filter (fun u => decide (k ∈ (graph.edges u).items))) := by
      refine (List.perm_ext_iff_of_nodup (hnd _) (List.nodup_cons.mpr ⟨?_,hnd _⟩)).mpr ?_
      · simp [hnew]
      · intro u
        simp only [List.mem_filter, List.mem_range, decide_eq_true_eq, List.mem_cons, hmem]
        constructor
        · rintro ⟨hu,⟨rfl,-⟩ | hu'⟩
          · exact Or.inl rfl
          · exact Or.inr ⟨hu,hu'⟩
        · rintro (rfl | ⟨hu,hu'⟩)
          · exact ⟨hi,Or.inl ⟨rfl,trivial⟩⟩
          · exact ⟨hu,Or.inr hu'⟩
    rw [hp.length_eq, List.length_cons]
  · rw [Nat.add_zero]
    congr 1
    apply List.filter_congr
    intro u _
    simp [hmem, hk]

theorem meets_recordReference (h : FinalizationSet blocks)
    (hm : IndexesBlocks blocks indexByBegin) {pending pending' : ℕ → ℕ → Prop}
    {graph : FinalizationGraph} {source candidate : ℕ}
    (hg : Recording s₀ blocks pending graph)
    (hsource : ∀ j < blocks.length, j ≠ source → (blockAt blocks j).Contains candidate →
      IndexEdge s₀ blocks source j)
    (hpending : ∀ i j, IndexEdge s₀ blocks i j → pending i j →
      (i = source ∧ (blockAt blocks j).Contains candidate) ∨ pending' i j) :
    (recordReference blocks indexByBegin source graph candidate).Meets s₀
      (fun graph s => s = s₀ ∧ Recording s₀ blocks pending' graph) (Unchanged s₀) := by
  have hself : ∀ {i j}, IndexEdge s₀ blocks i j → j ≠ i :=
    fun he hij => he.2.2.2.2.1 (by rw [hij])
  unfold recordReference
  cases hf : indexByBegin.floor? candidate with
  | none =>
    refine Exec.meets_pure ⟨rfl,hg.sound,hg.nodup,fun i j he => ?_,hg.indegree⟩
    refine (hg.complete i j he).imp id (fun hp => (hpending i j he hp).resolve_left ?_)
    rintro ⟨-,hc⟩
    rw [hm.floor? h he.2.1 hc] at hf
    cases hf
  | some target =>
    have hfound : ∀ {j}, j < blocks.length → (blockAt blocks j).Contains candidate → j = target := by
      intro j hj hc
      rw [hm.floor? h hj hc] at hf
      exact Option.some.inj hf
    dsimp only
    split_ifs with hskip hold
    · refine Exec.meets_pure ⟨rfl,hg.sound,hg.nodup,fun i j he => ?_,hg.indegree⟩
      refine (hg.complete i j he).imp id (fun hp => (hpending i j he hp).resolve_left ?_)
      rintro ⟨rfl,hc⟩
      obtain rfl := hfound he.2.1 hc
      exact hskip.elim (fun hn => hn hc) (hself he)
    · refine Exec.meets_pure ⟨rfl,hg.sound,hg.nodup,fun i j he => ?_,hg.indegree⟩
      rcases hg.complete i j he with hj | hp
      · exact Or.inl hj
      · rcases hpending i j he hp with ⟨rfl,hc⟩ | hp
        · exact Or.inl (hfound he.2.1 hc ▸ hold)
        · exact Or.inr hp
    · push Not at hskip
      have htarget : target < blocks.length := by
        obtain ⟨k,hk,-,-⟩ := OrderedMap.floor?_eq_some.mp hf
        exact ((hm k target).mp hk).1
      have hedge := hsource target htarget hskip.2 hskip.1
      refine Exec.meets_bind (Vec.meets_pushBack (fun c => Exec.meets_pure ⟨rfl,?_⟩) ⟨rfl,rfl⟩)
      refine ⟨fun i j hj => ?_,fun i => ?_,fun i j he => ?_,fun j => ?_⟩
      · by_cases hi : i = source
        · subst hi
          simp only [Function.update_self] at hj
          rcases List.mem_cons.mp hj with rfl | hj
          · exact hedge
          · exact hg.sound i j hj
        · simp only [Function.update_of_ne hi] at hj
          exact hg.sound i j hj
      · by_cases hi : i = source
        · subst hi
          simpa only [Function.update_self] using List.nodup_cons.mpr ⟨hold,hg.nodup i⟩
        · simpa only [Function.update_of_ne hi] using hg.nodup i
      · by_cases hi : i = source
        · subst hi
          simp only [Function.update_self]
          rcases hg.complete i j he with hj | hp
          · exact Or.inl (List.mem_cons_of_mem _ hj)
          · rcases hpending i j he hp with ⟨-,hc⟩ | hp
            · exact Or.inl (hfound he.2.1 hc ▸ List.mem_cons_self)
            · exact Or.inr hp
        · simp only [Function.update_of_ne hi]
          refine (hg.complete i j he).imp id (fun hp => (hpending i j he hp).resolve_left ?_)
          exact fun hs => hi hs.1
      · dsimp only
        rw [Recording.length_filter hedge.1 hold rfl, ← hg.indegree j]
        by_cases hj : j = target
        · subst hj
          simp
        · simp [hj]

/-- The edge loop records every reference between two blocks of the set, once. -/
theorem meets_collectEdges (h : FinalizationSet blocks)
    (hm : IndexesBlocks blocks indexByBegin) (fuel : ℕ) :
    (collectEdges fuel blocks indexByBegin).Meets s₀
      (fun graph s => s = s₀ ∧ Recording s₀ blocks (fun _ _ => False) graph) (Unchanged s₀) := by
  let I : List ℕ → FinalizationGraph → State → Prop := fun l graph s =>
    s = s₀ ∧ (∀ i ∈ l, i < blocks.length) ∧ Recording s₀ blocks (fun i _ => i ∈ l) graph
  refine (Exec.meets_foldlM (I := I) ?_ (List.range blocks.length) ?_).mono ?_ (fun _ _ => id)
  · rintro source l graph s ⟨rfl,hl,hg⟩
    have hsource := hl source List.mem_cons_self
    obtain ⟨hlt,haligned⟩ := h.payload _ (FinalizationSet.blockAt_mem hsource)
    let W := alignedWords (blockAt blocks source).payloadBegin (blockAt blocks source).payloadEnd
    let K : List ℕ → FinalizationGraph → State → Prop := fun w graph s' =>
      s' = s ∧ (∀ x ∈ w, x ∈ W) ∧ Recording s blocks (fun i j => (i = source ∧
        ∃ x ∈ w, (blockAt blocks j).Contains (readWord s.memory x)) ∨ i ∈ l) graph
    have hwalk : (forPayloadWords (blockAt blocks source).payloadEnd (fun graph cur => do
        let s ← Exec.get
        recordReference blocks indexByBegin source graph (readWord s.memory cur))
        fuel (blockAt blocks source).payloadBegin graph).Meets s (K []) (Unchanged s) := by
      refine meets_forPayloadWords (I := K) (J := fun _ s' => s' = s) haligned hlt.le
        (fun _ _ _ hK => hK.1) ?_ ?_ ⟨rfl,fun _ => id,hg.sound,hg.nodup,fun i j he => ?_,
          hg.indegree⟩
      · rintro x graph s' rfl
        refine Exec.meets_bind (Exec.meets_get ?_)
        unfold recordReference
        cases indexByBegin.floor? (readWord s'.memory x) with
        | none => exact Exec.meets_pure rfl
        | some target =>
          dsimp only
          split_ifs
          · exact Exec.meets_pure rfl
          · exact Exec.meets_pure rfl
          · exact Exec.meets_bind (Vec.meets_pushBack (fun _ => Exec.meets_pure rfl) ⟨rfl,rfl⟩)
      · rintro x w graph s' ⟨rfl,hw,hr⟩
        refine Exec.meets_bind (Exec.meets_get ?_)
        refine (meets_recordReference h hm hr (fun j hj hne hc => ?_) ?_).mono
          (fun graph s'' h' => ⟨h'.1,fun y hy => hw y (List.mem_cons_of_mem _ hy),h'.2⟩)
          (fun _ _ => id)
        · refine ⟨hsource,hj,FinalizationSet.blockAt_mem hsource,FinalizationSet.blockAt_mem hj,
            fun he => hne (h.index_inj hj hsource he),x,hw x List.mem_cons_self,hc⟩
        · rintro i j he (⟨rfl,y,hy,hc⟩ | hi)
          · rcases List.mem_cons.mp hy with rfl | hy
            · exact Or.inl ⟨rfl,hc⟩
            · exact Or.inr (Or.inl ⟨rfl,y,hy,hc⟩)
          · exact Or.inr (Or.inr hi)
      · refine (hg.complete i j he).imp id (fun hi => ?_)
        rcases List.mem_cons.mp hi with rfl | hi
        · obtain ⟨-,-,-,-,-,x,hx,hc⟩ := he
          exact Or.inl ⟨rfl,x,hx,hc⟩
        · exact Or.inr hi
    refine hwalk.mono (fun graph s' hK => ⟨hK.1,fun i hi => hl i (List.mem_cons_of_mem _ hi),
      hK.2.2.sound,hK.2.2.nodup,fun i j he => ?_,hK.2.2.indegree⟩) (fun _ _ => id)
    refine (hK.2.2.complete i j he).imp id (fun hp => hp.resolve_left ?_)
    rintro ⟨-,x,hx,-⟩
    exact List.not_mem_nil hx
  · refine ⟨rfl,fun i hi => List.mem_range.mp hi,by simp,by simp,?_,by simp⟩
    exact fun i j he => Or.inr (List.mem_range.mpr he.1)
  · rintro graph s ⟨rfl,-,hr⟩
    exact ⟨rfl,hr.sound,hr.nodup,
      fun i j he => (hr.complete i j he).imp id (fun hi => List.not_mem_nil hi),hr.indegree⟩

/-- The graph the emission loop works on. -/
def Recording.graph {graph : FinalizationGraph}
    (hr : Recording s₀ blocks (fun _ _ => False) graph) : Kahn.Graph ℕ where
  nodes := List.range blocks.length
  succ i := (graph.edges i).items
  nodes_nodup := List.nodup_range
  succ_nodup := hr.nodup
  succ_mem i j hj := by
    have he := hr.sound i j hj
    exact ⟨List.mem_range.mpr he.1,List.mem_range.mpr he.2.1⟩

theorem Recording.edge_iff {graph : FinalizationGraph}
    (hr : Recording s₀ blocks (fun _ _ => False) graph) (i j : ℕ) :
    hr.graph.Edge i j ↔ IndexEdge s₀ blocks i j :=
  ⟨hr.sound i j,fun he => (hr.complete i j he).resolve_right id⟩

theorem meets_readyIndices (n : ℕ) (indegree : ℕ → ℕ) :
    (readyIndices n indegree).Meets s₀ (fun ready s => s = s₀ ∧ ready.items.Nodup ∧
      ∀ v, v ∈ ready.items ↔ v ∈ List.range n ∧ indegree v = 0) (Unchanged s₀) := by
  let I : List ℕ → Vec ℕ → State → Prop := fun l ready s => s = s₀ ∧ l.Nodup ∧
    (∀ v ∈ l, v ∈ List.range n) ∧ ready.items.Nodup ∧
    ∀ v, v ∈ ready.items ↔ v ∈ List.range n ∧ v ∉ l ∧ indegree v = 0
  refine (Exec.meets_foldlM (I := I) ?_ (List.range n) ?_).mono ?_ (fun _ _ => id)
  · rintro index l ready s ⟨rfl,hl,hrange,hnodup,hready⟩
    obtain ⟨hnew,hl⟩ := List.nodup_cons.mp hl
    have hindex := hrange index List.mem_cons_self
    have hrange : ∀ v ∈ l, v ∈ List.range n := fun v hv => hrange v (List.mem_cons_of_mem _ hv)
    have hout : index ∉ ready.items := fun hi => ((hready index).mp hi).2.1 List.mem_cons_self
    split_ifs with h₀
    · refine Vec.meets_pushBack (fun c => ⟨rfl,hl,hrange,?_,fun v => ?_⟩) ⟨rfl,rfl⟩
      · exact List.nodup_cons.mpr ⟨hout,hnodup⟩
      · rw [List.mem_cons, hready v, List.mem_cons]
        by_cases hv : v = index
        · subst hv
          simpa [hnew, h₀] using hindex
        · simp [hv]
    · refine Exec.meets_pure ⟨rfl,hl,hrange,hnodup,fun v => ?_⟩
      rw [hready v, List.mem_cons]
      by_cases hv : v = index
      · subst hv
        simp [h₀]
      · simp [hv]
  · refine ⟨rfl,List.nodup_range,fun _ => id,by simp,fun v => ?_⟩
    have hv : ¬ (v ∈ List.range n ∧ v ∉ List.range n ∧ indegree v = 0) :=
      fun hv => hv.2.1 hv.1
    simpa using hv
  · rintro ready s ⟨rfl,-,-,hnodup,hready⟩
    exact ⟨rfl,hnodup,by simpa using hready⟩

/-- The locals of the emission loop carry the abstract emission; `ordered` holds the headers of
what was emitted. -/
def Emitting (g : Kahn.Graph ℕ) (blocks : List BlockRecord) (emitted targets : List ℕ)
    (progress : EmissionState) : Prop :=
  Kahn.Emission g progress.indegree progress.ready.items emitted targets ∧
    progress.ordered.items = (emitted.map (fun i => (blockAt blocks i).header)).reverse ∧
    ∀ i, progress.emitted i = decide (i ∈ emitted)

theorem meets_relaxTarget {g : Kahn.Graph ℕ} {emitted targets : List ℕ} {t : ℕ}
    {progress : EmissionState} (h : Emitting g blocks emitted (t :: targets) progress) :
    (relaxTarget progress t).Meets s₀
      (fun progress s => s = s₀ ∧ Emitting g blocks emitted targets progress)
      (Unchanged s₀) := by
  obtain ⟨he,ho,hm⟩ := h
  obtain ⟨hpos,hr⟩ := he.relax
  unfold relaxTarget
  rw [if_pos hpos]
  split_ifs with hz
  · rw [if_pos hz] at hr
    exact Exec.meets_bind (Vec.meets_pushBack (fun c => Exec.meets_pure ⟨rfl,hr,ho,hm⟩) ⟨rfl,rfl⟩)
  · rw [if_neg hz] at hr
    exact Exec.meets_pure ⟨rfl,hr,ho,hm⟩

theorem Recording.emitting {graph : FinalizationGraph} {ready : Vec ℕ}
    (hr : Recording s₀ blocks (fun _ _ => False) graph)
    (hready : ready.items.Nodup ∧
      ∀ v, v ∈ ready.items ↔ v ∈ List.range blocks.length ∧ graph.indegree v = 0) :
    Emitting hr.graph blocks [] []
      ⟨graph.indegree,ready,⟨[],blocks.length⟩,fun _ => false⟩ := by
  refine ⟨Kahn.Emission.start (fun v _ => ?_) hready.2 hready.1,rfl,by simp⟩
  refine (hr.indegree v).trans (congrArg List.length (List.filter_congr ?_))
  simp [Recording.graph]

/-- Emitting a ready node makes its edges the ones to relax. -/
theorem Emitting.emit {g : Kahn.Graph ℕ} {edges : ℕ → Vec ℕ}
    (hg : ∀ i, g.succ i = (edges i).items) {emitted : List ℕ} {progress : EmissionState}
    (h : Emitting g blocks emitted [] progress) {index : ℕ}
    (hready : index ∈ progress.ready.items) (c readyCapacity : ℕ) :
    Emitting g blocks (emitted ++ [index]) (edges index).items.reverse {
      indegree := progress.indegree
      ready := ⟨progress.ready.items.erase index,readyCapacity⟩
      ordered := ⟨(blockAt blocks index).header :: progress.ordered.items,c⟩
      emitted := Function.update progress.emitted index true } := by
  obtain ⟨he,ho,hm⟩ := h
  have hemit := (he.emit hready).perm (List.reverse_perm (g.succ index)).symm
  rw [hg index] at hemit
  refine ⟨hemit,by simp [ho],fun i => ?_⟩
  by_cases hi : i = index
  · subst hi
    simp
  · simp [hi, hm]

/-- The loop emits the ready block with the highest address. -/
theorem Emitting.greedy {g : Kahn.Graph ℕ} {emitted : List ℕ} {progress : EmissionState}
    (h : Emitting g blocks emitted [] progress)
    (hgreedy : g.Greedy (fun i => (blockAt blocks i).payloadBegin) emitted) {index : ℕ}
    (htop : index ∈ progress.ready.items.argmax fun i => (blockAt blocks i).payloadBegin) :
    g.Greedy (fun i => (blockAt blocks i).payloadBegin) (emitted ++ [index]) := by
  refine hgreedy.concat (h.1.mem_ready_iff.mp (List.argmax_mem htop)) (fun w hw => ?_)
  exact List.le_of_mem_argmax (f := fun i => (blockAt blocks i).payloadBegin)
    (h.1.mem_ready_iff.mpr hw) htop

theorem meets_emitReady {g : Kahn.Graph ℕ} {edges : ℕ → Vec ℕ}
    (hg : ∀ i, g.succ i = (edges i).items) (fuel : ℕ) :
    ∀ {emitted : List ℕ} {progress : EmissionState}, Emitting g blocks emitted [] progress →
      g.Greedy (fun i => (blockAt blocks i).payloadBegin) emitted →
      (emitReady blocks edges fuel progress).Meets s₀
        (fun progress s => s = s₀ ∧ progress.ready.items = [] ∧
          ∃ emitted, Emitting g blocks emitted [] progress ∧
            g.Greedy (fun i => (blockAt blocks i).payloadBegin) emitted) (Unchanged s₀) := by
  induction fuel with
  | zero => exact fun _ _ => Exec.meets_diverge
  | succ fuel ih =>
    intro emitted progress h hgreedy
    rw [emitReady]
    cases htop : progress.ready.items.argmax (fun index => (blockAt blocks index).payloadBegin) with
    | none => exact Exec.meets_pure ⟨rfl,List.argmax_eq_none.mp htop,emitted,h,hgreedy⟩
    | some index =>
      have hready : index ∈ progress.ready.items := List.argmax_mem htop
      have hnew := ((h.1.mem_ready index).mp hready).2.1
      dsimp only
      rw [if_neg (by simp [h.2.2, hnew])]
      refine Exec.meets_bind (Vec.meets_pushBack (fun c => ?_) ⟨rfl,rfl⟩)
      refine Exec.meets_bind ?_
      refine (Exec.meets_foldlM (I := fun l progress s => s = s₀ ∧
        Emitting g blocks (emitted ++ [index]) l progress) ?_ _
        ⟨rfl,h.emit hg hready c progress.ready.capacity⟩).mono ?_ (fun _ _ => id)
      · rintro t l progress s ⟨rfl,h⟩
        exact meets_relaxTarget h
      · rintro progress s ⟨rfl,h'⟩
        exact ih h' (h.greedy hgreedy htop)

theorem meets_emitRemaining {emitted : List ℕ} {progress : EmissionState}
    (ho : progress.ordered.items = (emitted.map (fun i => (blockAt blocks i).header)).reverse)
    (hm : ∀ i, progress.emitted i = decide (i ∈ emitted)) :
    (emitRemaining blocks progress).Meets s₀ (fun ordered s => s = s₀ ∧ ordered.items.reverse =
      (emitted ++ (List.range blocks.length).reverse.filter (fun i => decide (i ∉ emitted))).map
        (fun i => (blockAt blocks i).header)) (Unchanged s₀) := by
  generalize hrest : (List.range blocks.length).reverse = rest
  unfold emitRemaining
  rw [hrest]
  refine (Exec.meets_foldlM (I := fun l ordered s => s = s₀ ∧
    ordered.items.reverse ++ (l.filter (fun i => decide (i ∉ emitted))).map
      (fun i => (blockAt blocks i).header) =
    (emitted ++ rest.filter (fun i => decide (i ∉ emitted))).map
      (fun i => (blockAt blocks i).header)) ?_ rest ⟨rfl,?_⟩).mono ?_ (fun _ _ => id)
  · rintro i l ordered s ⟨rfl,h⟩
    split_ifs with hi
    · rw [hm i] at hi
      exact Exec.meets_pure ⟨rfl,by simpa [of_decide_eq_true hi] using h⟩
    · rw [hm i] at hi
      refine Vec.meets_pushBack (fun c => ⟨rfl,?_⟩) ⟨rfl,rfl⟩
      have hi : i ∉ emitted := by simpa using hi
      simpa [hi] using h
  · simp [ho]
  · rintro ordered s ⟨rfl,h⟩
    exact ⟨rfl,by simpa using h⟩

/-- The finalization order as a list of positions in the set. -/
structure FinalizationOrder (g : Kahn.Graph ℕ) (order : List ℕ) : Prop where
  perm : order.Perm g.nodes
  before_iff : ∀ u v, g.Edge u v → (Before order u v ↔ (g.BelowCycle u → v < u))

theorem Kahn.Emission.finalizationOrder {g : Kahn.Graph ℕ} {n : ℕ} {indegree : ℕ → ℕ}
    {emitted : List ℕ} (h : Kahn.Emission g indegree [] emitted []) (hn : g.nodes = List.range n) :
    FinalizationOrder g
      (emitted ++ (List.range n).reverse.filter (fun i => decide (i ∉ emitted))) := by
  let rest := (List.range n).reverse.filter (fun i => decide (i ∉ emitted))
  have hrest : rest.Nodup := (List.nodup_reverse.mpr List.nodup_range).filter _
  have hmem : ∀ i, i ∈ rest ↔ i < n ∧ i ∉ emitted := by simp [rest]
  have hnodup : (emitted ++ rest).Nodup :=
    h.emitted_nodup.append hrest (fun i hi hi' => ((hmem i).mp hi').2 hi)
  have hnode : ∀ {i}, i ∈ g.nodes ↔ i < n := by simp [hn]
  refine ⟨(List.perm_ext_iff_of_nodup hnodup g.nodes_nodup).mpr (fun i => ?_),fun u v huv => ?_⟩
  · rw [List.mem_append, hmem, hnode]
    constructor
    · rintro (hi | hi)
      · exact hnode.mp (h.emitted_mem i hi)
      · exact hi.1
    · exact fun hi => or_iff_not_imp_left.mpr (fun he => ⟨hi,he⟩)
  · obtain ⟨hu,hv⟩ := g.succ_mem u v huv
    have hemu := h.emitted_iff hu
    have hemv := h.emitted_iff hv
    by_cases hbelow : g.BelowCycle u
    · have hu' : u ∈ rest := (hmem u).mpr ⟨hnode.mp hu,fun he => hemu.mp he hbelow⟩
      have hv' : v ∈ rest := (hmem v).mpr ⟨hnode.mp hv,fun he => hemv.mp he (hbelow.step huv)⟩
      rw [Before.append_iff_right hnodup hu']
      have hdesc : rest.Pairwise (fun i j => j < i) :=
        (List.pairwise_reverse.mpr List.pairwise_lt_range).filter _
      constructor
      · exact fun hb _ => List.pairwise_iff_forall_sublist.mp hdesc hb
      · exact fun hlt => Before.of_pairwise (fun _ _ h₁ h₂ => absurd h₁ (not_lt.mpr h₂.le))
          hdesc hu' hv' (hlt hbelow)
    · refine iff_of_true ?_ (fun hb => absurd hb hbelow)
      have hu' := hemu.mpr hbelow
      by_cases hve : v ∈ emitted
      · exact (h.forward u v hve huv).append_right rest
      · exact Before.of_append hu' ((hmem v).mpr ⟨hnode.mp hv,hve⟩)

/-- Some reference cycle among the blocks of the set leads to `u`. -/
def BelowCycle (s : State) (blocks : List BlockRecord) (u : BlockRecord) : Prop :=
  ∃ c, TransGen (DependsOn s blocks) c c ∧ ReflTransGen (DependsOn s blocks) c u

/-- The order blocks are finalized in. A reference goes forward unless its source is below a
cycle; there it goes forward exactly when it goes to a lower address. -/
structure SafeOrder (s : State) (blocks order : List BlockRecord) : Prop where
  perm : order.Perm blocks
  before_iff : ∀ u v, DependsOn s blocks u v →
    (Before order u v ↔ (BelowCycle s blocks u → v.payloadBegin < u.payloadBegin))

theorem FinalizationSet.idxOf_blockAt (h : FinalizationSet blocks) {i : ℕ}
    (hi : i < blocks.length) : blocks.idxOf (blockAt blocks i) = i := by
  rw [blockAt_eq hi]
  exact h.nodup.idxOf_getElem i hi

theorem FinalizationSet.indexEdge_idxOf {u v : BlockRecord} (hd : DependsOn s₀ blocks u v) :
    IndexEdge s₀ blocks (blocks.idxOf u) (blocks.idxOf v) := by
  have hu := List.idxOf_lt_length_iff.mpr hd.1
  have hv := List.idxOf_lt_length_iff.mpr hd.2.1
  refine ⟨hu,hv,?_⟩
  rw [blockAt_eq hu, blockAt_eq hv, List.getElem_idxOf hu, List.getElem_idxOf hv]
  exact hd

theorem FinalizationSet.blockAt_idxOf {u : BlockRecord} (hu : u ∈ blocks) :
    blockAt blocks (blocks.idxOf u) = u := by
  have hi := List.idxOf_lt_length_iff.mpr hu
  rw [blockAt_eq hi, List.getElem_idxOf hi]

/-- Positions and blocks carry the same cycles. -/
theorem FinalizationSet.belowCycle_idxOf {g : Kahn.Graph ℕ}
    (hedge : ∀ i j, g.Edge i j ↔ IndexEdge s₀ blocks i j) {u : BlockRecord} (hu : u ∈ blocks) :
    g.BelowCycle (blocks.idxOf u) ↔ BelowCycle s₀ blocks u := by
  have hdown : ∀ i j, g.Edge i j → DependsOn s₀ blocks (blockAt blocks i) (blockAt blocks j) :=
    fun i j hij => ((hedge i j).mp hij).2.2
  have hup : ∀ u v, DependsOn s₀ blocks u v → g.Edge (blocks.idxOf u) (blocks.idxOf v) :=
    fun u v hd => (hedge _ _).mpr (FinalizationSet.indexEdge_idxOf hd)
  constructor
  · rintro ⟨c,hcc,hcu⟩
    have hlift : ReflTransGen (DependsOn s₀ blocks) (blockAt blocks c)
      (blockAt blocks (blocks.idxOf u)) := hcu.lift _ hdown
    rw [blockAt_idxOf hu] at hlift
    exact ⟨blockAt blocks c,hcc.lift _ hdown,hlift⟩
  · rintro ⟨c,hcc,hcu⟩
    exact ⟨blocks.idxOf c,hcc.lift _ hup,hcu.lift _ hup⟩

theorem map_blockAt_range (blocks : List BlockRecord) :
    (List.range blocks.length).map (blockAt blocks) = blocks := by
  apply List.ext_getElem (by simp)
  intro i hi _
  simp only [List.length_map, List.length_range] at hi
  simp [blockAt_eq hi]

theorem FinalizationOrder.safeOrder (h : FinalizationSet blocks) {g : Kahn.Graph ℕ}
    {order : List ℕ} (ho : FinalizationOrder g order) (hn : g.nodes = List.range blocks.length)
    (hedge : ∀ i j, g.Edge i j ↔ IndexEdge s₀ blocks i j) :
    SafeOrder s₀ blocks (order.map (blockAt blocks)) := by
  have hlt : ∀ i ∈ order, i < blocks.length := by
    intro i hi
    have hi := ho.perm.mem_iff.mp hi
    rw [hn] at hi
    exact List.mem_range.mp hi
  have hback : (order.map (blockAt blocks)).map blocks.idxOf = order := by
    rw [List.map_map]
    conv_rhs => rw [← List.map_id order]
    exact List.map_congr_left (fun i hi => h.idxOf_blockAt (hlt i hi))
  have hforth : ∀ {u}, u ∈ blocks → blockAt blocks (blocks.idxOf u) = u :=
    FinalizationSet.blockAt_idxOf
  constructor
  · have hp := ho.perm.map (blockAt blocks)
    rwa [hn, map_blockAt_range] at hp
  · intro u v hd
    have hbefore : Before (order.map (blockAt blocks)) u v ↔
        Before order (blocks.idxOf u) (blocks.idxOf v) := by
      constructor
      · intro hb
        have hm : Before ((order.map (blockAt blocks)).map blocks.idxOf) (blocks.idxOf u)
            (blocks.idxOf v) := List.Sublist.map blocks.idxOf hb
        rwa [hback] at hm
      · intro hb
        have hm : Before (order.map (blockAt blocks)) (blockAt blocks (blocks.idxOf u))
            (blockAt blocks (blocks.idxOf v)) := List.Sublist.map (blockAt blocks) hb
        rwa [hforth hd.1, hforth hd.2.1] at hm
    have hu := List.idxOf_lt_length_iff.mpr hd.1
    have hv := List.idxOf_lt_length_iff.mpr hd.2.1
    have hlt := h.begin_lt hv hu
    rw [hforth hd.1, hforth hd.2.1] at hlt
    rw [hbefore, ho.before_iff _ _ ((hedge _ _).mpr (FinalizationSet.indexEdge_idxOf hd)),
      FinalizationSet.belowCycle_idxOf hedge hd.1, hlt]

/-- All referrers of the block in the set have been emitted, and the block has not. -/
def ReadyBlock (s : State) (blocks emitted : List BlockRecord) (v : BlockRecord) : Prop :=
  v ∈ blocks ∧ v ∉ emitted ∧ ∀ u, DependsOn s blocks u v → u ∈ emitted

/-- The blocks below no cycle, each emitted as the highest block ready at that point. -/
structure TopologicalPart (s : State) (blocks first : List BlockRecord) : Prop where
  mem : ∀ b, b ∈ first ↔ b ∈ blocks ∧ ¬ BelowCycle s blocks b
  nodup : first.Nodup
  picks : ∀ emitted b rest, first = emitted ++ b :: rest → ReadyBlock s blocks emitted b ∧
    ∀ v, ReadyBlock s blocks emitted v → v.payloadBegin ≤ b.payloadBegin

/-- The blocks the emission loop leaves over, in descending address order. -/
def leftOver (blocks first : List BlockRecord) : List BlockRecord :=
  blocks.reverse.filter (fun b => decide (b ∉ first))

theorem mem_map_blockAt (h : FinalizationSet blocks) {l : List ℕ}
    (hl : ∀ i ∈ l, i < blocks.length) {i : ℕ} (hi : i < blocks.length) :
    blockAt blocks i ∈ l.map (blockAt blocks) ↔ i ∈ l := by
  constructor
  · intro hm
    obtain ⟨j,hj,he⟩ := List.mem_map.mp hm
    exact h.index_inj (hl j hj) hi he ▸ hj
  · exact List.mem_map_of_mem

theorem map_leftOver (h : FinalizationSet blocks) {emitted : List ℕ}
    (hl : ∀ i ∈ emitted, i < blocks.length) :
    ((List.range blocks.length).reverse.filter (fun i => decide (i ∉ emitted))).map
        (blockAt blocks) = leftOver blocks (emitted.map (blockAt blocks)) := by
  have hreverse : blocks.reverse = (List.range blocks.length).reverse.map (blockAt blocks) := by
    rw [List.map_reverse, map_blockAt_range]
  rw [leftOver, hreverse, List.filter_map]
  refine congrArg _ (List.filter_congr fun i hi => ?_)
  have hlt : i < blocks.length := List.mem_range.mp (List.mem_reverse.mp hi)
  simp only [Function.comp_apply, mem_map_blockAt h hl hlt]

theorem readyBlock_iff (h : FinalizationSet blocks) {g : Kahn.Graph ℕ}
    (hn : g.nodes = List.range blocks.length)
    (hedge : ∀ i j, g.Edge i j ↔ IndexEdge s₀ blocks i j) {l : List ℕ}
    (hl : ∀ i ∈ l, i < blocks.length) {i : ℕ} (hi : i < blocks.length) :
    ReadyBlock s₀ blocks (l.map (blockAt blocks)) (blockAt blocks i) ↔ g.Ready l i := by
  have hnode : i ∈ g.nodes := hn ▸ List.mem_range.mpr hi
  have hmem := mem_map_blockAt h hl hi
  constructor
  · rintro ⟨-,hnew,hall⟩
    refine ⟨hnode,fun hil => hnew (hmem.mpr hil),fun j hj => ?_⟩
    have he := (hedge j i).mp hj
    exact (mem_map_blockAt h hl he.1).mp (hall _ he.2.2)
  · rintro ⟨-,hnew,hall⟩
    refine ⟨FinalizationSet.blockAt_mem hi,fun hm => hnew (hmem.mp hm),fun u hu => ?_⟩
    have he := FinalizationSet.indexEdge_idxOf hu
    rw [h.idxOf_blockAt hi] at he
    rw [← FinalizationSet.blockAt_idxOf hu.1]
    exact List.mem_map_of_mem (hall _ ((hedge _ _).mpr he))

/-- A greedy emission that stops with nothing ready is the topological part. -/
theorem Kahn.Emission.topologicalPart (h : FinalizationSet blocks) {g : Kahn.Graph ℕ}
    {indegree : ℕ → ℕ} {emitted : List ℕ} (he : Kahn.Emission g indegree [] emitted [])
    (hgreedy : g.Greedy (fun i => (blockAt blocks i).payloadBegin) emitted)
    (hn : g.nodes = List.range blocks.length)
    (hedge : ∀ i j, g.Edge i j ↔ IndexEdge s₀ blocks i j) :
    TopologicalPart s₀ blocks (emitted.map (blockAt blocks)) := by
  have hlt : ∀ i ∈ emitted, i < blocks.length := by
    intro i hi
    have hnode := he.emitted_mem i hi
    rw [hn] at hnode
    exact List.mem_range.mp hnode
  constructor
  · intro b
    constructor
    · intro hb
      obtain ⟨i,hi,rfl⟩ := List.mem_map.mp hb
      have hmem := FinalizationSet.blockAt_mem (hlt i hi)
      refine ⟨hmem,fun hbelow => ?_⟩
      have hidx := (FinalizationSet.belowCycle_idxOf hedge hmem).mpr hbelow
      rw [h.idxOf_blockAt (hlt i hi)] at hidx
      exact (he.emitted_iff (he.emitted_mem i hi)).mp hi hidx
    · rintro ⟨hb,hbelow⟩
      have hi := List.idxOf_lt_length_iff.mpr hb
      have hnode : blocks.idxOf b ∈ g.nodes := hn ▸ List.mem_range.mpr hi
      rw [← FinalizationSet.blockAt_idxOf hb]
      exact List.mem_map_of_mem ((he.emitted_iff hnode).mpr fun hc =>
        hbelow ((FinalizationSet.belowCycle_idxOf hedge hb).mp hc))
  · exact he.emitted_nodup.map_on (fun i hi j hj heq => h.index_inj (hlt i hi) (hlt j hj) heq)
  · intro l b rest heq
    obtain ⟨l,tail,rfl,rfl,htail⟩ := List.map_eq_append_iff.mp heq
    obtain ⟨i,rest,rfl,rfl,rfl⟩ := List.map_eq_cons_iff.mp htail
    obtain ⟨hready,hmax⟩ := hgreedy l i rest rfl
    have hl : ∀ j ∈ l, j < blocks.length := fun j hj => hlt j (List.mem_append_left _ hj)
    have hi : i < blocks.length := hlt i (by simp)
    refine ⟨(readyBlock_iff h hn hedge hl hi).mpr hready,fun v hv => ?_⟩
    have hv' := hv
    rw [← FinalizationSet.blockAt_idxOf hv.1] at hv' ⊢
    exact hmax _ ((readyBlock_iff h hn hedge hl (List.idxOf_lt_length_iff.mpr hv.1)).mp hv')

/-- The order that is computed: the topological part, then what is left over. -/
structure ExactOrder (s : State) (blocks : List BlockRecord) (headers : List ℕ) : Prop where
  split : ∃ first, TopologicalPart s blocks first ∧
    headers = (first ++ leftOver blocks first).map BlockRecord.header ∧
    SafeOrder s blocks (first ++ leftOver blocks first)

theorem exactOrder_of_length_le_one (hone : blocks.length ≤ 1) :
    ExactOrder s₀ blocks (blocks.map BlockRecord.header) := by
  have hnone : ∀ u v, ¬ DependsOn s₀ blocks u v := by
    rintro u v ⟨hu,hv,hne,-⟩
    match blocks, hone with
    | [], _ => cases hu
    | [b], _ => exact hne ((List.mem_singleton.mp hv).trans (List.mem_singleton.mp hu).symm)
  have hacyclic : ∀ u, ¬ BelowCycle s₀ blocks u := by
    rintro u ⟨c,hcc,-⟩
    obtain ⟨d,hcd,-⟩ := TransGen.head'_iff.mp hcc
    exact hnone c d hcd
  have hrest : leftOver blocks blocks = [] := by
    simp [leftOver]
  have hnodup : blocks.Nodup := by
    match blocks, hone with
    | [], _ => exact List.nodup_nil
    | [b], _ => exact List.nodup_singleton b
  refine ⟨blocks,⟨fun b => ⟨fun hb => ⟨hb,hacyclic b⟩,And.left⟩,hnodup,?_⟩,?_,?_⟩
  · rintro emitted b rest heq
    have hlen := congrArg List.length heq
    rw [List.length_append, List.length_cons] at hlen
    obtain rfl : emitted = [] := List.eq_nil_of_length_eq_zero (by omega)
    obtain rfl : rest = [] := List.eq_nil_of_length_eq_zero (by omega)
    rw [List.nil_append] at heq
    subst heq
    refine ⟨⟨List.mem_singleton_self b,List.not_mem_nil,fun u hu => absurd hu (hnone u b)⟩,?_⟩
    exact fun v hv => (List.mem_singleton.mp hv.1) ▸ le_rfl
  · rw [hrest, List.append_nil]
  · rw [hrest, List.append_nil]
    exact ⟨.refl _,fun u v hd => absurd hd (hnone u v)⟩

/-- Ordering leaves the state alone and returns the exact order; running out of memory is the only
way it fails. -/
theorem meets_orderBlocksForFinalizationLocked_exact (h : FinalizationSet blocks) (fuel : ℕ) :
    (orderBlocksForFinalizationLocked fuel blocks).Meets s₀
      (fun headers s => s = s₀ ∧ ExactOrder s₀ blocks headers) (Unchanged s₀) := by
  unfold orderBlocksForFinalizationLocked
  split_ifs with hone
  · exact Exec.meets_bind (Vec.meets_reserve
      (Exec.meets_pure ⟨rfl,exactOrder_of_length_le_one hone⟩) ⟨rfl,rfl⟩)
  · refine Exec.meets_bind ((meets_indexBlocksByBegin h).mono ?_ (fun _ _ => id))
    rintro indexByBegin s ⟨rfl,hindex⟩
    refine Exec.meets_bind (Exec.meets_allocate ?_ ⟨rfl,rfl⟩)
    refine Exec.meets_bind (Exec.meets_allocate ?_ ⟨rfl,rfl⟩)
    refine Exec.meets_bind ((meets_collectEdges h hindex fuel).mono ?_ (fun _ _ => id))
    rintro graph s ⟨rfl,hr⟩
    refine Exec.meets_bind ((meets_readyIndices blocks.length graph.indegree).mono ?_
      (fun _ _ => id))
    rintro ready s ⟨rfl,hready⟩
    refine Exec.meets_bind (Vec.meets_reserve ?_ ⟨rfl,rfl⟩)
    refine Exec.meets_bind (Exec.meets_allocate ?_ ⟨rfl,rfl⟩)
    refine Exec.meets_bind ((meets_emitReady (fun _ => rfl) fuel (hr.emitting hready)
      (Kahn.Graph.Greedy.nil _ _)).mono ?_ (fun _ _ => id))
    rintro progress s ⟨rfl,hnone,emitted,⟨he,ho,hm⟩,hgreedy⟩
    refine Exec.meets_bind ((meets_emitRemaining ho hm).mono ?_ (fun _ _ => id))
    rintro ordered s ⟨rfl,hitems⟩
    rw [hnone] at he
    have hlt : ∀ i ∈ emitted, i < blocks.length := fun i hi =>
      List.mem_range.mp (he.emitted_mem i hi)
    have hblocks := map_leftOver h hlt
    have hsafe := (Kahn.Emission.finalizationOrder he rfl).safeOrder h rfl hr.edge_iff
    rw [List.map_append, hblocks] at hsafe
    refine Exec.meets_pure ⟨rfl,_,Kahn.Emission.topologicalPart h he hgreedy rfl hr.edge_iff,?_,
      hsafe⟩
    rw [hitems, ← hblocks, ← List.map_append, List.map_map]
    rfl

/-- Ordering leaves the state alone and returns a safe order; running out of memory is the only
way it fails. -/
theorem meets_orderBlocksForFinalizationLocked (h : FinalizationSet blocks) (fuel : ℕ) :
    (orderBlocksForFinalizationLocked fuel blocks).Meets s₀
      (fun headers s => s = s₀ ∧ ∃ order, headers = order.map BlockRecord.header ∧
        SafeOrder s₀ blocks order) (Unchanged s₀) := by
  refine (meets_orderBlocksForFinalizationLocked_exact h fuel).mono ?_ (fun _ _ => id)
  rintro headers s ⟨rfl,first,-,hheaders,hsafe⟩
  exact ⟨rfl,_,hheaders,hsafe⟩

end
end GcLib.Heap
