import GcLib.Heap.Collect
import GcLib.Heap.Operations

/-! # Updates keep the heap invariant

Placing and freeing a header change the blocks obtained from `operator new`,
registering and releasing change the records, and completing a construction changes
neither.
-/

namespace GcLib.Heap
open Support

/-- A completed registration. -/
def State.publish (s : State) (header : ℕ) (constructing : Bool) : State :=
  ((s.zeroPayload header).insertBlock header).setConstructing (s.payloadBegin header) constructing

theorem State.headers_setConstructing (s : State) (payload : ℕ) (value : Bool) :
    (s.setConstructing payload value).allocations.values.map BlockRecord.header =
      s.allocations.values.map BlockRecord.header := by
  simp only [State.setConstructing, OrderedMap.modify, OrderedMap.values, List.map_map]
  refine List.map_congr_left (fun e _ => ?_)
  simp only [Function.comp_apply]
  split_ifs <;> rfl

/-- What `malloc_internal` has checked about a request. -/
structure AllocationRequest.Valid (request : AllocationRequest) : Prop where
  size_pos : 0 < request.payloadSize
  header_fits : chunkHeaderSize ≤ request.payloadOffset
  offset_le : request.payloadOffset ≤ 65535
  total_lt : request.totalSize < addressLimit
  alignment : ∃ k, request.alignment = maxAlignment*k
  aligned : request.payloadOffset % request.alignment = 0

/-- The narrowed offset is the one that was checked. -/
theorem AllocationRequest.Valid.payloadOffset_eq {request : AllocationRequest}
    (hv : request.Valid) : request.header.payloadOffset = request.payloadOffset :=
  Nat.mod_eq_of_lt (Nat.lt_succ_of_le hv.offset_le)

theorem allocationRequest_valid {size alignment : ℕ} {destructor : Option ℕ} {constructing : Bool}
    {request : AllocationRequest} (hs : size ≠ 0) (hsize : size < addressLimit)
    (halign : alignment < addressLimit)
    (hq : allocationRequest size alignment destructor constructing = some request) :
    request.Valid := by
  unfold allocationRequest at hq
  have hn : normalizeAlignment alignment < addressLimit :=
    max_lt halign (by norm_num [maxAlignment, addressLimit])
  cases hr : roundUpToAlignment chunkHeaderSize (normalizeAlignment alignment) with
  | none => simp [hr] at hq
  | some offset =>
    simp only [hr] at hq
    split_ifs at hq with hguard
    cases hq
    push Not at hguard
    obtain ⟨hle,-,hdvd,hlt,k,hk⟩ := roundUpToAlignment_eq_some hn hr
    have hmax : maxAlignment ≤ 2^k := hk ▸ le_max_right alignment maxAlignment
    have h4 : 4 ≤ k := by
      by_contra hlt
      have hpow : (2:ℕ)^k < 2^4 := Nat.pow_lt_pow_right (by norm_num) (by omega)
      simp only [maxAlignment] at hmax
      omega
    refine ⟨Nat.pos_of_ne_zero hs,hle,hguard.1,?_,⟨2^(k-4),?_⟩,hdvd⟩
    · exact addWouldOverflow_eq_false (by simpa using hguard.2) hsize
    · rw [hk, show maxAlignment = 2^4 from rfl, ← pow_add, Nat.add_sub_cancel' h4]

namespace HeapInvariant
variable {s : State}

theorem header_lt (h : HeapInvariant s) (header : ℕ) :
    (s.header header).size < addressLimit ∧
      (s.header header).payloadOffset+(s.header header).size < addressLimit := by
  unfold State.header
  cases hf : s.chunks.find? header with
  | none => exact ⟨by norm_num [addressLimit],by norm_num [addressLimit]⟩
  | some chunk =>
    have hp := (h.placed _ _ (OrderedMap.find?_eq_some.mp hf)).in_space
    simp only [Option.elim_some]
    unfold Chunk.extent at hp
    omega

theorem setConstructing (h : HeapInvariant s) (payload : ℕ) (value : Bool) :
    HeapInvariant (s.setConstructing payload value) := by
  have hmem : ∀ k b, (k,b) ∈ (s.setConstructing payload value).allocations.entries →
      ∃ b₀, (k,b₀) ∈ s.allocations.entries ∧ b.header = b₀.header ∧
        b.payloadBegin = b₀.payloadBegin ∧ b.payloadEnd = b₀.payloadEnd := by
    intro k b hb
    obtain ⟨b₀,hb₀,heq⟩ := OrderedMap.mem_modify.mp hb
    refine ⟨b₀,hb₀,?_⟩
    rw [show b = _ from heq]
    split_ifs <;> exact ⟨rfl,rfl,rfl⟩
  have hsum : ∀ f : ℕ → ℕ,
      ((s.setConstructing payload value).allocations.values.map fun b => f b.header).sum =
        (s.allocations.values.map fun b => f b.header).sum := by
    intro f
    have hcomp := congrArg (List.map f) (s.headers_setConstructing payload value)
    rw [List.map_map, List.map_map] at hcomp
    exact congrArg List.sum hcomp
  constructor
  · intro k b hb
    obtain ⟨b₀,hb₀,-,hbegin,-⟩ := hmem k b hb
    rw [hbegin]
    exact h.key k b₀ hb₀
  · intro b hb
    obtain ⟨k,hk⟩ := OrderedMap.mem_values.mp hb
    obtain ⟨b₀,hb₀,hheader,hbegin,hend⟩ := hmem k b hk
    obtain ⟨chunk,hc,hd⟩ := h.described b₀ (OrderedMap.mem_values.mpr ⟨k,hb₀⟩)
    refine ⟨chunk,hheader ▸ hc,?_,?_⟩
    · rw [hbegin, hheader]
      exact hd.payloadBegin_eq
    · rw [hend, hbegin]
      exact hd.payloadEnd_eq
  · exact h.placed
  · exact h.disjoint
  · exact h.managed.trans (hsum fun a => (s.header a).size).symm
  · exact h.reserved.trans (hsum fun a => (s.header a).blockAllocationSize).symm
  · exact h.managed_lt
  · exact h.reserved_lt

/-- No record can begin where the payload of an unregistered block begins. -/
theorem payloadBegin_new (h : HeapInvariant s) {header : ℕ} {chunk : Chunk}
    (hc : s.chunks.find? header = some chunk)
    (hnew : ∀ b ∈ s.allocations.values, b.header ≠ header) :
    s.allocations.find? (s.payloadBegin header) = none := by
  refine OrderedMap.find?_eq_none.mpr (fun b hb => ?_)
  have hlive : b ∈ s.allocations.values := OrderedMap.mem_values.mpr ⟨_,hb⟩
  obtain ⟨chunk',hc',hd⟩ := h.chunk_mem hlive
  have hkey := h.key _ _ hb
  have hmem := OrderedMap.find?_eq_some.mp hc
  have hp := h.placed _ _ hmem
  have hp' := h.placed _ _ hc'
  have hbegin : s.payloadBegin header = header+chunk.header.payloadOffset := by
    rw [State.payloadBegin, State.header_eq hc]
  have h₁ := hd.payloadBegin_eq
  have h₂ := hp.size_pos
  have h₃ := hp'.size_pos
  rcases lt_or_gt_of_ne (hnew b hlive) with hlt | hlt
  · have hd := h.disjoint _ _ hc' _ _ hmem hlt
    unfold Chunk.extent at hd
    omega
  · have hd := h.disjoint _ _ hmem _ _ hc' hlt
    unfold Chunk.extent at hd
    omega

theorem publish_allocations (h : HeapInvariant s) {header : ℕ} {chunk : Chunk}
    (hc : s.chunks.find? header = some chunk)
    (hnew : ∀ b ∈ s.allocations.values, b.header ≠ header) (constructing : Bool) :
    (s.publish header constructing).allocations = s.allocations.emplace (s.payloadBegin header)
      ⟨header,s.payloadBegin header,s.payloadBegin header+(s.header header).size,constructing⟩ := by
  have hpublish : (s.publish header constructing).allocations =
      (s.allocations.emplace (s.payloadBegin header)
        ⟨header,s.payloadBegin header,s.payloadBegin header+(s.header header).size,false⟩).modify
        (s.payloadBegin header) (fun block => { block with constructing := constructing }) := rfl
  rw [hpublish, OrderedMap.modify_emplace _ (h.payloadBegin_new hc hnew)]

theorem publish_values (h : HeapInvariant s) {header : ℕ} {chunk : Chunk}
    (hc : s.chunks.find? header = some chunk)
    (hnew : ∀ b ∈ s.allocations.values, b.header ≠ header) (constructing : Bool) :
    (s.publish header constructing).allocations.values.Perm
      (⟨header,s.payloadBegin header,s.payloadBegin header+(s.header header).size,constructing⟩ ::
        s.allocations.values) := by
  rw [h.publish_allocations hc hnew constructing]
  exact (OrderedMap.emplace_perm (h.payloadBegin_new hc hnew)).map Prod.snd

/-- Registering a placed block adds its record and its share of both counters. -/
theorem publish (h : HeapInvariant s) {header : ℕ} {chunk : Chunk}
    (hc : s.chunks.find? header = some chunk)
    (hnew : ∀ b ∈ s.allocations.values, b.header ≠ header)
    (hm : s.managedBytes+(s.header header).size < addressLimit)
    (hr : s.reservedBytes+((s.header header).payloadOffset+(s.header header).size) < addressLimit)
    (constructing : Bool) : HeapInvariant (s.publish header constructing) := by
  have halloc := h.publish_allocations hc hnew constructing
  have hbegin := h.payloadBegin_new hc hnew
  have hvalues := h.publish_values hc hnew constructing
  have hextent : (s.header header).blockAllocationSize =
      (s.header header).payloadOffset+(s.header header).size :=
    wrapAdd_of_lt (h.header_lt header).2
  have hmanaged : (s.publish header constructing).managedBytes =
      s.managedBytes+(s.header header).size := wrapAdd_of_lt hm
  have hreserved : (s.publish header constructing).reservedBytes =
      s.reservedBytes+((s.header header).payloadOffset+(s.header header).size) := by
    change wrapAdd s.reservedBytes (s.header header).blockAllocationSize = _
    rw [hextent]
    exact wrapAdd_of_lt hr
  constructor
  · intro k b hb
    rw [halloc] at hb
    rcases (OrderedMap.mem_emplace hbegin).mp hb with he | hb
    · cases he
      rfl
    · exact h.key k b hb
  · intro b hb
    rcases List.mem_cons.mp (hvalues.mem_iff.mp hb) with rfl | hb
    · refine ⟨chunk,hc,?_,?_⟩
      · simp only [State.payloadBegin, State.header_eq hc]
      · simp only [State.payloadBegin, State.header_eq hc]
    · exact h.described b hb
  · exact h.placed
  · exact h.disjoint
  · rw [hmanaged, h.managed, State.payloadSum, State.payloadSum, (hvalues.map _).sum_eq,
      List.map_cons, List.sum_cons, Nat.add_comm]
    rfl
  · rw [hreserved, h.reserved, State.reservedSum, State.reservedSum, (hvalues.map _).sum_eq,
      List.map_cons, List.sum_cons, Nat.add_comm, ← hextent]
    rfl
  · rw [hmanaged]
    exact hm
  · rw [hreserved]
    exact hr

/-- Releasing a record is removing it alone. -/
theorem removed_removeBlock (s : State) (block : BlockRecord) :
    Removed s [block] (s.removeBlock block) := by
  have htargets : ∀ w : WeakRefEntry, w.Targets [block] ↔
      block.payloadBegin ≤ w.target ∧ w.target < block.payloadEnd := by
    intro w
    simp [WeakRefEntry.Targets, BlockRecord.Contains]
  constructor
  · simp [State.removeBlock, OrderedMap.erase, State.invalidateWeakRefsForBlockLocked]
  · simp only [State.removeBlock, State.invalidateWeakRefsForBlockLocked]
    apply List.filter_congr
    intro w _
    simp only [htargets, decide_not]
  · intro x
    simp only [State.removeBlock, State.invalidateWeakRefsForBlockLocked]
    rw [foldl_writeWord_zero]
    simp only [InWordOf, List.mem_filter, decide_eq_true_eq, htargets, true_and, and_assoc]
  · rw [List.foldl_cons, List.foldl_nil]
    rfl
  · rw [List.foldl_cons, List.foldl_nil]
    rfl
  · rfl

theorem removeBlock (h : HeapInvariant s) {block : BlockRecord}
    (hb : block ∈ s.allocations.values) : HeapInvariant (s.removeBlock block) :=
  (removed_removeBlock s block).invariant h (by simpa using hb) (List.nodup_singleton block)

theorem shutDown (h : HeapInvariant s) : HeapInvariant s.shutDown where
  key := by simp [State.shutDown]
  described := by simp [State.shutDown, OrderedMap.values]
  placed := h.placed
  disjoint := h.disjoint
  managed := rfl
  reserved := rfl
  managed_lt := by
    change 0 < addressLimit
    norm_num [addressLimit]
  reserved_lt := by
    change 0 < addressLimit
    norm_num [addressLimit]

theorem fresh_new {region total alignment : ℕ} (hf : s.FreshRegion region total alignment)
    (h : HeapInvariant s) (ht : 0 < total) : s.chunks.find? region = none := by
  refine OrderedMap.find?_eq_none.mpr (fun chunk hc => ?_)
  have hp := h.placed _ _ hc
  have hsize := hp.size_pos
  rcases hf.2.2.2 _ hc with hle | hle
  · omega
  · simp only [Chunk.extent] at hle
    omega

theorem placeHeader (h : HeapInvariant s) {region : ℕ} {request : AllocationRequest}
    (hv : request.Valid) (hf : s.FreshRegion region request.totalSize request.alignment) :
    HeapInvariant (s.placeHeader region request) := by
  have hpos : 0 < request.totalSize := by
    have := hv.size_pos
    unfold AllocationRequest.totalSize
    omega
  have hnone := fresh_new hf h hpos
  have hmem := fun e =>
    OrderedMap.mem_emplace (e := e) (v := (⟨request.header,s.nextSerial⟩ : Chunk)) hnone
  have hoffset := hv.payloadOffset_eq
  have hextent : Chunk.extent ⟨request.header,s.nextSerial⟩ = request.totalSize := by
    rw [Chunk.extent, hoffset]
    rfl
  have hfind : ∀ a, a ≠ region → (s.placeHeader region request).chunks.find? a =
      s.chunks.find? a := by
    intro a hne
    simp only [State.placeHeader]
    rw [OrderedMap.find?_emplace hnone, if_neg hne]
  have hheader : ∀ b ∈ s.allocations.values,
      (s.placeHeader region request).header b.header = s.header b.header := by
    intro b hb
    obtain ⟨chunk,hc,-⟩ := h.described b hb
    have hne : b.header ≠ region := by
      rintro rfl
      rw [hnone] at hc
      cases hc
    rw [State.header, State.header, hfind _ hne]
  obtain ⟨hzero,hregion,hspace,hfresh⟩ := hf
  obtain ⟨k,hk⟩ := hv.alignment
  constructor
  · exact h.key
  · intro b hb
    obtain ⟨chunk,hc,hd⟩ := h.described b hb
    refine ⟨chunk,?_,hd⟩
    rw [hfind _ ?_, hc]
    rintro rfl
    rw [hnone] at hc
    cases hc
  · intro base chunk hc
    rcases (hmem _).mp hc with he | hc
    · cases he
      refine ⟨rfl,hv.size_pos,hoffset ▸ hv.header_fits,hzero,hextent ▸ hspace,?_⟩
      rw [hoffset]
      have ha := hv.aligned
      rw [hk] at hregion ha
      have h₁ := Nat.dvd_of_mod_eq_zero hregion
      have h₂ := Nat.dvd_of_mod_eq_zero ha
      exact Nat.mod_eq_zero_of_dvd ((Dvd.intro k rfl).trans (Nat.dvd_add h₁ h₂))
    · exact h.placed _ _ hc
  · intro base chunk hc base' chunk' hc' hlt
    rcases (hmem _).mp hc with he | hc <;> rcases (hmem _).mp hc' with he' | hc'
    · cases he
      cases he'
      exact absurd hlt (lt_irrefl _)
    · cases he
      rw [hextent]
      rcases hfresh _ hc' with hle | hle
      · exact hle
      · omega
    · cases he'
      rcases hfresh _ hc with hle | hle
      · omega
      · exact hle
    · exact h.disjoint _ _ hc _ _ hc' hlt
  · refine h.managed.trans (congrArg List.sum (List.map_congr_left fun b hb => ?_))
    rw [hheader b hb]
  · refine h.reserved.trans (congrArg List.sum (List.map_congr_left fun b hb => ?_))
    rw [hheader b hb]
  · exact h.managed_lt
  · exact h.reserved_lt

/-- Freeing a block that no record names. -/
theorem freeBlockMemory (h : HeapInvariant s) {header : ℕ}
    (hnew : ∀ b ∈ s.allocations.values, b.header ≠ header) :
    HeapInvariant (s.freeBlockMemory header) := by
  have hfind : ∀ a, a ≠ header → (s.freeBlockMemory header).chunks.find? a = s.chunks.find? a := by
    intro a hne
    simp only [State.freeBlockMemory]
    rw [OrderedMap.find?_erase, if_neg hne]
  have hheader : ∀ b ∈ s.allocations.values,
      (s.freeBlockMemory header).header b.header = s.header b.header := by
    intro b hb
    rw [State.header, State.header, hfind _ (hnew b hb)]
  constructor
  · exact h.key
  · intro b hb
    obtain ⟨chunk,hc,hd⟩ := h.described b hb
    exact ⟨chunk,(hfind _ (hnew b hb)).trans hc,hd⟩
  · exact fun base chunk hc => h.placed _ _ (OrderedMap.mem_erase.mp hc).1
  · exact fun base chunk hc base' chunk' hc' =>
      h.disjoint _ _ (OrderedMap.mem_erase.mp hc).1 _ _ (OrderedMap.mem_erase.mp hc').1
  · refine h.managed.trans (congrArg List.sum (List.map_congr_left fun b hb => ?_))
    rw [hheader b hb]
  · refine h.reserved.trans (congrArg List.sum (List.map_congr_left fun b hb => ?_))
    rw [hheader b hb]
  · exact h.managed_lt
  · exact h.reserved_lt

end HeapInvariant
end GcLib.Heap
