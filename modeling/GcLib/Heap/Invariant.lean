import GcLib.Heap.State

/-! # The heap invariant

Every record points at a live block whose header fixes its payload range, blocks are
disjoint in memory, and both byte counters are exact sums over the records. Interior
lookup through the predecessor of an address is then a search by containment.
-/

namespace GcLib.Heap
open Support

/-- The region of a chunk: header, padding and payload. -/
def Chunk.extent (chunk : Chunk) : ℕ := chunk.header.payloadOffset+chunk.header.size

/-- What construction of a header at an address guarantees. -/
structure Chunk.WellPlaced (chunk : Chunk) (base : ℕ) : Prop where
  magic : chunk.header.magicNumber = kChunkMagicNumber
  size_pos : 0 < chunk.header.size
  header_fits : chunkHeaderSize ≤ chunk.header.payloadOffset
  base_ne_zero : base ≠ 0
  in_space : base+chunk.extent < addressLimit
  aligned : (base+chunk.header.payloadOffset) % maxAlignment = 0

/-- A record describes the payload of the chunk its header pointer names. -/
structure BlockRecord.Describes (block : BlockRecord) (chunk : Chunk) : Prop where
  payloadBegin_eq : block.payloadBegin = block.header+chunk.header.payloadOffset
  payloadEnd_eq : block.payloadEnd = block.payloadBegin+chunk.header.size

namespace State

def payloadSum (s : State) (blocks : List BlockRecord) : ℕ :=
  (blocks.map (fun block => (s.header block.header).size)).sum

def reservedSum (s : State) (blocks : List BlockRecord) : ℕ :=
  (blocks.map (fun block => (s.header block.header).blockAllocationSize)).sum

end State

structure HeapInvariant (s : State) : Prop where
  key : ∀ k block, (k,block) ∈ s.allocations.entries → k = block.payloadBegin
  described : ∀ block ∈ s.allocations.values,
    ∃ chunk, s.chunks.find? block.header = some chunk ∧ block.Describes chunk
  placed : ∀ base chunk, (base,chunk) ∈ s.chunks.entries → chunk.WellPlaced base
  disjoint : ∀ base chunk, (base,chunk) ∈ s.chunks.entries →
    ∀ base' chunk', (base',chunk') ∈ s.chunks.entries → base < base' → base+chunk.extent ≤ base'
  managed : s.managedBytes = s.payloadSum s.allocations.values
  reserved : s.reservedBytes = s.reservedSum s.allocations.values
  managed_lt : s.managedBytes < addressLimit
  reserved_lt : s.reservedBytes < addressLimit

theorem State.header_eq {s : State} {h : ℕ} {chunk : Chunk} (hc : s.chunks.find? h = some chunk) :
    s.header h = chunk.header := by
  simp [State.header, hc]

theorem HeapInvariant.initial (memory : Memory) : HeapInvariant (.initial memory) where
  key := by simp [State.initial]
  described := by simp [State.initial, OrderedMap.values]
  placed := by simp [State.initial]
  disjoint := by simp [State.initial]
  managed := rfl
  reserved := rfl
  managed_lt := by simp [State.initial, addressLimit]
  reserved_lt := by simp [State.initial, addressLimit]

namespace HeapInvariant
variable {s s' : State}

/-- The invariant reads four fields only. -/
theorem congr (h : HeapInvariant s) (ha : s'.allocations = s.allocations)
    (hc : s'.chunks = s.chunks) (hm : s'.managedBytes = s.managedBytes)
    (hr : s'.reservedBytes = s.reservedBytes) : HeapInvariant s' := by
  have hheader : s'.header = s.header := by
    funext a
    simp only [State.header, hc]
  constructor
  · exact ha ▸ h.key
  · exact ha ▸ hc ▸ h.described
  · exact hc ▸ h.placed
  · exact hc ▸ h.disjoint
  · simp only [State.payloadSum, ha, hm, hheader]
    exact h.managed
  · simp only [State.reservedSum, ha, hr, hheader]
    exact h.reserved
  · exact hm ▸ h.managed_lt
  · exact hr ▸ h.reserved_lt

theorem entry_mem (h : HeapInvariant s) {block : BlockRecord}
    (hb : block ∈ s.allocations.values) : (block.payloadBegin,block) ∈ s.allocations.entries := by
  obtain ⟨k,hk⟩ := OrderedMap.mem_values.mp hb
  have he := h.key _ _ hk
  exact he ▸ hk

theorem values_nodup (h : HeapInvariant s) : s.allocations.values.Nodup := by
  refine List.Nodup.map_on ?_ s.allocations.entries_nodup
  intro e he e' he' heq
  refine Prod.ext ?_ heq
  rw [h.key _ _ he, h.key _ _ he', heq]

theorem chunk_mem (h : HeapInvariant s) {block : BlockRecord} (hb : block ∈ s.allocations.values) :
    ∃ chunk, (block.header,chunk) ∈ s.chunks.entries ∧ block.Describes chunk := by
  obtain ⟨chunk,hc,hd⟩ := h.described block hb
  exact ⟨chunk,OrderedMap.find?_eq_some.mp hc,hd⟩

/-- A live header is intact: the magic number the marker tests is always there. -/
theorem header_magic (h : HeapInvariant s) {block : BlockRecord}
    (hb : block ∈ s.allocations.values) :
    (s.header block.header).magicNumber = kChunkMagicNumber := by
  obtain ⟨chunk,hc,-⟩ := h.described block hb
  rw [State.header_eq hc]
  exact (h.placed _ _ (OrderedMap.find?_eq_some.mp hc)).magic

/-- The header stores the exact length of the payload range. -/
theorem header_size (h : HeapInvariant s) {block : BlockRecord}
    (hb : block ∈ s.allocations.values) :
    block.payloadEnd = block.payloadBegin+(s.header block.header).size ∧
      0 < (s.header block.header).size := by
  obtain ⟨chunk,hc,hd⟩ := h.described block hb
  rw [State.header_eq hc]
  exact ⟨hd.payloadEnd_eq,(h.placed _ _ (OrderedMap.find?_eq_some.mp hc)).size_pos⟩

theorem blockAllocationSize_eq (h : HeapInvariant s) {block : BlockRecord}
    (hb : block ∈ s.allocations.values) :
    (s.header block.header).blockAllocationSize =
      (s.header block.header).payloadOffset+(s.header block.header).size := by
  obtain ⟨chunk,hc,-⟩ := h.described block hb
  have hp := (h.placed _ _ (OrderedMap.find?_eq_some.mp hc)).in_space
  rw [State.header_eq hc]
  exact wrapAdd_of_lt (by unfold Chunk.extent at hp; omega)

/-- The payload lies behind its header, inside the address space, on a word boundary. -/
theorem payload_bounds (h : HeapInvariant s) {block : BlockRecord}
    (hb : block ∈ s.allocations.values) :
    block.header+chunkHeaderSize ≤ block.payloadBegin ∧ block.payloadBegin < block.payloadEnd ∧
      block.payloadEnd < addressLimit ∧ block.payloadBegin % wordSize = 0 := by
  obtain ⟨chunk,hc,hd⟩ := h.chunk_mem hb
  have hp := h.placed _ _ hc
  have h₁ := hd.payloadBegin_eq
  have h₂ := hd.payloadEnd_eq
  have h₃ := hp.size_pos
  have h₄ := hp.header_fits
  have h₅ := hp.in_space
  have h₆ := hp.aligned
  simp only [Chunk.extent, maxAlignment, wordSize] at *
  omega

/-- Distinct records have disjoint regions, headers included. -/
theorem region_disjoint (h : HeapInvariant s) {b b' : BlockRecord}
    (hb : b ∈ s.allocations.values) (hb' : b' ∈ s.allocations.values) (hne : b ≠ b') :
    b.payloadEnd ≤ b'.header ∨ b'.payloadEnd ≤ b.header := by
  obtain ⟨c,hc,hd⟩ := h.chunk_mem hb
  obtain ⟨c',hc',hd'⟩ := h.chunk_mem hb'
  have hheader : b.header ≠ b'.header := by
    intro he
    have hcc : c = c' := s.chunks.value_unique hc (he ▸ hc')
    have hbegin : b.payloadBegin = b'.payloadBegin := by
      rw [hd.payloadBegin_eq, hd'.payloadBegin_eq, he, hcc]
    exact hne (s.allocations.value_unique (h.entry_mem hb) (hbegin ▸ h.entry_mem hb'))
  have hend : b.payloadEnd = b.header+c.extent := by
    rw [hd.payloadEnd_eq, hd.payloadBegin_eq, Chunk.extent, Nat.add_assoc]
  have hend' : b'.payloadEnd = b'.header+c'.extent := by
    rw [hd'.payloadEnd_eq, hd'.payloadBegin_eq, Chunk.extent, Nat.add_assoc]
  rcases lt_or_gt_of_ne hheader with hlt | hlt
  · exact Or.inl (hend ▸ h.disjoint _ _ hc _ _ hc' hlt)
  · exact Or.inr (hend' ▸ h.disjoint _ _ hc' _ _ hc hlt)

theorem contains_unique (h : HeapInvariant s) {b b' : BlockRecord}
    (hb : b ∈ s.allocations.values) (hb' : b' ∈ s.allocations.values) {a : ℕ}
    (ha : b.Contains a) (ha' : b'.Contains a) : b = b' := by
  by_contra hne
  have hd := h.region_disjoint hb hb' hne
  have h₁ := h.payload_bounds hb
  have h₂ := h.payload_bounds hb'
  unfold BlockRecord.Contains at ha ha'
  omega

theorem header_inj (h : HeapInvariant s) {b b' : BlockRecord} (hb : b ∈ s.allocations.values)
    (hb' : b' ∈ s.allocations.values) (he : b.header = b'.header) : b = b' := by
  by_contra hne
  have hd := h.region_disjoint hb hb' hne
  have h₁ := h.payload_bounds hb
  have h₂ := h.payload_bounds hb'
  omega

theorem range_disjoint (h : HeapInvariant s) {e e' : ℕ × BlockRecord}
    (he : e ∈ s.allocations.entries) (he' : e' ∈ s.allocations.entries) (hlt : e.1 < e'.1) :
    e.2.payloadEnd ≤ e'.1 := by
  have hb : e.2 ∈ s.allocations.values := OrderedMap.mem_values.mpr ⟨_,he⟩
  have hb' : e'.2 ∈ s.allocations.values := OrderedMap.mem_values.mpr ⟨_,he'⟩
  have hk := h.key _ _ he
  have hk' := h.key _ _ he'
  have hne : e.2 ≠ e'.2 := fun heq => by
    rw [hk, hk', heq] at hlt
    exact lt_irrefl _ hlt
  have hd := h.region_disjoint hb hb' hne
  have h₁ := h.payload_bounds hb
  have h₂ := h.payload_bounds hb'
  omega

/-- Predecessor search finds the live block that contains the address, and only that one. -/
theorem findBlockLocked_eq_some (h : HeapInvariant s) {a : ℕ} {block : BlockRecord} :
    s.findBlockLocked a = some block ↔ block ∈ s.allocations.values ∧ block.Contains a := by
  unfold State.findBlockLocked
  constructor
  · intro hf
    cases hfloor : s.allocations.floor? a with
    | none => simp [hfloor] at hf
    | some b =>
      obtain ⟨k,hk,-,-⟩ := OrderedMap.floor?_eq_some.mp hfloor
      simp only [hfloor] at hf
      split_ifs at hf with hc
      cases hf
      exact ⟨OrderedMap.mem_values.mpr ⟨k,hk⟩,hc⟩
  · rintro ⟨hb,hc⟩
    rw [OrderedMap.floor?_of_range BlockRecord.payloadEnd
      (fun _ he _ he' => h.range_disjoint he he') (h.entry_mem hb)
      hc.1 hc.2]
    simp [hc]

theorem findBlockLocked_eq_none (h : HeapInvariant s) {a : ℕ} :
    s.findBlockLocked a = none ↔ ∀ block ∈ s.allocations.values, ¬ block.Contains a := by
  constructor
  · intro hn block hb hc
    rw [h.findBlockLocked_eq_some.mpr ⟨hb,hc⟩] at hn
    exact absurd hn (by simp)
  · intro hall
    cases hf : s.findBlockLocked a with
    | none => rfl
    | some block =>
      obtain ⟨hb,hc⟩ := h.findBlockLocked_eq_some.mp hf
      exact absurd hc (hall block hb)

end HeapInvariant
end GcLib.Heap
