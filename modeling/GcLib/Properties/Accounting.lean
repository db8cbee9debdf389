import GcLib.Protocol.Reachable

/-! # Representation and accounting

In every reachable world the records, the headers and both byte counters agree, and no
arithmetic on the counters wraps: not the additions of a registration, which is guarded
under the lock that inserts the record, and not the subtractions of a release, of a
round of the erase loop or of `stats`.
-/

namespace GcLib.Properties
open GcLib.Heap GcLib.Support GcLib.Protocol

/-- A record, its key and its header agree, and the payload is not empty. -/
structure Consistent (s : State) (key : ℕ) (block : BlockRecord) : Prop where
  key_eq : key = block.payloadBegin
  chunk : ∃ chunk, s.chunks.find? block.header = some chunk ∧
    block.payloadBegin = block.header+chunk.header.payloadOffset ∧
    block.payloadEnd = block.payloadBegin+chunk.header.size
  nonempty : block.payloadBegin < block.payloadEnd

/-- The bytes a block takes from the allocator, over the integers. -/
def reservedSize (s : State) (block : BlockRecord) : ℕ :=
  (s.header block.header).payloadOffset+(s.header block.header).size

/-- Taking a block out of the counters does not borrow. -/
def Subtractable (s : State) (block : BlockRecord) : Prop :=
  (s.header block.header).size ≤ s.managedBytes ∧
    (s.header block.header).blockAllocationSize ≤ s.reservedBytes

section
variable {s : State}

theorem consistent_of_mem (h : HeapInvariant s) {key : ℕ} {block : BlockRecord}
    (hb : (key,block) ∈ s.allocations.entries) : Consistent s key block := by
  have hlive : block ∈ s.allocations.values := OrderedMap.mem_values.mpr ⟨key,hb⟩
  obtain ⟨chunk,hc,hd⟩ := h.described block hlive
  exact ⟨h.key _ _ hb,⟨chunk,hc,hd.payloadBegin_eq,hd.payloadEnd_eq⟩,(h.payload_bounds hlive).2.1⟩

theorem reservedBytes_eq_sum (h : HeapInvariant s) :
    s.reservedBytes = (s.allocations.values.map (reservedSize s)).sum := by
  rw [h.reserved]
  exact congrArg List.sum (List.map_congr_left fun b hb => h.blockAllocationSize_eq hb)

theorem managedBytes_le_reservedBytes (h : HeapInvariant s) :
    s.managedBytes ≤ s.reservedBytes := by
  rw [reservedBytes_eq_sum h, h.managed]
  exact List.sum_le_sum fun b _ => Nat.le_add_left _ _

theorem subtractable_of_live (h : HeapInvariant s) {block : BlockRecord}
    (hb : block ∈ s.allocations.values) : Subtractable s block := by
  constructor
  · rw [h.managed]
    exact List.single_le_sum (fun _ _ => Nat.zero_le _) _
      (List.mem_map_of_mem (f := fun b => (s.header b.header).size) hb)
  · rw [h.reserved]
    exact List.single_le_sum (fun _ _ => Nat.zero_le _) _
      (List.mem_map_of_mem (f := fun b => (s.header b.header).blockAllocationSize) hb)

/-- Whatever is marked, each round of the erase loop subtracts what the counters hold. -/
theorem subtractable_sweep (h : HeapInvariant s) {done rest : List (ℕ × BlockRecord)}
    {entry : ℕ × BlockRecord} (hsplit : s.allocations.entries = done ++ entry :: rest) :
    Subtractable (done.foldl sweepBlock s) entry.2 := by
  have hsub : done.Sublist s.allocations.entries := by
    rw [hsplit]
    exact List.sublist_append_left _ _
  have hkey : ∀ e ∈ done, e.1 = e.2.payloadBegin := fun e he => h.key _ _ (hsub.subset he)
  have hentry : entry ∈ s.allocations.entries := by
    rw [hsplit]
    simp
  have hheaders := h.entryHeaders_nodup
  rw [hsplit, List.map_append, List.map_cons] at hheaders
  obtain ⟨hdone,-,happart⟩ := List.nodup_append.mp hheaders
  obtain ⟨hremoved,-⟩ := removed_foldl_sweepBlock done hkey hdone
  have hdead : ∀ b ∈ (done.map Prod.snd).filter (fun block => !s.isMarked block.header),
      b ∈ s.allocations.values ∧ b ≠ entry.2 := by
    intro b hb
    obtain ⟨e,he,rfl⟩ := List.mem_map.mp (List.mem_filter.mp hb).1
    refine ⟨List.mem_map_of_mem (hsub.subset he),fun heq => ?_⟩
    exact happart _ (List.mem_map_of_mem he) _ List.mem_cons_self (congrArg BlockRecord.header heq)
  have hnodup : ((done.map Prod.snd).filter (fun block => !s.isMarked block.header)).Nodup :=
    (h.values_nodup.sublist (hsub.map Prod.snd)).filter _
  refine subtractable_of_live (hremoved.invariant h (fun b hb => (hdead b hb).1) hnodup) ?_
  exact (hremoved.mem_values h (fun b hb => (hdead b hb).1)).mpr
    ⟨List.mem_map_of_mem hentry,fun hm => (hdead _ hm).2 rfl⟩

end

/-- In every reachable world: records, keys and headers agree, regions are disjoint, the counters
are the exact sums over the live blocks, and no addition or subtraction on them wraps. -/
theorem heap_accounting {w : World} (h : ReachableWorld w) :
    (∀ key block, (key,block) ∈ w.state.allocations.entries → Consistent w.state key block) ∧
    (∀ b ∈ w.state.allocations.values, ∀ b' ∈ w.state.allocations.values, b ≠ b' →
      b.payloadEnd ≤ b'.header ∨ b'.payloadEnd ≤ b.header) ∧
    w.state.managedBytes =
      (w.state.allocations.values.map fun b => (w.state.header b.header).size).sum ∧
    w.state.reservedBytes = (w.state.allocations.values.map (reservedSize w.state)).sum ∧
    w.state.managedBytes ≤ w.state.reservedBytes ∧ w.state.reservedBytes < addressLimit ∧
    (∀ block ∈ w.state.allocations.values, Subtractable w.state block) ∧
    (∀ marks done entry rest, w.state.allocations.entries = done ++ entry :: rest →
      Subtractable (done.foldl sweepBlock { w.state with marks := marks }) entry.2) ∧
    (∀ thread header constructing stage s fuel supply next s' supply',
      Cooperated thread w.state (.publish header constructing) stage s →
      Section.body thread fuel (.publish header constructing) s supply = .returns next s' supply' →
      s.managedBytes+(s.header header).size < addressLimit ∧
        s.reservedBytes+((s.header header).payloadOffset+(s.header header).size) < addressLimit ∧
        s'.managedBytes = s.managedBytes+(s.header header).size ∧
        s'.reservedBytes =
          s.reservedBytes+((s.header header).payloadOffset+(s.header header).size)) := by
  have hheap := h.invariant.heap
  refine ⟨fun key block hb => consistent_of_mem hheap hb,
    fun b hb b' hb' hne => hheap.region_disjoint hb hb' hne,hheap.managed,
    reservedBytes_eq_sum hheap,managedBytes_le_reservedBytes hheap,hheap.reserved_lt,
    fun block hb => subtractable_of_live hheap hb,?_,?_⟩
  · intro marks done entry rest hsplit
    have hmarks : HeapInvariant { w.state with marks := marks } := hheap.congr rfl rfl rfl rfl
    exact subtractable_sweep hmarks hsplit
  · intro thread header constructing stage s fuel supply next s' supply' hco hrun
    have hinv := hco.heapInvariant hheap
    cases effect_of_run hheap hco hrun with
    | publish hr hm ht =>
      refine ⟨hm,ht,wrapAdd_of_lt hm,?_⟩
      change wrapAdd s.reservedBytes (s.header header).blockAllocationSize = _
      have hsize : (s.header header).blockAllocationSize =
          (s.header header).payloadOffset+(s.header header).size :=
        wrapAdd_of_lt (hinv.header_lt header).2
      rw [hsize]
      exact wrapAdd_of_lt ht

/-- Two blocks of three are live: their sizes add up, their regions are apart, and a sweep that
takes both never borrows. -/
theorem heap_accounting_retiredRun :
    (worldAfter retiredRun).state.managedBytes = 16+16 ∧
    (worldAfter retiredRun).state.managedBytes ≤ (worldAfter retiredRun).state.reservedBytes ∧
    (∃ b ∈ (worldAfter retiredRun).state.allocations.values,
      ∃ b' ∈ (worldAfter retiredRun).state.allocations.values, b ≠ b' ∧
        (b.payloadEnd ≤ b'.header ∨ b'.payloadEnd ≤ b.header)) ∧
    Subtractable (sweepBlock { (worldAfter retiredRun).state with marks := fun _ => false }
      (4128,⟨4096,4128,4144,false⟩)) ⟨12288,12320,12336,false⟩ := by
  obtain ⟨-,hdisjoint,hmanaged,-,hle,-,-,hsweep,-⟩ :=
    heap_accounting (reachable_worldAfter retiredRun)
  have hvalues : (worldAfter retiredRun).state.allocations.values =
      [⟨4096,4128,4144,false⟩,⟨12288,12320,12336,false⟩] := by decide +kernel
  have hentries : (worldAfter retiredRun).state.allocations.entries =
      [(4128,⟨4096,4128,4144,false⟩)] ++ (12320,⟨12288,12320,12336,false⟩) :: [] := by
    decide +kernel
  have hsizes : ([⟨4096,4128,4144,false⟩,⟨12288,12320,12336,false⟩].map fun b : BlockRecord =>
      ((worldAfter retiredRun).state.header b.header).size) = [16,16] := by decide +kernel
  refine ⟨?_,hle,?_,hsweep (fun _ => false) _ _ _ hentries⟩
  · rw [hmanaged, hvalues, hsizes]
    rfl
  · rw [hvalues] at hdisjoint ⊢
    have hfirst : (⟨4096,4128,4144,false⟩ : BlockRecord) ≠ ⟨12288,12320,12336,false⟩ := by decide
    exact ⟨_,List.mem_cons_self,⟨12288,12320,12336,false⟩,by simp,hfirst,
      hdisjoint _ List.mem_cons_self _ (by simp) hfirst⟩

end GcLib.Properties
