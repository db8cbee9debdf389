import GcLib.Heap.Finalization
import GcLib.Heap.Marking

/-! # Sweeping and detaching

The sweep first computes the finalization order of the unmarked blocks, which may
throw, and only then runs the erase loop, which cannot. The loop clears the mark of
every survivor and, for every other block, the weak references into it, its record
and its share of the byte counters. Shutdown detaches every block at once.
-/

namespace GcLib.Heap
open Support

/-- One round of the erase loop. -/
def sweepBlock (s : State) (entry : ℕ × BlockRecord) : State :=
  let header := entry.2.header
  if s.isMarked header then s.setMarked header false
  else
    let s := s.invalidateWeakRefsForBlockLocked entry.2.payloadBegin entry.2.payloadEnd
    { s with
      managedBytes := wrapSub s.managedBytes (s.header header).size
      reservedBytes := wrapSub s.reservedBytes (s.header header).blockAllocationSize
      allocations := s.allocations.erase entry.1 }

def State.unmarkedBlocks (s : State) : List BlockRecord :=
  s.allocations.values.filter (fun block => !s.isMarked block.header)

def sweepLocked (fuel : ℕ) : M (List ℕ) := do
  let s ← Exec.get
  let _ ← (Vec.reserve .badAlloc s.allocations.size : M (Vec BlockRecord))
  let ordered ← orderBlocksForFinalizationLocked fuel s.unmarkedBlocks
  Exec.modify (fun s => s.allocations.entries.foldl sweepBlock s)
  pure ordered

def detachAllBlocksLocked (fuel : ℕ) : M (List ℕ) := do
  let s ← Exec.get
  let _ ← (Vec.reserve .badAlloc s.allocations.size : M (Vec BlockRecord))
  let ordered ← orderBlocksForFinalizationLocked fuel s.allocations.values
  Exec.modify (fun s => { s with allocations := .empty, managedBytes := 0, reservedBytes := 0 })
  pure ordered

/-- The entry refers into one of the blocks. -/
def WeakRefEntry.Targets (entry : WeakRefEntry) (blocks : List BlockRecord) : Prop :=
  ∃ block ∈ blocks, block.Contains entry.target

instance (entry : WeakRefEntry) (blocks : List BlockRecord) : Decidable (entry.Targets blocks) :=
  inferInstanceAs (Decidable (∃ block ∈ blocks, _))

/-- The byte belongs to the handle word of an entry that meets a condition. -/
def InWordOf (weakRefs : List WeakRefEntry) (p : WeakRefEntry → Prop) (x : ℕ) : Prop :=
  ∃ entry ∈ weakRefs, p entry ∧ entry.storage ≤ x ∧ x < entry.storage+wordSize

instance (weakRefs : List WeakRefEntry) (p : WeakRefEntry → Prop) [DecidablePred p] (x : ℕ) :
    Decidable (InWordOf weakRefs p x) :=
  inferInstanceAs (Decidable (∃ entry ∈ weakRefs, _))

/-- Clearing words one after the other clears exactly the bytes they cover. -/
theorem foldl_writeWord_zero (entries : List WeakRefEntry) (memory : Memory) (x : ℕ) :
    entries.foldl (fun memory entry => writeWord memory entry.storage 0) memory x =
      if InWordOf entries (fun _ => True) x then 0 else memory x := by
  induction entries generalizing memory with
  | nil => simp [InWordOf]
  | cons entry entries ih =>
    rw [List.foldl_cons, ih]
    by_cases hrest : InWordOf entries (fun _ => True) x
    · obtain ⟨e,he,h⟩ := hrest
      rw [if_pos ⟨e,he,h⟩, if_pos ⟨e,List.mem_cons_of_mem _ he,h⟩]
    · rw [if_neg hrest]
      by_cases hx : entry.storage ≤ x ∧ x < entry.storage+wordSize
      · rw [if_pos ⟨entry,List.mem_cons_self,trivial,hx⟩]
        simp [writeWord, Memory.writeBytes, hx]
      · rw [if_neg]
        · simp only [writeWord, Memory.writeBytes]
          rw [if_neg hx]
        · rintro ⟨e,he,-,h⟩
          rcases List.mem_cons.mp he with rfl | he
          · exact hx h
          · exact hrest ⟨e,he,trivial,h⟩

theorem foldl_wrapSub {f : BlockRecord → ℕ} :
    ∀ {blocks : List BlockRecord} {n : ℕ}, n < addressLimit → (blocks.map f).sum ≤ n →
      blocks.foldl (fun n block => wrapSub n (f block)) n = n-(blocks.map f).sum
  | [], _, _, _ => rfl
  | block :: blocks, n, hn, hle => by
    rw [List.map_cons, List.sum_cons] at hle ⊢
    rw [List.foldl_cons, wrapSub_of_le (by omega) hn, foldl_wrapSub (by omega) (by omega)]
    omega

/-- What removing a list of blocks does to every field but the mark bytes. -/
structure Removed (s : State) (dead : List BlockRecord) (s' : State) : Prop where
  entries : s'.allocations.entries =
    s.allocations.entries.filter (fun e => decide (e.1 ∉ dead.map BlockRecord.payloadBegin))
  weakRefs : s'.weakRefs = s.weakRefs.filter (fun entry => decide (¬ entry.Targets dead))
  memory : ∀ x, s'.memory x =
    if InWordOf s.weakRefs (fun entry => entry.Targets dead) x then 0 else s.memory x
  managed : s'.managedBytes =
    dead.foldl (fun n block => wrapSub n (s.header block.header).size) s.managedBytes
  reserved : s'.reservedBytes =
    dead.foldl (fun n block => wrapSub n (s.header block.header).blockAllocationSize)
      s.reservedBytes
  frame : { s' with
    allocations := s.allocations
    weakRefs := s.weakRefs
    memory := s.memory
    managedBytes := s.managedBytes
    reservedBytes := s.reservedBytes
    marks := s.marks } = s

namespace Removed
variable {s s' s'' : State} {dead : List BlockRecord}

theorem chunks (h : Removed s dead s') : s'.chunks = s.chunks := (congrArg State.chunks h.frame :)

theorem threads (h : Removed s dead s') : s'.threads = s.threads :=
  (congrArg State.threads h.frame :)

theorem registeredRootRanges (h : Removed s dead s') :
    s'.registeredRootRanges = s.registeredRootRanges :=
  (congrArg State.registeredRootRanges h.frame :)

theorem header (h : Removed s dead s') (a : ℕ) : s'.header a = s.header a := by
  simp only [State.header, h.chunks]

theorem of_marks (h : s'.EqButMarks s) : Removed s [] s' where
  entries := by simp [h.allocations]
  weakRefs := by simp [WeakRefEntry.Targets, h.weakRefs]
  memory := by simp [WeakRefEntry.Targets, InWordOf, h.memory]
  managed := h.managedBytes
  reserved := h.reservedBytes
  frame := by
    rw [← h.eq]

theorem trans {dead' : List BlockRecord} (h : Removed s dead s') (h' : Removed s' dead' s'') :
    Removed s (dead ++ dead') s'' where
  entries := by
    rw [h'.entries, h.entries, List.filter_filter]
    apply List.filter_congr
    simp only [List.map_append, List.mem_append, not_or, Bool.decide_and]
    exact fun _ _ => Bool.and_comm _ _
  weakRefs := by
    rw [h'.weakRefs, h.weakRefs, List.filter_filter]
    apply List.filter_congr
    intro entry _
    rw [← Bool.decide_and, decide_eq_decide]
    constructor
    · rintro ⟨h₁,h₂⟩ ⟨b,hb,hc⟩
      rcases List.mem_append.mp hb with hb | hb
      · exact h₂ ⟨b,hb,hc⟩
      · exact h₁ ⟨b,hb,hc⟩
    · exact fun hn => ⟨fun ⟨b,hb,hc⟩ => hn ⟨b,List.mem_append_right _ hb,hc⟩,
        fun ⟨b,hb,hc⟩ => hn ⟨b,List.mem_append_left _ hb,hc⟩⟩
  memory x := by
    rw [h'.memory, h.memory, h.weakRefs]
    by_cases hx : InWordOf s.weakRefs (fun entry => entry.Targets (dead ++ dead')) x
    · rw [if_pos hx]
      split_ifs with h₁ h₂
      · rfl
      · rfl
      · obtain ⟨e,he,⟨b,hb,hc⟩,hw⟩ := hx
        rcases List.mem_append.mp hb with hb | hb
        · exact absurd ⟨e,he,⟨b,hb,hc⟩,hw⟩ h₂
        · refine absurd ⟨e,List.mem_filter.mpr ⟨he,?_⟩,⟨b,hb,hc⟩,hw⟩ h₁
          exact decide_eq_true (fun ht => h₂ ⟨e,he,ht,hw⟩)
    · rw [if_neg hx, if_neg, if_neg]
      · rintro ⟨e,he,⟨b,hb,hc⟩,hw⟩
        exact hx ⟨e,he,⟨b,List.mem_append_left _ hb,hc⟩,hw⟩
      · rintro ⟨e,he,⟨b,hb,hc⟩,hw⟩
        exact hx ⟨e,(List.mem_filter.mp he).1,⟨b,List.mem_append_right _ hb,hc⟩,hw⟩
  managed := by
    rw [h'.managed, h.managed, List.foldl_append]
    simp only [h.header]
  reserved := by
    rw [h'.reserved, h.reserved, List.foldl_append]
    simp only [h.header]
  frame := by
    rw [← h.frame, ← h'.frame]

end Removed

theorem sweepBlock_of_marked {s : State} {entry : ℕ × BlockRecord}
    (hm : s.isMarked entry.2.header = true) :
    sweepBlock s entry = s.setMarked entry.2.header false := if_pos hm

theorem sweepBlock_marks (s : State) (entry : ℕ × BlockRecord) (h : ℕ) :
    (sweepBlock s entry).marks h = if h = entry.2.header then false else s.marks h := by
  cases hm : s.isMarked entry.2.header with
  | true =>
    rw [sweepBlock_of_marked hm]
    simp [State.setMarked, Function.update_apply]
  | false =>
    have hmarks : (sweepBlock s entry).marks = s.marks := by
      unfold sweepBlock
      simp only [hm, Bool.false_eq_true, if_false]
      rfl
    rw [hmarks]
    split_ifs with he
    · rw [he]
      exact hm
    · rfl

/-- A round of the erase loop on an unmarked block removes that block. -/
theorem removed_sweepBlock {s : State} {entry : ℕ × BlockRecord}
    (hkey : entry.1 = entry.2.payloadBegin) (hm : s.isMarked entry.2.header = false) :
    Removed s [entry.2] (sweepBlock s entry) := by
  have htargets : ∀ w : WeakRefEntry, w.Targets [entry.2] ↔
      entry.2.payloadBegin ≤ w.target ∧ w.target < entry.2.payloadEnd := by
    intro w
    simp [WeakRefEntry.Targets, BlockRecord.Contains]
  unfold sweepBlock
  simp only [hm, Bool.false_eq_true, if_false]
  constructor
  · simp [OrderedMap.erase, hkey]
  · simp only [State.invalidateWeakRefsForBlockLocked]
    apply List.filter_congr
    intro w _
    simp only [htargets, decide_not]
  · intro x
    simp only [State.invalidateWeakRefsForBlockLocked]
    rw [foldl_writeWord_zero]
    simp only [InWordOf, List.mem_filter, decide_eq_true_eq, htargets, true_and, and_assoc]
  · rw [List.foldl_cons, List.foldl_nil, State.invalidate_managedBytes, State.invalidate_header]
  · rw [List.foldl_cons, List.foldl_nil, State.invalidate_reservedBytes, State.invalidate_header]
  · rfl

/-- The erase loop removes the unmarked blocks and leaves the survivors unmarked. -/
theorem removed_foldl_sweepBlock (entries : List (ℕ × BlockRecord)) :
    ∀ {s : State}, (∀ e ∈ entries, e.1 = e.2.payloadBegin) →
      (entries.map (fun e => e.2.header)).Nodup →
      Removed s ((entries.map Prod.snd).filter (fun block => !s.isMarked block.header))
        (entries.foldl sweepBlock s) ∧
      ∀ h, (entries.foldl sweepBlock s).marks h =
        if h ∈ entries.map (fun e => e.2.header) then false else s.marks h := by
  induction entries with
  | nil => exact fun _ _ => ⟨Removed.of_marks (.refl _),by simp⟩
  | cons entry entries ih =>
    intro s hkey hnodup
    obtain ⟨hnew,hnodup⟩ := List.nodup_cons.mp hnodup
    have hk := hkey entry List.mem_cons_self
    obtain ⟨hrest,hrestMarks⟩ :=
      ih (s := sweepBlock s entry) (fun e he => hkey e (List.mem_cons_of_mem _ he)) hnodup
    have hmarks := sweepBlock_marks s entry
    have hother : ∀ block ∈ entries.map Prod.snd,
        (sweepBlock s entry).isMarked block.header = s.isMarked block.header := by
      intro block hb
      obtain ⟨e,he,rfl⟩ := List.mem_map.mp hb
      rw [State.isMarked, hmarks, if_neg]
      · rfl
      · exact fun heq => hnew (List.mem_map.mpr ⟨e,he,heq⟩)
    have hfilter : (entries.map Prod.snd).filter
        (fun block => !(sweepBlock s entry).isMarked block.header) =
        (entries.map Prod.snd).filter (fun block => !s.isMarked block.header) :=
      List.filter_congr (fun block hb => by rw [hother block hb])
    rw [hfilter] at hrest
    constructor
    · rw [List.foldl_cons, List.map_cons, List.filter_cons]
      cases hm : s.isMarked entry.2.header with
      | true =>
        have hstep : (sweepBlock s entry).EqButMarks s := by
          rw [sweepBlock_of_marked hm]
          exact (State.EqButMarks.refl s).setMarked _ _
        exact (Removed.of_marks hstep).trans hrest
      | false => exact (removed_sweepBlock hk hm).trans hrest
    · intro h
      rw [List.foldl_cons, hrestMarks, hmarks, List.map_cons]
      simp only [List.mem_cons]
      by_cases he : h = entry.2.header
      · simp [he]
      · simp only [he, if_false, false_or]

namespace Removed
variable {s s' : State} {dead : List BlockRecord}

theorem mem_values (h : Removed s dead s') (hinv : HeapInvariant s)
    (hdead : ∀ b ∈ dead, b ∈ s.allocations.values) {b : BlockRecord} :
    b ∈ s'.allocations.values ↔ b ∈ s.allocations.values ∧ b ∉ dead := by
  have hentries : ∀ k, (k,b) ∈ s'.allocations.entries ↔
      (k,b) ∈ s.allocations.entries ∧ k ∉ dead.map BlockRecord.payloadBegin := by
    intro k
    rw [h.entries, List.mem_filter, decide_eq_true_eq]
  rw [OrderedMap.mem_values, OrderedMap.mem_values]
  constructor
  · rintro ⟨k,hk⟩
    obtain ⟨hk,hnot⟩ := (hentries k).mp hk
    rw [hinv.key _ _ hk] at hnot
    exact ⟨⟨k,hk⟩,fun hb => hnot (List.mem_map_of_mem hb)⟩
  · rintro ⟨⟨k,hk⟩,hb⟩
    refine ⟨k,(hentries k).mpr ⟨hk,fun hkd => hb ?_⟩⟩
    obtain ⟨d,hd,he⟩ := List.mem_map.mp hkd
    have hde := hinv.entry_mem (hdead d hd)
    rw [he] at hde
    exact s.allocations.value_unique hk hde ▸ hd

theorem values_nodup (h : Removed s dead s') (hinv : HeapInvariant s) :
    s'.allocations.values.Nodup := by
  refine hinv.values_nodup.sublist (List.Sublist.map Prod.snd ?_)
  rw [h.entries]
  exact List.filter_sublist

/-- The live blocks before are the removed ones and the survivors. -/
theorem values_perm (h : Removed s dead s') (hinv : HeapInvariant s)
    (hdead : ∀ b ∈ dead, b ∈ s.allocations.values) (hnodup : dead.Nodup) :
    s.allocations.values.Perm (dead ++ s'.allocations.values) := by
  refine (List.perm_ext_iff_of_nodup hinv.values_nodup ?_).mpr (fun b => ?_)
  · exact hnodup.append (h.values_nodup hinv) (fun b hb hb' =>
      ((h.mem_values hinv hdead).mp hb').2 hb)
  · rw [List.mem_append, h.mem_values hinv hdead]
    constructor
    · exact fun hb => or_iff_not_imp_left.mpr (fun hd => ⟨hb,hd⟩)
    · rintro (hb | hb)
      · exact hdead b hb
      · exact hb.1

theorem managedBytes_eq (h : Removed s dead s') (hinv : HeapInvariant s)
    (hdead : ∀ b ∈ dead, b ∈ s.allocations.values) (hnodup : dead.Nodup) :
    s.managedBytes = s.payloadSum dead+s'.managedBytes ∧
      s'.managedBytes = s'.payloadSum s'.allocations.values := by
  have hsum : s.managedBytes = s.payloadSum dead+s.payloadSum s'.allocations.values := by
    rw [hinv.managed]
    unfold State.payloadSum
    rw [((h.values_perm hinv hdead hnodup).map _).sum_eq, List.map_append, List.sum_append]
  have hsub : s'.managedBytes = s.managedBytes-s.payloadSum dead := by
    rw [h.managed, foldl_wrapSub hinv.managed_lt]
    · rfl
    · exact Nat.le.intro hsum.symm
  have hframe : s'.payloadSum s'.allocations.values = s.payloadSum s'.allocations.values := by
    simp only [State.payloadSum, h.header]
  omega

theorem reservedBytes_eq (h : Removed s dead s') (hinv : HeapInvariant s)
    (hdead : ∀ b ∈ dead, b ∈ s.allocations.values) (hnodup : dead.Nodup) :
    s.reservedBytes = s.reservedSum dead+s'.reservedBytes ∧
      s'.reservedBytes = s'.reservedSum s'.allocations.values := by
  have hsum : s.reservedBytes = s.reservedSum dead+s.reservedSum s'.allocations.values := by
    rw [hinv.reserved]
    unfold State.reservedSum
    rw [((h.values_perm hinv hdead hnodup).map _).sum_eq, List.map_append, List.sum_append]
  have hsub : s'.reservedBytes = s.reservedBytes-s.reservedSum dead := by
    rw [h.reserved, foldl_wrapSub hinv.reserved_lt]
    · rfl
    · exact Nat.le.intro hsum.symm
  have hframe : s'.reservedSum s'.allocations.values = s.reservedSum s'.allocations.values := by
    simp only [State.reservedSum, h.header]
  omega

theorem invariant (h : Removed s dead s') (hinv : HeapInvariant s)
    (hdead : ∀ b ∈ dead, b ∈ s.allocations.values) (hnodup : dead.Nodup) :
    HeapInvariant s' where
  key k b hb := by
    rw [h.entries] at hb
    exact hinv.key k b (List.mem_filter.mp hb).1
  described b hb := by
    rw [h.chunks]
    exact hinv.described b ((h.mem_values hinv hdead).mp hb).1
  placed := h.chunks ▸ hinv.placed
  disjoint := h.chunks ▸ hinv.disjoint
  managed := (h.managedBytes_eq hinv hdead hnodup).2
  reserved := (h.reservedBytes_eq hinv hdead hnodup).2
  managed_lt := by
    have hle := (h.managedBytes_eq hinv hdead hnodup).1
    exact (Nat.le.intro (by omega : s'.managedBytes+s.payloadSum dead = s.managedBytes)).trans_lt
      hinv.managed_lt
  reserved_lt := by
    have hle := (h.reservedBytes_eq hinv hdead hnodup).1
    exact (Nat.le.intro (by omega : s'.reservedBytes+s.reservedSum dead = s.reservedBytes)).trans_lt
      hinv.reserved_lt

end Removed

theorem HeapInvariant.entryHeaders_nodup {s : State} (h : HeapInvariant s) :
    (s.allocations.entries.map (fun e => e.2.header)).Nodup := by
  have hmap : s.allocations.entries.map (fun e => e.2.header) =
      s.allocations.values.map BlockRecord.header := by
    simp [OrderedMap.values]
  rw [hmap]
  exact h.values_nodup.map_on (fun b hb b' hb' => h.header_inj hb hb')

theorem State.mem_unmarkedBlocks {s : State} {b : BlockRecord} :
    b ∈ s.unmarkedBlocks ↔ b ∈ s.allocations.values ∧ s.marks b.header = false := by
  simp [State.unmarkedBlocks, State.isMarked]

/-- What a completed sweep did: the unmarked blocks are gone, nothing is marked, and the list
it returns is an order to finalize them in. -/
structure Swept (s : State) (unreachable : List ℕ) (s' : State) : Prop where
  removed : Removed s s.unmarkedBlocks s'
  marks : ∀ h, s'.marks h =
    if h ∈ s.allocations.values.map BlockRecord.header then false else s.marks h
  order : ∃ order, unreachable = order.map BlockRecord.header ∧ SafeOrder s s.unmarkedBlocks order

theorem State.unmarkedBlocks_sublist (s : State) :
    s.unmarkedBlocks.Sublist s.allocations.values := List.filter_sublist

theorem meets_sweepLocked {s : State} (hinv : HeapInvariant s) (fuel : ℕ) :
    (sweepLocked fuel).Meets s (fun unreachable s' => Swept s unreachable s') (Unchanged s) := by
  have hset := hinv.finalizationSet (State.unmarkedBlocks_sublist s)
  refine Exec.meets_bind (Exec.meets_get ?_)
  refine Exec.meets_bind (Vec.meets_reserve ?_ ⟨rfl,rfl⟩)
  refine Exec.meets_bind ((meets_orderBlocksForFinalizationLocked hset fuel).mono ?_
    (fun _ _ => id))
  rintro ordered s' ⟨rfl,horder⟩
  refine Exec.meets_bind (Exec.meets_modify (Exec.meets_pure ?_))
  have hmap : s'.allocations.entries.map (fun e => e.2.header) =
      s'.allocations.values.map BlockRecord.header := by
    simp [OrderedMap.values]
  obtain ⟨hr,hm⟩ := removed_foldl_sweepBlock s'.allocations.entries
    (fun e he => hinv.key _ _ he) hinv.entryHeaders_nodup
  refine ⟨hr,fun h => ?_,horder⟩
  rw [hm h, hmap]

/-- What detaching every block did. -/
structure DetachedAll (s : State) (blocks : List ℕ) (s' : State) : Prop where
  state : s' = { s with allocations := .empty, managedBytes := 0, reservedBytes := 0 }
  order : ∃ order, blocks = order.map BlockRecord.header ∧ SafeOrder s s.allocations.values order

theorem meets_detachAllBlocksLocked {s : State} (hinv : HeapInvariant s) (fuel : ℕ) :
    (detachAllBlocksLocked fuel).Meets s (fun blocks s' => DetachedAll s blocks s')
      (Unchanged s) := by
  refine Exec.meets_bind (Exec.meets_get ?_)
  refine Exec.meets_bind (Vec.meets_reserve ?_ ⟨rfl,rfl⟩)
  refine Exec.meets_bind ((meets_orderBlocksForFinalizationLocked
    (hinv.finalizationSet (.refl _)) fuel).mono ?_ (fun _ _ => id))
  rintro ordered s' ⟨rfl,horder⟩
  exact Exec.meets_bind (Exec.meets_modify (Exec.meets_pure ⟨rfl,horder⟩))

end GcLib.Heap
