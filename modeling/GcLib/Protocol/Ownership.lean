import GcLib.Protocol.Preservation

/-! # Who holds each block

Every block obtained from `operator new` and not yet freed is in exactly one place: a
record of the registry, the registering section of an allocation, one batch of
detached blocks, or a release on its way to `operator delete`. So nothing is freed
twice, and nothing registered is freed.
-/

namespace GcLib.Protocol
open GcLib.Heap GcLib.Support

/-- How far a block outside the registry has come. -/
inductive Phase where
  | placed
  | detached
  | finalized
  | released
  deriving DecidableEq, Repr

/-- A batch with its destructor calls pending for some of its blocks. -/
def batchCustody (blocks pending : List ℕ) : List (ℕ × Phase) :=
  blocks.map fun header => (header,if header ∈ pending then .detached else .finalized)

/-- The blocks a frame is responsible for. -/
def Frame.custody : Frame → List (ℕ × Phase)
  | .entering (.publish header _) _ => [(header,.placed)]
  | .destroying blocks pending => batchCustody blocks pending
  | .finalizer blocks pending => batchCustody blocks pending
  | .freeing pending => pending.map fun header => (header,.finalized)
  | .freeingBlock header => [(header,.released)]
  | _ => []

def custody (stack : List Frame) : List (ℕ × Phase) := stack.flatMap Frame.custody

def held (stack : List Frame) : List ℕ := (custody stack).map Prod.fst

/-- The headers the registry names. -/
def registered (s : State) : List ℕ := s.allocations.values.map BlockRecord.header

structure Ownership (w : World) : Prop where
  nodup : ∀ thread, (registered w.state ++ held (w.control thread)).Nodup
  apart : ∀ thread other, thread ≠ other →
    ∀ header ∈ held (w.control thread), header ∉ held (w.control other)
  mem_chunks : ∀ header, (∃ chunk, w.state.chunks.find? header = some chunk) ↔
    header ∈ registered w.state ∨ ∃ thread, header ∈ held (w.control thread)

theorem mem_registered {s : State} {header : ℕ} :
    header ∈ registered s ↔ ∃ b ∈ s.allocations.values, b.header = header := by
  simp [registered]

@[simp] theorem custody_cons (frame : Frame) (rest : List Frame) :
    custody (frame :: rest) = frame.custody ++ custody rest := rfl

@[simp] theorem custody_resumed (rest : List Frame) (ok : Bool) :
    custody (resumed rest ok) = custody rest := by
  unfold resumed
  split
  · split_ifs <;> rfl
  · rfl

theorem batchCustody_self (blocks : List ℕ) :
    batchCustody blocks blocks = blocks.map fun header => (header,.detached) :=
  List.map_congr_left (fun header hh => by rw [if_pos hh])

theorem batchCustody_nil (blocks : List ℕ) :
    batchCustody blocks [] = blocks.map fun header => (header,.finalized) :=
  List.map_congr_left (fun header _ => by rw [if_neg List.not_mem_nil])

/-- Taking the next block of a batch changes its phase only, and every block before it has been
taken already. -/
theorem batchCustody_cons {blocks pending : List ℕ} {header : ℕ} (hnodup : blocks.Nodup)
    (hs : (header :: pending).IsSuffix blocks) :
    ∃ left right, batchCustody blocks (header :: pending) = left ++ (header,.detached) :: right ∧
      batchCustody blocks pending = left ++ (header,.finalized) :: right ∧
      ∀ entry ∈ left, entry.2 = .finalized := by
  obtain ⟨done,rfl⟩ := hs
  obtain ⟨-,hpending,hdone⟩ := List.nodup_append.mp hnodup
  refine ⟨done.map fun header => (header,.finalized),pending.map fun header => (header,.detached),
    ?_,?_,?_⟩
  · rw [batchCustody, List.map_append, List.map_cons, if_pos List.mem_cons_self]
    congr 1
    · exact List.map_congr_left (fun d hd => by rw [if_neg (fun hm => hdone d hd d hm rfl)])
    · refine congrArg _ (List.map_congr_left (fun d hd => ?_))
      rw [if_pos (List.mem_cons_of_mem _ hd)]
  · rw [batchCustody, List.map_append, List.map_cons, if_neg (List.nodup_cons.mp hpending).1]
    congr 1
    · refine List.map_congr_left (fun d hd => ?_)
      rw [if_neg (fun hm => hdone d hd d (List.mem_cons_of_mem _ hm) rfl)]
    · exact congrArg _ (List.map_congr_left (fun d hd => by rw [if_pos hd]))
  · intro entry he
    obtain ⟨d,-,rfl⟩ := List.mem_map.mp he
    rfl

theorem mem_held {stack : List Frame} {header : ℕ} :
    header ∈ held stack ↔ ∃ phase, (header,phase) ∈ custody stack := by
  simp [held]

namespace Ownership
variable {w w' : World} {thread : ThreadId} {header : ℕ}

theorem held_new (h : Ownership w) (thread : ThreadId) (hh : header ∈ held (w.control thread)) :
    ∀ b ∈ w.state.allocations.values, b.header ≠ header := by
  rintro b hb rfl
  exact (List.nodup_append.mp (h.nodup thread)).2.2 _ (mem_registered.mpr ⟨b,hb,rfl⟩) _ hh rfl

theorem held_chunk (h : Ownership w) (thread : ThreadId) (hh : header ∈ held (w.control thread)) :
    ∃ chunk, w.state.chunks.find? header = some chunk :=
  (h.mem_chunks header).mpr (Or.inr ⟨thread,hh⟩)

/-- A step of one thread moves blocks between the registry, its own stack and the allocator. -/
theorem change (h : Ownership w)
    (hcontrol : ∀ other, other ≠ thread → w'.control other = w.control other)
    (hnodup : (registered w'.state ++ held (w'.control thread)).Nodup)
    (hsub : ∀ x ∈ registered w'.state ++ held (w'.control thread),
      x ∈ registered w.state ++ held (w.control thread) ∨ w.state.chunks.find? x = none)
    (hchunks : ∀ x, (∃ chunk, w'.state.chunks.find? x = some chunk) ↔
      x ∈ registered w'.state ++ held (w'.control thread) ∨
      (∃ chunk, w.state.chunks.find? x = some chunk) ∧
        x ∉ registered w.state ++ held (w.control thread)) : Ownership w' := by
  have hother : ∀ other, other ≠ thread → ∀ x ∈ registered w'.state ++ held (w'.control thread),
      x ∉ held (w.control other) := by
    intro other hne x hx hxo
    rcases hsub x hx with hx | hx
    · rcases List.mem_append.mp hx with hx | hx
      · exact (List.nodup_append.mp (h.nodup other)).2.2 _ hx _ hxo rfl
      · exact h.apart other thread hne x hxo hx
    · obtain ⟨chunk,hc⟩ := h.held_chunk other hxo
      rw [hx] at hc
      cases hc
  have hparts := List.nodup_append.mp hnodup
  refine ⟨fun other => ?_,fun a b hab x hxa hxb => ?_,fun x => ?_⟩
  · by_cases hne : other = thread
    · exact hne ▸ hnodup
    · rw [hcontrol other hne]
      refine List.nodup_append.mpr ⟨hparts.1,(List.nodup_append.mp (h.nodup other)).2.1,?_⟩
      rintro x hx y hy rfl
      exact hother other hne x (List.mem_append_left _ hx) hy
  · by_cases ha : a = thread
    · subst ha
      rw [hcontrol b (Ne.symm hab)] at hxb
      exact hother b (Ne.symm hab) x (List.mem_append_right _ hxa) hxb
    · by_cases hb : b = thread
      · subst hb
        rw [hcontrol a ha] at hxa
        exact hother a ha x (List.mem_append_right _ hxb) hxa
      · rw [hcontrol a ha] at hxa
        rw [hcontrol b hb] at hxb
        exact h.apart a b hab x hxa hxb
  · rw [hchunks, h.mem_chunks, List.mem_append]
    constructor
    · rintro ((hx | hx) | ⟨hx | ⟨other,hx⟩,hnot⟩)
      · exact Or.inl hx
      · exact Or.inr ⟨thread,hx⟩
      · exact absurd (List.mem_append_left _ hx) hnot
      · have hne : other ≠ thread := by
          rintro rfl
          exact hnot (List.mem_append_right _ hx)
        exact Or.inr ⟨other,by rw [hcontrol other hne]; exact hx⟩
    · rintro (hx | ⟨other,hx⟩)
      · exact Or.inl (Or.inl hx)
      · by_cases hne : other = thread
        · exact Or.inl (Or.inr (hne ▸ hx))
        · rw [hcontrol other hne] at hx
          refine Or.inr ⟨Or.inr ⟨other,hx⟩,fun hmem => ?_⟩
          rcases List.mem_append.mp hmem with hmem | hmem
          · exact (List.nodup_append.mp (h.nodup other)).2.2 _ hmem _ hx rfl
          · exact h.apart other thread hne x hx hmem

/-- Blocks change hands; none comes or goes. -/
theorem transfer (h : Ownership w)
    (hcontrol : ∀ other, other ≠ thread → w'.control other = w.control other)
    (hperm : (registered w'.state ++ held (w'.control thread)).Perm
      (registered w.state ++ held (w.control thread)))
    (hchunks : w'.state.chunks = w.state.chunks) : Ownership w' := by
  refine h.change hcontrol (hperm.nodup_iff.mpr (h.nodup thread))
    (fun x hx => Or.inl (hperm.mem_iff.mp hx)) (fun x => ?_)
  rw [hchunks, hperm.mem_iff]
  constructor
  · intro hx
    by_cases hm : x ∈ registered w.state ++ held (w.control thread)
    · exact Or.inl hm
    · exact Or.inr ⟨hx,hm⟩
  · rintro (hx | hx)
    · exact (h.mem_chunks x).mpr ((List.mem_append.mp hx).imp id (fun hx => ⟨thread,hx⟩))
    · exact hx.1

theorem place (h : Ownership w) (header : ℕ)
    (hcontrol : ∀ other, other ≠ thread → w'.control other = w.control other)
    (hperm : (registered w'.state ++ held (w'.control thread)).Perm
      (header :: (registered w.state ++ held (w.control thread))))
    (hnone : w.state.chunks.find? header = none)
    (hchunks : ∀ x, w'.state.chunks.find? x = none ↔
      x ≠ header ∧ w.state.chunks.find? x = none) : Ownership w' := by
  have hnew : header ∉ registered w.state ++ held (w.control thread) := by
    intro hx
    obtain ⟨chunk,hc⟩ := (h.mem_chunks header).mpr
      ((List.mem_append.mp hx).imp id (fun hx => ⟨thread,hx⟩))
    rw [hnone] at hc
    cases hc
  refine h.change hcontrol (hperm.nodup_iff.mpr (List.nodup_cons.mpr ⟨hnew,h.nodup thread⟩))
    (fun x hx => ?_) (fun x => ?_)
  · rcases List.mem_cons.mp (hperm.mem_iff.mp hx) with rfl | hx
    · exact Or.inr hnone
    · exact Or.inl hx
  · rw [← Option.ne_none_iff_exists', Ne, hchunks, hperm.mem_iff, List.mem_cons,
      ← Option.ne_none_iff_exists']
    by_cases hxh : x = header
    · simp [hxh]
    · simp only [hxh, ne_eq, not_false_eq_true, true_and, false_or]
      constructor
      · intro hx
        by_cases hm : x ∈ registered w.state ++ held (w.control thread)
        · exact Or.inl hm
        · exact Or.inr ⟨hx,hm⟩
      · rintro (hx | hx)
        · rw [← Ne, Option.ne_none_iff_exists']
          exact (h.mem_chunks x).mpr ((List.mem_append.mp hx).imp id (fun hx => ⟨thread,hx⟩))
        · exact hx.1

theorem free (h : Ownership w)
    (hcontrol : ∀ other, other ≠ thread → w'.control other = w.control other)
    (hperm : (registered w.state ++ held (w.control thread)).Perm
      (header :: (registered w'.state ++ held (w'.control thread))))
    (hchunks : w'.state.chunks = w.state.chunks.erase header) : Ownership w' := by
  have hnodup := hperm.nodup_iff.mp (h.nodup thread)
  refine h.change hcontrol (List.nodup_cons.mp hnodup).2
    (fun x hx => Or.inl (hperm.mem_iff.mpr (List.mem_cons_of_mem _ hx))) (fun x => ?_)
  rw [hchunks, OrderedMap.find?_erase, hperm.mem_iff, List.mem_cons]
  by_cases hxh : x = header
  · subst hxh
    simp [(List.nodup_cons.mp hnodup).1]
  · simp only [hxh, if_false, false_or]
    constructor
    · intro hx
      by_cases hm : x ∈ registered w'.state ++ held (w'.control thread)
      · exact Or.inl hm
      · exact Or.inr ⟨hx,hm⟩
    · rintro (hx | hx)
      · have hold := hperm.mem_iff.mpr (List.mem_cons_of_mem header hx)
        exact (h.mem_chunks x).mpr ((List.mem_append.mp hold).imp id (fun hx => ⟨thread,hx⟩))
      · exact hx.1

end Ownership

/-- Neither `operator new` nor `operator delete` was called. -/
structure SameChunks (s s' : State) : Prop where
  chunks : s'.chunks = s.chunks
  nextSerial : s'.nextSerial = s.nextSerial

namespace SameChunks
variable {s s' s'' : State}

theorem refl (s : State) : SameChunks s s := ⟨rfl,rfl⟩

theorem trans (h : SameChunks s s') (h' : SameChunks s' s'') : SameChunks s s'' :=
  ⟨h'.chunks.trans h.chunks,h'.nextSerial.trans h.nextSerial⟩

theorem header (h : SameChunks s s') (a : ℕ) : s'.header a = s.header a := by
  simp only [State.header, h.chunks]

theorem serial (h : SameChunks s s') (a : ℕ) : s'.serial a = s.serial a := by
  simp only [State.serial, h.chunks]

end SameChunks

/-- What a step of one thread does to the blocks and to the log. -/
inductive Move (thread : ThreadId) (w w' : World) : Prop where
  | stays (hs : SameChunks w.state w'.state) (hr : registered w'.state = registered w.state)
      (hc : custody (w'.control thread) = custody (w.control thread)) (hl : w'.log = w.log)
  | places (region : ℕ) (request : AllocationRequest) (hv : request.Valid)
      (hf : w.state.FreshRegion region request.totalSize request.alignment)
      (hs : w'.state = w.state.placeHeader region request)
      (hc : custody (w'.control thread) = (region,.placed) :: custody (w.control thread))
      (hl : w'.log = w.log ++ [.placed w.state.nextSerial request.destructor])
  | registers (header : ℕ) (hs : SameChunks w.state w'.state)
      (hr : (registered w'.state).Perm (header :: registered w.state))
      (hc : custody (w.control thread) = (header,.placed) :: custody (w'.control thread))
      (hl : w'.log = w.log ++ [.registered (w.state.serial header)])
  | detaches (blocks : List ℕ) (hs : SameChunks w.state w'.state)
      (hr : (registered w.state).Perm (blocks ++ registered w'.state))
      (hc : custody (w'.control thread) =
        (blocks.map fun header => (header,Phase.detached)) ++ custody (w.control thread))
      (hl : w'.log = w.log ++
        blocks.map fun header => .detached (w.state.serial header) w.log.length)
  | withdraws (header : ℕ) (hs : SameChunks w.state w'.state)
      (hr : (registered w.state).Perm (header :: registered w'.state))
      (hc : custody (w'.control thread) = (header,.released) :: custody (w.control thread))
      (hl : w'.log = w.log ++ [.released (w.state.serial header)])
  | finalizes (header : ℕ) (left right : List (ℕ × Phase)) (hs : SameChunks w.state w'.state)
      (hr : registered w'.state = registered w.state)
      (hc : custody (w.control thread) = left ++ (header,.detached) :: right)
      (hc' : custody (w'.control thread) = left ++ (header,.finalized) :: right)
      (hl : w'.log = w.log ++ if (w.state.header header).destructor = none then []
        else [.finalized (w.state.serial header)])
      (hleft : ∀ entry ∈ left, entry.2 = .finalized)
  | frees (header : ℕ) (phase : Phase) (hphase : phase ≠ .detached)
      (hchunks : w'.state.chunks = w.state.chunks.erase header)
      (hserial : w'.state.nextSerial = w.state.nextSerial)
      (hr : registered w'.state = registered w.state)
      (hc : custody (w.control thread) = (header,phase) :: custody (w'.control thread))
      (hl : w'.log = w.log ++ [.freed (w.state.serial header)])

theorem placeHeader_find? {s : State} {region : ℕ} (request : AllocationRequest)
    (hn : s.chunks.find? region = none) (a : ℕ) :
    (s.placeHeader region request).chunks.find? a = if a = region then
      some ⟨request.header,s.nextSerial⟩ else s.chunks.find? a := by
  simp only [State.placeHeader]
  rw [OrderedMap.find?_emplace hn]

/-- Every move keeps each block in one place. -/
theorem Move.ownership {w w' : World} {thread : ThreadId} (h : Ownership w)
    (hheap : HeapInvariant w.state)
    (hcontrol : ∀ other, other ≠ thread → w'.control other = w.control other)
    (hm : Move thread w w') : Ownership w' := by
  cases hm with
  | stays hs hr hc hl =>
    refine h.transfer hcontrol ?_ hs.chunks
    rw [hr, held, hc, held]
  | places region request hv hf hs hc hl =>
    have hpos : 0 < request.totalSize := Nat.add_pos_right _ hv.size_pos
    have hnone := HeapInvariant.fresh_new hf hheap hpos
    refine h.place region hcontrol ?_ hnone (fun x => ?_)
    · rw [held, hc, List.map_cons, hs]
      exact List.perm_middle
    · rw [hs, placeHeader_find? request hnone]
      split_ifs with hx <;> simp [hx]
  | registers header hs hr hc hl =>
    refine h.transfer hcontrol ?_ hs.chunks
    rw [held, held, hc, List.map_cons]
    exact (hr.append_right _).trans List.perm_middle.symm
  | detaches blocks hs hr hc hl =>
    refine h.transfer hcontrol ?_ hs.chunks
    rw [held, held, hc, List.map_append, List.map_map]
    have hid : List.map (Prod.fst ∘ fun header => (header,Phase.detached)) blocks = blocks :=
      List.map_id blocks
    rw [hid]
    refine (List.Perm.trans ?_ (hr.append_right _).symm)
    rw [← List.append_assoc]
    exact List.perm_append_comm.append_right _
  | withdraws header hs hr hc hl =>
    refine h.transfer hcontrol ?_ hs.chunks
    rw [held, held, hc, List.map_cons]
    exact List.perm_middle.trans (hr.append_right _).symm
  | finalizes header left right hs hr hc hc' hl =>
    refine h.transfer hcontrol ?_ hs.chunks
    rw [hr, held, hc', held, hc]
    simp
  | frees header phase hphase hchunks hserial hr hc hl =>
    refine h.free hcontrol ?_ hchunks
    rw [hr, held, hc, List.map_cons]
    exact List.perm_middle

end GcLib.Protocol
