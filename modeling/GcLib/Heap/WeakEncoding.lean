import GcLib.Heap.Marking

/-! # Encoded weak handles

A weak handle stores the negation of its target, which lies in the upper half of the
address space when the target lies in the lower half. No block contains such a word,
so a mark phase does not tell it from zero.
-/

namespace GcLib.Heap
open Support

def encodeWeakPtr (ptr : ℕ) : ℕ := if ptr = 0 then 0 else wrapSub 0 ptr

def decodeWeakPtr (encoded : ℕ) : ℕ := if encoded = 0 then 0 else wrapSub 0 encoded

theorem wrapSub_zero {a : ℕ} (h₀ : a ≠ 0) (ha : a < addressLimit) :
    wrapSub 0 a = addressLimit-a := by
  unfold wrapSub addressLimit at *
  omega

theorem encodeWeakPtr_lt {ptr : ℕ} (hp : ptr < addressLimit) :
    encodeWeakPtr ptr < addressLimit := by
  unfold encodeWeakPtr
  split_ifs with h₀
  · norm_num [addressLimit]
  · rw [wrapSub_zero h₀ hp]
    omega

theorem encodeWeakPtr_eq_zero {ptr : ℕ} (hp : ptr < addressLimit) :
    encodeWeakPtr ptr = 0 ↔ ptr = 0 := by
  unfold encodeWeakPtr
  split_ifs with h₀
  · simp [h₀]
  · rw [wrapSub_zero h₀ hp]
    omega

theorem decodeWeakPtr_encodeWeakPtr {ptr : ℕ} (hp : ptr < addressLimit) :
    decodeWeakPtr (encodeWeakPtr ptr) = ptr := by
  by_cases h₀ : ptr = 0
  · rw [h₀]
    rfl
  · have hne : encodeWeakPtr ptr ≠ 0 := fun he => h₀ ((encodeWeakPtr_eq_zero hp).mp he)
    rw [decodeWeakPtr, if_neg hne, wrapSub_zero hne (encodeWeakPtr_lt hp), encodeWeakPtr,
      if_neg h₀, wrapSub_zero h₀ hp]
    omega

/-- The encoding of an address in the lower half lies in the upper half, or is zero. -/
theorem encodeWeakPtr_upper {ptr : ℕ} (hp : ptr < 2^63) :
    encodeWeakPtr ptr = 0 ∨ 2^63 < encodeWeakPtr ptr := by
  unfold encodeWeakPtr
  split_ifs with h₀
  · exact Or.inl rfl
  · right
    rw [wrapSub_zero h₀ (by norm_num [addressLimit] at *; omega)]
    norm_num [addressLimit] at *
    omega

/-- Aligned words that hold weak handles to null or to addresses in the lower half. -/
structure HoldsHandles (memory : Memory) (handles : Set ℕ) : Prop where
  aligned : ∀ a ∈ handles, a % wordSize = 0
  encoded : ∀ a ∈ handles, ∃ target < 2^63, readWord memory a = encodeWeakPtr target

/-- The memory with every word of a set cleared. -/
def zeroWords (memory : Memory) (handles : Set ℕ) [DecidablePred (· ∈ handles)] : Memory :=
  fun x => if x-x % wordSize ∈ handles then 0 else memory x

theorem readWord_zeroWords (memory : Memory) (handles : Set ℕ) [DecidablePred (· ∈ handles)]
    {x : ℕ} (hx : x % wordSize = 0) :
    readWord (zeroWords memory handles) x = if x ∈ handles then 0 else readWord memory x := by
  have hword : ∀ y, x ≤ y → y < x+wordSize → y-y % wordSize = x := by
    intro y hy hy'
    simp only [wordSize] at *
    omega
  split_ifs with hmem
  · have hzero : readWord (zeroWords memory handles) x = readWord (fun _ => 0) x := by
      refine Memory.readBytes_congr fun y hy hy' => ?_
      rw [zeroWords, hword y hy hy', if_pos hmem]
    rw [hzero]
    simp [readWord, wordSize, Memory.readBytes]
  · refine Memory.readBytes_congr fun y hy hy' => ?_
    rw [zeroWords, hword y hy hy', if_neg hmem]

/-- Two memories whose aligned words hit the same blocks. -/
def SameHits (blocks : List BlockRecord) (memory memory' : Memory) : Prop :=
  ∀ x, x % wordSize = 0 → ∀ b ∈ blocks, ∀ word, b.Contains word →
    (readWord memory x = word ↔ readWord memory' x = word)

section
variable {s : State} {memory : Memory} {collector : ThreadId} {env : ScanEnvironment}
  {b : BlockRecord} {word : ℕ}

theorem mem_rangeWords_congr {memory memory' : Memory} {blocks : List BlockRecord}
    (h : SameHits blocks memory memory') (hb : b ∈ blocks) (hc : b.Contains word)
    (begin_ end_ : ℕ) :
    word ∈ rangeWords memory begin_ end_ ↔ word ∈ rangeWords memory' begin_ end_ := by
  unfold rangeWords
  split_ifs
  · exact Iff.rfl
  · simp only [List.mem_map]
    refine exists_congr fun x => and_congr_right fun hx => ?_
    exact h x (mem_alignedWords.mp hx).1 b hb word hc

theorem rootWord_congr (h : SameHits s.allocations.values s.memory memory)
    (hb : b ∈ s.allocations.values) (hc : b.Contains word) :
    RootWord s collector env word ↔ RootWord { s with memory := memory } collector env word := by
  have hrange := mem_rangeWords_congr h hb hc
  have hthread : ∀ thread state, ThreadWord s collector env thread state word ↔
      ThreadWord { s with memory := memory } collector env thread state word := by
    intro thread state
    constructor
    · intro hw
      cases hw with
      | spill hne hw => exact .spill hne hw
      | parkedStack hne hw => exact .parkedStack hne ((hrange _ _).mp hw)
      | registers he hw => exact .registers he hw
      | stack he hw => exact .stack he ((hrange _ _).mp hw)
      | global he hi hseg hscan hw => exact .global he hi hseg hscan ((hrange _ _).mp hw)
    · intro hw
      cases hw with
      | spill hne hw => exact .spill hne hw
      | parkedStack hne hw => exact .parkedStack hne ((hrange _ _).mpr hw)
      | registers he hw => exact .registers he hw
      | stack he hw => exact .stack he ((hrange _ _).mpr hw)
      | global he hi hseg hscan hw => exact .global he hi hseg hscan ((hrange _ _).mpr hw)
  constructor
  · intro hw
    cases hw with
    | range hr hw => exact .range hr ((hrange _ _).mp hw)
    | thread ht hs hw => exact .thread ht hs ((hthread _ _).mp hw)
  · intro hw
    cases hw with
    | range hr hw => exact .range hr ((hrange _ _).mpr hw)
    | thread ht hs hw => exact .thread ht hs ((hthread _ _).mpr hw)

/-- What is retained depends on memory only through the blocks its aligned words hit. -/
theorem retained_congr (h : SameHits s.allocations.values s.memory memory) (b : BlockRecord) :
    Retained s collector env b ↔ Retained { s with memory := memory } collector env b := by
  have hroot : MarkRoot s collector env = MarkRoot { s with memory := memory } collector env := by
    funext block
    refine propext (and_congr_right fun hb => or_congr_right (exists_congr fun word => ?_))
    exact and_congr_left fun hc => rootWord_congr h hb hc
  have hedge : References s = References { s with memory := memory } := by
    funext u v
    refine propext (and_congr_right fun hv => exists_congr fun x => and_congr_right fun hx => ?_)
    have hsame := h x (mem_alignedWords.mp hx).1 v hv
    constructor
    · intro hc
      have heq := (hsame _ hc).mp rfl
      change v.Contains (readWord memory x)
      rw [heq]
      exact hc
    · intro hc
      have heq := (hsame _ hc).mpr rfl
      rw [heq]
      exact hc
  unfold Retained
  rw [hroot, hedge]

/-- The words of weak handles hit no block below `2^63`, whether they are cleared or not. -/
theorem HoldsHandles.sameHits {handles : Set ℕ} [DecidablePred (· ∈ handles)]
    (h : HoldsHandles s.memory handles) (hinv : HeapInvariant s)
    (hlow : ∀ b ∈ s.allocations.values, b.payloadEnd ≤ 2^63) :
    SameHits s.allocations.values s.memory (zeroWords s.memory handles) := by
  intro x hx b hb word hc
  have hbegin := (hinv.payload_bounds hb).1
  have hend := hlow b hb
  rw [readWord_zeroWords _ _ hx]
  split_ifs with hmem
  · obtain ⟨target,htarget,heq⟩ := h.encoded x hmem
    have hout : ¬ b.Contains 0 := by
      rintro ⟨h₀,-⟩
      unfold chunkHeaderSize at hbegin
      omega
    constructor
    · rintro rfl
      rw [heq] at hc
      rcases encodeWeakPtr_upper htarget with hzero | hupper
      · rw [hzero] at hc
        exact absurd hc hout
      · have := hc.2
        omega
    · rintro rfl
      exact absurd hc hout
  · exact Iff.rfl

end
end GcLib.Heap
