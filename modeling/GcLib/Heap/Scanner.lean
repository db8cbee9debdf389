import GcLib.Heap.State

/-! # Conservative word scanning

Two loops walk memory a word at a time. The root scanner subtracts, so it stops at
the top of the address space; the payload loop of the collector adds with
wraparound, so it never leaves a payload that ends in the last eight bytes. Both
visit exactly the aligned complete words of their range when they stop.
-/

namespace GcLib.Heap
open Support

variable {α : Type}

/-- `for (cur = begin; cur + word_size <= end; cur += word_size)`, as written three times
in the collector. -/
def forPayloadWords (payloadEnd : ℕ) (body : α → ℕ → M α) : ℕ → ℕ → α → M α
  | 0, _, _ => Exec.diverge
  | fuel+1, cur, a =>
    if wrapAdd cur wordSize ≤ payloadEnd then
      body a cur >>= forPayloadWords payloadEnd body fuel (wrapAdd cur wordSize)
    else pure a

/-- `for (cur = start; finish - cur >= word_size; cur += word_size)` of `scan_words`. -/
def scanWordsLoop (finish : ℕ) (visitor : α → ℕ → M α) : ℕ → ℕ → α → M α
  | 0, _, _ => Exec.diverge
  | fuel+1, cur, a =>
    if wrapSub finish cur ≥ wordSize then do
      let s ← Exec.get
      let a ← visitor a (readWord s.memory cur)
      scanWordsLoop finish visitor fuel (wrapAdd cur wordSize) a
    else pure a

/-- `scan_words` once its endpoints are in order. -/
def scanAscending (fuel start finish : ℕ) (visitor : α → ℕ → M α) (a : α) : M α :=
  let padding := (wordSize-start % wordSize) % wordSize
  if wrapSub finish start < padding then pure a
  else scanWordsLoop finish visitor fuel (wrapAdd start padding) a

def scanWords (fuel begin_ end_ : ℕ) (visitor : α → ℕ → M α) (a : α) : M α :=
  if begin_ = 0 ∨ end_ = 0 then pure a
  else if begin_ > end_ then scanAscending fuel end_ begin_ visitor a
  else scanAscending fuel begin_ end_ visitor a

/-- One program header of a loaded image. -/
structure Segment where
  isLoad : Bool
  readable : Bool
  writable : Bool
  vaddr : ℕ
  memsz : ℕ
  deriving DecidableEq, Repr

structure LoadedImage where
  addr : ℕ
  segments : List Segment
  deriving DecidableEq, Repr

/-- What a collection finds outside the heap: the words `setjmp` stores, the address of the
collecting frame, the loaded images, and the time the collection took. -/
structure ScanEnvironment where
  registers : List ℕ := []
  localMarker : ℕ := 0
  images : List LoadedImage := []
  duration : ℕ := 0
  deriving DecidableEq, Repr

def scanStackRange (fuel stackTop stackBottom : ℕ) (visitor : α → ℕ → M α) (a : α) : M α :=
  if stackTop = 0 ∨ stackBottom = 0 then pure a
  else scanWords fuel stackTop stackBottom visitor a

/-- `jmp_buf` is an aligned array, so scanning it visits each of its words. -/
def scanRegisters (env : ScanEnvironment) (visitor : α → ℕ → M α) (a : α) : M α :=
  env.registers.foldlM visitor a

def Segment.isScanned (segment : Segment) (addr : ℕ) : Bool :=
  segment.isLoad && (segment.readable && segment.writable) && decide (segment.memsz ≠ 0) &&
    !decide (segment.memsz > sizeMax-wrapAdd addr segment.vaddr)

/-- An exception of the visitor ends the iteration and is rethrown after it. -/
def scanLinuxImage (fuel : ℕ) (visitor : α → ℕ → M α) (image : LoadedImage) (a : α) : M α :=
  image.segments.foldlM (fun a segment =>
    if segment.isScanned image.addr then
      scanWords fuel (wrapAdd image.addr segment.vaddr)
        (wrapAdd image.addr segment.vaddr+segment.memsz) visitor a
    else pure a) a

def scanGlobals (fuel : ℕ) (env : ScanEnvironment) (visitor : α → ℕ → M α) (a : α) : M α :=
  env.images.foldlM (fun a image => scanLinuxImage fuel visitor image a) a

/-- `RootScanner::scan`, run by the collecting thread on itself. -/
def rootScan (fuel stackBottom : ℕ) (env : ScanEnvironment) (visitor : α → ℕ → M α) (a : α) :
    M α := do
  let a ← scanRegisters env visitor a
  let a ← scanStackRange fuel env.localMarker stackBottom visitor a
  scanGlobals fuel env visitor a

/-- The aligned complete words of `[lo, hi)` in ascending order. -/
def alignedWords (lo hi : ℕ) : List ℕ :=
  let first := (lo+(wordSize-1)) / wordSize * wordSize
  (List.range ((hi-first) / wordSize)).map (fun i => first+wordSize*i)

theorem mem_alignedWords {lo hi x : ℕ} :
    x ∈ alignedWords lo hi ↔ x % wordSize = 0 ∧ lo ≤ x ∧ x+wordSize ≤ hi := by
  simp only [alignedWords, wordSize, List.mem_map, List.mem_range]
  constructor
  · rintro ⟨i,hi',rfl⟩
    omega
  · rintro ⟨h₁,h₂,h₃⟩
    exact ⟨(x-(lo+7)/8*8)/8,by omega,by omega⟩

theorem alignedWords_eq_nil {lo hi : ℕ} (hlo : lo % wordSize = 0) (h : hi < lo+wordSize) :
    alignedWords lo hi = [] := by
  have hz : (hi-(lo+(wordSize-1))/wordSize*wordSize)/wordSize = 0 := by
    simp only [wordSize] at *
    omega
  simp [alignedWords, hz]

theorem alignedWords_eq_cons {lo hi : ℕ} (hlo : lo % wordSize = 0) (h : lo+wordSize ≤ hi) :
    alignedWords lo hi = lo :: alignedWords (lo+wordSize) hi := by
  simp only [alignedWords, wordSize] at *
  rw [show (lo+(8-1))/8*8 = lo by omega, show (lo+8+(8-1))/8*8 = lo+8 by omega,
    show (hi-lo)/8 = (hi-(lo+8))/8+1 by omega, List.range_succ_eq_map]
  simp only [List.map_cons, List.map_map, Nat.mul_zero, Nat.add_zero, List.cons.injEq, true_and]
  apply List.map_congr_left
  intro i _
  simp only [Function.comp_apply]
  omega

/-- Skipping the bytes before the first aligned word skips no word. -/
theorem alignedWords_padding {start finish padding : ℕ} (hp : padding < wordSize)
    (ha : (start+padding) % wordSize = 0) :
    alignedWords start finish = alignedWords (start+padding) finish := by
  have hround : (start+padding+(wordSize-1)) / wordSize * wordSize =
      (start+(wordSize-1)) / wordSize * wordSize := by
    simp only [wordSize] at *
    omega
  rw [alignedWords, alignedWords, hround]

/-- A range shorter than its padding holds no word. -/
theorem alignedWords_of_short {start finish padding : ℕ} (hp : padding < wordSize)
    (ha : (start+padding) % wordSize = 0) (h : finish < start+padding) :
    alignedWords start finish = [] := by
  rw [alignedWords_padding hp ha]
  exact alignedWords_eq_nil ha (by omega)

section Rules
variable {E : GCError → State → Prop} {J : α → State → Prop} {I : List ℕ → α → State → Prop}

/-- Whatever the loop does, it does through its body. -/
theorem meets_forPayloadWords_frame {payloadEnd : ℕ} {body : α → ℕ → M α}
    (hJ : ∀ x a s, J a s → (body a x).Meets s J E) (fuel : ℕ) :
    ∀ {cur : ℕ} {a : α} {s : State}, J a s →
      (forPayloadWords payloadEnd body fuel cur a).Meets s J E := by
  induction fuel with
  | zero => exact fun _ => Exec.meets_diverge
  | succ fuel ih =>
    intro cur a s h
    rw [forPayloadWords]
    split_ifs
    · exact Exec.meets_bind ((hJ cur a s h).mono (fun _ _ h' => ih h') (fun _ _ => id))
    · exact Exec.meets_pure h

/-- A payload ending in the last eight bytes of the address space is never left. -/
theorem forPayloadWords_never_returns {payloadEnd : ℕ} (body : α → ℕ → M α)
    (hend : addressLimit ≤ payloadEnd+wordSize) (fuel : ℕ) :
    ∀ {cur : ℕ} {a : α} {s : State}, cur % wordSize = 0 →
      (forPayloadWords payloadEnd body fuel cur a).Meets s (fun _ _ => False) (fun _ _ => True) := by
  induction fuel with
  | zero => exact fun _ => Exec.meets_diverge
  | succ fuel ih =>
    intro cur a s hcur
    have hnext : wrapAdd cur wordSize % wordSize = 0 ∧ wrapAdd cur wordSize ≤ payloadEnd := by
      simp only [wrapAdd, wordSize, addressLimit] at *
      omega
    rw [forPayloadWords, if_pos hnext.2]
    have hbody : (body a cur).Meets s (fun _ _ => True) (fun _ _ => True) := by
      intro b
      cases body a cur s b <;> trivial
    exact Exec.meets_bind (hbody.mono (fun _ _ _ => ih hnext.1) (fun _ _ => id))

theorem meets_forPayloadWords_of_lt {payloadEnd : ℕ} {body : α → ℕ → M α}
    (hend : payloadEnd+wordSize < addressLimit)
    (hI : ∀ x l a s, I (x :: l) a s → (body a x).Meets s (I l) E) (fuel : ℕ) :
    ∀ {cur : ℕ} {a : α} {s : State}, cur % wordSize = 0 → cur ≤ payloadEnd →
      I (alignedWords cur payloadEnd) a s →
      (forPayloadWords payloadEnd body fuel cur a).Meets s (I []) E := by
  induction fuel with
  | zero => exact fun _ _ _ => Exec.meets_diverge
  | succ fuel ih =>
    intro cur a s hcur hle h
    have hnext : wrapAdd cur wordSize = cur+wordSize := wrapAdd_of_lt (by omega)
    rw [forPayloadWords, hnext]
    split_ifs with hc
    · rw [alignedWords_eq_cons hcur hc] at h
      exact Exec.meets_bind ((hI _ _ _ _ h).mono
        (fun _ _ h' => ih (by simp only [wordSize] at *; omega) hc h') (fun _ _ => id))
    · rw [alignedWords_eq_nil hcur (by omega)] at h
      exact Exec.meets_pure h

/-- The payload loop visits the aligned complete words of the payload, in order. -/
theorem meets_forPayloadWords {payloadEnd fuel cur : ℕ} {body : α → ℕ → M α} {a : α} {s : State}
    (hcur : cur % wordSize = 0) (hle : cur ≤ payloadEnd)
    (hIJ : ∀ l a s, I l a s → J a s) (hJ : ∀ x a s, J a s → (body a x).Meets s J E)
    (hI : ∀ x l a s, I (x :: l) a s → (body a x).Meets s (I l) E)
    (h : I (alignedWords cur payloadEnd) a s) :
    (forPayloadWords payloadEnd body fuel cur a).Meets s (I []) E := by
  by_cases hend : payloadEnd+wordSize < addressLimit
  · exact meets_forPayloadWords_of_lt hend hI fuel hcur hle h
  · intro b
    have hnever : (forPayloadWords payloadEnd body fuel cur a).Meets s (fun _ _ => False)
        (fun _ _ => True) := forPayloadWords_never_returns body (not_lt.mp hend) fuel hcur
    have hframe : (forPayloadWords payloadEnd body fuel cur a).Meets s J E :=
      meets_forPayloadWords_frame hJ fuel (hIJ _ _ _ h)
    have hn := hnever b
    have hf := hframe b
    revert hn hf
    cases forPayloadWords payloadEnd body fuel cur a s b with
    | returns a s' _ => exact fun hn _ => hn.elim
    | throws e s' => exact fun _ => id
    | diverges => exact fun _ => id

/-- The values of the aligned complete words between two addresses, given in either order. -/
def rangeWords (memory : Memory) (begin_ end_ : ℕ) : List ℕ :=
  if begin_ = 0 ∨ end_ = 0 then []
  else (alignedWords (min begin_ end_) (max begin_ end_)).map (readWord memory)

theorem meets_scanWordsLoop {finish : ℕ} {visitor : α → ℕ → M α} {memory : Memory}
    (hfin : finish < addressLimit)
    (hmem : ∀ l a s, I l a s → s.memory = memory)
    (hI : ∀ w l a s, I (w :: l) a s → (visitor a w).Meets s (I l) E) (fuel : ℕ) :
    ∀ {cur : ℕ} {a : α} {s : State}, cur % wordSize = 0 → cur ≤ finish →
      I ((alignedWords cur finish).map (readWord memory)) a s →
      (scanWordsLoop finish visitor fuel cur a).Meets s (I []) E := by
  induction fuel with
  | zero => exact fun _ _ _ => Exec.meets_diverge
  | succ fuel ih =>
    intro cur a s hcur hle h
    rw [scanWordsLoop, wrapSub_of_le hle hfin]
    split_ifs with hc
    · have hnext : wrapAdd cur wordSize = cur+wordSize := wrapAdd_of_lt (by omega)
      rw [alignedWords_eq_cons hcur (by omega), List.map_cons] at h
      refine Exec.meets_bind (Exec.meets_get ?_)
      rw [hmem _ _ _ h, hnext]
      exact Exec.meets_bind ((hI _ _ _ _ h).mono
        (fun _ _ h' => ih (by simp only [wordSize] at *; omega) (by omega) h') (fun _ _ => id))
    · rw [alignedWords_eq_nil hcur (by omega), List.map_nil] at h
      exact Exec.meets_pure h

theorem meets_scanAscending {fuel start finish : ℕ} {visitor : α → ℕ → M α} {memory : Memory}
    {a : α} {s : State} (hle : start ≤ finish) (hfin : finish < addressLimit)
    (hmem : ∀ l a s, I l a s → s.memory = memory)
    (hI : ∀ w l a s, I (w :: l) a s → (visitor a w).Meets s (I l) E)
    (h : I ((alignedWords start finish).map (readWord memory)) a s) :
    (scanAscending fuel start finish visitor a).Meets s (I []) E := by
  unfold scanAscending
  simp only [wrapSub_of_le hle hfin]
  generalize hp : (wordSize-start % wordSize) % wordSize = padding
  have hpad : padding < wordSize ∧ (start+padding) % wordSize = 0 := by
    simp only [wordSize] at *
    omega
  split_ifs with hshort
  · rw [alignedWords_of_short hpad.1 hpad.2 (by omega)] at h
    exact Exec.meets_pure h
  · rw [alignedWords_padding hpad.1 hpad.2] at h
    rw [wrapAdd_of_lt (by omega)]
    exact meets_scanWordsLoop hfin hmem hI fuel hpad.2 (by omega) h

/-- The root scanner visits the words of `rangeWords`, in order. -/
theorem meets_scanWords {fuel begin_ end_ : ℕ} {visitor : α → ℕ → M α} {memory : Memory}
    {a : α} {s : State} (hb : begin_ < addressLimit) (he : end_ < addressLimit)
    (hmem : ∀ l a s, I l a s → s.memory = memory)
    (hI : ∀ w l a s, I (w :: l) a s → (visitor a w).Meets s (I l) E)
    (h : I (rangeWords memory begin_ end_) a s) :
    (scanWords fuel begin_ end_ visitor a).Meets s (I []) E := by
  unfold scanWords
  unfold rangeWords at h
  split_ifs at h ⊢ with h₀ h₁
  · exact Exec.meets_pure h
  · rw [min_eq_right (by omega), max_eq_left (by omega)] at h
    exact meets_scanAscending (by omega) hb hmem hI h
  · rw [min_eq_left (by omega), max_eq_right (by omega)] at h
    exact meets_scanAscending (by omega) he hmem hI h

end Rules
end GcLib.Heap
