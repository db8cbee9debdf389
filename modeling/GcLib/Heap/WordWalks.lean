import GcLib.Heap.OrderTermination

/-! # What the word loops read

With enough fuel both loops are folds over the aligned complete words of their range.
A second form of the root scanner stops where one of its sums or differences would
wrap. It computes the same as the source, so none of them does.
-/

namespace GcLib.Heap
open Support

variable {α : Type}

/-- A loop body that reads one word and hands it to a visitor. -/
def visitWord (visitor : α → ℕ → M α) (a : α) (address : ℕ) : M α := do
  let s ← Exec.get
  visitor a (readWord s.memory address)

def scanRange (fuel begin_ end_ : ℕ) (visitor : α → ℕ → M α) (a : α) : M α :=
  scanWords fuel begin_ end_ visitor a

def scanThreadStack (fuel stackTop stackBottom : ℕ) (visitor : α → ℕ → M α) (a : α) : M α :=
  scanStackRange fuel stackTop stackBottom visitor a

/-- One of the payload loops of the collector. -/
def payloadWalk (fuel : ℕ) (block : BlockRecord) (visitor : α → ℕ → M α) (a : α) : M α :=
  forPayloadWords block.payloadEnd (visitWord visitor) fuel block.payloadBegin a

/-! ## The root scanner without wrapping -/

/-- A sum that fits in a word. -/
def addWithin (a b : ℕ) : M ℕ := if a+b < addressLimit then pure (a+b) else Exec.diverge

/-- A difference that is not negative. -/
def subWithin (a b : ℕ) : M ℕ := if b ≤ a then pure (a-b) else Exec.diverge

def scanWordsLoopWithin (finish : ℕ) (visitor : α → ℕ → M α) : ℕ → ℕ → α → M α
  | 0, _, _ => Exec.diverge
  | fuel+1, cur, a => do
    let left ← subWithin finish cur
    if left ≥ wordSize then
      let s ← Exec.get
      let a ← visitor a (readWord s.memory cur)
      let cur ← addWithin cur wordSize
      scanWordsLoopWithin finish visitor fuel cur a
    else pure a

def scanAscendingWithin (fuel start finish : ℕ) (visitor : α → ℕ → M α) (a : α) : M α := do
  let padding ← subWithin wordSize (start % wordSize)
  let padding := padding % wordSize
  let left ← subWithin finish start
  if left < padding then pure a
  else do
    let start ← addWithin start padding
    scanWordsLoopWithin finish visitor fuel start a

def scanWordsWithin (fuel begin_ end_ : ℕ) (visitor : α → ℕ → M α) (a : α) : M α :=
  if begin_ = 0 ∨ end_ = 0 then pure a
  else if begin_ > end_ then scanAscendingWithin fuel end_ begin_ visitor a
  else scanAscendingWithin fuel begin_ end_ visitor a

theorem addWithin_bind {β : Type} {a b : ℕ} (h : a+b < addressLimit) (f : ℕ → M β) :
    addWithin a b >>= f = f (a+b) := by
  unfold addWithin
  rw [if_pos h]
  rfl

theorem subWithin_bind {β : Type} {a b : ℕ} (h : b ≤ a) (f : ℕ → M β) :
    subWithin a b >>= f = f (a-b) := by
  unfold subWithin
  rw [if_pos h]
  rfl

section
variable {visitor : α → ℕ → M α} {finish : ℕ}

/-- No round of the loop wraps, whichever fuel it is given. -/
theorem scanWordsLoop_within (hfin : finish < addressLimit) (fuel : ℕ) :
    ∀ {cur : ℕ} {a : α}, cur ≤ finish →
      scanWordsLoop finish visitor fuel cur a = scanWordsLoopWithin finish visitor fuel cur a := by
  induction fuel with
  | zero => exact fun _ => rfl
  | succ fuel ih =>
    intro cur a hle
    rw [scanWordsLoop, scanWordsLoopWithin, subWithin_bind hle, wrapSub_of_le hle hfin]
    split_ifs with hc
    · have hnext : cur+wordSize < addressLimit := by omega
      rw [wrapAdd_of_lt hnext]
      refine congrArg _ (funext fun s => congrArg _ (funext fun a' => ?_))
      rw [addWithin_bind hnext]
      exact ih (by omega)
    · rfl

theorem scanAscending_within {start : ℕ} (hle : start ≤ finish) (hfin : finish < addressLimit)
    (fuel : ℕ) (a : α) :
    scanAscending fuel start finish visitor a = scanAscendingWithin fuel start finish visitor a := by
  have hmod : start % wordSize ≤ wordSize := (Nat.mod_lt _ (by decide)).le
  unfold scanAscending scanAscendingWithin
  rw [subWithin_bind hmod, subWithin_bind hle]
  simp only [wrapSub_of_le hle hfin]
  split_ifs with hshort
  · rfl
  · rw [addWithin_bind (by omega), wrapAdd_of_lt (by omega)]
    exact scanWordsLoop_within hfin fuel (by omega)

theorem scanWords_within {begin_ end_ : ℕ} (hb : begin_ < addressLimit) (he : end_ < addressLimit)
    (fuel : ℕ) (a : α) :
    scanWords fuel begin_ end_ visitor a = scanWordsWithin fuel begin_ end_ visitor a := by
  unfold scanWords scanWordsWithin
  split_ifs with h₀ h₁
  · rfl
  · exact scanAscending_within h₁.le hb fuel a
  · exact scanAscending_within (by omega) he fuel a

/-! ## The loops as folds -/

theorem alignedWords_pairwise (lo hi : ℕ) : (alignedWords lo hi).Pairwise (· < ·) := by
  refine List.Pairwise.map _ (fun i j hij => ?_) List.pairwise_lt_range
  have hpos : 0 < wordSize := by decide
  exact Nat.add_lt_add_left (Nat.mul_lt_mul_of_pos_left hij hpos) _

/-- Reading a word and going on is one round of the fold. -/
theorem visitWord_bind {β : Type} (a : α) (address : ℕ) (f : α → M β) :
    (visitWord visitor a address >>= f) = (do
      let s ← Exec.get
      let a ← visitor a (readWord s.memory address)
      f a) := rfl

theorem scanWordsLoop_eq_foldlM (hfin : finish < addressLimit) (fuel : ℕ) :
    ∀ {cur : ℕ} {a : α}, finish-cur < wordSize*fuel → cur % wordSize = 0 → cur ≤ finish →
      scanWordsLoop finish visitor fuel cur a =
        (alignedWords cur finish).foldlM (visitWord visitor) a := by
  induction fuel with
  | zero => exact fun hfuel => absurd hfuel (Nat.not_lt_zero _)
  | succ fuel ih =>
    intro cur a hfuel hcur hle
    rw [scanWordsLoop, wrapSub_of_le hle hfin]
    split_ifs with hc
    · have hnext : wrapAdd cur wordSize = cur+wordSize := wrapAdd_of_lt (by omega)
      rw [alignedWords_eq_cons hcur (by omega), List.foldlM_cons, visitWord_bind, hnext]
      refine congrArg _ (funext fun s => congrArg _ (funext fun a' => ?_))
      exact ih (by simp only [wordSize] at *; omega) (by simp only [wordSize] at *; omega) (by omega)
    · rw [alignedWords_eq_nil hcur (by omega)]
      rfl

theorem scanAscending_eq_foldlM {fuel start : ℕ} {a : α} (hle : start ≤ finish)
    (hfin : finish < addressLimit) (hfuel : finish-start < wordSize*fuel) :
    scanAscending fuel start finish visitor a =
      (alignedWords start finish).foldlM (visitWord visitor) a := by
  unfold scanAscending
  simp only [wrapSub_of_le hle hfin]
  generalize hp : (wordSize-start % wordSize) % wordSize = padding
  have hpad : padding < wordSize ∧ (start+padding) % wordSize = 0 := by
    simp only [wordSize] at *
    omega
  split_ifs with hshort
  · rw [alignedWords_of_short hpad.1 hpad.2 (by omega)]
    rfl
  · rw [wrapAdd_of_lt (by omega), alignedWords_padding hpad.1 hpad.2]
    exact scanWordsLoop_eq_foldlM hfin fuel (by omega) hpad.2 (by omega)

/-- The root scanner reads the aligned complete words between its endpoints, in order. -/
theorem scanWords_eq_foldlM {fuel begin_ end_ : ℕ} {a : α} (hb₀ : begin_ ≠ 0) (he₀ : end_ ≠ 0)
    (hb : begin_ < addressLimit) (he : end_ < addressLimit)
    (hfuel : max begin_ end_-min begin_ end_ < wordSize*fuel) :
    scanWords fuel begin_ end_ visitor a =
      (alignedWords (min begin_ end_) (max begin_ end_)).foldlM (visitWord visitor) a := by
  unfold scanWords
  rw [if_neg (by simp [hb₀,he₀])]
  split_ifs with h₁
  · rw [min_eq_right h₁.le, max_eq_left h₁.le] at hfuel ⊢
    exact scanAscending_eq_foldlM h₁.le hb hfuel
  · have hle : begin_ ≤ end_ := by omega
    rw [min_eq_left hle, max_eq_right hle] at hfuel ⊢
    exact scanAscending_eq_foldlM hle he hfuel

theorem forPayloadWords_eq_foldlM {body : α → ℕ → M α} (hend : finish+wordSize < addressLimit)
    (fuel : ℕ) :
    ∀ {cur : ℕ} {a : α}, finish-cur < wordSize*fuel → cur % wordSize = 0 → cur ≤ finish →
      forPayloadWords finish body fuel cur a = (alignedWords cur finish).foldlM body a := by
  induction fuel with
  | zero => exact fun hfuel => absurd hfuel (Nat.not_lt_zero _)
  | succ fuel ih =>
    intro cur a hfuel hcur hle
    have hnext : wrapAdd cur wordSize = cur+wordSize := wrapAdd_of_lt (by omega)
    rw [forPayloadWords, hnext]
    split_ifs with hc
    · rw [alignedWords_eq_cons hcur hc, List.foldlM_cons]
      refine congrArg _ (funext fun a' => ?_)
      exact ih (by simp only [wordSize] at *; omega) (by simp only [wordSize] at *; omega) hc
    · rw [alignedWords_eq_nil hcur (by omega)]
      rfl

end
end GcLib.Heap
