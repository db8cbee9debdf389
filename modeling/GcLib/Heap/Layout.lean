import Mathlib.Tactic

/-! # Block headers and 64-bit size arithmetic

Addresses and sizes are natural numbers below `2^64`; every operation of the source
that could wrap is taken modulo `2^64` here. The `marked` byte of a header is the
only field written after construction. It is kept apart from the header, in the
process state, so that headers themselves are immutable.
-/

namespace GcLib.Heap

def wordSize : ℕ := 8

/-- `2^64`, the modulus of `std::uintptr_t` and `std::size_t`. -/
def addressLimit : ℕ := 18446744073709551616

def sizeMax : ℕ := 18446744073709551615

/-- Irreducible, like `wrapSub`, so that unification never computes with `2^64`. -/
@[irreducible] def wrapAdd (a b : ℕ) : ℕ := (a+b) % addressLimit

@[irreducible] def wrapSub (a b : ℕ) : ℕ := (a+addressLimit-b) % addressLimit

theorem wrapAdd_of_lt {a b : ℕ} (h : a+b < addressLimit) : wrapAdd a b = a+b := by
  unfold wrapAdd
  exact Nat.mod_eq_of_lt h

theorem wrapAdd_lt (a b : ℕ) : wrapAdd a b < addressLimit := by
  unfold wrapAdd
  exact Nat.mod_lt _ (by norm_num [addressLimit])

theorem wrapSub_of_le {a b : ℕ} (hb : b ≤ a) (ha : a < addressLimit) : wrapSub a b = a-b := by
  unfold wrapSub addressLimit at *
  omega

def addWouldOverflow (lhs rhs : ℕ) : Bool := decide (lhs > sizeMax-rhs)

theorem addWouldOverflow_eq_false {lhs rhs : ℕ} (h : addWouldOverflow lhs rhs = false)
    (hr : rhs < addressLimit) : lhs+rhs < addressLimit := by
  have h := of_decide_eq_false h
  unfold sizeMax at h
  unfold addressLimit at *
  omega

def saturatingAdd (lhs rhs : ℕ) : ℕ := if addWouldOverflow lhs rhs then sizeMax else lhs+rhs

def kChunkMagicNumber : ℕ := 0x47434C42

/-- Header fields fixed at allocation; `destructor` is the address of the finalizer code. -/
structure ChunkHeader where
  size : ℕ := 0
  destructor : Option ℕ := none
  magicNumber : ℕ := kChunkMagicNumber
  payloadOffset : ℕ := 0
  alignmentShift : ℕ := 0
  deriving DecidableEq, Repr

/-- `sizeof(ChunkHeader)`, fixed by a static assertion of the source. -/
def chunkHeaderSize : ℕ := 32

/-- `alignof(std::max_align_t)`. -/
def maxAlignment : ℕ := 16

def normalizeAlignment (alignment : ℕ) : ℕ := max alignment maxAlignment

def hasSingleBit (x : ℕ) : Bool := decide (x ≠ 0) && decide (x &&& (x-1) = 0)

/-- Bitwise complement of a 64-bit word. -/
def complement (x : ℕ) : ℕ := sizeMax-x

/-- The mask and both guards of the source; `none` is its `std::bad_alloc`. -/
def roundUpToAlignment (value alignment : ℕ) : Option ℕ :=
  if alignment = 0 ∨ alignment &&& (alignment-1) ≠ 0 then none
  else if addWouldOverflow value (alignment-1) then none
  else some ((value+alignment-1) &&& complement (alignment-1))

def countrZeroAux : ℕ → ℕ → ℕ
  | 0, _ => 0
  | n+1, x => if x % 2 = 1 then 0 else 1+countrZeroAux n (x/2)

/-- `std::countr_zero` on 64 bits. -/
def countrZero (x : ℕ) : ℕ := countrZeroAux 64 x

/-- `set_allocation_alignment`: the shift is narrowed to eight bits. -/
def alignmentShiftOf (alignment : ℕ) : ℕ := countrZero alignment % 256

def ChunkHeader.allocationAlignment (header : ChunkHeader) : ℕ :=
  2^header.alignmentShift % addressLimit

def ChunkHeader.blockAllocationSize (header : ChunkHeader) : ℕ :=
  wrapAdd header.payloadOffset header.size

theorem and_pred_eq_zero_iff {a : ℕ} (ha : a ≠ 0) : a &&& (a-1) = 0 ↔ ∃ k, a = 2^k := by
  constructor
  · intro h
    refine ⟨Nat.log2 a,?_⟩
    by_contra hne
    have hle : 2^Nat.log2 a ≤ a := Nat.log2_self_le ha
    have hone : 1 ≤ 2^Nat.log2 a := Nat.one_le_two_pow
    have hbit : (a &&& (a-1)).testBit (Nat.log2 a) = true := by
      have h₁ : a.testBit (Nat.log2 a) = true := Nat.testBit_log2 ha
      have h₂ : (a-1).testBit (Nat.log2 a) = true := by
        have hl : Nat.log2 (a-1) = Nat.log2 a := by
          rw [Nat.log2_eq_iff (by omega)]
          have hlt : a < 2^(Nat.log2 a+1) := Nat.lt_log2_self
          omega
        rw [← hl]
        exact Nat.testBit_log2 (by omega)
      simp [Nat.testBit_and, h₁, h₂]
    rw [h] at hbit
    simp at hbit
  · rintro ⟨k,rfl⟩
    rw [Nat.and_two_pow_sub_one_eq_mod]
    exact Nat.mod_self _

/-- Clearing the low bits of a word rounds it down to a multiple of the power of two. -/
theorem and_complement_pred (x k : ℕ) (hx : x < addressLimit) :
    x &&& complement (2^k-1) = x - x % 2^k := by
  have hk : 1 ≤ 2^k := Nat.one_le_two_pow
  by_cases h64 : 64 ≤ k
  · have hp : 2^64 ≤ 2^k := Nat.pow_le_pow_right (by omega) h64
    have hc : complement (2^k-1) = 0 := by
      unfold complement sizeMax
      norm_num at hp
      omega
    have hm : x % 2^k = x := Nat.mod_eq_of_lt (by unfold addressLimit at hx; norm_num at hp; omega)
    simp [hc, hm]
  · have hlim : addressLimit = 2^64 := by norm_num [addressLimit]
    have hsplit : x - x % 2^k = x / 2^k * 2^k := by
      have := Nat.div_add_mod x (2^k)
      rw [mul_comm] at this
      omega
    have hcomp : complement (2^k-1) = (2^(64-k)-1) * 2^k := by
      have hpow : 2^(64-k) * 2^k = 2^64 := by rw [← pow_add]; congr 1; omega
      unfold complement sizeMax
      rw [Nat.sub_mul, hpow]
      norm_num
      omega
    rw [hsplit, hcomp]
    apply Nat.eq_of_testBit_eq
    intro i
    simp only [Nat.testBit_and, Nat.testBit_mul_two_pow, Nat.testBit_div_two_pow,
      Nat.testBit_two_pow_sub_one]
    by_cases hik : k ≤ i
    · have hki : i-k+k = i := by omega
      by_cases hi : i < 64
      · simp [hik, hki, show i-k < 64-k by omega]
      · have hx' : x.testBit i = false := by
          apply Nat.testBit_lt_two_pow
          rw [hlim] at hx
          exact hx.trans_le (Nat.pow_le_pow_right (by omega) (by omega))
        simp [hik, hki, hx']
    · simp [hik]

/-- A successful rounding is the least multiple of the alignment not below the value. -/
theorem roundUpToAlignment_eq_some {value alignment r : ℕ} (ha : alignment < addressLimit)
    (h : roundUpToAlignment value alignment = some r) :
    value ≤ r ∧ r < value+alignment ∧ r % alignment = 0 ∧ r < addressLimit ∧
      ∃ k, alignment = 2^k := by
  unfold roundUpToAlignment at h
  split_ifs at h with h₁ h₂
  push Not at h₁
  obtain ⟨k,hk⟩ := (and_pred_eq_zero_iff h₁.1).mp h₁.2
  have hsum := addWouldOverflow_eq_false (by simpa using h₂) (by omega)
  have hr : value+alignment-1 - (value+alignment-1) % alignment = r := by
    have hx : value+alignment-1 < addressLimit := by omega
    have he := and_complement_pred (value+alignment-1) k hx
    rw [← hk] at he
    rw [← he]
    exact Option.some.inj h
  have hpos : 0 < alignment := Nat.pos_of_ne_zero h₁.1
  have hlt := Nat.mod_lt (value+alignment-1) hpos
  have hdvd : r % alignment = 0 := by
    rw [← hr]
    exact Nat.sub_mod_eq_zero_of_mod_eq (Nat.mod_mod _ _).symm
  refine ⟨by omega,by omega,hdvd,by omega,k,hk⟩

theorem hasSingleBit_eq_true {x : ℕ} : hasSingleBit x = true ↔ ∃ k, x = 2^k := by
  simp only [hasSingleBit, Bool.and_eq_true, decide_eq_true_eq]
  constructor
  · rintro ⟨h₀,h⟩
    exact (and_pred_eq_zero_iff h₀).mp h
  · rintro ⟨k,rfl⟩
    exact ⟨Nat.two_pow_pos k |>.ne',(and_pred_eq_zero_iff (Nat.two_pow_pos k).ne').mpr ⟨k,rfl⟩⟩

/-- Rounding to a power of two succeeds where the sum fits in a word. -/
theorem roundUpToAlignment_two_pow {value k : ℕ} (h : value+2^k-1 < addressLimit) :
    roundUpToAlignment value (2^k) = some ((value+2^k-1)/2^k*2^k) := by
  have hpos : 0 < 2^k := Nat.two_pow_pos k
  have hbit : 2^k &&& (2^k-1) = 0 := (and_pred_eq_zero_iff hpos.ne').mpr ⟨k,rfl⟩
  have hfits : addWouldOverflow value (2^k-1) = false := by
    unfold addWouldOverflow sizeMax
    unfold addressLimit at h
    exact decide_eq_false (by omega)
  have hdiv := Nat.div_add_mod (value+2^k-1) (2^k)
  rw [mul_comm] at hdiv
  unfold roundUpToAlignment
  rw [if_neg (by simp [hbit]), hfits, if_neg (by simp), and_complement_pred _ k h]
  congr 1
  omega

theorem countrZeroAux_two_pow : ∀ {n k : ℕ}, k < n → countrZeroAux n (2^k) = k
  | n+1, 0, _ => by simp [countrZeroAux]
  | n+1, k+1, h => by
    have heven : 2^(k+1) % 2 = 0 := by rw [pow_succ, Nat.mul_mod_left]
    have hhalf : 2^(k+1)/2 = 2^k := by rw [pow_succ, Nat.mul_div_cancel _ (by norm_num)]
    rw [countrZeroAux, heven, if_neg (by norm_num), hhalf, countrZeroAux_two_pow (by omega)]
    omega

/-- The eight-bit shift gives back every alignment that fits in a word. -/
theorem allocationAlignment_eq {header : ChunkHeader} {alignment : ℕ}
    (hlt : alignment < addressLimit) (hpow : ∃ k, alignment = 2^k)
    (hs : header.alignmentShift = alignmentShiftOf alignment) :
    header.allocationAlignment = alignment := by
  obtain ⟨k,rfl⟩ := hpow
  have hk : k < 64 := by
    have hlim : addressLimit = 2^64 := by norm_num [addressLimit]
    rw [hlim] at hlt
    exact (Nat.pow_lt_pow_iff_right (by norm_num)).mp hlt
  have hshift : alignmentShiftOf (2^k) = k := by
    rw [alignmentShiftOf, countrZero, countrZeroAux_two_pow hk]
    exact Nat.mod_eq_of_lt (by omega)
  rw [ChunkHeader.allocationAlignment, hs, hshift]
  exact Nat.mod_eq_of_lt hlt

end GcLib.Heap
