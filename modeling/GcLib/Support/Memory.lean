import Mathlib.Tactic

/-! # Byte memory

A flat memory maps every address to a byte. Multi-byte values are read and written
in little-endian order, so a read sees a write exactly when it covers the same
bytes and is untouched by a write elsewhere.
-/

namespace GcLib.Support

abbrev Memory := ℕ → UInt8

namespace Memory

/-- The little-endian value of the `n` bytes from `a`. -/
def readBytes (m : Memory) (a : ℕ) : ℕ → ℕ
  | 0 => 0
  | n+1 => (m a).toNat + 256 * readBytes m (a+1) n

def writeBytes (m : Memory) (a v n : ℕ) : Memory :=
  fun x => if a ≤ x ∧ x < a+n then UInt8.ofNat (v / 256^(x-a)) else m x

theorem readBytes_congr {m m' : Memory} {a n : ℕ} (h : ∀ x, a ≤ x → x < a+n → m x = m' x) :
    readBytes m a n = readBytes m' a n := by
  induction n generalizing a with
  | zero => rfl
  | succ n ih =>
    rw [readBytes, readBytes, h a le_rfl (by omega),
      ih (fun x hx hx' => h x (by omega) (by omega))]

theorem readBytes_writeBytes_aux (m : Memory) (a v k n j : ℕ) (hj : j+k = n) :
    readBytes (writeBytes m a v n) (a+j) k = v / 256^j % 256^k := by
  induction k generalizing j with
  | zero => simp [readBytes, Nat.mod_one]
  | succ k ih =>
    have hb : (writeBytes m a v n (a+j)).toNat = v / 256^j % 256 := by
      simp [writeBytes, show j < n by omega]
    rw [readBytes, hb, show a+j+1 = a+(j+1) by omega, ih (j+1) (by omega), pow_succ,
      ← Nat.div_div_eq_div_mul, pow_succ, mul_comm (256^k) 256, Nat.mod_mul]

/-- A value that fits is read back from the bytes it was written to. -/
theorem readBytes_writeBytes (m : Memory) {a v n : ℕ} (hv : v < 256^n) :
    readBytes (writeBytes m a v n) a n = v := by
  have h := readBytes_writeBytes_aux m a v n n 0 (by omega)
  simpa [Nat.mod_eq_of_lt hv] using h

/-- Writes elsewhere leave a read alone. -/
theorem readBytes_writeBytes_disjoint (m : Memory) {a b v n k : ℕ}
    (h : a+n ≤ b ∨ b+k ≤ a) : readBytes (writeBytes m a v n) b k = readBytes m b k := by
  apply readBytes_congr
  intro x hx hx'
  simp only [writeBytes]
  rw [if_neg (by omega)]

theorem writeBytes_outside (m : Memory) {a v n x : ℕ} (h : x < a ∨ a+n ≤ x) :
    writeBytes m a v n x = m x := by
  simp only [writeBytes]
  rw [if_neg (by omega)]

theorem readBytes_eq_zero {m : Memory} {a n : ℕ} (h : ∀ x, a ≤ x → x < a+n → m x = 0) :
    readBytes m a n = 0 := by
  induction n generalizing a with
  | zero => rfl
  | succ n ih =>
    rw [readBytes, h a le_rfl (by omega), ih (fun x hx hx' => h x (by omega) (by omega))]
    rfl

end Memory
end GcLib.Support
