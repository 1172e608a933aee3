import Mathlib.Logic.Basic
import Mathlib.Algebra.Order.Group.Nat
import Mathlib.Tactic.Ring

/-!
# Little-endian fields of a byte array

Blocks of memory are functions from offsets to bytes. A C integer of `k` bytes
at offset `o` is `getLE b o k`, and assigning to it is `setLE b o k v`. A copy of
bytes into a block is a `patch`, and a bitmap kept in a block is read and written
bit by bit.

Nothing is said about alignment, and a field that does not lie inside the block
reads as zeros beyond its end.

* `getLE_setLE`, `getLE_setLE_disjoint`: a field reads back what was stored, and
  a store elsewhere leaves it alone;
* `getLE_patch_disjoint`: so does a copy elsewhere;
* `getBit_setBit`, `getBit_clearBit`: one bit changes and the others stay.
-/

namespace Xv6.Lib

variable {n : Nat}

/-- The byte at `o`, zero outside the array. -/
def getByte (b : Fin n → UInt8) (o : Nat) : Nat :=
  if h : o < n then (b ⟨o, h⟩).toNat else 0

/-- The unsigned integer in the `k` bytes at `o`. -/
def getLE (b : Fin n → UInt8) (o : Nat) : Nat → Nat
  | 0 => 0
  | k + 1 => getByte b o + 256 * getLE b (o + 1) k

/-- Store the low `k` bytes of `v` at `o`. -/
def setLE (b : Fin n → UInt8) (o k v : Nat) : Fin n → UInt8 := fun i =>
  if o ≤ i.1 ∧ i.1 < o + k then UInt8.ofNat (v / 256 ^ (i.1 - o)) else b i

theorem getByte_lt (b : Fin n → UInt8) (o : Nat) : getByte b o < 256 := by
  unfold getByte
  split
  · exact UInt8.toNat_lt _
  · decide

theorem getByte_setLE_of_mem (b : Fin n → UInt8) {o k i : Nat} (v : Nat) (hn : o + k ≤ n)
    (hi : i < k) : getByte (setLE b o k v) (o + i) = v / 256 ^ i % 256 := by
  have hlt : o + i < n := by omega
  rw [getByte, dif_pos hlt, setLE, if_pos ⟨Nat.le_add_right _ _, by show o + i < o + k; omega⟩]
  simp

/-- Writing a word leaves the bytes outside it. -/
theorem getByte_setLE_of_notMem (b : Fin n → UInt8) {o k i : Nat} (v : Nat)
    (hi : i < o ∨ o + k ≤ i) : getByte (setLE b o k v) i = getByte b i := by
  unfold getByte
  split
  · rw [setLE, if_neg]
    simp only
    omega
  · rfl

/-- A word depends on its own bytes only. -/
theorem getLE_congr {b c : Fin n → UInt8} {o k : Nat}
    (h : ∀ i, i < k → getByte b (o + i) = getByte c (o + i)) : getLE b o k = getLE c o k := by
  induction k generalizing o with
  | zero => rfl
  | succ k ih =>
      have h0 := h 0 (Nat.succ_pos k)
      rw [getLE, getLE]
      rw [Nat.add_zero] at h0
      rw [h0, ih]
      intro i hi
      have h1 := h (i + 1) (Nat.succ_lt_succ hi)
      rwa [← Nat.add_assoc, Nat.add_right_comm] at h1

/-- Fields that do not overlap are independent. -/
theorem getLE_setLE_disjoint (b : Fin n → UInt8) {o k o' k' : Nat} (v : Nat)
    (h : o' + k' ≤ o ∨ o + k ≤ o') : getLE (setLE b o k v) o' k' = getLE b o' k' := by
  apply getLE_congr
  intro i hi
  apply getByte_setLE_of_notMem
  omega

/-- Read back from byte `j` on, a word is its digits from `j` on. -/
private theorem getLE_setLE_suffix (b : Fin n → UInt8) {o k : Nat} (v : Nat) (hn : o + k ≤ n)
    (m : Nat) : ∀ j, j + m ≤ k → getLE (setLE b o k v) (o + j) m = v / 256 ^ j % 256 ^ m := by
  induction m with
  | zero =>
      intro j _
      simp [getLE, Nat.mod_one]
  | succ m ih =>
      intro j hj
      have hbyte := getByte_setLE_of_mem b v hn (show j < k by omega)
      have hrest := ih (j + 1) (by omega)
      rw [← Nat.add_assoc, Nat.pow_succ, ← Nat.div_div_eq_div_mul] at hrest
      rw [getLE, hbyte, hrest, Nat.pow_succ', Nat.mod_mul]

/-- A field read back after an assignment to it. -/
theorem getLE_setLE (b : Fin n → UInt8) {o k : Nat} (v : Nat) (hn : o + k ≤ n) :
    getLE (setLE b o k v) o k = v % 256 ^ k := by
  have h := getLE_setLE_suffix b v hn k 0 (by omega)
  rwa [Nat.add_zero, Nat.pow_zero, Nat.div_one] at h

/-! ## Copies -/
/-- The field that is there is assigned. -/
theorem setLE_getLE (b : Fin n → UInt8) (o k : Nat) : setLE b o k (getLE b o k) = b := by
  -- the `i`-th digit of the number is the `i`-th byte
  have hbyte : ∀ k o i, i < k → getLE b o k / 256 ^ i % 256 = getByte b (o + i) := by
    intro k
    induction k with
    | zero =>
        intro o i hi
        cases hi
    | succ k ih =>
        intro o i hi
        have hlt := getByte_lt b o
        cases i with
        | zero =>
            rw [getLE, Nat.pow_zero, Nat.div_one, Nat.add_mul_mod_self_left, Nat.mod_eq_of_lt hlt]
            rfl
        | succ i =>
            rw [getLE, Nat.pow_succ', ← Nat.div_div_eq_div_mul,
              Nat.add_mul_div_left _ _ (by decide),
              Nat.div_eq_of_lt hlt, Nat.zero_add, ih (o + 1) i (by omega),
              show o + 1 + i = o + (i + 1) by omega]
  funext i
  unfold setLE
  split
  · next h =>
    apply UInt8.toNat_inj.1
    rw [UInt8.toNat_ofNat', hbyte k o _ (by omega), Nat.add_sub_cancel' h.1, getByte, dif_pos i.2]
  · rfl

/-- The byte at `o` as it lies there, zero outside the array. -/
def byteAt (b : Fin n → UInt8) (o : Nat) : UInt8 :=
  if h : o < n then b ⟨o, h⟩ else 0

/-- Copy `k` bytes of `src` to `o`. -/
def patch (b : Fin n → UInt8) (o k : Nat) (src : Nat → UInt8) : Fin n → UInt8 := fun i =>
  if o ≤ i.1 ∧ i.1 < o + k then src (i.1 - o) else b i

theorem getByte_eq (b : Fin n → UInt8) (o : Nat) : getByte b o = (byteAt b o).toNat := by
  unfold getByte byteAt
  split <;> rfl

theorem byteAt_ext {b c : Fin n → UInt8} (h : ∀ o, o < n → byteAt b o = byteAt c o) : b = c := by
  funext i
  have hi := h i.1 i.2
  simpa [byteAt] using hi

theorem byteAt_patch_of_mem (b : Fin n → UInt8) {o k i : Nat} (src : Nat → UInt8) (hn : o + k ≤ n)
    (hi : i < k) : byteAt (patch b o k src) (o + i) = src i := by
  have hlt : o + i < n := by omega
  rw [byteAt, dif_pos hlt, patch, if_pos ⟨Nat.le_add_right _ _, by show o + i < o + k; omega⟩]
  rw [Nat.add_sub_cancel_left]

/-- Bytes outside the patch stay. -/
theorem byteAt_patch_of_notMem (b : Fin n → UInt8) {o k i : Nat} (src : Nat → UInt8)
    (hi : i < o ∨ o + k ≤ i) : byteAt (patch b o k src) i = byteAt b i := by
  unfold byteAt
  split
  · rw [patch, if_neg]
    simp only
    omega
  · rfl

/-- A field outside what was copied. -/
theorem getLE_patch_disjoint (b : Fin n → UInt8) {o k o' k' : Nat} (src : Nat → UInt8)
    (h : o' + k' ≤ o ∨ o + k ≤ o') : getLE (patch b o k src) o' k' = getLE b o' k' := by
  apply getLE_congr
  intro i hi
  rw [getByte_eq, getByte_eq, byteAt_patch_of_notMem]
  omega

/-! ## Bits -/

/-- Bit `i` of the array. -/
def getBit (b : Fin n → UInt8) (i : Nat) : Bool := (byteAt b (i / 8)).toNat.testBit (i % 8)

/-- `b[i / 8] |= 1 << (i % 8)`. -/
def setBit (b : Fin n → UInt8) (i : Nat) : Fin n → UInt8 :=
  patch b (i / 8) 1 fun _ => UInt8.ofNat ((byteAt b (i / 8)).toNat ||| 2 ^ (i % 8))

/-- `b[i / 8] &= ~(1 << (i % 8))`. -/
def clearBit (b : Fin n → UInt8) (i : Nat) : Fin n → UInt8 :=
  patch b (i / 8) 1 fun _ => UInt8.ofNat ((byteAt b (i / 8)).toNat &&& (255 ^^^ 2 ^ (i % 8)))

/-- The bits of a byte that has been replaced. -/
private theorem getBit_patch (b : Fin n → UInt8) {i j v : Nat} (hi : i < 8 * n) :
    getBit (patch b (i / 8) 1 fun _ => UInt8.ofNat v) j =
      if j / 8 = i / 8 then (v % 256).testBit (j % 8) else getBit b j := by
  unfold getBit
  split
  · next h =>
    rw [h]
    have hbyte := byteAt_patch_of_mem b (fun _ => UInt8.ofNat v) (o := i / 8) (k := 1) (i := 0)
      (by omega) (by omega)
    rw [Nat.add_zero] at hbyte
    rw [hbyte, UInt8.toNat_ofNat']
  · next h => rw [byteAt_patch_of_notMem _ _ (by omega)]

/-- Setting a bit sets this one only. -/
theorem getBit_setBit (b : Fin n → UInt8) {i : Nat} (j : Nat) (hi : i < 8 * n) :
    getBit (setBit b i) j = (getBit b j || decide (j = i)) := by
  unfold setBit
  rw [getBit_patch b hi]
  split
  · next h =>
    have hlt : j % 8 < 8 := Nat.mod_lt _ (by omega)
    have h256 : (256 : Nat) = 2 ^ 8 := by decide
    rw [h256, Nat.testBit_mod_two_pow, Nat.testBit_or, Nat.testBit_two_pow, getBit, h]
    by_cases hji : j = i
    · subst hji
      simp [hlt]
    · have hne : i % 8 ≠ j % 8 := by omega
      simp [hlt, hji, hne]
  · next h =>
    have hji : j ≠ i := by
      rintro rfl
      exact h rfl
    simp [hji]

/-- Clearing a bit clears this one only. -/
theorem getBit_clearBit (b : Fin n → UInt8) {i : Nat} (j : Nat) (hi : i < 8 * n) :
    getBit (clearBit b i) j = (getBit b j && decide (j ≠ i)) := by
  unfold clearBit
  rw [getBit_patch b hi]
  split
  · next h =>
    have hlt : j % 8 < 8 := Nat.mod_lt _ (by omega)
    have h256 : (256 : Nat) = 2 ^ 8 := by decide
    have h255 : (255 : Nat) = 2 ^ 8 - 1 := by decide
    rw [h256, Nat.testBit_mod_two_pow, Nat.testBit_and, Nat.testBit_xor, h255,
      Nat.testBit_two_pow_sub_one, Nat.testBit_two_pow, getBit, h]
    by_cases hji : j = i
    · subst hji
      simp [hlt]
    · have hne : i % 8 ≠ j % 8 := by omega
      simp [hlt, hji, hne]
  · next h =>
    have hji : j ≠ i := by
      rintro rfl
      exact h rfl
    simp [hji]

/-- Bytes are told apart by their bits. -/
theorem getBit_ext {b c : Fin n → UInt8} (h : ∀ j, j < 8 * n → getBit b j = getBit c j) :
    b = c := by
  apply byteAt_ext
  intro o ho
  apply UInt8.toNat_inj.1
  apply Nat.eq_of_testBit_eq
  intro i
  rcases Nat.lt_or_ge i 8 with hi | hi
  · have hj := h (8 * o + i) (by omega)
    unfold getBit at hj
    rwa [Nat.mul_add_div (by decide), Nat.mul_add_mod, Nat.div_eq_of_lt hi, Nat.mod_eq_of_lt hi,
      Nat.add_zero] at hj
  · have hlt : ∀ x : UInt8, x.toNat.testBit i = false := by
      intro x
      apply Nat.testBit_lt_two_pow
      calc x.toNat < 2 ^ 8 := UInt8.toNat_lt x
        _ ≤ 2 ^ i := Nat.pow_le_pow_right (by decide) hi
    rw [hlt, hlt]

end Xv6.Lib
