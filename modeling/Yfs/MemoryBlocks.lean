import Yfs.ByteLayout
import Mathlib.Data.UInt
import Mathlib.Tactic.IntervalCases

/-!
# Blocks of memory

Arrays of bytes of a fixed size, parts of them that are copied out and in, the numbers that are
stored in them, and their bits.
-/

namespace Yfs.MemoryBlocks
open ByteLayout

/-- `n` bytes. -/
abbrev Mem (n : ℕ) := Vector UInt8 n

variable {n k l : ℕ}

def byteAt (v : Mem n) (i : ℕ) : UInt8 := (v[i]?).getD 0

theorem byteAt_eq_getElem (v : Mem n) {i : ℕ} (h : i < n) : byteAt v i = v[i] := by
  simp [byteAt, h]

theorem byteAt_ofFn (f : Fin n → UInt8) {i : ℕ} (h : i < n) :
    byteAt (Vector.ofFn f) i = f ⟨i, h⟩ := by
  simp [byteAt, h]

theorem byteAt_of_le (v : Mem n) {i : ℕ} (h : n ≤ i) : byteAt v i = 0 := by
  simp [byteAt, h]

/-- Arrays with the same bytes are the same. -/
theorem mem_ext {v w : Mem n} (h : ∀ i, i < n → byteAt v i = byteAt w i) : v = w := by
  apply Vector.ext
  intro i hi
  have := h i hi
  rwa [byteAt_eq_getElem v hi, byteAt_eq_getElem w hi] at this

/-! ## Parts of a block -/

/-- The `k` bytes from `o` on. -/
def slice (v : Mem n) (o k : ℕ) : Mem k := Vector.ofFn fun i => byteAt v (o + i)

/-- Copy `w` to `o`. -/
def blit (v : Mem n) (o : ℕ) (w : Mem k) : Mem n :=
  Vector.ofFn fun i => if o ≤ i ∧ i < o + k then byteAt w (i - o) else byteAt v i

theorem byteAt_slice (v : Mem n) (o : ℕ) {i : ℕ} (h : i < k) :
    byteAt (slice v o k) i = byteAt v (o + i) := byteAt_ofFn _ h

theorem byteAt_blit (v : Mem n) (o : ℕ) (w : Mem k) {i : ℕ} (h : i < n) :
    byteAt (blit v o w) i = if o ≤ i ∧ i < o + k then byteAt w (i - o) else byteAt v i :=
  byteAt_ofFn _ h

/-- Inside of what was copied, the copy is read. -/
theorem slice_blit_inside (v : Mem n) (w : Mem k) {o o' : ℕ} (h : o' + l ≤ k) (hn : o + k ≤ n) :
    slice (blit v o w) (o + o') l = slice w o' l := by
  apply mem_ext
  intro i hi
  rw [byteAt_slice _ _ hi, byteAt_slice _ _ hi, byteAt_blit _ _ _ (by omega),
    if_pos (by omega), show o + o' + i - o = o' + i by omega]

theorem slice_self (w : Mem k) : slice w 0 k = w := by
  apply mem_ext
  intro i hi
  rw [byteAt_slice _ _ hi, Nat.zero_add]

theorem slice_blit_same (v : Mem n) (w : Mem k) {o : ℕ} (hn : o + k ≤ n) :
    slice (blit v o w) o k = w := by
  have h : slice (blit v o w) (o + 0) k = slice w 0 k := slice_blit_inside v w (by omega) hn
  rwa [Nat.add_zero, slice_self] at h

/-- Apart from what was copied, nothing has changed. -/
theorem slice_blit_other (v : Mem n) (w : Mem k) {o o' : ℕ} (h : o' + l ≤ o ∨ o + k ≤ o')
    (hn : o' + l ≤ n) : slice (blit v o w) o' l = slice v o' l := by
  apply mem_ext
  intro i hi
  rw [byteAt_slice _ _ hi, byteAt_slice _ _ hi, byteAt_blit _ _ _ (by omega), if_neg (by omega)]

/-! ## Numbers -/

/-- A number of `k` bytes, lowest first. -/
def ofNumber (k x : ℕ) : Mem k := ⟨(leBytes k x).toArray, by simp⟩

def toNumber (v : Mem k) : ℕ := leValue v.toList

theorem toNumber_ofNumber (k x : ℕ) : toNumber (ofNumber k x) = x % 256 ^ k := by
  simp only [toNumber, ofNumber, Vector.toList_mk]
  exact leValue_leBytes k x

theorem leValue_lt (s : List UInt8) : leValue s < 256 ^ s.length := by
  induction s with
  | nil => exact Nat.one_pos
  | cons b s ih =>
    have hb := b.toNat_lt
    rw [leValue, List.length_cons, pow_succ]
    omega

theorem toNumber_lt (v : Mem k) : toNumber v < 256 ^ k := by
  have := leValue_lt v.toList
  rwa [Vector.length_toList] at this

@[irreducible] def load (k : ℕ) (v : Mem n) (o : ℕ) : ℕ := toNumber (slice v o k)

def store (k : ℕ) (v : Mem n) (o x : ℕ) : Mem n := blit v o (ofNumber k x)

theorem load_lt (v : Mem n) (o : ℕ) : load k v o < 256 ^ k := by
  rw [load]
  exact toNumber_lt _

theorem load_store_same (v : Mem n) (x : ℕ) {o : ℕ} (h : o + k ≤ n) :
    load k (store k v o x) o = x % 256 ^ k := by
  rw [load, store, slice_blit_same _ _ h, toNumber_ofNumber]

theorem load_store_other (v : Mem n) (x : ℕ) {o o' : ℕ} (h : o' + l ≤ o ∨ o + k ≤ o')
    (hn : o' + l ≤ n) : load l (store k v o x) o' = load l v o' := by
  rw [load, store, slice_blit_other _ _ h hn, load]

theorem byteAt_replicate (i : ℕ) : byteAt (Vector.replicate n 0) i = 0 := by
  simp only [byteAt, Vector.getElem?_replicate]
  by_cases h : i < n <;> simp [h]

theorem slice_replicate (o : ℕ) : slice (Vector.replicate n 0) o k = Vector.replicate k 0 := by
  apply mem_ext
  intro i hi
  rw [byteAt_slice _ _ hi, byteAt_replicate, byteAt_replicate]

theorem leValue_replicate (k : ℕ) : leValue (List.replicate k 0) = 0 := by
  induction k with
  | zero => rfl
  | succ k ih =>
    rw [List.replicate_succ, leValue, ih]
    rfl

theorem load_replicate (o : ℕ) : load k (Vector.replicate n 0) o = 0 := by
  rw [load, slice_replicate, toNumber, Vector.toList_replicate, leValue_replicate]

/-! ## Bits -/

/-- Bit `t` of a block, as `buf[t >> 3] & (1 << (t % 8))` tests it. -/
def bitAt (v : Mem n) (t : ℕ) : Bool := byteAt v (t / 8) &&& (1 <<< UInt8.ofNat (t % 8)) != 0

/-- `buf[t >> 3] |= 1 << (t % 8)` -/
def setBit (v : Mem n) (t : ℕ) : Mem n :=
  v.setIfInBounds (t / 8) (byteAt v (t / 8) ||| 1 <<< UInt8.ofNat (t % 8))

/-- `buf[t >> 3] &= ~(1 << (t % 8))` -/
def clearBit (v : Mem n) (t : ℕ) : Mem n :=
  v.setIfInBounds (t / 8) (byteAt v (t / 8) &&& ~~~(1 <<< UInt8.ofNat (t % 8)))

theorem byteAt_set (v : Mem n) {i j : ℕ} (c : UInt8) (h : i < n) :
    byteAt (v.setIfInBounds i c) j = if i = j then c else byteAt v j := by
  simp only [byteAt, Vector.getElem?_setIfInBounds]
  by_cases hij : i = j
  · subst hij
    simp [h]
  · simp [hij]

theorem one_shift {j : ℕ} (hj : j < 8) :
    ((1 : UInt8) <<< UInt8.ofNat j).toBitVec = BitVec.twoPow 8 j := by
  interval_cases j <;> rfl

theorem bit_test (c : UInt8) {j : ℕ} (hj : j < 8) :
    (c &&& (1 <<< UInt8.ofNat j) != 0) = c.toBitVec.getLsbD j := by
  have hmask : (c &&& (1 <<< UInt8.ofNat j)).toBitVec =
      if c.toBitVec.getLsbD j then BitVec.twoPow 8 j else 0#8 := by
    rw [UInt8.toBitVec_and, one_shift hj, BitVec.and_twoPow]
  have hzero : (c &&& (1 <<< UInt8.ofNat j) != 0) =
      !decide ((c &&& (1 <<< UInt8.ofNat j)).toBitVec = 0#8) := by
    rw [bne, beq_eq_decide]
    congr 1
    rw [decide_eq_decide, ← UInt8.toBitVec_inj]
    rfl
  have hne : BitVec.twoPow 8 j ≠ 0#8 := by interval_cases j <;> decide
  rw [hzero, hmask]
  cases c.toBitVec.getLsbD j <;> simp [hne]

theorem bit_set (c : UInt8) {i j : ℕ} (hi : i < 8) (hj : j < 8) :
    ((c ||| 1 <<< UInt8.ofNat i) &&& (1 <<< UInt8.ofNat j) != 0) =
      (decide (i = j) || (c &&& (1 <<< UInt8.ofNat j) != 0)) := by
  rw [bit_test _ hj, bit_test _ hj, UInt8.toBitVec_or, one_shift hi, BitVec.getLsbD_or,
    BitVec.getLsbD_twoPow, Bool.or_comm, decide_eq_true hi, Bool.true_and]

theorem bit_clear (c : UInt8) {i j : ℕ} (hi : i < 8) (hj : j < 8) :
    ((c &&& ~~~(1 <<< UInt8.ofNat i)) &&& (1 <<< UInt8.ofNat j) != 0) =
      (!decide (i = j) && (c &&& (1 <<< UInt8.ofNat j) != 0)) := by
  rw [bit_test _ hj, bit_test _ hj, UInt8.toBitVec_and, UInt8.toBitVec_not, one_shift hi,
    BitVec.getLsbD_and, BitVec.getLsbD_not, BitVec.getLsbD_twoPow, Bool.and_comm,
    decide_eq_true hi, decide_eq_true hj, Bool.true_and, Bool.true_and]

theorem bitAt_setBit (v : Mem n) {t : ℕ} (h : t / 8 < n) (t' : ℕ) :
    bitAt (setBit v t) t' = (decide (t = t') || bitAt v t') := by
  simp only [bitAt, setBit, byteAt_set _ _ h]
  by_cases hb : t / 8 = t' / 8
  · rw [if_pos hb, hb, bit_set _ (Nat.mod_lt _ (by decide)) (Nat.mod_lt _ (by decide))]
    congr 1
    rw [decide_eq_decide]
    omega
  · rw [if_neg hb, decide_eq_false (by rintro rfl; exact hb rfl), Bool.false_or]

theorem bitAt_clearBit (v : Mem n) {t : ℕ} (h : t / 8 < n) (t' : ℕ) :
    bitAt (clearBit v t) t' = (!decide (t = t') && bitAt v t') := by
  simp only [bitAt, clearBit, byteAt_set _ _ h]
  by_cases hb : t / 8 = t' / 8
  · rw [if_pos hb, hb, bit_clear _ (Nat.mod_lt _ (by decide)) (Nat.mod_lt _ (by decide))]
    congr 2
    rw [decide_eq_decide]
    omega
  · rw [if_neg hb, decide_eq_false (by rintro rfl; exact hb rfl), Bool.not_false, Bool.true_and]

end Yfs.MemoryBlocks
