import Mathlib.Data.List.Basic
import Mathlib.Algebra.Order.Group.Nat
import Mathlib.Tactic.Ring

/-!
# Little-endian words and patches in byte strings

The representation of fixed-width numbers in memory, and the effect of overwriting a part
of a string.
-/

namespace Yfs.ByteLayout

/-- The `k` bytes of the number `n`, lowest first; higher bytes are cut off. -/
def leBytes : ℕ → ℕ → List UInt8
  | 0, _ => []
  | k + 1, n => UInt8.ofNat n :: leBytes k (n / 256)

/-- The number that a string of bytes stands for. -/
def leValue : List UInt8 → ℕ
  | [] => 0
  | b :: bs => b.toNat + 256 * leValue bs

@[simp] theorem length_leBytes (k n : ℕ) : (leBytes k n).length = k := by
  induction k generalizing n with
  | zero => rfl
  | succ k ih => simp [leBytes, ih]

theorem leValue_leBytes (k n : ℕ) : leValue (leBytes k n) = n % 256 ^ k := by
  induction k generalizing n with
  | zero => simp [leBytes, leValue, Nat.mod_one]
  | succ k ih =>
    have hb : (UInt8.ofNat n).toNat = n % 256 := UInt8.toNat_ofNat'
    rw [leBytes, leValue, ih, hb, pow_succ', Nat.mod_mul]

theorem leValue_leBytes_of_lt {k n : ℕ} (h : n < 256 ^ k) : leValue (leBytes k n) = n := by
  rw [leValue_leBytes, Nat.mod_eq_of_lt h]

/-- Conversion to `size_t`. -/
def sizeT (x : ℤ) : ℕ := (x % 18446744073709551616).toNat

section
variable {α : Type*}

/-- Overwrite the part of `buf` that starts at `pos` with `data`. -/
def patch (buf : List α) (pos : ℕ) (data : List α) : List α :=
  buf.take pos ++ data ++ buf.drop (pos + data.length)

theorem patch_append (pre old post data : List α) (h : data.length = old.length) :
    patch (pre ++ old ++ post) pre.length data = pre ++ data ++ post := by
  simp [patch, List.append_assoc, List.drop_append, h]

/-- The part up to the end of the new data. -/
theorem take_patch {buf data : List α} {pos : ℕ} (h : pos + data.length ≤ buf.length) :
    (patch buf pos data).take (pos + data.length) = buf.take pos ++ data := by
  have hpos : (buf.take pos).length = pos := List.length_take_of_le (by omega)
  unfold patch
  rw [List.take_left' (by rw [List.length_append, hpos])]

theorem length_patch {buf data : List α} {pos : ℕ} (h : pos + data.length ≤ buf.length) :
    (patch buf pos data).length = buf.length := by
  simp only [patch, List.length_append, List.length_take, List.length_drop]
  omega

/-- The elements of a patched list. -/
theorem getElem?_patch {buf data : List α} {pos : ℕ} (h : pos + data.length ≤ buf.length) (k : ℕ) :
    (patch buf pos data)[k]? =
      if pos ≤ k ∧ k < pos + data.length then data[k - pos]? else buf[k]? := by
  have hpos : (buf.take pos).length = pos := List.length_take_of_le (by omega)
  unfold patch
  rw [List.append_assoc, List.getElem?_append, hpos]
  by_cases hlt : k < pos
  · rw [if_pos hlt, if_neg (by omega), List.getElem?_take_of_lt hlt]
  · rw [if_neg hlt, List.getElem?_append]
    by_cases hin : k - pos < data.length
    · rw [if_pos hin, if_pos (by omega)]
    · rw [if_neg hin, if_neg (by omega), List.getElem?_drop]
      congr 1
      omega

end

end Yfs.ByteLayout
