import Mathlib.Data.UInt

/-!
# Words as bytes, highest first

How a word is put together again from the bytes it was cut into, when every byte comes back
through a signed character.
-/

namespace Yfs.NetworkOrder

/-- The conversion of a plain, signed character to an unsigned word. -/
def signExtend (c : UInt8) : UInt32 := c.toInt8.toInt32.toUInt32

theorem toBitVec_signExtend (c : UInt8) : (signExtend c).toBitVec = c.toBitVec.signExtend 32 := rfl

theorem getLsbD_mask {w : ℕ} (hw : 8 ≤ w) (i : ℕ) :
    (BitVec.ofNat w 255).getLsbD i = decide (i < 8) := by
  rw [BitVec.getLsbD_ofNat, show (255 : ℕ) = 2 ^ 8 - 1 from rfl, Nat.testBit_two_pow_sub_one]
  by_cases h : i < 8
  · have : i < w := by omega
    simp [h, this]
  · simp [h]

@[simp]
theorem mask_signExtend (c : UInt8) : signExtend c &&& 0xff = c.toUInt32 := by
  apply UInt32.toBitVec_inj.1
  apply BitVec.eq_of_getLsbD_eq
  intro i hi
  have hmask := getLsbD_mask (w := 32) (by decide)
  simp only [UInt32.toBitVec_and, toBitVec_signExtend, UInt8.toBitVec_toUInt32]
  simp [BitVec.getLsbD_signExtend, hmask]
  grind

@[simp]
theorem toUInt8_signExtend (c : UInt8) : (signExtend c).toUInt8 = c := by
  apply UInt8.toBitVec_inj.1
  apply BitVec.eq_of_getLsbD_eq
  intro i hi
  simp only [UInt32.toBitVec_toUInt8, toBitVec_signExtend]
  simp [BitVec.getLsbD_signExtend]
  grind

/-- The four bytes of a word. -/
def wordBytes (x : UInt32) : List UInt8 :=
  [((x >>> 24) &&& 0xff).toUInt8, ((x >>> 16) &&& 0xff).toUInt8, ((x >>> 8) &&& 0xff).toUInt8,
    (x &&& 0xff).toUInt8]

/-- The two bytes of a short word. -/
def shortBytes (x : UInt16) : List UInt8 := [((x >>> 8) &&& 0xff).toUInt8, (x &&& 0xff).toUInt8]

theorem word_of_bytes (x : UInt32) :
    (((x >>> 24) &&& 0xff).toUInt8.toUInt32 <<< 24 ||| ((x >>> 16) &&& 0xff).toUInt8.toUInt32 <<< 16
      ||| ((x >>> 8) &&& 0xff).toUInt8.toUInt32 <<< 8 ||| (x &&& 0xff).toUInt8.toUInt32) = x := by
  apply UInt32.toBitVec_inj.1
  simp only [UInt32.toBitVec_or, UInt32.toBitVec_shiftLeft, UInt8.toBitVec_toUInt32,
    UInt32.toBitVec_toUInt8, UInt32.toBitVec_and, UInt32.toBitVec_shiftRight]
  apply BitVec.eq_of_getLsbD_eq
  intro i hi
  have hmask := getLsbD_mask (w := 32) (by decide)
  simp [hmask]
  grind

theorem short_of_bytes (x : UInt16) :
    (((x >>> 8) &&& 0xff).toUInt8.toUInt32 <<< 8).toUInt16 |||
      ((x &&& 0xff).toUInt8.toUInt32).toUInt16 = x := by
  apply UInt16.toBitVec_inj.1
  apply BitVec.eq_of_getLsbD_eq
  intro i hi
  simp only [UInt16.toBitVec_or, UInt32.toBitVec_toUInt16, UInt32.toBitVec_shiftLeft,
    UInt8.toBitVec_toUInt32, UInt16.toBitVec_toUInt8, UInt16.toBitVec_and, UInt16.toBitVec_shiftRight]
  have hmask := getLsbD_mask (w := 16) (by decide)
  simp [hmask]
  grind

theorem long_of_words (x : UInt64) :
    x.toUInt32.toUInt64 ||| ((x >>> 32).toUInt32.toUInt64 <<< 32) = x := by
  apply UInt64.toBitVec_inj.1
  apply BitVec.eq_of_getLsbD_eq
  intro i hi
  simp only [UInt64.toBitVec_or, UInt64.toBitVec_shiftLeft, UInt32.toBitVec_toUInt64,
    UInt64.toBitVec_toUInt32, UInt64.toBitVec_shiftRight]
  simp
  grind

/-- The four bytes of a signed word; the shifts keep the sign. -/
def intBytes (x : Int32) : List UInt8 :=
  [((x >>> 24) &&& 0xff).toUInt32.toUInt8, ((x >>> 16) &&& 0xff).toUInt32.toUInt8,
    ((x >>> 8) &&& 0xff).toUInt32.toUInt8, (x &&& 0xff).toUInt32.toUInt8]

theorem low_byte_sshiftRight (x : BitVec 32) {k : ℕ} (hk : k ≤ 24) :
    (x.sshiftRight k &&& 255#32).setWidth 8 = (x >>> k &&& 255#32).setWidth 8 := by
  apply BitVec.eq_of_getLsbD_eq
  intro i hi
  have hlt : k + i < 32 := by omega
  have hle : ¬32 ≤ i := by omega
  simp [BitVec.getLsbD_sshiftRight, hlt, hle]

/-- The sign that the shifts bring in is masked away. -/
theorem intBytes_eq (x : Int32) : intBytes x = wordBytes x.toUInt32 := by
  simp only [intBytes, wordBytes, List.cons.injEq, and_true]
  refine ⟨?_, ?_, ?_, rfl⟩
  · exact UInt8.toBitVec_inj.1 (low_byte_sshiftRight x.toBitVec (k := 24) (by decide))
  · exact UInt8.toBitVec_inj.1 (low_byte_sshiftRight x.toBitVec (k := 16) (by decide))
  · exact UInt8.toBitVec_inj.1 (low_byte_sshiftRight x.toBitVec (k := 8) (by decide))

end Yfs.NetworkOrder
