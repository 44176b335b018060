import Yfs.CallTrees
import Yfs.LabelledRuns
import Yfs.MemoryBlocks
import Mathlib.Data.Finset.Basic

/-!
# The disk and its free-block bitmap

`read_block` and `write_block` are the calls that programs make to the disk. A block's bit is
looked up in bitmap block `BBLOCK(b)`, at position `b - BBLOCK(b)`; that position grows with `b`
beyond the 4096 bits of a block.
-/

namespace Yfs.BlockManager
open CallTrees LabelledRuns MemoryBlocks

abbrev blockSize : ℕ := 512

def blockNum : ℕ := 32768

def inodeNum : ℕ := 1024

/-- `IPB`: three inodes of 152 bytes. -/
def ipb : ℕ := 3

def bpb : ℕ := 4096

/-- `IBLOCK(i, nblocks)` -/
def iblock (i : ℕ) : ℕ := blockNum / bpb + i / ipb + 3

def bblock (b : ℕ) : ℕ := b / bpb + 2

abbrev Block := Mem blockSize

/-- `disk::blocks`. -/
abbrev Disk := ℕ → Block

inductive DiskCall where
  | read (id : ℕ)
  | write (id : ℕ) (buf : Block)
  deriving DecidableEq

inductive Fault where
  /-- an access outside of an array -/
  | outside
  /-- an exception of `std::string` -/
  | exception
  deriving DecidableEq, Repr

abbrev DiskProg := Prog DiskCall Block Fault

/-- One atomic step of the disk. -/
def serve : DiskCall → Disk → Disk × Block
  | .read id, d => (d, d id)
  | .write id buf, d => (Function.update d id buf, buf)

/-- A program alone with the disk. -/
def exec {α : Type} (p : DiskProg α) (d : Disk) : Except Fault (α × Disk) := run serve p d

/-- `disk::read_block` into a buffer that holds `buf`. -/
def readBlock (id : ℕ) (buf : Block) : DiskProg Block :=
  if id < blockNum then .call (.read id) .ret else .ret buf

/-- `disk::write_block`. -/
def writeBlock (id : ℕ) (buf : Block) : DiskProg Unit :=
  if id < blockNum then .call (.write id buf) fun _ => .ret () else .ret ()

def check (inside : Bool) : DiskProg Unit := if inside then .ret () else .fault .outside

/-- `b - BBLOCK(b)`, an unsigned number. -/
def bitIndex (b : ℕ) : ℕ := (b + 2 ^ 32 - bblock b) % 2 ^ 32

/-- The loop of `alloc_block`, with `n` blocks to go from `i` on. -/
def allocLoop : ℕ → ℕ → Block → DiskProg ℕ
  | 0, _, _ => pure 0
  | n + 1, i, buf => do
    let buf ← readBlock (bblock i) buf
    check (bitIndex i / 8 < blockSize)
    if bitAt buf (bitIndex i) then allocLoop n (i + 1) buf
    else do
      writeBlock (bblock i) (setBit buf (bitIndex i))
      pure i

/-- The first block of the data region. -/
def firstData : ℕ := iblock (inodeNum - 1) + 1

/-- `block_manager::alloc_block`; `junk` is what its buffer holds at first. -/
def allocBlock (junk : Block) : DiskProg ℕ := allocLoop (blockNum - firstData) firstData junk

/-- `block_manager::free_block`. -/
def freeBlock (junk : Block) (id : ℕ) : DiskProg Unit := do
  let buf ← readBlock (bblock id) junk
  check (bitIndex id / 8 < blockSize)
  writeBlock (bblock id) (clearBit buf (bitIndex id))

/-! ## Bits -/

/-- The last block whose bit lies within its bitmap block. -/
def lastMapped : ℕ := 4098

/-- The blocks that can be handed out without leaving a buffer. -/
def Mapped (b : ℕ) : Prop := firstData ≤ b ∧ b ≤ lastMapped

instance (b : ℕ) : Decidable (Mapped b) := inferInstanceAs (Decidable (_ ∧ _))

def bitOf (d : Disk) (b : ℕ) : Bool := bitAt (d (bblock b)) (bitIndex b)

/-- The disk with the bit of one block changed. -/
def mark (d : Disk) (b : ℕ) (used : Bool) : Disk :=
  Function.update d (bblock b)
    (if used then setBit (d (bblock b)) (bitIndex b) else clearBit (d (bblock b)) (bitIndex b))

variable {d d' : Disk} {b b' i n id : ℕ} {junk buf : Block}

theorem firstData_eq : firstData = 353 := by decide

theorem bitIndex_eq (h : firstData ≤ b) (hb : b < blockNum) : bitIndex b = b - bblock b := by
  rw [firstData_eq] at h
  simp only [bitIndex, bblock, bpb, blockNum] at *
  omega

theorem bblock_lt (h : b < blockNum) : bblock b < blockNum := by
  simp only [bblock, bpb, blockNum] at *
  omega

/-- The bitmap area. -/
theorem bblock_mem (h : b < blockNum) : 2 ≤ bblock b ∧ bblock b ≤ 9 := by
  simp only [bblock, bpb, blockNum] at *
  omega

theorem Mapped.lt (h : Mapped b) : b < blockNum := by
  have := h.2
  simp only [lastMapped, blockNum] at *
  omega

theorem Mapped.ne_zero (h : Mapped b) : b ≠ 0 := by
  have := h.1
  rw [firstData_eq] at this
  omega

theorem inside_iff (h : firstData ≤ b) (hb : b < 4096 + 4096) :
    bitIndex b / 8 < blockSize ↔ b ≤ lastMapped := by
  rw [bitIndex_eq h (by simp only [blockNum]; omega)]
  rw [firstData_eq] at h
  simp only [bblock, bpb, blockSize, lastMapped]
  omega

theorem Mapped.inside (h : Mapped b) : bitIndex b / 8 < blockSize := by
  have hb := h.2
  refine (inside_iff h.1 ?_).2 hb
  simp only [lastMapped] at hb
  omega

/-- Different blocks have different bits. -/
theorem Mapped.bit_ne (h : Mapped b) (h' : Mapped b') (hne : b ≠ b') (hb : bblock b = bblock b') :
    bitIndex b ≠ bitIndex b' := by
  rw [bitIndex_eq h.1 h.lt, bitIndex_eq h'.1 h'.lt, hb]
  have h₁ := h.1
  have h₂ := h'.1
  have h₃ := (bblock_mem h'.lt).2
  rw [firstData_eq] at h₁ h₂
  omega

theorem bitOf_mark (h : Mapped b) (h' : Mapped b') (used : Bool) :
    bitOf (mark d b used) b' = if b' = b then used else bitOf d b' := by
  unfold bitOf mark
  by_cases hb : bblock b' = bblock b
  · rw [hb, Function.update_self]
    by_cases hbb : b' = b
    · subst hbb
      rw [if_pos rfl]
      cases used
      · rw [if_neg (by decide), bitAt_clearBit _ h.inside]
        simp
      · rw [if_pos rfl, bitAt_setBit _ h.inside]
        simp
    · have hne := h.bit_ne h' (Ne.symm hbb) hb.symm
      rw [if_neg hbb]
      cases used
      · rw [if_neg (by decide), bitAt_clearBit _ h.inside]
        simp [hne]
      · rw [if_pos rfl, bitAt_setBit _ h.inside]
        simp [hne]
  · rw [Function.update_of_ne hb]
    by_cases hbb : b' = b
    · exact absurd (congrArg bblock hbb) hb
    · rw [if_neg hbb]

theorem mark_other (h : b < blockNum) (used : Bool) {k : ℕ} (hk : k < 2 ∨ 9 < k) :
    mark d b used k = d k := by
  have := bblock_mem h
  exact Function.update_of_ne (by omega) _ _

/-! ## What the programs do -/

section
variable {α β : Type} {p : DiskProg α} {f : α → DiskProg β} {a : α}

theorem exec_pure (a : α) (d : Disk) : exec (pure a) d = .ok (a, d) := rfl

theorem exec_then (h : exec p d = .ok (a, d')) : exec (p >>= f) d = exec (f a) d' := by
  unfold exec at h ⊢
  rw [run_bind, h]
  rfl

theorem exec_fails {e : Fault} (h : exec p d = .error e) : exec (p >>= f) d = .error e := by
  unfold exec at h ⊢
  rw [run_bind, h]
  rfl

end

theorem exec_readBlock (h : id < blockNum) : exec (readBlock id buf) d = .ok (d id, d) := by
  rw [readBlock, if_pos h]
  rfl

theorem exec_writeBlock (h : id < blockNum) :
    exec (writeBlock id buf) d = .ok ((), Function.update d id buf) := by
  rw [writeBlock, if_pos h]
  rfl

theorem exec_check {c : Prop} [Decidable c] (h : c) : exec (check c) d = .ok ((), d) := by
  rw [check, if_pos (by simpa using h)]
  rfl

theorem exec_check_fails {c : Prop} [Decidable c] (h : ¬c) :
    exec (check c) d = .error .outside := by
  rw [check, if_neg (by simpa using h)]
  rfl

/-- One turn of the loop. -/
theorem exec_allocLoop (h : i < blockNum) : exec (allocLoop (n + 1) i buf) d =
    if bitIndex i / 8 < blockSize then
      if bitOf d i then exec (allocLoop n (i + 1) (d (bblock i))) d else .ok (i, mark d i true)
    else .error .outside := by
  rw [allocLoop, exec_then (exec_readBlock (bblock_lt h))]
  by_cases hin : bitIndex i / 8 < blockSize
  · rw [if_pos hin, exec_then (exec_check hin)]
    cases hbit : bitOf d i with
    | false =>
      have hbit' : bitAt (d (bblock i)) (bitIndex i) = false := hbit
      rw [hbit', if_neg (by decide), if_neg (by decide), exec_then (exec_writeBlock (bblock_lt h))]
      rfl
    | true =>
      have hbit' : bitAt (d (bblock i)) (bitIndex i) = true := hbit
      rw [hbit', if_pos rfl, if_pos rfl]
  · rw [if_neg hin, exec_fails (exec_check_fails hin)]

/-- The loop finds the first block that is free. -/
theorem exec_allocLoop_free (hb : Mapped b) (hi : firstData ≤ i) (hle : i ≤ b) (hn : b < i + n)
    (hused : ∀ k, i ≤ k → k < b → bitOf d k = true) (hfree : bitOf d b = false) :
    exec (allocLoop n i buf) d = .ok (b, mark d b true) := by
  induction n generalizing i buf with
  | zero => omega
  | succ n ih =>
    have hmap : Mapped i := ⟨hi, hle.trans hb.2⟩
    rw [exec_allocLoop hmap.lt, if_pos hmap.inside]
    by_cases hib : i = b
    · subst hib
      rw [hfree]
      rfl
    · rw [hused i (le_refl _) (by omega), if_pos rfl]
      exact ih (by omega) (by omega) (by omega) fun k hk => hused k (by omega)

/-- When no mapped block is free, the loop leaves the buffer. -/
theorem exec_allocLoop_full (hi : firstData ≤ i) (hle : i ≤ lastMapped + 1)
    (hn : lastMapped + 1 < i + n) (hused : ∀ k, i ≤ k → k ≤ lastMapped → bitOf d k = true) :
    exec (allocLoop n i buf) d = .error .outside := by
  induction n generalizing i buf with
  | zero => omega
  | succ n ih =>
    have hlast : lastMapped = 4098 := rfl
    have hnum : blockNum = 32768 := rfl
    rw [exec_allocLoop (by omega)]
    by_cases hmap : i ≤ lastMapped
    · rw [if_pos ((inside_iff hi (by omega)).2 hmap), hused i (le_refl _) hmap, if_pos rfl]
      exact ih (by omega) (by omega) (by omega) fun k hk => hused k (by omega)
    · rw [if_neg (mt (inside_iff hi (by omega)).1 hmap)]

/-- The number of turns of the loop. -/
theorem firstData_add : firstData + (blockNum - firstData) = 32768 := by decide

/-- `alloc_block` hands out the smallest free block. -/
theorem exec_allocBlock (hb : Mapped b) (hused : ∀ k, firstData ≤ k → k < b → bitOf d k = true)
    (hfree : bitOf d b = false) : exec (allocBlock junk) d = .ok (b, mark d b true) := by
  refine exec_allocLoop_free hb (le_refl _) hb.1 ?_ hused hfree
  rw [firstData_add]
  exact hb.lt

theorem exec_allocBlock_full (hused : ∀ k, Mapped k → bitOf d k = true) :
    exec (allocBlock junk) d = .error .outside :=
  exec_allocLoop_full (le_refl _) (by decide) (by rw [firstData_add]; decide)
    fun k hk hle => hused k ⟨hk, hle⟩

theorem exec_freeBlock (hb : Mapped b) :
    exec (freeBlock junk b) d = .ok ((), mark d b false) := by
  rw [freeBlock, exec_then (exec_readBlock (bblock_lt hb.lt)), exec_then (exec_check hb.inside),
    exec_writeBlock (bblock_lt hb.lt)]
  rfl

/-- A block that is free, as small as can be. -/
theorem exists_first_free (h : ∃ b, Mapped b ∧ bitOf d b = false) :
    ∃ b, Mapped b ∧ bitOf d b = false ∧ ∀ k, firstData ≤ k → k < b → bitOf d k = true := by
  classical
  refine ⟨Nat.find h, (Nat.find_spec h).1, (Nat.find_spec h).2, ?_⟩
  intro k hk hlt
  have hno := Nat.find_min h hlt
  have hmap : Mapped k := ⟨hk, hlt.le.trans (Nat.find_spec h).1.2⟩
  by_contra hbit
  exact hno ⟨hmap, by simpa using hbit⟩

end Yfs.BlockManager
