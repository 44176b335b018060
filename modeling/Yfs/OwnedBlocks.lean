import Yfs.ExtentRequests

/-!
# The blocks of the files are the blocks in use
-/

namespace Yfs.OwnedBlocks
open LabelledRuns BlockManager InodeManager InodeTable FileBlocks
open BlockOwnership FileWrites FileContents ExtentRequests
open BlockAllocation (DataBlock dataBlock_of_mapped bitOf_of_not_mapped)
open ExtentClient (Reply)

variable {d d₀ : Disk} {i b : ℕ} {tr : List (Request × Reply)}

/-- `ceil(size / 512)` -/
def blockCount (d : Disk) (i : ℕ) : ℕ := ceil (inoSize (inodeOf d i)) blockSize

/-- The blocks that an inode refers to: its data blocks, and the indirect block if it has one. -/
def fileBlocks (d : Disk) (i : ℕ) : List ℕ :=
  (List.range (blockCount d i)).map (diskRef d i) ++
    if ndirect < blockCount d i then [inoBlock (inodeOf d i) ndirect] else []

structure Ownership (d : Disk) : Prop where
  region : ∀ i, Live d i → ∀ b ∈ fileBlocks d i, DataBlock b
  distinct : ∀ i, Live d i → (fileBlocks d i).Nodup
  apart : ∀ i j, Live d i → Live d j → i ≠ j → (fileBlocks d i).Disjoint (fileBlocks d j)
  bits : ∀ b, DataBlock b → (bitOf d b = true ↔ ∃ i, Live d i ∧ b ∈ fileBlocks d i)
  indirect : ∀ i, Live d i → (inoBlock (inodeOf d i) ndirect ≠ 0 ↔ ndirect < blockCount d i)

theorem fileBlocks_eq (d : Disk) (i : ℕ) : fileBlocks d i =
    (List.range (blockCount d i) ++ if ndirect < blockCount d i then [maxFile] else []).map
      (diskRef d i) := by
  rw [fileBlocks, List.map_append]
  by_cases h : ndirect < blockCount d i
  · rw [if_pos h, if_pos h]
    rfl
  · rw [if_neg h, if_neg h]
    rfl

theorem mem_keyList {n k : ℕ} :
    k ∈ (List.range n ++ if ndirect < n then [maxFile] else []) ↔ k ∈ keys n := by
  by_cases h : ndirect < n <;> simp [mem_keys, h]

theorem keyList_nodup {n : ℕ} (hn : n ≤ maxFile) :
    (List.range n ++ if ndirect < n then [maxFile] else []).Nodup := by
  by_cases h : ndirect < n
  · rw [if_pos h, List.nodup_append]
    refine ⟨List.nodup_range, List.nodup_singleton _, ?_⟩
    intro a ha b hb
    have := List.mem_range.1 ha
    rw [List.mem_singleton] at hb
    omega
  · rw [if_neg h, List.append_nil]
    exact List.nodup_range

theorem mem_fileBlocks (hi : Live d i) (hsmall : Small d i) : b ∈ fileBlocks d i ↔ Owns d i b := by
  have hheld : held (inodeOf d i) = blockCount d i := held_eq hsmall
  rw [fileBlocks_eq, List.mem_map, Owns, hheld]
  constructor
  · rintro ⟨k, hk, rfl⟩
    exact ⟨hi, k, mem_keyList.1 hk, rfl⟩
  · rintro ⟨-, k, hk, rfl⟩
    exact ⟨k, mem_keyList.2 hk, rfl⟩

theorem Inv.ownership (hinv : Inv d) (hall : AllSmall d) : Ownership d := by
  have hheld : ∀ i, Live d i → held (inodeOf d i) = blockCount d i :=
    fun i hi => held_eq (hall i hi)
  have hmem : ∀ i, Live d i → ∀ b, b ∈ fileBlocks d i ↔ Owns d i b :=
    fun i hi b => mem_fileBlocks hi (hall i hi)
  constructor
  · intro i hi b hb
    exact dataBlock_of_mapped (((hmem i hi b).1 hb).mapped hinv)
  · intro i hi
    have hs := hinv.sound i hi
    have hfew := hs.few
    have hinj := hs.inj
    rw [hheld i hi] at hfew hinj
    rw [fileBlocks_eq]
    refine (keyList_nodup hfew).map_on fun k hk l hl heq => ?_
    exact hinj (mem_keyList.1 hk) (mem_keyList.1 hl) heq
  · intro i j hi hj hne b hbi hbj
    exact hne (hinv.apart i j b ((hmem i hi b).1 hbi) ((hmem j hj b).1 hbj))
  · intro b hb
    have hiff : (∃ i, Live d i ∧ b ∈ fileBlocks d i) ↔ ∃ i, Owns d i b :=
      exists_congr fun i =>
        ⟨fun h => (hmem i h.1 b).1 h.2, fun h => ⟨h.1, (hmem i h.1 b).2 h⟩⟩
    rw [hiff]
    by_cases hmap : Mapped b
    · exact hinv.bits b hmap
    · rw [bitOf_of_not_mapped d hb hmap]
      simp only [Bool.false_eq_true, false_iff, not_exists]
      exact fun i ho => hmap (ho.mapped hinv)
  · intro i hi
    rw [(hinv.sound i hi).indirect, hheld i hi]

/-- Along every run of requests on a new server, the blocks that files refer to are distinct data
blocks, and they are exactly those that are marked as used. -/
theorem blocks_owned (hf : Fresh d₀) (hr : Run Step d₀ tr d) (hput : ∀ l ∈ tr, PutFits l.1) :
    Ownership d :=
  Inv.ownership (run_inv hf hr) (run_allSmall hf hr hput)

/-- A file with an indirect block. -/
theorem blocks_owned_indirect : ∃ d₀ tr d, (Fresh d₀ ∧ Run Step d₀ tr d ∧
    (.put 2 (List.replicate 20000 7), {}) ∈ tr) ∧ Ownership d := by
  have hf : Fresh _ := ⟨⟨0, Vector.replicate _ 0, fun _ => 0⟩, newServer_eq _⟩
  have hfit : (List.replicate 20000 (7 : UInt8)).length ≤ maxFile * blockSize := by
    rw [List.length_replicate]
    decide
  obtain ⟨d, hr⟩ := hf.run_put hfit
  refine ⟨_, _, d, ⟨hf, hr, .tail _ (.head _)⟩, blocks_owned hf hr ?_⟩
  intro l hl
  rcases List.mem_cons.1 hl with rfl | hl
  · trivial
  · rw [List.mem_singleton] at hl
    subst hl
    exact hfit

end Yfs.OwnedBlocks
