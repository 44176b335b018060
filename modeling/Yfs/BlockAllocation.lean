import Yfs.BlockManager

/-!
# Allocating and freeing blocks

Any sequence of `alloc_block` and of `free_block` on allocated blocks. The allocator does what it
should up to block 4098; the bit of the next block lies behind the buffer.
-/

namespace Yfs.BlockAllocation
open CallTrees LabelledRuns MemoryBlocks BlockManager

/-- `[IBLOCK(ninodes-1)+1, nblocks)` -/
def DataBlock (b : ℕ) : Prop := firstData ≤ b ∧ b < blockNum

/-- The disk and the blocks that are allocated. -/
structure State where
  disk : Disk
  used : Finset ℕ

inductive Event where
  | alloc (b : ℕ)
  | free (b : ℕ)
  deriving DecidableEq, Repr

inductive Step : State → Event → State → Prop where
  | alloc {s : State} {b : ℕ} {d : Disk} (junk : Block)
      (h : exec (allocBlock junk) s.disk = .ok (b, d)) :
      Step s (.alloc b) ⟨d, if b = 0 then s.used else insert b s.used⟩
  | free {s : State} {b : ℕ} {d : Disk} (junk : Block) (hm : b ∈ s.used)
      (h : exec (freeBlock junk b) s.disk = .ok ((), d)) : Step s (.free b) ⟨d, s.used.erase b⟩

/-- A new `block_manager`: the disk is all zero. -/
def fresh : State := ⟨fun _ => Vector.replicate _ 0, ∅⟩

/-- No block outside of the bitmap has changed. -/
def OnlyBitmap (d d' : Disk) : Prop := ∀ k, (k < 2 ∨ 9 < k) → d' k = d k

/-- The next `alloc_block` stays within its buffer and hands out the smallest free block. -/
def AllocCorrect (s : State) : Prop :=
  ∀ junk, ∃ b d, exec (allocBlock junk) s.disk = .ok (b, d) ∧ OnlyBitmap s.disk d ∧
    (b ≠ 0 → DataBlock b ∧ b ∉ s.used ∧ ∀ b', DataBlock b' → b' ∉ s.used → b ≤ b') ∧
    (b = 0 → ∀ b', DataBlock b' → b' ∈ s.used)

/-- The next `free_block` of an allocated block stays within its buffer and clears its bit only. -/
def FreeCorrect (s : State) : Prop :=
  ∀ junk, ∀ b ∈ s.used, ∃ d, exec (freeBlock junk b) s.disk = .ok ((), d) ∧
    OnlyBitmap s.disk d ∧ bitOf d b = false ∧
      ∀ b', DataBlock b' → b' ≠ b → bitOf d b' = bitOf s.disk b'

/-- The bits say which blocks are allocated. -/
structure Marked (s : State) : Prop where
  mapped : ∀ b ∈ s.used, Mapped b
  bits : ∀ b, Mapped b → (bitOf s.disk b = true ↔ b ∈ s.used)

variable {s s' : State} {e : Event} {tr : List Event} {b : ℕ}

theorem marked_fresh : Marked fresh := by
  refine ⟨by simp [fresh], ?_⟩
  intro b hb
  have hzero : bitOf fresh.disk b = false := by
    simp [bitOf, bitAt, byteAt, fresh, hb.inside]
  rw [hzero]
  simp [fresh]

theorem Marked.free_iff (h : Marked s) (hb : Mapped b) : bitOf s.disk b = false ↔ b ∉ s.used := by
  rw [← h.bits b hb, Bool.not_eq_true]

/-- While some mapped block is free, the smallest one is handed out. -/
theorem Marked.exec_alloc (h : Marked s) (hfree : ∃ b, Mapped b ∧ b ∉ s.used) :
    ∃ b, Mapped b ∧ b ∉ s.used ∧ (∀ k, firstData ≤ k → k < b → k ∈ s.used) ∧
      ∀ junk, exec (allocBlock junk) s.disk = .ok (b, mark s.disk b true) := by
  obtain ⟨b₀, hb₀, hno⟩ := hfree
  obtain ⟨b, hb, hbit, hlt⟩ := exists_first_free ⟨b₀, hb₀, (h.free_iff hb₀).2 hno⟩
  refine ⟨b, hb, (h.free_iff hb).1 hbit, ?_, fun junk => exec_allocBlock hb hlt hbit⟩
  intro k hk hkb
  exact (h.bits k ⟨hk, hkb.le.trans hb.2⟩).1 (hlt k hk hkb)

theorem Marked.exec_alloc_full (h : Marked s) (hfull : ∀ b, Mapped b → b ∈ s.used) (junk : Block) :
    exec (allocBlock junk) s.disk = .error .outside :=
  exec_allocBlock_full fun k hk => (h.bits k hk).2 (hfull k hk)

theorem Marked.mark (h : Marked s) (hb : Mapped b) (used : Bool) :
    Marked ⟨mark s.disk b used, if used then insert b s.used else s.used.erase b⟩ := by
  constructor
  · intro b' hb'
    cases used with
    | true =>
      rcases Finset.mem_insert.1 hb' with rfl | hb'
      · exact hb
      · exact h.mapped b' hb'
    | false => exact h.mapped b' (Finset.mem_of_mem_erase hb')
  · intro b' hb'
    change bitOf (BlockManager.mark s.disk b used) b' = true ↔ _
    rw [bitOf_mark hb hb']
    by_cases hbb : b' = b
    · subst hbb
      cases used <;> simp
    · rw [if_neg hbb, h.bits b' hb']
      cases used <;> simp [hbb]

theorem Marked.step (h : Marked s) (hs : Step s e s') : Marked s' := by
  cases hs with
  | @alloc b d junk he =>
    by_cases hfree : ∃ b, Mapped b ∧ b ∉ s.used
    · obtain ⟨b', hb', -, -, hexec⟩ := h.exec_alloc hfree
      rw [hexec junk] at he
      cases he
      rw [if_neg hb'.ne_zero]
      exact h.mark hb' true
    · have hfull : ∀ b, Mapped b → b ∈ s.used := by
        intro b hb
        by_contra hno
        exact hfree ⟨b, hb, hno⟩
      rw [h.exec_alloc_full hfull junk] at he
      cases he
  | @free b d junk hm he =>
    have hb := h.mapped _ hm
    rw [exec_freeBlock hb] at he
    cases he
    exact h.mark hb false

theorem run_marked (hr : Run Step fresh tr s) : Marked s :=
  hr.invariant marked_fresh fun _ _ _ h hs => h.step hs

theorem onlyBitmap_mark (hb : Mapped b) (used : Bool) (d : Disk) : OnlyBitmap d (mark d b used) :=
  fun _ hk => mark_other hb.lt used hk

theorem dataBlock_of_mapped (hb : Mapped b) : DataBlock b := ⟨hb.1, hb.lt⟩

/-- The bit of a block that is not mapped lies behind the buffer, and reads as clear. -/
theorem bitOf_of_not_mapped (d : Disk) (hb : DataBlock b) (hno : ¬Mapped b) : bitOf d b = false := by
  have hlt : lastMapped < b := by
    by_contra hle
    exact hno ⟨hb.1, by omega⟩
  have hout : blockSize ≤ bitIndex b / 8 := by
    rw [bitIndex_eq hb.1 hb.2]
    have := hb.2
    simp only [lastMapped, bblock, bpb, blockSize, blockNum] at *
    omega
  simp [bitOf, bitAt, byteAt_of_le _ hout]

theorem Marked.free_correct (h : Marked s) : FreeCorrect s := by
  intro junk b hm
  have hb := h.mapped b hm
  refine ⟨_, exec_freeBlock hb, onlyBitmap_mark hb false _, ?_, ?_⟩
  · rw [bitOf_mark hb hb, if_pos rfl]
  · intro b' hb' hne
    by_cases hmap : Mapped b'
    · rw [bitOf_mark hb hmap, if_neg hne]
    · rw [bitOf_of_not_mapped _ hb' hmap, bitOf_of_not_mapped _ hb' hmap]

theorem Marked.alloc_correct (h : Marked s) (hfree : ∃ b, Mapped b ∧ b ∉ s.used) :
    AllocCorrect s := by
  intro junk
  obtain ⟨b, hb, hno, hlt, hexec⟩ := h.exec_alloc hfree
  refine ⟨b, _, hexec junk, onlyBitmap_mark hb true _, ?_, fun hz => absurd hz hb.ne_zero⟩
  intro _
  refine ⟨dataBlock_of_mapped hb, hno, ?_⟩
  intro b' hb' hno'
  by_contra hlt'
  exact hno' (hlt b' hb'.1 (by omega))

/-- Along every run, the next `alloc_block` is correct exactly when a block up to 4098 is free, and
the next `free_block` is correct in any case. -/
theorem allocator_correct_iff (hr : Run Step fresh tr s) :
    (AllocCorrect s ↔ ∃ b, Mapped b ∧ b ∉ s.used) ∧ FreeCorrect s := by
  have h := run_marked hr
  refine ⟨⟨fun hc => ?_, h.alloc_correct⟩, h.free_correct⟩
  by_contra hno
  have hfull : ∀ b, Mapped b → b ∈ s.used := by
    intro b hb
    by_contra hb'
    exact hno ⟨b, hb, hb'⟩
  obtain ⟨b, d, he, -⟩ := hc (Vector.replicate _ 0)
  rw [h.exec_alloc_full hfull] at he
  cases he

/-- The block behind those that are allocated is handed out next. -/
theorem Marked.step_alloc (h : Marked s) (hb : Mapped b) (hno : b ∉ s.used)
    (hlt : ∀ k, firstData ≤ k → k < b → k ∈ s.used) :
    Step s (.alloc b) ⟨BlockManager.mark s.disk b true, insert b s.used⟩ := by
  have hbits : ∀ k, firstData ≤ k → k < b → bitOf s.disk k = true := by
    intro k hk hkb
    exact (h.bits k ⟨hk, hkb.le.trans hb.2⟩).2 (hlt k hk hkb)
  have hstep := Step.alloc (Vector.replicate _ 0) (exec_allocBlock hb hbits ((h.free_iff hb).2 hno))
  rwa [if_neg hb.ne_zero] at hstep

theorem Marked.step_free (h : Marked s) (hm : b ∈ s.used) :
    Step s (.free b) ⟨BlockManager.mark s.disk b false, s.used.erase b⟩ :=
  .free (Vector.replicate _ 0) hm (exec_freeBlock (h.mapped b hm))

/-- Two blocks are allocated and the first one is freed. -/
theorem allocator_correct_reused : ∃ s, Run Step fresh [.alloc 353, .alloc 354, .free 353] s ∧
    s.used = {354} ∧ AllocCorrect s ∧ FreeCorrect s := by
  have h₁ := marked_fresh.step_alloc (b := 353) (by decide) (by simp [fresh])
    fun k hk hlt => absurd hlt (by rw [firstData_eq] at hk; omega)
  have hm₁ := marked_fresh.step h₁
  have h₂ := hm₁.step_alloc (b := 354) (by decide) (by simp [fresh]) fun k hk hlt => by
    rw [firstData_eq] at hk
    obtain rfl : k = 353 := by omega
    exact Finset.mem_insert_self _ _
  have hm₂ := hm₁.step h₂
  have h₃ := hm₂.step_free (b := 353) (by simp)
  have hr := ((Run.single h₁).snoc h₂).snoc h₃
  obtain ⟨halloc, hfree⟩ := allocator_correct_iff hr
  exact ⟨_, hr, by decide, halloc.2 ⟨353, by decide, by simp⟩, hfree⟩

/-! ## Filling the bitmap -/

/-- After `n` allocations the first `n` data blocks are allocated. -/
theorem run_alloc (n : ℕ) (hn : n ≤ 3746) : ∃ tr s, Run Step fresh tr s ∧
    ∀ b, b ∈ s.used ↔ firstData ≤ b ∧ b < firstData + n := by
  induction n with
  | zero => exact ⟨[], fresh, .nil, fun b => by simp [fresh]⟩
  | succ n ih =>
    obtain ⟨tr, s, hr, hused⟩ := ih (by omega)
    have hlast : Mapped (firstData + n) := by
      refine ⟨by omega, ?_⟩
      rw [firstData_eq]
      simp only [lastMapped]
      omega
    have hno : firstData + n ∉ s.used := by
      rw [hused]
      omega
    have hstep := (run_marked hr).step_alloc hlast hno fun k hk hlt => (hused k).2 ⟨hk, hlt⟩
    refine ⟨_, _, hr.snoc hstep, fun b => ?_⟩
    rw [Finset.mem_insert, hused]
    omega

/-- With 3746 blocks allocated and 28669 left, the next allocation reads behind its buffer. -/
theorem alloc_leaves_buffer : ∃ tr s, Run Step fresh tr s ∧
    (DataBlock 4099 ∧ 4099 ∉ s.used) ∧
    ∀ junk, exec (allocBlock junk) s.disk = .error .outside := by
  obtain ⟨tr, s, hr, hused⟩ := run_alloc 3746 (le_refl _)
  rw [firstData_eq] at hused
  refine ⟨tr, s, hr, ⟨⟨by decide, by decide⟩, by rw [hused]; omega⟩, ?_⟩
  apply (run_marked hr).exec_alloc_full
  intro b hb
  have h₁ := hb.1
  have h₂ := hb.2
  rw [firstData_eq] at h₁
  simp only [lastMapped] at h₂
  rw [hused]
  omega

end Yfs.BlockAllocation
