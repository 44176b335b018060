import Yfs.InodeManager

/-!
# The inode table

Inodes on the disk, apart from the blocks that they share, and what `get_inode`, `put_inode` and
`alloc_inode` do to them.
-/

namespace Yfs.InodeTable
open CallTrees MemoryBlocks BlockManager InodeManager

/-- Inode `i` on the disk. -/
def inodeOf (d : Disk) (i : ℕ) : Inode := inodeIn (d (iblock i)) (i % ipb)

def setInode (d : Disk) (i : ℕ) (ino : Inode) : Disk :=
  Function.update d (iblock i) (putIn (d (iblock i)) (i % ipb) ino)

def Live (d : Disk) (i : ℕ) : Prop := i < inodeNum ∧ inoType (inodeOf d i) ≠ 0

instance (d : Disk) (i : ℕ) : Decidable (Live d i) := inferInstanceAs (Decidable (_ ∧ _))

variable {d : Disk} {env : Env} {ino : Inode} {buf : Block} {i j k b n m x o type : ℕ}

/-! ## Fields -/

theorem inoType_store (h : 2 ≤ o) : inoType (store 4 ino o x) = inoType ino :=
  load_store_other _ _ (.inl h) (by decide)

theorem inoSize_store (h : 8 ≤ o) : inoSize (store 4 ino o x) = inoSize ino :=
  load_store_other _ _ (.inl h) (by decide)

theorem inoBlock_store (h : o + 4 ≤ 20) (hk : k ≤ 32) :
    inoBlock (store 4 ino o x) k = inoBlock ino k :=
  load_store_other _ _ (.inr (by omega)) (by simp only [inodeSize]; omega)

theorem inoBlock_setBlock (hk : k ≤ 32) (hj : j ≤ 32) (hx : x < 2 ^ 32) :
    inoBlock (setBlock ino j x) k = if k = j then x else inoBlock ino k := by
  by_cases hkj : k = j
  · subst hkj
    rw [if_pos rfl, inoBlock, setBlock, load_store_same _ _ (by simp only [inodeSize]; omega)]
    exact Nat.mod_eq_of_lt hx
  · rw [if_neg hkj, inoBlock, setBlock,
      load_store_other _ _ (by omega) (by simp only [inodeSize]; omega), inoBlock]

@[simp] theorem inoType_setBlock : inoType (setBlock ino k x) = inoType ino :=
  inoType_store (by omega)

@[simp] theorem inoSize_setBlock : inoSize (setBlock ino k x) = inoSize ino :=
  inoSize_store (by omega)

@[simp] theorem inoType_setAtime : inoType (setAtime ino x) = inoType ino :=
  inoType_store (by decide)

@[simp] theorem inoSize_setAtime : inoSize (setAtime ino x) = inoSize ino :=
  inoSize_store (by decide)

theorem inoBlock_setAtime (hk : k ≤ 32) : inoBlock (setAtime ino x) k = inoBlock ino k :=
  inoBlock_store (by decide) hk

@[simp] theorem inoType_stamp (size : ℤ) : inoType (stamp env size ino) = inoType ino := by
  simp only [stamp, setSize, setMtime, setCtime]
  rw [inoType_store (by decide), inoType_store (by decide), inoType_store (by decide)]

theorem inoSize_stamp (size : ℤ) : inoSize (stamp env size ino) = (size % 2 ^ 32).toNat := by
  have h : (size % 2 ^ 32).toNat < 256 ^ 4 := by omega
  rw [stamp, inoSize, setSize, load_store_same _ _ (by decide), Nat.mod_eq_of_lt h]

theorem inoBlock_stamp (size : ℤ) (hk : k ≤ 32) :
    inoBlock (stamp env size ino) k = inoBlock ino k := by
  simp only [stamp, setSize, setMtime, setCtime]
  rw [inoBlock_store (by decide) hk, inoBlock_store (by decide) hk,
    inoBlock_store (by decide) hk]

theorem inoType_free : inoType (setCtime (setMtime (setType ino 0) env.now) env.now) = 0 := by
  simp only [setMtime, setCtime]
  rw [inoType_store (by decide), inoType_store (by decide), inoType, setType,
    load_store_same _ _ (by decide), Nat.zero_mod]

/-- Clearing the blocks touches nothing else. -/
theorem clear_blocks (ks : List ℕ) (hks : ∀ k ∈ ks, k ≤ 32) (ino : Inode) :
    let ino' := ks.foldl (fun ino k => setBlock ino k 0) ino
    inoType ino' = inoType ino ∧ inoSize ino' = inoSize ino ∧
      ∀ j ≤ 32, inoBlock ino' j = if j ∈ ks then 0 else inoBlock ino j := by
  induction ks generalizing ino with
  | nil => simp
  | cons k ks ih =>
    obtain ⟨htype, hsize, hblock⟩ := ih (fun k hk => hks k (by simp [hk])) (setBlock ino k 0)
    refine ⟨by simpa using htype, by simpa using hsize, ?_⟩
    intro j hj
    have hjk := hblock j hj
    rw [inoBlock_setBlock hj (hks k (by simp)) (by decide)] at hjk
    rw [List.foldl_cons, hjk]
    by_cases hmem : j ∈ ks
    · simp [hmem]
    · by_cases heq : j = k <;> simp [hmem, heq]

theorem inoType_newInode : inoType (newInode env type ino) = type % 2 ^ 16 := by
  rw [newInode, (clear_blocks _ (by decide) _).1]
  simp only [setMtime, setCtime, setSize]
  rw [inoType_store (by decide), inoType_store (by decide), inoType_store (by decide), inoType,
    setType, load_store_same _ _ (by decide)]
  norm_num

theorem inoSize_newInode : inoSize (newInode env type ino) = 0 := by
  rw [newInode, (clear_blocks _ (by decide) _).2.1]
  simp only [setMtime, setCtime]
  rw [inoSize_store (by decide), inoSize_store (by decide), inoSize, setSize,
    load_store_same _ _ (by decide), Nat.zero_mod]

theorem inoBlock_newInode (hk : k ≤ 32) : inoBlock (newInode env type ino) k = 0 := by
  rw [newInode, (clear_blocks _ (by decide) _).2.2 k hk, if_pos]
  rw [List.mem_range, ndirect]
  omega

/-! ## Areas of the disk -/

theorem iblock_eq (i : ℕ) : iblock i = i / 3 + 11 := by
  simp only [iblock, blockNum, bpb, ipb]
  omega

theorem iblock_lt (h : i < inodeNum) : iblock i < firstData := by
  rw [iblock_eq, firstData_eq]
  simp only [inodeNum] at h
  omega

/-- The inode table lies in front of the blocks that are handed out. -/
theorem not_mapped_iblock (h : i < inodeNum) : ¬Mapped (iblock i) := fun hm =>
  absurd (iblock_lt h) (not_lt.2 hm.1)

theorem iblock_lt_num (h : i < inodeNum) : iblock i < blockNum :=
  (iblock_lt h).trans (by decide)

theorem inodeIn_putIn (hj : j < 3) (hk : k < 3) :
    inodeIn (putIn buf k ino) j = if j = k then ino else inodeIn buf j := by
  by_cases hjk : j = k
  · subst hjk
    rw [if_pos rfl, inodeIn, putIn, slice_blit_same _ _ (by simp only [inodeSize, blockSize]; omega)]
  · rw [if_neg hjk, inodeIn, putIn, slice_blit_other _ _ (by simp only [inodeSize]; omega)
      (by simp only [inodeSize, blockSize]; omega), inodeIn]

@[simp] theorem inodeOf_setInode :
    inodeOf (setInode d i ino) j = if j = i then ino else inodeOf d j := by
  have hi : i % ipb < 3 := Nat.mod_lt _ (by decide)
  have hj : j % ipb < 3 := Nat.mod_lt _ (by decide)
  unfold inodeOf setInode
  by_cases hb : iblock j = iblock i
  · rw [hb, Function.update_self, inodeIn_putIn hj hi]
    have hiff : j % ipb = i % ipb ↔ j = i := by
      rw [iblock_eq, iblock_eq] at hb
      simp only [ipb]
      omega
    simp only [hiff]
  · rw [Function.update_of_ne hb, if_neg (by rintro rfl; exact hb rfl)]

theorem setInode_data (hi : i < inodeNum) (hb : firstData ≤ b) : setInode d i ino b = d b :=
  Function.update_of_ne (by have := iblock_lt hi; omega) _ _

theorem bitOf_setInode (hb : Mapped b) : bitOf (setInode d i ino) b = bitOf d b := by
  unfold bitOf setInode
  rw [Function.update_of_ne]
  have := (bblock_mem hb.lt).2
  rw [iblock_eq]
  omega

theorem inodeOf_mark (hb : Mapped b) (used : Bool) : inodeOf (mark d b used) j = inodeOf d j := by
  unfold inodeOf
  rw [mark_other hb.lt used (by rw [iblock_eq]; omega)]

theorem mark_data (hb : Mapped b) (used : Bool) (hk : firstData ≤ k) : mark d b used k = d k := by
  rw [firstData_eq] at hk
  exact mark_other hb.lt used (by omega)

theorem inodeOf_update (hb : Mapped b) (hj : ¬Mapped (iblock j)) :
    inodeOf (Function.update d b buf) j = inodeOf d j := by
  unfold inodeOf
  rw [Function.update_of_ne (by rintro rfl; exact hj hb)]

theorem bitOf_update (hb : firstData ≤ b) (hk : Mapped k) :
    bitOf (Function.update d b buf) k = bitOf d k := by
  unfold bitOf
  rw [Function.update_of_ne]
  have := (bblock_mem hk.lt).2
  rw [firstData_eq] at hb
  omega

/-! ## Getting and putting -/

theorem exec_getInode (h : i < inodeNum) : exec (getInode env i) d =
    .ok (if inoType (inodeOf d i) = 0 then none else some (inodeOf d i), d) := by
  rw [getInode, if_neg (by omega), exec_then (exec_readBlock (iblock_lt_num h))]
  rfl

theorem exec_getInode_live (h : Live d i) :
    exec (getInode env i) d = .ok (some (inodeOf d i), d) := by
  rw [exec_getInode h.1, if_neg h.2]

theorem exec_getInode_not (h : ¬Live d i) : exec (getInode env i) d = .ok (none, d) := by
  by_cases hi : i < inodeNum
  · rw [exec_getInode hi, if_pos (by by_contra hne; exact h ⟨hi, hne⟩)]
  · rw [getInode, if_pos (by omega)]
    rfl

theorem exec_putInode (h : i < inodeNum) :
    exec (putInode env i ino) d = .ok ((), setInode d i ino) := by
  rw [putInode, exec_then (exec_readBlock (iblock_lt_num h)), exec_writeBlock (iblock_lt_num h)]
  rfl

theorem exec_freeInode (h : Live d i) : exec (freeInode env i) d = .ok ((),
    setInode d i (setCtime (setMtime (setType (inodeOf d i) 0) env.now) env.now)) := by
  rw [freeInode, exec_then (exec_getInode_live h)]
  exact exec_putInode h.1

/-! ## Allocating -/

/-- The loop passes over inode `m` of a block. -/
def Passed (buf : Block) (i m : ℕ) : Prop :=
  (i = 0 ∧ m = 0) ∨ (m + i * ipb < inodeNum ∧ inoType (inodeIn buf m) ≠ 0)

/-- How the loop over inodes `j` to `j + n - 1` of a block may end. -/
def Search (buf : Block) (i j n : ℕ) : Found → Prop
  | .no => ∀ m, j ≤ m → m < j + n → Passed buf i m
  | .stop => ∃ m, m < j + n ∧ inodeNum ≤ m + i * ipb ∧ ∀ k, j ≤ k → k < m → Passed buf i k
  | .at m => m < j + n ∧ ¬(i = 0 ∧ m = 0) ∧ m + i * ipb < inodeNum ∧
      inoType (inodeIn buf m) = 0 ∧ ∀ k, j ≤ k → k < m → Passed buf i k

theorem Search.cons {f : Found} (hj : Passed buf i j) (h : Search buf i (j + 1) n f) :
    Search buf i j (n + 1) f := by
  have passed {m : ℕ} (hm : ∀ k, j + 1 ≤ k → k < m → Passed buf i k) :
      ∀ k, j ≤ k → k < m → Passed buf i k := by
    intro k h₁ h₂
    rcases eq_or_lt_of_le h₁ with rfl | h₁
    · exact hj
    · exact hm k h₁ h₂
  cases f with
  | no => exact passed fun k h₁ h₂ => h k h₁ (by omega)
  | stop =>
    obtain ⟨m, hm, hout, hpassed⟩ := h
    exact ⟨m, by omega, hout, passed hpassed⟩
  | «at» m =>
    obtain ⟨hm, hne, hin, hfree, hpassed⟩ := h
    exact ⟨by omega, hne, hin, hfree, passed hpassed⟩

theorem searchInode_spec (n j : ℕ) : Search buf i j n (searchInode buf i (List.range' j n)) := by
  induction n generalizing j with
  | zero =>
    intro m h₁ h₂
    omega
  | succ n ih =>
    rw [List.range'_succ, searchInode]
    have none {m : ℕ} (hm : m ≤ j) : ∀ k, j ≤ k → k < m → Passed buf i k := by
      intro k h₁ h₂
      omega
    by_cases hfirst : i = 0 ∧ j = 0
    · rw [if_pos hfirst]
      exact (ih (j + 1)).cons (.inl hfirst)
    rw [if_neg hfirst]
    by_cases hout : inodeNum ≤ j + i * ipb
    · rw [if_pos hout]
      exact ⟨j, by omega, hout, none (le_refl j)⟩
    rw [if_neg hout]
    generalize htype : inoType (inodeIn buf j) = t
    by_cases hfree : t = 0
    · rw [if_pos hfree]
      exact ⟨by omega, hfirst, by omega, htype.trans hfree, none (le_refl j)⟩
    · rw [if_neg hfree]
      exact (ih (j + 1)).cons (.inr ⟨by omega, by rwa [htype]⟩)

/-- Inodes `3 * i + m` of the table. -/
theorem iblock_block (hm : m < 3) : iblock (m + i * ipb) = i + iblock 0 := by
  rw [iblock_eq, iblock_eq]
  simp only [ipb]
  omega

theorem mod_block (hm : m < 3) : (m + i * ipb) % ipb = m := by
  simp only [ipb]
  omega

theorem inodeOf_block (hm : m < 3) : inodeOf d (m + i * ipb) = inodeIn (d (i + iblock 0)) m := by
  rw [inodeOf, iblock_block hm, mod_block hm]

/-- The inodes that the loops have passed over are live. -/
theorem live_of_passed (hi : ∀ k, 0 < k → k < i * ipb → Live d k) (hm : m ≤ 3)
    (h : ∀ k, 0 ≤ k → k < m → Passed (d (i + iblock 0)) i k) :
    ∀ k, 0 < k → k < m + i * ipb → Live d k := by
  intro k h₁ h₂
  by_cases hk : k < i * ipb
  · exact hi k h₁ hk
  · obtain ⟨r, rfl⟩ : ∃ r, k = r + i * ipb := ⟨k - i * ipb, by omega⟩
    rcases h r (by omega) (by omega) with ⟨rfl, rfl⟩ | ⟨h₃, h₄⟩
    · simp at h₁
    · exact ⟨h₃, by rwa [inodeOf_block (by omega)]⟩

theorem exec_allocInodeLoop (hn : n + i = 342) (hi : ∀ k, 0 < k → k < i * ipb → Live d k) :
    (∃ m, 0 < m ∧ m < inodeNum ∧ ¬Live d m ∧ (∀ k, 0 < k → k < m → Live d k) ∧
      exec (allocInodeLoop env type n i buf) d =
        .ok (m, setInode d m (newInode env type (inodeOf d m)))) ∨
    ((∀ k, 0 < k → k < inodeNum → Live d k) ∧
      exec (allocInodeLoop env type n i buf) d = .ok (0, d)) := by
  induction n generalizing i buf with
  | zero =>
    refine .inr ⟨fun k h₁ h₂ => hi k h₁ ?_, rfl⟩
    simp only [ipb, inodeNum] at *
    omega
  | succ n ih =>
    have hlt : i + iblock 0 < blockNum := by
      rw [iblock_eq]
      simp only [blockNum]
      omega
    rw [allocInodeLoop, exec_then (exec_readBlock hlt), List.range_eq_range']
    have hspec : Search (d (i + iblock 0)) i 0 ipb _ := searchInode_spec ipb 0
    cases hs : searchInode (d (i + iblock 0)) i (List.range' 0 ipb) with
    | no =>
      rw [hs] at hspec
      refine ih (by omega) ?_
      have h := live_of_passed hi (le_refl 3) fun k _ hk =>
        hspec k (by omega) (by simpa [ipb] using hk)
      intro k h₁ h₂
      refine h k h₁ ?_
      simp only [ipb] at *
      omega
    | stop =>
      rw [hs] at hspec
      obtain ⟨m, h₂, h₃, h₄⟩ := hspec
      simp only [ipb] at h₂
      refine .inr ⟨fun k h₁ h₂ => live_of_passed hi (by omega) h₄ k h₁ (by omega), rfl⟩
    | «at» m =>
      rw [hs] at hspec
      obtain ⟨h₂, h₃, h₄, h₅, h₆⟩ := hspec
      simp only [ipb] at h₂
      have hm : m < 3 := by omega
      refine .inl ⟨m + i * ipb, ?_, h₄, ?_, live_of_passed hi (by omega) h₆, ?_⟩
      · simp only [ipb]
        omega
      · intro hlive
        rw [Live, inodeOf_block hm] at hlive
        exact hlive.2 h₅
      · change exec (writeBlock _ _ >>= fun _ => pure (m + i * ipb)) d = _
        rw [exec_then (exec_writeBlock hlt), exec_pure, inodeOf_block hm, setInode,
          iblock_block hm, mod_block hm]

/-- `alloc_inode` takes the first inode that is free, other than inode 0. -/
theorem exec_allocInode (env : Env) (type : ℕ) (d : Disk) :
    (∃ m, 0 < m ∧ m < inodeNum ∧ ¬Live d m ∧ (∀ k, 0 < k → k < m → Live d k) ∧
      exec (allocInode env type) d = .ok (m, setInode d m (newInode env type (inodeOf d m)))) ∨
    ((∀ k, 0 < k → k < inodeNum → Live d k) ∧ exec (allocInode env type) d = .ok (0, d)) :=
  exec_allocInodeLoop (by decide) fun k h₁ h₂ => by omega

end Yfs.InodeTable
