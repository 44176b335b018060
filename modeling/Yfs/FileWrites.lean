import Yfs.BlockOwnership

/-!
# `write_file`, `remove_file` and the others rewrite one file
-/

namespace Yfs.FileWrites
open CallTrees MemoryBlocks BlockManager InodeManager InodeTable FileBlocks BlockOwnership
open LockProtocol (Str)

variable {d d' d₁ d₂ : Disk} {env : Env} {ino : Inode} {ind : Block} {buf : Str} {size : ℤ}
  {i j k b n m x type : ℕ} {room : Prop}

/-! ## Sizes -/

/-- An `int`. -/
def IsInt (size : ℤ) : Prop := -2 ^ 31 ≤ size ∧ size < 2 ^ 31

theorem isInt_toInt (x : ℕ) : IsInt (toInt x) := by
  unfold IsInt toInt
  omega

theorem toInt_eq (h : x < 2 ^ 31) : toInt x = x := by
  unfold toInt
  omega

theorem toInt_mod (h : IsInt size) : toInt (size % 2 ^ 32).toNat = size := by
  unfold IsInt at h
  unfold toInt
  omega

theorem ceilInt_natCast (x : ℕ) : ceilInt x = ceil x blockSize := by
  unfold ceilInt ceil
  have h₁ : (x : ℤ).tdiv (blockSize : ℕ) = (x / blockSize : ℕ) := (Int.ofNat_tdiv x blockSize).symm
  have h₂ : (x : ℤ).tmod (blockSize : ℕ) = (x % blockSize : ℕ) := (Int.ofNat_tmod x blockSize).symm
  rw [h₁, h₂]
  by_cases h : x % blockSize = 0
  · rw [if_pos h, if_pos (by omega)]
    rfl
  · rw [if_neg h, if_neg (by omega)]
    push_cast
    rfl

theorem ceilInt_neg (x : ℕ) : ceilInt (-(x : ℤ)) =
    -((x / blockSize : ℕ) : ℤ) + if x % blockSize = 0 then 0 else 1 := by
  unfold ceilInt
  rw [Int.neg_tdiv, Int.neg_tmod, ← Int.ofNat_tdiv, ← Int.ofNat_tmod]
  by_cases h : x % blockSize = 0
  · rw [if_pos h, if_pos (by omega)]
  · rw [if_neg h, if_neg (by omega)]

theorem ceil_le : ceil x blockSize ≤ maxFile ↔ x ≤ maxFile * blockSize := by
  simp only [ceil, blockSize, maxFile]
  split <;> omega

/-- The sizes that need at most 160 blocks. -/
theorem size_bounds (h₁ : 0 ≤ ceilInt size) (h₂ : (ceilInt size).toNat ≤ maxFile) :
    -1024 < size ∧ size ≤ maxFile * blockSize := by
  rcases Int.eq_nat_or_neg size with ⟨x, rfl | rfl⟩
  · rw [ceilInt_natCast, Int.toNat_natCast, ceil_le] at h₂
    exact ⟨by omega, by exact_mod_cast h₂⟩
  · rw [ceilInt_neg] at h₁
    simp only [blockSize] at *
    split at h₁ <;> omega

theorem sizeOk_mod (h₁ : 0 ≤ ceilInt size) (h₂ : (ceilInt size).toNat ≤ maxFile) :
    SizeOk (size % 2 ^ 32).toNat := by
  have h := size_bounds h₁ h₂
  simp only [SizeOk, maxFile, blockSize] at *
  omega

theorem held_stamp (h : IsInt size) : held (stamp env size ino) = (ceilInt size).toNat := by
  rw [held, inoSize_stamp, toInt_mod h]

theorem held_eq (h : inoSize ino ≤ maxFile * blockSize) :
    held ino = ceil (inoSize ino) blockSize := by
  rw [held, toInt_eq (by simp only [maxFile, blockSize] at h; omega), ceilInt_natCast,
    Int.toNat_natCast]

/-! ## Ends of `write_file` -/

/-- What `write_file` leaves. -/
structure Written (d d' : Disk) (i : ℕ) (env : Env) (buf : Str) (size : ℤ) : Prop where
  rewrites : Rewrites d d' i
  live : Live d' i
  type : inoType (inodeOf d' i) = inoType (inodeOf d i)
  sized : inoSize (inodeOf d' i) = (size % 2 ^ 32).toNat
  data : ∀ k < (ceilInt size).toNat, d' (diskRef d' i k) = blockAt env buf k

/-- What is known about the file when its inode is put. -/
structure Finished (d : Disk) (i : ℕ) (env : Env) (buf : Str) (m : ℕ) (ino : Inode) (ind : Block)
    (d₁ : Disk) : Prop where
  draft : Draft d (Other d i) ino ind (keys m) d₁
  type : inoType ino = inoType (inodeOf d i)
  indirect : inoBlock ino ndirect ≠ 0 ↔ ndirect < m
  stored : ∀ k ∈ keys m, ref ino (d₁ (inoBlock ino ndirect)) k = ref ino ind k
  data : ∀ k < m, d₁ (ref ino ind k) = blockAt env buf k

theorem Finished.written (h : Finished d i env buf (ceilInt size).toNat ino ind d₁)
    (hinv : Inv d) (hi : Live d i) (hsize : IsInt size) (hpos : 0 ≤ ceilInt size)
    (hmax : (ceilInt size).toNat ≤ maxFile) :
    Meets room (putInode env i (stamp env size ino)) d₁ fun _ d' => Written d d' i env buf size := by
  have hblock : ∀ j ≤ 32, inoBlock (stamp env size ino) j = inoBlock ino j :=
    fun j hj => inoBlock_stamp size hj
  have hzero : i ≠ 0 := by
    rintro rfl
    exact hinv.zero hi
  have htype : inoType (stamp env size ino) = inoType (inodeOf d i) := by
    rw [inoType_stamp, h.type]
  have hino : inodeOf (setInode d₁ i (stamp env size ino)) i = stamp env size ino := by
    rw [inodeOf_setInode, if_pos rfl]
  refine .of_exec (exec_putInode hi.1) ⟨?_, ?_, ?_, ?_, ?_⟩
  · exact Draft.finish h.draft hi.1 hzero hmax (held_stamp hsize)
      (by rw [inoSize_stamp]; exact sizeOk_mod hpos hmax) (by rw [htype]; exact hi.2) hblock
      h.stored h.indirect
  · refine ⟨hi.1, ?_⟩
    rw [hino, htype]
    exact hi.2
  · rw [hino, htype]
  · rw [hino, inoSize_stamp]
  · intro k hk
    rw [Draft.diskRef_eq h.draft hi.1 hblock h.stored (.inl hk),
      setInode_data hi.1 (h.draft.mapped k (.inl hk)).1, h.data k hk]

/-- What is known about the file after its old blocks have been overwritten. -/
structure Started (d : Disk) (i : ℕ) (env : Env) (buf : Str) (n m : ℕ) (ino : Inode) (ind : Block)
    (d₁ : Disk) : Prop where
  draft : Draft d (Other d i) ino ind (keys n) d₁
  few : n ≤ maxFile
  type : inoType ino = inoType (inodeOf d i)
  indirect : inoBlock ino ndirect ≠ 0 ↔ ndirect < n
  stored : ndirect < n → d₁ (inoBlock ino ndirect) = ind
  data : ∀ k < min m n, d₁ (ref ino ind k) = blockAt env buf k

theorem Started.same (h : Started d i env buf n n ino ind d₁) : Finished d i env buf n ino ind d₁ := by
  refine ⟨h.draft, h.type, h.indirect, ?_, fun k hk => h.data k (by omega)⟩
  intro k hk
  refine ref_congr (fun _ _ => rfl) fun h₁ h₂ => h.stored ?_
  rcases maxFile_mem_keys hk h₁ h₂ with hlt | ⟨-, hlt⟩
  · exact absurd h.few (by omega)
  · exact hlt

/-! ## Shrinking -/

/-- The keys that remain when the blocks from `m` on are freed, but not the indirect block. -/
theorem keys_sdiff (hm : m ≤ n) (hn : n ≤ maxFile) (hind : ndirect < n → ndirect < m) :
    keys n \ Set.Ico m (m + (n - m)) = keys m := by
  ext k
  simp only [Set.mem_sdiff, mem_keys, Set.mem_Ico]
  omega

theorem keys_sdiff_indirect (hm : m ≤ ndirect) (hmn : m ≤ n) (hn : n ≤ maxFile) :
    (keys n \ Set.Ico m (m + (n - m))) \ {maxFile} = keys m := by
  have hmax : ndirect < maxFile := by decide
  ext k
  simp only [Set.mem_sdiff, mem_keys, Set.mem_Ico, Set.mem_singleton_iff]
  omega

theorem Started.dropIndirect {ino₁ : Inode} {ind₁ : Block}
    (h : Started d i env buf n m ino ind d₁) (hmn : m < n)
    (hdraft : Draft d (Other d i) ino₁ ind₁ (keys n \ Set.Ico m (m + (n - m))) d₂)
    (htype : inoType ino₁ = inoType ino)
    (href : ∀ k ≤ maxFile, k ∉ Set.Ico m (m + (n - m)) → ref ino₁ ind₁ k = ref ino ind k)
    (hdata : ∀ b, firstData ≤ b → d₂ b = d₁ b) :
    Meets room (InodeManager.dropIndirect env n m ino₁) d₂ fun ino₂ d₃ =>
      ∃ ind₂, Finished d i env buf m ino₂ ind₂ d₃ := by
  have hmax : ndirect < maxFile := by decide
  have hn := h.few
  have hkeep : ∀ k < m, ref ino₁ ind₁ k = ref ino ind k :=
    fun k hk => href k (by omega) (by rintro ⟨h₁, -⟩; omega)
  have hind : inoBlock ino₁ ndirect = inoBlock ino ndirect :=
    href maxFile (le_refl _) (by rintro ⟨-, h₂⟩; omega)
  have hfill : ∀ k < m, d₂ (ref ino₁ ind₁ k) = blockAt env buf k := by
    intro k hk
    rw [hkeep k hk, hdata _ (h.draft.mapped k (.inl (by omega))).1, h.data k (by omega)]
  unfold InodeManager.dropIndirect
  by_cases hdrop : ndirect < n ∧ m ≤ ndirect
  · -- no block of the file is left behind the indirect block
    have hmem : maxFile ∈ keys n \ Set.Ico m (m + (n - m)) :=
      ⟨.inr ⟨rfl, hdrop.1⟩, by rintro ⟨-, h₂⟩; omega⟩
    have hblock : ∀ k < m, ref (setBlock ino₁ ndirect 0) ind₁ k = ref ino₁ ind₁ k := by
      intro k hk
      rw [ref_direct (by omega), ref_direct (by omega),
        inoBlock_setBlock (by simp only [ndirect] at *; omega) (by decide) (by decide),
        if_neg (by omega)]
    have hkeys := keys_sdiff_indirect hdrop.2 hmn.le hn
    have hlt : ∀ k ∈ keys m, k < m := by
      rintro k (hk | ⟨-, hk⟩)
      · exact hk
      · omega
    rw [if_pos hdrop]
    refine .after (exec_freeBlock (hdraft.mapped maxFile hmem)) (.of_exec rfl ⟨ind₁, ?_⟩)
    refine ⟨?_, ?_, ?_, ?_, ?_⟩
    · rw [← hkeys]
      refine (hdraft.free hmem).congr fun k hk => hblock k (hlt k ?_)
      rwa [hkeys] at hk
    · rw [inoType_setBlock, htype, h.type]
    · rw [inoBlock_setBlock (by decide) (by decide) (by decide), if_pos rfl]
      simp only [ne_eq, not_true_eq_false, false_iff]
      omega
    · intro k hk
      have := hlt k hk
      rw [ref_direct (by omega), ref_direct (by omega)]
    · intro k hk
      rw [hblock k hk, ← hfill k hk]
      exact mark_data (hdraft.mapped maxFile hmem) false
        (hdraft.mapped k ⟨.inl (by omega), by rintro ⟨h₁, -⟩; omega⟩).1
  · have hiff : ndirect < n ↔ ndirect < m := by omega
    have hkeys := keys_sdiff hmn.le hn hiff.1
    rw [hkeys] at hdraft
    rw [if_neg hdrop]
    refine .of_exec rfl ⟨ind₁, hdraft, htype.trans h.type, ?_, ?_, hfill⟩
    · rw [hind, h.indirect, hiff]
    · intro k hk
      rcases hk with hk | ⟨rfl, hlt⟩
      · -- the indirect block on the disk still has the references that remain
        by_cases hdir : k < ndirect
        · rw [ref_direct hdir, ref_direct hdir]
        · have hstored : d₂ (inoBlock ino₁ ndirect) = ind := by
            have hmapped : Mapped (inoBlock ino ndirect) :=
              h.draft.mapped maxFile (.inr ⟨rfl, by omega⟩)
            rw [hind, hdata _ hmapped.1, h.stored (by omega)]
          rw [hstored, hkeep k hk]
          unfold ref
          rw [if_neg hdir, if_neg hdir, if_pos (by omega), if_pos (by omega)]
      · rfl

theorem Started.shrink (h : Started d i env buf n (ceilInt size).toNat ino ind d₁)
    (hmn : (ceilInt size).toNat < n) (hinv : Inv d) (hi : Live d i) (hsize : IsInt size)
    (hpos : 0 ≤ ceilInt size) :
    Meets room (InodeManager.shrink env i size n (ceilInt size).toNat ino ind) d₁ fun _ d' =>
      Written d d' i env buf size := by
  have hn := h.few
  have hsub : Set.Ico (ceilInt size).toNat ((ceilInt size).toNat + (n - (ceilInt size).toNat)) ⊆
      keys n := by
    rintro k ⟨h₁, h₂⟩
    exact .inl (by omega)
  refine (h.draft.freeLoop hsub (by omega)).bind ?_
  rintro ⟨ino₁, ind₁⟩ d₂ ⟨hdraft, htype, href, hdata⟩
  refine (h.dropIndirect hmn hdraft htype href hdata).bind ?_
  rintro ino₂ d₃ ⟨ind₂, hfin⟩
  exact hfin.written hinv hi hsize hpos (by omega)

/-! ## Growing -/

theorem Started.addIndirect (h : Started d i env buf n m ino ind d₁) (hnm : n < m)
    (hroom : room → Room (Other d i)) :
    Meets room (InodeManager.addIndirect env n m ino ind) d₁ fun r d₂ =>
      Draft d (Other d i) r.1 r.2 (keys n ∪ {k | k = maxFile ∧ ndirect < m}) d₂ ∧
      inoType r.1 = inoType ino ∧ (∀ k < n, ref r.1 r.2 k = ref ino ind k) ∧
      (¬ndirect < m → inoBlock r.1 ndirect = 0) ∧ ∀ b, firstData ≤ b → d₂ b = d₁ b := by
  unfold InodeManager.addIndirect
  by_cases hadd : n ≤ ndirect ∧ ndirect < m
  · have hno : maxFile ∉ keys n := by
      have hmax : ndirect < maxFile := by decide
      rintro (hlt | ⟨-, hlt⟩)
      · omega
      · omega
    have hset : keys n ∪ {k | k = maxFile ∧ ndirect < m} = insert maxFile (keys n) := by
      ext k
      simp only [Set.mem_union, Set.mem_ofPred_eq, Set.mem_insert_iff, hadd.2, and_true, or_comm]
    rw [if_pos hadd, hset]
    refine (h.draft.alloc hroom).bind ?_
    rintro b _ ⟨hb, hbit, rfl⟩
    have hlt : b < 2 ^ 32 := hb.lt.trans (by decide)
    have href : ∀ k < n, ref (setBlock ino ndirect b) (Vector.replicate blockSize 0) k =
        ref ino ind k := by
      intro k hk
      rw [ref_direct (by omega), ref_direct (by omega),
        inoBlock_setBlock (by have := hadd.1; simp only [ndirect] at *; omega) (by decide) hlt,
        if_neg (by omega)]
    refine .of_exec rfl ⟨?_, inoType_setBlock, href, fun hno' => absurd hadd.2 hno',
      fun c hc => mark_data hb true hc⟩
    refine h.draft.claim hb hbit hno (le_refl _) ?_ ?_
    · rw [ref_maxFile, inoBlock_setBlock (by decide) (by decide) hlt, if_pos rfl]
    · rintro k (hk | ⟨-, hk⟩)
      · exact href k hk
      · omega
  · have hset : keys n ∪ {k | k = maxFile ∧ ndirect < m} = keys n := by
      ext k
      simp only [Set.mem_union, Set.mem_ofPred_eq, mem_keys]
      omega
    rw [if_neg hadd, hset]
    refine .of_exec rfl ⟨h.draft, rfl, fun _ _ => rfl, ?_, fun _ _ => rfl⟩
    intro hno
    by_contra hne
    have := h.indirect.1 hne
    omega

/-- Writing back the indirect block finishes the file. -/
theorem finished_writeIndirect (hdraft : Draft d (Other d i) ino ind (keys m) d₁)
    (htype : inoType ino = inoType (inodeOf d i))
    (hzero : ¬ndirect < m → inoBlock ino ndirect = 0) (hmax : m ≤ maxFile)
    (hdata : ∀ k < m, d₁ (ref ino ind k) = blockAt env buf k) :
    Meets room (writeIndirect ino ind) d₁ fun _ d₂ => Finished d i env buf m ino ind d₂ := by
  unfold writeIndirect
  by_cases hm : ndirect < m
  · have hmem : maxFile ∈ keys m := .inr ⟨rfl, hm⟩
    have hmapped : Mapped (inoBlock ino ndirect) := hdraft.mapped maxFile hmem
    rw [if_pos hmapped.ne_zero]
    refine .of_exec (exec_writeBlock hmapped.lt)
      ⟨hdraft.write hmem ind, htype, by simp only [hm, iff_true]; exact hmapped.ne_zero, ?_, ?_⟩
    · intro k _
      rw [Function.update_self]
    · intro k hk
      have hne : ref ino ind k ≠ inoBlock ino ndirect := by
        intro heq
        have := hdraft.inj (.inl hk) hmem heq
        omega
      rw [Function.update_of_ne hne, hdata k hk]
  · rw [if_neg (by rw [hzero hm]; exact fun hne => hne rfl)]
    refine .of_exec rfl ⟨hdraft, htype, ?_, ?_, hdata⟩
    · rw [hzero hm]
      simp only [ne_eq, not_true_eq_false, hm]
    · rintro k (hk | ⟨-, hk⟩)
      · rw [ref_direct (by omega), ref_direct (by omega)]
      · omega

theorem Started.grow (h : Started d i env buf n (ceilInt size).toNat ino ind d₁)
    (hnm : n < (ceilInt size).toNat) (hroom : room → Room (Other d i)) (hinv : Inv d)
    (hi : Live d i) (hsize : IsInt size) (hpos : 0 ≤ ceilInt size)
    (hmax : (ceilInt size).toNat ≤ maxFile) :
    Meets room (InodeManager.grow env i buf size n (ceilInt size).toNat ino ind) d₁ fun _ d' =>
      Written d d' i env buf size := by
  generalize hm : (ceilInt size).toNat = m at *
  refine (h.addIndirect hnm hroom).bind ?_
  rintro ⟨ino₁, ind₁⟩ d₂ ⟨hdraft₁, htype₁, href₁, hzero₁, hdata₁⟩
  have hno : ∀ k ∈ Set.Ico n (n + (m - n)), k ∉ keys n ∪ {k | k = maxFile ∧ ndirect < m} := by
    rintro k ⟨h₁, h₂⟩
    simp only [Set.mem_union, mem_keys, Set.mem_ofPred_eq]
    omega
  refine (hdraft₁.growLoop hroom hno (by omega)).bind ?_
  rintro ⟨ino₂, ind₂⟩ d₃ ⟨hdraft₂, htype₂, href₂, hnew, hold⟩
  have hkeys : keys n ∪ {k | k = maxFile ∧ ndirect < m} ∪ Set.Ico n (n + (m - n)) = keys m := by
    ext k
    simp only [Set.mem_union, mem_keys, Set.mem_ofPred_eq, Set.mem_Ico]
    omega
  rw [hkeys] at hdraft₂
  have hzero₂ : ¬ndirect < m → inoBlock ino₂ ndirect = 0 := by
    intro hlt
    rw [← hzero₁ hlt]
    exact href₂ maxFile (le_refl _) (by rintro ⟨-, h₂⟩; omega)
  have hdata₂ : ∀ k < m, d₃ (ref ino₂ ind₂ k) = blockAt env buf k := by
    intro k hk
    by_cases hkn : k < n
    · -- an old block: it was overwritten before, and kept since
      have hmapped := (h.draft.mapped k (.inl hkn)).1
      rw [href₂ k (by omega) (by rintro ⟨h₁, -⟩; omega), hold k (.inl (.inl hkn)), href₁ k hkn,
        hdata₁ _ hmapped, h.data k (by omega)]
    · exact hnew k ⟨by omega, by omega⟩
  refine (finished_writeIndirect hdraft₂ ((htype₂.trans htype₁).trans h.type) hzero₂ hmax
    hdata₂).bind ?_
  intro _ d₄ hfin
  subst hm
  exact hfin.written hinv hi hsize hpos hmax

theorem grow_bound {r : Unit × Disk} (hnm : n < m)
    (h : exec (InodeManager.grow env i buf size n m ino ind) d = .ok r) : m ≤ maxFile := by
  obtain ⟨⟨ino₁, ind₁⟩, d₁, -, h⟩ := exec_ok_bind h
  obtain ⟨_, _, h, -⟩ := exec_ok_bind h
  have := growLoop_bound h
  omega

/-! ## `write_file` -/

theorem exec_readIndirect (h : ndirect < n → inoBlock ino ndirect < blockNum) :
    exec (readIndirect env ino n) d =
      .ok (if ndirect < n then d (inoBlock ino ndirect) else env.junk, d) := by
  unfold readIndirect
  by_cases hn : ndirect < n
  · rw [if_pos hn, if_pos hn, exec_readBlock (h hn)]
  · rw [if_neg hn, if_neg hn]
    rfl

/-- The copies of the inode and of the indirect block that a request starts with. -/
theorem Inv.exec_readIndirect (env : Env) (hinv : Inv d) (hi : Live d i) (hn : held (inodeOf d i) = n) :
    ∃ ind, (ndirect < n → ind = d (inoBlock (inodeOf d i) ndirect)) ∧
      exec (readIndirect env (inodeOf d i) n) d = .ok (ind, d) := by
  refine ⟨_, ?_, FileWrites.exec_readIndirect ?_⟩
  · exact fun hlt => if_pos hlt
  · intro hlt
    exact ((hinv.sound i hi).mapped maxFile (.inr ⟨rfl, by rwa [hn]⟩)).lt

theorem Inv.started (hinv : Inv d) (hi : Live d i) (hn : held (inodeOf d i) = n)
    (hind : ndirect < n → ind = d (inoBlock (inodeOf d i) ndirect)) (m : ℕ) :
    Meets room (writeLoop env buf (inodeOf d i) ind (min m n) 0) d fun _ d₁ =>
      Started d i env buf n m (inodeOf d i) ind d₁ := by
  subst hn
  have hs := hinv.sound i hi
  have hfew := hs.few
  have hsub : Set.Ico 0 (0 + min m (held (inodeOf d i))) ⊆ keys (held (inodeOf d i)) := by
    rintro k ⟨-, h₂⟩
    exact .inl (by omega)
  refine ((hinv.draft hi hind).writeLoop hsub (by omega)).mono ?_
  rintro _ d₁ ⟨hdraft, hin, hout⟩
  refine ⟨hdraft, hfew, rfl, hs.indirect, ?_, fun k hk => hin k ⟨by omega, by omega⟩⟩
  intro hlt
  have hkeep := hout maxFile (.inr ⟨rfl, hlt⟩) (by rintro ⟨-, h₂⟩; omega)
  rw [hind hlt]
  exact hkeep

theorem Inv.writeFile (hinv : Inv d) (hi : Live d i)
    (hsmall : inoSize (inodeOf d i) ≤ maxFile * blockSize) (hsize : IsInt size) :
    Meets (Room (Other d i) ∧ 0 ≤ ceilInt size ∧ (ceilInt size).toNat ≤ maxFile)
      (InodeManager.writeFile env i buf size) d fun _ d' => Written d d' i env buf size := by
  have hn := held_eq hsmall
  refine .after (exec_getInode_live hi) ?_
  dsimp only
  generalize ceil (inoSize (inodeOf d i)) blockSize = n at *
  obtain ⟨ind, hind, hread⟩ := Inv.exec_readIndirect env hinv hi hn
  refine .after hread ((Inv.started hinv hi hn hind _).bind ?_)
  intro _ d₁ hst
  by_cases hpos : 0 ≤ ceilInt size
  · refine .after (exec_check hpos) ?_
    have hfew := hst.few
    by_cases heq : (ceilInt size).toNat = n
    · subst heq
      rw [if_pos rfl]
      exact hst.same.written hinv hi hsize hpos hfew
    rw [if_neg heq]
    by_cases hlt : (ceilInt size).toNat < n
    · rw [if_pos hlt]
      exact hst.shrink hlt hinv hi hsize hpos
    rw [if_neg hlt]
    have hnm : n < (ceilInt size).toNat := by omega
    by_cases hmax : (ceilInt size).toNat ≤ maxFile
    · exact hst.grow hnm (fun hroom => hroom.1) hinv hi hsize hpos hmax
    · refine .of_not_ok (fun r hr => hmax (grow_bound hnm hr)) ?_
      exact fun hroom => hmax hroom.2.2
  · exact .of_fails (exec_fails (exec_check_fails hpos)) fun hroom => hpos hroom.2.1

/-! ## `remove_file` -/

theorem Draft.freeIndirect (h : Draft d (Other d i) ino ind (keys n) d₁) (hn : n ≤ maxFile) :
    Meets room (InodeManager.freeIndirect env ino n) d₁ fun _ d₂ =>
      Draft d (Other d i) ino ind (Set.Ico 0 (0 + n)) d₂ := by
  unfold InodeManager.freeIndirect
  by_cases hlt : ndirect < n
  · have hmem : maxFile ∈ keys n := .inr ⟨rfl, hlt⟩
    have hset : keys n \ {maxFile} = Set.Ico 0 (0 + n) := by
      ext k
      simp only [Set.mem_sdiff, mem_keys, Set.mem_singleton_iff, Set.mem_Ico]
      omega
    rw [if_pos hlt]
    refine .of_exec (exec_freeBlock (h.mapped maxFile hmem)) ?_
    rw [← hset]
    exact h.free hmem
  · have hset : keys n = Set.Ico 0 (0 + n) := by
      ext k
      simp only [mem_keys, Set.mem_Ico]
      omega
    rw [if_neg hlt, ← hset]
    exact .of_exec rfl h

theorem Inv.removeFile (hinv : Inv d) (hi : Live d i)
    (hsmall : inoSize (inodeOf d i) ≤ maxFile * blockSize) :
    Meets room (InodeManager.removeFile env i) d fun _ d' => Rewrites d d' i ∧ ¬Live d' i := by
  have hn := held_eq hsmall
  have hfew := (hinv.sound i hi).few
  have hzero : i ≠ 0 := by
    rintro rfl
    exact hinv.zero hi
  refine .after (exec_getInode_live hi) ?_
  dsimp only
  generalize ceil (inoSize (inodeOf d i)) blockSize = n at *
  obtain ⟨ind, hind, hread⟩ := Inv.exec_readIndirect env hinv hi hn
  have hdraft : Draft d (Other d i) (inodeOf d i) ind (keys (held (inodeOf d i))) d :=
    hinv.draft hi (by rwa [hn])
  rw [hn] at hdraft hfew
  refine .after hread ((Draft.freeIndirect hdraft hfew).bind ?_)
  intro _ d₁ hdraft₁
  refine (hdraft₁.removeLoop (le_refl _) (by omega)).bind ?_
  intro _ d₂ hdraft₂
  rw [Set.sdiff_self] at hdraft₂
  have hlive : Live d₂ i := by
    rw [Live, hdraft₂.inodes i (not_mapped_iblock hi.1)]
    exact hi
  refine .of_exec (exec_freeInode hlive) ⟨Draft.finish_free hdraft₂ hi.1 hzero inoType_free, ?_⟩
  rintro ⟨-, hne⟩
  rw [inodeOf_setInode, if_pos rfl] at hne
  exact hne inoType_free

/-! ## `alloc_inode` -/

theorem draft_free (hi : ¬Live d i) :
    Draft d (Other d i) ino ind ∅ d := by
  refine ⟨by simp, by simp, by simp, by simp, ?_, fun _ _ _ => rfl, fun _ _ => rfl⟩
  intro b hb
  simp only [Set.mem_empty_iff_false, false_and, exists_false, or_false]
  exact ⟨fun hbit => ⟨hb, hbit, fun ho => hi ho.1⟩, fun ho => ho.2.1⟩

/-- A new inode has no blocks. -/
theorem rewrites_newInode (hi : ¬Live d i) (hlt : i < inodeNum) (hzero : i ≠ 0) :
    Rewrites d (setInode d i (newInode env type (inodeOf d i))) i := by
  have hdraft : Draft d (Other d i) (newInode env type (inodeOf d i)) (d 0) ∅ d :=
    draft_free hi
  have hheld : held (newInode env type (inodeOf d i)) = 0 := by
    rw [held, inoSize_newInode]
    rfl
  rcases Nat.eq_zero_or_pos (type % 2 ^ 16) with htype | htype
  · exact Draft.finish_free hdraft hlt hzero (inoType_newInode.trans htype)
  · rw [← keys_zero] at hdraft
    refine Draft.finish hdraft hlt hzero (Nat.zero_le _) hheld ?_ ?_ (fun _ _ => rfl) ?_ ?_
    · rw [inoSize_newInode]
      exact .inl (Nat.zero_le _)
    · rw [inoType_newInode]
      omega
    · rw [keys_zero]
      simp
    · rw [inoBlock_newInode (by decide)]
      simp

end Yfs.FileWrites
