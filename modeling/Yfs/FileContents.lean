import Yfs.FileWrites

/-!
# The contents of files

`read_file` returns what the blocks hold, and `write_file` makes them hold its buffer. A size that
is negative as an `int` stops every later request for the file.
-/

namespace Yfs.FileContents
open CallTrees MemoryBlocks BlockManager InodeManager InodeTable FileBlocks BlockOwnership FileWrites
open LockProtocol (Str)

def content (d : Disk) (i : ℕ) : Str :=
  ((List.range (held (inodeOf d i))).flatMap fun k => (d (diskRef d i k)).toList).take
    (inoSize (inodeOf d i))

/-- The size is not too large for a file. -/
def Small (d : Disk) (i : ℕ) : Prop := inoSize (inodeOf d i) ≤ maxFile * blockSize

instance (d : Disk) (i : ℕ) : Decidable (Small d i) := inferInstanceAs (Decidable (_ ≤ _))

variable {d d' d₁ : Disk} {env : Env} {ino : Inode} {ind junk : Block} {buf bytes : Str} {size : ℤ}
  {i j k n m x : ℕ} {room : Prop}

theorem content_congr (hheld : held (inodeOf d' i) = held (inodeOf d i))
    (hsize : inoSize (inodeOf d' i) = inoSize (inodeOf d i))
    (h : ∀ k < held (inodeOf d i), d' (diskRef d' i k) = d (diskRef d i k)) :
    content d' i = content d i := by
  unfold content
  rw [hheld, hsize, List.flatMap_congr fun k hk => ?_]
  rw [h k (List.mem_range.1 hk)]

/-! ## Bytes in blocks -/

theorem flatMap_blocks (f : ℕ → Block) (g : ℕ → UInt8)
    (h : ∀ k j, j < blockSize → byteAt (f k) j = g (k * blockSize + j)) (n : ℕ) :
    ((List.range n).flatMap fun k => (f k).toList) = (List.range (n * blockSize)).map g := by
  have hblock : ∀ k, (f k).toList = (List.range blockSize).map fun j => g (k * blockSize + j) := by
    intro k
    apply List.ext_getElem
    · simp
    · intro j h₁ h₂
      have hj : j < blockSize := by simpa using h₁
      rw [List.getElem_map, List.getElem_range, ← h k j hj, byteAt_eq_getElem _ hj,
        Vector.getElem_toList]
  induction n with
  | zero => simp
  | succ n ih =>
    rw [List.range_succ, List.flatMap_append, ih, List.flatMap_singleton, hblock, Nat.succ_mul,
      List.range_add, List.map_append, List.map_map]
    rfl

/-- The bytes of enough blocks, cut to the length of the buffer. -/
theorem take_blocks (env : Env) (buf : Str) (hn : buf.length ≤ n * blockSize) :
    (((List.range n).flatMap fun k => (blockAt env buf k).toList).take buf.length) = buf := by
  have h := flatMap_blocks (blockAt env buf) (fun j => (buf[j]?).getD (env.pad j))
    (fun k j hj => byteAt_ofFn _ hj) n
  rw [h, ← List.map_take, List.take_range, min_eq_left hn]
  apply List.ext_getElem
  · simp
  · intro j h₁ h₂
    simp [h₂]

theorem length_blocks (f : ℕ → Block) (n : ℕ) :
    ((List.range n).flatMap fun k => (f k).toList).length = n * blockSize := by
  simp [List.length_flatMap]

theorem ceil_mul : x ≤ ceil x blockSize * blockSize := by
  simp only [ceil, blockSize]
  split <;> omega

theorem ceil_pos (hx : x ≠ 0) : 0 < ceil x blockSize := by
  simp only [ceil, blockSize]
  split <;> omega

theorem ceil_large (hx : 2 ^ 32 - 1024 < x) : 2 ^ 22 < ceil x blockSize := by
  simp only [ceil, blockSize]
  omega

/-- All blocks but the last in full, and a part of the last. -/
theorem take_last (f : ℕ → Block) (hx : x ≠ 0) :
    ((List.range (ceil x blockSize)).flatMap fun k => (f k).toList).take x =
      ((List.range (ceil x blockSize - 1)).flatMap fun k => (f k).toList) ++
        (f (ceil x blockSize - 1)).toList.take (lastBytes x) := by
  obtain ⟨n, hn⟩ : ∃ n, ceil x blockSize = n + 1 :=
    ⟨ceil x blockSize - 1, by have := ceil_pos hx; omega⟩
  have hlast : x - n * blockSize = lastBytes x ∧ n * blockSize ≤ x := by
    simp only [ceil, lastBytes, blockSize] at *
    split at hn <;> split <;> omega
  rw [hn, Nat.add_sub_cancel, List.range_succ, List.flatMap_append, List.flatMap_singleton,
    List.take_append, length_blocks, hlast.1, List.take_of_length_le]
  rw [length_blocks]
  exact hlast.2

/-! ## Reading -/

theorem exec_readLoop (href : ∀ k, i ≤ k → k < i + n → ref ino ind k < blockNum)
    (hmax : i + n ≤ maxFile) : ∃ last, exec (readLoop ino ind n i junk) d =
      .ok (((List.range' i n).flatMap fun k => (d (ref ino ind k)).toList, last), d) := by
  induction n generalizing i junk with
  | zero => exact ⟨junk, rfl⟩
  | succ n ih =>
    obtain ⟨last, hlast⟩ := @ih (d (ref ino ind i)) (i + 1)
      (fun k h₁ h₂ => href k (by omega) (by omega)) (by omega)
    refine ⟨last, ?_⟩
    rw [readLoop, exec_then (exec_blk (by omega)),
      exec_then (exec_readBlock (href i (le_refl i) (by omega))), exec_then hlast, exec_pure,
      List.range'_succ, List.flatMap_cons]

/-- Nothing but a time has changed. -/
structure Touched (d d' : Disk) (i : ℕ) : Prop where
  rewrites : Rewrites d d' i
  live : Live d' i
  type : inoType (inodeOf d' i) = inoType (inodeOf d i)
  sized : inoSize (inodeOf d' i) = inoSize (inodeOf d i)
  same : content d' i = content d i

theorem Inv.ne_zero (hinv : Inv d) (hi : Live d i) : i ≠ 0 := by
  rintro rfl
  exact hinv.zero hi

theorem touched_self (hinv : Inv d) (hi : Live d i) : Touched d d i := by
  refine ⟨⟨Inv.ne_zero hinv hi, hi.1, fun _ _ _ => rfl, fun _ _ => rfl, ?_, hinv.sound i,
    fun b ho hother => hother.2.2 ho⟩, hi, rfl, rfl, rfl⟩
  intro b hb
  constructor
  · intro hbit
    by_cases ho : Owns d i b
    · exact .inr ho
    · exact .inl ⟨hb, hbit, ho⟩
  · rintro (ho | ho)
    · exact ho.2.1
    · exact ho.used hinv

theorem touched_atime (hinv : Inv d) (hi : Live d i) :
    Touched d (setInode d i (setAtime (inodeOf d i) x)) i := by
  have hs := hinv.sound i hi
  have hdraft := hinv.draft hi fun _ => rfl
  have hblock : ∀ j ≤ 32, inoBlock (setAtime (inodeOf d i) x) j = inoBlock (inodeOf d i) j :=
    fun j hj => inoBlock_setAtime hj
  have hino : inodeOf (setInode d i (setAtime (inodeOf d i) x)) i = setAtime (inodeOf d i) x := by
    rw [inodeOf_setInode, if_pos rfl]
  have hheld : held (setAtime (inodeOf d i) x) = held (inodeOf d i) := by
    rw [held, inoSize_setAtime, held]
  refine ⟨?_, ?_, ?_, ?_, ?_⟩
  · refine Draft.finish hdraft hi.1 (Inv.ne_zero hinv hi) hs.few hheld ?_ ?_ hblock
      (fun _ _ => rfl) hs.indirect
    · rw [inoSize_setAtime]
      exact hs.size
    · rw [inoType_setAtime]
      exact hi.2
  · rw [Live, hino, inoType_setAtime]
    exact hi
  · rw [hino, inoType_setAtime]
  · rw [hino, inoSize_setAtime]
  · apply content_congr
    · rw [hino, hheld]
    · rw [hino, inoSize_setAtime]
    · intro k hk
      rw [Draft.diskRef_eq hdraft hi.1 hblock (fun _ _ => rfl) (.inl hk)]
      exact setInode_data hi.1 (hs.mapped k (.inl hk)).1

/-- `read_file` of a live inode. -/
theorem Inv.readFile (hinv : Inv d) (hi : Live d i) (hsmall : Small d i) :
    Meets room (InodeManager.readFile env i) d fun r d' =>
      r = (content d i, (inoSize (inodeOf d i) : ℤ)) ∧ Touched d d' i := by
  have hs := hinv.sound i hi
  have hfew := hs.few
  have hmapped := hs.mapped
  have hcontent : content d i = ((List.range (held (inodeOf d i))).flatMap fun k =>
      (d (diskRef d i k)).toList).take (inoSize (inodeOf d i)) := rfl
  have hn := held_eq hsmall
  have hlast := @take_last (inoSize (inodeOf d i)) fun k => d (diskRef d i k)
  refine .after (exec_getInode_live hi) ?_
  dsimp only
  rw [hn] at hfew hmapped hcontent
  generalize hceil : ceil (inoSize (inodeOf d i)) blockSize = n at *
  obtain ⟨ind, hind, hread⟩ := Inv.exec_readIndirect env hinv hi hn
  have href : ∀ k ∈ keys n, ref (inodeOf d i) ind k = diskRef d i k := by
    intro k hk
    refine ref_congr (fun _ _ => rfl) fun h₁ h₂ => ?_
    rcases maxFile_mem_keys hk h₁ h₂ with hlt | ⟨-, hlt⟩
    · omega
    · exact hind hlt
  refine .after hread ?_
  by_cases hz : inoSize (inodeOf d i) = 0
  · rw [if_pos hz]
    refine .of_exec rfl ⟨?_, touched_self hinv hi⟩
    rw [hcontent, hz]
    rfl
  rw [if_neg hz]
  have hpos : 0 < n := by
    rw [← hceil]
    exact ceil_pos hz
  have hlt : ∀ k < n, ref (inodeOf d i) ind k < blockNum := by
    intro k hk
    rw [href k (.inl hk)]
    exact (hmapped k (.inl hk)).lt
  obtain ⟨last, hloop⟩ := @exec_readLoop d (inodeOf d i) ind env.junk 0 (n - 1)
    (fun k _ hk => hlt k (by omega)) (by omega)
  refine .after hloop (.after (exec_blk (by omega)) (.after (exec_readBlock (hlt _ (by omega)))
    (.after (exec_putInode hi.1) (.of_exec rfl ⟨?_, touched_atime hinv hi⟩))))
  have hfront : ((List.range' 0 (n - 1)).flatMap fun k => (d (ref (inodeOf d i) ind k)).toList) =
      (List.range (n - 1)).flatMap fun k => (d (diskRef d i k)).toList := by
    rw [← List.range_eq_range']
    apply List.flatMap_congr
    intro k hk
    rw [href k (.inl (by have := List.mem_range.1 hk; omega))]
  rw [hcontent, hlast hz, hfront, href _ (.inl (by omega : n - 1 < n)),
    toInt_eq (lt_of_le_of_lt hsmall (by decide))]

/-- The size that `read_file` reports. -/
theorem readFile_size {r : (Str × ℤ) × Disk} (hi : Live d i)
    (h : exec (InodeManager.readFile env i) d = .ok r) :
    r.1.2 = toInt (inoSize (inodeOf d i)) := by
  obtain ⟨_, _, hget, h⟩ := exec_ok_bind h
  rw [exec_getInode_live hi] at hget
  cases hget
  obtain ⟨ind, _, -, h⟩ := exec_ok_bind h
  dsimp only at h
  by_cases hz : inoSize (inodeOf d i) = 0
  · rw [if_pos hz] at h
    cases h
    rw [hz]
    rfl
  · rw [if_neg hz] at h
    obtain ⟨_, _, -, h⟩ := exec_ok_bind h
    obtain ⟨_, _, -, h⟩ := exec_ok_bind h
    obtain ⟨_, _, -, h⟩ := exec_ok_bind h
    obtain ⟨_, _, -, h⟩ := exec_ok_bind h
    cases h
    rfl

/-! ## Writing -/

theorem Written.held_eq (h : Written d d' i env buf size) (hsize : IsInt size) :
    held (inodeOf d' i) = (ceilInt size).toNat := by
  rw [held, h.sized, toInt_mod hsize]

/-- After `write_file` with a length that fits, the content is the buffer. -/
theorem Written.content (h : Written d d' i env buf (toInt buf.length))
    (hfit : buf.length ≤ maxFile * blockSize) :
    inoSize (inodeOf d' i) = buf.length ∧ content d' i = buf := by
  have hint : toInt buf.length = buf.length := toInt_eq (lt_of_le_of_lt hfit (by decide))
  have hheld := Written.held_eq h (isInt_toInt _)
  have hdata := h.data
  have hsize := h.sized
  rw [hint, ceilInt_natCast, Int.toNat_natCast] at hheld hdata
  have hlen : inoSize (inodeOf d' i) = buf.length := by
    rw [hsize, hint]
    simp only [maxFile, blockSize] at hfit
    omega
  refine ⟨hlen, ?_⟩
  rw [FileContents.content, hheld, hlen, List.flatMap_congr fun k hk => ?_]
  · exact take_blocks env buf ceil_mul
  · rw [hdata k (List.mem_range.1 hk)]

/-- A request that returns has found a size that is not negative. -/
theorem small_of_writeFile {r : Unit × Disk} (hi : Live d i) (hs : SizeOk (inoSize (inodeOf d i)))
    (hsize : IsInt size) (h : exec (InodeManager.writeFile env i buf size) d = .ok r) :
    Small d i := by
  rcases hs with hs | hs
  · exact hs
  obtain ⟨_, _, hget, h⟩ := exec_ok_bind h
  rw [exec_getInode_live hi] at hget
  cases hget
  obtain ⟨ind, _, -, h⟩ := exec_ok_bind h
  obtain ⟨_, _, -, h⟩ := exec_ok_bind h
  obtain ⟨_, _, -, h⟩ := exec_ok_bind h
  have hold := ceil_large hs
  have hnew : (ceilInt size).toNat ≤ 2 ^ 22 := by
    unfold IsInt at hsize
    rcases Int.eq_nat_or_neg size with ⟨x, rfl | rfl⟩
    · rw [ceilInt_natCast, Int.toNat_natCast]
      simp only [ceil, blockSize]
      split <;> omega
    · rw [ceilInt_neg]
      simp only [blockSize]
      split <;> omega
  generalize ceil (inoSize (inodeOf d i)) blockSize = n at *
  rw [if_neg (by omega), if_pos (by omega)] at h
  obtain ⟨_, _, h, -⟩ := exec_ok_bind h
  have := freeLoop_bound h
  simp only [maxFile] at this
  omega

theorem small_of_removeFile {r : Unit × Disk} (hi : Live d i)
    (hs : SizeOk (inoSize (inodeOf d i)))
    (h : exec (InodeManager.removeFile env i) d = .ok r) : Small d i := by
  rcases hs with hs | hs
  · exact hs
  obtain ⟨_, _, hget, h⟩ := exec_ok_bind h
  rw [exec_getInode_live hi] at hget
  cases hget
  obtain ⟨ind, _, -, h⟩ := exec_ok_bind h
  obtain ⟨_, _, -, h⟩ := exec_ok_bind h
  obtain ⟨_, _, h, -⟩ := exec_ok_bind h
  have hold := ceil_large hs
  have := removeLoop_bound h
  simp only [maxFile] at this
  omega

/-! ## Other files -/

theorem Rewrites.content_eq (h : Rewrites d d' i) (hinv : Inv d) (hj : Live d j) (hne : j ≠ i) :
    content d' j = content d j := by
  have hino := h.others j (not_mapped_iblock hj.1) hne
  refine content_congr (by rw [hino]) (by rw [hino]) fun k hk => ?_
  rw [h.diskRef_eq hinv hj hne (.inl hk)]
  exact h.block hinv (Sound.owns hj (.inl hk)) hne

end Yfs.FileContents
