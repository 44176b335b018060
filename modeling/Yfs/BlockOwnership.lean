import Yfs.FileBlocks

/-!
# Which file owns which block

The invariant of the inode layer: the blocks of the live inodes are distinct, and they are the
blocks whose bit is set. A request rewrites one inode and leaves the blocks of the others alone;
that is enough to keep the invariant.
-/

namespace Yfs.BlockOwnership
open CallTrees MemoryBlocks BlockManager InodeManager InodeTable FileBlocks
open LockProtocol (Str)

/-- The number of blocks of a file. -/
def held (ino : Inode) : ℕ := (ceilInt (toInt (inoSize ino))).toNat

/-- The keys that a file with `n` blocks uses. -/
def keys (n : ℕ) : Set ℕ := {k | k < n ∨ k = maxFile ∧ ndirect < n}

/-- The block with a given key of the file with inode `i`. -/
def diskRef (d : Disk) (i k : ℕ) : ℕ := ref (inodeOf d i) (d (inoBlock (inodeOf d i) ndirect)) k

def Owns (d : Disk) (i b : ℕ) : Prop := Live d i ∧ ∃ k ∈ keys (held (inodeOf d i)), diskRef d i k = b

/-- The size is one that `write_file` can have left. Negative sizes come from buffers whose length
is not an `int`. -/
def SizeOk (size : ℕ) : Prop := size ≤ maxFile * blockSize ∨ 2 ^ 32 - 1024 < size

structure Sound (d : Disk) (i : ℕ) : Prop where
  size : SizeOk (inoSize (inodeOf d i))
  few : held (inodeOf d i) ≤ maxFile
  indirect : inoBlock (inodeOf d i) ndirect ≠ 0 ↔ ndirect < held (inodeOf d i)
  mapped : ∀ k ∈ keys (held (inodeOf d i)), Mapped (diskRef d i k)
  inj : Set.InjOn (diskRef d i) (keys (held (inodeOf d i)))

structure Inv (d : Disk) : Prop where
  zero : ¬Live d 0
  sound : ∀ i, Live d i → Sound d i
  apart : ∀ i j b, Owns d i b → Owns d j b → i = j
  bits : ∀ b, Mapped b → (bitOf d b = true ↔ ∃ i, Owns d i b)

/-- The blocks in use by files other than `i`. -/
def Other (d : Disk) (i b : ℕ) : Prop := Mapped b ∧ bitOf d b = true ∧ ¬Owns d i b

/-- Inode `i` and its blocks have changed; nothing of another file has. -/
structure Rewrites (d d' : Disk) (i : ℕ) : Prop where
  inum : i ≠ 0
  lt : i < inodeNum
  others : ∀ j, ¬Mapped (iblock j) → j ≠ i → inodeOf d' j = inodeOf d j
  kept : ∀ b, Other d i b → d' b = d b
  bits : ∀ b, Mapped b → (bitOf d' b = true ↔ Other d i b ∨ Owns d' i b)
  sound : Live d' i → Sound d' i
  mine : ∀ b, Owns d' i b → ¬Other d i b

variable {d d' d₁ : Disk} {env : Env} {ino : Inode} {ind : Block} {buf : Str} {i j k b n m : ℕ}

theorem mem_keys : k ∈ keys n ↔ k < n ∨ k = maxFile ∧ ndirect < n := Iff.rfl

theorem keys_le (hn : n ≤ maxFile) (hk : k ∈ keys n) : k ≤ maxFile := by
  rcases hk with hk | ⟨rfl, -⟩
  · omega
  · exact le_refl _

/-- Where the indirect block is read, it is one of the file's blocks. -/
theorem maxFile_mem_keys (hk : k ∈ keys n) (h₁ : ndirect ≤ k) (h₂ : k < maxFile) :
    maxFile ∈ keys n := by
  rcases hk with hk | ⟨rfl, -⟩
  · exact .inr ⟨rfl, by omega⟩
  · omega

theorem keys_zero : keys 0 = ∅ := by
  ext k
  simp [mem_keys]

theorem Sound.owns (h : Live d i) (hk : k ∈ keys (held (inodeOf d i))) :
    Owns d i (diskRef d i k) := ⟨h, k, hk, rfl⟩

theorem Owns.mapped (h : Inv d) (ho : Owns d i b) : Mapped b := by
  obtain ⟨hlive, k, hk, rfl⟩ := ho
  exact (h.sound i hlive).mapped k hk

theorem Owns.used (h : Inv d) (ho : Owns d i b) : bitOf d b = true :=
  (h.bits b (ho.mapped h)).2 ⟨i, ho⟩

theorem Owns.other (h : Inv d) (ho : Owns d j b) (hne : j ≠ i) : Other d i b :=
  ⟨ho.mapped h, ho.used h, fun hi => hne (h.apart j i b ho hi)⟩

/-! ## Rewriting one file -/

/-- A file whose inode and blocks have not changed refers to the same blocks. -/
theorem diskRef_kept (hino : inodeOf d' j = inodeOf d j) (hk : k ∈ keys (held (inodeOf d j)))
    (hkept : ∀ l ∈ keys (held (inodeOf d j)), d' (diskRef d j l) = d (diskRef d j l)) :
    diskRef d' j k = diskRef d j k := by
  unfold diskRef
  rw [hino]
  refine ref_congr (fun _ _ => rfl) fun h₁ h₂ => ?_
  exact hkept maxFile (maxFile_mem_keys hk h₁ h₂)

theorem Rewrites.live_iff (h : Rewrites d d' i) (hne : j ≠ i) : Live d' j ↔ Live d j := by
  unfold Live
  constructor
  · rintro ⟨hj, htype⟩
    rw [h.others j (not_mapped_iblock hj) hne] at htype
    exact ⟨hj, htype⟩
  · rintro ⟨hj, htype⟩
    rw [h.others j (not_mapped_iblock hj) hne]
    exact ⟨hj, htype⟩

theorem Rewrites.block (h : Rewrites d d' i) (hinv : Inv d) (ho : Owns d j b) (hne : j ≠ i) :
    d' b = d b := h.kept b (ho.other hinv hne)

theorem Rewrites.diskRef_eq (h : Rewrites d d' i) (hinv : Inv d) (hj : Live d j) (hne : j ≠ i)
    (hk : k ∈ keys (held (inodeOf d j))) : diskRef d' j k = diskRef d j k :=
  diskRef_kept (h.others j (not_mapped_iblock hj.1) hne) hk fun _ hl =>
    h.block hinv (Sound.owns hj hl) hne

theorem Rewrites.owns_iff (h : Rewrites d d' i) (hinv : Inv d) (hne : j ≠ i) :
    Owns d' j b ↔ Owns d j b := by
  unfold Owns
  rw [h.live_iff hne]
  refine and_congr_right fun hj => ?_
  rw [h.others j (not_mapped_iblock hj.1) hne]
  constructor
  · rintro ⟨k, hk, rfl⟩
    exact ⟨k, hk, (h.diskRef_eq hinv hj hne hk).symm⟩
  · rintro ⟨k, hk, rfl⟩
    exact ⟨k, hk, h.diskRef_eq hinv hj hne hk⟩

theorem Rewrites.sound_other (h : Rewrites d d' i) (hinv : Inv d) (hj : Live d j) (hne : j ≠ i) :
    Sound d' j := by
  have hs := hinv.sound j hj
  have hino := h.others j (not_mapped_iblock hj.1) hne
  have href : ∀ k ∈ keys (held (inodeOf d j)), diskRef d' j k = diskRef d j k :=
    fun k hk => h.diskRef_eq hinv hj hne hk
  constructor
  · rw [hino]
    exact hs.size
  · rw [hino]
    exact hs.few
  · rw [hino]
    exact hs.indirect
  · rw [hino]
    intro k hk
    rw [href k hk]
    exact hs.mapped k hk
  · rw [hino]
    intro k hk l hl heq
    rw [href k hk, href l hl] at heq
    exact hs.inj hk hl heq

/-- The invariant survives the rewriting of one file. -/
theorem Inv.rewrites (hinv : Inv d) (h : Rewrites d d' i) : Inv d' := by
  constructor
  · rw [h.live_iff h.inum.symm]
    exact hinv.zero
  · intro j hj
    by_cases hne : j = i
    · subst hne
      exact h.sound hj
    · exact h.sound_other hinv ((h.live_iff hne).1 hj) hne
  · -- a block of `i` is not one of another file before, nor after
    have hi : ∀ j b, j ≠ i → Owns d' i b → Owns d' j b → False := by
      intro j b hne h₁ h₂
      exact h.mine b h₁ (((h.owns_iff hinv hne).1 h₂).other hinv hne)
    intro j₁ j₂ b h₁ h₂
    by_cases hne₁ : j₁ = i
    · subst hne₁
      by_contra hne
      exact hi j₂ b (Ne.symm hne) h₁ h₂
    by_cases hne₂ : j₂ = i
    · subst hne₂
      exact (hi j₁ b hne₁ h₂ h₁).elim
    · exact hinv.apart j₁ j₂ b ((h.owns_iff hinv hne₁).1 h₁) ((h.owns_iff hinv hne₂).1 h₂)
  · intro b hb
    rw [h.bits b hb]
    constructor
    · rintro (⟨-, hbit, hno⟩ | ho)
      · obtain ⟨j, hj⟩ := (hinv.bits b hb).1 hbit
        have hne : j ≠ i := by
          rintro rfl
          exact hno hj
        exact ⟨j, (h.owns_iff hinv hne).2 hj⟩
      · exact ⟨i, ho⟩
    · rintro ⟨j, hj⟩
      by_cases hne : j = i
      · subst hne
        exact .inr hj
      · exact .inl (((h.owns_iff hinv hne).1 hj).other hinv hne)

/-! ## From drafts to files -/

/-- The blocks of a live file are a draft of it. -/
theorem Inv.draft (h : Inv d) (hi : Live d i)
    (hind : ndirect < held (inodeOf d i) → ind = d (inoBlock (inodeOf d i) ndirect)) :
    Draft d (Other d i) (inodeOf d i) ind (keys (held (inodeOf d i))) d := by
  have hs := h.sound i hi
  have hdraft : Draft d (Other d i) (inodeOf d i) (d (inoBlock (inodeOf d i) ndirect))
      (keys (held (inodeOf d i))) d := by
    refine ⟨fun k hk => keys_le hs.few hk, hs.inj, hs.mapped, ?_, ?_, fun _ _ _ => rfl,
      fun _ _ => rfl⟩
    · intro k hk ho
      exact ho.2.2 (Sound.owns hi hk)
    · intro b hb
      constructor
      · intro hbit
        by_cases ho : Owns d i b
        · exact .inr ho.2
        · exact .inl ⟨hb, hbit, ho⟩
      · rintro (ho | ⟨k, hk, rfl⟩)
        · exact ho.2.1
        · exact (Sound.owns hi hk).used h
  refine hdraft.congr fun k hk => ref_congr (fun _ _ => rfl) fun h₁ h₂ => ?_
  rcases maxFile_mem_keys hk h₁ h₂ with hlt | ⟨-, hlt⟩
  · exact absurd hs.few (by omega)
  · exact hind hlt

/-- The references of a finished draft, once its inode is on the disk. -/
theorem Draft.diskRef_eq (h : Draft d (Other d i) ino ind (keys m) d₁) (hi : i < inodeNum)
    {ino' : Inode} (hblock : ∀ j ≤ 32, inoBlock ino' j = inoBlock ino j)
    (hind : ∀ k ∈ keys m, ref ino (d₁ (inoBlock ino ndirect)) k = ref ino ind k)
    (hk : k ∈ keys m) : diskRef (setInode d₁ i ino') i k = ref ino ind k := by
  rw [← hind k hk]
  unfold diskRef
  rw [inodeOf_setInode, if_pos rfl, hblock ndirect (by decide)]
  refine ref_congr hblock fun h₁ h₂ => ?_
  exact setInode_data hi (h.mapped maxFile (maxFile_mem_keys hk h₁ h₂)).1

/-- A finished draft: the inode is put, and its references are those on the disk. -/
theorem Draft.finish (h : Draft d (Other d i) ino ind (keys m) d₁) (hi : i < inodeNum)
    (hzero : i ≠ 0) (hm : m ≤ maxFile) {ino' : Inode} (hheld : held ino' = m)
    (hsize : SizeOk (inoSize ino')) (htype : inoType ino' ≠ 0)
    (hblock : ∀ j ≤ 32, inoBlock ino' j = inoBlock ino j)
    (hind : ∀ k ∈ keys m, ref ino (d₁ (inoBlock ino ndirect)) k = ref ino ind k)
    (hiff : inoBlock ino ndirect ≠ 0 ↔ ndirect < m) : Rewrites d (setInode d₁ i ino') i := by
  have hino : inodeOf (setInode d₁ i ino') i = ino' := by rw [inodeOf_setInode, if_pos rfl]
  have href : ∀ k ∈ keys m, diskRef (setInode d₁ i ino') i k = ref ino ind k :=
    fun k hk => Draft.diskRef_eq h hi hblock hind hk
  have howns : ∀ b, Owns (setInode d₁ i ino') i b ↔ ∃ k ∈ keys m, ref ino ind k = b := by
    intro b
    unfold Owns Live
    rw [hino, hheld]
    constructor
    · rintro ⟨-, k, hk, rfl⟩
      exact ⟨k, hk, (href k hk).symm⟩
    · rintro ⟨k, hk, rfl⟩
      exact ⟨⟨hi, htype⟩, k, hk, href k hk⟩
  constructor
  · exact hzero
  · exact hi
  · intro j hj hne
    rw [inodeOf_setInode, if_neg hne, h.inodes j hj]
  · intro b hb
    rw [setInode_data hi hb.1.1, h.kept b hb.1 hb]
  · intro b hb
    rw [bitOf_setInode hb, h.bits b hb, howns]
  · intro _
    constructor
    · rwa [hino]
    · rwa [hino, hheld]
    · rw [hino, hheld, hblock ndirect (by decide), hiff]
    · rw [hino, hheld]
      intro k hk
      rw [href k hk]
      exact h.mapped k hk
    · rw [hino, hheld]
      intro k hk l hl heq
      rw [href k hk, href l hl] at heq
      exact h.inj hk hl heq
  · intro b hb
    obtain ⟨k, hk, rfl⟩ := (howns b).1 hb
    exact h.mine k hk

/-- A draft without blocks, whose inode is freed. -/
theorem Draft.finish_free (h : Draft d (Other d i) ino ind ∅ d₁) (hi : i < inodeNum)
    (hzero : i ≠ 0) {ino' : Inode} (htype : inoType ino' = 0) :
    Rewrites d (setInode d₁ i ino') i := by
  have hlive : ¬Live (setInode d₁ i ino') i := by
    rintro ⟨-, hne⟩
    rw [inodeOf_setInode, if_pos rfl] at hne
    exact hne htype
  have howns : ∀ b, ¬Owns (setInode d₁ i ino') i b := fun b ho => hlive ho.1
  constructor
  · exact hzero
  · exact hi
  · intro j hj hne
    rw [inodeOf_setInode, if_neg hne, h.inodes j hj]
  · intro b hb
    rw [setInode_data hi hb.1.1, h.kept b hb.1 hb]
  · intro b hb
    rw [bitOf_setInode hb, h.bits b hb]
    simp [howns b]
  · exact fun hl => (hlive hl).elim
  · exact fun b ho => (howns b ho).elim

end Yfs.BlockOwnership
