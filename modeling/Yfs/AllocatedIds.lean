import Yfs.ExtentRequests

/-!
# Which ids exist

`get`, `put` and `remove` go through `get_inode`, which checks the inode number. `getattr` decodes
the block where the inode would be, and behind the inode table that block belongs to some file.
-/

namespace Yfs.AllocatedIds
open CallTrees LabelledRuns MemoryBlocks BlockManager InodeManager InodeTable FileBlocks
open BlockOwnership FileWrites FileContents ExtentRequests
open LockProtocol (Str)
open ExtentClient (Attr Reply ExtentId typeDir)

variable {d d' d₀ : Disk} {env : Env} {i : ℕ} {id : ExtentId} {type : UInt32} {req : Request}
  {rep : Reply} {tr : List (Request × Reply)} {ids : Finset ℕ}

/-! ## The allocated ids of a run -/

/-- The attributes in an inode. -/
def attrsOf (ino : Inode) : Attr :=
  { type := .ofNat (shortToUInt (inoType ino)), size := .ofNat (inoSize ino),
    atime := .ofNat (load 4 ino 8), mtime := .ofNat (load 4 ino 12),
    ctime := .ofNat (load 4 ino 16) }

theorem shortToUInt_spec {x : ℕ} (h : x < 2 ^ 16) :
    shortToUInt x < 2 ^ 32 ∧ (shortToUInt x = 0 ↔ x = 0) := by
  unfold shortToUInt
  by_cases hx : x < 2 ^ 15
  · rw [if_pos hx]
    exact ⟨by omega, Iff.rfl⟩
  · rw [if_neg hx]
    have hpos : 0 < x := by omega
    exact ⟨by omega, iff_of_false (Nat.add_pos_left hpos _).ne' hpos.ne'⟩

theorem attrsOf_type_ne (ino : Inode) : (attrsOf ino).type ≠ 0 ↔ inoType ino ≠ 0 := by
  have htype : (attrsOf ino).type = .ofNat (shortToUInt (inoType ino)) := rfl
  obtain ⟨hlt, hzero⟩ := shortToUInt_spec (x := inoType ino) (load_lt _ _)
  rw [htype, not_iff_not, ← hzero, ← UInt32.toNat_inj, UInt32.toNat_ofNat_of_lt' hlt,
    UInt32.toNat_zero]

/-- `getattr` of an id: it reports a type for the allocated ids, which are those that `get_inode`
finds, and it reports the same whatever the blocks of the files contain. -/
structure Agrees (d : Disk) (ids : Finset ℕ) (id : ExtentId) (a : Attr) : Prop where
  reports : ∀ env, exec (attrOf env id) d = .ok ({ attr := a }, d)
  allocated : a.type ≠ 0 ↔ (1 ≤ inumOf id ∧ inumOf id ≤ 1023) ∧ inumOf id ∈ ids
  found : ∀ env, a.type ≠ 0 ↔ ∃ ino, exec (getInode env (inumOf id)) d = .ok (some ino, d)
  blind : ∀ env d', (∀ b, (∀ i, ¬Owns d i b) → d' b = d b) →
    exec (attrOf env id) d' = .ok ({ attr := a }, d')

theorem found_iff (env : Env) (i : ℕ) :
    (∃ ino, exec (getInode env i) d = .ok (some ino, d)) ↔ Live d i := by
  constructor
  · rintro ⟨ino, h⟩
    by_contra hno
    rw [exec_getInode_not hno] at h
    cases h
  · intro hi
    exact ⟨_, exec_getInode_live hi⟩

/-! ## Numbers without an inode -/

/-- Behind the table the operations agree only if `getattr` decodes a free inode. -/
theorem Agrees.inoType_eq {a : Attr} {ino : Inode} (h : Agrees d ids id a)
    (hid : inodeNum ≤ inumOf id)
    (hexec : exec (attrOf env id) d' = .ok ({ attr := attrsOf ino }, d'))
    (hsame : exec (attrOf env id) d' = .ok ({ attr := a }, d')) : inoType ino = 0 := by
  have hattr : attrsOf ino = a := by
    rw [hsame] at hexec
    injection hexec with hpair
    exact (congrArg (fun p : Reply × Disk => p.1.attr) hpair).symm
  by_contra hne
  have hfound := (h.found env).1 (hattr ▸ (attrsOf_type_ne ino).2 hne)
  rw [found_iff] at hfound
  exact absurd hfound.1 (not_lt.2 hid)

theorem inoType_setType (ino : Inode) : inoType (setType ino 1) = 1 := by
  rw [inoType, setType, load_store_same _ _ (by decide)]
  norm_num

/-- Outside the disk `getattr` decodes its own buffer, which nothing has written. -/
theorem Agrees.inside {a : Attr} (h : Agrees d ids id a) : iblock (inumOf id) < blockNum := by
  by_contra hb
  have hid : inodeNum ≤ inumOf id := not_lt.1 fun hlt => hb (iblock_lt_num hlt)
  let ino : Inode := setType (Vector.replicate _ 0) 1
  let env : Env := ⟨0, putIn (Vector.replicate _ 0) (inumOf id % ipb) ino, fun _ => 0⟩
  have hmod : inumOf id % ipb < 3 := Nat.mod_lt _ (by decide)
  have hjunk : inodeIn env.junk (inumOf id % ipb) = ino := by
    rw [inodeIn_putIn hmod hmod, if_pos rfl]
  have hg : exec (getattr env (inumOf id)) d = .ok (attrsOf ino, d) := by
    rw [getattr, readBlock, if_neg hb, ← hjunk]
    rfl
  have hzero := h.inoType_eq hid (exec_then hg) (h.reports env)
  rw [inoType_setType] at hzero
  cases hzero

end Yfs.AllocatedIds
