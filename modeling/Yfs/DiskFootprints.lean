import Yfs.ExtentRequests
import Yfs.Interleavings
import Mathlib.Order.CompletePartialOrder

/-!
# The blocks that a request reads and writes

Alone on a disk that satisfies the invariant, a request reads and writes its block of the inode
table, the blocks of its file and, if it allocates or frees blocks, the bitmap and blocks that are
free. The block of the inode table is written last.
-/

namespace Yfs.DiskFootprints
open CallTrees Interleavings MemoryBlocks BlockManager InodeManager InodeTable FileBlocks
open BlockOwnership FileWrites FileContents ExtentRequests
open LockProtocol (Str)
open ExtentClient (Reply ExtentId)

/-- Reads in `R` and writes in `W` only. -/
def allowed (R W : Set ℕ) : DiskCall → Prop
  | .read b => b ∈ R
  | .write b _ => b ∈ W

/-- The program, alone with the disk, reads in `R` and writes in `W` only. -/
def Within {α : Type} (R W : Set ℕ) : DiskProg α → Disk → Prop
  | .ret _, _ => True
  | .fault _, _ => True
  | .call q k, d => allowed R W q ∧ Within R W (k (serve q d).2) (serve q d).1

/-- The program makes no call any more. -/
def Silent {α : Type} : DiskProg α → Prop
  | .call _ _ => False
  | .ret _ | .fault _ => True

/-- The same, but the program may end with a write of block `t`. -/
def Commits {α : Type} (R W : Set ℕ) (t : ℕ) : DiskProg α → Disk → Prop
  | .ret _, _ => True
  | .fault _, _ => True
  | .call q k, d => (allowed R W q ∧ Commits R W t (k (serve q d).2) (serve q d).1) ∨
      ∃ buf, q = .write t buf ∧ Silent (k (serve q d).2)

variable {R W : Set ℕ} {d d' d₀ d₁ : Disk} {env : Env} {ino : Inode} {ind junk blk' : Block}
  {buf : Str} {size : ℤ} {i j k b n m t type : ℕ} {Other : ℕ → Prop} {ks : Set ℕ} {id : ExtentId}

/-! ## Rules -/

section
variable {α β : Type} {p : DiskProg α} {f : α → DiskProg β} {a : α} {room : Prop}
  {Q : α → Disk → Prop}

theorem Within.bind (hp : Within R W p d)
    (hf : ∀ a d', exec p d = .ok (a, d') → Within R W (f a) d') : Within R W (p >>= f) d := by
  induction p generalizing d with
  | ret a => exact hf a d rfl
  | fault e => trivial
  | call q k ih => exact ⟨hp.1, ih _ hp.2 fun a d' he => hf a d' he⟩

theorem Within.after (hp : Within R W p d) (he : exec p d = .ok (a, d'))
    (hf : Within R W (f a) d') : Within R W (p >>= f) d := by
  refine hp.bind fun b d'' he' => ?_
  rw [he] at he'
  cases he'
  exact hf

theorem Within.commits (hp : Within R W p d)
    (hf : ∀ a d', exec p d = .ok (a, d') → Commits R W t (f a) d') : Commits R W t (p >>= f) d := by
  induction p generalizing d with
  | ret a => exact hf a d rfl
  | fault e => trivial
  | call q k ih => exact .inl ⟨hp.1, ih _ hp.2 fun a d' he => hf a d' he⟩

theorem Silent.bind (hp : Silent p) (hf : ∀ a, Silent (f a)) : Silent (p >>= f) := by
  cases p with
  | ret a => exact hf a
  | fault e => trivial
  | call q k => exact hp.elim

theorem Silent.commits (hp : Silent p) : Commits R W t p d := by
  cases p with
  | ret a => trivial
  | fault e => trivial
  | call q k => exact hp.elim

theorem Commits.silent (hp : Commits R W t p d) (hf : ∀ a, Silent (f a)) :
    Commits R W t (p >>= f) d := by
  induction p generalizing d with
  | ret a => exact (hf a).commits
  | fault e => trivial
  | call q k ih =>
    rcases hp with ⟨hq, hk⟩ | ⟨buf, rfl, hk⟩
    · exact .inl ⟨hq, ih _ hk⟩
    · exact .inr ⟨buf, rfl, hk.bind hf⟩

end

/-- What a program relies on, and what it writes: it must find the blocks `exact` as they are, of the
blocks `looked` it only notices what `sees` tells apart. -/
structure View where
  exact : Set ℕ
  looked : Set ℕ
  sees : ℕ → Block → Block → Prop
  writes : ℕ → Block → Prop

def View.allowed (v : View) : DiskCall → Prop
  | .read b => b ∈ v.exact ∨ b ∈ v.looked
  | .write b buf => v.writes b buf

def View.alike (v : View) : DiskCall → Block → Block → Prop
  | .read b, a, a' => (b ∈ v.exact → a = a') ∧ (b ∈ v.looked → v.sees b a a')
  | .write _ _, a, a' => a = a'

theorem Silent.exec_eq {α : Type} {p : DiskProg α} {a : α} (hp : Silent p)
    (he : exec p d = .ok (a, d')) : d' = d := by
  cases p with
  | ret a =>
    cases he
    rfl
  | fault e => cases he
  | call q k => exact hp.elim

theorem Silent.makes {α : Type} {p : DiskProg α} {v : View} (hp : Silent p) :
    Makes serve v.allowed v.alike p d := by
  cases p with
  | ret a => trivial
  | fault e => trivial
  | call q k => exact hp.elim

/-- A program that relies on all that it reads and returns. Its last write is what is found on the disk
in the end. -/
theorem Commits.makes {α : Type} {p : DiskProg α} {a : α} {v : View} (h : Commits R W t p d)
    (he : exec p d = .ok (a, d')) (hR : R ⊆ v.exact) (hW : ∀ b ∈ W, ∀ buf, v.writes b buf)
    (ht : v.writes t (d' t)) : Makes serve v.allowed v.alike p d := by
  induction p generalizing d with
  | ret a => trivial
  | fault e => trivial
  | call q k ih =>
    rcases h with ⟨hq, hk⟩ | ⟨buf, rfl, hk⟩
    · have hrest := ih _ hk he
      cases q with
      | read b =>
        exact ⟨.inl (hR hq), fun x hx => congrArg k (hx.1 (hR hq)), hrest⟩
      | write b buf => exact ⟨hW b hq buf, fun x hx => congrArg k hx, hrest⟩
    · have hend : exec (k (serve (.write t buf) d).2) (Function.update d t buf) = .ok (a, d') := he
      rw [hk.exec_eq hend, Function.update_self] at ht
      exact ⟨ht, fun x hx => congrArg k hx, hk.makes⟩

section
variable {α : Type} {v : View} {f : Block → DiskProg α} (hlt : b < blockNum)
include hlt

theorem makes_read (hexact : b ∈ v.exact) (hf : Makes serve v.allowed v.alike (f (d b)) d) :
    Makes serve v.allowed v.alike (readBlock b junk >>= f) d := by
  rw [readBlock, if_pos hlt]
  exact ⟨.inl hexact, fun buf hbuf => congrArg f (hbuf.1 hexact), hf⟩

/-- A program that only looks at a block. -/
theorem makes_look (hlook : b ∈ v.looked) (hsame : ∀ buf, v.sees b buf (d b) → f buf = f (d b))
    (hf : Makes serve v.allowed v.alike (f (d b)) d) :
    Makes serve v.allowed v.alike (readBlock b junk >>= f) d := by
  rw [readBlock, if_pos hlt]
  exact ⟨.inr hlook, fun buf hbuf => hsame buf (hbuf.2 hlook), hf⟩

end

/-! ## The bitmap -/

/-- The first inode that is free. -/
def FirstFree (d : Disk) (m : ℕ) : Prop :=
  0 < m ∧ m < inodeNum ∧ ¬Live d m ∧ ∀ k, 0 < k → k < m → Live d k

/-- The blocks of the inode table that `alloc_inode` looks at. -/
def scanned (d : Disk) : Set ℕ :=
  {b | ∃ k, k < inodeNum ∧ (∀ j, 0 < j → j < k → Live d j) ∧ b = iblock k}

/-- The types of the inodes in a block are the same. -/
def SameTypes (buf buf' : Block) : Prop :=
  ∀ k < ipb, inoType (inodeIn buf k) = inoType (inodeIn buf' k)

theorem searchInode_congr {buf buf' : Block} {ks : List ℕ} (h : SameTypes buf buf')
    (hks : ∀ k ∈ ks, k < ipb) : searchInode buf i ks = searchInode buf' i ks := by
  induction ks with
  | nil => rfl
  | cons k ks ih =>
    rw [searchInode, searchInode, h k (hks k (by simp)), ih fun k hk => hks k (by simp [hk])]

/-- The loop does not care what the last block was. -/
theorem allocInodeLoop_congr {buf buf' : Block} (hn : n + i ≤ 342) :
    allocInodeLoop env type n i buf = allocInodeLoop env type n i buf' := by
  cases n with
  | zero => rfl
  | succ n =>
    have hlt : i + iblock 0 < blockNum := by
      rw [iblock_eq]
      simp only [blockNum]
      omega
    rw [allocInodeLoop, allocInodeLoop, readBlock, readBlock, if_pos hlt, if_pos hlt]

/-- What `alloc_inode` relies on: the block of the first free inode, and the types in the blocks
before it. -/
structure Allocates (v : View) (d : Disk) (env : Env) (type : ℕ) : Prop where
  last : ∀ m, FirstFree d m → iblock m ∈ v.exact
  passed : ∀ b ∈ scanned d, (∀ m, FirstFree d m → b ≠ iblock m) → b ∈ v.looked
  types : ∀ b buf buf', v.sees b buf buf' → SameTypes buf buf'
  writes : ∀ m, FirstFree d m →
    v.writes (iblock m) (putIn (d (iblock m)) (m % ipb) (newInode env type (inodeOf d m)))

/-- A block in which the loop does not stop at a free inode is not that of the first free inode. -/
theorem Search.ne_iblock {f : Found} (h : Search (d (i + iblock 0)) i 0 ipb f)
    (hf : ∀ j, f ≠ .at j) (hm : FirstFree d m) : i + iblock 0 ≠ iblock m := by
  intro hb
  obtain ⟨hpos, hlt, hfree, -⟩ := hm
  obtain ⟨k, hk, rfl⟩ : ∃ k < 3, m = k + i * ipb := by
    rw [iblock_eq, iblock_eq] at hb
    refine ⟨m % 3, Nat.mod_lt _ (by decide), ?_⟩
    simp only [ipb]
    omega
  have hpassed : ¬Passed (d (i + iblock 0)) i k := by
    rintro (⟨rfl, rfl⟩ | ⟨-, htype⟩)
    · simp at hpos
    · exact hfree ⟨hlt, by rwa [inodeOf_block hk]⟩
  cases f with
  | no => exact hpassed (h k (Nat.zero_le k) (by simpa [ipb] using hk))
  | stop =>
    obtain ⟨r, -, hout, hbefore⟩ := h
    by_cases hkr : k < r
    · exact hpassed (hbefore k (Nat.zero_le k) hkr)
    · exact absurd hlt (by simp only [ipb] at *; omega)
  | «at» j => exact hf j rfl

theorem Allocates.makes_loop {v : View} (h : Allocates v d env type) (hn : n + i = 342)
    (hi : ∀ k, 0 < k → k < i * ipb → Live d k) :
    Makes serve v.allowed v.alike (allocInodeLoop env type n i junk) d := by
  induction n generalizing i junk with
  | zero => trivial
  | succ n ih =>
    have hblock : iblock (i * ipb) = i + iblock 0 := by
      rw [iblock_eq, iblock_eq]
      simp only [ipb]
      omega
    have hscanned : i + iblock 0 ∈ scanned d := by
      refine ⟨i * ipb, ?_, hi, hblock.symm⟩
      simp only [ipb, inodeNum]
      omega
    have hlt : i + iblock 0 < blockNum := by
      rw [iblock_eq]
      simp only [blockNum]
      omega
    have hspec : Search (d (i + iblock 0)) i 0 ipb _ := searchInode_spec ipb 0
    rw [← List.range_eq_range'] at hspec
    -- in a block that is passed over only the types count
    have hcongr : ∀ buf, v.sees (i + iblock 0) buf (d (i + iblock 0)) →
        searchInode buf i (List.range ipb) = searchInode (d (i + iblock 0)) i (List.range ipb) :=
      fun buf hbuf => searchInode_congr (h.types _ _ _ hbuf) fun k hk => List.mem_range.1 hk
    cases hs : searchInode (d (i + iblock 0)) i (List.range ipb) with
    | no =>
      rw [hs] at hspec hcongr
      have hlook := h.passed _ hscanned fun m hm => Search.ne_iblock hspec (by simp) hm
      refine makes_look hlt hlook (fun buf hbuf => ?_) ?_
      · rw [hcongr buf hbuf, hs]
        exact allocInodeLoop_congr (by omega)
      · rw [hs]
        refine ih (by omega) fun k h₁ h₂ => ?_
        refine live_of_passed hi (le_refl 3)
          (fun k h₁ h₂ => hspec k h₁ (by simpa [ipb] using h₂)) k h₁ ?_
        simp only [ipb] at *
        omega
    | stop =>
      rw [hs] at hspec hcongr
      have hlook := h.passed _ hscanned fun m hm => Search.ne_iblock hspec (by simp) hm
      refine makes_look hlt hlook (fun buf hbuf => ?_) ?_
      · rw [hcongr buf hbuf, hs]
      · rw [hs]
        trivial
    | «at» m =>
      rw [hs] at hspec
      obtain ⟨h₂, h₃, h₄, h₅, h₆⟩ := hspec
      simp only [ipb] at h₂
      have hm : m < 3 := by omega
      have hfirst : FirstFree d (m + i * ipb) := by
        refine ⟨?_, h₄, ?_, live_of_passed hi (by omega) h₆⟩
        · simp only [ipb]
          omega
        · intro hlive
          rw [Live, inodeOf_block hm] at hlive
          exact hlive.2 h₅
      have hexact := h.last _ hfirst
      have hwrite := h.writes _ hfirst
      rw [iblock_block hm] at hexact hwrite
      rw [mod_block hm, inodeOf_block hm] at hwrite
      refine makes_read hlt hexact ?_
      rw [hs]
      dsimp only
      rw [writeBlock, if_pos hlt]
      exact ⟨hwrite, fun _ _ => rfl, trivial⟩

theorem Allocates.makes {v : View} (h : Allocates v d env type) :
    Makes serve v.allowed v.alike (allocInode env type) d :=
  h.makes_loop (by decide) fun k h₁ h₂ => by omega

/-! ## The blocks of a file -/

end Yfs.DiskFootprints
