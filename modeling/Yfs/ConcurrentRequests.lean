import Yfs.AllocatedIds
import Yfs.DiskFootprints
import Mathlib.Data.List.FinRange
import Mathlib.Tactic.FinCases

/-!
# Requests that run at the same time

The handlers take no lock, so their reads and writes of blocks interleave in any way. Requests of which
no two read, change and write back the same block still behave as if they had run one after the other.
Two requests that create a file do not.
-/

namespace Yfs.ConcurrentRequests
open CallTrees LabelledRuns Interleavings MemoryBlocks BlockManager InodeManager InodeTable
open FileBlocks BlockOwnership FileWrites FileContents ExtentRequests DiskFootprints
open LockProtocol (Str)
open ExtentClient (Reply ExtentId)

/-- The inode number that a request is about. -/
def fileOf : Request → Option ℕ
  | .create _ => none
  | .put id _ => some (inumOf id)
  | .get id => some (inumOf id)
  | .getattr id => some (inumOf id)
  | .remove id => some (inumOf id)

/-- The request writes inode `m`, and with it the block of the inode table that it has read. -/
def Changes (d : Disk) : Request → ℕ → Prop
  | .create _, m => FirstFree d m
  | .put id _, m => m = inumOf id ∧ Live d m
  | .get id, m => m = inumOf id ∧ Live d m ∧ inoSize (inodeOf d m) ≠ 0
  | .getattr _, _ => False
  | .remove id, m => m = inumOf id ∧ Live d m

/-- The blocks in which a request looks for inodes. Only `getattr` reads behind the table. -/
def tableReads (d : Disk) : Request → Set ℕ
  | .create _ => scanned d
  | .put id _ => {b | inumOf id < inodeNum ∧ b = iblock (inumOf id)}
  | .get id => {b | inumOf id < inodeNum ∧ b = iblock (inumOf id)}
  | .getattr id => {iblock (inumOf id)}
  | .remove id => {b | inumOf id < inodeNum ∧ b = iblock (inumOf id)}

/-- The request allocates or frees blocks. -/
def Resizes (d : Disk) : Request → Prop
  | .put id buf => Live d (inumOf id) ∧
      ceil buf.length blockSize ≠ ceil (inoSize (inodeOf d (inumOf id))) blockSize
  | .remove id => Live d (inumOf id) ∧ inoSize (inodeOf d (inumOf id)) ≠ 0
  | _ => False

/-- The bitmap and the blocks that are free. -/
def free (d : Disk) : Set ℕ := {b | (∃ k < blockNum, b = bblock k) ∨ Mapped b ∧ bitOf d b = false}

/-- The blocks of the request's file, and if it resizes the file the bitmap and free blocks. -/
def areaOf (d : Disk) (req : Request) : Set ℕ :=
  {b | ∃ m, Changes d req m ∧ Owns d m b} ∪ {b | Resizes d req ∧ b ∈ free d}

/-- The blocks outside of the inode table that a request writes. -/
def areaWrites (d : Disk) : Request → Set ℕ
  | .put id buf => areaOf d (.put id buf)
  | .remove id => {b | Resizes d (.remove id) ∧ ∃ k < blockNum, b = bblock k}
  | _ => ∅

/-- A `put` to a live inode of at most `MAXFILE * BLOCK_SIZE` bytes. -/
def Fits (d : Disk) : Request → Prop
  | .put id buf => Live d (inumOf id) → buf.length ≤ maxFile * blockSize
  | _ => True

/-- The requests keep out of each other's way: alone each of them returns, no two of them write inodes
in the same block, or an inode that another one reads, at most one of them allocates or frees blocks,
no inode is freed where a `create` looks for one, and no `getattr` behind the inode table reads a
block that is written. -/
structure Apart {ι : Type} (d : Disk) (env : ι → Env) (reqs : ι → Request) : Prop where
  returns : ∀ i, ∃ x, exec (handle (env i) (reqs i)) d = .ok x
  fits : ∀ i, Fits d (reqs i)
  files : ∀ i j m, i ≠ j → Changes d (reqs i) m → fileOf (reqs j) ≠ some m
  table : ∀ i j m m', i ≠ j → Changes d (reqs i) m → Changes d (reqs j) m' → iblock m ≠ iblock m'
  resize : ∀ i j, i ≠ j → Resizes d (reqs i) → ¬Resizes d (reqs j)
  scan : ∀ i j id type, reqs i = .remove id → Live d (inumOf id) → reqs j = .create type →
    iblock (inumOf id) ∉ scanned d
  behind : ∀ i j id, reqs i = .getattr id → inodeNum ≤ inumOf id →
    iblock (inumOf id) ∉ areaWrites d (reqs j)

/-! ## What a request relies on -/

/-- Inode `m` is the only one that differs in its block, and its type does not if `kept`. -/
def Spares (d : Disk) (m : ℕ) (kept : Prop) (buf : Block) : Prop :=
  ∀ j, iblock j = iblock m → (j ≠ m → inodeIn buf (j % ipb) = inodeOf d j) ∧
    (kept → inoType (inodeIn buf (j % ipb)) = inoType (inodeOf d j))

/-- The request keeps the types of the inodes. -/
def KeepsTypes : Request → Prop
  | .create _ => False
  | .remove _ => False
  | _ => True

/-- What a request tells apart in a block in which it only looks for inodes. -/
def Sees (req : Request) (buf buf' : Block) : Prop :=
  match fileOf req with
  | none => SameTypes buf buf'
  | some i => inodeIn buf (i % ipb) = inodeIn buf' (i % ipb)

def view (d : Disk) (req : Request) : View where
  exact := {b | ∃ m, Changes d req m ∧ b = iblock m} ∪ areaOf d req
  looked := {b | b ∈ tableReads d req ∧ ∀ m, Changes d req m → b ≠ iblock m}
  sees _ := Sees req
  writes b buf := b ∈ areaWrites d req ∨
    ∃ m, Changes d req m ∧ b = iblock m ∧ Spares d m (KeepsTypes req) buf

variable {d d' d₀ : Disk} {env : Env} {req : Request} {b i m : ℕ} {tr : List (Request × Reply)}

theorem Changes.lt (h : Changes d req m) : m < inodeNum := by
  cases req with
  | create type => exact h.2.1
  | put id buf => exact h.2.1
  | get id => exact h.2.1.1
  | getattr id => exact h.elim
  | remove id => exact h.2.1

section
variable (hinv : Inv d) (hall : AllSmall d)
include hinv hall

end

/-- A request that looks at its inode and does not change it. -/
structure Looks (v : View) (i : ℕ) : Prop where
  looked : i < inodeNum → iblock i ∈ v.looked
  sees : ∀ b buf buf', v.sees b buf buf' → inodeIn buf (i % ipb) = inodeIn buf' (i % ipb)

theorem Looks.getInode {v : View} (h : Looks v i) :
    Makes serve v.allowed v.alike (getInode env i) d := by
  unfold InodeManager.getInode
  by_cases hi : inodeNum ≤ i
  · rw [if_pos hi]
    trivial
  · rw [if_neg hi]
    have hlt := not_le.1 hi
    refine makes_look (iblock_lt_num hlt) (h.looked hlt) (fun buf hbuf => ?_) trivial
    rw [h.sees _ _ _ hbuf]

section
variable {ι : Type} {envs : ι → Env} {reqs : ι → Request}

/-- Where a request only looks for inodes, another one may write its own inode back. -/
theorem Apart.sees (h : Apart d envs reqs) {i j : ι} (hij : i ≠ j) {buf : Block}
    (hchange : Changes d (reqs j) m) (hbuf : Spares d m (KeepsTypes (reqs j)) buf)
    (hlook : iblock m ∈ (view d (reqs i)).looked) : Sees (reqs i) buf (d (iblock m)) := by
  unfold Sees
  cases hfile : fileOf (reqs i) with
  | some k =>
    have hne : k ≠ m := fun hk => h.files j i m hij.symm hchange (hk ▸ hfile)
    have hblock : iblock k = iblock m := by
      have hread := hlook.1
      cases hreq : reqs i with
      | create type =>
        rw [hreq] at hfile
        cases hfile
      | put id buf | get id | remove id =>
        rw [hreq] at hfile hread
        cases hfile
        exact hread.2.symm
      | getattr id =>
        rw [hreq] at hfile hread
        cases hfile
        exact hread.symm
    have hsame := (hbuf k hblock).1 hne
    rw [inodeOf, hblock] at hsame
    exact hsame
  | none =>
    obtain ⟨type, hcreate⟩ : ∃ type, reqs i = .create type := by
      cases hreq : reqs i with
      | create type => exact ⟨type, rfl⟩
      | put id buf | get id | getattr id | remove id =>
        rw [hreq] at hfile
        cases hfile
    rw [hcreate] at hlook
    -- an inode is neither made nor freed in a block that is passed over
    have hkeeps : KeepsTypes (reqs j) := by
      cases hreq : reqs j with
      | create type' =>
        rw [hreq] at hchange
        exact hlook.2 m hchange rfl
      | remove id =>
        rw [hreq] at hchange
        obtain ⟨rfl, hlive⟩ := hchange
        exact h.scan j i id type hreq hlive hcreate hlook.1
      | put id buf | get id | getattr id => trivial
    intro k hk
    obtain ⟨j', hblock, hmod⟩ : ∃ j', iblock j' = iblock m ∧ j' % ipb = k := by
      refine ⟨m / 3 * 3 + k, ?_, ?_⟩
      · rw [iblock_eq, iblock_eq]
        simp only [ipb] at hk
        omega
      · simp only [ipb] at *
        omega
    have htype := (hbuf j' hblock).2 hkeeps
    rwa [inodeOf, hblock, hmod] at htype

end

end Yfs.ConcurrentRequests
