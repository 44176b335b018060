import Yfs.BlockManager
import Yfs.ExtentClient

/-!
# Inodes and the requests of the extent server

The functions of `inode_manager` as programs over the disk, and the handlers of `extent_server`
on top of them. An inode is a `struct inode` of 152 bytes, copied as a whole.
-/

namespace Yfs.InodeManager
open CallTrees MemoryBlocks BlockManager
open LockProtocol (Str)
open ExtentClient (Attr Reply ExtentId typeDir)

/-! ## `struct inode` -/

abbrev inodeSize : ℕ := 152

abbrev Inode := Mem inodeSize

def ndirect : ℕ := 32

/-- `NINDIRECT` -/
def nindirect : ℕ := 128

def inoType (ino : Inode) : ℕ := load 2 ino 0

def inoSize (ino : Inode) : ℕ := load 4 ino 4

def inoBlock (ino : Inode) (k : ℕ) : ℕ := load 4 ino (20 + 4 * k)

def setType (ino : Inode) (x : ℕ) : Inode := store 2 ino 0 x

def setSize (ino : Inode) (x : ℕ) : Inode := store 4 ino 4 x

def setAtime (ino : Inode) (x : ℕ) : Inode := store 4 ino 8 x

def setMtime (ino : Inode) (x : ℕ) : Inode := store 4 ino 12 x

def setCtime (ino : Inode) (x : ℕ) : Inode := store 4 ino 16 x

def setBlock (ino : Inode) (k x : ℕ) : Inode := store 4 ino (20 + 4 * k) x

/-- `((struct inode *) buf) + j` -/
def inodeIn (buf : Block) (j : ℕ) : Inode := slice buf (inodeSize * j) inodeSize

def putIn (buf : Block) (j : ℕ) (ino : Inode) : Block := blit buf (inodeSize * j) ino

/-- What a request finds beside its arguments: the time, what its buffers hold before they are
filled, and the memory behind the string of a `put`. -/
structure Env where
  now : ℕ
  junk : Block
  pad : ℕ → UInt8

def ceil (a b : ℕ) : ℕ := a / b + if a % b = 0 then 0 else 1

/-! ## Inodes -/

/-- The fields that `alloc_inode` sets. -/
def newInode (env : Env) (type : ℕ) (ino : Inode) : Inode :=
  let ino := setCtime (setMtime (setSize (setType ino type) 0) env.now) env.now
  (List.range (ndirect + 1)).foldl (fun ino k => setBlock ino k 0) ino

/-- How the loop over the inodes of one block ends. -/
inductive Found where
  | no
  | stop
  | at (j : ℕ)
  deriving DecidableEq, Repr

def searchInode (buf : Block) (i : ℕ) : List ℕ → Found
  | [] => .no
  | j :: js =>
    if i = 0 ∧ j = 0 then searchInode buf i js
    else if inodeNum ≤ j + i * ipb then .stop
    else if inoType (inodeIn buf j) = 0 then .at j
    else searchInode buf i js

/-- The loop of `alloc_inode` over the blocks of the inode table. -/
def allocInodeLoop (env : Env) (type : ℕ) : ℕ → ℕ → Block → DiskProg ℕ
  | 0, _, _ => pure 0
  | n + 1, i, buf => do
    let buf ← readBlock (i + iblock 0) buf
    match searchInode buf i (List.range ipb) with
    | .no => allocInodeLoop env type n (i + 1) buf
    | .stop => pure 0
    | .at j => do
      writeBlock (i + iblock 0) (putIn buf j (newInode env type (inodeIn buf j)))
      pure (j + i * ipb)

/-- `inode_manager::alloc_inode`. -/
def allocInode (env : Env) (type : ℕ) : DiskProg ℕ :=
  allocInodeLoop env type (ceil inodeNum ipb) 0 env.junk

/-- `inode_manager::get_inode`. -/
def getInode (env : Env) (inum : ℕ) : DiskProg (Option Inode) :=
  if inodeNum ≤ inum then pure none
  else do
    let buf ← readBlock (iblock inum) env.junk
    let ino := inodeIn buf (inum % ipb)
    pure (if inoType ino = 0 then none else some ino)

/-- `inode_manager::put_inode`. -/
def putInode (env : Env) (inum : ℕ) (ino : Inode) : DiskProg Unit := do
  let buf ← readBlock (iblock inum) env.junk
  writeBlock (iblock inum) (putIn buf (inum % ipb) ino)

/-- `inode_manager::free_inode`; an inode that `get_inode` returns is not free. -/
def freeInode (env : Env) (inum : ℕ) : DiskProg Unit := do
  match ← getInode env inum with
  | none => pure ()
  | some ino => putInode env inum (setCtime (setMtime (setType ino 0) env.now) env.now)

/-! ## The blocks of a file -/

/-- The `i`-th block of a file, `BLK(ino, ind, i)`. -/
def blk (ino : Inode) (ind : Block) (i : ℕ) : DiskProg ℕ :=
  if i < ndirect then pure (inoBlock ino i)
  else do
    check (i - ndirect < nindirect)
    pure (load 4 ind (4 * (i - ndirect)))

/-- `BLK(ino, ind, i) = x` -/
def setBlk (ino : Inode) (ind : Block) (i x : ℕ) : DiskProg (Inode × Block) :=
  if i < ndirect then pure (setBlock ino i x, ind)
  else do
    check (i - ndirect < nindirect)
    pure (ino, store 4 ind (4 * (i - ndirect)) x)

/-- `if (bc > NDIRECT) read_block(blocks[NDIRECT], ind_buf)` -/
def readIndirect (env : Env) (ino : Inode) (bc : ℕ) : DiskProg Block :=
  if ndirect < bc then readBlock (inoBlock ino ndirect) env.junk else pure env.junk

/-- Read the `n` blocks from `i` on, through `buf`. -/
def readLoop (ino : Inode) (ind : Block) : ℕ → ℕ → Block → DiskProg (Str × Block)
  | 0, _, buf => pure ([], buf)
  | n + 1, i, buf => do
    let b ← blk ino ind i
    let buf ← readBlock b buf
    let (rest, last) ← readLoop ino ind n (i + 1) buf
    pure (buf.toList ++ rest, last)

/-- The number of bytes of the last block. -/
def lastBytes (size : ℕ) : ℕ := if size % blockSize = 0 then blockSize else size % blockSize

/-- Conversion to `int`. -/
def toInt (x : ℕ) : ℤ := (x + 2 ^ 31) % 2 ^ 32 - 2 ^ 31

/-- `inode_manager::read_file`: the bytes read and `*size`. -/
def readFile (env : Env) (inum : ℕ) : DiskProg (Str × ℤ) := do
  match ← getInode env inum with
  | none => pure ([], 0)
  | some ino => do
    let bc := ceil (inoSize ino) blockSize
    let ind ← readIndirect env ino bc
    if inoSize ino = 0 then pure ([], 0)
    else do
      let (front, buf) ← readLoop ino ind (bc - 1) 0 env.junk
      let b ← blk ino ind (bc - 1)
      let last ← readBlock b buf
      putInode env inum (setAtime ino env.now)
      pure (front ++ last.toList.take (lastBytes (inoSize ino)), toInt (inoSize ino))

/-- The block of memory at `buf + i * BLOCK_SIZE`. -/
def blockAt (env : Env) (buf : Str) (i : ℕ) : Block :=
  Vector.ofFn fun k => (buf[i * blockSize + k]?).getD (env.pad (i * blockSize + k))

/-- Overwrite the `n` blocks from `i` on. -/
def writeLoop (env : Env) (buf : Str) (ino : Inode) (ind : Block) : ℕ → ℕ → DiskProg Unit
  | 0, _ => pure ()
  | n + 1, i => do
    let b ← blk ino ind i
    writeBlock b (blockAt env buf i)
    writeLoop env buf ino ind n (i + 1)

/-- Free the `n` blocks from `i` on. -/
def freeLoop (env : Env) : ℕ → ℕ → Inode → Block → DiskProg (Inode × Block)
  | 0, _, ino, ind => pure (ino, ind)
  | n + 1, i, ino, ind => do
    let b ← blk ino ind i
    freeBlock env.junk b
    let (ino, ind) ← setBlk ino ind i 0
    freeLoop env n (i + 1) ino ind

/-- Allocate and write the `n` blocks from `i` on. -/
def growLoop (env : Env) (buf : Str) : ℕ → ℕ → Inode → Block → DiskProg (Inode × Block)
  | 0, _, ino, ind => pure (ino, ind)
  | n + 1, i, ino, ind => do
    let b ← allocBlock env.junk
    let (ino, ind) ← setBlk ino ind i b
    let b ← blk ino ind i
    writeBlock b (blockAt env buf i)
    growLoop env buf n (i + 1) ino ind

/-- The times and the size that end a `write_file`. -/
def stamp (env : Env) (size : ℤ) (ino : Inode) : Inode :=
  setSize (setMtime (setCtime ino env.now) env.now) (size % 2 ^ 32).toNat

/-- Free the indirect block when it is no longer needed. -/
def dropIndirect (env : Env) (bc bcNew : ℕ) (ino : Inode) : DiskProg Inode :=
  if ndirect < bc ∧ bcNew ≤ ndirect then do
    freeBlock env.junk (inoBlock ino ndirect)
    pure (setBlock ino ndirect 0)
  else pure ino

/-- `write_file` when the number of blocks gets smaller. -/
def shrink (env : Env) (inum : ℕ) (size : ℤ) (bc bcNew : ℕ) (ino : Inode) (ind : Block) :
    DiskProg Unit := do
  let (ino, _) ← freeLoop env (bc - bcNew) bcNew ino ind
  let ino ← dropIndirect env bc bcNew ino
  putInode env inum (stamp env size ino)

/-- Allocate the indirect block when it is needed for the first time. -/
def addIndirect (env : Env) (bc bcNew : ℕ) (ino : Inode) (ind : Block) :
    DiskProg (Inode × Block) :=
  if bc ≤ ndirect ∧ ndirect < bcNew then do
    let b ← allocBlock env.junk
    pure (setBlock ino ndirect b, Vector.replicate blockSize 0)
  else pure (ino, ind)

/-- `if (blocks[NDIRECT]) write_block(blocks[NDIRECT], ind_buf)` -/
def writeIndirect (ino : Inode) (ind : Block) : DiskProg Unit :=
  if inoBlock ino ndirect ≠ 0 then writeBlock (inoBlock ino ndirect) ind else pure ()

/-- `write_file` when the number of blocks gets larger. -/
def grow (env : Env) (inum : ℕ) (buf : Str) (size : ℤ) (bc bcNew : ℕ) (ino : Inode) (ind : Block) :
    DiskProg Unit := do
  let (ino, ind) ← addIndirect env bc bcNew ino ind
  let (ino, ind) ← growLoop env buf (bcNew - bc) bc ino ind
  writeIndirect ino ind
  putInode env inum (stamp env size ino)

/-- `CEIL(size, BLOCK_SIZE)` of an `int`, whose division rounds towards zero. -/
def ceilInt (size : ℤ) : ℤ := size.tdiv blockSize + if size.tmod blockSize = 0 then 0 else 1

/-- `inode_manager::write_file`. With a negative number of blocks the loop that frees starts
outside of `blocks`. -/
def writeFile (env : Env) (inum : ℕ) (buf : Str) (size : ℤ) : DiskProg Unit := do
  match ← getInode env inum with
  | none => pure ()
  | some ino => do
    let bc := ceil (inoSize ino) blockSize
    let ind ← readIndirect env ino bc
    let bcNew := (ceilInt size).toNat
    writeLoop env buf ino ind (min bcNew bc) 0
    check (0 ≤ ceilInt size)
    if bcNew = bc then putInode env inum (stamp env size ino)
    else if bcNew < bc then shrink env inum size bc bcNew ino ind
    else grow env inum buf size bc bcNew ino ind

/-- A `short` as an unsigned number. -/
def shortToUInt (x : ℕ) : ℕ := if x < 2 ^ 15 then x else x + (2 ^ 32 - 2 ^ 16)

/-- `inode_manager::getattr`. -/
def getattr (env : Env) (inum : ℕ) : DiskProg Attr := do
  let buf ← readBlock (iblock inum) env.junk
  let ino := inodeIn buf (inum % ipb)
  pure { type := .ofNat (shortToUInt (inoType ino)), size := .ofNat (inoSize ino),
         atime := .ofNat (load 4 ino 8), mtime := .ofNat (load 4 ino 12),
         ctime := .ofNat (load 4 ino 16) }

/-- The loop of `remove_file`: free the `n` blocks from `i` on. -/
def removeLoop (env : Env) (ino : Inode) (ind : Block) : ℕ → ℕ → DiskProg Unit
  | 0, _ => pure ()
  | n + 1, i => do
    let b ← blk ino ind i
    freeBlock env.junk b
    removeLoop env ino ind n (i + 1)

/-- `if (bc > NDIRECT) free_block(blocks[NDIRECT])` -/
def freeIndirect (env : Env) (ino : Inode) (bc : ℕ) : DiskProg Unit :=
  if ndirect < bc then freeBlock env.junk (inoBlock ino ndirect) else pure ()

/-- `inode_manager::remove_file`. -/
def removeFile (env : Env) (inum : ℕ) : DiskProg Unit := do
  match ← getInode env inum with
  | none => pure ()
  | some ino => do
    let bc := ceil (inoSize ino) blockSize
    let ind ← readIndirect env ino bc
    freeIndirect env ino bc
    removeLoop env ino ind bc 0
    freeInode env inum

/-! ## The handlers of `extent_server` -/

inductive Request where
  | create (type : UInt32)
  | put (id : ExtentId) (buf : Str)
  | get (id : ExtentId)
  | getattr (id : ExtentId)
  | remove (id : ExtentId)
  deriving DecidableEq, Repr

/-- `id & 0x7fffffff` -/
def inumOf (id : ExtentId) : ℕ := (id &&& 0x7fffffff).toNat

/-- `extent_server::create`. -/
def create (env : Env) (type : UInt32) : DiskProg Reply := do
  let inum ← allocInode env type.toNat
  pure { id := UInt64.ofNat inum }

/-- `extent_server::put`. -/
def put (env : Env) (id : ExtentId) (buf : Str) : DiskProg Reply := do
  writeFile env (inumOf id) buf (toInt buf.length)
  pure {}

/-- `buf.assign(cbuf, size)`: a negative size is larger than any string. -/
def assign (bytes : Str) (size : ℤ) : DiskProg Str :=
  if size < 0 then .fault .exception else pure bytes

/-- `extent_server::get`. -/
def get (env : Env) (id : ExtentId) : DiskProg Reply := do
  let (bytes, size) ← readFile env (inumOf id)
  let buf ← assign bytes size
  pure { buf := buf }

/-- `extent_server::getattr`. -/
def attrOf (env : Env) (id : ExtentId) : DiskProg Reply := do
  let a ← getattr env (inumOf id)
  pure { attr := a }

/-- `extent_server::remove`. -/
def remove (env : Env) (id : ExtentId) : DiskProg Reply := do
  removeFile env (inumOf id)
  pure {}

def handle (env : Env) : Request → DiskProg Reply
  | .create type => create env type
  | .put id buf => put env id buf
  | .get id => get env id
  | .getattr id => attrOf env id
  | .remove id => remove env id

/-- The disk of a new `extent_server`, whose constructor has allocated the root directory. -/
def newServer (env : Env) : Except Fault (ℕ × Disk) :=
  exec (allocInode env typeDir.toNat) fun _ => Vector.replicate _ 0

end Yfs.InodeManager
