import Yfs.CallTrees
import Yfs.DirectoryFormat

/-!
# The file-system operations of `yfs_client`

Each operation is a program over the calls of the lock client and of the extent client,
with the set `held_lock` as its state; a call is recorded together with the locks that are
held when it is made. The parts that only work on strings are functions of their own.
-/

namespace Yfs.YfsClient
open ByteLayout CallTrees LockProtocol ExtentClient DirectoryFormat

abbrev Inum := UInt64

/-- `held_lock`, without repetitions. -/
abbrev Held := List Inum

inductive Call where
  | acquire (i : Inum)
  | release (i : Inum)
  | get (i : Inum)
  | put (i : Inum) (buf : Str)
  | getattr (i : Inum)
  | remove (i : Inum)
  | create (type : UInt32)
  deriving DecidableEq, Repr

/-- How an operation can die. -/
inductive Fault where
  /-- `VERIFY` or `assert` -/
  | assertion
  /-- a read or write outside of an array -/
  | outside
  /-- an exception of `std::string` or of `new` -/
  | exception
  | hangs
  deriving DecidableEq, Repr

abbrev Step := Held × Call
abbrev Op := StateT Held (Prog Step Reply Fault)

/-- `yfs_client::xxstatus`, and the number of `ENOTEMPTY`. -/
def OK : Status := 0
def NOENT : Status := 2
def IOERR : Status := 3
def EXIST : Status := 4
def ENOTEMPTY : Status := 39

def emit (c : Call) : Op Reply := fun h => .call (h, c) fun r => .ret (r, h)

def die {α : Type} (e : Fault) : Op α := fun _ => .fault e

/-- `VERIFY` and `assert`. -/
def verify (b : Bool) : Op Unit := if b then pure () else die .assertion

def lift {α : Type} : Except Fault α → Op α
  | .ok a => pure a
  | .error e => die e

theorem ok_bind {α β ε : Type} (a : α) (f : α → Except ε β) : (Except.ok a).bind f = f a := rfl

/-- `lock`: whether the lock was held before. -/
def lock (i : Inum) : Op Bool := do
  let h ← get
  if i ∈ h then pure true
  else do
    let r ← emit (.acquire i)
    verify (r.ret = 0)
    set (i :: h)
    pure false

def unlock (i : Inum) : Op Unit := do
  let h ← get
  verify (i ∈ h)
  set (h.erase i)
  let r ← emit (.release i)
  verify (r.ret = 0)

/-- `if (!lr) unlock(i)` -/
def unlockUnless (lr : Bool) (i : Inum) : Op Unit := if lr then pure () else unlock i

@[simp] theorem run_emit (c : Call) (h : Held) :
    (emit c).run h = .call (h, c) fun r => .ret (r, h) := rfl

@[simp] theorem run_die {α : Type} (e : Fault) (h : Held) : (die e : Op α).run h = .fault e := rfl

theorem run_verify (b : Bool) (h : Held) :
    (verify b).run h = if b then .ret ((), h) else .fault .assertion := by
  cases b <;> rfl

theorem run_lock (i : Inum) (h : Held) : (lock i).run h = if i ∈ h then .ret (true, h) else
    .call (h, .acquire i) fun r =>
      if r.ret = 0 then .ret (false, i :: h) else .fault .assertion := by
  by_cases hi : i ∈ h
  · simp [lock, hi]
  · simp only [lock, StateT.run_bind, StateT.run_get, Prog.pure_eq, Prog.ret_bind, hi, if_false,
      run_emit, Prog.call_bind, run_verify]
    congr 1
    funext r
    by_cases hr : r.ret = 0 <;> simp [hr]

theorem run_unlock (i : Inum) (h : Held) : (unlock i).run h = if i ∈ h then
    .call (h.erase i, .release i) fun r =>
      if r.ret = 0 then .ret ((), h.erase i) else .fault .assertion
    else .fault .assertion := by
  by_cases hi : i ∈ h
  · simp only [unlock, StateT.run_bind, StateT.run_get, Prog.pure_eq, Prog.ret_bind, hi, if_true,
      decide_true, StateT.run_set, run_emit, Prog.call_bind, run_verify]
    congr 1
    funext r
    by_cases hr : r.ret = 0 <;> simp [hr]
  · simp [unlock, hi, run_verify]

/-! ## Work on strings -/

/-- `std::string::max_size()` -/
def maxSize : ℕ := 2 ^ 63 - 1

/-- `std::string::resize`, which fills up with NUL and refuses more than `max_size()`. -/
def resize (buf : Str) (n : ℕ) : Except Fault Str :=
  if maxSize < n then .error .exception
  else .ok (buf.take n ++ List.replicate (n - buf.length) 0)

/-- The string made long enough for `n` bytes. -/
def grown (buf : Str) (n : ℕ) : Except Fault Str :=
  if buf.length < n then resize buf n else .ok buf

/-- The work of `write` on the content: the new content and `bytes_written`. -/
def writeAt (buf : Str) (off : ℤ) (data : Str) : Except Fault (Str × ℕ) := do
  let size := data.length
  let len := int32 buf.length
  let buf' ← grown buf (sizeT (off + size))
  if buf'.length < sizeT off then .error .exception
  else .ok (patch buf' (sizeT off) data, if len ≤ off then sizeT (off + size - len) else size)

/-- `std::string::substr`. -/
def substr (buf : Str) (off : ℤ) (size : ℕ) : Except Fault Str :=
  if buf.length < sizeT off then .error .exception else .ok ((buf.drop (sizeT off)).take size)

structure Dirent where
  name : Str
  inum : Inum
  deriving DecidableEq, Repr

/-- The entries that `readdir` and `lookup` see among the records. -/
def dirents (es : List Entry) : List Dirent :=
  (es.filter fun e => e.inum ≠ 0).map fun e => ⟨e.name, e.inum.toUInt64⟩

def ScanEnd.fault : ScanEnd → Option Fault
  | .failed => some .assertion
  | .outside => some .outside
  | .hangs => some .hangs
  | .finished _ | .stopped _ _ => none

/-- `new char[remain + 1]` and the `memcpy` of `remain` bytes, where `remain` is the length of the
content as an `int`. The allocation throws if `remain + 1` is negative or no `int`; for `-1` there is
no room for what `memcpy` copies. -/
def copied (buf : Str) : Except Fault Str :=
  let remain := int32 buf.length
  if remain = -1 then .error .outside
  else if remain < 0 ∨ remain + 1 = 2 ^ 31 then .error .exception
  else .ok (buf.take remain.toNat)

theorem copied_eq_ok {buf cstr : Str} : copied buf = .ok cstr ↔
    IsInt (buf.length % 2 ^ 32 + 1) ∧ buf.take (buf.length % 2 ^ 32) = cstr := by
  unfold copied
  dsimp only
  by_cases hint : IsInt (buf.length % 2 ^ 32 + 1)
  · have hval : int32 buf.length = (buf.length % 2 ^ 32 : ℕ) := by
      unfold int32
      omega
    rw [hval, if_neg (by omega), if_neg (by omega), Int.toNat_natCast, Except.ok.injEq]
    exact ⟨fun h => ⟨hint, h⟩, fun h => h.2⟩
  · have hneg : int32 buf.length < 0 ∨ int32 buf.length + 1 = 2 ^ 31 := by
      unfold int32
      omega
    refine ⟨fun h => ?_, fun h => absurd h.1 hint⟩
    rw [if_pos hneg] at h
    split at h
    · cases h
    · cases h

/-- A content is copied whole if the number after its length is an `int`. -/
theorem copied_of_lt {buf : Str} (h : IsInt (buf.length + 1)) : copied buf = .ok buf := by
  have hmod : buf.length % 2 ^ 32 = buf.length := Nat.mod_eq_of_lt (by omega)
  rw [copied_eq_ok, hmod, List.take_length]
  exact ⟨h, rfl⟩

/-- There is no copy of a content of the largest length that is an `int`. -/
theorem copied_of_eq {buf : Str} (h : buf.length + 1 = 2 ^ 31) : copied buf = .error .exception := by
  have hint : int32 buf.length = buf.length := int32_of_lt (by omega) (by omega)
  unfold copied
  dsimp only
  rw [hint, if_neg (by omega), if_pos (by omega)]

/-- What `readdir` makes of the records its loop has seen. -/
def listed (x : List Entry × ScanEnd) : Except Fault (List Dirent) :=
  match ScanEnd.fault x.2 with
  | some e => .error e
  | none => .ok (dirents x.1)

/-- The copy of the content that `readdir` makes, and its loop. -/
def listDir (buf : Str) : Except Fault (List Dirent) :=
  (copied buf).bind fun cstr => listed (scan (fun _ => false) cstr)

/-- The loop of `lookup`. -/
def findName (name : Str) (ds : List Dirent) : Option Inum :=
  (ds.find? fun d => d.name = name).map (·.inum)

/-- The record that `create` stops at has enough slack for the new entry. -/
def hasRoom (name : Str) (e : Entry) : Bool :=
  UInt32.ofNat name.length + e.filelen + 24 < e.entrylen

/-- The offset and the bytes that `create` writes after its loop. An entry is put into slack
where there is enough of it, and appended otherwise. -/
def placed (name : Str) (ino : Inum) : ScanEnd → Except Fault (ℤ × Str)
  | .stopped pos e =>
    match filldir ino.toUInt32 (.ofNat name.length) (e.entrylen - e.filelen - 12) name
        (e.filelen + 12) with
    | some ncstr => .ok ((pos : ℤ) - 4, ncstr)
    | none => .error .outside
  | .finished pos =>
    match filldir ino.toUInt32 (.ofNat name.length) (.ofNat name.length + 12) name 0 with
    | some ncstr => .ok (pos, ncstr)
    | none => .error .outside
  | .failed => .error .assertion
  | .outside => .error .outside
  | .hangs => .error .hangs

/-- The copy of the content that `create` makes, and its loop. -/
def placeEntry (buf : Str) (name : Str) (ino : Inum) : Except Fault (ℤ × Str) :=
  (copied buf).bind fun cstr => placed name ino (scan (hasRoom name) cstr).2

/-- The offset and the bytes that `unlink` writes after its loop, if it found the entry. -/
def cleared (ino : Inum) : ScanEnd → Except Fault (Option (ℤ × Str))
  | .stopped pos e =>
    if e.inum.toUInt64 = ino then
      match filldir 0 0 e.entrylen [] 0 with
      | some ncstr => .ok (some (pos, ncstr))
      | none => .error .outside
    else .ok none
  | .finished _ => .ok none
  | .failed => .error .assertion
  | .outside => .error .outside
  | .hangs => .error .hangs

/-- The copy of the content that `unlink` makes, and its loop. -/
def clearEntry (buf : Str) (name : Str) (ino : Inum) : Except Fault (Option (ℤ × Str)) :=
  (copied buf).bind fun cstr => cleared ino (scan (fun e => e.inum ≠ 0 ∧ e.name = name) cstr).2

/-! ## The operations -/

structure Fileinfo where
  size : UInt64
  atime : UInt64
  mtime : UInt64
  ctime : UInt64
  deriving DecidableEq, Repr

structure Dirinfo where
  atime : UInt64
  mtime : UInt64
  ctime : UInt64
  deriving DecidableEq, Repr

def isfile (inum : Inum) : Op Bool := do
  let lr ← lock inum
  let a ← emit (.getattr inum)
  if a.ret ≠ OK then do
    unlockUnless lr inum
    pure false
  else do
    unlockUnless lr inum
    pure (a.attr.type = typeFile)

def isdir (inum : Inum) : Op Bool := do
  let b ← isfile inum
  pure !b

def getfile (inum : Inum) : Op (Status × Option Fileinfo) := do
  let lr ← lock inum
  let a ← emit (.getattr inum)
  if a.ret ≠ OK then do
    unlockUnless lr inum
    pure (IOERR, none)
  else do
    unlockUnless lr inum
    pure (OK, some ⟨a.attr.size.toUInt64, a.attr.atime.toUInt64, a.attr.mtime.toUInt64,
      a.attr.ctime.toUInt64⟩)

def getdir (inum : Inum) : Op (Status × Option Dirinfo) := do
  let lr ← lock inum
  let a ← emit (.getattr inum)
  if a.ret ≠ OK then do
    unlockUnless lr inum
    pure (IOERR, none)
  else do
    unlockUnless lr inum
    pure (OK, some ⟨a.attr.atime.toUInt64, a.attr.mtime.toUInt64, a.attr.ctime.toUInt64⟩)

def setattr (ino : Inum) (size : ℕ) : Op Status := do
  let lr ← lock ino
  let got ← emit (.get ino)
  if got.ret ≠ OK then do
    unlockUnless lr ino
    pure got.ret
  else do
    let buf ← lift (if size ≠ got.buf.length then resize got.buf size else .ok got.buf)
    let r ← emit (.put ino buf)
    unlockUnless lr ino
    pure r.ret

def readdir (dir : Inum) : Op (Status × List Dirent) := do
  let lr ← lock dir
  let got ← emit (.get dir)
  if got.ret ≠ OK then do
    unlockUnless lr dir
    pure (got.ret, [])
  else do
    unlockUnless lr dir
    let list ← lift (listDir got.buf)
    pure (got.ret, list)

/-- `lookup`: the status, and the inode number if the name was found. -/
def lookup (parent : Inum) (name : Str) : Op (Status × Option Inum) := do
  let (r, entries) ← readdir parent
  if r ≠ OK then pure (r, none) else pure (r, findName name entries)

def read (ino : Inum) (size : ℕ) (off : ℤ) : Op (Status × Str) := do
  let lr ← lock ino
  let got ← emit (.get ino)
  if got.ret ≠ OK then do
    unlockUnless lr ino
    pure (got.ret, [])
  else do
    unlockUnless lr ino
    let data ← lift (substr got.buf off size)
    pure (got.ret, data)

/-- `write` of all of `data`: the status and `bytes_written`. -/
def write (ino : Inum) (off : ℤ) (data : Str) : Op (Status × ℕ) := do
  let lr ← lock ino
  let got ← emit (.get ino)
  if got.ret ≠ OK then do
    unlockUnless lr ino
    pure (got.ret, 0)
  else do
    let (buf, written) ← lift (writeAt got.buf off data)
    let r ← emit (.put ino buf)
    unlockUnless lr ino
    pure (r.ret, written)

/-- The second half of `create`, when the inode `ino` exists: enter it into the parent. -/
def link (parent : Inum) (name : Str) (ino : Inum) (lr : Bool) : Op Status := do
  let got ← emit (.get parent)
  if got.ret ≠ OK then do
    unlockUnless lr parent
    pure got.ret
  else do
    let (off, ncstr) ← lift (placeEntry got.buf name ino)
    let (r, _) ← write parent off ncstr
    unlockUnless lr parent
    pure r

/-- `create`: the status, and `ino_out` where it is set. -/
def create (parent : Inum) (name : Str) (type : UInt32) : Op (Status × Option Inum) := do
  let lr ← lock parent
  let (r, found) ← lookup parent name
  if r ≠ OK then do
    unlockUnless lr parent
    pure (r, none)
  else if found.isSome then do
    unlockUnless lr parent
    pure (EXIST, none)
  else do
    let made ← emit (.create type)
    if made.ret ≠ OK then do
      unlockUnless lr parent
      pure (made.ret, none)
    else if type = typeDir then do
      let stored ← emit (.put made.id newdir)
      if stored.ret ≠ OK then do
        unlockUnless lr parent
        pure (1, none)
      else do
        let r ← link parent name made.id lr
        pure (r, some made.id)
    else do
      let r ← link parent name made.id lr
      pure (r, some made.id)

/-- The end of `unlink`: clear the entry in the content `buf` of the parent and remove the
file. -/
def unlinkEntry (parent : Inum) (name : Str) (ino : Inum) (lr1 lr2 : Bool) (buf : Str) :
    Op Status := do
  match ← lift (clearEntry buf name ino) with
  | some (off, ncstr) => let _ ← write parent off ncstr
  | none => pure ()
  unlockUnless lr1 parent
  let r ← emit (.remove ino)
  unlockUnless lr2 ino
  pure r.ret

/-- The part of `unlink` from the point where the entry was found to be number `ino`. -/
def unlinkFound (parent : Inum) (name : Str) (ino : Inum) (lr1 : Bool) : Op Status := do
  let lr2 ← lock ino
  if ← isdir ino then do
    unlockUnless lr2 ino
    unlockUnless lr1 parent
    pure ENOTEMPTY
  else do
    let got ← emit (.get parent)
    if got.ret ≠ OK then do
      unlockUnless lr2 ino
      unlockUnless lr1 parent
      pure got.ret
    else unlinkEntry parent name ino lr1 lr2 got.buf

def unlink (parent : Inum) (name : Str) : Op Status := do
  let lr1 ← lock parent
  let (r, found) ← lookup parent name
  if r ≠ OK then pure r
  else match found with
    | none => pure NOENT
    | some ino => unlinkFound parent name ino lr1

/-- The constructor's initialisation of the root directory. -/
def construct : Op Unit := do
  let lr ← lock 1
  let _ ← emit (.put 1 newdir)
  unlockUnless lr 1

/-- The constructor and the public operations. -/
inductive FsOp where
  | construct
  | isfile (i : Inum)
  | isdir (i : Inum)
  | getfile (i : Inum)
  | getdir (i : Inum)
  | setattr (i : Inum) (size : ℕ)
  | create (parent : Inum) (name : Str) (type : UInt32)
  | lookup (parent : Inum) (name : Str)
  | readdir (dir : Inum)
  | read (i : Inum) (size : ℕ) (off : ℤ)
  | write (i : Inum) (off : ℤ) (data : Str)
  | unlink (parent : Inum) (name : Str)
  deriving DecidableEq, Repr

/-- The program of an operation, without its result. -/
def FsOp.program : FsOp → Op Unit
  | .construct => YfsClient.construct
  | .isfile i => do let _ ← YfsClient.isfile i
  | .isdir i => do let _ ← YfsClient.isdir i
  | .getfile i => do let _ ← YfsClient.getfile i
  | .getdir i => do let _ ← YfsClient.getdir i
  | .setattr i size => do let _ ← YfsClient.setattr i size
  | .create parent name type => do let _ ← YfsClient.create parent name type
  | .lookup parent name => do let _ ← YfsClient.lookup parent name
  | .readdir dir => do let _ ← YfsClient.readdir dir
  | .read i size off => do let _ ← YfsClient.read i size off
  | .write i off data => do let _ ← YfsClient.write i off data
  | .unlink parent name => do let _ ← YfsClient.unlink parent name

end Yfs.YfsClient
