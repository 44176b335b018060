import Yfs.YfsClient

/-!
# Operations of a client that is alone

When nobody else takes locks, an operation is a function of the world that serves its calls. Each
operation gets one equation, in terms of the calls to the extent client that matter.
-/

namespace Yfs.ServedOperations
open ByteLayout CallTrees LockProtocol ExtentClient DirectoryFormat YfsClient

variable {W : Type} {α β : Type}

/-- Run an operation in a world that serves calls. -/
def exec (serve : Call → W → W × Reply) (p : Op α) (h : Held) (w : W) :
    Except Fault ((α × Held) × W) :=
  CallTrees.run (fun x => serve x.2) (p.run h) w

/-- Locks are granted and taken back without further ado. -/
structure Grants (serve : Call → W → W × Reply) : Prop where
  acquire : ∀ i w, serve (.acquire i) w = (w, {})
  release : ∀ i w, serve (.release i) w = (w, {})

variable {serve : Call → W → W × Reply} {h : Held} {w : W} {i : Inum}

theorem exec_bind (p : Op α) (f : α → Op β) :
    exec serve (p >>= f) h w = (exec serve p h w).bind fun x => exec serve (f x.1.1) x.1.2 x.2 := by
  unfold exec
  rw [StateT.run_bind, run_bind]

theorem exec_pure (a : α) : exec serve (pure a : Op α) h w = .ok ((a, h), w) := rfl

theorem exec_emit (c : Call) :
    exec serve (emit c) h w = .ok (((serve c w).2, h), (serve c w).1) := rfl

theorem exec_lock (hg : Grants serve) :
    exec serve (lock i) h w = .ok ((decide (i ∈ h), if i ∈ h then h else i :: h), w) := by
  unfold exec
  rw [run_lock]
  by_cases hi : i ∈ h
  · simp [hi, CallTrees.run]
  · simp [hi, CallTrees.run, hg.acquire, statusOk]

theorem exec_unlockUnless (hg : Grants serve) (lr : Bool) (hi : i ∈ h) :
    exec serve (unlockUnless lr i) h w = .ok (((), if lr then h else h.erase i), w) := by
  cases lr with
  | true => rfl
  | false =>
    unfold exec unlockUnless
    simp [run_unlock, hi, CallTrees.run, hg.release, statusOk]

/-- The locks that are held inside of a function that takes the lock of `i`. -/
def entered (i : Inum) (h : Held) : Held := if i ∈ h then h else i :: h

@[simp] theorem mem_entered : i ∈ entered i h := by
  unfold entered
  split
  · assumption
  · exact List.mem_cons_self

/-- What was taken is given back. -/
@[simp] theorem left_entered :
    (if decide (i ∈ h) = true then entered i h else (entered i h).erase i) = h := by
  unfold entered
  by_cases hi : i ∈ h <;> simp [hi]

theorem exec_enter (hg : Grants serve) :
    exec serve (lock i) h w = .ok ((decide (i ∈ h), entered i h), w) := exec_lock hg

theorem exec_leave (hg : Grants serve) :
    exec serve (unlockUnless (decide (i ∈ h)) i) (entered i h) w = .ok (((), h), w) := by
  rw [exec_unlockUnless hg _ mem_entered, left_entered]

/-- An operation that goes on with a result of work on strings. -/
theorem exec_lift_bind (x : Except Fault α) (f : α → Op β) :
    exec serve (lift x >>= f) h w = x.bind fun a => exec serve (f a) h w := by
  cases x with
  | error e => rfl
  | ok a => rfl

/-! ## The operations -/

theorem exec_isfile (hg : Grants serve) (i : Inum) :
    exec serve (isfile i) h w =
      .ok ((decide ((serve (.getattr i) w).2.ret = OK ∧
        (serve (.getattr i) w).2.attr.type = typeFile), h), (serve (.getattr i) w).1) := by
  unfold isfile
  simp only [exec_bind, exec_enter hg, exec_emit, ok_bind]
  by_cases hret : (serve (.getattr i) w).2.ret = OK
  · simp only [hret, ne_eq, not_true, if_false, exec_bind, exec_leave hg, ok_bind, exec_pure,
      true_and]
  · simp only [hret, ne_eq, not_false_iff, if_true, exec_bind, exec_leave hg, ok_bind, exec_pure,
      false_and, decide_false]

theorem exec_setattr (hg : Grants serve) (i : Inum) (size : ℕ) :
    exec serve (setattr i size) h w =
      if (serve (.get i) w).2.ret ≠ OK then
        .ok (((serve (.get i) w).2.ret, h), (serve (.get i) w).1)
      else
        (if size ≠ (serve (.get i) w).2.buf.length then resize (serve (.get i) w).2.buf size
          else .ok (serve (.get i) w).2.buf).bind fun buf =>
          .ok (((serve (.put i buf) (serve (.get i) w).1).2.ret, h),
            (serve (.put i buf) (serve (.get i) w).1).1) := by
  unfold setattr
  simp only [exec_bind (lock i), exec_enter hg, exec_bind (emit _), exec_emit, ok_bind]
  split
  · simp only [exec_bind, exec_leave hg, ok_bind, exec_pure]
  · simp only [exec_lift_bind, exec_bind (emit _), exec_emit, exec_bind (unlockUnless _ _),
      exec_leave hg, ok_bind, exec_pure]

theorem exec_read (hg : Grants serve) (i : Inum) (size : ℕ) (off : ℤ) :
    exec serve (YfsClient.read i size off) h w =
      if (serve (.get i) w).2.ret ≠ OK then
        .ok ((((serve (.get i) w).2.ret, []), h), (serve (.get i) w).1)
      else
        (substr (serve (.get i) w).2.buf off size).bind fun data =>
          .ok ((((serve (.get i) w).2.ret, data), h), (serve (.get i) w).1) := by
  unfold YfsClient.read
  simp only [exec_bind (lock i), exec_enter hg, exec_bind (emit _), exec_emit, ok_bind]
  split
  · simp only [exec_bind, exec_leave hg, ok_bind, exec_pure]
  · simp only [exec_bind (unlockUnless _ _), exec_leave hg, ok_bind, exec_lift_bind, exec_pure]

theorem exec_write (hg : Grants serve) (i : Inum) (off : ℤ) (data : Str) :
    exec serve (YfsClient.write i off data) h w =
      if (serve (.get i) w).2.ret ≠ OK then
        .ok ((((serve (.get i) w).2.ret, 0), h), (serve (.get i) w).1)
      else
        (writeAt (serve (.get i) w).2.buf off data).bind fun x =>
          .ok ((((serve (.put i x.1) (serve (.get i) w).1).2.ret, x.2), h),
            (serve (.put i x.1) (serve (.get i) w).1).1) := by
  unfold YfsClient.write
  simp only [exec_bind (lock i), exec_enter hg, exec_bind (emit _), exec_emit, ok_bind]
  split
  · simp only [exec_bind, exec_leave hg, ok_bind, exec_pure]
  · simp only [exec_lift_bind, exec_bind (emit _), exec_emit, exec_bind (unlockUnless _ _),
      exec_leave hg, ok_bind, exec_pure]

theorem exec_readdir (hg : Grants serve) (i : Inum) :
    exec serve (readdir i) h w =
      if (serve (.get i) w).2.ret ≠ OK then
        .ok ((((serve (.get i) w).2.ret, []), h), (serve (.get i) w).1)
      else
        (listDir (serve (.get i) w).2.buf).bind fun list =>
          .ok ((((serve (.get i) w).2.ret, list), h), (serve (.get i) w).1) := by
  unfold readdir
  rw [exec_bind, exec_enter hg, ok_bind, exec_bind, exec_emit, ok_bind]
  dsimp only
  split
  · simp only [exec_bind, exec_leave hg, ok_bind, exec_pure]
  · rw [exec_bind, exec_leave hg, ok_bind]
    exact exec_lift_bind _ _

theorem exec_lookup (hg : Grants serve) {list : List Dirent} (name : Str)
    (hret : (serve (.get i) w).2.ret = OK)
    (hlist : listDir (serve (.get i) w).2.buf = .ok list) :
    exec serve (lookup i name) h w = .ok (((OK, findName name list), h), (serve (.get i) w).1) := by
  unfold lookup
  rw [exec_bind, exec_readdir hg, if_neg (not_not.2 hret), hlist, ok_bind, ok_bind, hret]
  rfl

theorem exec_isdir (hg : Grants serve) (i : Inum) :
    exec serve (isdir i) h w =
      .ok ((!decide ((serve (.getattr i) w).2.ret = OK ∧
        (serve (.getattr i) w).2.attr.type = typeFile), h), (serve (.getattr i) w).1) := by
  unfold isdir
  rw [exec_bind, exec_isfile hg]
  rfl

/-! ## Removing a file -/

section
variable {parent ino : Inum} {name : Str} {list : List Dirent}

theorem exec_unlink_absent (hg : Grants serve) (hret : (serve (.get parent) w).2.ret = OK)
    (hlist : listDir (serve (.get parent) w).2.buf = .ok list) (hname : findName name list = none) :
    exec serve (unlink parent name) h w =
      .ok ((NOENT, entered parent h), (serve (.get parent) w).1) := by
  unfold unlink
  rw [exec_bind, exec_enter hg, ok_bind, exec_bind, exec_lookup hg name hret hlist, ok_bind, hname]
  rfl

theorem exec_unlink_found (hg : Grants serve) (hret : (serve (.get parent) w).2.ret = OK)
    (hlist : listDir (serve (.get parent) w).2.buf = .ok list)
    (hname : findName name list = some ino) :
    exec serve (unlink parent name) h w =
      exec serve (unlinkFound parent name ino (decide (parent ∈ h))) (entered parent h)
        (serve (.get parent) w).1 := by
  unfold unlink
  rw [exec_bind, exec_enter hg, ok_bind, exec_bind, exec_lookup hg name hret hlist, ok_bind, hname]
  rfl

theorem exec_unlinkFound_directory (hg : Grants serve)
    (hfile : ¬((serve (.getattr ino) w).2.ret = OK ∧
      (serve (.getattr ino) w).2.attr.type = typeFile)) :
    exec serve (unlinkFound parent name ino (decide (parent ∈ h))) (entered parent h) w =
      .ok ((ENOTEMPTY, h), (serve (.getattr ino) w).1) := by
  unfold unlinkFound
  rw [exec_bind, exec_enter hg, ok_bind, exec_bind, exec_isdir hg, ok_bind, decide_eq_false hfile]
  dsimp only
  rw [if_pos (show (!false) = true from rfl), exec_bind, exec_leave hg, ok_bind, exec_bind, exec_leave hg, ok_bind, exec_pure]

theorem mem_entered_of_mem {j : Inum} (hj : j ∈ h) : j ∈ entered i h := by
  unfold entered
  split
  · exact hj
  · exact List.mem_cons_of_mem _ hj

/-- The lock of the parent is given back first, but that of the file can still be given back, if it
is a different one. -/
theorem exec_unlock_both (hg : Grants serve) (parent ino : Inum) (h : Held) :
    ∃ h', ∀ w, exec serve (unlockUnless (decide (ino ∈ entered parent h)) ino)
      (if decide (parent ∈ h) = true then entered ino (entered parent h)
        else (entered ino (entered parent h)).erase parent) w = .ok (((), h'), w) := by
  by_cases hino : ino ∈ entered parent h
  · rw [decide_eq_true hino]
    exact ⟨_, fun w => rfl⟩
  · have hne : ino ≠ parent := by
      rintro rfl
      exact hino mem_entered
    refine ⟨_, fun w => exec_unlockUnless hg _ ?_⟩
    split
    · exact mem_entered
    · exact (List.mem_erase_of_ne hne).2 mem_entered

/-- The world after a file was found: the attributes and the content of the directory have been
asked for once more. -/
def looked (serve : Call → W → W × Reply) (parent ino : Inum) (w : W) : W :=
  (serve (.get parent) (serve (.getattr ino) w).1).1

theorem exec_unlinkFound_file (hg : Grants serve) {off : ℤ} {ncstr new : Str} {n : ℕ}
    (hfile : (serve (.getattr ino) w).2.ret = OK ∧
      (serve (.getattr ino) w).2.attr.type = typeFile)
    (hret : (serve (.get parent) (serve (.getattr ino) w).1).2.ret = OK)
    (hclear : clearEntry (serve (.get parent) (serve (.getattr ino) w).1).2.buf name ino =
      .ok (some (off, ncstr)))
    (hret' : (serve (.get parent) (looked serve parent ino w)).2.ret = OK)
    (hwrite : writeAt (serve (.get parent) (looked serve parent ino w)).2.buf off ncstr =
      .ok (new, n)) :
    ∃ h', exec serve (unlinkFound parent name ino (decide (parent ∈ h))) (entered parent h) w =
      .ok (((serve (.remove ino)
          (serve (.put parent new) (serve (.get parent) (looked serve parent ino w)).1).1).2.ret, h'),
        (serve (.remove ino)
          (serve (.put parent new) (serve (.get parent) (looked serve parent ino w)).1).1).1) := by
  unfold unlinkFound
  rw [exec_bind, exec_enter hg, ok_bind, exec_bind, exec_isdir hg, ok_bind, decide_eq_true hfile]
  dsimp only
  rw [if_neg (show ¬(!true) = true by decide), exec_bind, exec_emit, ok_bind]
  dsimp only
  rw [if_neg (not_not.2 hret)]
  unfold unlinkEntry
  rw [hclear, exec_lift_bind, ok_bind]
  dsimp only
  have hmem : parent ∈ entered ino (entered parent h) := mem_entered_of_mem mem_entered
  obtain ⟨h', hleave⟩ := exec_unlock_both hg parent ino h
  have hlooked : (serve (.get parent) (serve (.getattr ino) w).1).1 = looked serve parent ino w := rfl
  rw [hlooked, exec_bind, exec_write hg, if_neg (not_not.2 hret'), hwrite, ok_bind, ok_bind, exec_bind,
    exec_unlockUnless hg _ hmem, ok_bind, exec_bind, exec_emit, ok_bind, exec_bind]
  dsimp only
  rw [hleave, ok_bind]
  exact ⟨_, rfl⟩

end

/-! ## Creating a file -/

section
variable {parent ino : Inum} {name : Str} {list : List Dirent} {type : UInt32}

theorem exec_link (hg : Grants serve) (hret : (serve (.get parent) w).2.ret = OK)
    (hret' : (serve (.get parent) (serve (.get parent) w).1).2.ret = OK) :
    exec serve (link parent name ino (decide (parent ∈ h))) (entered parent h) w =
      (placeEntry (serve (.get parent) w).2.buf name ino).bind fun x =>
        (writeAt (serve (.get parent) (serve (.get parent) w).1).2.buf x.1 x.2).bind fun y =>
          .ok (((serve (.put parent y.1) (serve (.get parent) (serve (.get parent) w).1).1).2.ret, h),
            (serve (.put parent y.1) (serve (.get parent) (serve (.get parent) w).1).1).1) := by
  unfold link
  rw [exec_bind, exec_emit, ok_bind]
  dsimp only
  rw [if_neg (not_not.2 hret), exec_lift_bind]
  congr 1
  funext x
  rw [exec_bind, exec_write hg, if_neg (not_not.2 hret')]
  generalize writeAt (serve (.get parent) (serve (.get parent) w).1).2.buf x.1 x.2 = y
  cases y with
  | error e => rfl
  | ok y =>
    rw [ok_bind, ok_bind, ok_bind, exec_bind, exec_leave hg, ok_bind, exec_pure]

/-- `create` of a name that does not occur, when the server makes an inode: a directory gets its
content, and the inode is entered into the parent. -/
theorem exec_create (hg : Grants serve) (hret : (serve (.get parent) w).2.ret = OK)
    (hlist : listDir (serve (.get parent) w).2.buf = .ok list) (hname : findName name list = none)
    (hmade : (serve (.create type) (serve (.get parent) w).1).2.ret = OK)
    (hput : ∀ i w, (serve (.put i newdir) w).2.ret = OK) :
    exec serve (YfsClient.create parent name type) h w =
      (exec serve (link parent name (serve (.create type) (serve (.get parent) w).1).2.id
          (decide (parent ∈ h))) (entered parent h)
        (if type = typeDir then
          (serve (.put (serve (.create type) (serve (.get parent) w).1).2.id newdir)
            (serve (.create type) (serve (.get parent) w).1).1).1
        else (serve (.create type) (serve (.get parent) w).1).1)).bind fun x =>
        .ok (((x.1.1, some (serve (.create type) (serve (.get parent) w).1).2.id), x.1.2), x.2) := by
  unfold YfsClient.create
  rw [exec_bind, exec_enter hg, ok_bind, exec_bind, exec_lookup hg name hret hlist, ok_bind, hname]
  dsimp only
  rw [if_neg (not_not.2 rfl), if_neg (by decide), exec_bind, exec_emit, ok_bind]
  dsimp only
  rw [if_neg (not_not.2 hmade)]
  by_cases htype : type = typeDir
  · rw [if_pos htype, if_pos htype, exec_bind, exec_emit, ok_bind]
    dsimp only
    rw [if_neg (not_not.2 (hput _ _)), exec_bind]
    rfl
  · rw [if_neg htype, if_neg htype, exec_bind]
    rfl

end

end Yfs.ServedOperations
