import Yfs.DirectoryHistory
import Yfs.ServedOperations

/-!
# A file and its history, with one client

A single client writes, resizes and reads one file. The content is that of a sparse file after every
history; what can go wrong is the answer: a read from beyond the end throws, and a write from beyond
the end counts the hole as written.
-/

namespace Yfs.FileHistory
open ByteLayout CallTrees LockProtocol ExtentClient DirectoryFormat YfsClient ServedOperations
open DirectoryOps (sizeT_of_lt writeAt_patch)
open DirectoryHistory (World Session)

/-! ## Sparse files -/

/-- `data` at offset `off` of a sparse file. -/
def overwrite (f : Str) (off : ℕ) (data : Str) : Str :=
  patch (f ++ List.replicate (off + data.length - f.length) 0) off data

/-- A sparse file cut or extended to a length. -/
def resized (f : Str) (n : ℕ) : Str := f.take n ++ List.replicate (n - f.length) 0

/-- The bytes of a file from `off` on, at most `size` of them. -/
def slice (f : Str) (off size : ℕ) : Str := (f.drop off).take size

variable {i : Inum} {σ : Session}

theorem perform_write (σ : Session) (i : Inum) {off : ℕ} {data : Str} (h : off + data.length ≤ maxSize) :
    ∃ σ', σ.perform (YfsClient.write i off data) =
        .ok ((OK, if int32 (σ.world.seen i).length ≤ off then
          sizeT ((off : ℤ) + data.length - int32 (σ.world.seen i).length) else data.length), σ') ∧
      σ'.world.seen i = overwrite (σ.world.seen i) off data := by
  rw [σ.perform_eq, exec_write World.grants, if_neg (not_not.2 (σ.world.serve_get_ret i)),
    σ.world.serve_get_buf i, writeAt_patch _ h, ok_bind, ok_bind]
  obtain ⟨-, hseen⟩ := (World.serve (.get i) σ.world).1.serve_put i
    (overwrite (σ.world.seen i) off data)
  refine ⟨_, rfl, ?_⟩
  exact (congrFun hseen i).trans (Function.update_self ..)

theorem perform_setattr {size : ℕ} (h : size ≤ maxSize) :
    ∃ σ', σ.perform (setattr i size) = .ok (OK, σ') ∧
      σ'.world.seen i = resized (σ.world.seen i) size := by
  have hresize : (if size ≠ (σ.world.seen i).length then resize (σ.world.seen i) size
      else .ok (σ.world.seen i)) = .ok (resized (σ.world.seen i) size) := by
    by_cases hsize : size = (σ.world.seen i).length
    · simp [hsize, resized]
    · rw [if_pos hsize]
      exact if_neg (not_lt.2 h)
  rw [σ.perform_eq, exec_setattr World.grants, if_neg (not_not.2 (σ.world.serve_get_ret i)),
    σ.world.serve_get_buf i, hresize, ok_bind, ok_bind]
  obtain ⟨-, hseen⟩ := (World.serve (.get i) σ.world).1.serve_put i (resized (σ.world.seen i) size)
  refine ⟨_, rfl, ?_⟩
  exact (congrFun hseen i).trans (Function.update_self ..)

theorem perform_read {size off : ℕ} (h : off ≤ (σ.world.seen i).length) (hoff : off ≤ maxSize) :
    ∃ σ', σ.perform (YfsClient.read i size off) = .ok ((OK, slice (σ.world.seen i) off size), σ') ∧
      σ'.world.seen i = σ.world.seen i := by
  have hstart : sizeT (off : ℤ) = off := sizeT_of_lt (by unfold maxSize at hoff; omega)
  have hsub : substr (σ.world.seen i) off size = .ok (slice (σ.world.seen i) off size) := by
    unfold substr
    rw [hstart, if_neg (not_lt.2 h)]
    rfl
  rw [σ.perform_eq, exec_read World.grants, if_neg (not_not.2 (σ.world.serve_get_ret i)),
    σ.world.serve_get_buf i, hsub, ok_bind, ok_bind, σ.world.serve_get_ret i]
  exact ⟨_, rfl, congrFun (σ.world.serve_get i).2 i⟩

/-! ## One write -/

/-- What the content `new` has to be after `data` was written at offset `off` of `old`. -/
structure Stored (old : Str) (off : ℕ) (data new : Str) : Prop where
  length : new.length = max old.length (off + data.length)
  written : ∀ k < data.length, new[off + k]? = data[k]?
  kept : ∀ k < old.length, k < off ∨ off + data.length ≤ k → new[k]? = old[k]?
  hole : ∀ k, old.length ≤ k → k < off → new[k]? = some 0

theorem stored_overwrite (f : Str) (off : ℕ) (data : Str) :
    Stored f off data (overwrite f off data) := by
  have hroom : off + data.length ≤
      (f ++ List.replicate (off + data.length - f.length) (0 : UInt8)).length := by
    rw [List.length_append, List.length_replicate]
    omega
  have hbytes := getElem?_patch hroom
  unfold overwrite
  refine ⟨?_, ?_, ?_, ?_⟩
  · rw [length_patch hroom, List.length_append, List.length_replicate]
    omega
  · intro k hk
    rw [hbytes, if_pos (by omega), Nat.add_sub_cancel_left]
  · intro k hk hout
    rw [hbytes, if_neg (by omega), List.getElem?_append_left hk]
  · intro k hle hlt
    rw [hbytes, if_neg (by omega), List.getElem?_append_right hle, List.getElem?_replicate,
      if_pos (by omega)]

/-- A write that stays in the range of `int` stores exactly the data that it is given, and it
reports the number of bytes it was given exactly when it does not start beyond the end. -/
theorem write_reports_iff (σ : Session) (i : Inum) (off : ℕ) (data : Str)
    (hlen : IsInt (σ.world.seen i).length)
    (hend : IsInt (off + data.length)) :
    (∃ σ', σ.perform (YfsClient.write i off data) = .ok ((OK, data.length), σ') ∧
      Stored (σ.world.seen i) off data (σ'.world.seen i)) ↔ off ≤ (σ.world.seen i).length := by
  have hmax : off + data.length ≤ maxSize := by
    unfold maxSize
    omega
  obtain ⟨σ', hperform, hseen⟩ := perform_write σ i hmax
  have hint : int32 (σ.world.seen i).length = (σ.world.seen i).length :=
    int32_of_lt (by omega) (by exact_mod_cast hlen)
  rw [hint] at hperform
  rw [hperform]
  have hcount : (if ((σ.world.seen i).length : ℤ) ≤ off then
      sizeT ((off : ℤ) + data.length - (σ.world.seen i).length) else data.length) = data.length ↔
      off ≤ (σ.world.seen i).length := by
    unfold sizeT
    split <;> omega
  constructor
  · rintro ⟨σ₁, hσ, -⟩
    apply hcount.1
    simp only [Except.ok.injEq, Prod.mk.injEq] at hσ
    exact hσ.1.2
  · intro hoff
    rw [hcount.2 hoff]
    exact ⟨σ', rfl, hseen ▸ stored_overwrite _ _ _⟩

/-- A session with empty files. -/
def empty : Session :=
  { world := { store :=
    { attr := fun _ => { type := typeFile }, content := fun _ => [], supply := fun _ => 2 } } }

/-- A session with files of four bytes. -/
def filled : Session :=
  { world := { store :=
    { attr := fun _ => { type := typeFile, size := 4 }, content := fun _ => [97, 98, 99, 100],
      supply := fun _ => 2 } } }

/-- Two bytes inside of a file are overwritten. -/
theorem write_reports_hello :
    ∃ σ', filled.perform (YfsClient.write 2 (1 : ℕ) [104, 105]) = .ok ((OK, 2), σ') ∧
      Stored [97, 98, 99, 100] 1 [104, 105] (σ'.world.seen 2) :=
  (write_reports_iff filled 2 1 [104, 105] (by decide) (by decide)).2 (by decide)

/-- One byte at offset one of an empty file is reported as two. -/
theorem write_beyond_end_reports_more :
    ∃ σ', empty.perform (YfsClient.write 2 (1 : ℕ) [104]) = .ok ((OK, 2), σ') := by
  have hmax : 1 + [(104 : UInt8)].length ≤ maxSize := by decide
  obtain ⟨σ', hσ, -⟩ := perform_write empty 2 hmax
  have hlen : int32 (empty.world.seen 2).length = 0 := int32_of_lt (by decide) (by decide)
  rw [hlen] at hσ
  exact ⟨σ', hσ⟩

/-! ## Histories -/

/-- The values of `off_t` that are not negative. -/
abbrev Offset := Fin (2 ^ 63)

inductive FileOp where
  | write (off : Offset) (data : Str)
  | setattr (size : ℕ)
  | read (size : ℕ) (off : Offset)
  deriving DecidableEq, Repr

namespace FileOp

/-- A call on the file: its status, and the data of a `read`. -/
def program (i : Inum) : FileOp → Op (Status × Str)
  | write off data => do
    let (r, _) ← YfsClient.write i (off : ℕ) data
    pure (r, [])
  | setattr size => do
    let r ← YfsClient.setattr i size
    pure (r, [])
  | read size off => YfsClient.read i size (off : ℕ)

/-- The reference file after a call. -/
def apply (f : Str) : FileOp → Str
  | write off data => overwrite f off data
  | setattr size => resized f size
  | read _ _ => f

/-- The data that a call should return. -/
def returns (f : Str) : FileOp → Str
  | read size off => slice f off size
  | write _ _ | setattr _ => []

/-- A read does not start beyond the end, and no string gets too long. -/
def Within (f : Str) : FileOp → Prop
  | write off data => off + data.length ≤ maxSize
  | setattr size => size ≤ maxSize
  | read _ off => off ≤ f.length

instance (f : Str) : (o : FileOp) → Decidable (o.Within f)
  | write _ _ | setattr _ | read _ _ => inferInstanceAs (Decidable (_ ≤ _))

end FileOp

/-- A sequence of calls. -/
def play (i : Inum) : List FileOp → Session → Except Fault (List (Status × Str) × Session)
  | [], σ => .ok ([], σ)
  | o :: ops, σ => do
    let (x, σ') ← σ.perform (o.program i)
    let (xs, σ'') ← play i ops σ'
    .ok (x :: xs, σ'')

/-- What the calls should return. -/
def expected (f : Str) : List FileOp → List (Status × Str)
  | [] => []
  | o :: ops => (OK, o.returns f) :: expected (o.apply f) ops

/-- All calls keep to the limits. -/
def AllWithin (f : Str) : List FileOp → Prop
  | [] => True
  | o :: ops => o.Within f ∧ AllWithin (o.apply f) ops

instance decidableAllWithin : (f : Str) → (ops : List FileOp) → Decidable (AllWithin f ops)
  | _, [] => isTrue trivial
  | f, o :: ops => @instDecidableAnd _ _ inferInstance (decidableAllWithin (o.apply f) ops)

theorem perform_bind {α β : Type} (p : Op α) (f : α → Op β) :
    σ.perform (p >>= f) = (σ.perform p).bind fun x => x.2.perform (f x.1) := by
  simp only [Session.perform_eq, exec_bind]
  cases exec World.serve p σ.held σ.world with
  | error e => rfl
  | ok x => rfl

/-- A call within the limits does what it does to the reference file. -/
theorem perform_within {o : FileOp} (h : o.Within (σ.world.seen i)) :
    ∃ σ', σ.perform (o.program i) = .ok ((OK, o.returns (σ.world.seen i)), σ') ∧
      σ'.world.seen i = o.apply (σ.world.seen i) := by
  cases o with
  | write off data =>
    obtain ⟨σ', hσ, hseen⟩ := perform_write σ i h
    refine ⟨σ', ?_, hseen⟩
    rw [FileOp.program, perform_bind, hσ]
    rfl
  | setattr size =>
    obtain ⟨σ', hσ, hseen⟩ := perform_setattr (i := i) (σ := σ) h
    refine ⟨σ', ?_, hseen⟩
    rw [FileOp.program, perform_bind, hσ]
    rfl
  | read size off => exact perform_read h (Nat.le_of_lt_succ off.isLt)

/-- Every history of calls within the limits returns what the reference file holds. -/
theorem reads_sparse {ops : List FileOp} (h : AllWithin (σ.world.seen i) ops) :
    ∃ σ', play i ops σ = .ok (expected (σ.world.seen i) ops, σ') := by
  induction ops generalizing σ with
  | nil => exact ⟨σ, rfl⟩
  | cons o ops ih =>
    obtain ⟨hwithin, hrest⟩ := h
    obtain ⟨σ₁, hσ₁, hseen⟩ := perform_within hwithin
    rw [← hseen] at hrest
    obtain ⟨σ₂, hσ₂⟩ := ih hrest
    refine ⟨σ₂, ?_⟩
    rw [play, hσ₁]
    change (play i ops σ₁).bind _ = _
    rw [hσ₂, expected, ← hseen]
    rfl

theorem reads_sparse_hole :
    ∃ σ', play 2 [.write 2 [104, 105], .read 9 1, .setattr 3, .read 9 3] empty =
      .ok ([(OK, []), (OK, [0, 104, 105]), (OK, []), (OK, [])], σ') :=
  reads_sparse (σ := empty) (i := 2) (by decide)

/-- A read from beyond the end of an empty file. -/
theorem read_beyond_end_throws :
    empty.perform (YfsClient.read 2 1 1) = .error .exception := rfl

end Yfs.FileHistory
