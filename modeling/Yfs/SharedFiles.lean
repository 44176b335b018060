import Yfs.SharedDirectory
import Yfs.FileHistory

/-!
# Shared files and directories

Any number of `yfs_client` processes create, look up and list entries of directories, and read, write
and resize files. With their cached locks and cached extents they behave like one file system in which
every operation happens in a moment.
-/

namespace Yfs.SharedFiles
open LabelledRuns CallTrees ByteLayout LockProtocol ExtentClient CallStackMachines FileService
open LockSafety DirectoryFormat YfsClient DirectoryOps Processes CriticalSections SharedDirectory
open FileHistory (overwrite resized slice)
open AtomicObjects (Linearizable)

/-! ## Tasks -/

inductive Task where
  | create (parent : Inum) (name : Str)
  | lookup (parent : Inum) (name : Str)
  | readdir (dir : Inum)
  | read (i : Inum) (size off : ℕ)
  | write (i : Inum) (off : ℕ) (data : Str)
  | setattr (i : Inum) (size : ℕ)
  deriving DecidableEq, Repr

inductive Result where
  | created (r : Status) (ino : Option Inum)
  | found (r : Status) (ino : Option Inum)
  | listed (r : Status) (ds : List Dirent)
  | data (r : Status) (buf : Str)
  | written (r : Status) (n : ℕ)
  | status (r : Status)
  deriving DecidableEq, Repr

namespace Task

/-- The inode whose lock the task takes. -/
def inode : Task → Inum
  | create parent _ | lookup parent _ => parent
  | readdir dir => dir
  | read i _ _ | write i _ _ | setattr i _ => i

def program : Task → Op Result
  | create parent name => do
    let (r, ino) ← YfsClient.create parent name typeFile
    pure (.created r ino)
  | lookup parent name => do
    let (r, ino) ← YfsClient.lookup parent name
    pure (.found r ino)
  | readdir dir => do
    let (r, ds) ← YfsClient.readdir dir
    pure (.listed r ds)
  | read i size off => do
    let (r, buf) ← YfsClient.read i size off
    pure (.data r buf)
  | write i off data => do
    let (r, n) ← YfsClient.write i off data
    pure (.written r n)
  | setattr i size => do
    let r ← YfsClient.setattr i size
    pure (.status r)

/-- The task is for an inode of its kind, and its sizes are in range. -/
def Proper (isDir : Inum → Bool) : Task → Prop
  | create parent name => isDir parent = true ∧ IsInt (name.length + 12)
  | lookup parent _ => isDir parent = true
  | readdir dir => isDir dir = true
  | read i _ off => isDir i = false ∧ off ≤ maxSize
  | write i off data => isDir i = false ∧ off + data.length ≤ maxSize
  | setattr i size => isDir i = false ∧ size ≤ maxSize

instance decidableProper (isDir : Inum → Bool) : (task : Task) → Decidable (task.Proper isDir)
  | create _ _ | read _ _ _ | write _ _ _ | setattr _ _ => inferInstanceAs (Decidable (_ ∧ _))
  | lookup _ _ | readdir _ => inferInstanceAs (Decidable (_ = _))

end Task

/-! ## The file system -/

inductive Node where
  | file (content : Str)
  | dir (ds : List Dirent)
  deriving DecidableEq, Repr

/-- What a write reports: the hole before the data is counted too. -/
def reported (f : Str) (off : ℕ) (data : Str) : ℕ :=
  if f.length ≤ off then off + data.length - f.length else data.length

/-- What a task makes of its node, and its result; `ino` is the number of a new file. A read from beyond
the end never returns. -/
def Task.apply (ino : Inum) : Task → Node → Node × Option Result
  | create _ name, .dir ds =>
    match findName name ds with
    | some _ => (.dir ds, some (.created EXIST none))
    | none => (.dir (ds ++ [⟨name, ino⟩]), some (.created OK (some ino)))
  | lookup _ name, .dir ds => (.dir ds, some (.found OK (findName name ds)))
  | readdir _, .dir ds => (.dir ds, some (.listed OK ds))
  | read _ size off, .file f =>
    (.file f, if off ≤ f.length then some (.data OK (slice f off size)) else none)
  | write _ off data, .file f =>
    (.file (overwrite f off data), some (.written OK (reported f off data)))
  | setattr _ size, .file f => (.file (resized f size), some (.status OK))
  | _, n => (n, none)

def Task.Does (task : Task) (N N' : Inum → Node) (r : Option Result) : Prop :=
  ∃ ino, ino ≠ 0 ∧ IsUInt ino.toNat ∧ N' = Function.update N task.inode (task.apply ino (N task.inode)).1 ∧
    r = (task.apply ino (N task.inode)).2

section
variable {i : Inum} {ph : Phase} {h : Held} {lr : Bool}

theorem sections_readdir (ho : Opens i lr ph h) :
    Sections i ph h (readdir i) fun _ => Closes i lr := by
  unfold readdir
  apply Sections.bind (sections_lock ho)
  rintro _ _ _ ⟨rfl, rfl, rfl⟩
  apply Sections.bind sections_get
  rintro got _ _ ⟨hret, rfl, rfl⟩
  rw [if_neg (not_not.2 hret)]
  apply Sections.bind sections_unlock
  intro _ _ _ hc
  apply Sections.bind sections_lift
  rintro list _ _ ⟨rfl, rfl⟩
  exact sections_pure hc

theorem sections_lookup (ho : Opens i lr ph h) (name : Str) :
    Sections i ph h (lookup i name) fun _ => Closes i lr := by
  unfold lookup
  apply Sections.bind (sections_readdir ho)
  rintro ⟨r, ds⟩ _ _ hc
  dsimp only
  split <;> exact sections_pure hc

theorem sections_write (ho : Opens i lr ph h) (off : ℤ) (data : Str) :
    Sections i ph h (write i off data) fun _ => Closes i lr := by
  unfold write
  apply Sections.bind (sections_lock ho)
  rintro _ _ _ ⟨rfl, rfl, rfl⟩
  apply Sections.bind sections_get
  rintro got _ _ ⟨hret, rfl, rfl⟩
  rw [if_neg (not_not.2 hret)]
  apply Sections.bind sections_lift
  rintro x _ _ ⟨rfl, rfl⟩
  apply Sections.bind sections_put
  rintro r _ _ ⟨-, rfl, rfl⟩
  apply Sections.bind sections_unlock
  intro _ _ _ hc
  exact sections_pure hc

theorem sections_link (name : Str) (ino : Inum) (lr : Bool) :
    Sections i .inside [i] (link i name ino lr) fun _ => Closes i lr := by
  unfold link
  apply Sections.bind sections_get
  rintro got _ _ ⟨hret, rfl, rfl⟩
  rw [if_neg (not_not.2 hret)]
  apply Sections.bind sections_lift
  rintro x _ _ ⟨rfl, rfl⟩
  apply Sections.bind (sections_write .has _ _)
  rintro y _ _ ⟨⟩
  apply Sections.bind sections_unlock
  intro _ _ _ hc
  exact sections_pure hc

theorem sections_create (ho : Opens i lr ph h) (name : Str) :
    Sections i ph h (create i name typeFile) fun _ => Closes i lr := by
  have hleave (a : Status × Option Inum) : Sections i .inside [i]
      (do unlockUnless lr i; pure a) fun _ => Closes i lr :=
    sections_unlock.bind fun _ _ _ hc => sections_pure hc
  unfold create
  apply Sections.bind (sections_lock ho)
  rintro _ _ _ ⟨rfl, rfl, rfl⟩
  apply Sections.bind (sections_lookup .has name)
  rintro ⟨r, found⟩ _ _ ⟨⟩
  dsimp only
  split
  · exact hleave _
  split
  · exact hleave _
  apply Sections.bind sections_new
  rintro made _ _ ⟨hret, rfl, rfl⟩
  rw [if_neg (not_not.2 hret), if_neg (by decide)]
  apply Sections.bind (sections_link name made.id _)
  intro _ _ _ hc
  exact sections_pure hc

theorem sections_read (ho : Opens i lr ph h) (size : ℕ) (off : ℤ) :
    Sections i ph h (read i size off) fun _ => Closes i lr := by
  unfold YfsClient.read
  apply Sections.bind (sections_lock ho)
  rintro _ _ _ ⟨rfl, rfl, rfl⟩
  apply Sections.bind sections_get
  rintro got _ _ ⟨hret, rfl, rfl⟩
  rw [if_neg (not_not.2 hret)]
  apply Sections.bind sections_unlock
  intro _ _ _ hc
  apply Sections.bind sections_lift
  rintro data _ _ ⟨rfl, rfl⟩
  exact sections_pure hc

theorem sections_setattr (ho : Opens i lr ph h) (size : ℕ) :
    Sections i ph h (setattr i size) fun _ => Closes i lr := by
  unfold setattr
  apply Sections.bind (sections_lock ho)
  rintro _ _ _ ⟨rfl, rfl, rfl⟩
  apply Sections.bind sections_get
  rintro got _ _ ⟨hret, rfl, rfl⟩
  rw [if_neg (not_not.2 hret)]
  apply Sections.bind sections_lift
  rintro x _ _ ⟨rfl, rfl⟩
  apply Sections.bind sections_put
  rintro r _ _ ⟨-, rfl, rfl⟩
  apply Sections.bind sections_unlock
  intro _ _ _ hc
  exact sections_pure hc

end

theorem guarded : Guarded Task.inode Task.program := by
  intro task
  have hend {α : Type} {i : Inum} {p : Op α} {f : α → Op Result}
      (hp : Sections i .ahead [] p fun _ => Closes i false) (hf : ∀ a, ∃ r, f a = pure r) :
      Sections i .ahead [] (p >>= f) fun _ ph h => ph = .past ∧ h = [] := by
    apply hp.bind
    rintro a _ _ ⟨⟩
    obtain ⟨r, hr⟩ := hf a
    rw [hr]
    exact sections_pure ⟨rfl, rfl⟩
  cases task with
  | create parent name => exact hend (sections_create .takes name) fun _ => ⟨_, rfl⟩
  | lookup parent name => exact hend (sections_lookup .takes name) fun _ => ⟨_, rfl⟩
  | readdir dir => exact hend (sections_readdir .takes) fun _ => ⟨_, rfl⟩
  | read i size off => exact hend (sections_read .takes size off) fun _ => ⟨_, rfl⟩
  | write i off data => exact hend (sections_write .takes off data) fun _ => ⟨_, rfl⟩
  | setattr i size => exact hend (sections_setattr .takes size) fun _ => ⟨_, rfl⟩

/-! ## Files -/

section
variable {i : Inum} {lim : Limits} {f w buf : Str} {h : Held} {α : Type} {off : ℕ}

end

/-! ## Meaning -/

variable {isDir : Inum → Bool} {F F' : Inum → Str} {size : ℕ}

/-- What a task on a directory does that can be copied. -/
theorem dir_means {task : Task} {slots : List Slot} {r : Option Result} (hsize : size ≤ 2 ^ 31)
    (hp : task.Proper isDir) (hdir : isDir task.inode = true) (hreads : Reads slots (F task.inode))
    (hm : Means Task.inode (limits size) Task.program task F F' r) :
    ∃ ino slots' w, (limits size).ids ino ∧ Has slots' w ∧ (w = F task.inode ∨ w.length < size) ∧
      F' = Function.update F task.inode w ∧
      task.apply ino (.dir (listing slots)) = (.dir (listing slots'), r) := by
  obtain ⟨x, w, he, rfl, rfl⟩ := hm
  have hone : (limits size).ids 1 := ⟨by decide, by decide⟩
  cases task with
  | create parent name =>
    obtain ⟨y, hy, rfl⟩ := he.of_map
    obtain ⟨a, rfl, hends, -⟩ :=
      (alone_create hsize hreads.1.2 hp.2 _ _ ⟨hreads, rfl⟩).ends (fun _ => rfl) hy
    obtain ⟨⟨r, new⟩, held⟩ := a
    rcases hends with ⟨hfound, hx, hsame⟩ | ⟨ino, hnone, hid, hx, hhas, hlt⟩
    · cases hx
      refine ⟨1, slots, w, hone, hsame.1, .inl (hsame.1.1.trans hreads.1.1.symm), rfl, ?_⟩
      obtain ⟨old, hold⟩ := Option.ne_none_iff_exists'.1 hfound
      rw [Task.apply, hold]
      rfl
    · cases hx
      refine ⟨ino, _, w, hid, hhas, .inr hlt, rfl, ?_⟩
      rw [Task.apply, hnone, listing_append, listing_new hid.1 hid.2]
      rfl
  | lookup parent name =>
    obtain ⟨y, hy, rfl⟩ := he.of_map
    obtain ⟨a, rfl, _, rfl, hx, hsame, -⟩ :=
      (alone_lookup name _ _ ⟨hreads, rfl⟩).ends (fun _ => rfl) hy
    obtain ⟨⟨r, new⟩, held⟩ := a
    cases hx
    exact ⟨1, _, w, hone, hsame.1, .inl (hsame.1.1.trans hreads.1.1.symm), rfl, rfl⟩
  | readdir dir =>
    obtain ⟨y, hy, rfl⟩ := he.of_map
    obtain ⟨a, rfl, _, rfl, hx, hsame, -⟩ := (alone_readdir _ _ ⟨hreads, rfl⟩).ends (fun _ => rfl) hy
    obtain ⟨⟨r, new⟩, held⟩ := a
    cases hx
    exact ⟨1, _, w, hone, hsame.1, .inl (hsame.1.1.trans hreads.1.1.symm), rfl, rfl⟩
  | read | write | setattr => exact absurd (hp.1.symm.trans hdir) (by decide)

/-- What all contents satisfy: directories are well formed, and nothing is too long to be copied. -/
structure Formed (isDir : Inum → Bool) (F : Inum → Str) : Prop where
  dirs : ∀ d, isDir d = true → Valid (F d)
  small : ∀ i, IsInt ((F i).length + 1)

theorem Formed.update (h : Formed isDir F) {i : Inum} {w : Str} (hdir : isDir i = true → Valid w)
    (hsmall : IsInt (w.length + 1)) : Formed isDir (Function.update F i w) := by
  refine ⟨fun d hd => ?_, fun j => ?_⟩
  · by_cases hdi : d = i
    · subst hdi
      rw [Function.update_self]
      exact hdir hd
    · rw [Function.update_of_ne hdi]
      exact h.dirs d hd
  · by_cases hji : j = i
    · subst hji
      rw [Function.update_self]
      exact hsmall
    · rw [Function.update_of_ne hji]
      exact h.small j

/-- Directory 1 of a new file system, and a process of each of two clients. -/
def twoClients : Cluster Task Result where
  shared := { store := { attr := fun _ => {}, content := fun i => if i = 1 then newdir else [],
                         supply := fun j => if j = 0 then 2 else 3 } }
  threads := [⟨⟨⟨clientA, []⟩, [], none⟩, none⟩, ⟨⟨⟨clientB, []⟩, [], none⟩, none⟩]

theorem twoClients_starts {size : ℕ} : Starts (limits size) twoClients where
  fresh := ⟨⟨fun _ => rfl, fun _ _ => rfl, by simp [twoClients, outer, Config.map, Thread.map,
    clientA, clientB]⟩, fun _ => rfl, fun _ => rfl⟩
  idle := by simp [twoClients]
  supply j := by
    show (if j = 0 then (2 : UInt64) else 3) ≠ 0 ∧ (if j = 0 then (2 : UInt64) else 3).toNat < _
    split_ifs <;> decide

def storesBelow (x : ClusterLabel Task Result) : Bool :=
  match x.2 with
  | .ran (.put _ _ buf) => decide (buf.length < 2 ^ 31 - 1)
  | _ => true

theorem stores_of_below {tr : List (ClusterLabel Task Result)} (h : tr.all storesBelow = true) :
    Stores (limits (2 ^ 31 - 1)) tr := by
  intro i c e buf hmem
  have hbuf : decide (buf.length < 2 ^ 31 - 1) = true := List.all_eq_true.1 h _ hmem
  rwa [decide_eq_true_iff] at hbuf

end Yfs.SharedFiles
