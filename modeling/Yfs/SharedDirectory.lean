import Yfs.CriticalSections
import Yfs.DirectoryOps

/-!
# One directory of many processes

What `create`, `lookup` and `readdir` do to a directory in which nothing was ever removed, under its
lock. When the directory has got the largest length that is an `int`, it cannot be copied any more, and
all of them die.
-/

namespace Yfs.SharedDirectory
open CallTrees LockProtocol ExtentClient DirectoryFormat YfsClient DirectoryOps CriticalSections

/-- The entries of a content. -/
def entries (buf : Str) : List Dirent := dirents (scan (fun _ => false) buf).1

theorem entries_chain {slots : List Slot} (h : IsInt (chain slots).length) :
    entries (chain slots) = listing slots := by
  unfold entries
  rw [scan_chain_finished h fun _ _ => rfl]
  rfl

/-- The records of a directory in which nothing was ever removed. -/
structure Plain (slots : List Slot) : Prop where
  small : IsInt (chain slots).length
  tight : ∀ s ∈ slots, s.slack = []
  names : ((listing slots).map Dirent.name).Nodup

def Valid (buf : Str) : Prop := ∃ slots, buf = chain slots ∧ Plain slots

theorem Valid.names {buf : Str} (h : Valid buf) : ((entries buf).map Dirent.name).Nodup := by
  obtain ⟨slots, rfl, hs⟩ := h
  rw [entries_chain hs.small]
  exact hs.names

theorem valid_newdir : Valid newdir := by
  refine ⟨[dummy], newdir_eq, by decide, ?_, List.nodup_nil⟩
  intro s hs
  rw [List.mem_singleton.1 hs]
  rfl

theorem entries_newdir : entries newdir = [] := by
  rw [newdir_eq, entries_chain (by decide)]
  rfl

/-- There is no room for another entry in a record without slack. -/
theorem Plain.no_room {slots : List Slot} (h : Plain slots) {name : Str}
    (hname : IsInt (name.length + 12)) : ∀ s ∈ slots, hasRoom name s.entry = false := by
  intro s hs
  have hlen := size_le_chain hs
  have hsmall := h.small
  have hsize : s.size = 12 + s.name.length := by simp [Slot.size, h.tight s hs]
  have hfile := Slot.toNat_filelen (s := s) (by omega)
  have hentry := Slot.toNat_entrylen (s := s) (by omega)
  have hnew : (UInt32.ofNat name.length).toNat = name.length := toNat_ofNat_small (by omega)
  have h24 : (24 : UInt32).toNat = 24 := rfl
  apply decide_eq_false
  rw [UInt32.lt_iff_toNat_lt, UInt32.toNat_add, UInt32.toNat_add, hfile, hentry, hnew, h24]
  omega

/-- An entry of a new name may be appended. -/
theorem Plain.append {slots : List Slot} (h : Plain slots) {name : Str} {ino : Inum}
    (hnew : findName name (listing slots) = none) (h0 : ino ≠ 0) (hino : IsUInt ino.toNat)
    (hsmall : IsInt (chain (slots ++ [⟨ino.toUInt32, name, []⟩])).length) :
    Plain (slots ++ [⟨ino.toUInt32, name, []⟩]) := by
  refine ⟨hsmall, ?_, ?_⟩
  · intro s hs
    rcases List.mem_append.1 hs with hs | hs
    · exact h.tight s hs
    · rw [List.mem_singleton.1 hs]
  · rw [listing_append, listing_new h0 hino]
    exact nodup_names_snoc ino h.names hnew

/-- Inode numbers are 32-bit numbers other than 0, and contents are shorter than `size` bytes. -/
def limits (size : ℕ) : Limits where
  ids i := i ≠ 0 ∧ IsUInt i.toNat
  stores _ buf := buf.length < size

variable {dir : Inum} {slots : List Slot} {name : Str} {size : ℕ}

/-! ## Directories that can be copied -/

/-- The directory consists of the records `slots`. -/
def Has (slots : List Slot) (f : Str) : Prop := f = chain slots ∧ Plain slots

/-- Moreover it can be copied. -/
def Reads (slots : List Slot) (f : Str) : Prop := Has slots f ∧ IsInt (f.length + 1)

/-- A triple about an operation that has the directory to itself. -/
abbrev Alone (dir : Inum) (size : ℕ) {α : Type} (P : Str → Held → Prop) (p : Op α)
    (R : α → Str → Held → Prop) : Prop :=
  Triple Eq (fun _ _ => True) (Answers dir (limits size)) (fun _ => False) P p R

theorem stable_eq (P : Str → Prop) : Stable Eq P := fun _ _ h he => he ▸ h

theorem Reads.small {f : Str} (hf : Reads slots f) : IsInt ((chain slots).length + 1) := by
  have hsmall := hf.2
  rwa [hf.1.1] at hsmall

theorem serves_reads : Serves Eq (fun _ _ => True) (Answers dir (limits size)) dir Reads := by
  refine ⟨fun slots => stable_eq _, fun slots f hf => hf.small, fun slots f h _ hf => ?_⟩
  refine ⟨trivial, fun a f' ha => ?_⟩
  obtain ⟨-, hret, hbuf, rfl⟩ := ha
  exact ⟨⟨hret, hbuf.trans hf.1.1⟩, hf⟩

/-- Moreover inode `ino` has just been created. -/
def Made (size : ℕ) (ino : Inum) (slots : List Slot) (f : Str) : Prop :=
  Reads slots f ∧ (limits size).ids ino

theorem serves_made (ino : Inum) :
    Serves Eq (fun _ _ => True) (Answers dir (limits size)) dir (Made size ino) := by
  refine ⟨fun slots => stable_eq _, fun slots f hf => hf.1.small, fun slots f h hmem hf => ?_⟩
  obtain ⟨hpre, hget⟩ := serves_reads.get slots f h hmem hf.1
  refine ⟨hpre, fun a f' ha => ?_⟩
  obtain ⟨hgot, hreads⟩ := hget a f' ha
  exact ⟨hgot, hreads, hf.2⟩

theorem alone_lock : Alone dir size (Under (Reads slots) []) (lock dir) (fun lr f h => lr = false ∧
    ∃ slots', slots' = slots ∧ Under (Reads slots') [dir] f h) := by
  have hlock : Alone dir size (Under (Reads slots) []) (lock dir)
      (fun lr f h => lr = false ∧ Under (Reads slots) [dir] f h) := by
    apply triple_lock (stable_eq _) (stable_eq _) List.not_mem_nil
    intro f hf
    refine ⟨trivial, fun r f' hr => ?_⟩
    obtain ⟨-, hret, rfl⟩ := hr
    exact ⟨hret, hf⟩
  exact hlock.weaken (fun _ _ h => h) fun lr f h hs => ⟨hs.1, slots, rfl, hs.2⟩

theorem alone_unlock (P : Str → Prop) :
    Alone dir size (Under P [dir]) (unlockUnless false dir) (fun _ => Under P []) := by
  have hun : Alone dir size (Under P [dir]) (unlock dir) (fun _ => Under P ([dir].erase dir)) := by
    apply triple_unlock (stable_eq _) (stable_eq _) List.mem_cons_self
    intro f hf
    refine ⟨trivial, fun r f' hr => ?_⟩
    obtain ⟨-, hret, rfl⟩ := hr
    exact ⟨hret, hf⟩
  rwa [List.erase_cons_head] at hun

theorem alone_readdir : Alone dir size (Under (Reads slots) []) (readdir dir) (fun x f h =>
    ∃ slots', slots' = slots ∧ x = (OK, listing slots') ∧ Under (Reads slots') [] f h) :=
  triple_readdir (fun _ => rfl) serves_reads List.mem_cons_self (fun _ => stable_eq _) alone_lock
    fun slots _ => alone_unlock (Reads slots)

theorem alone_lookup (name : Str) :
    Alone dir size (Under (Reads slots) []) (lookup dir name) (fun x f h =>
      ∃ slots', slots' = slots ∧ x = (OK, findName name (listing slots')) ∧
        Under (Reads slots') [] f h) :=
  triple_lookup (fun _ => rfl) (fun _ => stable_eq _) name alone_readdir

/-- How `create` ends: there was an entry of that name, or one was added. -/
def CreateEnds (size : ℕ) (slots : List Slot) (name : Str) (x : Status × Option Inum) (f : Str) :
    Prop :=
  (findName name (listing slots) ≠ none ∧ x = (EXIST, none) ∧ Reads slots f) ∨
    ∃ ino, findName name (listing slots) = none ∧ (limits size).ids ino ∧ x = (OK, some ino) ∧
      Has (slots ++ [⟨ino.toUInt32, name, []⟩]) f ∧ f.length < size

theorem alone_create (hsize : size ≤ 2 ^ 31) (hplain : Plain slots) (hname : IsInt (name.length + 12)) :
    Alone dir size (Under (Reads slots) []) (create dir name typeFile)
      (fun x => Under (CreateEnds size slots name x) []) := by
  apply triple_create (fun _ ino => CreateEnds size slots name (OK, some ino)) (fun _ => rfl)
    serves_reads serves_made (fun _ _ => stable_eq _) (fun _ => stable_eq _) List.mem_cons_self
    alone_lock
  · rintro _ rfl hfound
    apply (alone_unlock _).weaken (fun _ _ h => h)
    rintro _ f h ⟨hf, hh⟩
    exact ⟨.inl ⟨hfound, rfl, hf⟩, hh⟩
  · rintro _ rfl -
    exact ⟨hplain.no_room hname, hname⟩
  · rintro _ f rfl - hf
    refine ⟨trivial, fun a f' ha => ?_⟩
    obtain ⟨hret, hid, rfl⟩ := ha
    exact ⟨hret, hf, hid⟩
  · rintro _ ino f rfl hnone ⟨hf, hid⟩
    refine ⟨trivial, fun a f' ha => ?_⟩
    obtain ⟨-, hret, hstores, rfl⟩ := ha
    have hsmall := lt_of_lt_of_le hstores hsize
    exact ⟨hret, .inr ⟨ino, hnone, hid, rfl, ⟨rfl, hplain.append hnone hid.1 hid.2 hsmall⟩, hstores⟩⟩
  · exact fun _ ino => alone_unlock _

/-! ## A directory that cannot be copied -/

section
variable {lim : Limits} {f w : Str} {h : Held} {lr : Bool} {ph : Phase} {e : Fault}

theorem listDir_full (hf : f.length + 1 = 2 ^ 31) : listDir f = .error .exception := by
  unfold listDir
  rw [copied_of_eq hf]
  rfl

theorem ends_readdir_fault {x : Except Fault ((Status × List Dirent) × Held)}
    (hf : listDir f = .error e) (ho : Opens dir lr ph h)
    (he : Ends (Answers dir lim) ((readdir dir).run h) f x w) : x = .error e ∧ w = f := by
  unfold readdir at he
  obtain ⟨_, _, ⟨rfl, rfl⟩, hlocked⟩ := ends_bind he fun _ _ => ends_lock ho
  obtain ⟨⟨got, _⟩, _, ⟨⟨hret, rfl, rfl⟩, rfl⟩, hgot⟩ := ends_bind hlocked fun _ _ => ends_get
  dsimp only at hret hgot
  rw [if_neg (not_not.2 hret)] at hgot
  obtain ⟨_, _, ⟨rfl, rfl⟩, hleft⟩ := ends_bind hgot fun _ _ => ends_unlock
  rw [hf] at hleft
  cases hleft
  exact ⟨rfl, rfl⟩

theorem ends_lookup_fault {x : Except Fault ((Status × Option Inum) × Held)}
    (hf : listDir f = .error e) (ho : Opens dir lr ph h)
    (he : Ends (Answers dir lim) ((lookup dir name).run h) f x w) : ∃ e', x = .error e' ∧ w = f := by
  unfold lookup at he
  rw [StateT.run_bind] at he
  exact he.bind_fault (Φ := fun _ f' => f' = f) fun y f' hy => ⟨e, ends_readdir_fault hf ho hy⟩

/-- The lock is held when `create` dies. -/
theorem ends_create_fault {x : Except Fault ((Status × Option Inum) × Held)}
    (hf : listDir f = .error e)
    (he : Ends (Answers dir lim) ((create dir name typeFile).run []) f x w) :
    ∃ e', x = .error e' ∧ w = f := by
  unfold create at he
  obtain ⟨_, _, ⟨rfl, rfl⟩, hlocked⟩ := ends_bind he fun _ _ => ends_lock .takes
  rw [StateT.run_bind] at hlocked
  exact hlocked.bind_fault fun y f' hy => ends_lookup_fault hf .has hy

end

end Yfs.SharedDirectory
