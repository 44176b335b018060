import Yfs.DirectoryHistory

/-!
# One `unlink` in any well-formed directory

Whatever mixture of live records, cleared records and slack a directory consists of, `unlink` clears
the one record of the name and nothing else. Whether the entry is a regular file is decided with the
attributes that the client has cached, and these can be wrong.
-/

namespace Yfs.DirectoryRemoval
open LockProtocol ExtentClient DirectoryFormat YfsClient DirectoryOps ServedOperations
open DirectoryHistory (World Session newSession)

/-- A concatenation of records, no two live ones of which have the same name. -/
def WellFormed (buf : Str) : Prop :=
  ∃ slots, buf = chain slots ∧ IsInt ((chain slots).length + 1) ∧
    ((listing slots).map Dirent.name).Nodup

/-- The client has marked the extent as removed. -/
def removed (w : World) (i : Inum) : Bool := (w.caches.bcache i).any (·.deleted)

/-- The extent is a regular file. -/
def IsRegular (w : World) (i : Inum) : Prop := (w.store.attr i).type = typeFile

/-- What `unlink` has to do in a directory. -/
inductive Unlinked (w w' : World) (parent : Inum) (name : Str) : Status → Prop where
  | removed {pre post : List Dirent} {ino : Inum}
      (listed : listDir (w.seen parent) = .ok (pre ++ ⟨name, ino⟩ :: post)) (file : IsRegular w ino)
      (marked : removed w' ino = true) (wellFormed : WellFormed (w'.seen parent))
      (length : (w'.seen parent).length = (w.seen parent).length)
      (left : listDir (w'.seen parent) = .ok (pre ++ post))
      (others : ∀ j, j ≠ parent → j ≠ ino → w'.seen j = w.seen j ∧ removed w' j = removed w j) :
      Unlinked w w' parent name OK
  | absent {ds : List Dirent} (listed : listDir (w.seen parent) = .ok ds)
      (absent : name ∉ ds.map Dirent.name) (content : w'.seen = w.seen)
      (extents : removed w' = removed w) : Unlinked w w' parent name NOENT
  | refused {r : Status} {ds : List Dirent} {ino : Inum}
      (listed : listDir (w.seen parent) = .ok ds) (entry : ⟨name, ino⟩ ∈ ds)
      (directory : ¬IsRegular w ino) (error : r ≠ OK) (content : w'.seen = w.seen)
      (extents : removed w' = removed w) : Unlinked w w' parent name r

/-- The cached attributes of an extent, if there are any, agree with the server on whether it is a
regular file. -/
def Agrees (w : World) (i : Inum) : Prop :=
  ∀ a ∈ w.caches.acache i, (a.type = typeFile ↔ IsRegular w i)

variable {w : World} {parent ino : Inum} {name : Str}

/-! ## The calls -/

theorem get_effect (w : World) (i : Inum) :
    (World.serve (.get i) w).1.seen = w.seen ∧ removed (World.serve (.get i) w).1 = removed w ∧
      (World.serve (.get i) w).1.caches.acache = w.caches.acache ∧
      (World.serve (.get i) w).1.store = w.store := by
  refine ⟨(w.serve_get i).2, ?_, ?_, DirectoryHistory.serve_get_store w i⟩
  · funext j
    cases hb : w.caches.bcache i with
    | some e => simp [World.serve, hb]
    | none =>
      by_cases hj : j = i
      · simp [removed, World.serve, hb, hj, Store.get, Caches.getAnswered, Caches.setEntry,
          Caches.entry]
      · simp [removed, World.serve, hb, hj, Store.get, Caches.getAnswered, Caches.setEntry]
  · cases hb : w.caches.bcache i with
    | some e => simp [World.serve, hb]
    | none => simp [World.serve, hb, Store.get, Caches.getAnswered, Caches.setEntry]

theorem getattr_effect (w : World) (i : Inum) :
    (World.serve (.getattr i) w).1.seen = w.seen ∧
      removed (World.serve (.getattr i) w).1 = removed w := by
  cases ha : w.caches.acache i with
  | some a => simp [World.serve, ha]
  | none =>
    refine ⟨?_, ?_⟩
    · funext j
      simp [World.serve, World.seen, ha, Store.getattr, Caches.getattrAnswered, Caches.setAttr]
    · funext j
      simp [World.serve, removed, ha, Store.getattr, Caches.getattrAnswered, Caches.setAttr]

/-- Whether the client takes an extent for a regular file. -/
def Reported (w : World) (i : Inum) : Prop :=
  ((w.caches.acache i).getD (w.store.attr i)).type = typeFile

theorem getattr_reported (w : World) (i : Inum) :
    ((World.serve (.getattr i) w).2.ret = OK ∧
      (World.serve (.getattr i) w).2.attr.type = typeFile) ↔ Reported w i := by
  unfold Reported
  cases ha : w.caches.acache i with
  | some a => simp [World.serve, ha, OK, statusOk]
  | none => simp [World.serve, ha, Store.getattr, OK, statusOk]

theorem agrees_iff : Agrees w ino ↔ (Reported w ino ↔ IsRegular w ino) := by
  unfold Agrees Reported
  cases ha : w.caches.acache ino with
  | some a => simp
  | none => simp [IsRegular]

theorem put_effect (w : World) (i : Inum) (buf : Str) :
    (World.serve (.put i buf) w).1.seen = Function.update w.seen i buf ∧
      removed (World.serve (.put i buf) w).1 = removed w := by
  refine ⟨(w.serve_put i buf).2, ?_⟩
  funext j
  by_cases hj : j = i
  · cases hb : w.caches.bcache i <;>
      simp [World.serve, removed, hj, hb, Caches.put, Caches.setEntry, Caches.entry]
  · simp [World.serve, removed, hj, Caches.put, Caches.setEntry, Caches.setAttr]

/-- Marking an extent as removed makes an entry for it, if there is none. -/
theorem remove_effect (w : World) (i : Inum) :
    removed (World.serve (.remove i) w).1 i = true ∧
      (∀ j, j ≠ i ∨ w.caches.bcache j ≠ none → (World.serve (.remove i) w).1.seen j = w.seen j) ∧
      ∀ j, j ≠ i → removed (World.serve (.remove i) w).1 j = removed w j := by
  refine ⟨?_, ?_, ?_⟩
  · simp [World.serve, removed, Caches.remove, Caches.setEntry]
  · intro j hj
    by_cases hi : j = i
    · subst hi
      obtain ⟨e, he⟩ := Option.ne_none_iff_exists'.1 (hj.resolve_left fun h => h rfl)
      simp [World.serve, World.seen, Caches.remove, Caches.setEntry, Caches.entry, he]
    · simp [World.serve, World.seen, Caches.remove, Caches.setEntry, hi]
  · intro j hj
    simp [World.serve, removed, Caches.remove, Caches.setEntry, hj]

/-! ## The three cases -/

variable {slots pre post : List Slot} {s : Slot} {h : Held}

theorem listing_named (hs : Slot.IsNamed name s) :
    listing (pre ++ s :: post) = listing pre ++ ⟨name, s.inum.toUInt64⟩ :: listing post := by
  rw [listing_append, listing_cons, if_neg hs.1, hs.2]

theorem listing_cleared : listing (pre ++ s.cleared :: post) = listing pre ++ listing post := by
  rw [listing_append, listing_cons, if_pos (show s.cleared.inum = 0 from rfl)]

theorem length_cleared :
    (chain (pre ++ s.cleared :: post)).length = (chain (pre ++ s :: post)).length := by
  simp [Slot.size_cleared]

theorem listDir_get (hc : w.seen parent = chain slots) (hsmall : IsInt ((chain slots).length + 1)) :
    listDir (World.serve (.get parent) w).2.buf = .ok (listing slots) := by
  rw [w.serve_get_buf, hc, listDir_chain hsmall]

theorem unlink_absent (hc : w.seen parent = chain slots)
    (hsmall : IsInt ((chain slots).length + 1)) (hname : findName name (listing slots) = none) :
    ∃ h' w', exec World.serve (unlink parent name) h w = .ok ((NOENT, h'), w') ∧
      Unlinked w w' parent name NOENT := by
  refine ⟨_, _, exec_unlink_absent World.grants (w.serve_get_ret parent) (listDir_get hc hsmall) hname,
    ?_⟩
  obtain ⟨hseen, hremoved, -⟩ := get_effect w parent
  exact .absent (hc ▸ listDir_chain hsmall) (findName_eq_none.1 hname) hseen hremoved

/-- The entry is taken for a directory. -/
theorem unlink_directory (hc : w.seen parent = chain slots)
    (hsmall : IsInt ((chain slots).length + 1))
    (hname : findName name (listing slots) = some ino) (hreported : ¬Reported w ino) :
    ∃ h' w', exec World.serve (unlink parent name) h w = .ok ((ENOTEMPTY, h'), w') ∧
      w'.seen = w.seen ∧ removed w' = removed w := by
  obtain ⟨hseen, hremoved, hacache, hstore⟩ := get_effect w parent
  have hfile : ¬Reported (World.serve (.get parent) w).1 ino := by
    unfold Reported at hreported ⊢
    rwa [hacache, hstore]
  rw [← getattr_reported] at hfile
  obtain ⟨hseen', hremoved'⟩ := getattr_effect (World.serve (.get parent) w).1 ino
  refine ⟨h, _, ?_, hseen'.trans hseen, hremoved'.trans hremoved⟩
  rw [exec_unlink_found World.grants (w.serve_get_ret parent) (listDir_get hc hsmall) hname]
  exact exec_unlinkFound_directory World.grants hfile

/-- Asking again changes nothing that matters. -/
theorem looked_effect (w : World) (parent ino : Inum) :
    (looked World.serve parent ino w).seen = w.seen ∧
      removed (looked World.serve parent ino w) = removed w := by
  obtain ⟨hseen, hremoved⟩ := getattr_effect w ino
  obtain ⟨hseen', hremoved', -⟩ := get_effect (World.serve (.getattr ino) w).1 parent
  exact ⟨hseen'.trans hseen, hremoved'.trans hremoved⟩

/-- The end of `unlink`: the new content is stored and the file is marked. -/
theorem finish_effect (w : World) (parent ino : Inum) (new : Str) {w' : World}
    (hw : w' = (World.serve (.remove ino)
      (World.serve (.put parent new) (World.serve (.get parent) w).1).1).1) :
    removed w' ino = true ∧ w'.seen parent = new ∧
      ∀ j, j ≠ parent → j ≠ ino → w'.seen j = w.seen j ∧ removed w' j = removed w j := by
  subst hw
  obtain ⟨hseen, hremoved, -⟩ := get_effect w parent
  obtain ⟨hseen', hremoved'⟩ := put_effect (World.serve (.get parent) w).1 parent new
  obtain ⟨hmarked, hkept, hothers⟩ :=
    remove_effect (World.serve (.put parent new) (World.serve (.get parent) w).1).1 ino
  have hcached : (World.serve (.put parent new)
      (World.serve (.get parent) w).1).1.caches.bcache parent ≠ none := by
    simp [World.serve, Caches.put, Caches.setEntry]
  refine ⟨hmarked, ?_, ?_⟩
  · rw [hkept parent (.inr hcached), hseen', Function.update_self]
  · intro j hj hne
    rw [hkept j (.inl hne), hseen', Function.update_of_ne hj, hseen, hothers j hne, hremoved', hremoved]
    exact ⟨rfl, rfl⟩

/-- The entry is taken for a regular file. -/
theorem unlink_file (hc : w.seen parent = chain (pre ++ s :: post))
    (hsmall : IsInt ((chain (pre ++ s :: post)).length + 1))
    (hpre : ∀ x ∈ pre, ¬Slot.IsNamed name x) (hs : Slot.IsNamed name s)
    (hname : findName name (listing (pre ++ s :: post)) = some s.inum.toUInt64)
    (hreported : Reported w s.inum.toUInt64) :
    ∃ h' w', exec World.serve (unlink parent name) h w = .ok ((OK, h'), w') ∧
      removed w' s.inum.toUInt64 = true ∧ w'.seen parent = chain (pre ++ s.cleared :: post) ∧
      ∀ j, j ≠ parent → j ≠ s.inum.toUInt64 → w'.seen j = w.seen j ∧ removed w' j = removed w j := by
  obtain ⟨hseen, hremoved, hacache, hstore⟩ := get_effect w parent
  have hfile : Reported (World.serve (.get parent) w).1 s.inum.toUInt64 := by
    unfold Reported at hreported ⊢
    rwa [hacache, hstore]
  rw [← getattr_reported] at hfile
  obtain ⟨off, ncstr, n, hclear, hwrite⟩ := unlink_content hsmall hpre hs
  rw [exec_unlink_found World.grants (w.serve_get_ret parent) (listDir_get hc hsmall) hname]
  rw [← hc, ← hseen] at hclear hwrite
  generalize (World.serve (.get parent) w).1 = w₁ at *
  obtain ⟨hseen₂, -⟩ := getattr_effect w₁ s.inum.toUInt64
  obtain ⟨hseen₃, hremoved₃⟩ := looked_effect w₁ parent s.inum.toUInt64
  rw [← hseen₂] at hclear
  rw [← hseen₃] at hwrite
  obtain ⟨h', hexec⟩ := exec_unlinkFound_file (h := h) World.grants hfile
    (World.serve_get_ret _ parent) (by rwa [World.serve_get_buf]) (World.serve_get_ret _ parent)
    (by rwa [World.serve_get_buf])
  obtain ⟨hmarked, hnew, hothers⟩ := finish_effect (looked World.serve parent s.inum.toUInt64 w₁) parent
    s.inum.toUInt64 (chain (pre ++ s.cleared :: post)) rfl
  rw [hseen₃, hremoved₃, hseen, hremoved] at hothers
  exact ⟨h', _, hexec, hmarked, hnew, hothers⟩

/-! ## The result -/

theorem perform_of_exec {α : Type} {p : Op α} {a : α} {h' : Held} {w' : World} {σ : Session}
    (hx : exec World.serve p σ.held σ.world = .ok ((a, h'), w')) :
    σ.perform p = .ok (a, ⟨w', h'⟩) := by
  rw [σ.perform_eq, hx]
  rfl

section
variable {w' : World} {ds : List Dirent} (hlist : listDir (w.seen parent) = .ok ds)
  (hnodup : (ds.map Dirent.name).Nodup)
include hlist hnodup

/-- A condition on the entries of the name is one on the entry that `lookup` finds. -/
theorem named_iff {P : Inum → Prop} :
    (∀ ds' ino, listDir (w.seen parent) = .ok ds' → ⟨name, ino⟩ ∈ ds' → P ino) ↔
      ∀ ino, findName name ds = some ino → P ino := by
  constructor
  · exact fun h ino hname => h ds ino hlist ((DirectoryHistory.findName_iff hnodup).1 hname)
  · intro h ds' ino hds hmem
    rw [hlist] at hds
    cases hds
    exact h ino ((DirectoryHistory.findName_iff hnodup).2 hmem)

/-- Only a regular file is removed. -/
theorem Unlinked.regular (h : Unlinked w w' parent name OK)
    (hname : findName name ds = some ino) : IsRegular w ino := by
  cases h with
  | removed listed file =>
    rw [hlist] at listed
    cases listed
    have hfound := (DirectoryHistory.findName_iff hnodup).2 (List.mem_append_right _ List.mem_cons_self)
    rw [hname] at hfound
    cases hfound
    exact file
  | refused _ _ _ error => exact absurd rfl error

/-- Only what is no regular file is refused. -/
theorem Unlinked.not_regular (h : Unlinked w w' parent name ENOTEMPTY)
    (hname : findName name ds = some ino) : ¬IsRegular w ino := by
  cases h with
  | refused listed entry directory =>
    rw [hlist] at listed
    cases listed
    have hfound := (DirectoryHistory.findName_iff hnodup).2 entry
    rw [hname] at hfound
    cases hfound
    exact directory

end

/-- The removal of a regular file, put together. -/
theorem unlinked_of_cleared {w' : World} (hc : w.seen parent = chain (pre ++ s :: post))
    (hsmall : IsInt ((chain (pre ++ s :: post)).length + 1))
    (hnodup : ((listing (pre ++ s :: post)).map Dirent.name).Nodup) (hs : Slot.IsNamed name s)
    (hfile : IsRegular w s.inum.toUInt64) (hmarked : removed w' s.inum.toUInt64 = true)
    (hnew : w'.seen parent = chain (pre ++ s.cleared :: post))
    (hothers : ∀ j, j ≠ parent → j ≠ s.inum.toUInt64 →
      w'.seen j = w.seen j ∧ removed w' j = removed w j) : Unlinked w w' parent name OK := by
  have hlist : listDir (w.seen parent) =
      .ok (listing pre ++ ⟨name, s.inum.toUInt64⟩ :: listing post) := by
    rw [hc, listDir_chain hsmall, listing_named hs]
  have hsmall' : IsInt ((chain (pre ++ s.cleared :: post)).length + 1) := by rwa [length_cleared]
  refine .removed hlist hfile hmarked ⟨_, hnew, hsmall', ?_⟩ ?_ ?_ hothers
  · rw [listing_named hs] at hnodup
    rw [listing_cleared]
    exact hnodup.sublist (by simp)
  · rw [hnew, hc, length_cleared]
  · rw [hnew, listDir_chain hsmall', listing_cleared]

/-- In a well-formed directory `unlink` does what it has to do, exactly when the cached attributes of
the entry's inode are not wrong about whether it is a regular file. -/
theorem unlink_exact_iff {σ : Session} (hwf : WellFormed (σ.world.seen parent)) :
    (∃ r σ', σ.perform (unlink parent name) = .ok (r, σ') ∧
      Unlinked σ.world σ'.world parent name r) ↔
      ∀ ds ino, listDir (σ.world.seen parent) = .ok ds → ⟨name, ino⟩ ∈ ds → Agrees σ.world ino := by
  obtain ⟨slots, hc, hsmall, hnodup⟩ := hwf
  have hlist : listDir (σ.world.seen parent) = .ok (listing slots) := by rw [hc, listDir_chain hsmall]
  rw [named_iff hlist hnodup]
  cases hname : findName name (listing slots) with
  | none =>
    obtain ⟨h', w', hexec, hdone⟩ := unlink_absent (h := σ.held) hc hsmall hname
    refine ⟨?_, fun _ => ⟨_, _, perform_of_exec hexec, hdone⟩⟩
    rintro - ino ⟨⟩
  | some ino =>
    simp only [Option.some.injEq, forall_eq', agrees_iff]
    by_cases hreported : Reported σ.world ino
    · obtain ⟨pre, s, post, rfl, hpre, hs, rfl⟩ := findName_some hname
      obtain ⟨h', w', hexec, hmarked, hnew, hothers⟩ :=
        unlink_file (h := σ.held) hc hsmall hpre hs hname hreported
      rw [perform_of_exec hexec]
      simp only [hreported, true_iff]
      constructor
      · rintro ⟨r, σ', hσ, hdone⟩
        cases hσ
        exact hdone.regular hlist hnodup hname
      · intro hfile
        exact ⟨_, _, rfl, unlinked_of_cleared hc hsmall hnodup hs hfile hmarked hnew hothers⟩
    · obtain ⟨h', w', hexec, hseen, hremoved⟩ :=
        unlink_directory (h := σ.held) hc hsmall hname hreported
      rw [perform_of_exec hexec]
      simp only [hreported, false_iff]
      constructor
      · rintro ⟨r, σ', hσ, hdone⟩
        cases hσ
        exact hdone.not_regular hlist hnodup hname
      · intro hdir
        exact ⟨_, _, rfl, .refused hlist ((DirectoryHistory.findName_iff hnodup).1 hname) hdir
          (by decide) hseen hremoved⟩

/-- A directory with a cleared record and a file in it. -/
def twoRecords : List Slot := [⟨0, [], []⟩, ⟨2, [102], [0, 0]⟩]

def twoRecordsSession : Session :=
  { world := { store :=
    { attr := fun _ => { type := typeFile }, content := fun _ => chain twoRecords, supply := fun _ => 3 } } }

theorem unlink_exact_second :
    ∃ r σ', twoRecordsSession.perform (unlink 1 [102]) = .ok (r, σ') ∧
      Unlinked twoRecordsSession.world σ'.world 1 [102] r :=
  (unlink_exact_iff ⟨twoRecords, rfl, by decide +kernel, by decide +kernel⟩).2
    fun _ _ _ _ _ ha => by cases ha

/-- Create a file in directory 1, write to it and unlink it: what the calls return, the type that the
server has for the file, and the entries that are left. -/
def writtenThenUnlinked :
    Except Fault ((Status × Option Inum) × (Status × ℕ) × Status × UInt32 × List Dirent) := do
  let (made, σ) ← newSession.perform (YfsClient.create 1 [102] typeFile)
  let (wrote, σ) ← σ.perform (YfsClient.write 2 0 [1])
  let (r, σ) ← σ.perform (unlink 1 [102])
  let left ← listDir (σ.world.seen 1)
  pure (made, wrote, r, (σ.world.store.attr 2).type, left)

/-- The file is not removed: `write` has replaced its attributes by ones without a type. -/
theorem unlink_refuses_file :
    writtenThenUnlinked = .ok ((OK, some 2), (OK, 1), ENOTEMPTY, typeFile, [⟨[102], 2⟩]) := by
  decide +kernel

end Yfs.DirectoryRemoval
