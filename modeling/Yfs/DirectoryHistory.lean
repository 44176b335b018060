import Yfs.DirectoryOps
import Yfs.ServedOperations

/-!
# A directory and its history, with one client

A single client creates and removes files in one directory. As long as no `create` finds a
record with room for its entry, and the directory stays short enough to be copied, the
directory is the map that the results of the calls suggest. The other way to enter a file,
into the slack of a record, ruins the directory.
-/

namespace Yfs.DirectoryHistory
open CallTrees LockProtocol ExtentClient DirectoryFormat YfsClient DirectoryOps

/-- The extent client and the extent server. With one client the locks are always granted,
and nothing is ever revoked. -/
structure World where
  caches : Caches := {}
  store : Store

namespace World

def serve : Call → World → World × Reply
  | .acquire _, w | .release _, w => (w, {})
  | .get i, w =>
    match w.caches.bcache i with
    | some e => (w, { buf := e.buf })
    | none => ({ w with caches := w.caches.getAnswered i (w.store.get i) }, w.store.get i)
  | .put i buf, w => ({ w with caches := w.caches.put i buf }, {})
  | .getattr i, w =>
    match w.caches.acache i with
    | some a => (w, { attr := a })
    | none => ({ w with caches := w.caches.getattrAnswered i (w.store.getattr i) }, w.store.getattr i)
  | .remove i, w => ({ w with caches := w.caches.remove i }, {})
  | .create type, w => ({ w with store := (w.store.create type).1 }, (w.store.create type).2)

/-- The content of an extent as the client sees it. -/
def seen (w : World) (i : Inum) : Str :=
  match w.caches.bcache i with
  | some e => e.buf
  | none => w.store.content i

theorem grants : ServedOperations.Grants serve := ⟨fun _ _ => rfl, fun _ _ => rfl⟩

theorem serve_get (w : World) (i : Inum) :
    (serve (.get i) w).2 = { buf := w.seen i } ∧ (serve (.get i) w).1.seen = w.seen := by
  cases hb : w.caches.bcache i with
  | some e => simp [serve, seen, hb]
  | none =>
    refine ⟨by simp [serve, seen, hb, Store.get], ?_⟩
    funext j
    by_cases hj : j = i
    · simp [serve, seen, hb, hj, Store.get, Caches.getAnswered, Caches.setEntry]
    · simp [serve, seen, hb, hj, Store.get, Caches.getAnswered, Caches.setEntry]

theorem serve_get_ret (w : World) (i : Inum) : (serve (.get i) w).2.ret = OK :=
  congrArg Reply.ret (w.serve_get i).1

theorem serve_get_buf (w : World) (i : Inum) : (serve (.get i) w).2.buf = w.seen i :=
  congrArg Reply.buf (w.serve_get i).1

theorem serve_put (w : World) (i : Inum) (buf : Str) :
    (serve (.put i buf) w).2 = {} ∧ (serve (.put i buf) w).1.seen = Function.update w.seen i buf := by
  refine ⟨rfl, ?_⟩
  funext j
  by_cases hj : j = i
  · simp [serve, seen, hj, Caches.put, Caches.setEntry]
  · simp [serve, seen, hj, Caches.put, Caches.setEntry, Caches.setAttr]

end World

/-- The process: its libraries and `held_lock`. -/
structure Session where
  world : World
  held : Held := []

def Session.perform {α : Type} (p : Op α) (σ : Session) : Except Fault (α × Session) :=
  match run (fun x => World.serve x.2) (p.run σ.held) σ.world with
  | .ok ((a, h), w) => .ok (a, ⟨w, h⟩)
  | .error e => .error e

theorem Session.perform_eq {α : Type} (p : Op α) (σ : Session) :
    σ.perform p = (ServedOperations.exec World.serve p σ.held σ.world).bind fun x =>
      .ok (x.1.1, ⟨x.2, x.1.2⟩) := by
  unfold perform ServedOperations.exec
  cases run (fun x => World.serve x.2) (p.run σ.held) σ.world <;> rfl

inductive DirOp where
  | create (name : Str)
  | unlink (name : Str)
  deriving DecidableEq, Repr

/-- A call with its result. -/
inductive Did where
  | created (name : Str) (r : Status) (ino : Option Inum)
  | unlinked (name : Str) (r : Status)
  deriving DecidableEq, Repr

/-- A call on the directory, as a regular file in the case of `create`. -/
def DirOp.program (dir : Inum) : DirOp → Op Did
  | .create name => do
    let (r, ino) ← YfsClient.create dir name typeFile
    pure (.created name r ino)
  | .unlink name => do
    let r ← YfsClient.unlink dir name
    pure (.unlinked name r)

/-- A sequence of calls. -/
def play (dir : Inum) : List DirOp → Session → Except Fault (List Did × Session)
  | [], σ => .ok ([], σ)
  | o :: ops, σ => do
    let (d, σ') ← σ.perform (o.program dir)
    let (dids, σ'') ← play dir ops σ'
    .ok (d :: dids, σ'')

/-- What a call adds to and takes from the map. -/
def Did.update (t : List Dirent) : Did → List Dirent
  | .created name r (some ino) => if r = OK then t ++ [⟨name, ino⟩] else t
  | .created _ _ none => t
  | .unlinked name r => if r = OK then t.filter fun d => d.name ≠ name else t

/-- The entries that were created and not removed since. -/
def table (dids : List Did) : List Dirent := dids.foldl Did.update []

/-! ## When an entry is appended -/

/-- A `create` of a new name does not find a record with room for the entry, and the
directory remains so short that it can be copied. -/
def Appends (dir : Inum) (σ : Session) : DirOp → Prop
  | .create name =>
    let records := (scan (fun _ => false) (σ.world.seen dir)).1
    findName name (dirents records) = none →
      (∀ e ∈ records, hasRoom name e = false) ∧
        IsInt ((σ.world.seen dir).length + (name.length + 12) + 1)
  | .unlink _ => True

instance (dir : Inum) (σ : Session) : (o : DirOp) → Decidable (Appends dir σ o)
  | .create _ => inferInstanceAs (Decidable (_ → _))
  | .unlink _ => isTrue trivial

/-- Every `create` of the sequence appends its entry. -/
def Careful (dir : Inum) : List DirOp → Session → Prop
  | [], _ => True
  | o :: ops, σ => Appends dir σ o ∧
      match σ.perform (o.program dir) with
      | .ok (_, σ') => Careful dir ops σ'
      | .error _ => True

instance decidableCareful (dir : Inum) : (ops : List DirOp) → (σ : Session) →
    Decidable (Careful dir ops σ)
  | [], _ => isTrue trivial
  | o :: ops, σ => @instDecidableAnd _ _ inferInstance
      (match σ.perform (o.program dir) with
        | .ok (_, σ') => decidableCareful dir ops σ'
        | .error _ => isTrue trivial)

/-- An empty directory. The numbers that the server hands out are inode numbers other than 0
and that of the directory, and the client has not met them before. -/
structure Start (dir : Inum) (σ : Session) : Prop where
  held : σ.held = []
  content : σ.world.seen dir = newdir
  unknown : ∀ j, σ.world.caches.acache (σ.world.store.supply j) = none
  numbers : ∀ j, σ.world.store.supply j ≠ 0 ∧ IsUInt (σ.world.store.supply j).toNat ∧
    σ.world.store.supply j ≠ dir

/-! ## The invariant -/

/-- The client sees the records `slots`, and every inode they name is known as a file. -/
structure Kept (dir : Inum) (slots : List Slot) (w : World) : Prop where
  content : w.seen dir = chain slots
  small : IsInt ((chain slots).length + 1)
  numbers : ∀ j, w.store.supply j ≠ 0 ∧ IsUInt (w.store.supply j).toNat ∧
    w.store.supply j ≠ dir
  cached : ∀ j, ∀ a ∈ w.caches.acache (w.store.supply j), a.type = typeFile
  files : ∀ d ∈ listing slots, (∃ j, w.store.supply j = d.inum) ∧
    (w.store.attr d.inum).type = typeFile

/-- Moreover inode `ino` has just been created. -/
def Made (dir ino : Inum) (slots : List Slot) (w : World) : Prop :=
  Kept dir slots w ∧ (∃ j, w.store.supply j = ino) ∧ (w.store.attr ino).type = typeFile

/-- The answers of the world. -/
abbrev served : World → Step → Reply → World → Prop := Served fun x => World.serve x.2

/-- A triple about an operation in this world, where it always returns. -/
abbrev Does {α : Type} (P : World → Held → Prop) (p : Op α) (R : α → World → Held → Prop) : Prop :=
  Triple Eq (fun _ _ => True) served (fun _ => False) P p R

theorem stable_eq (P : World → Prop) : Stable Eq P := fun _ _ h hr => hr ▸ h

variable {dir ino : Inum} {slots : List Slot} {w : World}

/-- What the client sees of the directory, its cached attributes and the server are all that
matters. -/
theorem Kept.congr {w' : World} (h : Kept dir slots w) (hseen : w'.seen dir = w.seen dir)
    (ha : w'.caches.acache = w.caches.acache) (hstore : w'.store = w.store) : Kept dir slots w' := by
  constructor
  · rw [hseen, h.content]
  · exact h.small
  · rw [hstore]
    exact h.numbers
  · rw [hstore, ha]
    exact h.cached
  · rw [hstore]
    exact h.files

theorem serve_get_store (w : World) (i : Inum) : (World.serve (.get i) w).1.store = w.store := by
  unfold World.serve
  cases hb : w.caches.bcache i <;> simp [hb]

theorem Kept.get (h : Kept dir slots w) :
    (World.serve (.get dir) w).2 = { buf := chain slots } ∧
      Kept dir slots (World.serve (.get dir) w).1 := by
  obtain ⟨hreply, hseen⟩ := w.serve_get dir
  refine ⟨by rw [hreply, h.content], h.congr (by rw [hseen]) ?_ (serve_get_store w dir)⟩
  cases hb : w.caches.bcache dir with
  | some e => simp [World.serve, hb]
  | none => simp [World.serve, hb, Store.get, Caches.getAnswered, Caches.setEntry]

theorem Kept.put {slots' : List Slot} (h : Kept dir slots w)
    (hsmall : IsInt ((chain slots').length + 1))
    (hfiles : ∀ d ∈ listing slots', (∃ j, w.store.supply j = d.inum) ∧
      (w.store.attr d.inum).type = typeFile) :
    Kept dir slots' (World.serve (.put dir (chain slots')) w).1 := by
  constructor
  · simp [World.serve, World.seen, Caches.put, Caches.setEntry]
  · exact hsmall
  · exact h.numbers
  · intro j a ha
    have hne := (h.numbers j).2.2
    refine h.cached j a ?_
    simpa [World.serve, Caches.put, Caches.setEntry, Caches.setAttr, hne] using ha
  · exact hfiles

theorem Kept.create (h : Kept dir slots w) :
    (World.serve (.create typeFile) w).2.ret = OK ∧
      Made dir (World.serve (.create typeFile) w).2.id slots
        (World.serve (.create typeFile) w).1 := by
  have hfiles : ∀ i, (w.store.attr i).type = typeFile →
      ((w.store.create typeFile).1.attr i).type = typeFile := by
    intro i hi
    by_cases hnew : i = w.store.supply w.store.next
    · simp [Store.create, hnew]
    · simpa [Store.create, hnew] using hi
  refine ⟨rfl, ⟨h.content, h.small, h.numbers, h.cached, ?_⟩, ⟨w.store.next, rfl⟩, ?_⟩
  · intro d hd
    exact ⟨(h.files d hd).1, hfiles d.inum (h.files d hd).2⟩
  · simp [World.serve, Store.create]

theorem Kept.getattr (h : Kept dir slots w) (hi : ∃ j, w.store.supply j = ino)
    (ht : (w.store.attr ino).type = typeFile) :
    (World.serve (.getattr ino) w).2.ret = OK ∧
      (World.serve (.getattr ino) w).2.attr.type = typeFile ∧
        Kept dir slots (World.serve (.getattr ino) w).1 := by
  obtain ⟨j, rfl⟩ := hi
  cases ha : w.caches.acache (w.store.supply j) with
  | some a =>
    simp only [World.serve, ha]
    exact ⟨rfl, h.cached j a ha, h⟩
  | none =>
    simp only [World.serve, ha]
    refine ⟨rfl, ht, h.content, h.small, h.numbers, ?_, h.files⟩
    intro k a hk
    by_cases hkj : w.store.supply k = w.store.supply j
    · simp only [Caches.getattrAnswered, Store.getattr, Caches.setAttr, if_true, hkj,
        Function.update_self, Option.mem_some] at hk
      rw [← hk]
      exact ht
    · refine h.cached k a ?_
      simpa [Caches.getattrAnswered, Store.getattr, Caches.setAttr, hkj] using hk

theorem Kept.remove (h : Kept dir slots w) (hne : ino ≠ dir) :
    Kept dir slots (World.serve (.remove ino) w).1 := by
  refine h.congr ?_ rfl rfl
  simp [World.serve, World.seen, Caches.remove, Caches.setEntry, hne.symm]

/-! ## The operations -/

theorem eq_of_served {w w' : World} {x : Step} {a : Reply} (h : served w x a w') :
    a = (World.serve x.2 w).2 ∧ w' = (World.serve x.2 w).1 := by
  have he : World.serve x.2 w = (w', a) := h
  rw [he]
  exact ⟨rfl, rfl⟩

theorem serves_made (ino : Inum) :
    Serves Eq (fun _ _ => True) served dir (Made dir ino) := by
  constructor
  · exact fun slots => stable_eq _
  · exact fun slots w h => h.1.small
  · intro slots w h _ hm
    refine ⟨trivial, ?_⟩
    intro a w' ha
    obtain ⟨hkept, hnum, htype⟩ := hm
    obtain ⟨hreply, hkept'⟩ := hkept.get
    obtain ⟨rfl, rfl⟩ := eq_of_served ha
    refine ⟨by rw [hreply]; exact ⟨rfl, rfl⟩, hkept', ?_, ?_⟩
    · rwa [serve_get_store]
    · rwa [serve_get_store]

theorem serves_kept : Serves Eq (fun _ _ => True) served dir (Kept dir) := by
  constructor
  · exact fun slots => stable_eq _
  · exact fun slots w h => h.small
  · intro slots w h _ hkept
    refine ⟨trivial, ?_⟩
    intro a w' ha
    obtain ⟨hreply, hkept'⟩ := hkept.get
    obtain ⟨rfl, rfl⟩ := eq_of_served ha
    exact ⟨by rw [hreply]; exact ⟨rfl, rfl⟩, hkept'⟩

section
variable {P : World → Prop} {h : Held} {i : Inum} {b : Bool}

theorem does_lock (hi : i ∉ h) :
    Does (Under P h) (lock i) (fun lr w h' => lr = false ∧ Under P (i :: h) w h') := by
  refine triple_lock (stable_eq P) (stable_eq P) hi fun w hw => ⟨trivial, fun r w' hr => ?_⟩
  obtain ⟨rfl, rfl⟩ := eq_of_served hr
  exact ⟨rfl, hw⟩

theorem does_unlock (hi : i ∈ h) : Does (Under P h) (unlock i) (fun _ => Under P (h.erase i)) := by
  refine triple_unlock (stable_eq P) (stable_eq P) hi fun w hw => ⟨trivial, fun r w' hr => ?_⟩
  obtain ⟨rfl, rfl⟩ := eq_of_served hr
  exact ⟨rfl, hw⟩

/-- Between two calls no lock is held, or that of the directory after an `unlink` that left
it taken. -/
def between (dir : Inum) (b : Bool) : Held := if b then [dir] else []

theorem does_enter : Does (Under P (between dir b)) (lock dir)
    (fun lr w h => lr = b ∧ Under P [dir] w h) := by
  cases b with
  | true => exact triple_lock_held (stable_eq P) List.mem_cons_self
  | false => exact does_lock List.not_mem_nil

theorem does_leave : Does (Under P [dir]) (unlockUnless b dir)
    (fun _ => Under P (between dir b)) := by
  cases b with
  | true => exact triple_pure (stable_eq P) fun w hw => ⟨hw, rfl⟩
  | false =>
    have hun := does_unlock (P := P) (h := [dir]) (i := dir) List.mem_cons_self
    rwa [List.erase_cons_head] at hun

/-- What `create` leaves behind. -/
def CreateEnds (dir : Inum) (name : Str) (slots : List Slot) (x : Status × Option Inum)
    (w : World) : Prop :=
  (findName name (listing slots) ≠ none ∧ x = (EXIST, none) ∧ Kept dir slots w) ∨
    (findName name (listing slots) = none ∧ ∃ ino slot, x = (OK, some ino) ∧
      listing [slot] = [⟨name, ino⟩] ∧ Kept dir (slots ++ [slot]) w)

theorem does_create {name : Str}
    (hfits : findName name (listing slots) = none →
      (∀ s ∈ slots, hasRoom name s.entry = false) ∧
        IsInt ((chain slots).length + (name.length + 12) + 1)) :
    Does (Under (Kept dir slots) (between dir b)) (create dir name typeFile)
      (fun x => Under (CreateEnds dir name slots x) (between dir b)) := by
  have hlock : Does (Under (Kept dir slots) (between dir b)) (lock dir) (fun lr w h => lr = b ∧
      ∃ slots', slots' = slots ∧ Under (Kept dir slots') [dir] w h) :=
    does_enter.weaken (fun _ _ h => h) fun lr w h hw => ⟨hw.1, slots, rfl, hw.2⟩
  apply triple_create (fun _ ino => CreateEnds dir name slots (OK, some ino)) (fun _ => rfl)
    serves_kept serves_made (fun _ _ => stable_eq _) (fun _ => stable_eq _) List.mem_cons_self hlock
  · intro slots' hslots hfound
    subst hslots
    exact does_leave.weaken (fun w h hw => ⟨.inl ⟨hfound, rfl, hw.1⟩, hw.2⟩) fun _ _ _ h => h
  · intro slots' hslots hnone
    subst hslots
    obtain ⟨hroom, hsize⟩ := hfits hnone
    exact ⟨hroom, by omega⟩
  · intro slots' w hslots hnone hkept
    refine ⟨trivial, fun a w' ha => ?_⟩
    obtain ⟨rfl, rfl⟩ := eq_of_served ha
    exact hkept.create
  · intro slots' ino w hslots hnone hmade
    subst hslots
    refine ⟨trivial, fun a w' ha => ?_⟩
    obtain ⟨rfl, rfl⟩ := eq_of_served ha
    obtain ⟨hkept, ⟨j, rfl⟩, htype⟩ := hmade
    obtain ⟨h0, hlt, -⟩ := hkept.numbers j
    have hnew := listing_new h0 hlt name
    refine ⟨rfl, .inr ⟨hnone, _, _, rfl, hnew, hkept.put ?_ ?_⟩⟩
    · have hsize := (hfits hnone).2
      simp only [chain_append, chain_cons, chain_nil, List.length_append, Slot.length_bytes,
        Slot.size, List.length_nil]
      omega
    · intro d hd
      rw [listing_append, hnew, List.mem_append, List.mem_singleton] at hd
      rcases hd with hd | rfl
      · exact hkept.files d hd
      · exact ⟨⟨j, rfl⟩, htype⟩
  · exact fun _ _ => does_leave

theorem Made.getattr (hm : Made dir ino slots w) :
    ((World.serve (.getattr ino) w).2.ret = OK ∧
      (World.serve (.getattr ino) w).2.attr.type = typeFile) ∧
        Made dir ino slots (World.serve (.getattr ino) w).1 := by
  obtain ⟨hkept, hnum, htype⟩ := hm
  obtain ⟨hret, hfile, hkept'⟩ := hkept.getattr hnum htype
  have hstore : (World.serve (.getattr ino) w).1.store = w.store := by
    unfold World.serve
    cases ha : w.caches.acache ino <;> simp [ha]
  refine ⟨⟨hret, hfile⟩, hkept', ?_, ?_⟩
  · rwa [hstore]
  · rwa [hstore]

/-- A file is not taken for a directory. -/
theorem does_isdir (hi : ino ∈ h) :
    Does (Under (Made dir ino slots) h) (isdir ino)
      (fun b w h' => b = false ∧ Under (Made dir ino slots) h w h') := by
  have hattr : Does (Under (Made dir ino slots) h) (emit (.getattr ino)) (fun a =>
      Under (fun w => (a.ret = OK ∧ a.attr.type = typeFile) ∧ Made dir ino slots w) h) := by
    refine triple_emit (stable_eq _) (fun _ => stable_eq _) fun w hw => ⟨trivial, fun a w' ha => ?_⟩
    obtain ⟨rfl, rfl⟩ := eq_of_served ha
    exact hw.getattr
  unfold isdir isfile
  apply Triple.bind (fun _ => rfl) (R := fun b w h' => b = true ∧ Under (Made dir ino slots) h w h')
  · apply Triple.bind (fun _ => rfl) (triple_lock_held (stable_eq _) hi)
    intro lr
    apply Triple.assume
    intro hlr
    rw [hlr]
    apply Triple.bind (fun _ => rfl) hattr
    intro a w' h' hw
    obtain ⟨⟨⟨hret, hfile⟩, hw⟩, rfl⟩ := hw
    rw [if_neg (not_not.2 hret)]
    rintro w'' rfl
    exact ⟨by simp [hfile], hw, rfl⟩
  · intro x
    apply Triple.assume
    intro hx
    rw [hx]
    exact triple_pure (stable_eq _) fun w hw => ⟨rfl, hw, rfl⟩

/-- What `unlink` leaves behind: it keeps the lock just if it does not find the name. -/
def UnlinkEnds (dir : Inum) (name : Str) (slots : List Slot) (b : Bool) (r : Status) (w : World)
    (h : Held) : Prop :=
  (findName name (listing slots) = none ∧ r = NOENT ∧ Under (Kept dir slots) (between dir true) w h) ∨
    (r = OK ∧ ∃ slots', listing slots' = (listing slots).filter (fun d => d.name ≠ name) ∧
      Under (Kept dir slots') (between dir b) w h)

theorem listing_clear {pre post : List Slot} {s : Slot} {name : Str} (hs : Slot.IsNamed name s)
    (hnodup : ((listing (pre ++ s :: post)).map Dirent.name).Nodup) :
    listing (pre ++ s.cleared :: post) =
      (listing (pre ++ s :: post)).filter fun d => d.name ≠ name := by
  have hcleared : listing (s.cleared :: post) = listing post := by
    rw [listing_cons]
    exact if_pos rfl
  rw [listing_append, listing_cons, if_neg hs.1, hs.2] at hnodup
  rw [listing_append, hcleared, listing_append, listing_cons, if_neg hs.1, hs.2]
  simp only [List.map_append, List.map_cons, List.nodup_append, List.nodup_cons] at hnodup
  obtain ⟨-, ⟨hpost, -⟩, hpre⟩ := hnodup
  have hkeep : ∀ ds : List Dirent, name ∉ ds.map Dirent.name →
      ds.filter (fun d => d.name ≠ name) = ds := by
    intro ds hds
    apply List.filter_eq_self.2
    intro d hd
    apply decide_eq_true
    intro he
    exact hds (he ▸ List.mem_map_of_mem hd)
  rw [List.filter_append, List.filter_cons_of_neg (by simp), hkeep _ hpost, hkeep]
  intro hmem
  exact hpre name hmem name List.mem_cons_self rfl

theorem does_unlinkEntry {pre post : List Slot} {s : Slot} {name : Str}
    (hpre : ∀ x ∈ pre, ¬Slot.IsNamed name x) (hs : Slot.IsNamed name s)
    (hsmall : IsInt ((chain (pre ++ s :: post)).length + 1)) (hne : s.inum.toUInt64 ≠ dir)
    (hfiles : ∀ d ∈ listing (pre ++ s.cleared :: post), d ∈ listing (pre ++ s :: post)) :
    Does (Under (Kept dir (pre ++ s :: post)) [s.inum.toUInt64, dir])
      (unlinkEntry dir name s.inum.toUInt64 b false (chain (pre ++ s :: post)))
      (fun r w h => r = OK ∧ Under (Kept dir (pre ++ s.cleared :: post)) (between dir b) w h) := by
  obtain ⟨off, ncstr, n, hclear, hwrite⟩ := unlink_content hsmall hpre hs
  have hlen : (chain (pre ++ s.cleared :: post)).length = (chain (pre ++ s :: post)).length := by
    simp [Slot.size_cleared]
  unfold unlinkEntry
  apply Triple.bind (fun _ => rfl) (triple_lift (stable_eq _) hclear)
  intro x
  apply Triple.assume
  intro hx
  rw [hx]
  dsimp only
  have hput : ∀ w, Kept dir (pre ++ s :: post) w → True ∧ ∀ a w',
      served w ([s.inum.toUInt64, dir], .put dir (chain (pre ++ s.cleared :: post))) a w' →
        a.ret = OK ∧ Kept dir (pre ++ s.cleared :: post) w' := by
    intro w hw
    refine ⟨trivial, fun a w' ha => ?_⟩
    obtain ⟨rfl, rfl⟩ := eq_of_served ha
    exact ⟨rfl, hw.put (hlen ▸ hsmall) fun d hd => hw.files d (hfiles d hd)⟩
  apply Triple.bind (fun _ => rfl) (triple_write_held (fun _ => rfl) serves_kept (by simp)
    (stable_eq _) hwrite hput)
  intro _
  apply Triple.assume
  intro _
  have houter : Does (Under (Kept dir (pre ++ s.cleared :: post)) [s.inum.toUInt64, dir])
      (unlockUnless b dir)
      (fun _ => Under (Kept dir (pre ++ s.cleared :: post)) (s.inum.toUInt64 :: between dir b)) := by
    cases b with
    | true => exact triple_pure (stable_eq _) fun w hw => ⟨hw, rfl⟩
    | false =>
      have hun := does_unlock (P := Kept dir (pre ++ s.cleared :: post))
        (h := [s.inum.toUInt64, dir]) (i := dir) (by simp)
      rwa [List.erase_cons_tail (by simpa using hne), List.erase_cons_head] at hun
  apply Triple.bind (fun _ => rfl) houter
  intro _
  have hremove : Does (Under (Kept dir (pre ++ s.cleared :: post)) (s.inum.toUInt64 :: between dir b))
      (emit (.remove s.inum.toUInt64)) (fun a => Under (fun w => a.ret = OK ∧
        Kept dir (pre ++ s.cleared :: post) w) (s.inum.toUInt64 :: between dir b)) := by
    refine triple_emit (stable_eq _) (fun _ => stable_eq _) fun w hw => ⟨trivial, fun a w' ha => ?_⟩
    obtain ⟨rfl, rfl⟩ := eq_of_served ha
    exact ⟨rfl, hw.remove hne⟩
  apply Triple.bind (fun _ => rfl) hremove
  intro a
  apply Triple.bind (fun _ => rfl) (does_unlock List.mem_cons_self)
  intro _
  rw [List.erase_cons_head]
  exact triple_pure (stable_eq _) fun w hw => ⟨hw.1, hw.2, rfl⟩

theorem does_unlinkFound {name : Str} (hnodup : ((listing slots).map Dirent.name).Nodup)
    (hfound : findName name (listing slots) = some ino) :
    Does (Under (Kept dir slots) [dir]) (unlinkFound dir name ino b)
      (fun r => UnlinkEnds dir name slots b r) := by
  obtain ⟨pre, s, post, rfl, hpre, hs, rfl⟩ := findName_some hfound
  have hlisted : ⟨s.name, s.inum.toUInt64⟩ ∈ listing (pre ++ s :: post) := by
    rw [listing_append, listing_cons, if_neg hs.1]
    exact List.mem_append_right _ List.mem_cons_self
  have hclear := listing_clear hs hnodup
  -- the entry names an inode that the server has handed out as a file
  intro w h hw
  obtain ⟨hkept, rfl⟩ := hw
  obtain ⟨⟨j, hj⟩, htype⟩ := hkept.files _ hlisted
  have hne : s.inum.toUInt64 ≠ dir := fun he => (hkept.numbers j).2.2 (hj.trans he)
  have hbody : Does (Under (Made dir s.inum.toUInt64 (pre ++ s :: post)) [dir])
      (unlinkFound dir name s.inum.toUInt64 b)
      (fun r => UnlinkEnds dir name (pre ++ s :: post) b r) := by
    unfold unlinkFound
    apply Triple.bind (fun _ => rfl) (does_lock (by simpa using hne))
    intro lr
    apply Triple.assume
    intro hlr
    rw [hlr]
    apply Triple.bind (fun _ => rfl) (does_isdir List.mem_cons_self)
    intro x
    apply Triple.assume
    intro hx
    rw [hx, if_neg Bool.false_ne_true]
    apply Triple.bind (fun _ => rfl) (triple_get (serves_made _) (by simp))
    intro got
    apply Triple.assume
    intro hgot
    obtain ⟨hret, hbuf, hsmall⟩ := hgot
    rw [if_neg (not_not.2 hret), hbuf]
    apply (does_unlinkEntry hpre hs hsmall hne ?_).weaken
    · exact fun w h hw => ⟨hw.1.1, hw.2⟩
    · exact fun r w h hr => .inr ⟨hr.1, _, hclear, hr.2⟩
    · intro d hd
      rw [hclear] at hd
      exact (List.mem_filter.1 hd).1
  exact hbody w _ ⟨⟨hkept, ⟨j, hj⟩, htype⟩, rfl⟩

theorem does_unlink (name : Str) (hnodup : ((listing slots).map Dirent.name).Nodup) :
    Does (Under (Kept dir slots) (between dir b)) (unlink dir name)
      (fun r => UnlinkEnds dir name slots b r) := by
  unfold unlink
  apply Triple.bind (fun _ => rfl) does_enter
  intro lr
  apply Triple.assume
  intro hlr
  rw [hlr]
  apply Triple.bind (fun _ => rfl)
    (triple_lookup_held (fun _ => rfl) serves_kept name List.mem_cons_self)
  intro x
  apply Triple.assume
  intro hx
  rw [hx]
  dsimp only
  rw [if_neg (not_not.2 rfl)]
  cases hfound : findName name (listing slots) with
  | none => exact triple_pure (stable_eq _) fun w hw => .inl ⟨hfound, rfl, hw, rfl⟩
  | some ino => exact does_unlinkFound hnodup hfound

theorem does_readdir : Does (Under (Kept dir slots) (between dir b)) (readdir dir)
    (fun x w h => x = (OK, listing slots) ∧ Under (Kept dir slots) (between dir b) w h) := by
  have hlock : Does (Under (Kept dir slots) (between dir b)) (lock dir) (fun lr w h => lr = b ∧
      ∃ slots', slots' = slots ∧ Under (Kept dir slots') [dir] w h) :=
    does_enter.weaken (fun _ _ h => h) fun lr w h hw => ⟨hw.1, slots, rfl, hw.2⟩
  apply (triple_readdir (fun _ => rfl) serves_kept List.mem_cons_self (fun _ => stable_eq _) hlock
    fun _ _ => does_leave).weaken (fun _ _ h => h)
  intro x w h hw
  obtain ⟨slots', rfl, hx, hw⟩ := hw
  exact ⟨hx, hw⟩

theorem does_lookup (name : Str) : Does (Under (Kept dir slots) (between dir b)) (lookup dir name)
    (fun x w h => x = (OK, findName name (listing slots)) ∧
      Under (Kept dir slots) (between dir b) w h) := by
  have hread : Does (Under (Kept dir slots) (between dir b)) (readdir dir) (fun x w h =>
      ∃ slots', slots' = slots ∧ x = (OK, listing slots') ∧
        Under (Kept dir slots') (between dir b) w h) :=
    does_readdir.weaken (fun _ _ h => h) fun x w h hw => ⟨slots, rfl, hw.1, hw.2⟩
  apply (triple_lookup (fun _ => rfl) (fun _ => stable_eq _) name hread).weaken (fun _ _ h => h)
  intro x w h hw
  obtain ⟨slots', rfl, hx, hw⟩ := hw
  exact ⟨hx, hw⟩

end

/-! ## Histories -/

theorem perform_of_does {α : Type} {P : World → Held → Prop} {p : Op α}
    {R : α → World → Held → Prop} {σ : Session} (hp : Does P p R) (hP : P σ.world σ.held) :
    ∃ a σ', σ.perform p = .ok (a, σ') ∧ R a σ'.world σ'.held := by
  obtain ⟨x, w, hrun, hR⟩ := (hp σ.world σ.held hP).run
  refine ⟨x.1, ⟨w, x.2⟩, ?_, hR⟩
  unfold Session.perform
  rw [hrun]

/-- The directory holds the map `t`. -/
def Holds (dir : Inum) (t : List Dirent) (σ : Session) : Prop :=
  ∃ slots b, Under (Kept dir slots) (between dir b) σ.world σ.held ∧ listing slots = t ∧
    (t.map Dirent.name).Nodup

theorem Kept.scan (h : Kept dir slots w) : scan (fun _ => false) (w.seen dir) =
    (slots.map Slot.entry, .finished (chain slots).length) := by
  have hsmall := h.small
  rw [h.content, scan_chain_finished (by omega) fun _ _ => rfl]

theorem Holds.create {t : List Dirent} {σ : Session} {name : Str} (h : Holds dir t σ)
    (ha : Appends dir σ (.create name)) :
    ∃ d σ', σ.perform (DirOp.program dir (.create name)) = .ok (d, σ') ∧
      Holds dir (d.update t) σ' := by
  obtain ⟨slots, b, hw, rfl, hnodup⟩ := h
  have hfits : findName name (listing slots) = none →
      (∀ s ∈ slots, hasRoom name s.entry = false) ∧
        IsInt ((chain slots).length + (name.length + 12) + 1) := by
    intro hnone
    unfold Appends at ha
    rw [hw.1.scan, hw.1.content] at ha
    obtain ⟨hroom, hsize⟩ := ha hnone
    exact ⟨fun s hs => hroom s.entry (List.mem_map_of_mem hs), hsize⟩
  have hprogram : Does (Under (Kept dir slots) (between dir b)) (DirOp.program dir (.create name))
      (fun d w h => ∃ x, d = .created name x.1 x.2 ∧
        Under (CreateEnds dir name slots x) (between dir b) w h) := by
    apply Triple.bind (fun _ => rfl) (does_create hfits)
    intro x
    exact triple_pure (stable_eq _) fun w hw => ⟨x, rfl, hw, rfl⟩
  obtain ⟨d, σ', hrun, x, rfl, hends, hheld⟩ := perform_of_does hprogram hw
  refine ⟨_, σ', hrun, ?_⟩
  rcases hends with ⟨-, rfl, hkept⟩ | ⟨hnone, ino, slot, rfl, hslot, hkept⟩
  · exact ⟨slots, b, ⟨hkept, hheld⟩, rfl, hnodup⟩
  · have hlist : listing (slots ++ [slot]) = listing slots ++ [⟨name, ino⟩] := by
      rw [listing_append, hslot]
    have hupdate : (Did.created name OK (some ino)).update (listing slots) =
        listing slots ++ [⟨name, ino⟩] := by simp [Did.update]
    refine ⟨slots ++ [slot], b, ⟨hkept, hheld⟩, hlist.trans hupdate.symm, ?_⟩
    rw [hupdate]
    exact nodup_names_snoc ino hnodup hnone

theorem Holds.unlink {t : List Dirent} {σ : Session} (name : Str) (h : Holds dir t σ) :
    ∃ d σ', σ.perform (DirOp.program dir (.unlink name)) = .ok (d, σ') ∧
      Holds dir (d.update t) σ' := by
  obtain ⟨slots, b, hw, rfl, hnodup⟩ := h
  have hprogram : Does (Under (Kept dir slots) (between dir b)) (DirOp.program dir (.unlink name))
      (fun d w h => ∃ r, d = .unlinked name r ∧ UnlinkEnds dir name slots b r w h) := by
    apply Triple.bind (fun _ => rfl) (does_unlink name hnodup)
    intro r
    exact Triple.pure fun w w' h hends hw => ⟨r, rfl, hw ▸ hends⟩
  obtain ⟨d, σ', hrun, r, rfl, hends⟩ := perform_of_does hprogram hw
  refine ⟨_, σ', hrun, ?_⟩
  rcases hends with ⟨-, rfl, hkept⟩ | ⟨rfl, slots', hlist, hkept⟩
  · exact ⟨slots, true, hkept, rfl, hnodup⟩
  · have hupdate : (Did.unlinked name OK).update (listing slots) =
        (listing slots).filter fun d => d.name ≠ name := by simp [Did.update]
    refine ⟨slots', b, hkept, hlist.trans hupdate.symm, ?_⟩
    rw [hupdate]
    exact hnodup.sublist (List.Sublist.map _ List.filter_sublist)

/-- A sequence of calls whose entries are all appended. -/
theorem Holds.play {ops : List DirOp} {t : List Dirent} {σ : Session} (h : Holds dir t σ)
    (hc : Careful dir ops σ) :
    ∃ dids σ', DirectoryHistory.play dir ops σ = .ok (dids, σ') ∧
      Holds dir (dids.foldl Did.update t) σ' := by
  induction ops generalizing t σ with
  | nil => exact ⟨[], σ, rfl, h⟩
  | cons o ops ih =>
    obtain ⟨d, σ', hrun, h'⟩ : ∃ d σ', σ.perform (o.program dir) = .ok (d, σ') ∧
        Holds dir (d.update t) σ' := by
      cases o with
      | create name => exact h.create hc.1
      | unlink name => exact h.unlink name
    have hrest := hc.2
    rw [hrun] at hrest
    obtain ⟨dids, σ'', hplay, h''⟩ := ih h' hrest
    refine ⟨d :: dids, σ'', ?_, h''⟩
    unfold DirectoryHistory.play
    rw [hrun]
    dsimp only [bind, Except.bind]
    rw [hplay]

theorem Careful.take {ops done : List DirOp} {σ : Session} (h : Careful dir ops σ)
    (hd : done <+: ops) : Careful dir done σ := by
  induction done generalizing ops σ with
  | nil => trivial
  | cons o done ih =>
    obtain ⟨rest, rfl⟩ := hd
    refine ⟨h.1, ?_⟩
    have hrest := h.2
    cases hrun : σ.perform (o.program dir) with
    | error e => trivial
    | ok x =>
      rw [hrun] at hrest
      exact ih hrest (List.prefix_append _ _)

theorem findName_iff {name : Str} {ino : Inum} {ds : List Dirent}
    (h : (ds.map Dirent.name).Nodup) : findName name ds = some ino ↔ ⟨name, ino⟩ ∈ ds := by
  induction ds with
  | nil => simp [findName]
  | cons d ds ih =>
    obtain ⟨hd, hds⟩ := List.nodup_cons.1 h
    by_cases hn : d.name = name
    · have hnot : (⟨name, ino⟩ : Dirent) ∉ ds := fun hm => hd (hn ▸ List.mem_map_of_mem hm)
      obtain ⟨n, i⟩ := d
      obtain rfl : n = name := hn
      simp [findName, hnot, eq_comm]
    · have hfind : findName name (d :: ds) = findName name ds := by simp [findName, hn]
      have hne : (⟨name, ino⟩ : Dirent) ≠ d := fun he => hn (he ▸ rfl)
      rw [hfind, ih hds, List.mem_cons]
      exact ⟨.inr, fun hm => hm.resolve_left hne⟩

theorem Start.holds {σ : Session} (h : Start dir σ) : Holds dir [] σ := by
  refine ⟨[dummy], false, ⟨⟨?_, by decide, h.numbers, ?_, ?_⟩, h.held⟩, rfl, List.nodup_nil⟩
  · rw [h.content, newdir_eq]
  · intro j a ha
    rw [h.unknown j] at ha
    simp at ha
  · intro d hd
    have hnil : listing [dummy] = [] := rfl
    rw [hnil] at hd
    simp at hd

/-- After every call of a sequence whose entries are all appended, the directory parses,
`readdir` lists each entry that was created and not removed since exactly once, and `lookup`
finds just those. -/
theorem directory_faithful (dir : Inum) (σ : Session) (hstart : Start dir σ) (ops : List DirOp)
    (hcareful : Careful dir ops σ) (done : List DirOp) (hdone : done <+: ops) :
    ∃ dids σ', play dir done σ = .ok (dids, σ') ∧
      (∃ ds, listDir (σ'.world.seen dir) = .ok ds) ∧
      ((table dids).map Dirent.name).Nodup ∧
      (∃ σ'', σ'.perform (readdir dir) = .ok ((OK, table dids), σ'')) ∧
      ∀ name, ∃ found σ'', σ'.perform (lookup dir name) = .ok ((OK, found), σ'') ∧
        ∀ ino, found = some ino ↔ ⟨name, ino⟩ ∈ table dids := by
  obtain ⟨dids, σ', hplay, slots, b, hkept, hlist, hnodup⟩ := hstart.holds.play (hcareful.take hdone)
  refine ⟨dids, σ', hplay, ⟨listing slots, ?_⟩, hnodup, ?_, ?_⟩
  · rw [hkept.1.content, listDir_chain hkept.1.small]
  · obtain ⟨x, σ'', hrun, hx, -⟩ := perform_of_does does_readdir hkept
    rw [hx, hlist] at hrun
    exact ⟨σ'', hrun⟩
  · intro name
    obtain ⟨x, σ'', hrun, hx, -⟩ := perform_of_does (does_lookup name) hkept
    rw [hx, hlist] at hrun
    exact ⟨findName name (table dids), σ'', hrun, fun ino => findName_iff hnodup⟩

/-- A client that has not done anything yet, and a server with the empty directory 1. -/
def newSession : Session where
  world :=
    { store :=
        { attr := fun _ => { type := typeDir }
          content := fun _ => newdir
          supply := fun j => if j = 0 then 2 else if j = 1 then 3 else 4 } }

theorem newSession_start : Start 1 newSession := by
  refine ⟨rfl, rfl, fun _ => rfl, fun j => ?_⟩
  simp only [newSession]
  split_ifs <;> decide

/-- Two files are created, one is removed and another one created. -/
theorem directory_faithful_short_names :
    Start 1 newSession ∧
      ∃ dids σ', play 1 [.create [97], .create [98], .unlink [97], .create [99]] newSession =
          .ok (dids, σ') ∧
        (∃ ds, listDir (σ'.world.seen 1) = .ok ds) ∧
        ((table dids).map Dirent.name).Nodup ∧
        (∃ σ'', σ'.perform (readdir 1) = .ok ((OK, table dids), σ'')) ∧
        ∀ name, ∃ found σ'', σ'.perform (lookup 1 name) = .ok ((OK, found), σ'') ∧
          ∀ ino, found = some ino ↔ ⟨name, ino⟩ ∈ table dids :=
  ⟨newSession_start, directory_faithful 1 newSession newSession_start
    [.create [97], .create [98], .unlink [97], .create [99]] (by decide +kernel) _
    (List.prefix_refl _)⟩

/-- A file with a name of 20 bytes is created and removed, and another one takes its place:
every call succeeds, and then the directory cannot be read any more. -/
theorem directory_ruined :
    (play 1 [.create (.replicate 20 97), .unlink (.replicate 20 97), .create [98]] newSession).map
        (fun x => x.1) =
      .ok [.created (.replicate 20 97) OK (some 2), .unlinked (.replicate 20 97) OK,
        .created [98] OK (some 3)] ∧
    (play 1 [.create (.replicate 20 97), .unlink (.replicate 20 97), .create [98]] newSession >>=
        fun x => (x.2.perform (readdir 1)).map fun y => y.1) = .error .assertion := by
  decide +kernel

end Yfs.DirectoryHistory
