import Yfs.DirectoryHistory
import Yfs.DirectoryParsing
import Yfs.ExtentRefinement

/-!
# `create` on the inodes of the server

A client with its caches in front of the disk of the extent server. The number 0 with which the server
says that it has no free inode is taken for an inode number by everybody else.
-/

namespace Yfs.InodeExhaustion
open ByteLayout LabelledRuns LockProtocol ExtentClient DirectoryFormat DirectoryParsing YfsClient
open ServedOperations InodeTable
open BlockManager (Disk inodeNum)
open InodeManager (Env Request handle inumOf newInode)
open BlockOwnership (Inv)
open ExtentRequests (Fresh Step)
open ExtentRefinement (Files files newFile)
open DirectoryOps (findName_eq_none writeAt_patch sizeT_of_lt grown_of_le listDir_of_lt)

/-- A client and the disk of its server, which has served a number of requests. -/
structure Site where
  caches : Caches := {}
  disk : Disk
  requests : ℕ := 0

namespace Site

/-- A remote call; when the server dies, it fails. -/
def ask (env : ℕ → Env) (req : Request) (s : Site) : Site × Reply :=
  match BlockManager.exec (handle (env s.requests) req) s.disk with
  | .ok (rep, d) => ({ s with disk := d, requests := s.requests + 1 }, rep)
  | .error _ => ({ s with requests := s.requests + 1 }, { ret := -1 })

def serve (env : ℕ → Env) : Call → Site → Site × Reply
  | .acquire _, s | .release _, s => (s, {})
  | .get i, s =>
    match s.caches.bcache i with
    | some e => (s, { buf := e.buf })
    | none =>
      let (s', r) := s.ask env (.get i)
      ({ s' with caches := s'.caches.getAnswered i r }, r)
  | .put i buf, s => ({ s with caches := s.caches.put i buf }, {})
  | .getattr i, s =>
    match s.caches.acache i with
    | some a => (s, { attr := a })
    | none =>
      let (s', r) := s.ask env (.getattr i)
      ({ s' with caches := s'.caches.getattrAnswered i r }, r)
  | .remove i, s => ({ s with caches := s.caches.remove i }, {})
  | .create type, s => s.ask env (.create type)

theorem grants (env : ℕ → Env) : Grants (serve env) := ⟨fun _ _ => rfl, fun _ _ => rfl⟩

/-- The content of an extent as the client sees it. -/
def seen (env : ℕ → Env) (s : Site) (i : Inum) : Str := (serve env (.get i) s).2.buf

end Site

/-! ## Entering a name into any content -/

/-- An entry of that name can be put where the loop of `create` ends: at the end of the directory, or
into a record with enough slack, if that does not start in the first four bytes. -/
def FitsAt (name : Str) : ScanEnd → Prop
  | .stopped pos _ => 4 ≤ pos ∧ IsInt (name.length % 2 ^ 32 + 16)
  | _ => IsInt (name.length % 2 ^ 32 + 12)

instance (name : Str) : (fin : ScanEnd) → Decidable (FitsAt name fin)
  | .stopped _ _ => inferInstanceAs (Decidable (_ ∧ _))
  | .finished _ | .failed | .outside | .hangs => inferInstanceAs (Decidable (_ < _))

/-- The same for the records of a content, the first of which with enough slack counts. -/
def EntryFits (buf name : Str) : Prop :=
  FitsAt name (firstStop (hasRoom name) 0 (scan (fun _ => false) buf).1)

variable {buf name : Str} {ino : Inum}

theorem scanFrom_false {fuel pos : ℕ} {p : Str} {remain : ℤ} {q : ℕ} {e : Entry} :
    (scanFrom (fun _ => false) fuel p remain pos).2 ≠ .stopped q e := by
  induction fuel generalizing p remain pos with
  | zero => simp [scanFrom]
  | succ fuel ih =>
    rw [scanFrom]
    cases parsedir p remain with
    | finished | failed | outside => simp
    | entry e next remain' =>
      simp only [Bool.false_eq_true, if_false]
      by_cases hzero : e.entrylen = 0
      · simp [hzero]
      · simp only [hzero, if_false]
        exact ih

theorem listed_finished {x : List Entry × ScanEnd} {ds : List Dirent} (h : listed x = .ok ds)
    (hstop : ∀ q e, x.2 ≠ .stopped q e) : ∃ es q, x = (es, .finished q) := by
  obtain ⟨es, fin⟩ := x
  cases fin with
  | finished q => exact ⟨es, q, rfl⟩
  | stopped q e => exact absurd rfl (hstop q e)
  | failed | outside | hangs => cases h

/-- What can be listed can be read to the end, and the loops that stop early end at the first record
they look for. -/
theorem scan_firstStop {ds : List Dirent} (hlen : IsInt (buf.length + 1))
    (h : listDir buf = .ok ds) (stop : Entry → Bool) :
    (scan stop buf).2 = firstStop stop 0 (scan (fun _ => false) buf).1 ∧
      EndsBy buf.length (firstStop stop 0 (scan (fun _ => false) buf).1) := by
  rw [listDir_of_lt hlen] at h
  obtain ⟨es, q, hq⟩ := listed_finished h fun _ _ => scanFrom_false
  rw [hq]
  unfold scan at hq ⊢
  rw [int32_of_lt (by omega) (by omega)] at hq ⊢
  have := scanFrom_firstStop stop (by omega) hq
  rwa [Nat.zero_add] at this

theorem length_filldir {inum newnamelen entrylen preventrylen : UInt32} {ncstr : Str}
    (h : filldir inum newnamelen entrylen name preventrylen = some ncstr) :
    ncstr.length ≤ 16 + newnamelen.toNat ∧ IsInt newnamelen.toNat := by
  unfold filldir at h
  by_cases hprev : preventrylen = 0
  · simp only [hprev, if_true, Option.ite_none_right_eq_some, Option.some.injEq] at h
    obtain ⟨hsmall, rfl⟩ := h
    refine ⟨?_, by omega⟩
    simp
    omega
  · simp only [hprev, if_false, Option.ite_none_right_eq_some, Option.some.injEq] at h
    obtain ⟨hsmall, rfl⟩ := h
    refine ⟨?_, by omega⟩
    simp
    omega

/-- An offset in front of the string is beyond its end. -/
theorem writeAt_negative {data : Str} {off : ℤ} (hneg : off < 0) (hoff : -4 ≤ off)
    (hbuf : IsInt buf.length) :
    ∃ e, writeAt buf off data = .error e := by
  have hmax : maxSize = 2 ^ 63 - 1 := rfl
  have hstart : 2 ^ 64 - 4 ≤ sizeT off := by
    unfold sizeT
    omega
  unfold writeAt
  dsimp only
  generalize hend : sizeT (off + data.length) = n
  by_cases hn : n ≤ maxSize
  · rw [grown_of_le buf hn]
    refine ⟨.exception, ?_⟩
    change (if _ then _ else _) = _
    rw [if_pos]
    rw [List.length_append, List.length_replicate]
    omega
  · have hgrow : grown buf n = .error .exception := by
      unfold grown resize
      rw [if_pos (by omega), if_pos (by omega)]
    rw [hgrow]
    exact ⟨_, rfl⟩

theorem toNat_namelen (name : Str) :
    (UInt32.ofNat name.length).toNat = name.length % 2 ^ 32 := UInt32.toNat_ofNat'

theorem placed_fits {fin : ScanEnd} (hlen : IsInt buf.length) (hends : EndsBy buf.length fin)
    (h : FitsAt name fin) (ino : Inum) :
    ∃ x y, placed name ino fin = .ok x ∧ writeAt buf x.1 x.2 = .ok y := by
  have hmax : maxSize = 2 ^ 63 - 1 := rfl
  have hnat := toNat_namelen name
  cases fin with
  | finished pos =>
    obtain rfl : pos = buf.length := hends
    have hname : IsInt (name.length % 2 ^ 32 + 12) := h
    obtain ⟨ncstr, hfill⟩ : ∃ ncstr, filldir ino.toUInt32 (.ofNat name.length)
        (.ofNat name.length + 12) name 0 = some ncstr :=
      ⟨_, if_pos (by rw [hnat, if_pos rfl]; omega)⟩
    have hwrite := length_filldir hfill
    refine ⟨(buf.length, ncstr), _, ?_, writeAt_patch _ (by dsimp only; omega)⟩
    simp only [placed, hfill]
  | stopped pos e =>
    obtain ⟨hpos, hname⟩ := h
    have hin : pos + (e.filelen.toNat + 12) ≤ buf.length := hends
    obtain ⟨ncstr, hfill⟩ : ∃ ncstr, filldir ino.toUInt32 (.ofNat name.length)
        (e.entrylen - e.filelen - 12) name (e.filelen + 12) = some ncstr := by
      refine ⟨_, if_pos ?_⟩
      rw [hnat]
      split <;> omega
    have hwrite := length_filldir hfill
    have hoff : ((pos - 4 : ℕ) : ℤ) = (pos : ℤ) - 4 := by omega
    refine ⟨(((pos - 4 : ℕ) : ℤ), ncstr), _, ?_, writeAt_patch _ (by dsimp only; omega)⟩
    simp only [placed, hfill, hoff]
  | failed | outside | hangs => exact hends.elim

theorem placed_fails {fin : ScanEnd} {x : ℤ × Str} (hlen : IsInt buf.length)
    (hends : EndsBy buf.length fin) (h : ¬FitsAt name fin) (hx : placed name ino fin = .ok x) :
    ∃ e, writeAt buf x.1 x.2 = .error e := by
  have hnat := toNat_namelen name
  cases fin with
  | finished pos =>
    have hname : ¬IsInt (name.length % 2 ^ 32 + 12) := h
    have hfill : filldir ino.toUInt32 (.ofNat name.length) (.ofNat name.length + 12) name 0 = none :=
      if_neg (by rw [hnat, if_pos rfl]; omega)
    simp only [placed, hfill] at hx
    cases hx
  | stopped pos e =>
    have hin : pos + (e.filelen.toNat + 12) ≤ buf.length := hends
    by_cases hname : IsInt (name.length % 2 ^ 32 + 16)
    · have hpos : pos < 4 := by
        by_contra hge
        exact h ⟨by omega, hname⟩
      unfold placed at hx
      dsimp only at hx
      split at hx
      next =>
        cases hx
        exact writeAt_negative (by dsimp only; omega) (by dsimp only; omega) hlen
      next => cases hx
    · have hprev : e.filelen + 12 ≠ 0 := by
        intro hz
        have hsum := congrArg UInt32.toNat hz
        rw [UInt32.toNat_add] at hsum
        have h12 : (12 : UInt32).toNat = 12 := rfl
        have h0 : (0 : UInt32).toNat = 0 := rfl
        omega
      have hfill : filldir ino.toUInt32 (.ofNat name.length) (e.entrylen - e.filelen - 12) name
          (e.filelen + 12) = none := if_neg (by rw [hnat, if_neg hprev]; omega)
      simp only [placed, hfill] at hx
      cases hx
  | failed | outside | hangs => exact hends.elim

/-! ## The calls -/

variable {env : ℕ → Env} {s : Site} {parent i : Inum} {type : UInt32} {h : Held}

theorem serve_get_cached (env : ℕ → Env) {e : BufferCacheEntry} (h : s.caches.bcache i = some e) :
    s.serve env (.get i) = (s, { buf := e.buf }) := by
  simp [Site.serve, h]

/-- A `get` that succeeds leaves the content in the cache and the files as they are. -/
theorem get_effect (hinv : Inv s.disk) (hret : (s.serve env (.get i)).2.ret = OK) :
    (∃ e, (s.serve env (.get i)).1.caches.bcache i = some e ∧ e.buf = s.seen env i) ∧
      files (s.serve env (.get i)).1.disk = files s.disk ∧ Inv (s.serve env (.get i)).1.disk := by
  unfold Site.seen
  cases hb : s.caches.bcache i with
  | some e =>
    rw [serve_get_cached env hb]
    exact ⟨⟨e, hb, rfl⟩, rfl, hinv⟩
  | none =>
    cases hx : BlockManager.exec (handle (env s.requests) (.get i)) s.disk with
    | error e => simp [Site.serve, hb, Site.ask, hx, OK] at hret
    | ok x =>
      obtain ⟨rep, d⟩ := x
      have heffect := ExtentRequests.get_effect hinv hx
      have hstep : Step s.disk (.get i, rep) d := ⟨_, hx⟩
      simp only [Site.serve, hb, Site.ask, hx] at hret ⊢
      refine ⟨?_, ?_, ExtentRequests.Inv.step hinv hstep⟩
      · simp [Caches.getAnswered, Caches.setEntry, show rep.ret = statusOk from hret]
      · rcases heffect with ⟨hlive, -, -, htouched⟩ | ⟨-, -, rfl⟩
        · exact ExtentRefinement.files_touched hinv hlive htouched
        · rfl

/-- The server takes the first free inode, or answers 0. -/
theorem create_effect (env : ℕ → Env) (s : Site) (type : UInt32) :
    (s.serve env (.create type)).1.caches = s.caches ∧
      ((∃ m, 0 < m ∧ m < inodeNum ∧ files s.disk m = none ∧
        (s.serve env (.create type)).2 = { id := UInt64.ofNat m } ∧
        files (s.serve env (.create type)).1.disk m = newFile type) ∨
      (∀ k, 0 < k → k < inodeNum → files s.disk k ≠ none) ∧
        (s.serve env (.create type)).2 = { id := 0 }) := by
  rcases exec_allocInode (env s.requests) type.toNat s.disk with ⟨m, hpos, hlt, hfree, -, hx⟩ | ⟨hall, hx⟩
  · have hexec : BlockManager.exec (handle (env s.requests) (.create type)) s.disk =
        .ok ({ id := UInt64.ofNat m },
          setInode s.disk m (newInode (env s.requests) type.toNat (inodeOf s.disk m))) :=
      BlockManager.exec_then hx
    simp only [Site.serve, Site.ask, hexec]
    exact ⟨trivial, .inl ⟨m, hpos, hlt, ExtentRefinement.files_not_live hfree, rfl,
      ExtentRefinement.files_newInode type hlt⟩⟩
  · have hexec : BlockManager.exec (handle (env s.requests) (.create type)) s.disk =
        .ok ({ id := 0 }, s.disk) := BlockManager.exec_then hx
    simp only [Site.serve, Site.ask, hexec]
    exact ⟨trivial, .inr ⟨fun k h₁ h₂ => ExtentRefinement.files_ne_none.2 (hall k h₁ h₂), trivial⟩⟩

theorem toNat_inum {m : ℕ} (h : m < inodeNum) : (UInt64.ofNat m).toNat = m :=
  UInt64.toNat_ofNat_of_lt' (h.trans (by decide))

theorem inumOf_inum {m : ℕ} (h : m < inodeNum) : inumOf (UInt64.ofNat m) = m :=
  ExtentRequests.inumOf_ofNat (h.trans (by decide))

/-- The parent does not get the number of the new inode. -/
theorem create_ne_parent (env : ℕ → Env) (type : UInt32) (hinv : Inv s.disk)
    (hparent : files s.disk (inumOf parent) ≠ none) :
    (s.serve env (.create type)).2.id ≠ parent := by
  rintro rfl
  rcases (create_effect env s type).2 with ⟨m, -, hlt, hfree, hrep, -⟩ | ⟨-, hrep⟩
  · rw [hrep, inumOf_inum hlt] at hparent
    exact hparent hfree
  · rw [hrep] at hparent
    exact hinv.zero (ExtentRefinement.files_ne_none.1 hparent)

/-! ## The end of `create` -/

/-- The content of the parent is in the cache when the entry is made. -/
theorem exec_link_cached {e : BufferCacheEntry} (hb : s.caches.bcache parent = some e) :
    exec (Site.serve env) (link parent name ino (decide (parent ∈ h))) (entered parent h) s =
      (placeEntry e.buf name ino).bind fun x => (writeAt e.buf x.1 x.2).bind fun y =>
        .ok ((OK, h), { s with caches := s.caches.put parent y.1 }) := by
  have hget := serve_get_cached env hb
  rw [exec_link (Site.grants env) (by rw [hget]; rfl) (by rw [hget, hget]; rfl), hget, hget]
  rfl

variable {ds : List Dirent}

/-- The site before the entry is made. -/
def prepared (env : ℕ → Env) (s : Site) (parent : Inum) (type : UInt32) : Site :=
  let made := (s.serve env (.get parent)).1.serve env (.create type)
  if type = typeDir then (made.1.serve env (.put made.2.id newdir)).1 else made.1

/-- The number that the server has answered. -/
def madeId (env : ℕ → Env) (s : Site) (parent : Inum) (type : UInt32) : Inum :=
  ((s.serve env (.get parent)).1.serve env (.create type)).2.id

theorem prepared_disk : (prepared env s parent type).disk =
    ((s.serve env (.get parent)).1.serve env (.create type)).1.disk := by
  unfold prepared
  dsimp only
  split
  · rfl
  · rfl

theorem exec_create_site (hret : (s.serve env (.get parent)).2.ret = OK)
    (hlist : listDir (s.seen env parent) = .ok ds) (hname : name ∉ ds.map Dirent.name) :
    exec (Site.serve env) (YfsClient.create parent name type) h s =
      (exec (Site.serve env) (link parent name (madeId env s parent type) (decide (parent ∈ h)))
        (entered parent h) (prepared env s parent type)).bind fun x =>
        .ok (((x.1.1, some (madeId env s parent type)), x.1.2), x.2) := by
  refine exec_create (Site.grants env) hret hlist (findName_eq_none.2 hname) ?_ fun _ _ => rfl
  rcases (create_effect env (s.serve env (.get parent)).1 type).2 with ⟨m, -, -, -, hrep, -⟩ | ⟨-, hrep⟩
  · rw [hrep]
    rfl
  · rw [hrep]
    rfl

section
variable (hinv : Inv s.disk) (hparent : files s.disk (inumOf parent) ≠ none)
  (hret : (s.serve env (.get parent)).2.ret = OK)
include hinv hparent hret

/-- The parent is still cached, whatever was put into a new directory. -/
theorem prepared_cached (type : UInt32) :
    ∃ e, (prepared env s parent type).caches.bcache parent = some e ∧ e.buf = s.seen env parent := by
  obtain ⟨⟨e, hb, hbuf⟩, hfiles, hinv₁⟩ := get_effect hinv hret
  rw [← hfiles] at hparent
  have hne := create_ne_parent env type hinv₁ hparent
  have hcaches := (create_effect env (s.serve env (.get parent)).1 type).1
  refine ⟨e, ?_, hbuf⟩
  rw [← hb, ← hcaches]
  unfold prepared
  dsimp only
  split
  · exact Function.update_of_ne hne.symm ..
  · rfl

variable (hlen : IsInt ((s.seen env parent).length + 1))
  (hlist : listDir (s.seen env parent) = .ok ds) (hname : name ∉ ds.map Dirent.name)
include hlen hlist hname

theorem create_fits (type : UInt32) (h : Held) (hfits : EntryFits (s.seen env parent) name) :
    ∃ s', exec (Site.serve env) (YfsClient.create parent name type) h s =
        .ok (((OK, some (madeId env s parent type)), h), s') ∧
      s'.disk = (prepared env s parent type).disk := by
  obtain ⟨e, hb, hbuf⟩ := prepared_cached hinv hparent hret type
  obtain ⟨hscan, hends⟩ := scan_firstStop hlen hlist (hasRoom name)
  obtain ⟨x, y, hx, hy⟩ := placed_fits (by omega) hends hfits (madeId env s parent type)
  rw [← hscan] at hx
  rw [exec_create_site hret hlist hname, exec_link_cached hb, hbuf]
  unfold placeEntry
  rw [copied_of_lt hlen, ok_bind, hx, ok_bind, hy, ok_bind, ok_bind]
  exact ⟨_, rfl, rfl⟩

theorem create_dies (type : UInt32) (h : Held) (hfits : ¬EntryFits (s.seen env parent) name) :
    ∃ e, exec (Site.serve env) (YfsClient.create parent name type) h s = .error e := by
  obtain ⟨e, hb, hbuf⟩ := prepared_cached hinv hparent hret type
  obtain ⟨hscan, hends⟩ := scan_firstStop hlen hlist (hasRoom name)
  rw [exec_create_site hret hlist hname, exec_link_cached hb, hbuf]
  unfold placeEntry
  rw [copied_of_lt hlen, ok_bind, hscan]
  cases hx : placed name (madeId env s parent type) (firstStop (hasRoom name) 0
      (scan (fun _ => false) (s.seen env parent)).1) with
  | error e => exact ⟨e, rfl⟩
  | ok x =>
    obtain ⟨e, he⟩ := placed_fails (by omega) hends hfits hx
    rw [ok_bind, he]
    exact ⟨e, rfl⟩

end

/-! ## The result -/

/-- What `create` has to come to: a fresh inode of the type, or an error and nothing entered. -/
def Sound (env : ℕ → Env) (s s' : Site) (parent : Inum) (type : UInt32) (r : Status)
    (ino : Option Inum) : Prop :=
  (r = OK ∧ ∃ i, ino = some i ∧ 1 ≤ i.toNat ∧ i.toNat ≤ 1023 ∧ files s.disk i.toNat = none ∧
    ∃ buf, files s'.disk i.toNat = some (type, buf)) ∨
  (r ≠ OK ∧ s'.seen env parent = s.seen env parent)

theorem newFile_content {buf : Str} (h : newFile type = some (type, buf)) : buf = [] := by
  unfold newFile at h
  dsimp only at h
  split at h
  · cases h
  · simp only [Option.some.injEq, Prod.mk.injEq] at h
    exact h.2.symm

/-- In every state of the server and for every content that can be read, `create` of a new name is
sound exactly when an inode is free, the type survives in a `short`, and the entry can be made. -/
theorem create_fresh_iff (env : ℕ → Env) (s : Site) (parent : Inum) (name : Str) (type : UInt32)
    (h : Held) {d₀ : Disk} {tr : List (Request × Reply)} (hf : Fresh d₀)
    (hr : Run Step d₀ tr s.disk) (hparent : files s.disk (inumOf parent) ≠ none)
    (hret : (s.serve env (.get parent)).2.ret = OK)
    (hlen : IsInt ((s.seen env parent).length + 1))
    (hlist : listDir (s.seen env parent) = .ok ds) (hname : name ∉ ds.map Dirent.name) :
    (∃ r ino h' s', exec (Site.serve env) (YfsClient.create parent name type) h s =
        .ok (((r, ino), h'), s') ∧ Sound env s s' parent type r ino) ↔
      (∃ m, 0 < m ∧ m < inodeNum ∧ files s.disk m = none) ∧ newFile type = some (type, []) ∧
        EntryFits (s.seen env parent) name := by
  have hinv := ExtentRequests.run_inv hf hr
  obtain ⟨-, hfiles, -⟩ := get_effect hinv hret
  have hcreate := (create_effect env (s.serve env (.get parent)).1 type).2
  rw [hfiles] at hcreate
  by_cases hfits : EntryFits (s.seen env parent) name
  · obtain ⟨s', hexec, hdisk⟩ :=
      create_fits hinv hparent hret hlen hlist hname type h hfits
    rw [prepared_disk] at hdisk
    rw [hexec]
    simp only [hfits, and_true]
    constructor
    · rintro ⟨r, ino, h', s'', hx, hsound⟩
      cases hx
      obtain ⟨-, i, hi, hpos, -, -, buf, hfile⟩ | ⟨hr, -⟩ := hsound
      · cases hi
        unfold madeId at hpos hfile
        rcases hcreate with ⟨m, h₁, h₂, hfree, hrep, hnew⟩ | ⟨-, hrep⟩
        · rw [hdisk, hrep, toNat_inum h₂, hnew] at hfile
          obtain rfl := newFile_content hfile
          exact ⟨⟨m, h₁, h₂, hfree⟩, hfile⟩
        · rw [hrep] at hpos
          exact absurd hpos (by decide)
      · exact absurd rfl hr
    · rintro ⟨⟨m, h₁, h₂, hfree⟩, htype⟩
      refine ⟨_, _, _, _, rfl, .inl ⟨rfl, _, rfl, ?_⟩⟩
      unfold madeId
      rcases hcreate with ⟨k, hk₁, hk₂, hk, hrep, hnew⟩ | ⟨hall, -⟩
      · rw [hrep, toNat_inum hk₂, hdisk, hnew]
        exact ⟨hk₁, Nat.le_of_lt_succ hk₂, hk, [], htype⟩
      · exact absurd hfree (hall m h₁ h₂)
  · obtain ⟨e, hexec⟩ :=
      create_dies hinv hparent hret hlen hlist hname type h hfits
    rw [hexec]
    simp [hfits]

/-! ## A new server and a full one -/

def env₀ (_ : ℕ) : Env := { now := 0, junk := Vector.replicate _ 0, pad := fun _ => 0 }

/-- A client that has the empty root directory in its cache. -/
def rootCached (d : Disk) : Site :=
  { caches := { bcache := fun _ => some { buf := newdir } }, disk := d }

theorem length_newdir : IsInt (newdir.length + 1) := by decide

theorem listDir_newdir : listDir newdir = .ok [] := by decide +kernel

theorem entryFits_newdir : EntryFits newdir [102] := by
  unfold EntryFits
  decide +kernel

theorem fresh_exists : ∃ d, Fresh d := ⟨_, env₀ 0, ExtentRequests.newServer_eq (env₀ 0)⟩

theorem create_fresh_new_server :
    ∃ d r ino h' s', Fresh d ∧ exec (Site.serve env₀) (YfsClient.create 1 [102] typeFile) []
        (rootCached d) = .ok (((r, ino), h'), s') ∧
      Sound env₀ (rootCached d) s' 1 typeFile r ino := by
  obtain ⟨d, hf⟩ := fresh_exists
  have hlive : files d 1 ≠ none := ExtentRefinement.files_ne_none.2 (hf.live_iff.2 rfl)
  have hfree : files d 2 = none :=
    ExtentRefinement.files_not_live fun h => absurd (hf.live_iff.1 h) (by decide)
  obtain ⟨r, ino, h', s', hexec, hsound⟩ :=
    (create_fresh_iff env₀ (rootCached d) 1 [102] typeFile [] hf .nil hlive rfl length_newdir
      listDir_newdir List.not_mem_nil).2 ⟨⟨2, by decide, by decide, hfree⟩, by decide, entryFits_newdir⟩
  exact ⟨d, r, ino, h', s', hf, hexec, hsound⟩

/-- One `create` after the other fills the inode table. -/
theorem full_reachable (d₀ : Disk) (n : ℕ) :
    ∃ tr d, Run Step d₀ tr d ∧ ∀ k, 0 < k → k ≤ n → k < inodeNum → Live d k := by
  induction n with
  | zero => exact ⟨[], d₀, .nil, fun k h₁ h₂ => by omega⟩
  | succ n ih =>
    obtain ⟨tr, d, hr, hlive⟩ := ih
    rcases exec_allocInode (env₀ 0) typeFile.toNat d with ⟨m, hpos, hlt, hfree, hleast, hx⟩ | ⟨hall, -⟩
    · have hstep : Step d (.create typeFile, { id := UInt64.ofNat m })
          (setInode d m (newInode (env₀ 0) typeFile.toNat (inodeOf d m))) :=
        ⟨env₀ 0, BlockManager.exec_then hx⟩
      have hrewrites : BlockOwnership.Rewrites d
          (setInode d m (newInode (env₀ 0) typeFile.toNat (inodeOf d m))) m :=
        FileWrites.rewrites_newInode hfree hlt hpos.ne'
      refine ⟨_, _, hr.snoc hstep, fun k h₁ h₂ h₃ => ?_⟩
      by_cases hk : k = m
      · subst hk
        apply ExtentRefinement.files_ne_none.1
        rw [ExtentRefinement.files_newInode typeFile hlt]
        decide
      · refine (BlockOwnership.Rewrites.live_iff hrewrites hk).2 ?_
        -- inode `n + 1` was live already, unless it is the one that was free
        by_cases hkn : k ≤ n
        · exact hlive k h₁ hkn h₃
        · refine hleast k h₁ ?_
          by_contra hge
          exact hfree (hlive m hpos (by omega) hlt)
    · exact ⟨tr, d, hr, fun k h₁ _ h₃ => hall k h₁ h₃⟩

/-- When all inodes are live, `create` returns OK and inode 0, and makes an entry. -/
theorem create_without_inode :
    ∃ d₀ tr d s', Fresh d₀ ∧ Run Step d₀ tr d ∧ (∀ k, 0 < k → k < inodeNum → Live d k) ∧
      exec (Site.serve env₀) (YfsClient.create 1 [102] typeFile) [] (rootCached d) =
        .ok (((OK, some 0), []), s') := by
  obtain ⟨d₀, hf⟩ := fresh_exists
  obtain ⟨tr, d, hr, hlive⟩ := full_reachable d₀ inodeNum
  have hall : ∀ k, 0 < k → k < inodeNum → Live d k := fun k h₁ h₂ => hlive k h₁ h₂.le h₂
  have hroot : files (rootCached d).disk (inumOf 1) ≠ none :=
    ExtentRefinement.files_ne_none.2 (hall 1 (by decide) (by decide))
  have hinv : Inv (rootCached d).disk := ExtentRequests.run_inv hf hr
  have hlist : listDir ((rootCached d).seen env₀ 1) = .ok [] := listDir_newdir
  obtain ⟨s', hexec, -⟩ := create_fits hinv hroot rfl length_newdir hlist List.not_mem_nil typeFile []
    entryFits_newdir
  have hid : madeId env₀ (rootCached d) 1 typeFile = 0 := by
    rcases (create_effect env₀ (rootCached d) typeFile).2 with ⟨m, h₁, h₂, hfree, -⟩ | ⟨-, hrep⟩
    · exact absurd hfree (ExtentRefinement.files_ne_none.2 (hall m h₁ h₂))
    · exact congrArg Reply.id hrep
  rw [hid] at hexec
  exact ⟨d₀, tr, d, s', hf, hr, hall, hexec⟩

end Yfs.InodeExhaustion
