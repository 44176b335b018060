import Yfs.InodeExhaustion

/-!
# The type of a cached extent

One extent client works on the extents it has created. The server keeps the type of an extent in its
inode, but `put` makes up attributes when it finds none in the cache, and these have no type.
-/

namespace Yfs.CachedTypes
open LabelledRuns LockProtocol ExtentClient YfsClient ServedOperations InodeTable
open BlockManager (Disk)
open InodeManager (Env Request handle inumOf inoType)
open BlockOwnership (Inv)
open ExtentRequests (Effect Step)
open ExtentRefinement (reported newFile)
open InodeExhaustion (Site)

/-- `flush`, with its remote call. -/
def flush (env : ℕ → Env) (eid : ExtentId) (s : Site) : Site :=
  match s.caches.bcache eid with
  | none => s
  | some e =>
    let s' := { s with caches := s.caches.flush eid }
    if e.deleted then (s'.ask env (.remove eid)).1
    else if e.dirty then (s'.ask env (.put eid e.buf)).1
    else s'

/-- The calls that name an extent. -/
inductive Use where
  | get (eid : ExtentId)
  | put (eid : ExtentId) (buf : Str)
  | getattr (eid : ExtentId)
  | flush (eid : ExtentId)
  deriving DecidableEq, Repr

namespace Use

def eid : Use → ExtentId
  | get eid | put eid _ | getattr eid | flush eid => eid

def serve (env : ℕ → Env) : Use → Site → Site × Reply
  | get eid, s => s.serve env (.get eid)
  | put eid buf, s => s.serve env (.put eid buf)
  | getattr eid, s => s.serve env (.getattr eid)
  | flush eid, s => (CachedTypes.flush env eid s, {})

/-- The request that a call sends to the server. -/
def request (s : Site) : Use → Option Request
  | get eid => if (s.caches.bcache eid).isSome then none else some (.get eid)
  | put _ _ => none
  | getattr eid => if (s.caches.acache eid).isSome then none else some (.getattr eid)
  | flush eid =>
    match s.caches.bcache eid with
    | none => none
    | some e =>
      if e.deleted then some (.remove eid) else if e.dirty then some (.put eid e.buf) else none

/-- The server does not die of the request. -/
def Answered (env : ℕ → Env) (s : Site) (u : Use) : Prop :=
  ∀ req, u.request s = some req →
    ∃ rep d, BlockManager.exec (handle (env s.requests) req) s.disk = .ok (rep, d)

end Use

/-- An extent client, its server, and the extents that it has created. -/
structure Owner where
  site : Site
  owned : List ExtentId := []

inductive Event where
  | created (type : UInt32) (id : ExtentId)
  | used (u : Use) (r : Reply)

/-- The steps of the client, while its server lives. -/
inductive OwnerStep (env : ℕ → Env) : Owner → Event → Owner → Prop where
  | create {o : Owner} {s : Site} {r : Reply} (type : UInt32)
      (call : o.site.serve env (.create type) = (s, r)) :
      OwnerStep env o (.created type r.id) ⟨s, r.id :: o.owned⟩
  | use {o : Owner} {s : Site} {r : Reply} (u : Use) (own : u.eid ∈ o.owned)
      (alive : u.Answered env o.site) (call : u.serve env o.site = (s, r)) :
      OwnerStep env o (.used u r) { o with site := s }

/-- A client that knows nothing yet, and a server in any state that it can reach. -/
structure Start (o : Owner) : Prop where
  owned : o.owned = []
  acache : ∀ eid, o.site.caches.acache eid = none
  bcache : ∀ eid, o.site.caches.bcache eid = none
  reached : ∃ d₀ tr, ExtentRequests.Fresh d₀ ∧ Run Step d₀ tr o.site.disk

/-! ## What the calls tell about the cache -/

/-- Where cached attributes come from. -/
inductive Origin where
  | server
  | put
  deriving DecidableEq, Repr

/-- The cache entries of one extent. -/
structure Cached where
  attrs : Option Origin := none
  buffer : Bool := false
  deriving DecidableEq, Repr

def Cached.after (c : Cached) : Use → Cached
  | .get _ => { c with buffer := true }
  | .put _ _ => { attrs := some (c.attrs.getD .put), buffer := true }
  | .getattr _ => { c with attrs := some (c.attrs.getD .server) }
  | .flush _ => if c.buffer then {} else c

def Cached.next (eid : ExtentId) (c : Cached) : Event → Cached
  | .used u _ => if u.eid = eid then c.after u else c
  | .created _ _ => c

def cachedAfter (eid : ExtentId) (tr : List Event) : Cached := tr.foldl (Cached.next eid) {}

/-- A `put` has found no attributes in the cache, and its buffer was not flushed since. -/
def MadeUp (eid : ExtentId) (tr : List Event) : Prop := (cachedAfter eid tr).attrs = some .put

instance (eid : ExtentId) (tr : List Event) : Decidable (MadeUp eid tr) :=
  inferInstanceAs (Decidable (_ = _))

/-- The type in attributes of that origin, for an extent of the given type. -/
def Origin.shown (type : UInt32) : Origin → UInt32
  | server => type
  | put => 0

theorem cachedAfter_snoc (eid : ExtentId) (tr : List Event) (e : Event) :
    cachedAfter eid (tr ++ [e]) = (cachedAfter eid tr).next eid e := by
  rw [cachedAfter, List.foldl_append]
  rfl

/-! ## Types on the server -/

variable {d d' : Disk} {env : ℕ → Env} {s : Site} {c : Cached} {type : UInt32} {eid : ExtentId}
  {u : Use} {req : Request} {rep : Reply}

/-- Nothing is removed, and the types stay. -/
structure Keeps (d d' : Disk) : Prop where
  inv : Inv d'
  types : ∀ i, Live d i → Live d' i ∧ inoType (inodeOf d' i) = inoType (inodeOf d i)

theorem Keeps.refl (hinv : Inv d) : Keeps d d := ⟨hinv, fun _ hi => ⟨hi, rfl⟩⟩

theorem Keeps.of_rewrites {i : ℕ} (hinv : Inv d) (h : BlockOwnership.Rewrites d d' i)
    (hi : Live d i → Live d' i ∧ inoType (inodeOf d' i) = inoType (inodeOf d i)) : Keeps d d' := by
  refine ⟨hinv.rewrites h, fun j hj => ?_⟩
  by_cases hne : j = i
  · subst hne
    exact hi hj
  · exact ⟨(h.live_iff hne).2 hj, by rw [h.others j (not_mapped_iblock hj.1) hne]⟩

theorem Keeps.effect {e : Env} (hinv : Inv d) (h : Effect d e rep d' req)
    (hreq : ∀ id, req ≠ .remove id) : Keeps d d' := by
  cases req with
  | create type =>
    rcases h with ⟨m, hpos, hlt, hfree, -, -, rfl⟩ | ⟨-, -, rfl⟩
    · exact .of_rewrites hinv (FileWrites.rewrites_newInode hfree hlt hpos.ne')
        fun hm => absurd hm hfree
    · exact .refl hinv
  | put id buf =>
    rcases h.2 with ⟨-, hw⟩ | ⟨-, rfl⟩
    · exact .of_rewrites hinv hw.rewrites fun _ => ⟨hw.live, hw.type⟩
    · exact .refl hinv
  | get id =>
    rcases h with ⟨-, -, -, ht⟩ | ⟨-, -, rfl⟩
    · exact .of_rewrites hinv ht.rewrites fun _ => ⟨ht.live, ht.type⟩
    · exact .refl hinv
  | getattr id =>
    rw [h.1]
    exact .refl hinv
  | remove id => exact absurd rfl (hreq id)

theorem ask_keeps (hinv : Inv s.disk) (hreq : ∀ id, req ≠ .remove id) :
    Keeps s.disk (s.ask env req).1.disk := by
  unfold Site.ask
  cases hx : BlockManager.exec (handle (env s.requests) req) s.disk with
  | error e => exact .refl hinv
  | ok x => exact .effect hinv (ExtentRequests.handle_effect hinv hx) hreq

/-- A call on an extent that is not about to be removed. -/
theorem serve_keeps (hinv : Inv s.disk)
    (hdel : ∀ e ∈ s.caches.bcache u.eid, e.deleted = false) :
    Keeps s.disk (u.serve env s).1.disk := by
  cases u with
  | get i =>
    cases hb : s.caches.bcache i with
    | some e => simpa [Use.serve, Site.serve, hb] using Keeps.refl hinv
    | none => simpa [Use.serve, Site.serve, hb] using ask_keeps hinv (by simp)
  | put i buf => exact .refl hinv
  | getattr i =>
    cases ha : s.caches.acache i with
    | some a => simpa [Use.serve, Site.serve, ha] using Keeps.refl hinv
    | none => simpa [Use.serve, Site.serve, ha] using ask_keeps hinv (by simp)
  | flush i =>
    cases hb : s.caches.bcache i with
    | none => simpa [Use.serve, CachedTypes.flush, hb] using Keeps.refl hinv
    | some e =>
      have hpresent := hdel e hb
      have hput : ∀ id, Request.put i e.buf ≠ .remove id := by simp
      simp only [Use.serve, CachedTypes.flush, hb, hpresent, Bool.false_eq_true, if_false]
      split
      · exact ask_keeps (s := { s with caches := s.caches.flush i }) hinv hput
      · exact .refl hinv

/-! ## The invariant -/

/-- What client and server know of an extent of the given type. -/
structure Typed (s : Site) (c : Cached) (type : UInt32) (eid : ExtentId) : Prop where
  live : Live s.disk (inumOf eid)
  server : reported (inodeOf s.disk (inumOf eid)) = type
  attrs : (s.caches.acache eid).map Attr.type = c.attrs.map (Origin.shown type)
  buffer : (s.caches.bcache eid).isSome = c.buffer
  present : ∀ e ∈ s.caches.bcache eid, e.deleted = false

theorem ask_caches (s : Site) : (s.ask env req).1.caches = s.caches := by
  unfold Site.ask
  split <;> rfl

theorem ask_answered {d : Disk}
    (h : BlockManager.exec (handle (env s.requests) req) s.disk = .ok (rep, d)) :
    s.ask env req = ({ s with disk := d, requests := s.requests + 1 }, rep) := by
  unfold Site.ask
  rw [h]

/-- The server reports the type. -/
theorem Typed.ask_getattr (env : ℕ → Env) (h : Typed s c type eid) :
    ∃ s' a, s.ask env (.getattr eid) = (s', { attr := a }) ∧ s'.caches = s.caches ∧
      a.type = type := by
  obtain ⟨a, ha, hfields⟩ := ExtentRequests.exec_attrOf (env s.requests) eid s.disk
  exact ⟨_, a, ask_answered ha, rfl, (hfields h.live.1).1.trans h.server⟩

theorem ask_get (hinv : Inv s.disk) (halive : Use.Answered env s (.get eid))
    (hb : s.caches.bcache eid = none) :
    ∃ s' rep, s.ask env (.get eid) = (s', rep) ∧ s'.caches = s.caches ∧ rep.ret = OK := by
  obtain ⟨rep, d, hx⟩ := halive (.get eid) (by simp [Use.request, hb])
  refine ⟨_, rep, ask_answered hx, rfl, ?_⟩
  rcases ExtentRequests.get_effect hinv hx with ⟨-, rfl, -⟩ | ⟨-, rfl, -⟩
  · rfl
  · rfl

/-- A call touches only the cache entries of the extent it names. -/
theorem serve_elsewhere (env : ℕ → Env) (s : Site) (h : eid ≠ u.eid) :
    (u.serve env s).1.caches.acache eid = s.caches.acache eid ∧
      (u.serve env s).1.caches.bcache eid = s.caches.bcache eid := by
  cases u with
  | get i =>
    have hne : eid ≠ i := h
    cases hb : s.caches.bcache i with
    | some e => simp [Use.serve, Site.serve, hb]
    | none =>
      simp only [Use.serve, Site.serve, hb, Caches.getAnswered]
      split <;> simp [ask_caches, Caches.setEntry, hne]
  | put i buf =>
    have hne : eid ≠ i := h
    simp [Use.serve, Site.serve, Caches.put, Caches.setEntry, Caches.setAttr, hne]
  | getattr i =>
    have hne : eid ≠ i := h
    cases ha : s.caches.acache i with
    | some a => simp [Use.serve, Site.serve, ha]
    | none =>
      simp only [Use.serve, Site.serve, ha, Caches.getattrAnswered]
      split <;> simp [ask_caches, Caches.setAttr, hne]
  | flush i =>
    have hne : eid ≠ i := h
    cases hb : s.caches.bcache i with
    | none => simp [Use.serve, CachedTypes.flush, hb]
    | some e =>
      simp only [Use.serve, CachedTypes.flush, hb]
      split
      · simp [ask_caches, Caches.flush, hb, hne]
      split
      · simp [ask_caches, Caches.flush, hb, hne]
      · simp [Caches.flush, hb, hne]

/-- What a call leaves in the cache of the extent it names. -/
theorem Typed.serve_caches (h : Typed s c type u.eid) (hinv : Inv s.disk)
    (halive : u.Answered env s) :
    ((u.serve env s).1.caches.acache u.eid).map Attr.type =
        (c.after u).attrs.map (Origin.shown type) ∧
      ((u.serve env s).1.caches.bcache u.eid).isSome = (c.after u).buffer ∧
      ∀ e ∈ (u.serve env s).1.caches.bcache u.eid, e.deleted = false := by
  obtain ⟨hlive, hserver, hattrs, hbuffer, hpresent⟩ := id h
  cases u with
  | get i =>
    simp only [Use.eid] at *
    cases hb : s.caches.bcache i with
    | some e =>
      rw [hb] at hbuffer hpresent
      simpa [Use.serve, Site.serve, hb, Cached.after, hattrs] using hpresent e rfl
    | none =>
      obtain ⟨s', rep, hask, hcaches, hret⟩ := ask_get hinv halive hb
      have hret : rep.ret = statusOk := hret
      simp [Use.serve, Site.serve, hb, hask, hcaches, Caches.getAnswered, hret, Caches.setEntry,
        Caches.entry, Cached.after, hattrs]
  | put i buf =>
    simp only [Use.eid] at *
    refine ⟨?_, ?_, ?_⟩
    · cases ha : s.caches.acache i with
      | none =>
        have hnone : c.attrs = none := by simpa [ha] using hattrs.symm
        simp [Use.serve, Site.serve, Caches.put, Caches.setEntry, Caches.setAttr, ha, Cached.after,
          hnone, Origin.shown]
      | some a =>
        obtain ⟨o, ho, htype⟩ : ∃ o, c.attrs = some o ∧ o.shown type = a.type := by
          simpa [ha, eq_comm] using hattrs
        simp [Use.serve, Site.serve, Caches.put, Caches.setEntry, Caches.setAttr, ha, Cached.after,
          ho, htype]
    · simp [Use.serve, Site.serve, Caches.put, Caches.setEntry, Cached.after]
    · cases hb : s.caches.bcache i with
      | none =>
        simp [Use.serve, Site.serve, Caches.put, Caches.setEntry, Caches.setAttr, Caches.entry, hb]
      | some e =>
        simpa [Use.serve, Site.serve, Caches.put, Caches.setEntry, Caches.setAttr, Caches.entry, hb]
          using hpresent e hb
  | getattr i =>
    simp only [Use.eid] at *
    cases ha : s.caches.acache i with
    | some a =>
      obtain ⟨o, ho, htype⟩ : ∃ o, c.attrs = some o ∧ o.shown type = a.type := by
        simpa [ha, eq_comm] using hattrs
      simpa [Use.serve, Site.serve, ha, Cached.after, ho, htype, hbuffer] using hpresent
    | none =>
      have hnone : c.attrs = none := by simpa [ha] using hattrs.symm
      obtain ⟨s', a, hask, hcaches, htype⟩ := h.ask_getattr env
      simpa [Use.serve, Site.serve, ha, hask, hcaches, Caches.getattrAnswered, statusOk,
        Caches.setAttr, Cached.after, hnone, htype, hbuffer, Origin.shown] using hpresent
  | flush i =>
    simp only [Use.eid] at *
    cases hb : s.caches.bcache i with
    | none =>
      rw [hb] at hbuffer
      simp [Use.serve, CachedTypes.flush, hb, Cached.after, ← hbuffer, hattrs]
    | some e =>
      rw [hb] at hbuffer
      have hpresent := hpresent e hb
      simp only [Use.serve, CachedTypes.flush, hb, hpresent, Bool.false_eq_true, if_false]
      split
      · simp [ask_caches, Caches.flush, hb, Cached.after, ← hbuffer]
      · simp [Caches.flush, hb, Cached.after, ← hbuffer]

/-- A call leaves the type of every extent alone; the cache entries are as the calls tell. -/
theorem Typed.serve {c' : Cached} {type' : UInt32} {r : Reply} (h : Typed s c type eid)
    (hu : Typed s c' type' u.eid) (hinv : Inv s.disk) (halive : u.Answered env s) :
    Typed (u.serve env s).1 (c.next eid (.used u r)) type eid := by
  have hkeeps : Keeps s.disk (u.serve env s).1.disk := serve_keeps hinv hu.present
  obtain ⟨hlive, htype⟩ := hkeeps.types _ h.live
  have hserver : reported (inodeOf (u.serve env s).1.disk (inumOf eid)) = type := by
    rw [reported, htype]
    exact h.server
  by_cases heid : u.eid = eid
  · subst heid
    obtain ⟨hattrs, hbuffer, hpresent⟩ := h.serve_caches hinv halive
    rw [Cached.next, if_pos rfl]
    exact ⟨hlive, hserver, hattrs, hbuffer, hpresent⟩
  · obtain ⟨ha, hb⟩ := serve_elsewhere env s (Ne.symm heid)
    rw [Cached.next, if_neg heid]
    exact ⟨hlive, hserver, ha ▸ h.attrs, hb ▸ h.buffer, hb ▸ h.present⟩

/-! ## Runs -/

/-- The extents that were created have their types, and nothing is known of the others. -/
structure Known (tr : List Event) (o : Owner) : Prop where
  inv : Inv o.site.disk
  unknown : ∀ eid, eid ∉ o.owned → o.site.caches.acache eid = none ∧
    o.site.caches.bcache eid = none ∧ cachedAfter eid tr = {}
  typed : ∀ type id, .created type id ∈ tr → Typed o.site (cachedAfter id tr) type id
  owned : ∀ id, id ∈ o.owned ↔ ∃ type, .created type id ∈ tr

/-- The create gets an inode that can keep the type. -/
def Event.Proper : Event → Prop
  | created type id => id ≠ 0 ∧ newFile type = some (type, [])
  | used _ _ => True

variable {tr : List Event} {o o' o₀ : Owner} {e : Event}

theorem Known.start (h : Start o) : Known [] o := by
  obtain ⟨d₀, tr₀, hf, hr⟩ := h.reached
  refine ⟨ExtentRequests.run_inv hf hr, fun eid _ => ⟨h.acache eid, h.bcache eid, rfl⟩, ?_, ?_⟩
  · intro type id hmem
    exact absurd hmem List.not_mem_nil
  · simp [h.owned]

/-- A new inode is none of the owned ones, since these are live. -/
theorem create_typed {s' : Site} {r : Reply} (hinv : Inv s.disk)
    (hcall : s.serve env (.create type) = (s', r)) (hid : r.id ≠ 0)
    (hnew : newFile type = some (type, [])) :
    s'.caches = s.caches ∧ Keeps s.disk s'.disk ∧ ¬Live s.disk (inumOf r.id) ∧
      Live s'.disk (inumOf r.id) ∧ reported (inodeOf s'.disk (inumOf r.id)) = type := by
  have hkeeps : Keeps s.disk (s.serve env (.create type)).1.disk := ask_keeps hinv (by simp)
  obtain ⟨hcaches, hcreate⟩ := InodeExhaustion.create_effect env s type
  rw [hcall] at hkeeps hcaches hcreate
  rcases hcreate with ⟨m, hpos, hlt, hfree, hrep, hfile⟩ | ⟨-, hrep⟩
  · have hrep : r = { id := UInt64.ofNat m } := hrep
    rw [hrep, InodeExhaustion.inumOf_inum hlt]
    rw [hnew] at hfile
    have hlive : Live s'.disk m := ExtentRefinement.files_ne_none.1 (by simp [hfile])
    rw [ExtentRefinement.files_live hlive] at hfile
    refine ⟨hcaches, hkeeps, fun hm => ExtentRefinement.files_ne_none.2 hm hfree, hlive, ?_⟩
    simp only [Option.some.injEq, Prod.mk.injEq] at hfile
    exact hfile.1
  · have hrep : r = { id := 0 } := hrep
    exact absurd (by rw [hrep]) hid

theorem Known.step (h : Known tr o) (hproper : e.Proper) (hstep : OwnerStep env o e o') :
    Known (tr ++ [e]) o' := by
  cases hstep with
  | @create s' r type call =>
    obtain ⟨hcaches, hkeeps, hfree, hlive, hreported⟩ :=
      create_typed h.inv call hproper.1 hproper.2
    have hout : r.id ∉ o.owned := by
      intro hmem
      obtain ⟨type', hcreated⟩ := (h.owned _).1 hmem
      exact hfree (h.typed type' _ hcreated).live
    obtain ⟨hacache, hbcache, hcached⟩ := h.unknown r.id hout
    have hsame : ∀ eid, cachedAfter eid (tr ++ [.created type r.id]) = cachedAfter eid tr :=
      fun eid => cachedAfter_snoc eid tr _
    refine ⟨hkeeps.inv, ?_, ?_, ?_⟩
    · intro eid heid
      rw [hsame]
      dsimp only
      rw [hcaches]
      exact h.unknown eid fun hmem => heid (List.mem_cons_of_mem _ hmem)
    · intro type' id hmem
      rw [hsame]
      rcases List.mem_append.1 hmem with hmem | hmem
      · have htyped := h.typed type' id hmem
        obtain ⟨hlive', htype⟩ := hkeeps.types _ htyped.live
        refine ⟨hlive', ?_, ?_, ?_, ?_⟩
        · rw [reported, htype]
          exact htyped.server
        · exact hcaches ▸ htyped.attrs
        · exact hcaches ▸ htyped.buffer
        · exact hcaches ▸ htyped.present
      · obtain ⟨rfl, rfl⟩ : type' = type ∧ id = r.id := by simpa using hmem
        refine ⟨hlive, hreported, ?_, ?_, ?_⟩
        · dsimp only
          rw [hcaches, hacache, hcached]
          rfl
        · dsimp only
          rw [hcaches, hbcache, hcached]
          rfl
        · dsimp only
          rw [hcaches, hbcache]
          simp
    · intro id
      simp only [List.mem_cons, h.owned, List.mem_append, List.not_mem_nil, or_false,
        Event.created.injEq]
      constructor
      · rintro (rfl | ⟨type', hmem⟩)
        · exact ⟨type, .inr ⟨rfl, rfl⟩⟩
        · exact ⟨type', .inl hmem⟩
      · rintro ⟨type', hmem | ⟨-, rfl⟩⟩
        · exact .inr ⟨type', hmem⟩
        · exact .inl rfl
  | @use s' r u own alive call =>
    obtain ⟨type₀, hcreated⟩ := (h.owned _).1 own
    have hu := h.typed type₀ _ hcreated
    have hs : s' = (u.serve env o.site).1 := by rw [call]
    have hcreated_iff : ∀ type id, .created type id ∈ tr ++ [.used u r] ↔ .created type id ∈ tr := by
      simp
    subst hs
    refine ⟨(serve_keeps h.inv hu.present).inv, ?_, ?_, ?_⟩
    · intro eid heid
      have hne : eid ≠ u.eid := fun he => heid (he ▸ own)
      obtain ⟨ha, hb⟩ := serve_elsewhere env o.site hne
      rw [cachedAfter_snoc, Cached.next, if_neg hne.symm]
      dsimp only
      rw [ha, hb]
      exact h.unknown eid heid
    · intro type id hmem
      rw [cachedAfter_snoc]
      exact (h.typed type id ((hcreated_iff type id).1 hmem)).serve hu h.inv alive
    · intro id
      simp only [hcreated_iff]
      exact h.owned id

theorem Known.run (start : Start o₀) (hproper : ∀ e ∈ tr, e.Proper)
    (h : Run (OwnerStep env) o₀ tr o) : Known tr o := by
  refine h.history_invariant (I := fun tr o => (∀ e ∈ tr, e.Proper) → Known tr o)
    (fun _ => .start start) ?_ hproper
  intro tr o e o' _ ih hstep hproper
  exact (ih fun e he => hproper e (by simp [he])).step (hproper e (by simp)) hstep

theorem newFile_type_ne (h : newFile type = some (type, [])) : type ≠ 0 := by
  rintro rfl
  exact absurd h (by decide)

/-- `getattr` reports the type unless the attributes were made up. -/
theorem Typed.getattr (env : ℕ → Env) (h : Typed s c type eid) :
    (s.serve env (.getattr eid)).2.ret = OK ∧
      (s.serve env (.getattr eid)).2.attr.type = if c.attrs = some .put then 0 else type := by
  cases ha : s.caches.acache eid with
  | some a =>
    obtain ⟨o, ho, htype⟩ : ∃ o, c.attrs = some o ∧ o.shown type = a.type := by
      simpa [ha, eq_comm] using h.attrs
    rw [ho]
    cases o with
    | server => simpa [Site.serve, ha, OK, statusOk, Origin.shown, eq_comm] using htype
    | put => simpa [Site.serve, ha, OK, statusOk, Origin.shown, eq_comm] using htype
  | none =>
    have hnone : c.attrs = none := by simpa [ha] using h.attrs.symm
    obtain ⟨s', a, hask, -, htype⟩ := h.ask_getattr env
    simpa [Site.serve, ha, hask, hnone, OK, statusOk] using htype

theorem Known.getattr (env : ℕ → Env) {id : ExtentId} (h : Known tr o)
    (hcreated : .created type id ∈ tr) :
    (o.site.serve env (.getattr id)).2.ret = OK ∧
      (o.site.serve env (.getattr id)).2.attr.type = if MadeUp id tr then 0 else type :=
  (h.typed type id hcreated).getattr env

/-- As long as the server lives and has inodes that can keep the types, `getattr` reports the type
that an extent was created with, and `isfile` answers for that type, unless a `put` has made up
attributes that are still in the cache. -/
theorem type_kept_iff (start : Start o₀) (h : Run (OwnerStep env) o₀ tr o)
    (hproper : ∀ e ∈ tr, e.Proper) :
    (∀ type id r tr₁ tr₂, tr = tr₁ ++ .used (.getattr id) r :: tr₂ → .created type id ∈ tr₁ →
      r.ret = OK ∧ (r.attr.type = type ↔ ¬MadeUp id tr₁)) ∧
    ∀ type id held, .created type id ∈ tr → ∃ s', exec (Site.serve env) (isfile id) held o.site =
      .ok ((decide (type = typeFile ∧ ¬MadeUp id tr), held), s') := by
  constructor
  · rintro type id r tr₁ tr₂ rfl hcreated
    obtain ⟨o₁, o₂, hrun, hstep, -⟩ := h.split
    have hproper₁ : ∀ e ∈ tr₁, e.Proper := fun e he => hproper e (by simp [he])
    have hne := newFile_type_ne (hproper₁ _ hcreated).2
    have hknown : Known tr₁ o₁ := .run start hproper₁ hrun
    cases hstep with
    | use _ own alive call =>
      obtain ⟨hret, htype⟩ := hknown.getattr env hcreated
      have hserve : o₁.site.serve env (.getattr id) = (_, r) := call
      rw [hserve] at hret htype
      refine ⟨hret, ?_⟩
      by_cases hput : MadeUp id tr₁
      · rw [htype, if_pos hput]
        exact iff_of_false hne.symm (not_not_intro hput)
      · rw [htype, if_neg hput]
        exact iff_of_true rfl hput
  · intro type id held hcreated
    have hknown : Known tr o := .run start hproper h
    obtain ⟨hret, htype⟩ := hknown.getattr env hcreated
    rw [exec_isfile (Site.grants env), hret, htype]
    by_cases hput : MadeUp id tr
    · rw [if_pos hput]
      simp [hput, typeFile]
    · rw [if_neg hput]
      simp [hput]

/-! ### A file on a new server -/

/-- A client and a server that have just started. -/
def blank (d : Disk) : Owner := { site := { disk := d } }

theorem start_blank (hf : ExtentRequests.Fresh d) : Start (blank d) :=
  ⟨rfl, fun _ => rfl, fun _ => rfl, d, [], hf, .nil⟩

/-- The first file is made. -/
theorem create_first (env : ℕ → Env) (hf : ExtentRequests.Fresh d) :
    ∃ s, OwnerStep env (blank d) (.created typeFile 2) ⟨s, [2]⟩ ∧ s.caches = {} ∧
      ExtentRequests.AllSmall s.disk ∧ Inv s.disk ∧ Live s.disk (inumOf 2) ∧
      (ExtentRequests.allocated s.disk).card ≤ 1000 := by
  obtain ⟨d', hc, hlive, hempty⟩ := hf.create (env 0)
  have hstep : Step d (.create 2, { id := 2 }) d' := ⟨_, hc⟩
  have hinv : Inv d' := ExtentRequests.Inv.step hf.inv hstep
  have hask : (blank d).site.ask env (.create typeFile) = (_, { id := 2 }) := ask_answered hc
  refine ⟨_, .create typeFile hask, rfl, ?_, hinv, hlive, ?_⟩
  · intro i hi
    rw [FileContents.Small, hempty i hi]
    exact Nat.zero_le _
  · rw [ExtentRequests.allocated_of_empty hinv hempty]
    exact Nat.zero_le _

/-- The attributes of a file are asked for before it is written, and its buffer is flushed. -/
theorem type_kept_flushed : ∃ env o₀ o r, Start o₀ ∧ Run (OwnerStep env) o₀ [.created typeFile 2,
      .used (.getattr 2) r, .used (.put 2 [1]) {}, .used (.flush 2) {}] o ∧
    r.attr.type = typeFile ∧
    ∃ s', exec (Site.serve env) (isfile 2) [] o.site = .ok ((true, []), s') := by
  let env : ℕ → Env := fun _ => ⟨0, Vector.replicate _ 0, fun _ => 0⟩
  have hf : ExtentRequests.Fresh _ := ⟨env 0, ExtentRequests.newServer_eq _⟩
  obtain ⟨s, hcreate, hcaches, hsmall, hinv, hlive, hcount⟩ := create_first env hf
  obtain ⟨a, ha, -⟩ := ExtentRequests.exec_attrOf (env s.requests) 2 s.disk
  have hown : (2 : ExtentId) ∈ [2] := List.mem_singleton_self 2
  have hask : s.ask env (.getattr 2) = (_, { attr := a }) := ask_answered ha
  have hgetattr : Use.serve env (.getattr 2) s = ({ s with
      caches := s.caches.setAttr 2 a, requests := s.requests + 1 }, { attr := a }) := by
    simp [Use.serve, Site.serve, hcaches, hask, Caches.getattrAnswered, statusOk]
  have hlast : Use.request { s with
      caches := (s.caches.setAttr 2 a).put 2 [1], requests := s.requests + 1 } (.flush 2) =
      some (.put 2 [1]) := by
    simp [Use.request, hcaches, Caches.put, Caches.setEntry, Caches.entry, Caches.setAttr]
  have hfit : ([1] : Str).length ≤ FileBlocks.maxFile * BlockManager.blockSize := by decide
  obtain ⟨d, hput, -⟩ := ExtentRequests.put_returns hinv hlive (hsmall _ hlive) hcount hfit
    (env (s.requests + 1))
  have hrun : Run (OwnerStep env) _ _ _ :=
    (((Run.single hcreate).snoc
      (.use (.getattr 2) hown (fun req hreq => by
        obtain rfl : .getattr 2 = req := by simpa [Use.request, hcaches] using hreq
        exact ⟨_, _, ha⟩) hgetattr)).snoc
      (.use (.put 2 [1]) hown (fun req hreq => by cases hreq) rfl)).snoc
      (.use (.flush 2) hown (fun req hreq => by
        obtain rfl : .put 2 [1] = req := Option.some.inj (hlast.symm.trans hreq)
        exact ⟨_, _, hput⟩) rfl)
  have hkept := type_kept_iff (start_blank hf) hrun (by
    have hnew : newFile typeFile = some (typeFile, []) := by decide
    simp [Event.Proper, hnew])
  refine ⟨env, _, _, _, start_blank hf, hrun, ?_, hkept.2 typeFile 2 [] (by simp)⟩
  exact ((hkept.1 typeFile 2 _ [.created typeFile 2] _ rfl (by simp)).2).2 (by decide)

/-- A new file that is written to before its attributes are asked for is no file any more. -/
theorem put_forgets_type : ∃ env o₀ o r, Start o₀ ∧ Run (OwnerStep env) o₀
    [.created typeFile 2, .used (.put 2 [1]) {}, .used (.getattr 2) r] o ∧ r.attr.type = 0 := by
  let env : ℕ → Env := fun _ => ⟨0, Vector.replicate _ 0, fun _ => 0⟩
  have hf : ExtentRequests.Fresh _ := ⟨env 0, ExtentRequests.newServer_eq _⟩
  obtain ⟨s, hcreate, hcaches, -⟩ := create_first env hf
  have hown : (2 : ExtentId) ∈ [2] := List.mem_singleton_self 2
  obtain ⟨a, hcached, htype⟩ : ∃ a, (s.caches.put 2 [1]).acache 2 = some a ∧ a.type = 0 := by
    simp [hcaches, Caches.put, Caches.setEntry, Caches.setAttr]
  have hgetattr : Use.serve env (.getattr 2) { s with caches := s.caches.put 2 [1] } =
      ({ s with caches := s.caches.put 2 [1] }, { attr := a }) := by
    simp [Use.serve, Site.serve, hcached]
  have hrun : Run (OwnerStep env) _ _ _ :=
    ((Run.single hcreate).snoc
      (.use (.put 2 [1]) hown (fun req hreq => by cases hreq) rfl)).snoc
      (.use (.getattr 2) hown (fun req hreq => by simp [Use.request, hcached] at hreq)
        hgetattr)
  exact ⟨env, _, _, _, start_blank hf, hrun, htype⟩

end Yfs.CachedTypes
