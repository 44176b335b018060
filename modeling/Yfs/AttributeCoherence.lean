import Yfs.ExtentCoherence

/-!
# Coherence of the attribute caches

`flush` drops the cached attributes of an extent only together with a cached buffer. In a
run where no client gives up the lock with attributes but no buffer in its cache, `getattr`
returns the length of the last `put`. Otherwise it may return what it saw before it gave
the lock away.
-/

namespace Yfs.AttributeCoherence
open LabelledRuns LockProtocol ExtentClient CallStackMachines FileService LockPhases LockLedger
open LockSafety CacheOwnership ExtentViews ExtentCoherence Schedules

/-- What the flush has to write back for client `c`. -/
def dirtyBuffer (w : View) (c : ClientId) : Option Str :=
  (w.buffer c).bind fun e => if e.dirty then some e.buf else none

/-- A thread that reads the attributes of extent `eid` or flushes it works with size `n`. -/
def SizeTame (w : View) (eid : ExtentId) (n : UInt32) (t : AppThread) : Prop :=
  ∀ a ∈ t.busy, (∀ buf, a.control = .request (.extentPut eid buf) → UInt32.ofNat buf.length = n) ∧
    ∀ c, a.root = .getattr c eid →
      (a.frames ≠ [] → w.attr c = none) ∧ ∀ r, a.control = .reply r → r.attr.size = n

structure SizeCoherent (eid : ExtentId) (n : UInt32) (g : System) : Prop where
  cached : ∀ c a, (view g.shared eid).attr c = some a → MayCache g c eid ∧ a.size = n
  dirty : ∀ c buf, dirtyBuffer (view g.shared eid) c = some buf →
    (view g.shared eid).attr c ≠ none ∧ UInt32.ofNat buf.length = n
  stored : (∀ c, dirtyBuffer (view g.shared eid) c = none) →
    (∀ t ∈ g.threads, NotWriting eid t) → (view g.shared eid).size = n
  tame : ∀ t ∈ g.threads, SizeTame (view g.shared eid) eid n t

variable {s s' : Shared} {pre post : List AppThread} {t t' : AppThread} {eid : ExtentId}
  {n : UInt32} {v : Str} {g g' : System} {c : ClientId}

theorem SizeTame.mono {w w' : View} (h : SizeTame w eid n t)
    (hw : ∀ c, w.attr c = none → w'.attr c = none) : SizeTame w' eid n t := by
  intro a ha
  obtain ⟨h1, h2⟩ := h a ha
  exact ⟨h1, fun c hc => ⟨fun hf => hw c ((h2 c hc).1 hf), (h2 c hc).2⟩⟩

theorem sizeTame_of_not_held {w : View} (hc : Covered t) (he : eid ∉ t.loc.held)
    (hw : NotWriting eid t) : SizeTame w eid n t := by
  intro a ha
  refine ⟨fun buf hb => absurd hb (hw a ha buf), fun c hr => ?_⟩
  exact absurd (hc a ha eid (by simp [hr, target])) he

theorem SizeCoherent.mayCache_of_dirty {buf : Str} (h : SizeCoherent eid n g)
    (hd : dirtyBuffer (view g.shared eid) c = some buf) : MayCache g c eid := by
  obtain ⟨a, ha⟩ := Option.ne_none_iff_exists'.mp (h.dirty c buf hd).1
  exact (h.cached c a ha).1

/-- The size at the server is current unless the one client that may have the extent cached
has changed it. -/
theorem SizeCoherent.size_eq (h : SizeCoherent eid n g) (hg : SystemOk g) (hc : MayCache g c eid)
    (hd : dirtyBuffer (view g.shared eid) c = none) : (view g.shared eid).size = n := by
  refine h.stored (fun d => ?_) fun t ht => notWriting_of_mayCache hg hc ht
  by_contra hne
  obtain ⟨buf, hb⟩ := Option.ne_none_iff_exists'.mp hne
  obtain rfl := hc.unique (h.mayCache_of_dirty hb)
  exact hne hd

theorem SizeCoherent.frame (h : SizeCoherent eid n ⟨s, pre ++ t :: post⟩)
    (hattr : (view s' eid).attr = (view s eid).attr)
    (hdirty : dirtyBuffer (view s' eid) = dirtyBuffer (view s eid))
    (hsize : (view s' eid).size = (view s eid).size)
    (hmay : ∀ c, MayCache ⟨s, pre ++ t :: post⟩ c eid → MayCache ⟨s', pre ++ t' :: post⟩ c eid)
    (hw : NotWriting eid t) (ht' : SizeTame (view s eid) eid n t') :
    SizeCoherent eid n ⟨s', pre ++ t' :: post⟩ := by
  refine ⟨fun c a ha => ?_, fun c buf hb => ?_, fun hn hall => ?_, fun u hu => ?_⟩
  · simp only [hattr] at ha
    exact ⟨hmay c (h.cached c a ha).1, (h.cached c a ha).2⟩
  · simp only [hdirty, hattr] at hb ⊢
    exact h.dirty c buf hb
  · simp only [hdirty, hsize] at hn ⊢
    refine h.stored hn fun u hu => ?_
    rcases mem_threads hu with rfl | hu
    · exact hw
    · exact hall u (mem_others hu)
  · rcases mem_threads hu with rfl | hu
    · exact ht'.mono fun c hc => by rw [hattr]; exact hc
    · exact (h.tame u (mem_others hu)).mono fun c hc => by rw [hattr]; exact hc

/-- The same, for a step that leaves the whole view alone. -/
theorem SizeCoherent.sameView (h : SizeCoherent eid n ⟨s, pre ++ t :: post⟩)
    (hview : view s' eid = view s eid)
    (hmay : ∀ c, MayCache ⟨s, pre ++ t :: post⟩ c eid → MayCache ⟨s', pre ++ t' :: post⟩ c eid)
    (hw : NotWriting eid t) (ht' : SizeTame (view s eid) eid n t') :
    SizeCoherent eid n ⟨s', pre ++ t' :: post⟩ :=
  h.frame (by rw [hview]) (by rw [hview]) (by rw [hview]) hmay hw ht'

theorem sizeTame_land {w : View} {l : Local} {q r : Request} {fs : List Frame} {o : Ending}
    (ho : machine.Faithful r o) (hr : ∀ c r' f, o = .call r' f → r ≠ .dorelease c eid)
    (hq : ∀ c, q ≠ .getattr c eid) : SizeTame w eid n ⟨l, some (.land q fs o)⟩ := by
  rintro a ⟨⟩
  refine ⟨fun buf hb => absurd hb (land_control_ne ho hr buf).1, fun c hc => ?_⟩
  rw [land_root] at hc
  exact absurd hc (hq c)

theorem view_attr_setCaches (s : Shared) (c : ClientId) (k : Caches) (d : ClientId) :
    (view (s.setCaches c k) eid).attr d = if d = c then k.acache eid else (view s eid).attr d := by
  simp only [view, Shared.setCaches]
  by_cases hd : d = c
  · subst hd; simp
  · simp [hd]

theorem dirtyBuffer_setCaches (s : Shared) (c : ClientId) (k : Caches) (d : ClientId) :
    dirtyBuffer (view (s.setCaches c k) eid) d =
      if d = c then (k.bcache eid).bind (fun e => if e.dirty then some e.buf else none)
      else dirtyBuffer (view s eid) d := by
  unfold dirtyBuffer
  rw [view_buffer_setCaches]
  split_ifs <;> rfl

/-- A `getattr` of the extent is busy with its own two calls only. -/
theorem root_ne_getattr {q r : Request} {fs : List Frame} {d : ClientId}
    (h : machine.Linked ⟨q, .request r, fs⟩) (hr : r ≠ .getattr d eid)
    (hr' : r ≠ .extentGetattr eid) : q ≠ .getattr d eid := by
  rintro rfl
  rcases linked_getattr h with ⟨-, hk | ⟨x, hk⟩⟩ | ⟨-, hk | ⟨x, hk⟩⟩
  · exact hr (Control.request.inj hk)
  · cases hk
  · exact hr' (Control.request.inj hk)
  · cases hk

/-! ## The steps that touch the extent -/

section
variable {l : Local} {q : Request} {fs : List Frame} {o : Ending}

theorem SizeCoherent.others_tame {w : View} {m : UInt32}
    (hg : ServiceOk ⟨s, pre ++ t :: post⟩) (ht : eid ∈ t.loc.held)
    (hc : MayCache ⟨s, pre ++ t :: post⟩ c eid) {u : AppThread} (hu : u ∈ pre ++ post) :
    SizeTame w eid m u :=
  sizeTame_of_not_held (hg.covered u (mem_others hu)) (not_held_of_held hg.system ht hu)
    (notWriting_of_mayCache hg.system hc (mem_others hu))

theorem SizeCoherent.put {buf : Str}
    (h : SizeCoherent eid n ⟨s, pre ++ ⟨l, some ⟨q, .request (.put c eid buf), fs⟩⟩ :: post⟩)
    (hg : ServiceOk ⟨s, pre ++ ⟨l, some ⟨q, .request (.put c eid buf), fs⟩⟩ :: post⟩)
    (hmay : ∀ d, MayCache ⟨s, pre ++ ⟨l, some ⟨q, .request (.put c eid buf), fs⟩⟩ :: post⟩ d eid →
      MayCache ⟨s.setCaches c ((s.caches c).put eid buf),
        pre ++ ⟨l, some (.land q fs (.ret {}))⟩ :: post⟩ d eid) :
    SizeCoherent eid (UInt32.ofNat buf.length) ⟨s.setCaches c ((s.caches c).put eid buf),
      pre ++ ⟨l, some (.land q fs (.ret {}))⟩ :: post⟩ := by
  have hlink := (hg.system.threads ⟨l, some ⟨q, .request (.put c eid buf), fs⟩⟩ (by simp)).linked _ rfl
  obtain ⟨rfl, rfl⟩ := linked_app hlink fun f hf => by cases f <;> cases hf
  obtain ⟨hheld, hc⟩ := mayCache_of_root (c := c) hg rfl rfl
  have hdirty : ∀ d, dirtyBuffer (view (s.setCaches c ((s.caches c).put eid buf)) eid) d =
      if d = c then some buf else dirtyBuffer (view s eid) d := fun d => by
    rw [dirtyBuffer_setCaches]
    simp [Caches.put, Caches.setEntry]
  refine ⟨fun d a ha => ?_, fun d b hb => ?_, fun hn => ?_, fun u hu => ?_⟩
  · rw [view_attr_setCaches] at ha
    split_ifs at ha with hd
    · subst hd
      simp only [Caches.put, Caches.setEntry, Caches.setAttr, Function.update_self,
        Option.some.injEq] at ha
      exact ⟨hmay d hc, ha ▸ rfl⟩
    · exact absurd ((h.cached d a ha).1.unique hc) hd
  · rw [hdirty] at hb
    split_ifs at hb with hd
    · subst hd
      obtain rfl := Option.some.inj hb
      rw [view_attr_setCaches, if_pos rfl]
      simp [Caches.put, Caches.setEntry, Caches.setAttr]
    · exact absurd ((h.mayCache_of_dirty hb).unique hc) hd
  · have hc := hn c
    rw [hdirty, if_pos rfl] at hc
    cases hc
  · rcases mem_threads hu with rfl | hu
    · rintro a ⟨⟩
      simp [Activity.land]
    · exact others_tame hg hheld hc hu

/-- The server's attributes arrive at a client that has none. -/
theorem SizeCoherent.fill {r : Reply}
    (h : SizeCoherent eid n ⟨s, pre ++ ⟨l, some ⟨q, .reply r, .getattrRpc c eid :: fs⟩⟩ :: post⟩)
    (hg : ServiceOk ⟨s, pre ++ ⟨l, some ⟨q, .reply r, .getattrRpc c eid :: fs⟩⟩ :: post⟩)
    (hmay : ∀ d, MayCache ⟨s, pre ++ ⟨l, some ⟨q, .reply r, .getattrRpc c eid :: fs⟩⟩ :: post⟩ d eid →
      MayCache ⟨s.setCaches c ((s.caches c).getattrAnswered eid r),
        pre ++ ⟨l, some (.land q fs (.ret r))⟩ :: post⟩ d eid) :
    SizeCoherent eid n ⟨s.setCaches c ((s.caches c).getattrAnswered eid r),
      pre ++ ⟨l, some (.land q fs (.ret r))⟩ :: post⟩ := by
  have hmem : (⟨l, some ⟨q, .reply r, .getattrRpc c eid :: fs⟩⟩ : AppThread) ∈
      pre ++ ⟨l, some ⟨q, .reply r, .getattrRpc c eid :: fs⟩⟩ :: post := by simp
  obtain ⟨⟨hserve, hframed⟩, hret⟩ := (hg.system.threads _ hmem).linked _ rfl
  -- the frame stands directly on the application's call
  obtain ⟨rfl, rfl⟩ : q = .getattr c eid ∧ fs = [] := by
    cases fs with
    | nil => exact ⟨hserve.symm, rfl⟩
    | cons f fs => cases f <;> cases hserve
  obtain ⟨hheld, hc⟩ := mayCache_of_root (c := c) hg rfl rfl
  have hsize := ((h.tame _ hmem _ rfl).2 c rfl).2 r rfl
  have hnone := ((h.tame _ hmem _ rfl).2 c rfl).1 (by simp)
  have hret : r.ret = statusOk := hret
  have hfill : (s.caches c).getattrAnswered eid r = (s.caches c).setAttr eid r.attr := if_pos hret
  have hclean : ∀ d, dirtyBuffer (view s eid) d = none := fun d => by
    by_contra hne
    obtain ⟨buf, hb⟩ := Option.ne_none_iff_exists'.mp hne
    obtain rfl := hc.unique (h.mayCache_of_dirty hb)
    exact (h.dirty c buf hb).1 hnone
  have hdirty : ∀ d, dirtyBuffer (view (s.setCaches c ((s.caches c).getattrAnswered eid r)) eid) d =
      none := fun d => by
    rw [dirtyBuffer_setCaches, hfill]
    split_ifs with hd
    · subst hd
      exact hclean d
    · exact hclean d
  refine ⟨fun d a ha => ?_, fun d b hb => ?_, fun _ _ => ?_, fun u hu => ?_⟩
  · rw [view_attr_setCaches] at ha
    split_ifs at ha with hd
    · subst hd
      rw [hfill] at ha
      simp only [Caches.setAttr, Function.update_self, Option.some.injEq] at ha
      exact ⟨hmay d hc, ha ▸ hsize⟩
    · exact absurd ((h.cached d a ha).1.unique hc) hd
  · simp [hdirty d] at hb
  · exact h.size_eq hg.system hc (hclean c)
  · rcases mem_threads hu with rfl | hu
    · rintro a ⟨⟩
      refine ⟨by simp [Activity.land], fun d hd => ⟨by simp [Activity.land], ?_⟩⟩
      rintro r' ⟨⟩
      exact hsize
    · exact others_tame hg hheld hc hu

/-- A client gives up the lock with attributes in its cache but no buffer: the flush will
leave them there. -/
def LeavesAttr (s : Shared) (c : ClientId) (eid : ExtentId) : Prop :=
  (view s eid).attr c ≠ none ∧ (view s eid).buffer c = none

theorem view_attr_flush (s : Shared) (c d : ClientId) (hk : ¬ LeavesAttr s c eid) :
    (view (execFlush s c eid).1 eid).attr d = if d = c then none else (view s eid).attr d := by
  rw [execFlush_fst, view_attr_setCaches]
  split_ifs with hd
  · unfold Caches.flush
    split
    · next hb => exact not_not.mp fun ha => hk ⟨ha, hb⟩
    · simp
  · rfl

theorem dirtyBuffer_flush (s : Shared) (c d : ClientId) :
    dirtyBuffer (view (execFlush s c eid).1 eid) d =
      if d = c then none else dirtyBuffer (view s eid) d := by
  unfold dirtyBuffer
  rw [view_buffer_flush]
  split_ifs <;> rfl

theorem SizeCoherent.flush
    (h : SizeCoherent eid n ⟨s, pre ++ ⟨l, some ⟨q, .request (.dorelease c eid), fs⟩⟩ :: post⟩)
    (hv : Coherent eid v ⟨s, pre ++ ⟨l, some ⟨q, .request (.dorelease c eid), fs⟩⟩ :: post⟩)
    (hg : ServiceOk ⟨s, pre ++ ⟨l, some ⟨q, .request (.dorelease c eid), fs⟩⟩ :: post⟩)
    (hk : ¬ LeavesAttr s c eid)
    (hmay : ∀ d, d ≠ c →
      MayCache ⟨s, pre ++ ⟨l, some ⟨q, .request (.dorelease c eid), fs⟩⟩ :: post⟩ d eid →
      MayCache ⟨(execFlush s c eid).1,
        pre ++ ⟨l, some (.land q fs (execFlush s c eid).2)⟩ :: post⟩ d eid) :
    SizeCoherent eid n ⟨(execFlush s c eid).1,
      pre ++ ⟨l, some (.land q fs (execFlush s c eid).2)⟩ :: post⟩ := by
  have hlink :=
    (hg.system.threads ⟨l, some ⟨q, .request (.dorelease c eid), fs⟩⟩ (by simp)).linked _ rfl
  have hq : ∀ d, q ≠ .getattr d eid := fun d => root_ne_getattr hlink (by simp) (by simp)
  -- a dirty buffer turns into a call of the server's `put`
  have hcall : ∀ buf, dirtyBuffer (view s eid) c = some buf →
      (execFlush s c eid).2 = .call (.extentPut eid buf) (.flushPut c eid buf) := by
    intro buf hb
    obtain ⟨e, he, hd⟩ := Option.bind_eq_some_iff.mp hb
    have hdel := (hv.cached c e he).2.2.1
    have he : (s.caches c).bcache eid = some e := he
    split_ifs at hd with hdirty
    obtain rfl := Option.some.inj hd
    simp [execFlush, he, hdel, hdirty]
  have hquiet : dirtyBuffer (view s eid) c = none → (execFlush s c eid).2 = .ret {} := by
    intro hb
    cases he : (s.caches c).bcache eid with
    | none => simp [execFlush, he]
    | some e =>
      have hdel := (hv.cached c e he).2.2.1
      have hdirty : e.dirty = false := by
        have hb : (((s.caches c).bcache eid).bind fun e => if e.dirty then some e.buf else none) =
          none := hb
        simpa [he] using hb
      simp [execFlush, he, hdel, hdirty]
  refine ⟨fun d a ha => ?_, fun d b hb => ?_, fun hn hall => ?_, fun u hu => ?_⟩
  · rw [view_attr_flush s c d hk] at ha
    split_ifs at ha with hd
    exact ⟨hmay d hd (h.cached d a ha).1, (h.cached d a ha).2⟩
  · rw [dirtyBuffer_flush] at hb
    split_ifs at hb with hd
    rw [view_attr_flush s c d hk, if_neg hd]
    exact h.dirty d b hb
  · have hsize : (view (execFlush s c eid).1 eid).size = (view s eid).size := by
      rw [execFlush_fst]
      rfl
    rw [hsize]
    refine h.stored (fun d => ?_) fun u hu => ?_
    · by_cases hd : d = c
      · subst hd
        by_contra hne
        obtain ⟨buf, hb⟩ := Option.ne_none_iff_exists'.mp hne
        refine hall _ (List.mem_append_right _ List.mem_cons_self) _ rfl buf ?_
        rw [hcall buf hb]
        rfl
      · have hd' := hn d
        rwa [dirtyBuffer_flush, if_neg hd] at hd'
    · rcases mem_threads hu with rfl | hu
      · rintro a ⟨⟩ buf hc
        cases hc
      · exact hall u (mem_others hu)
  · rcases mem_threads hu with rfl | hu
    · rintro a ⟨⟩
      refine ⟨fun buf hb => ?_, fun d hd => ?_⟩
      · cases hc : dirtyBuffer (view s eid) c with
        | none =>
          rw [hquiet hc] at hb
          cases hb
        | some buf' =>
          rw [hcall buf' hc] at hb
          cases hb
          exact (h.dirty c buf hc).2
      · rw [land_root] at hd
        exact absurd hd (hq d)
    · refine (h.tame u (mem_others hu)).mono fun d hd => ?_
      rw [view_attr_flush s c d hk]
      split_ifs
      · rfl
      · exact hd

/-- The flush reaches the server. -/
theorem SizeCoherent.write {buf : Str}
    (h : SizeCoherent eid n ⟨s, pre ++ ⟨l, some ⟨q, .request (.extentPut eid buf), fs⟩⟩ :: post⟩)
    (hg : ServiceOk ⟨s, pre ++ ⟨l, some ⟨q, .request (.extentPut eid buf), fs⟩⟩ :: post⟩) :
    SizeCoherent eid n ⟨s.setStore (s.store.put eid buf),
      pre ++ ⟨l, some (.land q fs (.ret {}))⟩ :: post⟩ := by
  have hmem : (⟨l, some ⟨q, .request (.extentPut eid buf), fs⟩⟩ : AppThread) ∈
      pre ++ ⟨l, some ⟨q, .request (.extentPut eid buf), fs⟩⟩ :: post := by simp
  have hlen := (h.tame _ hmem _ rfl).1 buf rfl
  have hlink := (hg.system.threads _ hmem).linked _ rfl
  have hq : ∀ d, q ≠ .getattr d eid := fun d => root_ne_getattr hlink (by simp) (by simp)
  have hnobody : ∀ d, ¬ MayCache _ d eid := fun d =>
    not_mayCache_of_extentPut hg.system hmem rfl rfl
  refine ⟨fun d a ha => ?_, fun d b hb => ?_, fun _ _ => ?_, fun u hu => ?_⟩
  · exact absurd (h.cached d a ha).1 (hnobody d)
  · exact absurd (h.mayCache_of_dirty hb) (hnobody d)
  · simpa [view, Shared.setStore, Store.put] using hlen
  · rcases mem_threads hu with rfl | hu
    · rintro a ⟨⟩
      simp [Activity.land, hq]
    · exact (h.tame u (mem_others hu)).mono fun d hd => hd

theorem SizeCoherent.tame_getattr
    (h : SizeCoherent eid n ⟨s, pre ++ ⟨l, some ⟨q, .request (.getattr c eid), fs⟩⟩ :: post⟩)
    (hg : ServiceOk ⟨s, pre ++ ⟨l, some ⟨q, .request (.getattr c eid), fs⟩⟩ :: post⟩) :
    SizeTame (view s eid) eid n ⟨l, some (.land q fs (execGetattr s c eid))⟩ := by
  have hlink :=
    (hg.system.threads ⟨l, some ⟨q, .request (.getattr c eid), fs⟩⟩ (by simp)).linked _ rfl
  obtain ⟨rfl, rfl⟩ := linked_app hlink fun f hf => by cases f <;> cases hf
  rintro a ⟨⟩
  cases hb : (s.caches c).acache eid with
  | none => simp [execGetattr, hb, Activity.land, view]
  | some a => simp [execGetattr, hb, Activity.land, (h.cached c a hb).2]

theorem SizeCoherent.tame_extentGetattr
    (h : SizeCoherent eid n ⟨s, pre ++ ⟨l, some ⟨q, .request (.extentGetattr eid), fs⟩⟩ :: post⟩)
    (hg : ServiceOk ⟨s, pre ++ ⟨l, some ⟨q, .request (.extentGetattr eid), fs⟩⟩ :: post⟩) :
    SizeTame (view s eid) eid n ⟨l, some (.land q fs (.ret (s.store.getattr eid)))⟩ := by
  have hmem : (⟨l, some ⟨q, .request (.extentGetattr eid), fs⟩⟩ : AppThread) ∈
      pre ++ ⟨l, some ⟨q, .request (.extentGetattr eid), fs⟩⟩ :: post := by simp
  rintro a ⟨⟩
  refine ⟨by simp [Activity.land], ?_⟩
  rintro c rfl
  have hnone := ((h.tame _ hmem _ rfl).2 c rfl).1
  obtain ⟨-, hc⟩ := mayCache_of_root (c := c) hg rfl rfl
  rcases linked_getattr ((hg.system.threads _ hmem).linked _ rfl) with ⟨rfl, hk⟩ | ⟨rfl, -⟩
  · simp at hk
  · have hnone := hnone (by simp)
    have hclean : dirtyBuffer (view s eid) c = none := by
      by_contra hne
      obtain ⟨buf, hb⟩ := Option.ne_none_iff_exists'.mp hne
      exact (h.dirty c buf hb).1 hnone
    refine ⟨fun _ => hnone, ?_⟩
    rintro r ⟨⟩
    exact h.size_eq hg.system hc hclean

/-- A `get` that is answered fills the buffer cache with a clean copy. -/
theorem SizeCoherent.refill {r : Reply}
    (h : SizeCoherent eid n ⟨s, pre ++ ⟨l, some ⟨q, .reply r, .getRpc c eid :: fs⟩⟩ :: post⟩)
    (hv : Coherent eid v ⟨s, pre ++ ⟨l, some ⟨q, .reply r, .getRpc c eid :: fs⟩⟩ :: post⟩)
    (hg : ServiceOk ⟨s, pre ++ ⟨l, some ⟨q, .reply r, .getRpc c eid :: fs⟩⟩ :: post⟩)
    (hmay : ∀ d, MayCache ⟨s, pre ++ ⟨l, some ⟨q, .reply r, .getRpc c eid :: fs⟩⟩ :: post⟩ d eid →
      MayCache ⟨s.setCaches c ((s.caches c).getAnswered eid r),
        pre ++ ⟨l, some (.land q fs (.ret r))⟩ :: post⟩ d eid) :
    SizeCoherent eid n ⟨s.setCaches c ((s.caches c).getAnswered eid r),
      pre ++ ⟨l, some (.land q fs (.ret r))⟩ :: post⟩ := by
  have hmem : (⟨l, some ⟨q, .reply r, .getRpc c eid :: fs⟩⟩ : AppThread) ∈
      pre ++ ⟨l, some ⟨q, .reply r, .getRpc c eid :: fs⟩⟩ :: post := by simp
  have hlink := (hg.system.threads _ hmem).linked _ rfl
  obtain ⟨rfl, rfl⟩ : q = .get c eid ∧ fs = [] := by
    obtain ⟨⟨hserve, -⟩, -⟩ := hlink
    cases fs with
    | nil => exact ⟨hserve.symm, rfl⟩
    | cons f fs => cases f <;> cases hserve
  have hnone := ((hv.tame _ hmem _ rfl).2.2 c rfl).1 (by simp)
  refine h.frame (funext fun d => ?_) (funext fun d => ?_) rfl hmay
    (by rintro a ⟨⟩ buf hb; cases hb) ?_
  · rw [view_attr_setCaches]
    split_ifs with hd
    · subst hd
      unfold Caches.getAnswered
      split_ifs <;> rfl
    · rfl
  · rw [dirtyBuffer_setCaches]
    split_ifs with hd
    · subst hd
      have hb : (s.caches d).bcache eid = none := hnone
      unfold Caches.getAnswered dirtyBuffer
      split_ifs
      · simp [Caches.setEntry, hnone]
      · simp [hb, hnone]
    · rfl
  · rintro a ⟨⟩
    simp [Activity.land]

/-- The size that a step gives to extent `eid`. -/
def sizeAfter (eid : ExtentId) (n : UInt32) (lab : Label Empty Request Reply Frame Sleeper) :
    UInt32 :=
  ((putOf eid lab).map fun buf => UInt32.ofNat buf.length).getD n

theorem SizeCoherent.exec {r : Request}
    (h : SizeCoherent eid n ⟨s, pre ++ ⟨l, some ⟨q, .request r, fs⟩⟩ :: post⟩)
    (hv : Coherent eid v ⟨s, pre ++ ⟨l, some ⟨q, .request r, fs⟩⟩ :: post⟩)
    (hg : ServiceOk ⟨s, pre ++ ⟨l, some ⟨q, .request r, fs⟩⟩ :: post⟩)
    (hx : exec r s = some (s', o)) (hrem : ∀ c, r ≠ .remove c eid)
    (hk : ∀ c, r = .dorelease c eid → ¬ LeavesAttr s c eid)
    (hmay : ∀ c, r ≠ .dorelease c eid →
      MayCache ⟨s, pre ++ ⟨l, some ⟨q, .request r, fs⟩⟩ :: post⟩ c eid →
        MayCache ⟨s', pre ++ ⟨l, some (.land q fs o)⟩ :: post⟩ c eid) :
    SizeCoherent eid (sizeAfter eid n (.ran r)) ⟨s', pre ++ ⟨l, some (.land q fs o)⟩ :: post⟩ := by
  have hmem : (⟨l, some ⟨q, .request r, fs⟩⟩ : AppThread) ∈
      pre ++ ⟨l, some ⟨q, .request r, fs⟩⟩ :: post := by simp
  have hlink := (hg.system.threads _ hmem).linked _ rfl
  by_cases halt : Alters eid r
  · cases r with
    | put c e buf =>
      obtain rfl : e = eid := halt
      cases hx
      simpa [sizeAfter, putOf] using h.put hg fun d => hmay d (by simp)
    | remove c e =>
      obtain rfl : e = eid := halt
      exact absurd rfl (hrem c)
    | dorelease c e =>
      obtain rfl : e = eid := halt
      obtain ⟨rfl, rfl⟩ : (execFlush s c e).1 = s' ∧ (execFlush s c e).2 = o := by
        rw [Option.some.inj hx]
        exact ⟨rfl, rfl⟩
      exact h.flush hv hg (hk c rfl) fun d hd => hmay d fun he => hd (by cases he; rfl)
    | extentPut e buf =>
      obtain rfl : e = eid := halt
      cases hx
      exact h.write hg
    | extentRemove e =>
      obtain rfl : e = eid := halt
      exact absurd rfl (hv.tame _ hmem _ rfl).2.1
    | _ => exact halt.elim
  · have hdo : ∀ c, r ≠ .dorelease c eid := fun c he => halt (he ▸ rfl)
    have hnw : NotWriting eid ⟨l, some ⟨q, .request r, fs⟩⟩ := by
      rintro a ⟨⟩ buf hb
      exact halt (Control.request.inj hb ▸ rfl)
    rw [sizeAfter, putOf_of_not_alters halt]
    refine h.sameView (sameView_exec hx halt).1 (fun c => hmay c (hdo c)) hnw ?_
    by_cases hget : ∃ c, r = .getattr c eid
    · obtain ⟨c, rfl⟩ := hget
      cases hx
      exact h.tame_getattr hg
    · by_cases hext : r = .extentGetattr eid
      · subst hext
        cases hx
        exact h.tame_extentGetattr hg
      · exact sizeTame_land (machine_lawful.exec _ _ _ _ hx) (fun c _ _ _ => hdo c)
          fun c => root_ne_getattr hlink (fun he => hget ⟨c, he⟩) hext

theorem SizeCoherent.resume {f : Frame} {r : Reply}
    (h : SizeCoherent eid n ⟨s, pre ++ ⟨l, some ⟨q, .reply r, f :: fs⟩⟩ :: post⟩)
    (hv : Coherent eid v ⟨s, pre ++ ⟨l, some ⟨q, .reply r, f :: fs⟩⟩ :: post⟩)
    (hg : ServiceOk ⟨s, pre ++ ⟨l, some ⟨q, .reply r, f :: fs⟩⟩ :: post⟩)
    (hx : resume f r s = some (s', o))
    (hmay : ∀ c, MayCache ⟨s, pre ++ ⟨l, some ⟨q, .reply r, f :: fs⟩⟩ :: post⟩ c eid →
      MayCache ⟨s', pre ++ ⟨l, some (.land q fs o)⟩ :: post⟩ c eid) :
    SizeCoherent eid n ⟨s', pre ++ ⟨l, some (.land q fs o)⟩ :: post⟩ := by
  have hlink := (hg.system.threads ⟨l, some ⟨q, .reply r, f :: fs⟩⟩ (by simp)).linked _ rfl
  by_cases hfill : Fills eid f
  · cases f with
    | getRpc c e =>
      obtain rfl : e = eid := hfill
      cases hx
      exact h.refill hv hg hmay
    | getattrRpc c e =>
      obtain rfl : e = eid := hfill
      cases hx
      exact h.fill hg hmay
    | _ => exact hfill.elim
  · have hq : ∀ c, q ≠ .getattr c eid := by
      rintro c rfl
      rcases linked_getattr hlink with ⟨hf, -⟩ | ⟨hf, -⟩
      · cases hf
      · exact hfill ((List.cons.inj hf).1 ▸ rfl)
    refine h.sameView (sameView_resume hx hfill).1 hmay (by rintro a ⟨⟩ buf hb; cases hb) ?_
    refine sizeTame_land (machine_lawful.resume _ _ _ _ _ hlink.2 hx) ?_ hq
    rintro c r' f' rfl hf
    cases f <;> simp [machine, serves] at hf <;> simp [FileService.resume] at hx

theorem sizeTame_begins {w : View} {P : Local → Request → Prop} {l' : Local} {r : Request}
    (h : Begins P l r l') : SizeTame w eid n ⟨l', some ⟨r, .request r, []⟩⟩ := by
  rintro a ⟨⟩
  refine ⟨?_, fun c _ => ⟨fun hf => absurd rfl hf, fun r hr => by cases hr⟩⟩
  rintro buf ⟨⟩
  obtain ⟨hr, -⟩ := h.isAppCall
  simp [Request.IsAppCall, Request.IsExtentCall] at hr

end

/-! ## Runs -/

/-- The client whose cache a step flushes of extent `eid`. -/
def flushOf (eid : ExtentId) : Label Empty Request Reply Frame Sleeper → Option ClientId
  | .ran (.dorelease c e) => if e = eid then some c else none
  | _ => none

/-- The two things that must not happen at a step: a release that leaves attributes behind,
and a buffer whose length the 32-bit size cannot hold. -/
def Careful (eid : ExtentId) (s : Shared) (lab : Label Empty Request Reply Frame Sleeper) : Prop :=
  (∀ c ∈ flushOf eid lab, ¬ LeavesAttr s c eid) ∧ ∀ buf ∈ putOf eid lab, buf.length < 2 ^ 32

instance (s : Shared) (c : ClientId) (eid : ExtentId) : Decidable (LeavesAttr s c eid) :=
  inferInstanceAs (Decidable (_ ∧ _))

instance (eid : ExtentId) (s : Shared) (lab : Label Empty Request Reply Frame Sleeper) :
    Decidable (Careful eid s lab) :=
  inferInstanceAs (Decidable (_ ∧ _))

/-- The length of the most recent `put` of a run, for an extent that started with size `n`. -/
def currentSize (eid : ExtentId) (n : ℕ) (tr : List SystemLabel) : ℕ :=
  ((lastPut eid tr).map List.length).getD n

/-- A step of the service that is careful about extent `eid`. -/
def CarefulStep (eid : ExtentId) (g : System) (lab : SystemLabel) (g' : System) : Prop :=
  Step machine (app Holding) g lab g' ∧ Careful eid g.shared lab.2

theorem currentSize_snoc (eid : ExtentId) (k : ℕ) (tr : List SystemLabel) (lab : SystemLabel) :
    currentSize eid k (tr ++ [lab]) =
      ((putOf eid lab.2).map List.length).getD (currentSize eid k tr) := by
  simp only [currentSize, lastPut, List.foldl_append, List.foldl_cons, List.foldl_nil]
  cases putOf eid lab.2 <;> rfl

variable {i : ℕ} {lab : Label Empty Request Reply Frame Sleeper}

theorem SizeCoherent.step (h : SizeCoherent eid n g) (hv : Coherent eid v g) (hg : ServiceOk g)
    (hs : Step machine (app Holding) g (i, lab) g') (hrem : removes eid lab = false)
    (hk : Careful eid g.shared lab) : SizeCoherent eid (sizeAfter eid n lab) g' := by
  cases hs with
  | @mk s s' t t' lab pre post ht =>
    have hmay : ∀ c, lab ≠ .ran (.dorelease c eid) → MayCache ⟨s, pre ++ t :: post⟩ c eid →
        MayCache ⟨s', pre ++ t' :: post⟩ c eid :=
      fun c hl => mayCache_step hg.system hg.lu (.mk pre post ht) hl
    cases ht with
    | think hx => exact hx.elim
    | begins hx =>
      exact h.sameView rfl (fun c => hmay c (by simp)) (by rintro a ⟨⟩) (sizeTame_begins hx)
    | ended hx =>
      exact h.sameView rfl (fun c => hmay c (by simp)) (by rintro a ⟨⟩ buf hb; cases hb)
        (by rintro a ⟨⟩)
    | exec hx =>
      refine h.exec hv hg hx (fun c he => by simp [removes, he] at hrem) (fun c he => ?_)
        fun c hc => hmay c fun he => hc (Label.ran.inj he)
      subst he
      exact hk.1 c (by simp [flushOf])
    | resume hx => exact h.resume hv hg hx fun c => hmay c (by simp)
    | @wake l q w fs s' o hx =>
      have hlink := (hg.system.threads ⟨l, some ⟨q, .asleep w, fs⟩⟩ (by simp)).linked _ rfl
      refine h.sameView (sameView_wake eid hx).1 (fun c => hmay c (by simp))
        (by rintro a ⟨⟩ buf hb; cases hb) ?_
      refine sizeTame_land (machine_lawful.wake _ _ _ _ hx) (fun c r' f' _ => by simp [machine]) ?_
      rintro c rfl
      rcases linked_getattr hlink with ⟨-, hk | ⟨x, hk⟩⟩ | ⟨-, hk | ⟨x, hk⟩⟩ <;> cases hk

/-- The 32-bit size of a careful step is the true length. -/
theorem toNat_sizeAfter {s : Shared} (hk : Careful eid s lab) {k : ℕ} (hn : n.toNat = k) :
    (sizeAfter eid n lab).toNat = ((putOf eid lab).map List.length).getD k := by
  unfold sizeAfter
  cases hp : putOf eid lab with
  | none => exact hn
  | some buf => simpa using Nat.mod_eq_of_lt (hk.2 buf hp)

theorem Fresh.sizeCoherent (h : Fresh g) (eid : ExtentId) :
    SizeCoherent eid (g.shared.store.attr eid).size g where
  cached c a ha := by simp [view, h.caches] at ha
  dirty c b hb := by simp [dirtyBuffer, view, h.caches] at hb
  stored _ _ := rfl
  tame t ht a ha := by simp [(h.initial.threads t ht).1] at ha

theorem Fresh.run_sizeCoherent (eid : ExtentId) (hg : Fresh g) {tr : List SystemLabel}
    (hr : Run (CarefulStep eid) g tr g') (hrem : NeverRemoved eid tr) :
    ∃ m, m.toNat = currentSize eid (g.shared.store.attr eid).size.toNat tr ∧
      SizeCoherent eid m g' := by
  have hplain : ∀ {tr b}, Run (CarefulStep eid) g tr b → Run (Step machine (app Holding)) g tr b := by
    exact fun hb => hb.mono fun _ _ _ hs => hs.1
  refine hr.history_invariant (I := fun tr g' => NeverRemoved eid tr →
    ∃ m, m.toNat = currentSize eid (g.shared.store.attr eid).size.toNat tr ∧ SizeCoherent eid m g')
    (fun _ => ⟨_, rfl, Fresh.sizeCoherent hg eid⟩) ?_ hrem
  rintro tr b ⟨i, lab⟩ c run ih ⟨hs, hk⟩ hnone
  have hpre : NeverRemoved eid tr := fun lab hl => hnone lab (by simp [hl])
  obtain ⟨m, hm, hc⟩ := ih hpre
  refine ⟨sizeAfter eid m lab, ?_, ?_⟩
  · rw [currentSize_snoc]
    exact toNat_sizeAfter hk hm
  · exact hc.step (Fresh.run_coherent eid hg (hplain run) hpre) (hg.run_serviceOk (hplain run)) hs
      (hnone (i, lab) (by simp)) hk

/-- In every careful run, the size that `getattr` returns is the length of the last `put`
before it, by whatever client, or the size that the server had at the start. -/
theorem getattr_size_of_careful (hg : Fresh g) {tr tr₁ tr₂ : List SystemLabel} {r : Reply}
    (hr : Run (CarefulStep eid) g tr g') (hrem : NeverRemoved eid tr)
    (htr : tr = tr₁ ++ (i, .ended (.getattr c eid) r) :: tr₂) :
    r.attr.size.toNat = currentSize eid (g.shared.store.attr eid).size.toNat tr₁ := by
  subst htr
  obtain ⟨g₁, g₂, h1, ⟨h2, -⟩, -⟩ := hr.split
  obtain ⟨m, hm, hc⟩ := Fresh.run_sizeCoherent eid hg h1 fun lab hl =>
    hrem lab (by simp [hl])
  rw [← hm]
  cases h2 with
  | mk pre post ht =>
    cases ht with
    | ended hx =>
      have ht := hc.tame _ (List.mem_append_right _ List.mem_cons_self) _ rfl
      rw [(ht.2 c rfl).2 r rfl]

/-- `A` reads and writes file 7 and keeps both caches filled; `B` takes the lock and looks at
the attributes. -/
def handoverAttr : List (Choice Request) :=
  alone 0 (Request.acquire clientA 7) 4 ++ alone 0 (Request.getattr clientA 7) 4 ++
    alone 0 (Request.put clientA 7 [1, 2, 3]) 2 ++ alone 0 (Request.release clientA 7) 2 ++
      alone 1 (Request.acquire clientB 7) 16 ++ alone 1 (Request.getattr clientB 7) 4

def playCareful (cs : List (Choice Request)) : Option (List SystemLabel × System) :=
  playIf machine (allow Holding) (fun l r _ => l.after r)
    (fun g lab => decide (Careful 7 g.shared lab.2)) cs twoClients

theorem getattr_size_handover : ∃ tr r g,
    Run (CarefulStep 7) twoClients (tr ++ [(1, .ended (.getattr clientB 7) r)]) g ∧
      r.attr.size.toNat = 3 ∧ currentSize 7 0 tr = 3 := by
  have hobs : (playCareful handoverAttr).map
        (fun x => (x.1.getLast?, x.1.all fun lab => !removes 7 lab.2)) =
      some (some (1, .ended (.getattr clientB 7) { attr := { type := typeFile, size := 3 } }),
        true) := by decide +kernel
  obtain ⟨⟨tr, g⟩, hp, hseen⟩ := Option.map_eq_some_iff.mp hobs
  rw [Prod.mk.injEq] at hseen
  obtain ⟨hlast, hrem⟩ := hseen
  have hr : Run (CarefulStep 7) twoClients tr g :=
    (run_playIf begins_allow (fun _ _ _ => rfl) handoverAttr hp).mono fun _ _ _ hs =>
      ⟨hs.1, of_decide_eq_true hs.2⟩
  have hsplit : tr.dropLast ++ [_] = tr := List.dropLast_append_getLast? _ hlast
  refine ⟨tr.dropLast, _, g, hsplit.symm ▸ hr, rfl, ?_⟩
  exact (getattr_size_of_careful twoClients_fresh hr (by simpa [NeverRemoved] using hrem)
    hsplit.symm).symm

/-! ### Attributes that outlive the lock -/

/-- `A` looks at the attributes of file 7 and gives the lock away; `B` writes the file;
`A` looks again. -/
def staleAttr : List (Choice Request) :=
  alone 0 (Request.acquire clientA 7) 4 ++ alone 0 (Request.getattr clientA 7) 4 ++
    alone 0 (Request.release clientA 7) 2 ++ alone 1 (Request.acquire clientB 7) 14 ++
      alone 1 (Request.put clientB 7 [1]) 2 ++ alone 1 (Request.release clientB 7) 2 ++
        alone 0 (Request.acquire clientA 7) 16 ++ alone 0 (Request.getattr clientA 7) 2

theorem getattr_stale : ∃ tr r g, Fresh twoClients ∧
    (twoClients.shared.store.attr 7).type = typeFile ∧
      Run (Step machine (app Holding)) twoClients
        (tr ++ [(0, .ended (.getattr clientA 7) r)]) g ∧
      NeverRemoved 7 (tr ++ [(0, .ended (.getattr clientA 7) r)]) ∧
      currentSize 7 (twoClients.shared.store.attr 7).size.toNat tr = 1 ∧
      r.ret = statusOk ∧ r.attr.size.toNat = 0 := by
  have hobs : (playHolding staleAttr).map (fun x =>
      (x.1.getLast?, x.1.all fun lab => !removes 7 lab.2, currentSize 7 0 x.1.dropLast)) =
      some (some (0, .ended (.getattr clientA 7) { attr := { type := typeFile } }), true, 1) := by
    decide +kernel
  obtain ⟨⟨tr, g⟩, hp, hseen⟩ := Option.map_eq_some_iff.mp hobs
  rw [Prod.mk.injEq, Prod.mk.injEq] at hseen
  obtain ⟨hlast, hrem, hsize⟩ := hseen
  have hr : Run (Step machine (app Holding)) twoClients tr g :=
    run_play begins_allow (fun _ _ _ => rfl) staleAttr hp
  have hnone : NeverRemoved 7 tr := by simpa [NeverRemoved] using hrem
  have hsplit : tr.dropLast ++ [_] = tr := List.dropLast_append_getLast? _ hlast
  rw [← hsplit] at hr hnone
  exact ⟨tr.dropLast, _, g, twoClients_fresh, rfl, hr, hnone, hsize, rfl, rfl⟩

end Yfs.AttributeCoherence
