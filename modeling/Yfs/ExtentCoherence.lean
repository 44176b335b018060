import Yfs.ExtentViews

/-!
# Coherence of the buffer caches

Whatever the interleaving, an extent has one current content: the buffer of the last `put`.
It is in the cache of the client that may have it, or in the hands of the flush that
carries it to the server, or in the store; and every `get` returns it.
-/

namespace Yfs.ExtentCoherence
open LabelledRuns LockProtocol ExtentClient CallStackMachines FileService LockPhases LockLedger
open LockSafety CacheOwnership ExtentViews Schedules

/-- The buffer that a step puts into extent `eid`. -/
def putOf (eid : ExtentId) : Label Empty Request Reply Frame Sleeper → Option Str
  | .ran (.put _ e buf) => if e = eid then some buf else none
  | _ => none

theorem putOf_of_not_alters {eid : ExtentId} {r : Request} (h : ¬ Alters eid r) :
    putOf eid (.ran r) = none := by
  cases r <;> first | rfl | exact if_neg h

/-- Whether a step removes extent `eid`. -/
def removes (eid : ExtentId) : Label Empty Request Reply Frame Sleeper → Bool
  | .ran (.remove _ e) => e = eid
  | _ => false

/-- Extent `eid` is never removed in the run. -/
def NeverRemoved (eid : ExtentId) (tr : List SystemLabel) : Prop :=
  ∀ lab ∈ tr, removes eid lab.2 = false

/-- The buffer of the most recent `put` of a run. -/
def lastPut (eid : ExtentId) (tr : List SystemLabel) : Option Str :=
  tr.foldl (fun last lab => (putOf eid lab.2).or last) none

/-- The content that extent `eid` should have, when it started as `v`. -/
def currentContent (eid : ExtentId) (v : Str) (tr : List SystemLabel) : Str :=
  (lastPut eid tr).getD v

theorem currentContent_snoc (eid : ExtentId) (v : Str) (tr : List SystemLabel) (lab : SystemLabel) :
    currentContent eid v (tr ++ [lab]) = (putOf eid lab.2).getD (currentContent eid v tr) := by
  simp only [currentContent, lastPut, List.foldl_append, List.foldl_cons, List.foldl_nil]
  cases putOf eid lab.2 <;> rfl

/-- A thread that reads or writes extent `eid` has content `v` in its hands. -/
def Tame (w : View) (eid : ExtentId) (v : Str) (t : AppThread) : Prop :=
  ∀ a ∈ t.busy, (∀ buf, a.control = .request (.extentPut eid buf) → buf = v) ∧
    a.control ≠ .request (.extentRemove eid) ∧
      ∀ c, a.root = .get c eid →
        (a.frames ≠ [] → w.buffer c = none) ∧ ∀ r, a.control = .reply r → r.buf = v

def NotWriting (eid : ExtentId) (t : AppThread) : Prop :=
  ∀ a ∈ t.busy, ∀ buf, a.control ≠ .request (.extentPut eid buf)

structure Coherent (eid : ExtentId) (v : Str) (g : System) : Prop where
  cached : ∀ c e, (view g.shared eid).buffer c = some e → MayCache g c eid ∧ e.buf = v ∧
    e.deleted = false ∧ (e.dirty = false → (view g.shared eid).content = v)
  stored : (∀ c, (view g.shared eid).buffer c = none) → (∀ t ∈ g.threads, NotWriting eid t) →
    (view g.shared eid).content = v
  tame : ∀ t ∈ g.threads, Tame (view g.shared eid) eid v t

variable {s s' : Shared} {pre post : List AppThread} {t t' : AppThread} {eid : ExtentId} {v : Str}
  {g : System}

theorem Tame.mono {w w' : View} (h : Tame w eid v t)
    (hw : ∀ c, w.buffer c = none → w'.buffer c = none) : Tame w' eid v t := by
  intro a ha
  obtain ⟨h1, h2, h3⟩ := h a ha
  exact ⟨h1, h2, fun c hc => ⟨fun hf => hw c ((h3 c hc).1 hf), (h3 c hc).2⟩⟩

/-- A thread without the lock has nothing to do with the extent, unless it flushes it. -/
theorem Tame.of_not_held {w w' : View} {v' : Str} (h : Tame w eid v t) (hc : Covered t)
    (he : eid ∉ t.loc.held) (hw : NotWriting eid t) : Tame w' eid v' t := by
  intro a ha
  refine ⟨fun buf hb => absurd hb (hw a ha buf), (h a ha).2.1, fun c hr => ?_⟩
  exact absurd (hc a ha eid (by simp [hr, target])) he

theorem tame_idle (w : View) (l : Local) : Tame w eid v ⟨l, none⟩ := by simp [Tame]

theorem mem_threads {u : AppThread} (hu : u ∈ pre ++ t' :: post) : u = t' ∨ u ∈ pre ++ post := by
  simp only [List.mem_append, List.mem_cons] at hu ⊢
  tauto

theorem mem_others {u : AppThread} (hu : u ∈ pre ++ post) : u ∈ pre ++ t :: post := by
  simp only [List.mem_append, List.mem_cons] at hu ⊢
  tauto

/-- Nobody writes the extent while a client may have it cached. -/
theorem notWriting_of_mayCache {c : ClientId} (hg : SystemOk g) (hc : MayCache g c eid)
    (ht : t ∈ g.threads) : NotWriting eid t :=
  fun _ ha _ hw => not_mayCache_of_extentPut hg ht ha hw hc

/-- Where the server's copy is current: the one client that may have another has none, or
has not changed it. -/
theorem Coherent.content_eq {c : ClientId} (h : Coherent eid v g) (hg : SystemOk g)
    (hc : MayCache g c eid)
    (he : ∀ e, (view g.shared eid).buffer c = some e → e.dirty = false) :
    (view g.shared eid).content = v := by
  by_cases hb : ∃ e, (view g.shared eid).buffer c = some e
  · obtain ⟨e, hb⟩ := hb
    exact (h.cached c e hb).2.2.2 (he e hb)
  · refine h.stored (fun d => ?_) fun t ht => notWriting_of_mayCache hg hc ht
    by_contra hd
    obtain ⟨e, hd⟩ := Option.ne_none_iff_exists'.mp hd
    obtain rfl := hc.unique (h.cached d e hd).1
    exact hb ⟨e, hd⟩

/-- A step that neither alters the view nor ends anybody's right to cache. -/
theorem Coherent.frame (h : Coherent eid v ⟨s, pre ++ t :: post⟩)
    (hbuf : (view s' eid).buffer = (view s eid).buffer)
    (hcont : (view s' eid).content = (view s eid).content)
    (hmay : ∀ c, MayCache ⟨s, pre ++ t :: post⟩ c eid → MayCache ⟨s', pre ++ t' :: post⟩ c eid)
    (hw : NotWriting eid t) (ht' : Tame (view s eid) eid v t') :
    Coherent eid v ⟨s', pre ++ t' :: post⟩ := by
  refine ⟨fun c e hb => ?_, fun hn hall => ?_, fun u hu => ?_⟩
  · simp only [hbuf, hcont] at hb ⊢
    obtain ⟨h1, h2⟩ := h.cached c e hb
    exact ⟨hmay c h1, h2⟩
  · simp only [hbuf, hcont] at hn ⊢
    refine h.stored hn fun u hu => ?_
    rcases mem_threads hu with rfl | hu
    · exact hw
    · exact hall u (mem_others hu)
  · rcases mem_threads hu with rfl | hu
    · exact ht'.mono fun c hc => by rw [hbuf]; exact hc
    · exact (h.tame u (mem_others hu)).mono fun c hc => by rw [hbuf]; exact hc

/-- Only a flush calls the server to write or to remove the extent. -/
theorem land_control_ne {q r : Request} {fs : List Frame} {o : Ending}
    (ho : machine.Faithful r o) (hr : ∀ c r' f, o = .call r' f → r ≠ .dorelease c eid) (buf : Str) :
    (Activity.land q fs o).control ≠ .request (.extentPut eid buf) ∧
      (Activity.land q fs o).control ≠ .request (.extentRemove eid) := by
  cases o with
  | ret v => simp [Activity.land]
  | wait w => simp [Activity.land]
  | call r' f =>
    obtain ⟨hs, hc⟩ := ho
    simp only [Activity.land, ne_eq, Control.request.injEq]
    refine ⟨?_, ?_⟩ <;> rintro rfl <;> cases f <;> cases hc <;> exact hr _ _ _ rfl hs.symm

theorem land_root (q : Request) (fs : List Frame) (o : Ending) : (Activity.land q fs o).root = q := by
  cases o <;> rfl

/-- Code that serves no `get` of the extent and no flush of it leaves a tame thread. -/
theorem tame_land {w : View} {l : Local} {q r : Request} {fs : List Frame} {o : Ending}
    (ho : machine.Faithful r o) (hr : ∀ c r' f, o = .call r' f → r ≠ .dorelease c eid)
    (hq : ∀ c, q ≠ .get c eid) : Tame w eid v ⟨l, some (.land q fs o)⟩ := by
  rintro a ⟨⟩
  refine ⟨fun buf hb => absurd hb (land_control_ne ho hr buf).1, (land_control_ne ho hr []).2,
    fun c hc => ?_⟩
  rw [land_root] at hc
  exact absurd hc (hq c)

/-! ## The steps that touch the extent -/

section
variable {l : Local} {q : Request} {fs : List Frame} {c : ClientId}

/-- The thread that serves a call of its application on the extent holds the lock. -/
theorem mayCache_of_root {k : Control Request Reply Sleeper}
    (hg : ServiceOk ⟨s, pre ++ ⟨l, some ⟨q, k, fs⟩⟩ :: post⟩)
    (hq : eid ∈ target q) (hc : q.IsExtentCall c) :
    eid ∈ l.held ∧ MayCache ⟨s, pre ++ ⟨l, some ⟨q, k, fs⟩⟩ :: post⟩ c eid := by
  have hmem : (⟨l, some ⟨q, k, fs⟩⟩ : AppThread) ∈ pre ++ ⟨l, some ⟨q, k, fs⟩⟩ :: post := by simp
  have hheld : eid ∈ l.held := hg.covered _ hmem _ rfl eid hq
  have hroot : q.IsAppCall l.client := (hg.system.threads _ hmem).root _ rfl
  obtain rfl : c = l.client := by
    rcases hroot with ⟨lid, rfl⟩ | ⟨lid, rfl⟩ | hr
    · exact hc.elim
    · exact hc.elim
    · cases q <;> first | exact hc.elim | exact hc.symm.trans hr
  exact ⟨hheld, mayCache_of_held hg.system hmem hheld⟩

/-- All others keep away while a thread works on the extent under its lock. -/
theorem Coherent.others_tame {w : View} {v' : Str} (h : Coherent eid v ⟨s, pre ++ t :: post⟩)
    (hg : ServiceOk ⟨s, pre ++ t :: post⟩) (ht : eid ∈ t.loc.held)
    (hc : MayCache ⟨s, pre ++ t :: post⟩ c eid) {u : AppThread} (hu : u ∈ pre ++ post) :
    Tame w eid v' u :=
  (h.tame u (mem_others hu)).of_not_held (hg.covered u (mem_others hu))
    (not_held_of_held hg.system ht hu) (notWriting_of_mayCache hg.system hc (mem_others hu))

theorem view_buffer_setCaches (s : Shared) (c : ClientId) (k : Caches) (d : ClientId) :
    (view (s.setCaches c k) eid).buffer d = if d = c then k.bcache eid else (view s eid).buffer d := by
  simp only [view, Shared.setCaches]
  by_cases hd : d = c
  · subst hd; simp
  · simp [hd]

/-- The client that may have the extent cached stores a new buffer for it. -/
theorem Coherent.recache {k : Caches} {v' : Str} (e' : BufferCacheEntry)
    (h : Coherent eid v ⟨s, pre ++ t :: post⟩)
    (hmay : MayCache ⟨s, pre ++ t :: post⟩ c eid)
    (hmay' : MayCache ⟨s.setCaches c k, pre ++ t' :: post⟩ c eid)
    (hk : k.bcache eid = some e')
    (he : e'.buf = v' ∧ e'.deleted = false ∧ (e'.dirty = false → (view s eid).content = v'))
    (htame : ∀ u ∈ pre ++ t' :: post, Tame (view (s.setCaches c k) eid) eid v' u) :
    Coherent eid v' ⟨s.setCaches c k, pre ++ t' :: post⟩ := by
  refine ⟨fun d e hb => ?_, fun hn => ?_, htame⟩
  · rw [view_buffer_setCaches] at hb
    split_ifs at hb with hd
    · subst hd
      obtain rfl := Option.some.inj (hk.symm.trans hb)
      exact ⟨hmay', he⟩
    · exact absurd ((h.cached d e hb).1.unique hmay) hd
  · have hc := hn c
    rw [view_buffer_setCaches, if_pos rfl, hk] at hc
    cases hc

theorem Coherent.entry (h : Coherent eid v g) (c : ClientId) :
    ((g.shared.caches c).entry eid).deleted = false := by
  unfold Caches.entry
  cases hb : (g.shared.caches c).bcache eid with
  | none => rfl
  | some e => exact (h.cached c e hb).2.2.1

theorem Coherent.put {buf : Str}
    (h : Coherent eid v ⟨s, pre ++ ⟨l, some ⟨q, .request (.put c eid buf), fs⟩⟩ :: post⟩)
    (hg : ServiceOk ⟨s, pre ++ ⟨l, some ⟨q, .request (.put c eid buf), fs⟩⟩ :: post⟩)
    (hmay : ∀ d, MayCache ⟨s, pre ++ ⟨l, some ⟨q, .request (.put c eid buf), fs⟩⟩ :: post⟩ d eid →
      MayCache ⟨s.setCaches c ((s.caches c).put eid buf),
        pre ++ ⟨l, some (.land q fs (.ret {}))⟩ :: post⟩ d eid) :
    Coherent eid buf ⟨s.setCaches c ((s.caches c).put eid buf),
      pre ++ ⟨l, some (.land q fs (.ret {}))⟩ :: post⟩ := by
  have hlink := (hg.system.threads ⟨l, some ⟨q, .request (.put c eid buf), fs⟩⟩ (by simp)).linked _ rfl
  obtain ⟨rfl, rfl⟩ := linked_app hlink fun f hf => by cases f <;> cases hf
  obtain ⟨hheld, hc⟩ := mayCache_of_root (c := c) hg rfl rfl
  refine h.recache { (s.caches c).entry eid with buf := buf, dirty := true } hc (hmay c hc)
    (by simp [Caches.put, Caches.setEntry]) ⟨rfl, h.entry c, by simp⟩ fun u hu => ?_
  rcases mem_threads hu with rfl | hu
  · rintro a ⟨⟩
    exact ⟨by simp [Activity.land], by simp [Activity.land], by simp [Activity.land]⟩
  · exact h.others_tame hg hheld hc hu

/-- The server's copy arrives at a client that has none. -/
theorem Coherent.fill {r : Reply}
    (h : Coherent eid v ⟨s, pre ++ ⟨l, some ⟨q, .reply r, .getRpc c eid :: fs⟩⟩ :: post⟩)
    (hg : ServiceOk ⟨s, pre ++ ⟨l, some ⟨q, .reply r, .getRpc c eid :: fs⟩⟩ :: post⟩)
    (hmay : ∀ d, MayCache ⟨s, pre ++ ⟨l, some ⟨q, .reply r, .getRpc c eid :: fs⟩⟩ :: post⟩ d eid →
      MayCache ⟨s.setCaches c ((s.caches c).getAnswered eid r),
        pre ++ ⟨l, some (.land q fs (.ret r))⟩ :: post⟩ d eid) :
    Coherent eid v ⟨s.setCaches c ((s.caches c).getAnswered eid r),
      pre ++ ⟨l, some (.land q fs (.ret r))⟩ :: post⟩ := by
  have hmem : (⟨l, some ⟨q, .reply r, .getRpc c eid :: fs⟩⟩ : AppThread) ∈
      pre ++ ⟨l, some ⟨q, .reply r, .getRpc c eid :: fs⟩⟩ :: post := by simp
  have hok := hg.system.threads _ hmem
  obtain ⟨⟨hserve, hframed⟩, hret⟩ := hok.linked _ rfl
  have hroot := hok.root _ rfl
  -- the frame stands directly on the application's call
  obtain ⟨rfl, rfl⟩ : q = .get c eid ∧ fs = [] := by
    cases fs with
    | nil => exact ⟨hserve.symm, rfl⟩
    | cons f fs => cases f <;> cases hserve
  obtain ⟨hheld, hc⟩ := mayCache_of_root (c := c) hg rfl rfl
  obtain ⟨hnone, hbuf⟩ := (h.tame _ hmem _ rfl).2.2 c rfl
  have hnone := hnone (by simp)
  have hbuf := hbuf r rfl
  have hcontent := h.content_eq hg.system hc (by simp [hnone])
  have hentry : (s.caches c).entry eid = {} := by
    have hb : (s.caches c).bcache eid = none := hnone
    simp [Caches.entry, hb]
  have hret : r.ret = statusOk := hret
  refine h.recache { buf := r.buf } hc (hmay c hc)
    (by simp [Caches.getAnswered, hret, Caches.setEntry, hentry])
    ⟨hbuf, rfl, fun _ => hcontent⟩ fun u hu => ?_
  rcases mem_threads hu with rfl | hu
  · rintro a ⟨⟩
    refine ⟨by simp [Activity.land], by simp [Activity.land], fun d hd => ⟨by simp [Activity.land], ?_⟩⟩
    rintro r' ⟨⟩
    exact hbuf
  · exact h.others_tame hg hheld hc hu

/-- A `get` of the extent is busy with its own two calls only. -/
theorem root_ne_get {r : Request} {d : ClientId} (h : machine.Linked ⟨q, .request r, fs⟩)
    (hr : r ≠ .get d eid) (hr' : r ≠ .extentGet eid) : q ≠ .get d eid := by
  rintro rfl
  rcases linked_get h with ⟨-, hk | ⟨x, hk⟩⟩ | ⟨-, hk | ⟨x, hk⟩⟩
  · exact hr (Control.request.inj hk)
  · cases hk
  · exact hr' (Control.request.inj hk)
  · cases hk

theorem view_buffer_flush (s : Shared) (c d : ClientId) :
    (view (execFlush s c eid).1 eid).buffer d = if d = c then none else (view s eid).buffer d := by
  rw [execFlush_fst, view_buffer_setCaches]
  split_ifs with hd
  · unfold Caches.flush
    split <;> simp_all
  · rfl

theorem view_content_flush (s : Shared) (c : ClientId) :
    (view (execFlush s c eid).1 eid).content = (view s eid).content := by
  rw [execFlush_fst]
  rfl

/-- `dorelease` empties the cache; what was dirty is now on its way to the server. -/
theorem Coherent.flush
    (h : Coherent eid v ⟨s, pre ++ ⟨l, some ⟨q, .request (.dorelease c eid), fs⟩⟩ :: post⟩)
    (hg : ServiceOk ⟨s, pre ++ ⟨l, some ⟨q, .request (.dorelease c eid), fs⟩⟩ :: post⟩)
    (hmay : ∀ d, d ≠ c →
      MayCache ⟨s, pre ++ ⟨l, some ⟨q, .request (.dorelease c eid), fs⟩⟩ :: post⟩ d eid →
      MayCache ⟨(execFlush s c eid).1,
        pre ++ ⟨l, some (.land q fs (execFlush s c eid).2)⟩ :: post⟩ d eid) :
    Coherent eid v ⟨(execFlush s c eid).1,
      pre ++ ⟨l, some (.land q fs (execFlush s c eid).2)⟩ :: post⟩ := by
  have hlink :=
    (hg.system.threads ⟨l, some ⟨q, .request (.dorelease c eid), fs⟩⟩ (by simp)).linked _ rfl
  have hq : ∀ d, q ≠ .get d eid := fun d => root_ne_get hlink (by simp) (by simp)
  refine ⟨fun d e hb => ?_, fun hn hall => ?_, fun u hu => ?_⟩
  · rw [view_buffer_flush] at hb
    split_ifs at hb with hd
    rw [view_content_flush]
    exact ⟨hmay d hd (h.cached d e hb).1, (h.cached d e hb).2⟩
  · rw [view_content_flush]
    cases hb : (s.caches c).bcache eid with
    | none =>
      refine h.stored (fun d => ?_) fun u hu => ?_
      · have hd := hn d
        rw [view_buffer_flush] at hd
        split_ifs at hd with hdc
        · exact hdc ▸ hb
        · exact hd
      · rcases mem_threads hu with rfl | hu
        · rintro a ⟨⟩ buf hc
          cases hc
        · exact hall u (mem_others hu)
    | some e =>
      obtain ⟨-, hbuf, hdel, hclean⟩ := h.cached c e hb
      by_cases hdirty : e.dirty
      · refine absurd ?_ (hall _ (List.mem_append_right _ List.mem_cons_self) _ rfl e.buf)
        simp [execFlush, hb, hdel, hdirty, Activity.land]
      · exact hclean (by simpa using hdirty)
  · rcases mem_threads hu with rfl | hu
    · rintro a ⟨⟩
      cases hb : (s.caches c).bcache eid with
      | none => simp [execFlush, hb, Activity.land, hq]
      | some e =>
        obtain ⟨-, hbuf, hdel, -⟩ := h.cached c e hb
        by_cases hdirty : e.dirty
        · simp [execFlush, hb, hdel, hdirty, Activity.land, hq, hbuf]
        · simp [execFlush, hb, hdel, hdirty, Activity.land, hq]
    · refine (h.tame u (mem_others hu)).mono fun d hd => ?_
      rw [view_buffer_flush]
      split_ifs
      · rfl
      · exact hd

/-- The flush reaches the server. -/
theorem Coherent.write {buf : Str}
    (h : Coherent eid v ⟨s, pre ++ ⟨l, some ⟨q, .request (.extentPut eid buf), fs⟩⟩ :: post⟩)
    (hg : ServiceOk ⟨s, pre ++ ⟨l, some ⟨q, .request (.extentPut eid buf), fs⟩⟩ :: post⟩) :
    Coherent eid v ⟨s.setStore (s.store.put eid buf),
      pre ++ ⟨l, some (.land q fs (.ret {}))⟩ :: post⟩ := by
  have hmem : (⟨l, some ⟨q, .request (.extentPut eid buf), fs⟩⟩ : AppThread) ∈
      pre ++ ⟨l, some ⟨q, .request (.extentPut eid buf), fs⟩⟩ :: post := by simp
  obtain rfl : buf = v := (h.tame _ hmem _ rfl).1 buf rfl
  have hlink := (hg.system.threads _ hmem).linked _ rfl
  have hq : ∀ d, q ≠ .get d eid := fun d => root_ne_get hlink (by simp) (by simp)
  have hcontent : (view (s.setStore (s.store.put eid buf)) eid).content = buf := by
    simp [view, Shared.setStore, Store.put]
  refine ⟨fun d e hb => ?_, fun _ _ => hcontent, fun u hu => ?_⟩
  · exact absurd (h.cached d e hb).1 (not_mayCache_of_extentPut hg.system hmem rfl rfl)
  · rcases mem_threads hu with rfl | hu
    · rintro a ⟨⟩
      simp [Activity.land, hq]
    · exact (h.tame u (mem_others hu)).mono fun d hd => hd

/-- What `get` finds in the cache is current; otherwise it asks the server. -/
theorem Coherent.tame_get
    (h : Coherent eid v ⟨s, pre ++ ⟨l, some ⟨q, .request (.get c eid), fs⟩⟩ :: post⟩)
    (hg : ServiceOk ⟨s, pre ++ ⟨l, some ⟨q, .request (.get c eid), fs⟩⟩ :: post⟩) :
    Tame (view s eid) eid v ⟨l, some (.land q fs (execGet s c eid))⟩ := by
  have hlink := (hg.system.threads ⟨l, some ⟨q, .request (.get c eid), fs⟩⟩ (by simp)).linked _ rfl
  obtain ⟨rfl, rfl⟩ := linked_app hlink fun f hf => by cases f <;> cases hf
  rintro a ⟨⟩
  cases hb : (s.caches c).bcache eid with
  | none => simp [execGet, hb, Activity.land, view]
  | some e => simp [execGet, hb, Activity.land, (h.cached c e hb).2.1]

/-- What the server answers to a `get` is current. -/
theorem Coherent.tame_extentGet
    (h : Coherent eid v ⟨s, pre ++ ⟨l, some ⟨q, .request (.extentGet eid), fs⟩⟩ :: post⟩)
    (hg : ServiceOk ⟨s, pre ++ ⟨l, some ⟨q, .request (.extentGet eid), fs⟩⟩ :: post⟩) :
    Tame (view s eid) eid v ⟨l, some (.land q fs (.ret (s.store.get eid)))⟩ := by
  have hmem : (⟨l, some ⟨q, .request (.extentGet eid), fs⟩⟩ : AppThread) ∈
      pre ++ ⟨l, some ⟨q, .request (.extentGet eid), fs⟩⟩ :: post := by simp
  rintro a ⟨⟩
  refine ⟨by simp [Activity.land], by simp [Activity.land], ?_⟩
  rintro c rfl
  have hnone := ((h.tame _ hmem _ rfl).2.2 c rfl).1
  obtain ⟨-, hc⟩ := mayCache_of_root (c := c) hg rfl rfl
  rcases linked_get ((hg.system.threads _ hmem).linked _ rfl) with ⟨rfl, hk⟩ | ⟨rfl, -⟩
  · simp at hk
  · have hnone := hnone (by simp)
    refine ⟨fun _ => hnone, ?_⟩
    rintro r ⟨⟩
    exact h.content_eq hg.system hc (by simp [hnone])

theorem tame_begins {w : View} {P : Local → Request → Prop} {l' : Local} {r : Request}
    (h : Begins P l r l') : Tame w eid v ⟨l', some ⟨r, .request r, []⟩⟩ := by
  rintro a ⟨⟩
  refine ⟨?_, ?_, fun c _ => ⟨fun hf => absurd rfl hf, fun r hr => by cases hr⟩⟩
  · rintro buf ⟨⟩
    obtain ⟨hr, -⟩ := h.isAppCall
    simp [Request.IsAppCall, Request.IsExtentCall] at hr
  · rintro ⟨⟩
    obtain ⟨hr, -⟩ := h.isAppCall
    simp [Request.IsAppCall, Request.IsExtentCall] at hr

end

section
variable {l : Local} {q : Request} {fs : List Frame} {o : Ending}

theorem sameBuffers_resume {f : Frame} {r : Reply} (hx : resume f r s = some (s', o))
    (hf : ∀ c, f ≠ .getRpc c eid) : (view s' eid).buffer = (view s eid).buffer ∧
      (view s' eid).content = (view s eid).content := by
  by_cases hfill : Fills eid f
  · cases f with
    | getRpc c e =>
      obtain rfl : e = eid := hfill
      exact absurd rfl (hf c)
    | getattrRpc c e =>
      cases hx
      refine ⟨funext fun d => ?_, rfl⟩
      rw [view_buffer_setCaches]
      split_ifs with hd
      · subst hd
        unfold Caches.getattrAnswered
        split_ifs <;> rfl
      · rfl
    | _ => exact hfill.elim
  · have hview := (sameView_resume hx hfill).1
    exact ⟨by rw [hview], by rw [hview]⟩

theorem Coherent.exec {r : Request}
    (h : Coherent eid v ⟨s, pre ++ ⟨l, some ⟨q, .request r, fs⟩⟩ :: post⟩)
    (hg : ServiceOk ⟨s, pre ++ ⟨l, some ⟨q, .request r, fs⟩⟩ :: post⟩)
    (hx : exec r s = some (s', o)) (hrem : ∀ c, r ≠ .remove c eid)
    (hmay : ∀ c, r ≠ .dorelease c eid →
      MayCache ⟨s, pre ++ ⟨l, some ⟨q, .request r, fs⟩⟩ :: post⟩ c eid →
        MayCache ⟨s', pre ++ ⟨l, some (.land q fs o)⟩ :: post⟩ c eid) :
    Coherent eid ((putOf eid (.ran r)).getD v) ⟨s', pre ++ ⟨l, some (.land q fs o)⟩ :: post⟩ := by
  have hmem : (⟨l, some ⟨q, .request r, fs⟩⟩ : AppThread) ∈
      pre ++ ⟨l, some ⟨q, .request r, fs⟩⟩ :: post := by simp
  have hlink := (hg.system.threads _ hmem).linked _ rfl
  by_cases halt : Alters eid r
  · cases r with
    | put c e buf =>
      obtain rfl : e = eid := halt
      cases hx
      simpa [putOf] using h.put hg fun d => hmay d (by simp)
    | remove c e =>
      obtain rfl : e = eid := halt
      exact absurd rfl (hrem c)
    | dorelease c e =>
      obtain rfl : e = eid := halt
      obtain ⟨rfl, rfl⟩ : (execFlush s c e).1 = s' ∧ (execFlush s c e).2 = o := by
        rw [Option.some.inj hx]
        exact ⟨rfl, rfl⟩
      exact h.flush hg fun d hd => hmay d fun he => hd (by cases he; rfl)
    | extentPut e buf =>
      obtain rfl : e = eid := halt
      cases hx
      exact h.write hg
    | extentRemove e =>
      obtain rfl : e = eid := halt
      exact absurd rfl (h.tame _ hmem _ rfl).2.1
    | _ => exact halt.elim
  · have hdo : ∀ c, r ≠ .dorelease c eid := fun c he => halt (he ▸ rfl)
    have hnw : NotWriting eid ⟨l, some ⟨q, .request r, fs⟩⟩ := by
      rintro a ⟨⟩ buf hb
      exact halt (Control.request.inj hb ▸ rfl)
    rw [putOf_of_not_alters halt]
    have hview := (sameView_exec hx halt).1
    refine h.frame (by rw [hview]) (by rw [hview]) (fun c => hmay c (hdo c)) hnw ?_
    by_cases hget : ∃ c, r = .get c eid
    · obtain ⟨c, rfl⟩ := hget
      cases hx
      exact h.tame_get hg
    · by_cases hext : r = .extentGet eid
      · subst hext
        cases hx
        exact h.tame_extentGet hg
      · exact tame_land (machine_lawful.exec _ _ _ _ hx) (fun c _ _ _ => hdo c)
          fun c => root_ne_get hlink (fun he => hget ⟨c, he⟩) hext

theorem Coherent.resume {f : Frame} {r : Reply}
    (h : Coherent eid v ⟨s, pre ++ ⟨l, some ⟨q, .reply r, f :: fs⟩⟩ :: post⟩)
    (hg : ServiceOk ⟨s, pre ++ ⟨l, some ⟨q, .reply r, f :: fs⟩⟩ :: post⟩)
    (hx : resume f r s = some (s', o))
    (hmay : ∀ c, MayCache ⟨s, pre ++ ⟨l, some ⟨q, .reply r, f :: fs⟩⟩ :: post⟩ c eid →
      MayCache ⟨s', pre ++ ⟨l, some (.land q fs o)⟩ :: post⟩ c eid) :
    Coherent eid v ⟨s', pre ++ ⟨l, some (.land q fs o)⟩ :: post⟩ := by
  have hlink := (hg.system.threads ⟨l, some ⟨q, .reply r, f :: fs⟩⟩ (by simp)).linked _ rfl
  by_cases hfill : ∃ c, f = .getRpc c eid
  · obtain ⟨c, rfl⟩ := hfill
    cases hx
    exact h.fill hg hmay
  · obtain ⟨hbuf, hcont⟩ := sameBuffers_resume hx fun c hf => hfill ⟨c, hf⟩
    have hq : ∀ c, q ≠ .get c eid := by
      rintro c rfl
      rcases linked_get hlink with ⟨hf, -⟩ | ⟨hf, -⟩
      · cases hf
      · exact hfill ⟨c, (List.cons.inj hf).1⟩
    refine h.frame hbuf hcont hmay (by rintro a ⟨⟩ buf hb; cases hb) ?_
    refine tame_land (machine_lawful.resume _ _ _ _ _ hlink.2 hx) ?_ hq
    -- a flush that has heard from the server makes no further call
    rintro c r' f' rfl hf
    cases f <;> simp [machine, serves] at hf <;> simp [FileService.resume] at hx

end

variable {g' : System} {i : ℕ} {lab : Label Empty Request Reply Frame Sleeper}

theorem Coherent.step (h : Coherent eid v g) (hg : ServiceOk g)
    (hs : Step machine (app Holding) g (i, lab) g') (hrem : removes eid lab = false) :
    Coherent eid ((putOf eid lab).getD v) g' := by
  cases hs with
  | @mk s s' t t' lab pre post ht =>
    have hmay : ∀ c, lab ≠ .ran (.dorelease c eid) → MayCache ⟨s, pre ++ t :: post⟩ c eid →
        MayCache ⟨s', pre ++ t' :: post⟩ c eid :=
      fun c hl => mayCache_step hg.system hg.lu (.mk pre post ht) hl
    cases ht with
    | think hx => exact hx.elim
    | begins hx =>
      exact h.frame rfl rfl (fun c => hmay c (by simp)) (by rintro a ⟨⟩) (tame_begins hx)
    | ended hx =>
      exact h.frame rfl rfl (fun c => hmay c (by simp)) (by rintro a ⟨⟩ buf hb; cases hb)
        (tame_idle _ _)
    | exec hx =>
      exact h.exec hg hx (fun c he => by simp [removes, he] at hrem)
        fun c hc => hmay c fun he => hc (Label.ran.inj he)
    | resume hx => exact h.resume hg hx fun c => hmay c (by simp)
    | @wake l q w fs s' o hx =>
      have hlink := (hg.system.threads ⟨l, some ⟨q, .asleep w, fs⟩⟩ (by simp)).linked _ rfl
      have hview := (sameView_wake eid hx).1
      refine h.frame (by rw [hview]) (by rw [hview]) (fun c => hmay c (by simp))
        (by rintro a ⟨⟩ buf hb; cases hb) ?_
      refine tame_land (machine_lawful.wake _ _ _ _ hx) (fun c r' f' _ => by simp [machine]) ?_
      rintro c rfl
      rcases linked_get hlink with ⟨-, hk | ⟨x, hk⟩⟩ | ⟨-, hk | ⟨x, hk⟩⟩ <;> cases hk

theorem Fresh.coherent (h : Fresh g) (eid : ExtentId) :
    Coherent eid (g.shared.store.content eid) g where
  cached c e hb := by simp [view, h.caches] at hb
  stored _ _ := rfl
  tame t ht a ha := by simp [(h.initial.threads t ht).1] at ha

theorem Fresh.run_coherent (eid : ExtentId) (hg : Fresh g) {tr : List SystemLabel}
    (hr : Run (Step machine (app Holding)) g tr g') (hrem : NeverRemoved eid tr) :
    Coherent eid (currentContent eid (g.shared.store.content eid) tr) g' := by
  refine hr.history_invariant (I := fun tr g' => NeverRemoved eid tr →
    Coherent eid (currentContent eid (g.shared.store.content eid) tr) g')
    (fun _ => Fresh.coherent hg eid) ?_ hrem
  rintro tr b ⟨i, lab⟩ c run ih hs hnone
  rw [currentContent_snoc]
  exact (ih fun lab hl => hnone lab (by simp [hl])).step (hg.run_serviceOk run) hs
    (hnone _ (by simp))

/-- Every `get` that returns well returns the buffer of the last `put` before it, by whatever
client, or what the server had at the start. -/
theorem get_returns_last_put (hg : Fresh g) {tr tr₁ tr₂ : List SystemLabel} {c : ClientId}
    {r : Reply} (hr : Run (Step machine (app Holding)) g tr g') (hrem : NeverRemoved eid tr)
    (htr : tr = tr₁ ++ (i, .ended (.get c eid) r) :: tr₂) (_hok : r.ret = statusOk) :
    r.buf = currentContent eid (g.shared.store.content eid) tr₁ := by
  subst htr
  obtain ⟨g₁, g₂, h1, h2, -⟩ := hr.split
  have hc := Fresh.run_coherent eid hg h1 fun lab hl => hrem lab (by simp [hl])
  cases h2 with
  | mk pre post ht =>
    cases ht with
    | ended hx =>
      have ht := hc.tame _ (List.mem_append_right _ List.mem_cons_self) _ rfl
      exact (ht.2.2 c rfl).2 r rfl

/-! ### A dirty buffer that is taken over by another client -/

theorem twoClients_fresh : Fresh twoClients := ⟨twoClients_initial, fun _ => rfl, fun _ => rfl⟩

def playHolding (cs : List (Choice Request)) : Option (List SystemLabel × System) :=
  play machine (allow Holding) (fun l r _ => l.after r) cs twoClients

/-- `A` writes extent 7 and keeps it cached; `B` takes the lock, which makes `A` flush, and
reads the extent. -/
def handover : List (Choice Request) :=
  alone 0 (Request.acquire clientA 7) 4 ++ alone 0 (Request.put clientA 7 [1, 2, 3]) 2 ++
    alone 0 (Request.release clientA 7) 2 ++ alone 1 (Request.acquire clientB 7) 16 ++
      alone 1 (Request.get clientB 7) 4

theorem get_returns_last_put_handover : ∃ tr g,
    Run (Step machine (app Holding)) twoClients
        (tr ++ [(1, .ended (.get clientB 7) { buf := [1, 2, 3] })]) g ∧
      currentContent 7 [] tr = [1, 2, 3] := by
  have hobs : (playHolding handover).map
        (fun x => (x.1.getLast?, x.1.all fun lab => !removes 7 lab.2)) =
      some (some (1, .ended (.get clientB 7) { buf := [1, 2, 3] }), true) := by decide +kernel
  obtain ⟨⟨tr, g⟩, hp, hseen⟩ := Option.map_eq_some_iff.mp hobs
  rw [Prod.mk.injEq] at hseen
  obtain ⟨hlast, hrem⟩ := hseen
  have hr : Run (Step machine (app Holding)) twoClients tr g :=
    run_play begins_allow (fun _ _ _ => rfl) handover hp
  have hsplit := (List.dropLast_append_getLast? _ hlast).symm
  refine ⟨tr.dropLast, g, hsplit ▸ hr, ?_⟩
  exact (get_returns_last_put twoClients_fresh hr (by simpa [NeverRemoved] using hrem) hsplit rfl).symm

end Yfs.ExtentCoherence
