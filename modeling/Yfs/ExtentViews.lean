import Yfs.CacheOwnership

/-!
# What the system knows about one extent

The view of an extent is everything that is cached or stored about it. Few pieces of code
touch it, and those that do run while one client alone may have the extent cached.
-/

namespace Yfs.ExtentViews
open LabelledRuns LockProtocol ExtentClient CallStackMachines FileService LockPhases LockLedger
open LockSafety CacheOwnership

structure View where
  buffer : ClientId → Option BufferCacheEntry
  attr : ClientId → Option Attr
  content : Str
  size : UInt32

def view (s : Shared) (eid : ExtentId) : View where
  buffer c := (s.caches c).bcache eid
  attr c := (s.caches c).acache eid
  content := s.store.content eid
  size := (s.store.attr eid).size

/-- The requests whose code writes to the view of `eid`. -/
def Alters (eid : ExtentId) : Request → Prop
  | .put _ e _ | .remove _ e | .dorelease _ e | .extentPut e _ | .extentRemove e => e = eid
  | _ => False

/-- The frames whose code writes to the view of `eid`. -/
def Fills (eid : ExtentId) : Frame → Prop
  | .getRpc _ e | .getattrRpc _ e => e = eid
  | _ => False

variable {s s' : Shared} {eid : ExtentId} {o : Ending}

/-- Two states that agree on one extent and on who has a `lock_release_user`. -/
def SameView (eid : ExtentId) (s s' : Shared) : Prop := view s' eid = view s eid ∧ s'.lu = s.lu

theorem sameView_leave (eid : ExtentId) (s : Shared) (p : Proc) (c : ClientId) (lid : LockId)
    (m : LockStateClient × ClientMove) : SameView eid s (leave s p c lid m).1 := by
  obtain ⟨r, mv⟩ := m
  cases mv with
  | done v => cases v <;> exact ⟨rfl, rfl⟩
  | _ => exact ⟨rfl, rfl⟩

theorem sameView_map {p : Proc} {c : ClientId} {lid : LockId}
    {x : Option (LockStateClient × ClientMove)} (h : x.map (leave s p c lid) = some (s', o)) :
    SameView eid s s' := by
  obtain ⟨m, -, he⟩ := Option.map_eq_some_iff.mp h
  have hv := sameView_leave eid s p c lid m
  rwa [he] at hv

theorem view_setCaches {c : ClientId} {k : Caches} (hb : k.bcache eid = (s.caches c).bcache eid)
    (ha : k.acache eid = (s.caches c).acache eid) : SameView eid s (s.setCaches c k) := by
  refine ⟨?_, rfl⟩
  simp only [view, Shared.setCaches, View.mk.injEq, and_self, and_true]
  constructor <;> funext d <;> by_cases hd : d = c
  · subst hd; simpa using hb
  · simp [hd]
  · subst hd; simpa using ha
  · simp [hd]

theorem view_setStore {x : Store} (hc : x.content eid = s.store.content eid)
    (ha : (x.attr eid).size = (s.store.attr eid).size) : SameView eid s (s.setStore x) := by
  refine ⟨?_, rfl⟩
  simp [view, Shared.setStore, hc, ha]

theorem flush_other (k : Caches) {e : ExtentId} (h : e ≠ eid) :
    (k.flush e).bcache eid = k.bcache eid ∧ (k.flush e).acache eid = k.acache eid := by
  unfold Caches.flush
  split
  · exact ⟨rfl, rfl⟩
  · simp [Ne.symm h]

theorem execFlush_fst (s : Shared) (c : ClientId) (e : ExtentId) :
    (execFlush s c e).1 = s.setCaches c ((s.caches c).flush e) := by
  unfold execFlush
  split
  · rfl
  · split_ifs <;> rfl

theorem sameView_exec {r : Request} (h : exec r s = some (s', o)) (hr : ¬ Alters eid r) :
    SameView eid s s' := by
  cases r with
  | acquire c lid =>
    obtain ⟨rfl, -⟩ := Prod.mk.inj (Option.some.inj h)
    exact sameView_leave eid s _ c lid _
  | release c lid | revoke c lid | retry c lid => exact sameView_map h
  | lockAcquire lid id =>
    simp only [exec, execLockAcquire] at h
    split at h <;> cases h <;> exact ⟨rfl, rfl⟩
  | lockRelease lid id =>
    simp only [exec, execLockRelease] at h
    split at h <;> cases h <;> exact ⟨rfl, rfl⟩
  | dorelease c e =>
    have he := congrArg Prod.fst (Option.some.inj h)
    rw [execFlush_fst] at he
    subst he
    exact view_setCaches (flush_other _ hr).1 (flush_other _ hr).2
  | put c e buf =>
    cases h
    have hr : eid ≠ e := Ne.symm hr
    exact view_setCaches (by simp [Caches.put, Caches.setEntry, Caches.setAttr, hr])
      (by simp [Caches.put, Caches.setEntry, Caches.setAttr, hr])
  | remove c e =>
    cases h
    have hr : eid ≠ e := Ne.symm hr
    exact view_setCaches (by simp [Caches.remove, Caches.setEntry, hr]) rfl
  | extentPut e buf =>
    cases h
    have hr : eid ≠ e := Ne.symm hr
    exact view_setStore (by simp [Store.put, hr]) (by simp [Store.put, hr])
  | extentRemove e =>
    cases h
    have hr : eid ≠ e := Ne.symm hr
    exact view_setStore (by simp [Store.remove, hr]) (by simp [Store.remove, hr])
  | extentCreate type =>
    cases h
    refine view_setStore rfl ?_
    by_cases he : eid = s.store.supply s.store.next
    · simp [Store.create, he]
    · simp [Store.create, he]
  | get c e | getattr c e | create c type | extentGet e | extentGetattr e =>
    cases h
    exact ⟨rfl, rfl⟩

theorem sameView_resume {f : Frame} {v : Reply} (h : resume f v s = some (s', o))
    (hf : ¬ Fills eid f) : SameView eid s s' := by
  cases f with
  | acquireFirst | acquireSecond | releaseRpc | revokeRpc | retryRpc => exact sameView_map h
  | serverAcquire | flushPut | flushRemove =>
    simp only [resume] at h
    split_ifs at h
    cases h
    exact ⟨rfl, rfl⟩
  | getRpc c e =>
    cases h
    have hf : eid ≠ e := Ne.symm hf
    unfold Caches.getAnswered
    split_ifs
    · exact view_setCaches (by simp [Caches.setEntry, hf]) rfl
    · exact view_setCaches rfl rfl
  | getattrRpc c e =>
    cases h
    have hf : eid ≠ e := Ne.symm hf
    unfold Caches.getattrAnswered
    split_ifs
    · exact view_setCaches rfl (by simp [Caches.setAttr, hf])
    · exact view_setCaches rfl rfl
  | releaseFlush | revokeFlush | serverRelease | createRpc =>
    cases h
    exact ⟨rfl, rfl⟩

theorem sameView_wake (eid : ExtentId) {w : Sleeper} (h : wake w s = some (s', o)) : SameView eid s s' := by
  obtain ⟨rfl, -⟩ := Prod.mk.inj (Option.some.inj h)
  exact sameView_leave eid s _ _ _ _

/-! ## Applications that use an extent only under its lock -/

/-- The extent that a call of an application reads or writes. -/
def target : Request → Option ExtentId
  | .get _ eid | .put _ eid _ | .getattr _ eid | .remove _ eid => some eid
  | _ => none

/-- The caller holds the lock of the extent that it uses. -/
def Holding (l : Local) (r : Request) : Prop := ∀ eid ∈ target r, eid ∈ l.held

instance (l : Local) (r : Request) : Decidable (Holding l r) :=
  match h : target r with
  | none => isTrue (by simp [Holding, h])
  | some eid => decidable_of_iff (eid ∈ l.held) (by simp [Holding, h])

/-- While a call is being served, its caller keeps the lock. -/
def Covered (t : AppThread) : Prop := ∀ a ∈ t.busy, Holding t.loc a.root

/-- The standing assumptions: every client flushes before it releases, and every thread
uses extents only under their locks. -/
structure ServiceOk (g : System) : Prop where
  system : SystemOk g
  covered : ∀ t ∈ g.threads, Covered t
  lu : ∀ c, g.shared.lu c = true

variable {t t' : AppThread} {g g' : System} {lab : Label Empty Request Reply Frame Sleeper}

theorem Covered.step (ht : Covered t) (h : ThreadStep machine (app Holding) s t lab s' t') :
    Covered t' := by
  cases h with
  | think h => exact h.elim
  | begins h =>
    rintro a ⟨⟩
    cases h with
    | acquire lid => simp [Holding, target]
    | release lid hm => simp [Holding, target]
    | extent r hr hp => exact hp
  | ended h => simp [Covered]
  | @exec l q r fs s' o h | @resume l q v f fs s' o h | @wake l q w fs s' o h =>
    rintro a ⟨⟩
    have hc := ht _ rfl
    cases o <;> exact hc

theorem lu_step (h : ThreadStep machine (app Holding) s t lab s' t') : s'.lu = s.lu := by
  have hexec : ∀ r o, exec r s = some (s', o) → s'.lu = s.lu := fun r o h => by
    by_cases hr : Alters 0 r
    · cases r <;> first
        | exact hr.elim
        | (cases h; rfl)
        | (have he := congrArg Prod.fst (Option.some.inj h); rw [execFlush_fst] at he; subst he; rfl)
    · exact (sameView_exec h hr).2
  cases h with
  | exec h => exact hexec _ _ h
  | @resume l q v f fs s' o h =>
    by_cases hf : Fills 0 f
    · cases f <;> first | exact hf.elim | (cases h; rfl)
    · exact (sameView_resume h hf).2
  | wake h => exact (sameView_wake 0 h).2
  | think | begins | ended => rfl

theorem ServiceOk.step {lab : SystemLabel} (h : ServiceOk g)
    (hs : Step machine (app Holding) g lab g') : ServiceOk g' := by
  have hsys := h.system.step hs
  cases hs with
  | @mk s s' t t' lab pre post hs =>
    refine ⟨hsys, fun u hu => ?_, fun c => (congrFun (lu_step hs) c).trans (h.lu c)⟩
    simp only [List.mem_append, List.mem_cons] at hu
    rcases hu with hu | rfl | hu
    · exact h.covered u (by simp [hu])
    · exact (h.covered t (by simp)).step hs
    · exact h.covered u (by simp [hu])

/-- A freshly started service: nothing is locked or cached. -/
structure Fresh (g : System) : Prop where
  initial : Initial g
  caches : ∀ c, g.shared.caches c = {}
  lu : ∀ c, g.shared.lu c = true

theorem Fresh.serviceOk (h : Fresh g) : ServiceOk g :=
  ⟨h.initial.systemOk, fun t ht a ha => by simp [(h.initial.threads t ht).1] at ha, h.lu⟩

theorem Fresh.run_serviceOk (h : Fresh g) {tr : List SystemLabel}
    (hr : Run (Step machine (app Holding)) g tr g') : ServiceOk g' :=
  hr.invariant h.serviceOk fun _ _ _ hb hs => hb.step hs

/-! ## Readers and writers -/

/-- Two threads never hold the same lock. -/
theorem not_held_of_held {pre post : List AppThread} (hg : SystemOk ⟨s, pre ++ t :: post⟩)
    (ht : eid ∈ t.loc.held) {u : AppThread} (hu : u ∈ pre ++ post) : eid ∉ u.loc.held := by
  intro hm
  have hle := (insiders_le _ eid).trans (hg.locks eid).countP_hold_le
  have hpos : 0 < insiders ⟨s, pre ++ post⟩ eid :=
    List.countP_pos_iff.mpr ⟨u, hu, by simpa using hm⟩
  simp only [insiders, List.countP_append, List.countP_cons, ht, decide_true, if_true] at hle hpos
  omega

/-- A call that a single kind of frame serves, with one call of its own. -/
theorem framed_rpc {q : Request} {f : Frame} {fs : List Frame} (hq : ∀ f', serves f' = q → f' = f)
    (hf : ∀ f', serves f' ≠ calls f) (h : machine.Framed q fs) : fs = [] ∨ fs = [f] := by
  induction fs with
  | nil => exact .inl rfl
  | cons f' fs ih =>
    obtain ⟨hserve, hrest⟩ := h
    rcases ih hrest with rfl | rfl
    · exact .inr (by rw [hq f' hserve])
    · exact absurd hserve (hf f')

/-- What stands on top of a call that nobody sleeps for. -/
theorem expects_awake {q : Request} {k : Control Request Reply Sleeper} (h : machine.Expects q k)
    (hq : ∀ c lid, q ≠ .acquire c lid) : k = .request q ∨ ∃ r, k = .reply r := by
  cases k with
  | request r => exact .inl (congrArg _ h)
  | reply r => exact .inr ⟨r, rfl⟩
  | asleep w => exact absurd (Eq.symm h) (hq _ _)

/-- A `get` is served by the cache or by one call of the extent server. -/
theorem linked_get {c : ClientId} {e : ExtentId} {k : Control Request Reply Sleeper}
    {fs : List Frame} (h : machine.Linked ⟨.get c e, k, fs⟩) :
    (fs = [] ∧ (k = .request (.get c e) ∨ ∃ r, k = .reply r)) ∨
      (fs = [.getRpc c e] ∧ (k = .request (.extentGet e) ∨ ∃ r, k = .reply r)) := by
  obtain ⟨hf, hk⟩ := h
  have hq : ∀ f', serves f' = .get c e → f' = .getRpc c e := fun f' hf' => by
    cases f' <;> cases hf'; rfl
  rcases framed_rpc hq (fun f' hf' => by cases f' <;> cases hf') hf with rfl | rfl
  · exact .inl ⟨rfl, expects_awake hk (by simp)⟩
  · exact .inr ⟨rfl, expects_awake hk (by simp)⟩

/-- A `getattr` is served by the cache or by one call of the extent server. -/
theorem linked_getattr {c : ClientId} {e : ExtentId} {k : Control Request Reply Sleeper}
    {fs : List Frame} (h : machine.Linked ⟨.getattr c e, k, fs⟩) :
    (fs = [] ∧ (k = .request (.getattr c e) ∨ ∃ r, k = .reply r)) ∨
      (fs = [.getattrRpc c e] ∧ (k = .request (.extentGetattr e) ∨ ∃ r, k = .reply r)) := by
  obtain ⟨hf, hk⟩ := h
  have hq : ∀ f', serves f' = .getattr c e → f' = .getattrRpc c e := fun f' hf' => by
    cases f' <;> cases hf'; rfl
  rcases framed_rpc hq (fun f' hf' => by cases f' <;> cases hf') hf with rfl | rfl
  · exact .inl ⟨rfl, expects_awake hk (by simp)⟩
  · exact .inr ⟨rfl, expects_awake hk (by simp)⟩

/-- A `create` is served by one call of the extent server. -/
theorem linked_create {c : ClientId} {type : UInt32} {k : Control Request Reply Sleeper}
    {fs : List Frame} (h : machine.Linked ⟨.create c type, k, fs⟩) :
    (fs = [] ∧ (k = .request (.create c type) ∨ ∃ r, k = .reply r)) ∨
      (fs = [.createRpc c type] ∧ (k = .request (.extentCreate type) ∨ ∃ r, k = .reply r)) := by
  obtain ⟨hf, hk⟩ := h
  have hq : ∀ f', serves f' = .create c type → f' = .createRpc c type := fun f' hf' => by
    cases f' <;> cases hf'; rfl
  rcases framed_rpc hq (fun f' hf' => by cases f' <;> cases hf') hf with rfl | rfl
  · exact .inl ⟨rfl, expects_awake hk (by simp)⟩
  · exact .inr ⟨rfl, expects_awake hk (by simp)⟩

/-- The calls of the applications are made by nobody else. -/
theorem linked_app {q r : Request} {fs : List Frame} (h : machine.Linked ⟨q, .request r, fs⟩)
    (hr : ∀ f, calls f ≠ r) : fs = [] ∧ q = r := by
  obtain ⟨-, hk⟩ := h
  cases fs with
  | nil => exact ⟨rfl, Eq.symm hk⟩
  | cons f fs => exact absurd (Eq.symm hk) (hr f)

/-- The server's `put` is called only by a flush, on behalf of a release. -/
theorem departed_of_extentPut {c' : ClientId} {q : Request} {buf : Str} {fs : List Frame}
    (h : machine.Linked ⟨q, .request (.extentPut eid buf), fs⟩) (hq : q.IsAppCall c') :
    ∃ c, (c, .release .evicted) ∈ (ledger eid).activity ⟨q, .request (.extentPut eid buf), fs⟩ := by
  obtain ⟨hf, hk⟩ := h
  cases fs with
  | nil =>
    obtain rfl : Request.extentPut eid buf = q := hk
    simp [Request.IsAppCall, Request.IsExtentCall] at hq
  | cons f fs =>
    obtain ⟨hserve, -⟩ := hf
    obtain ⟨c, rfl⟩ : ∃ c, f = .flushPut c eid buf := by
      cases f <;> cases hk
      exact ⟨_, rfl⟩
    refine ⟨c, Multiset.mem_add.mpr (.inr (Multiset.mem_add.mpr (.inl ?_)))⟩
    have hb : (base q fs).calls machine = .dorelease c eid := by
      rw [Base.calls_base]
      exact hserve.symm
    simp [ledger, link_dorelease hb (grounded_base hq fs), flushStage]

/-- Nobody has the extent cached while a flush is writing it. -/
theorem not_mayCache_of_extentPut {c : ClientId} {a : Activity Request Reply Frame Sleeper}
    {buf : Str} (hg : SystemOk g) (ht : t ∈ g.threads) (ha : a ∈ t.busy)
    (hw : a.control = .request (.extentPut eid buf)) : ¬ MayCache g c eid := by
  intro hc
  obtain ⟨q, k, fs⟩ := a
  obtain rfl : k = .request (.extentPut eid buf) := hw
  have hok := hg.threads t ht
  obtain ⟨d, hd⟩ := departed_of_extentPut (hok.linked _ ha) (hok.root _ ha)
  have hm : (d, Token.release .evicted) ∈ (ledger eid).total g := by
    refine Ledger.mem_total ht (Multiset.mem_add.mpr (.inr ?_))
    rw [Option.mem_def.mp ha]
    exact hd
  have hh := ((hg.locks eid).phase d).holder_of_state
    (.inr (.inr ⟨.evicted, by simp, mem_tokensOf hm⟩))
  obtain ⟨b, hb⟩ := hh
  obtain ⟨b', hb'⟩ := hc.1
  obtain rfl := role_holder_unique hb hb'
  exact hc.2 (.inl hm)

/-! ## The numbers of new extents -/

theorem store_leave (s : Shared) (p : Proc) (c : ClientId) (lid : LockId)
    (m : LockStateClient × ClientMove) : (leave s p c lid m).1.store = s.store := by
  obtain ⟨r, mv⟩ := m
  cases mv with
  | done v => cases v <;> rfl
  | _ => rfl

theorem store_map {p : Proc} {c : ClientId} {lid : LockId}
    {x : Option (LockStateClient × ClientMove)} (h : x.map (leave s p c lid) = some (s', o)) :
    s'.store = s.store := by
  obtain ⟨m, -, he⟩ := Option.map_eq_some_iff.mp h
  have hv := store_leave s p c lid m
  rwa [he] at hv

theorem supply_exec {r : Request} (h : exec r s = some (s', o)) :
    s'.store.supply = s.store.supply := by
  cases r with
  | acquire c lid =>
    obtain ⟨rfl, -⟩ := Prod.mk.inj (Option.some.inj h)
    exact congrArg Store.supply (store_leave s _ _ _ _)
  | release c lid | revoke c lid | retry c lid => rw [store_map h]
  | lockAcquire lid id =>
    simp only [exec, execLockAcquire] at h
    split at h <;> cases h <;> rfl
  | lockRelease lid id =>
    simp only [exec, execLockRelease] at h
    split at h <;> cases h <;> rfl
  | dorelease c e =>
    have he := congrArg Prod.fst (Option.some.inj h)
    rw [execFlush_fst] at he
    subst he
    rfl
  | _ => cases h; rfl

theorem store_resume {f : Frame} {v : Reply} (h : resume f v s = some (s', o)) :
    s'.store = s.store := by
  cases f with
  | acquireFirst | acquireSecond | releaseRpc | revokeRpc | retryRpc => exact store_map h
  | serverAcquire | flushPut | flushRemove =>
    simp only [resume] at h
    split_ifs at h
    cases h
    rfl
  | _ => cases h; rfl

/-- A reply to `create` carries a number that the server hands out. -/
def Supplied (s : Shared) (t : AppThread) : Prop :=
  ∀ a ∈ t.busy, ∀ c type, a.root = .create c type → ∀ r, a.control = .reply r →
    ∃ j, r.id = s.store.supply j

theorem supply_step {P : Local → Request → Prop} (h : ThreadStep machine (app P) s t lab s' t') :
    s'.store.supply = s.store.supply := by
  cases h with
  | exec h => exact supply_exec h
  | resume h => rw [store_resume h]
  | wake h =>
    obtain ⟨rfl, -⟩ := Prod.mk.inj (Option.some.inj h)
    exact congrArg Store.supply (store_leave s _ _ _ _)
  | think | begins | ended => rfl

theorem Supplied.step {P : Local → Request → Prop} (ht : Supplied s t) (hok : ThreadOk t)
    (h : ThreadStep machine (app P) s t lab s' t') : Supplied s' t' := by
  have hsupply := supply_step h
  intro a ha c type hroot r hr
  rw [hsupply]
  cases h with
  | think h => exact h.elim
  | begins h =>
    cases ha
    cases hr
  | ended h => cases ha
  | @exec l q r₀ fs s' o h =>
    cases ha
    obtain rfl : q = .create c type := by cases o <;> exact hroot
    rcases linked_create (hok.linked _ rfl) with ⟨rfl, hk | ⟨x, hk⟩⟩ | ⟨rfl, hk | ⟨x, hk⟩⟩
    · cases hk
      cases h
      cases hr
    · cases hk
    · cases hk
      cases h
      cases hr
      exact ⟨_, rfl⟩
    · cases hk
  | @resume l q v f fs s' o h =>
    cases ha
    obtain rfl : q = .create c type := by cases o <;> exact hroot
    rcases linked_create (hok.linked _ rfl) with ⟨hfs, -⟩ | ⟨hfs, -⟩
    · cases hfs
    · cases hfs
      cases h
      cases hr
      exact ht _ rfl c type rfl _ rfl
  | @wake l q w fs s' o h =>
    cases ha
    obtain rfl : q = .create c type := by cases o <;> exact hroot
    rcases linked_create (hok.linked _ rfl) with ⟨-, hk | ⟨x, hk⟩⟩ | ⟨-, hk | ⟨x, hk⟩⟩ <;> cases hk

theorem Fresh.run_supplied {P : Local → Request → Prop} (hg : Fresh g) {tr : List SystemLabel}
    (hr : Run (Step machine (app P)) g tr g') :
    g'.shared.store.supply = g.shared.store.supply ∧ ∀ t ∈ g'.threads, Supplied g'.shared t := by
  refine hr.history_invariant (I := fun _ g' => g'.shared.store.supply = g.shared.store.supply ∧
    ∀ t ∈ g'.threads, Supplied g'.shared t) ⟨rfl, ?_⟩ ?_
  · intro t ht a ha
    simp [(hg.initial.threads t ht).1] at ha
  · intro tr b lab c run ih hs
    have hok := hg.initial.run_systemOk run
    cases hs with
    | @mk s s' t t' lab pre post hs =>
      have hsupply := supply_step hs
      refine ⟨hsupply.trans ih.1, ?_⟩
      intro u hu
      simp only [List.mem_append, List.mem_cons] at hu
      have hkeep : ∀ u ∈ pre ++ t :: post, Supplied s u → Supplied s' u := by
        intro u _ h a ha c type hroot r hr
        rw [hsupply]
        exact h a ha c type hroot r hr
      rcases hu with hu | rfl | hu
      · exact hkeep u (by simp [hu]) (ih.2 u (by simp [hu]))
      · exact (ih.2 t (by simp)).step (hok.threads t (by simp)) hs
      · exact hkeep u (by simp [hu]) (ih.2 u (by simp [hu]))

end Yfs.ExtentViews
