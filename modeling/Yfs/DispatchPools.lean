import Yfs.CallPools
import Yfs.LockSafety
import Mathlib.Data.Finset.Card

/-!
# The dispatch threads of the lock server and of its clients

Every `rpcs` has six threads that run handlers. A handler of the lock server keeps its thread while
it waits for `revoke` or `retry`, and a handler of a client while it waits for `release` or
`acquire`.
-/

namespace Yfs.DispatchPools
open LabelledRuns LockProtocol ExtentClient CallStackMachines FileService LockPhases LockLedger
open LockSafety CallPools

inductive Host where
  | server
  | client (c : ClientId)
  deriving DecidableEq

/-- The `rpcs` that serves a call of the lock protocol. -/
def host : Request → Option Host
  | .lockAcquire _ _ | .lockRelease _ _ => some .server
  | .revoke c _ | .retry c _ => some (.client c)
  | _ => none

/-- `new ThrPool(6, false)` -/
def pools : Hosting Request Host := ⟨host, 6⟩

abbrev LockPools := Pools Shared Local Request Reply Frame Sleeper Host

abbrev LockPoolLabel := PoolLabel Empty Request Reply Frame Sleeper Host

/-- Nothing has arrived yet. -/
def idle (g : System) : LockPools := ⟨g, fun _ => []⟩

variable {P : Local → Request → Prop} {g g' : System} {s s' : Shared} {t t' : AppThread}
  {c e : ClientId} {lid : LockId} {f : Frame} {v : Reply} {o : Ending} {r : Request}

/-! ## The shape of a stack -/

def lidOf : Request → Option LockId
  | .acquire _ lid | .release _ lid | .revoke _ lid | .retry _ lid | .lockAcquire lid _
  | .lockRelease lid _ | .dorelease _ lid => some lid
  | _ => none

theorem lidOf_of_host {h : Host} (hr : host r = some h) : ∃ lid, lidOf r = some lid := by
  cases r <;> first | exact ⟨_, rfl⟩ | cases hr

theorem lidOf_serves (h : lidOf (calls f) = some lid) : lidOf (serves f) = some lid := by
  cases f <;> first | exact h | cases h

section
variable {q : Request} {fs : List Frame}

/-- All frames of a stack are about the lock of the call at its bottom. -/
theorem lidOf_root (hf : machine.Framed q fs) (h : lidOf (machine.pending q fs) = some lid) :
    lidOf q = some lid := by
  induction fs with
  | nil => exact h
  | cons f fs ih =>
    have hs : lidOf (serves f) = some lid := lidOf_serves h
    refine ih hf.2 ?_
    rw [← hf.1]
    exact hs

theorem framed_of_append {pre : List Frame} (h : machine.Framed q (pre ++ fs)) :
    machine.Framed q fs := by
  induction pre with
  | nil => exact h
  | cons f pre ih => exact ih h.2

/-- Only an application calls `acquire` and `release`. -/
theorem frames_of_app (h : machine.pending q fs = .acquire c lid ∨ machine.pending q fs = .release c lid) :
    fs = [] := by
  cases fs with
  | nil => rfl
  | cons f fs => cases f <;> rcases h with h | h <;> cases h

variable {d : ClientId} (hq : q.IsAppCall d)
include hq

theorem frames_of_retry (h : machine.pending q fs = .retry c lid) :
    ∃ e fs', fs = .serverRelease lid e c :: fs' := by
  cases fs with
  | nil =>
    obtain rfl : q = .retry c lid := h
    simp [Request.IsAppCall, Request.IsExtentCall] at hq
  | cons f fs => cases f <;> cases h; exact ⟨_, _, rfl⟩

theorem frames_of_revoke (h : machine.pending q fs = .revoke c lid) :
    ∃ e ret fs', fs = .serverAcquire lid e ret c :: fs' := by
  cases fs with
  | nil =>
    obtain rfl : q = .revoke c lid := h
    simp [Request.IsAppCall, Request.IsExtentCall] at hq
  | cons f fs => cases f <;> cases h; exact ⟨_, _, _, rfl⟩

theorem frames_of_lockAcquire (h : machine.pending q fs = .lockAcquire lid c) :
    ∃ f fs', fs = f :: fs' ∧ (serves f = .acquire c lid ∨ f = .retryRpc c lid) := by
  cases fs with
  | nil =>
    obtain rfl : q = .lockAcquire lid c := h
    simp [Request.IsAppCall, Request.IsExtentCall] at hq
  | cons f fs =>
    cases f <;> cases h
    · exact ⟨_, _, rfl, .inl rfl⟩
    · exact ⟨_, _, rfl, .inl rfl⟩
    · exact ⟨_, _, rfl, .inr rfl⟩

theorem frames_of_lockRelease (h : machine.pending q fs = .lockRelease lid c) :
    ∃ f fs', fs = f :: fs' ∧ (f = .releaseRpc c lid ∨ f = .revokeRpc c lid) := by
  cases fs with
  | nil =>
    obtain rfl : q = .lockRelease lid c := h
    simp [Request.IsAppCall, Request.IsExtentCall] at hq
  | cons f fs =>
    cases f <;> cases h
    · exact ⟨_, _, rfl, .inl rfl⟩
    · exact ⟨_, _, rfl, .inr rfl⟩

end

/-! ## The locks in use -/

/-- The threads keep to the given locks. -/
structure LidsOk (lids : Finset LockId) (g : System) : Prop where
  held : ∀ t ∈ g.threads, ∀ lid ∈ t.loc.held, lid ∈ lids
  root : ∀ t ∈ g.threads, ∀ a ∈ t.busy, ∀ lid, lidOf a.root = some lid → lid ∈ lids

/-- The lock that an application asks for in a step. -/
def askedFor : Label Empty Request Reply Frame Sleeper → Option LockId
  | .begins (.acquire _ lid) => some lid
  | _ => none

/-- The acquire calls of a step keep to the given locks. -/
def Uses (lids : Finset LockId) (lab : Label Empty Request Reply Frame Sleeper) : Prop :=
  ∀ lid ∈ askedFor lab, lid ∈ lids

instance (lids : Finset LockId) (lab : Label Empty Request Reply Frame Sleeper) :
    Decidable (Uses lids lab) := Option.decidableForallMem (p := (· ∈ lids)) (askedFor lab)

theorem LidsOk.step {lids : Finset LockId} (h : LidsOk lids g) {i : ℕ}
    {lab : Label Empty Request Reply Frame Sleeper} (hs : Step machine (app P) g (i, lab) g')
    (hl : Uses lids lab) : LidsOk lids g' := by
  obtain ⟨t, t', hi, ht, hset⟩ := step_elim hs
  have hmem := List.mem_of_getElem? hi
  have hheld := h.held t hmem
  have hroot := h.root t hmem
  generalize g.shared = s at ht
  generalize g'.shared = s' at ht
  have hnew : (∀ lid ∈ t'.loc.held, lid ∈ lids) ∧
      ∀ a ∈ t'.busy, ∀ lid, lidOf a.root = some lid → lid ∈ lids := by
    cases ht with
    | think he => exact he.elim
    | @begins l r l' hb =>
      cases hb with
      | acquire lid =>
        refine ⟨hheld, ?_⟩
        rintro a ⟨⟩ lid' ⟨⟩
        exact hl _ rfl
      | release lid hm =>
        refine ⟨fun lid' h' => hheld lid' (List.mem_of_mem_erase h'), ?_⟩
        rintro a ⟨⟩ lid' ⟨⟩
        exact hheld lid hm
      | extent r hr hp =>
        refine ⟨hheld, ?_⟩
        rintro a ⟨⟩ lid' hlid
        cases r <;> first | exact hr.elim | cases hlid
    | @ended l q v l' he =>
      obtain rfl : l' = l.after q := he
      refine ⟨fun lid' h' => ?_, by simp⟩
      have hq := hroot _ rfl
      cases q with
      | acquire c lid =>
        rcases List.mem_cons.1 h' with rfl | h'
        · exact hq lid' rfl
        · exact hheld lid' h'
      | _ => exact hheld lid' h'
    | @exec l q r fs s' o hx | @wake l q w fs s' o hx | @resume l q v f fs s' o hx =>
      refine ⟨hheld, ?_⟩
      rintro a ⟨⟩ lid' hlid
      refine hroot _ rfl lid' ?_
      cases o <;> exact hlid
  constructor
  · intro u hu
    rw [hset] at hu
    rcases List.mem_or_eq_of_mem_set hu with hu | rfl
    · exact h.held u hu
    · exact hnew.1
  · intro u hu
    rw [hset] at hu
    rcases List.mem_or_eq_of_mem_set hu with hu | rfl
    · exact h.root u hu
    · exact hnew.2

/-! ## Threads that are taken, lock by lock -/

/-- The locks of the calls of a stack that have taken a thread of the host. -/
def lidsAt (h : Host) (t : AppThread) : List LockId :=
  t.busy.elim [] fun a =>
    a.frames.filterMap fun f => if host (serves f) = some h then lidOf (serves f) else none

theorem load_eq (h : Host) (t : AppThread) : load machine pools h t = (lidsAt h t).length := by
  obtain ⟨l, _ | ⟨q, k, fs⟩⟩ := t
  · rfl
  have hk : controlLoad machine pools h k = 0 := by cases k <;> rfl
  have hfs : framesLoad machine pools h fs = (lidsAt h (⟨l, some ⟨q, k, fs⟩⟩ : AppThread)).length := by
    induction fs with
    | nil => rfl
    | cons f fs ih =>
      change taken pools h (serves f) + framesLoad machine pools h fs = _
      rw [ih]
      by_cases hh : host (serves f) = some h
      · obtain ⟨lid, hl⟩ := lidOf_of_host hh
        simp [lidsAt, taken, pools, hh, hl, Nat.add_comm]
      · simp [lidsAt, taken, pools, hh]
  change controlLoad machine pools h k + framesLoad machine pools h fs = _
  rw [hk, hfs, Nat.zero_add]

theorem LidsOk.mem_of_mem_lidsAt {lids : Finset LockId} (h : LidsOk lids g) (hg : SystemOk g)
    {z : Host} (ht : t ∈ g.threads) (hl : lid ∈ lidsAt z t) : lid ∈ lids := by
  obtain ⟨l, _ | ⟨q, k, fs⟩⟩ := t
  · cases hl
  obtain ⟨f, hf, hlid⟩ := List.mem_filterMap.mp hl
  split_ifs at hlid with hh
  obtain ⟨pre, post, rfl⟩ := List.append_of_mem hf
  obtain ⟨hserves, hpost⟩ := framed_of_append ((hg.threads _ ht).linked _ rfl).1
  refine h.root _ ht _ rfl lid (lidOf_root hpost ?_)
  rw [← hserves]
  exact hlid

/-- A host on which every lock has at most one call. -/
theorem occupied_le {lids : Finset LockId} (h : LidsOk lids g) (hg : SystemOk g) {z : Host}
    (hone : ∀ lid, (g.threads.map fun t => (lidsAt z t).count lid).sum ≤ 1) :
    occupied machine pools z g ≤ lids.card := by
  have hlen : occupied machine pools z g = (g.threads.flatMap (lidsAt z)).length := by
    rw [List.length_flatMap]
    exact congrArg List.sum (List.map_congr_left fun t _ => load_eq z t)
  have hnodup : (g.threads.flatMap (lidsAt z)).Nodup := by
    refine List.nodup_iff_count_le_one.mpr fun lid => ?_
    rw [List.count_flatMap]
    exact hone lid
  rw [hlen, ← List.toFinset_card_of_nodup hnodup]
  refine Finset.card_le_card fun lid hl => ?_
  obtain ⟨t, ht, hl⟩ := List.mem_flatMap.mp (List.mem_toFinset.mp hl)
  exact h.mem_of_mem_lidsAt hg ht hl

/-- A client has at most one handler for a lock that waits for the server. -/
theorem client_room {lids : Finset LockId} (hg : SystemOk g) (h : LidsOk lids g)
    (c : ClientId) : occupied machine pools (.client c) g ≤ lids.card := by
  refine occupied_le h hg fun lid => ?_
  have hworth : ∀ f, host (serves f) = some (.client c) ∧ lidOf (serves f) = some lid →
      ∀ y, 1 ≤ ((ledger lid).link y (.frame f)).countP fun x => x.1 = c ∧ x.2.Waits := by
    rintro f ⟨hh, hl⟩ y
    have hpos : ∀ t : Token, (ledger lid).link y (.frame f) = on lid lid c {t} → t.Waits →
        1 ≤ ((ledger lid).link y (.frame f)).countP fun x => x.1 = c ∧ x.2.Waits := by
      intro t hlink ht
      exact Multiset.countP_pos.mpr ⟨(c, t), by simp [hlink], rfl, ht⟩
    cases f <;> cases hh <;> cases hl <;> exact hpos _ rfl trivial
  have hthread : ∀ t ∈ g.threads, (lidsAt (.client c) t).count lid ≤
      ((ledger lid).thread t).countP fun x => x.1 = c ∧ x.2.Waits := by
    rintro ⟨l, _ | a⟩ -
    · exact Nat.zero_le _
    · refine le_trans ?_ (Multiset.countP_le_of_le _ (Multiset.le_add_left _ _))
      refine le_trans (le_of_eq ?_) ((ledger lid).countP_frames_le hworth a)
      rw [lidsAt, Option.elim_some, List.count_filterMap]
      refine List.countP_congr fun f _ => ?_
      by_cases hh : host (serves f) = some (.client c) <;> simp [hh]
  refine ((ledger lid).sum_le_countP _ g hthread).trans ?_
  rw [← countP_tokensOf]
  exact ((hg.locks lid).phase c).countP_waits_le

/-! ## Who is next

A client whose refused call still waits for the revocation is the next one to get the lock. -/

def Next (r : LockStateServer) (c : ClientId) : Prop :=
  (r.state = .expecting ∧ r.holdingClient.id = c) ∨
    (r.state = .locked ∧ r.waitingClients.head? = some c)

theorem next_of_revoke {r r' : LockStateServer} {ret : Status} (hr : ServerOk r)
    (hx : serverAcquire r c = some (r', ret, some e)) :
    (ret = statusOk ∧ e = c) ∨ (ret = statusRetry ∧ Next r' c) := by
  unfold serverAcquire at hx
  cases hst : r.state with
  | free =>
    simp only [hst] at hx
    split_ifs at hx
    simp at hx
  | expecting =>
    simp only [hst] at hx
    split_ifs at hx with h1 h2 h3
    · simp only [Option.some.injEq, Prod.mk.injEq] at hx
      exact .inl ⟨hx.2.1.symm, hx.2.2.symm.trans h2⟩
    all_goals simp at hx
  | locked =>
    simp only [hst] at hx
    split_ifs at hx with h1 h2 h3
    · simp only [Option.some.injEq, Prod.mk.injEq] at hx
      obtain ⟨rfl, rfl, -⟩ := hx
      have hw : r.waitingClients = [] := by
        have ho := hr.ordered
        rw [h3] at ho
        simpa using ho.symm
      exact .inr ⟨rfl, .inr ⟨rfl, by simp [hw]⟩⟩
    · simp at hx

theorem Next.serverAcquire {r r' : LockStateServer} {ret : Status} {dest : Option ClientId}
    (h : Next r c) (hx : serverAcquire r e = some (r', ret, dest))
    (hne : r.state = .expecting → r.holdingClient.id = c → e ≠ c) : Next r' c := by
  unfold LockProtocol.serverAcquire at hx
  rcases h with ⟨hst, hid⟩ | ⟨hst, hw⟩
  · simp only [hst] at hx
    split_ifs at hx with h1 h2 h3
    · exact absurd (h2.symm.trans hid) (hne hst hid)
    · exact absurd (h2.symm.trans hid) (hne hst hid)
    · obtain ⟨rfl, -⟩ := Prod.mk.inj (Option.some.inj hx)
      exact .inl ⟨rfl, hid⟩
  · have hhead : (r.waitingClients ++ [e]).head? = some c := by
      rw [List.head?_append, hw]
      rfl
    simp only [hst] at hx
    split_ifs at hx with h1 h2 h3
    · obtain ⟨rfl, -⟩ := Prod.mk.inj (Option.some.inj hx)
      exact .inr ⟨rfl, hhead⟩
    · obtain ⟨rfl, -⟩ := Prod.mk.inj (Option.some.inj hx)
      exact .inr ⟨rfl, hhead⟩

theorem Next.serverRelease {r r' : LockStateServer} {dest : Option ClientId}
    (h : Next r c) (hx : serverRelease r e = some (r', dest)) : Next r' c := by
  unfold LockProtocol.serverRelease at hx
  split_ifs at hx with h1 h2
  rcases h with ⟨hst, -⟩ | ⟨-, hw⟩
  · rw [hst] at h1
    exact absurd h1 (by simp)
  · cases hq : r.waitingClients with
    | nil => simp [hq] at hw
    | cons d rest =>
      obtain rfl : d = c := by simpa [hq] using hw
      rw [hq] at hx
      obtain ⟨rfl, -⟩ := Prod.mk.inj (Option.some.inj hx)
      exact .inl ⟨rfl, rfl⟩

/-- The handler of `acquire` waits for the revocation of its own client, which has the lock, or of
another one that its client is the first to wait for. -/
def Led (s : Shared) : Frame → Prop
  | .serverAcquire lid id ret dest =>
    (ret = statusOk ∧ dest = id) ∨ (ret = statusRetry ∧ Next (s.lockServer lid) id)
  | _ => True

theorem Led.of_lockServer (h : Led s f) (hs : s'.lockServer = s.lockServer) : Led s' f := by
  cases f <;> first | trivial | (simp only [Led, hs]; exact h)

/-- An ending that makes no call from the handler of `acquire`. -/
def Quiet (o : Ending) : Prop := ∀ r f, o = .call r f → ∀ s, Led s f

theorem quiet_leave (s : Shared) (p : Proc) (c : ClientId) (lid : LockId)
    (m : LockStateClient × ClientMove) : Quiet (leave s p c lid m).2 := by
  obtain ⟨r, mv⟩ := m
  rintro r' f hf s'
  cases hlu : s.lu c <;> cases p <;> cases mv <;>
    first
      | (rename_i b; cases b <;> cases hf)
      | (simp only [leave, callRelease, againFrame, hlu] at hf; cases hf; trivial)
      | (simp only [leave] at hf; cases hf)

theorem quiet_map {p : Proc} {x : Option (LockStateClient × ClientMove)}
    (h : x.map (leave s p c lid) = some (s', o)) : s'.lockServer = s.lockServer ∧ Quiet o := by
  obtain ⟨m, -, he⟩ := Option.map_eq_some_iff.mp h
  obtain ⟨rfl, rfl⟩ := Prod.mk.inj he
  exact ⟨leave_lockServer s p c lid m, quiet_leave s p c lid m⟩

theorem quiet_exec (h : exec r s = some (s', o)) (hr : host r ≠ some .server) :
    s'.lockServer = s.lockServer ∧ Quiet o := by
  by_cases he : IsExtent r
  · obtain ⟨s₁, o₁, hx, hs, -, -⟩ := exec_extent he s
    obtain ⟨rfl, rfl⟩ := Prod.mk.inj (Option.some.inj (hx.symm.trans h))
    refine ⟨hs, ?_⟩
    rintro r' f rfl
    cases r with
    | get c eid =>
      simp only [exec, execGet] at h
      split at h <;> cases h
      exact fun _ => trivial
    | getattr c eid =>
      simp only [exec, execGetattr] at h
      split at h <;> cases h
      exact fun _ => trivial
    | create c type => cases h; exact fun _ => trivial
    | acquire | release | revoke | retry | lockAcquire | lockRelease | dorelease => exact he.elim
    | _ => cases h
  · cases r with
    | acquire c lid =>
      obtain ⟨rfl, rfl⟩ := Prod.mk.inj (Option.some.inj h)
      exact ⟨leave_lockServer _ _ _ _ _, quiet_leave _ _ _ _ _⟩
    | release c lid | revoke c lid | retry c lid => exact quiet_map h
    | lockAcquire | lockRelease => exact absurd rfl hr
    | dorelease c lid =>
      obtain ⟨rfl, rfl⟩ := Prod.mk.inj (Option.some.inj h)
      refine ⟨(execFlush_locks s c lid).1, fun r' f hf => ?_⟩
      split at hf
      · cases hf
      · split_ifs at hf <;> cases hf <;> exact fun _ => trivial
    | _ => exact absurd trivial he

theorem quiet_resume (h : resume f v s = some (s', o)) : s'.lockServer = s.lockServer ∧ Quiet o := by
  have hret : ∀ v : Reply, Quiet (.ret v) := fun _ _ _ hf => by cases hf
  cases f with
  | acquireFirst | acquireSecond | releaseRpc | revokeRpc | retryRpc => exact quiet_map h
  | releaseFlush | revokeFlush =>
    cases h
    exact ⟨rfl, fun _ _ hf _ => by cases hf; trivial⟩
  | serverRelease | getRpc | getattrRpc | createRpc => cases h; exact ⟨rfl, hret _⟩
  | serverAcquire | flushPut | flushRemove =>
    simp only [resume] at h
    split_ifs at h
    cases h
    exact ⟨rfl, hret _⟩

def HeadsOk (g : System) : Prop := ∀ t ∈ g.threads, ∀ a ∈ t.busy, ∀ f ∈ a.frames, Led g.shared f

section
variable {q : Request} {k : Control Request Reply Sleeper} {fs : List Frame} {l : Local}
  {tok : Token}

/-- What a frame is worth that has another one above it. -/
theorem mem_tokens_of_frame (pre : List Frame)
    (ht : (⟨l, some ⟨q, k, pre ++ f :: fs⟩⟩ : AppThread) ∈ g.threads)
    (hx : (c, tok) ∈ link lid (.frame f) (base q fs)) : tok ∈ tokensOf c ((ledger lid).total g) :=
  mem_tokensOf (Ledger.mem_total_activity ht rfl ((ledger lid).frame_le_activity q k f pre fs _ hx))

theorem mem_tokens_of_control (ht : (⟨l, some ⟨q, k, fs⟩⟩ : AppThread) ∈ g.threads)
    (hx : (c, tok) ∈ link lid (.control k) (base q fs)) :
    tok ∈ tokensOf c ((ledger lid).total g) :=
  mem_tokensOf (Ledger.mem_total_activity ht rfl
    (Multiset.mem_add.mpr (.inl (Multiset.mem_add.mpr (.inr hx)))))

/-- The call that waits for a revocation has its answer already. -/
theorem answered_token {ret : Status} {dest : ClientId} (pre : List Frame) (hg : SystemOk g)
    (ht : (⟨l, some ⟨q, k, pre ++ .serverAcquire lid c ret dest :: fs⟩⟩ : AppThread) ∈ g.threads) :
    .first (some ret) ∈ tokensOf c ((ledger lid).total g) ∨
      .second (some ret) ∈ tokensOf c ((ledger lid).total g) := by
  have hok := hg.threads _ ht
  have hcalls : (base q fs).calls machine = .lockAcquire lid c := by
    rw [Base.calls_base]
    exact (framed_of_append (hok.linked _ rfl).1).1.symm
  rcases link_lockAcquire hcalls (grounded_base (hok.root _ rfl) fs) with hl | hl
  · exact .inl (mem_tokens_of_frame pre ht (by simp [hl, answer]))
  · exact .inr (mem_tokens_of_frame pre ht (by simp [hl, answer]))

end

/-- A client whose refused call waits for the revocation does not call again. -/
theorem caller_ne (hg : SystemOk g) {a b : Activity Request Reply Frame Sleeper}
    (ht : t ∈ g.threads) (ha : a ∈ t.busy) {ret : Status} {dest : ClientId}
    (hf : .serverAcquire lid c ret dest ∈ a.frames) (hu : t' ∈ g.threads) (hb : b ∈ t'.busy)
    (hr : b.control = .request (.lockAcquire lid e)) : e ≠ c := by
  rintro rfl
  obtain ⟨l, _⟩ := t
  obtain rfl := Option.mem_def.mp ha
  obtain ⟨l', _⟩ := t'
  obtain rfl := Option.mem_def.mp hb
  obtain ⟨q, k, fs⟩ := a
  obtain ⟨q', k', fs'⟩ := b
  obtain rfl : k' = .request (.lockAcquire lid e) := hr
  obtain ⟨pre, post, rfl⟩ := List.append_of_mem hf
  have hok := hg.threads _ hu
  have hp := (hg.locks lid).phase e
  -- the waiting call has its answer, the other one has none
  have hold := answered_token pre hg ht
  have hcalls : (base q' fs').calls machine = .lockAcquire lid e := by
    rw [Base.calls_base]
    exact (hok.linked _ rfl).2.symm
  rcases link_lockAcquire hcalls (grounded_base (hok.root _ rfl) fs') with hl | hl
  · have hnew : .first none ∈ tokensOf e ((ledger lid).total g) :=
      mem_tokens_of_control hu (by simp [hl, answer])
    rw [(hp.asking_of_first hnew).2.2] at hold
    simp at hold
  · have hnew : .second none ∈ tokensOf e ((ledger lid).total g) :=
      mem_tokens_of_control hu (by simp [hl, answer])
    rw [(hp.askingAgain_of_second hnew).2.2] at hold
    simp at hold

theorem setServer_self (s : Shared) (lid : LockId) (r : LockStateServer) :
    (s.setServer lid r).lockServer lid = r := by
  simp [Shared.setServer]

theorem setServer_other (s : Shared) {lid lid' : LockId} (h : lid' ≠ lid) (r : LockStateServer) :
    (s.setServer lid r).lockServer lid' = s.lockServer lid' := by
  simp [Shared.setServer, h]

/-- The record of one lock has changed. -/
theorem Led.setServer {rec : LockStateServer} (h : Led s f)
    (hn : ∀ c ret dest, f = .serverAcquire lid c ret dest → Next (s.lockServer lid) c → Next rec c) :
    Led (s.setServer lid rec) f := by
  cases f with
  | serverAcquire lid' c ret dest =>
    rcases h with h | ⟨hret, hnext⟩
    · exact .inl h
    · refine .inr ⟨hret, ?_⟩
      by_cases hl : lid' = lid
      · subst hl
        rw [setServer_self]
        exact hn c ret dest rfl hnext
      · rwa [setServer_other s hl]
  | _ => trivial

/-- What a step does to the handlers of `acquire` that wait, and to those that start to wait. -/
theorem HeadsOk.exec (h : HeadsOk g) (hg : SystemOk g) {a : Activity Request Reply Frame Sleeper}
    (ht : t ∈ g.threads) (ha : a ∈ t.busy) (hr : a.control = .request r)
    (hx : exec r g.shared = some (s', o)) :
    (∀ t ∈ g.threads, ∀ a ∈ t.busy, ∀ f ∈ a.frames, Led s' f) ∧
      ∀ r' f, o = .call r' f → Led s' f := by
  by_cases hh : host r = some .server
  · cases r with
    | lockAcquire lid c =>
      simp only [FileService.exec, execLockAcquire] at hx
      have hkeep : ∀ {rec ret dest}, serverAcquire (g.shared.lockServer lid) c =
          some (rec, ret, dest) → ∀ t ∈ g.threads, ∀ a ∈ t.busy, ∀ f ∈ a.frames,
            Led (g.shared.setServer lid rec) f := by
        intro rec ret dest hserver u hu b hb f hf
        refine (h u hu b hb f hf).setServer ?_
        rintro e ret' dest' rfl hnext
        exact hnext.serverAcquire hserver fun _ _ => caller_ne hg hu hb hf ht ha hr
      split at hx
      · cases hx
      · rename_i rec ret hserver
        obtain ⟨rfl, rfl⟩ := Prod.mk.inj (Option.some.inj hx)
        exact ⟨hkeep hserver, fun _ _ hf => by cases hf⟩
      · rename_i rec ret dest hserver
        obtain ⟨rfl, rfl⟩ := Prod.mk.inj (Option.some.inj hx)
        refine ⟨hkeep hserver, ?_⟩
        rintro r' f ⟨⟩
        refine (next_of_revoke (hg.locks lid).server hserver).imp id fun hnext => ?_
        rwa [setServer_self]
    | lockRelease lid c =>
      simp only [FileService.exec, execLockRelease] at hx
      have hkeep : ∀ {rec dest}, serverRelease (g.shared.lockServer lid) c = some (rec, dest) →
          ∀ t ∈ g.threads, ∀ a ∈ t.busy, ∀ f ∈ a.frames, Led (g.shared.setServer lid rec) f := by
        intro rec dest hserver u hu b hb f hf
        refine (h u hu b hb f hf).setServer ?_
        rintro e ret' dest' rfl hnext
        exact hnext.serverRelease hserver
      split at hx
      · cases hx
      · rename_i rec hserver
        obtain ⟨rfl, rfl⟩ := Prod.mk.inj (Option.some.inj hx)
        exact ⟨hkeep hserver, fun _ _ hf => by cases hf⟩
      · rename_i rec dest hserver
        obtain ⟨rfl, rfl⟩ := Prod.mk.inj (Option.some.inj hx)
        refine ⟨hkeep hserver, ?_⟩
        rintro r' f ⟨⟩
        trivial
    | _ => cases hh
  · obtain ⟨hs, hq⟩ := quiet_exec hx hh
    exact ⟨fun u hu b hb f hf => (h u hu b hb f hf).of_lockServer hs, fun r' f hf => hq r' f hf s'⟩

theorem HeadsOk.step (h : HeadsOk g) (hg : SystemOk g) {x : SystemLabel}
    (hs : Step machine (app P) g x g') : HeadsOk g' := by
  obtain ⟨i, lab⟩ := x
  obtain ⟨t, t', hi, ht, hset⟩ := step_elim hs
  have hmem := List.mem_of_getElem? hi
  -- a thread that moves keeps its frames, loses the top one, or gets one more
  have hland : ∀ {l : Local} {q : Request} {fs : List Frame} {o : Ending},
      (∀ f ∈ fs, Led g'.shared f) → (∀ r' f, o = .call r' f → Led g'.shared f) →
      ∀ a ∈ (⟨l, some (.land q fs o)⟩ : AppThread).busy, ∀ f ∈ a.frames, Led g'.shared f := by
    rintro l q fs o hfs hnew a ⟨⟩ f hf
    cases o with
    | call r' f' =>
      rcases List.mem_cons.mp hf with rfl | hf
      · exact hnew r' f rfl
      · exact hfs f hf
    | ret v => exact hfs f hf
    | wait w => exact hfs f hf
  have hboth : (∀ t ∈ g.threads, ∀ a ∈ t.busy, ∀ f ∈ a.frames, Led g'.shared f) ∧
      ∀ a ∈ t'.busy, ∀ f ∈ a.frames, Led g'.shared f := by
    have hquiet : g'.shared.lockServer = g.shared.lockServer →
        ∀ t ∈ g.threads, ∀ a ∈ t.busy, ∀ f ∈ a.frames, Led g'.shared f :=
      fun hs u hu b hb f hf => (h u hu b hb f hf).of_lockServer hs
    generalize hsh : g.shared = sh at ht
    generalize hsh' : g'.shared = sh' at ht hland hquiet ⊢
    cases ht with
    | think he => exact he.elim
    | begins hb =>
      refine ⟨hquiet (by rw [hsh]), ?_⟩
      rintro a ⟨⟩ f hf
      cases hf
    | ended he => exact ⟨hquiet (by rw [hsh]), by simp⟩
    | exec hx =>
      rw [← hsh] at hx
      obtain ⟨hold, hnew⟩ := h.exec hg hmem rfl rfl hx
      exact ⟨hold, hland (hold _ hmem _ rfl) hnew⟩
    | wake hx =>
      obtain ⟨rfl, rfl⟩ := Prod.mk.inj (Option.some.inj hx)
      have hold := hquiet (by rw [hsh]; exact leave_lockServer _ _ _ _ _)
      exact ⟨hold, hland (hold _ hmem _ rfl) fun r' f hf => quiet_leave _ _ _ _ _ r' f hf _⟩
    | resume hx =>
      obtain ⟨hs, hq⟩ := quiet_resume hx
      have hold := hquiet (by rw [hsh]; exact hs)
      refine ⟨hold, hland (fun f hf => hold _ hmem _ rfl f (List.mem_cons_of_mem _ hf)) ?_⟩
      exact fun r' f hf => hq r' f hf _
  intro u hu
  rw [hset] at hu
  rcases List.mem_or_eq_of_mem_set hu with hu | rfl
  · exact hboth.1 u hu
  · exact hboth.2

end Yfs.DispatchPools
