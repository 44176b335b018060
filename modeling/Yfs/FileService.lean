import Yfs.CallStackMachines
import Yfs.ExtentClient

/-!
# Lock server, lock clients, extent clients and extent server as one machine

A client is a process with one `lock_client_cache` and one `extent_client`; it is named by
the id under which the lock server knows it. The lock protocol calls back and forth: a
server handler waits for `revoke` or `retry`, a client handler waits for `release` or
`acquire`, and `release` first waits for `dorelease`, which flushes the extent cache.
-/

namespace Yfs.FileService
open LockProtocol ExtentClient CallStackMachines

abbrev ClientId := Str

inductive Request where
  | acquire (c : ClientId) (lid : LockId)
  | release (c : ClientId) (lid : LockId)
  | get (c : ClientId) (eid : ExtentId)
  | put (c : ClientId) (eid : ExtentId) (buf : Str)
  | getattr (c : ClientId) (eid : ExtentId)
  | remove (c : ClientId) (eid : ExtentId)
  | create (c : ClientId) (type : UInt32)
  | dorelease (c : ClientId) (lid : LockId)
  | lockAcquire (lid : LockId) (id : ClientId)
  | lockRelease (lid : LockId) (id : ClientId)
  | revoke (id : ClientId) (lid : LockId)
  | retry (id : ClientId) (lid : LockId)
  | extentGet (eid : ExtentId)
  | extentPut (eid : ExtentId) (buf : Str)
  | extentGetattr (eid : ExtentId)
  | extentRemove (eid : ExtentId)
  | extentCreate (type : UInt32)
  deriving DecidableEq, Repr

/-- Where a caller stands while it waits. The two frames of `_rpc_call(release)` are the
calls of `dorelease` and of the lock server. -/
inductive Frame where
  | acquireFirst (c : ClientId) (lid : LockId)
  | acquireSecond (c : ClientId) (lid : LockId)
  | releaseFlush (c : ClientId) (lid : LockId)
  | releaseRpc (c : ClientId) (lid : LockId)
  | revokeFlush (c : ClientId) (lid : LockId)
  | revokeRpc (c : ClientId) (lid : LockId)
  | retryRpc (c : ClientId) (lid : LockId)
  | serverAcquire (lid : LockId) (id : ClientId) (ret : Status) (dest : ClientId)
  | serverRelease (lid : LockId) (id : ClientId) (dest : ClientId)
  | getRpc (c : ClientId) (eid : ExtentId)
  | getattrRpc (c : ClientId) (eid : ExtentId)
  | createRpc (c : ClientId) (type : UInt32)
  | flushPut (c : ClientId) (eid : ExtentId) (buf : Str)
  | flushRemove (c : ClientId) (eid : ExtentId)
  deriving DecidableEq, Repr

/-- A thread in `pthread_cond_wait`. `seen` is the number of broadcasts before it fell asleep. -/
structure Sleeper where
  client : ClientId
  lid : LockId
  seen : ℕ
  deriving DecidableEq, Repr

structure Shared where
  lockServer : LockId → LockStateServer := fun _ => {}
  lockClient : ClientId → LockId → LockStateClient := fun _ _ => {}
  /-- Broadcasts on the condition variable of each client. -/
  broadcasts : ClientId → ℕ := fun _ => 0
  /-- Whether the client has a `lock_release_user`. -/
  lu : ClientId → Bool := fun _ => true
  caches : ClientId → Caches := fun _ => {}
  store : Store

namespace Shared

def setServer (s : Shared) (lid : LockId) (r : LockStateServer) : Shared :=
  { s with lockServer := Function.update s.lockServer lid r }

def setClient (s : Shared) (c : ClientId) (lid : LockId) (r : LockStateClient) : Shared :=
  { s with lockClient := Function.update s.lockClient c (Function.update (s.lockClient c) lid r) }

def broadcast (s : Shared) (c : ClientId) : Shared :=
  { s with broadcasts := Function.update s.broadcasts c (s.broadcasts c + 1) }

def setCaches (s : Shared) (c : ClientId) (k : Caches) : Shared :=
  { s with caches := Function.update s.caches c k }

def setStore (s : Shared) (x : Store) : Shared := { s with store := x }

end Shared

abbrev Ending := Outcome Request Reply Frame Sleeper

/-- Which of the four client procedures a critical section belongs to. -/
inductive Proc where
  | acquire | release | revoke | retry
  deriving DecidableEq, Repr

/-- The call that a critical section of the procedure serves. -/
def Proc.request : Proc → ClientId → LockId → Request
  | .acquire, c, lid => .acquire c lid
  | .release, c, lid => .release c lid
  | .revoke, c, lid => .revoke c lid
  | .retry, c, lid => .retry c lid

/-- `_rpc_call(release)`: with a `lock_release_user`, `dorelease` comes first. -/
def callRelease (s : Shared) (p : Proc) (c : ClientId) (lid : LockId) : Ending :=
  match p, s.lu c with
  | .revoke, true => .call (.dorelease c lid) (.revokeFlush c lid)
  | .revoke, false => .call (.lockRelease lid c) (.revokeRpc c lid)
  | _, true => .call (.dorelease c lid) (.releaseFlush c lid)
  | _, false => .call (.lockRelease lid c) (.releaseRpc c lid)

/-- The frame in which a procedure waits for its acquire call when the lock was promised. -/
def againFrame (p : Proc) (c : ClientId) (lid : LockId) : Frame :=
  match p with
  | .retry => .retryRpc c lid
  | _ => .acquireSecond c lid

/-- Store the record that a critical section of client `c` leaves behind, and let go. -/
def leave (s : Shared) (p : Proc) (c : ClientId) (lid : LockId)
    (m : LockStateClient × ClientMove) : Shared × Ending :=
  let s' := s.setClient c lid m.1
  match m.2 with
  | .done true => (s'.broadcast c, .ret {})
  | .done false => (s', .ret {})
  | .callAcquire => (s', .call (.lockAcquire lid c) (.acquireFirst c lid))
  | .callAcquireAgain => (s', .call (.lockAcquire lid c) (againFrame p c lid))
  | .callRelease => (s', callRelease s p c lid)
  | .sleep => (s', .wait ⟨c, lid, s.broadcasts c⟩)

/-- The handler of `lock_server_cache::acquire`. -/
def execLockAcquire (s : Shared) (lid : LockId) (id : ClientId) : Option (Shared × Ending) :=
  match serverAcquire (s.lockServer lid) id with
  | none => none
  | some (r, ret, none) => some (s.setServer lid r, .ret { ret := ret })
  | some (r, ret, some dest) =>
    some (s.setServer lid r, .call (.revoke dest lid) (.serverAcquire lid id ret dest))

/-- The handler of `lock_server_cache::release`. -/
def execLockRelease (s : Shared) (lid : LockId) (id : ClientId) : Option (Shared × Ending) :=
  match serverRelease (s.lockServer lid) id with
  | none => none
  | some (r, none) => some (s.setServer lid r, .ret {})
  | some (r, some dest) =>
    some (s.setServer lid r, .call (.retry dest lid) (.serverRelease lid id dest))

/-- `extent_client::flush`, up to its remote call. -/
def execFlush (s : Shared) (c : ClientId) (eid : ExtentId) : Shared × Ending :=
  let s' := s.setCaches c ((s.caches c).flush eid)
  match (s.caches c).bcache eid with
  | none => (s', .ret {})
  | some e =>
    if e.deleted then (s', .call (.extentRemove eid) (.flushRemove c eid))
    else if e.dirty then (s', .call (.extentPut eid e.buf) (.flushPut c eid e.buf))
    else (s', .ret {})

/-- `extent_client::get`, up to its remote call. -/
def execGet (s : Shared) (c : ClientId) (eid : ExtentId) : Ending :=
  match (s.caches c).bcache eid with
  | some e => .ret { buf := e.buf }
  | none => .call (.extentGet eid) (.getRpc c eid)

/-- `extent_client::getattr`, up to its remote call. -/
def execGetattr (s : Shared) (c : ClientId) (eid : ExtentId) : Ending :=
  match (s.caches c).acache eid with
  | some a => .ret { attr := a }
  | none => .call (.extentGetattr eid) (.getattrRpc c eid)

def exec (r : Request) (s : Shared) : Option (Shared × Ending) :=
  match r with
  | .acquire c lid => some (leave s .acquire c lid (acquireStart (s.lockClient c lid)))
  | .release c lid => (releaseStart (s.lockClient c lid)).map (leave s .release c lid)
  | .revoke c lid => (revokeStart (s.lockClient c lid)).map (leave s .revoke c lid)
  | .retry c lid => (retryStart (s.lockClient c lid)).map (leave s .retry c lid)
  | .lockAcquire lid id => execLockAcquire s lid id
  | .lockRelease lid id => execLockRelease s lid id
  | .dorelease c lid => some (execFlush s c lid)
  | .get c eid => some (s, execGet s c eid)
  | .put c eid buf => some (s.setCaches c ((s.caches c).put eid buf), .ret {})
  | .getattr c eid => some (s, execGetattr s c eid)
  | .remove c eid => some (s.setCaches c ((s.caches c).remove eid), .ret {})
  | .create c type => some (s, .call (.extentCreate type) (.createRpc c type))
  | .extentGet eid => some (s, .ret (s.store.get eid))
  | .extentPut eid buf => some (s.setStore (s.store.put eid buf), .ret {})
  | .extentGetattr eid => some (s, .ret (s.store.getattr eid))
  | .extentRemove eid => some (s.setStore (s.store.remove eid), .ret {})
  | .extentCreate type => some (s.setStore (s.store.create type).1, .ret (s.store.create type).2)

def resume (f : Frame) (v : Reply) (s : Shared) : Option (Shared × Ending) :=
  match f with
  | .acquireFirst c lid =>
    (acquireAnswered v.ret (s.lockClient c lid)).map (leave s .acquire c lid)
  | .acquireSecond c lid =>
    (acquireAnsweredAgain v.ret (s.lockClient c lid)).map (leave s .acquire c lid)
  | .releaseFlush c lid => some (s, .call (.lockRelease lid c) (.releaseRpc c lid))
  | .releaseRpc c lid => (releaseAnswered v.ret (s.lockClient c lid)).map (leave s .release c lid)
  | .revokeFlush c lid => some (s, .call (.lockRelease lid c) (.revokeRpc c lid))
  | .revokeRpc c lid => (revokeAnswered v.ret (s.lockClient c lid)).map (leave s .revoke c lid)
  | .retryRpc c lid => (retryAnswered v.ret (s.lockClient c lid)).map (leave s .retry c lid)
  | .serverAcquire _ _ ret _ => if v.ret = statusOk then some (s, .ret { ret := ret }) else none
  | .serverRelease _ _ _ => some (s, .ret {})
  | .getRpc c eid => some (s.setCaches c ((s.caches c).getAnswered eid v), .ret v)
  | .getattrRpc c eid => some (s.setCaches c ((s.caches c).getattrAnswered eid v), .ret v)
  | .createRpc _ _ => some (s, .ret v)
  | .flushPut _ _ _ | .flushRemove _ _ => if v.ret = statusOk then some (s, .ret {}) else none

/-- A sleeper may wake at any time: other locks share its condition variable, and
`pthread_cond_wait` may return spuriously. -/
def wake (w : Sleeper) (s : Shared) : Option (Shared × Ending) :=
  some (leave s .acquire w.client w.lid (acquireWoken (s.lockClient w.client w.lid)))

def serves : Frame → Request
  | .acquireFirst c lid | .acquireSecond c lid => .acquire c lid
  | .releaseFlush c lid | .releaseRpc c lid => .release c lid
  | .revokeFlush c lid | .revokeRpc c lid => .revoke c lid
  | .retryRpc c lid => .retry c lid
  | .serverAcquire lid id _ _ => .lockAcquire lid id
  | .serverRelease lid id _ => .lockRelease lid id
  | .getRpc c eid => .get c eid
  | .getattrRpc c eid => .getattr c eid
  | .createRpc c type => .create c type
  | .flushPut c eid _ | .flushRemove c eid => .dorelease c eid

def calls : Frame → Request
  | .acquireFirst c lid | .acquireSecond c lid | .retryRpc c lid => .lockAcquire lid c
  | .releaseFlush c lid | .revokeFlush c lid => .dorelease c lid
  | .releaseRpc c lid | .revokeRpc c lid => .lockRelease lid c
  | .serverAcquire lid _ _ dest => .revoke dest lid
  | .serverRelease lid _ dest => .retry dest lid
  | .getRpc _ eid => .extentGet eid
  | .getattrRpc _ eid => .extentGetattr eid
  | .createRpc _ type => .extentCreate type
  | .flushPut _ eid buf => .extentPut eid buf
  | .flushRemove _ eid => .extentRemove eid

def machine : Machine Shared Request Reply Frame Sleeper where
  exec := exec
  resume := resume
  wake := wake
  serves := serves
  calls := calls
  sleepsFor w := .acquire w.client w.lid
  answers r v := match r with
    | .lockAcquire _ _ => True
    | _ => v.ret = statusOk

/-! ## Frames are labelled truthfully -/

/-- The moves that the critical sections of each procedure can make. -/
def Proc.CanMove : Proc → ClientMove → Prop
  | .acquire, .callRelease => False
  | .acquire, _ => True
  | _, .done _ => True
  | .release, .callRelease | .revoke, .callRelease | .retry, .callAcquireAgain => True
  | _, _ => False

theorem canMove_acquireLoop (c : LockStateClient) : Proc.CanMove .acquire (acquireLoop c).2 := by
  unfold acquireLoop
  split_ifs <;> trivial

theorem canMove_acquireStart (c : LockStateClient) : Proc.CanMove .acquire (acquireStart c).2 := by
  unfold acquireStart
  split_ifs
  · trivial
  · exact canMove_acquireLoop c

theorem canMove_acquireWoken (c : LockStateClient) : Proc.CanMove .acquire (acquireWoken c).2 := by
  unfold acquireWoken
  split_ifs
  · exact canMove_acquireLoop c
  · trivial

theorem canMove_start {c : LockStateClient} {m : LockStateClient × ClientMove} :
    (releaseStart c = some m → Proc.CanMove .release m.2) ∧
      (revokeStart c = some m → Proc.CanMove .revoke m.2) ∧
        (retryStart c = some m → Proc.CanMove .retry m.2) := by
  unfold releaseStart revokeStart retryStart
  refine ⟨?_, ?_, ?_⟩ <;> intro h <;> split_ifs at h <;> cases h <;> trivial

theorem canMove_answered {r : Status} {c : LockStateClient} {m : LockStateClient × ClientMove} :
    (acquireAnswered r c = some m → Proc.CanMove .acquire m.2) ∧
      (acquireAnsweredAgain r c = some m → Proc.CanMove .acquire m.2) ∧
        (releaseAnswered r c = some m → Proc.CanMove .release m.2) ∧
          (revokeAnswered r c = some m → Proc.CanMove .revoke m.2) ∧
            (retryAnswered r c = some m → Proc.CanMove .retry m.2) := by
  unfold acquireAnswered acquireAnsweredAgain releaseAnswered revokeAnswered retryAnswered
  refine ⟨?_, ?_, ?_, ?_, ?_⟩ <;> intro h <;> split_ifs at h <;> cases h <;> trivial

theorem faithful_leave (s : Shared) {p : Proc} (c : ClientId) (lid : LockId)
    {m : LockStateClient × ClientMove} (hm : p.CanMove m.2) :
    machine.Faithful (p.request c lid) (leave s p c lid m).2 := by
  obtain ⟨r, mv⟩ := m
  cases hlu : s.lu c <;> cases p <;> cases mv <;>
    first
      | exact hm.elim
      | (rename_i b; cases b <;> rfl)
      | simp [leave, callRelease, againFrame, hlu, Machine.Faithful, machine, serves, calls,
          Proc.request]

theorem faithful_map {s s' : Shared} {p : Proc} {c : ClientId} {lid : LockId} {o : Ending}
    {x : Option (LockStateClient × ClientMove)} (hx : ∀ m, x = some m → p.CanMove m.2)
    (h : x.map (leave s p c lid) = some (s', o)) : machine.Faithful (p.request c lid) o := by
  obtain ⟨m, hm, he⟩ := Option.map_eq_some_iff.mp h
  have hf := faithful_leave s c lid (hx m hm)
  rwa [he] at hf

theorem machine_lawful : machine.Lawful where
  exec r s s' o h := by
    cases r with
    | acquire c lid =>
      obtain ⟨-, rfl⟩ := Prod.mk.inj (Option.some.inj h)
      exact faithful_leave s (p := .acquire) c lid (canMove_acquireStart _)
    | release c lid => exact faithful_map (fun m hm => canMove_start.1 hm) h
    | revoke c lid => exact faithful_map (fun m hm => canMove_start.2.1 hm) h
    | retry c lid => exact faithful_map (fun m hm => canMove_start.2.2 hm) h
    | lockAcquire lid id =>
      simp only [machine, exec, execLockAcquire] at h
      split at h <;> cases h
      · trivial
      · exact ⟨rfl, rfl⟩
    | lockRelease lid id =>
      simp only [machine, exec, execLockRelease] at h
      split at h <;> cases h
      · rfl
      · exact ⟨rfl, rfl⟩
    | dorelease c lid =>
      simp only [machine, exec, execFlush] at h
      split at h
      · cases h; rfl
      · split_ifs at h <;> cases h
        · exact ⟨rfl, rfl⟩
        · exact ⟨rfl, rfl⟩
        · rfl
    | get c eid =>
      simp only [machine, exec, execGet] at h
      split at h <;> cases h
      · rfl
      · exact ⟨rfl, rfl⟩
    | getattr c eid =>
      simp only [machine, exec, execGetattr] at h
      split at h <;> cases h
      · rfl
      · exact ⟨rfl, rfl⟩
    | create c type => cases h; exact ⟨rfl, rfl⟩
    | _ => cases h; rfl
  resume f v s s' o hv h := by
    cases f with
    | acquireFirst c lid => exact faithful_map (fun m hm => canMove_answered.1 hm) h
    | acquireSecond c lid => exact faithful_map (fun m hm => canMove_answered.2.1 hm) h
    | releaseRpc c lid => exact faithful_map (fun m hm => canMove_answered.2.2.1 hm) h
    | revokeRpc c lid => exact faithful_map (fun m hm => canMove_answered.2.2.2.1 hm) h
    | retryRpc c lid => exact faithful_map (fun m hm => canMove_answered.2.2.2.2 hm) h
    | releaseFlush c lid | revokeFlush c lid => cases h; exact ⟨rfl, rfl⟩
    | serverAcquire lid id ret dest =>
      simp only [machine, resume] at h
      split_ifs at h
      cases h; trivial
    | serverRelease lid id dest => cases h; rfl
    | getRpc c eid | getattrRpc c eid | createRpc c type => cases h; exact hv
    | flushPut c eid buf | flushRemove c eid =>
      simp only [machine, resume] at h
      split_ifs at h
      cases h; rfl
  wake w s s' o h := by
    obtain ⟨-, rfl⟩ := Prod.mk.inj (Option.some.inj h)
    exact faithful_leave s (p := .acquire) w.client w.lid (canMove_acquireWoken _)

/-! ## The applications

A thread belongs to one client. It may ask for any lock, gives back only locks that it was
given, and uses the extent client as the policy `P` allows.
-/

structure Local where
  client : ClientId
  held : List LockId
  deriving DecidableEq, Repr

/-- The calls that a thread of client `c` makes on its extent client. -/
def Request.IsExtentCall (c : ClientId) : Request → Prop
  | .get c' _ | .put c' _ _ | .getattr c' _ | .remove c' _ | .create c' _ => c' = c
  | _ => False

/-- The calls that a thread of client `c` makes on its libraries. -/
def Request.IsAppCall (c : ClientId) (r : Request) : Prop :=
  (∃ lid, r = .acquire c lid) ∨ (∃ lid, r = .release c lid) ∨ r.IsExtentCall c

inductive Begins (P : Local → Request → Prop) : Local → Request → Local → Prop where
  | acquire (l : Local) (lid : LockId) : Begins P l (.acquire l.client lid) l
  | release (l : Local) (lid : LockId) (h : lid ∈ l.held) :
      Begins P l (.release l.client lid) { l with held := l.held.erase lid }
  | extent (l : Local) (r : Request) (hr : r.IsExtentCall l.client) (h : P l r) : Begins P l r l

/-- A thread has a lock from the return of `acquire` to the call of `release`. -/
def Local.after (l : Local) : Request → Local
  | .acquire _ lid => { l with held := lid :: l.held }
  | _ => l

def app (P : Local → Request → Prop) : App Local Empty Request Reply where
  think _ _ _ := False
  begins := Begins P
  ends l r _ l' := l' = l.after r

/-- `Begins` as a function, for a policy that can be decided. -/
def allow (P : Local → Request → Prop) [∀ l r, Decidable (P l r)] (l : Local) (r : Request) :
    Option Local :=
  match r with
  | .acquire c _ => if c = l.client then some l else none
  | .release c lid =>
    if c = l.client ∧ lid ∈ l.held then some { l with held := l.held.erase lid } else none
  | .get c _ | .put c _ _ | .getattr c _ | .remove c _ | .create c _ =>
    if c = l.client ∧ P l r then some l else none
  | _ => none

theorem begins_allow {P : Local → Request → Prop} [∀ l r, Decidable (P l r)] (l : Local)
    (r : Request) (l' : Local) (h : allow P l r = some l') : (app P).begins l r l' := by
  cases r with
  | acquire c lid =>
    simp only [allow] at h
    split_ifs at h with hc
    cases h
    exact hc ▸ .acquire l lid
  | release c lid =>
    simp only [allow] at h
    split_ifs at h with hc
    cases h
    exact hc.1 ▸ .release l lid hc.2
  | get | put | getattr | remove | create =>
    simp only [allow] at h
    split_ifs at h with hc
    cases h
    exact .extent l _ hc.1 hc.2
  | _ => cases h

theorem Begins.isAppCall {P : Local → Request → Prop} {l l' : Local} {r : Request} (h : Begins P l r l') :
    r.IsAppCall l'.client ∧ l'.client = l.client := by
  cases h with
  | acquire lid => exact ⟨.inl ⟨lid, rfl⟩, rfl⟩
  | release lid hm => exact ⟨.inr (.inl ⟨lid, rfl⟩), rfl⟩
  | extent r hr hp => exact ⟨.inr (.inr hr), rfl⟩

theorem after_client (l : Local) (q : Request) : (l.after q).client = l.client := by
  cases q <;> rfl

end Yfs.FileService
