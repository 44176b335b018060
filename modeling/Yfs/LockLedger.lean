import Yfs.FileService
import Yfs.LockPhases

/-!
# The ledger of a lock

The tokens of one lock are read off the stacks of all threads. Every step of the machine
exchanges them as one of the critical sections of `LockPhases` does, so the invariant of
every lock holds along every run and no step fails an assertion.
-/

namespace Yfs.LockLedger
open LockProtocol ExtentClient CallStackMachines FileService LockPhases

/-- The answer that a call of the server's `acquire` has got so far. -/
def answer : Above Request Reply Frame Sleeper → Option Status
  | .control (.reply v) => some v.ret
  | .frame (.serverAcquire _ _ ret _) => some ret
  | _ => none

/-- How far a call of the server's `release` has got. -/
def stage : Above Request Reply Frame Sleeper → Stage
  | .control (.reply _) | .frame (.serverRelease _ _ _) => .answered
  | _ => .asked

/-- Whether `dorelease` has run. -/
def flushStage : Above Request Reply Frame Sleeper → Stage
  | .control (.request _) => .flushing
  | _ => .evicted

theorem flushStage_ne_answered (a : Above Request Reply Frame Sleeper) :
    flushStage a ≠ .answered := by
  unfold flushStage
  split <;> simp

/-- A token of lock `lid'`, as the ledger of lock `lid` sees it. -/
def on (lid lid' : LockId) (c : ClientId) (t : Multiset Token) : Multiset (ClientId × Token) :=
  if lid' = lid then t.map (Prod.mk c) else 0

def top (lid : LockId) : Control Request Reply Sleeper → Multiset (ClientId × Token)
  | .request (.release c lid') => on lid lid' c {.hold}
  | .request (.revoke c lid') => on lid lid' c {.revoke}
  | .request (.retry c lid') => on lid lid' c {.retry}
  | _ => 0

def link (lid : LockId) (a : Above Request Reply Frame Sleeper) :
    Base Request Frame → Multiset (ClientId × Token)
  | .root (.acquire c lid') =>
    match a with
    | .control (.reply _) => on lid lid' c {.hold}
    | _ => 0
  | .frame (.acquireFirst c lid') => on lid lid' c {.first (answer a)}
  | .frame (.acquireSecond c lid') | .frame (.retryRpc c lid') => on lid lid' c {.second (answer a)}
  | .frame (.releaseFlush c lid') | .frame (.revokeFlush c lid') =>
    on lid lid' c {.release (flushStage a)}
  | .frame (.releaseRpc c lid') | .frame (.revokeRpc c lid') => on lid lid' c {.release (stage a)}
  | _ => 0

def ledger (lid : LockId) : Ledger Local Request Reply Frame Sleeper (ClientId × Token) where
  loc l := Multiset.replicate (l.held.count lid) (l.client, .hold)
  top := top lid
  link := link lid

section
variable (lid lid' : LockId) (c : ClientId) (a : Above Request Reply Frame Sleeper)

@[simp] theorem link_acquireFirst :
    link lid a (.frame (.acquireFirst c lid')) = on lid lid' c {.first (answer a)} := rfl

@[simp] theorem link_acquireSecond :
    link lid a (.frame (.acquireSecond c lid')) = on lid lid' c {.second (answer a)} := rfl

@[simp] theorem link_retryRpc :
    link lid a (.frame (.retryRpc c lid')) = on lid lid' c {.second (answer a)} := rfl

@[simp] theorem link_releaseFlush :
    link lid a (.frame (.releaseFlush c lid')) = on lid lid' c {.release (flushStage a)} := rfl

@[simp] theorem link_revokeFlush :
    link lid a (.frame (.revokeFlush c lid')) = on lid lid' c {.release (flushStage a)} := rfl

@[simp] theorem link_releaseRpc :
    link lid a (.frame (.releaseRpc c lid')) = on lid lid' c {.release (stage a)} := rfl

@[simp] theorem link_revokeRpc :
    link lid a (.frame (.revokeRpc c lid')) = on lid lid' c {.release (stage a)} := rfl

theorem surface_reply (v : Reply) (b : Base Request Frame) :
    (ledger lid).surface (.reply v) b = link lid (.control (.reply v)) b := zero_add _

end

@[simp] theorem on_self (lid : LockId) (c : ClientId) (t : Multiset Token) :
    on lid lid c t = t.map (Prod.mk c) := if_pos rfl

theorem on_other {lid lid' : LockId} (h : lid' ≠ lid) (c : ClientId) (t : Multiset Token) :
    on lid lid' c t = 0 := if_neg h

@[simp] theorem tokensOf_map_self (c : ClientId) (t : Multiset Token) :
    tokensOf c (t.map (Prod.mk c)) = t := by
  induction t using Multiset.induction with
  | empty => rfl
  | cons a t ih => rw [Multiset.map_cons, tokensOf_cons_self, ih]

theorem tokensOf_map_ne {c d : ClientId} (h : d ≠ c) (t : Multiset Token) :
    tokensOf c (t.map (Prod.mk d)) = 0 := by
  induction t using Multiset.induction with
  | empty => rfl
  | cons a t ih => rw [Multiset.map_cons, tokensOf_cons_ne h, ih]

/-- The invariant of all locks, over everything that is on its way. -/
def LocksOk (s : Shared) (tot : LockId → Multiset (ClientId × Token)) : Prop :=
  ∀ lid, Consistent (s.lockServer lid) (fun c => s.lockClient c lid) (tot lid)

/-! ## Critical sections of the client -/

/-- A base that an application or a handler really stands on. -/
def Grounded : Base Request Frame → Prop
  | .root q => ∃ c, q.IsAppCall c
  | .frame _ => True

/-- What a call of a client procedure is worth: `acquire` gives the lock when it returns. -/
def procLink (lid : LockId) (p : Proc) (c : ClientId) (lid' : LockId) :
    Above Request Reply Frame Sleeper → Multiset (ClientId × Token)
  | .control (.reply _) => if p = .acquire then on lid lid' c {.hold} else 0
  | _ => 0

theorem link_proc {b : Base Request Frame} {p : Proc} {c : ClientId} {lid : LockId}
    (hb : b.calls machine = p.request c lid) (hg : Grounded b) (lid' : LockId)
    (a : Above Request Reply Frame Sleeper) : link lid' a b = procLink lid' p c lid a := by
  cases b with
  | root q =>
    obtain rfl : q = p.request c lid := hb
    obtain ⟨c', hq⟩ := hg
    cases p with
    | acquire =>
      cases a with
      | control k => cases k <;> rfl
      | frame f => rfl
    | release =>
      cases a with
      | control k => cases k <;> rfl
      | frame f => rfl
    | revoke => simp [Request.IsAppCall, Request.IsExtentCall, Proc.request] at hq
    | retry => simp [Request.IsAppCall, Request.IsExtentCall, Proc.request] at hq
  | frame f =>
    have hz : link lid' a (.frame f) = 0 := by
      cases f <;> cases p <;> first | rfl | cases hb
    have hp : p ≠ .acquire := by rintro rfl; cases f <;> cases hb
    rw [hz]
    cases a with
    | control k => cases k <;> simp [procLink, hp]
    | frame g => rfl

/-- What a critical section of `c` leaves behind in the ledger. -/
def moveTokens (s : Shared) (p : Proc) (c : ClientId) : ClientMove → Multiset Token
  | .done _ => if p = .acquire then {.hold} else 0
  | .callAcquire => {.first none}
  | .callAcquireAgain => {.second none}
  | .callRelease => {.release (if s.lu c then .flushing else .asked)}
  | .sleep => 0

theorem landed_leave {b : Base Request Frame} {p : Proc} {c : ClientId} {lid : LockId}
    (hb : b.calls machine = p.request c lid) (hg : Grounded b) (s : Shared)
    {m : LockStateClient × ClientMove} (hm : p.CanMove m.2) (lid' : LockId) :
    (ledger lid').landed b (leave s p c lid m).2 = on lid' lid c (moveTokens s p c m.2) := by
  have hl : ∀ a, (ledger lid').link a b = procLink lid' p c lid a := link_proc hb hg lid'
  obtain ⟨r, mv⟩ := m
  cases mv with
  | done v =>
    cases v <;>
      simp only [leave, Ledger.landed, Ledger.surface, hl, procLink, moveTokens] <;>
      split_ifs <;> simp [ledger, top, on]
  | sleep =>
    simp only [leave, Ledger.landed, Ledger.surface, hl, procLink, moveTokens]
    simp [ledger, top, on]
  | callAcquire =>
    simp only [leave, Ledger.landed, Ledger.surface, hl, procLink, moveTokens]
    simp [ledger, top, link, answer]
  | callAcquireAgain =>
    simp only [leave, Ledger.landed, Ledger.surface, hl, procLink, moveTokens]
    cases p <;> simp [againFrame, ledger, top, link, answer]
  | callRelease =>
    cases hlu : s.lu c <;> cases p <;>
      simp only [leave, callRelease, hlu, Ledger.landed, Ledger.surface, hl, procLink,
        moveTokens] <;>
      simp [ledger, top, link, stage, flushStage]

theorem leave_lockClient (s : Shared) (p : Proc) (c : ClientId) (lid : LockId)
    (m : LockStateClient × ClientMove) :
    (leave s p c lid m).1.lockClient = (s.setClient c lid m.1).lockClient := by
  obtain ⟨r, mv⟩ := m
  cases mv with
  | done v => cases v <;> rfl
  | _ => rfl

theorem leave_lockServer (s : Shared) (p : Proc) (c : ClientId) (lid : LockId)
    (m : LockStateClient × ClientMove) : (leave s p c lid m).1.lockServer = s.lockServer := by
  obtain ⟨r, mv⟩ := m
  cases mv with
  | done v => cases v <;> rfl
  | _ => rfl

theorem setClient_same (s : Shared) (c : ClientId) (lid : LockId) (r : LockStateClient) :
    (fun d => (s.setClient c lid r).lockClient d lid) =
      Function.update (fun d => s.lockClient d lid) c r := by
  funext d
  by_cases hd : d = c
  · subst hd; simp [Shared.setClient]
  · simp [Shared.setClient, hd]

theorem setClient_other (s : Shared) (c : ClientId) {lid lid' : LockId} (h : lid' ≠ lid)
    (r : LockStateClient) (d : ClientId) :
    (s.setClient c lid r).lockClient d lid' = s.lockClient d lid' := by
  by_cases hd : d = c
  · subst hd; simp [Shared.setClient, h]
  · simp [Shared.setClient, hd]

variable {s : Shared} {X : LockId → Multiset (ClientId × Token)} {b : Base Request Frame}
  {p : Proc} {c : ClientId} {lid : LockId} {old : Multiset Token}

theorem LocksOk.phase (h : LocksOk s fun lid' => on lid' lid c old + X lid') :
    Phase (role (s.lockServer lid) c) (s.lockClient c lid) (old + tokensOf c (X lid)) := by
  simpa using (h lid).phase c

theorem LocksOk.named {t : Token} (h : LocksOk s fun lid' => on lid' lid c {t} + X lid') :
    c ≠ [] := by
  have hk := h lid
  simp only [on_self, Multiset.map_singleton, Multiset.singleton_add] at hk
  exact hk.named

/-- A token may become another one when the phase allows it. -/
theorem LocksOk.swap {t t' : Token} (h : LocksOk s fun lid' => on lid' lid c {t} + X lid')
    (hp : Phase (role (s.lockServer lid) c) (s.lockClient c lid) (t' ::ₘ tokensOf c (X lid))) :
    LocksOk s fun lid' => on lid' lid c {t'} + X lid' := by
  intro lid'
  have hk := h lid'
  dsimp only at hk ⊢
  by_cases hl : lid' = lid
  · subst hl
    rw [on_self] at hk ⊢
    have hstep : Consistent (s.lockServer lid')
        (Function.update (fun d => s.lockClient d lid') c (s.lockClient c lid'))
        (({t'} : Multiset Token).map (Prod.mk c) + X lid') := by
      refine hk.client_step h.named ?_ fun d hd => ?_
      · simpa using hp
      · rw [tokensOf_add, tokensOf_add, tokensOf_map_ne (Ne.symm hd), tokensOf_map_ne (Ne.symm hd)]
    rwa [Function.update_eq_self c] at hstep
  · rw [on_other (Ne.symm hl)] at hk ⊢
    exact hk

/-- A critical section that takes `c` from phase to phase keeps every lock consistent. -/
theorem LocksOk.leave (h : LocksOk s fun lid' => on lid' lid c old + X lid') (hc : c ≠ [])
    (hb : b.calls machine = p.request c lid) (hg : Grounded b)
    {m : LockStateClient × ClientMove} (hm : p.CanMove m.2)
    (hp : Phase (role (s.lockServer lid) c) m.1 (moveTokens s p c m.2 + tokensOf c (X lid))) :
    LocksOk (leave s p c lid m).1 fun lid' =>
      (ledger lid').landed b (leave s p c lid m).2 + X lid' := by
  intro lid'
  have hk := h lid'
  dsimp only at hk ⊢
  rw [landed_leave hb hg s hm, leave_lockServer, leave_lockClient]
  by_cases hl : lid' = lid
  · subst hl
    rw [on_self, setClient_same]
    rw [on_self] at hk
    refine hk.client_step hc ?_ fun d hd => ?_
    · rwa [tokensOf_add, tokensOf_map_self]
    · simp [tokensOf_map_ne (Ne.symm hd)]
  · rw [on_other (Ne.symm hl)] at hk ⊢
    simpa only [setClient_other s c hl] using hk

/-- What a piece of code must achieve: it does not fail, and it leaves a consistent state. -/
def Keeps (X : LockId → Multiset (ClientId × Token)) (b : Base Request Frame)
    (x : Option (Shared × Ending)) : Prop :=
  ∃ s' o, x = some (s', o) ∧ LocksOk s' fun lid => (ledger lid).landed b o + X lid

theorem LocksOk.keeps_leave (h : LocksOk s fun lid' => on lid' lid c old + X lid') (hc : c ≠ [])
    (hb : b.calls machine = p.request c lid) (hg : Grounded b)
    {x : Option (LockStateClient × ClientMove)} {m : LockStateClient × ClientMove}
    (hx : x = some m) (hm : p.CanMove m.2)
    (hp : Phase (role (s.lockServer lid) c) m.1 (moveTokens s p c m.2 + tokensOf c (X lid))) :
    Keeps X b (x.map (FileService.leave s p c lid)) :=
  ⟨_, _, by rw [hx]; rfl, h.leave hc hb hg hm hp⟩

theorem moveTokens_acquireStart (s : Shared) (c : ClientId) (r : LockStateClient) :
    moveTokens s .acquire c (acquireStart r).2 = acquireTokens r := by
  obtain ⟨st, pd⟩ := r
  cases st <;> rfl

theorem keeps_acquire (h : LocksOk s X) (hc : c ≠ [])
    (hb : b.calls machine = .acquire c lid) (hg : Grounded b) :
    Keeps X b (exec (.acquire c lid) s) := by
  have h0 : LocksOk s fun lid' => on lid' lid c 0 + X lid' := by simpa [on] using h
  have hp := h0.phase
  rw [zero_add] at hp
  refine ⟨_, _, rfl, h0.leave (p := .acquire) hc hb hg (canMove_acquireStart _) ?_⟩
  rw [moveTokens_acquireStart]
  exact hp.acquireStart

theorem keeps_wake {w : Sleeper} (h : LocksOk s X) (hc : w.client ≠ [])
    (hb : b.calls machine = .acquire w.client w.lid) (hg : Grounded b) :
    Keeps X b (wake w s) := by
  unfold wake
  rw [acquireWoken_eq]
  exact keeps_acquire h hc hb hg

theorem keeps_release (h : LocksOk s fun lid' => on lid' lid c {.hold} + X lid')
    (hb : b.calls machine = .release c lid) (hg : Grounded b) :
    Keeps X b (exec (.release c lid) s) := by
  have hp := h.phase
  rcases hp.releaseStart (by simp) with ⟨hm, hq⟩ | ⟨hm, hq⟩
  · exact h.keeps_leave (p := .release) h.named hb hg hm trivial (by simpa [moveTokens] using hq)
  · refine h.keeps_leave (p := .release) h.named hb hg hm trivial ?_
    have hst : (if s.lu c then Stage.flushing else .asked) ≠ .answered := by split_ifs <;> simp
    simpa [moveTokens] using hq _ hst

theorem keeps_revoke (h : LocksOk s fun lid' => on lid' lid c {.revoke} + X lid')
    (hb : b.calls machine = .revoke c lid) (hg : Grounded b) :
    Keeps X b (exec (.revoke c lid) s) := by
  have hp := h.phase
  rcases hp.revokeStart (by simp) with ⟨hm, hq⟩ | ⟨hm, hq⟩
  · exact h.keeps_leave (p := .revoke) h.named hb hg hm trivial (by simpa [moveTokens] using hq)
  · refine h.keeps_leave (p := .revoke) h.named hb hg hm trivial ?_
    have hst : (if s.lu c then Stage.flushing else .asked) ≠ .answered := by split_ifs <;> simp
    simpa [moveTokens] using hq _ hst

theorem keeps_retry (h : LocksOk s fun lid' => on lid' lid c {.retry} + X lid')
    (hb : b.calls machine = .retry c lid) (hg : Grounded b) :
    Keeps X b (exec (.retry c lid) s) := by
  have hp := h.phase
  rcases hp.retryStart (by simp) with ⟨hm, hq⟩ | ⟨hm, hq⟩
  · exact h.keeps_leave (p := .retry) h.named hb hg hm trivial (by simpa [moveTokens] using hq)
  · exact h.keeps_leave (p := .retry) h.named hb hg hm trivial (by simpa [moveTokens] using hq)

theorem keeps_acquireFirst {v : Reply}
    (h : LocksOk s fun lid' => on lid' lid c {.first (some v.ret)} + X lid')
    (hb : b.calls machine = .acquire c lid) (hg : Grounded b) :
    Keeps X b (resume (.acquireFirst c lid) v s) := by
  obtain ⟨m, hm, hq⟩ := h.phase.acquireAnswered (r := v.ret) (by simp)
  refine h.keeps_leave (p := .acquire) h.named hb hg hm (canMove_answered.1 hm) ?_
  have ht : moveTokens s .acquire c m.2 = answeredTokens v.ret (s.lockClient c lid) := by
    unfold acquireAnswered at hm
    split_ifs at hm <;> cases hm <;> simp [moveTokens, answeredTokens, *]
  rw [ht]
  simpa using hq

theorem keeps_acquireSecond {v : Reply}
    (h : LocksOk s fun lid' => on lid' lid c {.second (some v.ret)} + X lid')
    (hb : b.calls machine = .acquire c lid) (hg : Grounded b) :
    Keeps X b (resume (.acquireSecond c lid) v s) := by
  obtain ⟨hm, hq⟩ := h.phase.acquireAnsweredAgain (r := v.ret) (by simp)
  exact h.keeps_leave (p := .acquire) h.named hb hg hm trivial (by simpa [moveTokens] using hq)

theorem keeps_retryRpc {v : Reply}
    (h : LocksOk s fun lid' => on lid' lid c {.second (some v.ret)} + X lid')
    (hb : b.calls machine = .retry c lid) (hg : Grounded b) :
    Keeps X b (resume (.retryRpc c lid) v s) := by
  obtain ⟨hm, hq⟩ := h.phase.retryAnswered (r := v.ret) (by simp)
  exact h.keeps_leave (p := .retry) h.named hb hg hm trivial (by simpa [moveTokens] using hq)

theorem keeps_releaseRpc {v : Reply} (hv : v.ret = statusOk)
    (h : LocksOk s fun lid' => on lid' lid c {.release .answered} + X lid')
    (hb : b.calls machine = .release c lid) (hg : Grounded b) :
    Keeps X b (resume (.releaseRpc c lid) v s) := by
  obtain ⟨hm, hq⟩ := h.phase.releaseAnswered (by simp)
  rw [← hv] at hm
  exact h.keeps_leave (p := .release) h.named hb hg hm trivial (by simpa [moveTokens] using hq)

theorem keeps_revokeRpc {v : Reply} (hv : v.ret = statusOk)
    (h : LocksOk s fun lid' => on lid' lid c {.release .answered} + X lid')
    (hb : b.calls machine = .revoke c lid) (hg : Grounded b) :
    Keeps X b (resume (.revokeRpc c lid) v s) := by
  obtain ⟨-, hq⟩ := h.phase.releaseAnswered (by simp)
  have hm : revokeAnswered v.ret (s.lockClient c lid) =
      some ({ s.lockClient c lid with state := .none }, .done true) := by simp [revokeAnswered, hv]
  exact h.keeps_leave (p := .revoke) h.named hb hg hm trivial (by simpa [moveTokens] using hq)

/-! ## Critical sections of the server -/

theorem LocksOk.server {r : LockStateServer} {M : Multiset (ClientId × Token)}
    (h : LocksOk s fun lid' => on lid' lid c old + X lid')
    (hk : Consistent r (fun d => s.lockClient d lid) (M + X lid)) :
    LocksOk (s.setServer lid r) fun lid' => (if lid = lid' then M else 0) + X lid' := by
  intro lid'
  by_cases hl : lid' = lid
  · subst hl; simpa [Shared.setServer] using hk
  · simpa [Shared.setServer, hl, Ne.symm hl, on_other (Ne.symm hl)] using h lid'

/-- A call of the server's `acquire` stands on one of three frames of its client. -/
theorem link_lockAcquire (hb : b.calls machine = .lockAcquire lid c) (hg : Grounded b) :
    (∀ lid' a, link lid' a b = on lid' lid c {.first (answer a)}) ∨
      (∀ lid' a, link lid' a b = on lid' lid c {.second (answer a)}) := by
  cases b with
  | root q =>
    obtain ⟨c', hq⟩ := hg
    obtain rfl : q = .lockAcquire lid c := hb
    simp [Request.IsAppCall, Request.IsExtentCall] at hq
  | frame f => cases f <;> cases hb <;> first | exact .inl fun _ _ => rfl | exact .inr fun _ _ => rfl

theorem link_lockRelease (hb : b.calls machine = .lockRelease lid c) (hg : Grounded b) (lid' : LockId)
    (a : Above Request Reply Frame Sleeper) : link lid' a b = on lid' lid c {.release (stage a)} := by
  cases b with
  | root q =>
    obtain ⟨c', hq⟩ := hg
    obtain rfl : q = .lockRelease lid c := hb
    simp [Request.IsAppCall, Request.IsExtentCall] at hq
  | frame f => cases f <;> cases hb <;> rfl

/-- The server answers an acquire at once, or first orders the revocation. -/
theorem keeps_execLockAcquire {r : LockStateServer} {ret : Status} {dest : Option ClientId}
    {t : Option Status → Token}
    (h : LocksOk s fun lid' => on lid' lid c {t none} + X lid')
    (hl : ∀ lid' a, link lid' a b = on lid' lid c {t (answer a)})
    (hx : serverAcquire (s.lockServer lid) c = some (r, ret, dest))
    (hk : Consistent r (fun d => s.lockClient d lid) ((c, t (some ret)) ::ₘ (sent dest .revoke + X lid))) :
    Keeps X b (exec (.lockAcquire lid c) s) := by
  rw [← Multiset.cons_add] at hk
  cases dest with
  | none =>
    refine ⟨s.setServer lid r, .ret { ret := ret }, by simp [exec, execLockAcquire, hx], ?_⟩
    convert h.server hk using 3 with lid'
    simp [Ledger.landed, Ledger.surface, ledger, top, hl, answer, sent, on]
  | some dest =>
    refine ⟨s.setServer lid r, .call (.revoke dest lid) (.serverAcquire lid c ret dest),
      by simp [exec, execLockAcquire, hx], ?_⟩
    convert h.server hk using 3 with lid'
    simp only [Ledger.landed, Ledger.surface, ledger, hl, answer]
    simp only [top, link, on]
    split_ifs with h1
    · simp [sent, add_comm]
    · simp

theorem keeps_lockAcquire (hb : b.calls machine = .lockAcquire lid c) (hg : Grounded b)
    (h : LocksOk s fun lid' => (ledger lid').surface (.request (.lockAcquire lid c)) b + X lid') :
    Keeps X b (exec (.lockAcquire lid c) s) := by
  rcases link_lockAcquire hb hg with hl | hl
  · have h' : LocksOk s fun lid' => on lid' lid c {.first none} + X lid' := by
      simpa [Ledger.surface, ledger, top, hl, answer] using h
    have hk := h' lid
    simp only [on_self, Multiset.map_singleton, Multiset.singleton_add] at hk
    obtain ⟨r, ret, dest, hx, hr⟩ := hk.serverAcquire_first
    exact keeps_execLockAcquire (t := .first) h' hl hx hr
  · have h' : LocksOk s fun lid' => on lid' lid c {.second none} + X lid' := by
      simpa [Ledger.surface, ledger, top, hl, answer] using h
    have hk := h' lid
    simp only [on_self, Multiset.map_singleton, Multiset.singleton_add] at hk
    obtain ⟨r, dest, hx, hr⟩ := hk.serverAcquire_second
    exact keeps_execLockAcquire (t := .second) h' hl hx hr

theorem keeps_lockRelease (hb : b.calls machine = .lockRelease lid c) (hg : Grounded b)
    (h : LocksOk s fun lid' => (ledger lid').surface (.request (.lockRelease lid c)) b + X lid') :
    Keeps X b (exec (.lockRelease lid c) s) := by
  have hl := link_lockRelease hb hg
  have h' : LocksOk s fun lid' => on lid' lid c {.release .asked} + X lid' := by
    simpa [Ledger.surface, ledger, top, hl, stage] using h
  have hk := h' lid
  simp only [on_self, Multiset.map_singleton, Multiset.singleton_add] at hk
  obtain ⟨r, dest, hx, hr⟩ := hk.serverRelease
  rw [← Multiset.cons_add] at hr
  cases dest with
  | none =>
    refine ⟨s.setServer lid r, .ret {}, by simp [exec, execLockRelease, hx], ?_⟩
    convert h'.server hr using 3 with lid'
    simp [Ledger.landed, Ledger.surface, ledger, top, hl, stage, sent, on]
  | some dest =>
    refine ⟨s.setServer lid r, .call (.retry dest lid) (.serverRelease lid c dest),
      by simp [exec, execLockRelease, hx], ?_⟩
    convert h'.server hr using 3 with lid'
    simp only [Ledger.landed, Ledger.surface, ledger, hl, stage]
    simp only [top, link, on]
    split_ifs with h1
    · simpa [sent] using Multiset.cons_swap _ _ 0
    · simp

theorem keeps_serverAcquire {id dest : ClientId} {ret : Status} {v : Reply} (hv : v.ret = statusOk)
    (hb : b.calls machine = .lockAcquire lid id) (hg : Grounded b)
    (h : LocksOk s fun lid' => link lid' (.frame (.serverAcquire lid id ret dest)) b + X lid') :
    Keeps X b (resume (.serverAcquire lid id ret dest) v s) := by
  refine ⟨s, .ret { ret := ret }, by simp [resume, hv], ?_⟩
  rcases link_lockAcquire hb hg with hl | hl <;>
    simpa [Ledger.landed, Ledger.surface, ledger, top, hl, answer] using h

theorem keeps_serverRelease {id dest : ClientId} {v : Reply}
    (hb : b.calls machine = .lockRelease lid id) (hg : Grounded b)
    (h : LocksOk s fun lid' => link lid' (.frame (.serverRelease lid id dest)) b + X lid') :
    Keeps X b (resume (.serverRelease lid id dest) v s) := by
  refine ⟨s, .ret {}, rfl, ?_⟩
  have hl := link_lockRelease hb hg
  simpa [Ledger.landed, Ledger.surface, ledger, top, hl, stage] using h

/-! ## Everything else leaves the locks alone -/

/-- The calls of the extent client and of the extent server, `dorelease` apart. -/
def IsExtent : Request → Prop
  | .acquire _ _ | .release _ _ | .revoke _ _ | .retry _ _ | .lockAcquire _ _
  | .lockRelease _ _ | .dorelease _ _ => False
  | _ => True

theorem link_extent {r : Request} (hr : IsExtent r) (hb : b.calls machine = r) (lid : LockId)
    (a a' : Above Request Reply Frame Sleeper) : link lid a b = link lid a' b := by
  cases b with
  | root q =>
    obtain rfl : q = r := hb
    cases q <;> first | rfl | exact hr.elim
  | frame f => subst hb; cases f <;> first | rfl | exact hr.elim

/-- An ending that puts no token on the surface. -/
def Light : Ending → Prop
  | .ret _ => True
  | .call r f => ∀ lid, (ledger lid).surface (.request r) (.frame f) = 0
  | .wait _ => False

theorem exec_extent {r : Request} (hr : IsExtent r) (s : Shared) :
    ∃ s' o, exec r s = some (s', o) ∧ s'.lockServer = s.lockServer ∧
      s'.lockClient = s.lockClient ∧ Light o := by
  cases r with
  | get c eid =>
    simp only [exec, execGet]
    split <;> exact ⟨_, _, rfl, rfl, rfl, by simp [Light, Ledger.surface, ledger, top, link]⟩
  | getattr c eid =>
    simp only [exec, execGetattr]
    split <;> exact ⟨_, _, rfl, rfl, rfl, by simp [Light, Ledger.surface, ledger, top, link]⟩
  | acquire | release | revoke | retry | lockAcquire | lockRelease | dorelease => exact hr.elim
  | _ => exact ⟨_, _, rfl, rfl, rfl, by simp [Light, Ledger.surface, ledger, top, link]⟩

theorem landed_light {r : Request} (hr : IsExtent r) (hb : b.calls machine = r) {o : Ending}
    (ho : Light o) (lid : LockId) (a : Above Request Reply Frame Sleeper) :
    (ledger lid).landed b o = link lid a b := by
  cases o with
  | ret v =>
    rw [link_extent hr hb lid a (.control (.reply v))]
    simp [Ledger.landed, Ledger.surface, ledger, top]
  | call r' f =>
    rw [link_extent hr hb lid a (.frame f)]
    simp only [Ledger.landed, ho lid, zero_add]
    rfl
  | wait w => exact ho.elim

theorem keeps_light {r : Request} (hr : IsExtent r) (hb : b.calls machine = r) {s' : Shared}
    {o : Ending} {x : Option (Shared × Ending)} {a : Above Request Reply Frame Sleeper}
    (h : LocksOk s fun lid => link lid a b + X lid) (hx : x = some (s', o))
    (hs : s'.lockServer = s.lockServer) (hc : s'.lockClient = s.lockClient) (ho : Light o) :
    Keeps X b x := by
  refine ⟨s', o, hx, fun lid => ?_⟩
  have hk := h lid
  dsimp only at hk ⊢
  rwa [hs, hc, landed_light hr hb ho lid a]

/-! ## The flush before a release -/

/-- `dorelease` is called only on behalf of a release. -/
theorem link_dorelease (hb : b.calls machine = .dorelease c lid) (hg : Grounded b) (lid' : LockId)
    (a : Above Request Reply Frame Sleeper) :
    link lid' a b = on lid' lid c {.release (flushStage a)} := by
  cases b with
  | root q =>
    obtain ⟨c', hq⟩ := hg
    obtain rfl : q = .dorelease c lid := hb
    simp [Request.IsAppCall, Request.IsExtentCall] at hq
  | frame f => cases f <;> cases hb <;> rfl

theorem execFlush_locks (s : Shared) (c : ClientId) (eid : ExtentId) :
    (execFlush s c eid).1.lockServer = s.lockServer ∧
      (execFlush s c eid).1.lockClient = s.lockClient := by
  unfold execFlush
  split
  · exact ⟨rfl, rfl⟩
  · split_ifs <;> exact ⟨rfl, rfl⟩

theorem landed_execFlush (hb : b.calls machine = .dorelease c lid) (hg : Grounded b) (lid' : LockId) :
    (ledger lid').landed b (execFlush s c lid).2 = on lid' lid c {.release .evicted} := by
  have hl := link_dorelease hb hg
  unfold execFlush
  split
  · simp [Ledger.landed, Ledger.surface, ledger, top, hl, flushStage]
  · split_ifs <;> simp only [Ledger.landed, Ledger.surface, ledger, hl, flushStage] <;>
      simp [top, link]

/-- `dorelease` runs: nothing of the extent remains in the cache. -/
theorem keeps_dorelease (hb : b.calls machine = .dorelease c lid) (hg : Grounded b)
    (h : LocksOk s fun lid' => (ledger lid').surface (.request (.dorelease c lid)) b + X lid') :
    Keeps X b (exec (.dorelease c lid) s) := by
  have h' : LocksOk s fun lid' => on lid' lid c {.release .flushing} + X lid' := by
    simpa [Ledger.surface, ledger, top, link_dorelease hb hg, flushStage] using h
  have hk : LocksOk s fun lid' => on lid' lid c {.release .evicted} + X lid' :=
    h'.swap (by simpa using h'.phase.evict (by simp))
  refine ⟨(execFlush s c lid).1, (execFlush s c lid).2, rfl, fun lid' => ?_⟩
  have hk' := hk lid'
  dsimp only at hk' ⊢
  rwa [(execFlush_locks s c lid).1, (execFlush_locks s c lid).2, landed_execFlush hb hg]

/-- The extent server has stored or removed what the flush sent it. -/
theorem keeps_flushRpc {a : Above Request Reply Frame Sleeper} (ha : flushStage a = .evicted)
    (hb : b.calls machine = .dorelease c lid) (hg : Grounded b)
    (h : LocksOk s fun lid' => link lid' a b + X lid') : Keeps X b (some (s, .ret {})) := by
  refine ⟨s, _, rfl, ?_⟩
  have hl := link_dorelease hb hg
  simp only [hl, ha] at h
  simpa [Ledger.landed, Ledger.surface, ledger, top, hl, flushStage] using h

/-- `dorelease` has returned; the release goes to the server. -/
theorem keeps_flushed {f : Frame} (hlk : ∀ lid' a, link lid' a b = procLink lid' p c lid a)
    (hf : f = .releaseRpc c lid ∨ f = .revokeRpc c lid)
    (h : LocksOk s fun lid' => on lid' lid c {.release .evicted} + X lid') :
    Keeps X b (some (s, .call (.lockRelease lid c) f)) := by
  refine ⟨s, _, rfl, ?_⟩
  have hl : ∀ lid', (ledger lid').landed b (.call (.lockRelease lid c) f) =
      on lid' lid c {.release .asked} := by
    intro lid'
    rcases hf with rfl | rfl <;>
      simp only [Ledger.landed, Ledger.surface, ledger, hlk, procLink] <;>
      simp [top, link, stage]
  simp only [hl]
  exact h.swap (by simpa using h.phase.flushed (by simp))

end Yfs.LockLedger
