import Yfs.LockProtocol
import Mathlib.Data.Multiset.Filter
import Mathlib.Data.Multiset.AddSub
import Mathlib.Algebra.Order.Group.Multiset

/-!
# The phases of one lock

A phase says everything about one client and one lock: where the server has the client,
the client's own record, and exactly which calls and messages concerning it are on their
way. The protocol is correct because every critical section takes a client from one
phase to another; no assertion can fail in any phase.
-/

namespace Yfs.LockPhases
open LockProtocol

/-- How far a release has got: its `dorelease` is on its way, has emptied the cache, the
server was asked, the server has answered. -/
inductive Stage where
  | flushing | evicted | asked | answered
  deriving DecidableEq, Repr

/-- Something unfinished about a lock. `hold` is a thread to which the lock was given and
which did not give it back; `first` and `second` are calls of the server's `acquire`,
with the answer they got. -/
inductive Token where
  | hold
  | first (answer : Option Status)
  | second (answer : Option Status)
  | release (stage : Stage)
  | revoke
  | retry
  deriving DecidableEq, Repr

/-- Where the server has a client. -/
inductive Role where
  | outside
  | queued
  | expected (sendRpc : Bool)
  | holder (sendRpc : Bool)
  deriving DecidableEq, Repr

def role (s : LockStateServer) (c : Str) : Role :=
  if s.state = .locked ∧ s.holdingClient.id = c then .holder s.holdingClient.sendRpc
  else if s.state = .expecting ∧ s.holdingClient.id = c then .expected s.holdingClient.sendRpc
  else if c ∈ s.waitingClients then .queued
  else .outside

/-- A revocation that was ordered is a message on its way or a mark at the client. -/
inductive Revoking : Bool → Pending → Multiset Token → Prop where
  | quiet : Revoking false .zero 0
  | sent : Revoking true .zero {.revoke}
  | marked : Revoking true .revoke 0

inductive Phase : Role → LockStateClient → Multiset Token → Prop where
  | idle : Phase .outside ⟨.none, .zero⟩ 0
  | asking : Phase .outside ⟨.acquiring, .zero⟩ {.first none}
  | granted {b p T} (h : Revoking b p T) :
      Phase (.holder b) ⟨.acquiring, p⟩ (.first (some statusOk) ::ₘ T)
  | refused : Phase .queued ⟨.acquiring, .zero⟩ {.first (some statusRetry)}
  | refusedCalled {b} : Phase (.expected b) ⟨.acquiring, .zero⟩ {.retry, .first (some statusRetry)}
  | refusedMarked {b} : Phase (.expected b) ⟨.acquiring, .retry⟩ {.first (some statusRetry)}
  | waiting : Phase .queued ⟨.waiting, .zero⟩ 0
  | called {b} : Phase (.expected b) ⟨.waiting, .zero⟩ {.retry}
  | askingAgain {b} : Phase (.expected b) ⟨.waiting, .zero⟩ {.second none}
  | grantedAgain {b p T} (h : Revoking b p T) :
      Phase (.holder b) ⟨.waiting, p⟩ (.second (some statusOk) ::ₘ T)
  | owned {b p T} (h : Revoking b p T) : Phase (.holder b) ⟨.owned, p⟩ T
  | locked {b p T} (h : Revoking b p T) : Phase (.holder b) ⟨.locked, p⟩ (.hold ::ₘ T)
  | flushing : Phase (.holder true) ⟨.releasing, .zero⟩ {.release .flushing}
  | evicted : Phase (.holder true) ⟨.releasing, .zero⟩ {.release .evicted}
  | releasing : Phase (.holder true) ⟨.releasing, .zero⟩ {.release .asked}
  | released : Phase .outside ⟨.releasing, .zero⟩ {.release .answered}

/-! ## Critical sections of the client -/

variable {ro : Role} {cl : LockStateClient} {T : Multiset Token}

/-- What `acquire` leaves behind when it is entered or woken. -/
def acquireTokens (cl : LockStateClient) : Multiset Token :=
  match cl.state with
  | .owned => {.hold}
  | .none => {.first none}
  | _ => 0

theorem acquireWoken_eq (cl : LockStateClient) : acquireWoken cl = acquireStart cl := by
  unfold acquireWoken acquireStart
  by_cases h : cl.state = .owned <;> simp [h]

theorem Phase.acquireStart (h : Phase ro cl T) :
    Phase ro (acquireStart cl).1 (acquireTokens cl + T) := by
  cases h with
  | idle => exact .asking
  | owned h => exact .locked h
  | granted h => simpa [LockProtocol.acquireStart, acquireLoop, acquireTokens] using granted h
  | grantedAgain h =>
    simpa [LockProtocol.acquireStart, acquireLoop, acquireTokens] using grantedAgain h
  | locked h => simpa [LockProtocol.acquireStart, acquireLoop, acquireTokens] using locked h
  | _ =>
    simp only [LockProtocol.acquireStart, acquireLoop, acquireTokens, reduceCtorEq, if_false,
      zero_add]
    constructor

/-- What `acquire` leaves behind when its first call was answered. -/
def answeredTokens (r : Status) (cl : LockStateClient) : Multiset Token :=
  if r = statusOk then {.hold} else if cl.pending = .retry then {.second none} else 0

theorem Phase.acquireAnswered {r : Status} (h : Phase ro cl T) (ht : .first (some r) ∈ T) :
    ∃ m, acquireAnswered r cl = some m ∧
      Phase ro m.1 (answeredTokens r cl + T.erase (.first (some r))) := by
  cases h with
  | granted h =>
    obtain rfl : r = statusOk := by cases h <;> simpa using ht
    exact ⟨_, rfl, by simpa [answeredTokens] using locked h⟩
  | refused =>
    obtain rfl : r = statusRetry := by simpa using ht
    exact ⟨_, rfl, waiting⟩
  | refusedCalled =>
    obtain rfl : r = statusRetry := by simpa using ht
    exact ⟨_, rfl, called⟩
  | refusedMarked =>
    obtain rfl : r = statusRetry := by simpa using ht
    exact ⟨_, rfl, askingAgain⟩
  | grantedAgain h | owned h | locked h => cases h <;> simp at ht
  | _ => simp at ht

/-- The answer to the second call finds the server's promise kept. -/
theorem Phase.second_answered {r : Status} (h : Phase ro cl T) (ht : .second (some r) ∈ T) :
    r = statusOk ∧ Phase ro { cl with state := .locked } (.hold ::ₘ T.erase (.second (some r))) ∧
      Phase ro { cl with state := .owned } (T.erase (.second (some r))) := by
  cases h with
  | grantedAgain h =>
    obtain rfl : r = statusOk := by cases h <;> simpa using ht
    exact ⟨rfl, by simpa using locked h, by simpa using owned h⟩
  | granted h | owned h | locked h => cases h <;> simp at ht
  | _ => simp at ht

theorem Phase.acquireAnsweredAgain {r : Status} (h : Phase ro cl T)
    (ht : .second (some r) ∈ T) :
    acquireAnsweredAgain r cl = some ({ cl with state := .locked }, .done false) ∧
      Phase ro { cl with state := .locked } (.hold ::ₘ T.erase (.second (some r))) := by
  obtain ⟨rfl, hl, -⟩ := h.second_answered ht
  exact ⟨rfl, hl⟩

theorem Phase.retryAnswered {r : Status} (h : Phase ro cl T) (ht : .second (some r) ∈ T) :
    retryAnswered r cl = some ({ cl with state := .owned }, .done true) ∧
      Phase ro { cl with state := .owned } (T.erase (.second (some r))) := by
  obtain ⟨rfl, -, ho⟩ := h.second_answered ht
  exact ⟨rfl, ho⟩

/-- A thread that holds the lock finds its record locked, with at most a revocation noted. -/
theorem Phase.releaseStart (h : Phase ro cl T) (ht : .hold ∈ T) :
    (releaseStart cl = some ({ cl with state := .owned }, .done true) ∧
        Phase ro { cl with state := .owned } (T.erase .hold)) ∨
      (releaseStart cl = some (⟨.releasing, .zero⟩, .callRelease) ∧
        ∀ st ≠ Stage.answered, Phase ro ⟨.releasing, .zero⟩ (.release st ::ₘ T.erase .hold)) := by
  cases h with
  | locked h =>
    cases h with
    | quiet => exact .inl ⟨rfl, owned .quiet⟩
    | sent => exact .inl ⟨rfl, owned .sent⟩
    | marked =>
      refine .inr ⟨rfl, fun st hst => ?_⟩
      cases st with
      | flushing => exact flushing
      | evicted => exact evicted
      | asked => exact releasing
      | answered => exact absurd rfl hst
  | granted h | grantedAgain h | owned h => cases h <;> simp at ht
  | _ => simp at ht

theorem Phase.evict (h : Phase ro cl T) (ht : .release .flushing ∈ T) :
    Phase ro cl (.release .evicted ::ₘ T.erase (.release .flushing)) := by
  cases h with
  | flushing => exact evicted
  | granted h | grantedAgain h | owned h | locked h => cases h <;> simp at ht
  | _ => simp at ht

theorem Phase.flushed (h : Phase ro cl T) (ht : .release .evicted ∈ T) :
    Phase ro cl (.release .asked ::ₘ T.erase (.release .evicted)) := by
  cases h with
  | evicted => exact releasing
  | granted h | grantedAgain h | owned h | locked h => cases h <;> simp at ht
  | _ => simp at ht

/-- The two ways in which a release ends agree on the record they leave. -/
theorem Phase.releaseAnswered (h : Phase ro cl T) (ht : .release .answered ∈ T) :
    releaseAnswered statusOk cl = some ({ cl with state := .none }, .done false) ∧
      Phase ro { cl with state := .none } (T.erase (.release .answered)) := by
  cases h with
  | released => exact ⟨rfl, idle⟩
  | granted h | grantedAgain h | owned h | locked h => cases h <;> simp at ht
  | _ => simp at ht

/-- A revocation never meets a client that does not have the lock or has been told before. -/
theorem Phase.revokeStart (h : Phase ro cl T) (ht : .revoke ∈ T) :
    (revokeStart cl = some ({ cl with pending := .revoke }, .done false) ∧
        Phase ro { cl with pending := .revoke } (T.erase .revoke)) ∨
      (revokeStart cl = some ({ cl with state := .releasing }, .callRelease) ∧
        ∀ st ≠ Stage.answered,
          Phase ro { cl with state := .releasing } (.release st ::ₘ T.erase .revoke)) := by
  cases h with
  | granted h =>
    cases h <;> simp at ht
    exact .inl ⟨rfl, granted .marked⟩
  | grantedAgain h =>
    cases h <;> simp at ht
    exact .inl ⟨rfl, grantedAgain .marked⟩
  | locked h =>
    cases h <;> simp at ht
    exact .inl ⟨rfl, locked .marked⟩
  | owned h =>
    cases h <;> simp at ht
    refine .inr ⟨rfl, fun st hst => ?_⟩
    cases st with
    | flushing => exact flushing
    | evicted => exact evicted
    | asked => exact releasing
    | answered => exact absurd rfl hst
  | _ => simp at ht

/-- A retry meets only a client that was refused and has not asked again. -/
theorem Phase.retryStart (h : Phase ro cl T) (ht : .retry ∈ T) :
    (retryStart cl = some ({ cl with pending := .retry }, .done false) ∧
        Phase ro { cl with pending := .retry } (T.erase .retry)) ∨
      (retryStart cl = some (cl, .callAcquireAgain) ∧
        Phase ro cl (.second none ::ₘ T.erase .retry)) := by
  cases h with
  | refusedCalled => exact .inl ⟨rfl, refusedMarked⟩
  | called => exact .inr ⟨rfl, askingAgain⟩
  | granted h | grantedAgain h | owned h | locked h => cases h <;> simp at ht
  | _ => simp at ht

/-! ## Critical sections of the server -/

/-- The server orders a revocation from a holder it has left alone so far. -/
theorem Phase.ordered (h : Phase (.holder false) cl T) : Phase (.holder true) cl (.revoke ::ₘ T) := by
  cases h with
  | granted h => cases h; rw [Multiset.cons_swap]; exact granted .sent
  | grantedAgain h => cases h; rw [Multiset.cons_swap]; exact grantedAgain .sent
  | owned h => cases h; exact owned .sent
  | locked h => cases h; rw [Multiset.cons_swap]; exact locked .sent

/-- The server picks a queued client as the next holder and tells it to retry. -/
theorem Phase.picked (h : Phase .queued cl T) (b : Bool) :
    Phase (.expected b) cl (.retry ::ₘ T) := by
  cases h with
  | refused => exact refusedCalled
  | waiting => exact called

theorem Phase.expected_any {b : Bool} (h : Phase (.expected b) cl T) (b' : Bool) :
    Phase (.expected b') cl T := by
  cases h <;> constructor

theorem Phase.asking_of_first (h : Phase ro cl T) (ht : .first none ∈ T) :
    ro = .outside ∧ cl = ⟨.acquiring, .zero⟩ ∧ T = {.first none} := by
  cases h with
  | asking => exact ⟨rfl, rfl, rfl⟩
  | granted h | grantedAgain h | owned h | locked h => cases h <;> simp at ht
  | _ => simp at ht

theorem Phase.askingAgain_of_second (h : Phase ro cl T) (ht : .second none ∈ T) :
    (∃ b, ro = .expected b) ∧ cl = ⟨.waiting, .zero⟩ ∧ T = {.second none} := by
  cases h with
  | askingAgain => exact ⟨⟨_, rfl⟩, rfl, rfl⟩
  | granted h | grantedAgain h | owned h | locked h => cases h <;> simp at ht
  | _ => simp at ht

theorem Phase.releasing_of_asked (h : Phase ro cl T) (ht : .release .asked ∈ T) :
    ro = .holder true ∧ cl = ⟨.releasing, .zero⟩ ∧ T = {.release .asked} := by
  cases h with
  | releasing => exact ⟨rfl, rfl, rfl⟩
  | granted h | grantedAgain h | owned h | locked h => cases h <;> simp at ht
  | _ => simp at ht

theorem Phase.eq_of_release {st : Stage} (h : Phase ro cl T) (ht : .release st ∈ T) :
    T = {.release st} := by
  cases h with
  | flushing | evicted | releasing | released =>
    obtain rfl := Token.release.inj (Multiset.mem_singleton.mp ht)
    rfl
  | granted h | grantedAgain h | owned h | locked h => cases h <;> simp at ht
  | _ => simp at ht

/-- The server's own bookkeeping. A revocation has been ordered exactly when somebody waits. -/
structure ServerOk (s : LockStateServer) : Prop where
  free : s.state = .free → s.holdingClient = {} ∧ s.waitingClients = []
  named : s.state ≠ .free → s.holdingClient.id ≠ []
  unnamed : [] ∉ s.waitingClients
  nodup : s.waitingClients.Nodup
  apart : s.holdingClient.id ∉ s.waitingClients
  ordered : s.holdingClient.sendRpc = !s.waitingClients.isEmpty

/-- The tokens that concern client `c`. -/
def tokensOf (c : Str) (M : Multiset (Str × Token)) : Multiset Token :=
  M.filterMap fun p => if p.1 = c then some p.2 else none

@[simp] theorem tokensOf_zero (c : Str) : tokensOf c 0 = 0 := rfl

@[simp] theorem tokensOf_add (c : Str) (M N : Multiset (Str × Token)) :
    tokensOf c (M + N) = tokensOf c M + tokensOf c N := Multiset.filterMap_add _ _ _

@[simp] theorem tokensOf_cons_self (c : Str) (t : Token) (M : Multiset (Str × Token)) :
    tokensOf c ((c, t) ::ₘ M) = t ::ₘ tokensOf c M :=
  Multiset.filterMap_cons_some _ _ _ (by simp)

theorem tokensOf_cons_ne {c d : Str} (h : d ≠ c) (t : Token) (M : Multiset (Str × Token)) :
    tokensOf c ((d, t) ::ₘ M) = tokensOf c M :=
  Multiset.filterMap_cons_none _ _ (by simp [h])

/-- The invariant of one lock: the server's record, the records of all clients, and
everything about the lock that is on its way. -/
structure Consistent (s : LockStateServer) (rec : Str → LockStateClient)
    (M : Multiset (Str × Token)) : Prop where
  server : ServerOk s
  phase : ∀ c, Phase (role s c) (rec c) (tokensOf c M)
  unnamed : tokensOf [] M = 0

theorem rest_eq_zero {t : Token} (h : t ::ₘ T = {t}) : T = 0 := (Multiset.cons_inj_right t).1 h

variable {s : LockStateServer} {rec : Str → LockStateClient} {M M' X : Multiset (Str × Token)}
  {c d : Str}

theorem Consistent.named {t : Token} (h : Consistent s rec ((c, t) ::ₘ X)) : c ≠ [] := by
  rintro rfl
  have hz := h.unnamed
  simp at hz

/-- A critical section of client `c` touches nobody else. -/
theorem Consistent.client_step (h : Consistent s rec M) (hc : c ≠ []) {r : LockStateClient}
    (hp : Phase (role s c) r (tokensOf c M')) (hM : ∀ d, d ≠ c → tokensOf d M' = tokensOf d M) :
    Consistent s (Function.update rec c r) M' := by
  refine ⟨h.server, fun d => ?_, ?_⟩
  · by_cases hd : d = c
    · subst hd; simpa using hp
    · simpa [hd, hM d hd] using h.phase d
  · simpa [hM [] hc.symm] using h.unnamed

theorem role_free (hs : ServerOk s) (hf : s.state = .free) (c : Str) : role s c = .outside := by
  simp [role, hf, (hs.free hf).2]

theorem role_eq_holder {b : Bool} (h : role s c = .holder b) :
    s.state = .locked ∧ s.holdingClient.id = c ∧ s.holdingClient.sendRpc = b := by
  unfold role at h
  split_ifs at h with h1 h2 h3
  exact ⟨h1.1, h1.2, by simpa using h⟩

theorem role_eq_expected {b : Bool} (h : role s c = .expected b) :
    s.state = .expecting ∧ s.holdingClient.id = c ∧ s.holdingClient.sendRpc = b := by
  unfold role at h
  split_ifs at h with h1 h2 h3
  exact ⟨h2.1, h2.2, by simpa using h⟩

theorem role_eq_outside (h : role s c = .outside) :
    (s.state = .free ∨ s.holdingClient.id ≠ c) ∧ c ∉ s.waitingClients := by
  unfold role at h
  split_ifs at h with h1 h2 h3
  refine ⟨?_, h3⟩
  cases hs : s.state <;> simp_all

/-- The record after the server has queued `c` behind the holder. -/
def queued (s : LockStateServer) (c : Str) : LockStateServer :=
  { s with waitingClients := s.waitingClients ++ [c],
           holdingClient := { s.holdingClient with sendRpc := true } }

theorem role_queued_other (hd : d ≠ c) (hh : d ≠ s.holdingClient.id) :
    role (queued s c) d = role s d := by
  simp [role, queued, hd, hh.symm]

theorem role_queued_self (hh : s.holdingClient.id ≠ c) : role (queued s c) c = .queued := by
  simp [role, queued, hh]

theorem ServerOk.queue (hs : ServerOk s) (hf : s.state ≠ .free) (hc : c ≠ [])
    (hw : c ∉ s.waitingClients) (hh : s.holdingClient.id ≠ c) :
    ServerOk (queued s c) where
  free h := absurd h hf
  named _ := hs.named hf
  unnamed := by simpa [queued, hc.symm] using hs.unnamed
  nodup := by
    rw [queued, List.nodup_append]
    exact ⟨hs.nodup, by simp, by simpa using fun a ha (e : a = c) => hw (e ▸ ha)⟩
  apart := by simpa [queued, hh] using hs.apart
  ordered := by simp [queued]

/-- The tokens of a message to `dest`. -/
def sent (dest : Option Str) (t : Token) : Multiset (Str × Token) :=
  (dest.map fun d => (d, t)).elim 0 ({·})

theorem tokensOf_sent_ne {dest : Option Str} {t : Token} (h : ∀ d ∈ dest, d ≠ c) :
    tokensOf c (sent dest t) = 0 := by
  cases dest with
  | none => rfl
  | some d => exact tokensOf_cons_ne (h d rfl) t 0

@[simp] theorem tokensOf_sent_self (c : Str) (t : Token) : tokensOf c (sent (some c) t) = {t} :=
  tokensOf_cons_self c t 0

/-- Queueing `c` while somebody else has the lock or was promised it. -/
theorem Consistent.enqueue (h : Consistent s rec ((c, .first none) ::ₘ X))
    (hf : s.state ≠ .free) {dest : Option Str} (hdest : ∀ d ∈ dest, d = s.holdingClient.id)
    (hh : Phase (role (queued s c) s.holdingClient.id) (rec s.holdingClient.id)
      (tokensOf s.holdingClient.id (sent dest .revoke + X))) :
    Consistent (queued s c) rec ((c, .first (some statusRetry)) ::ₘ (sent dest .revoke + X)) := by
  have hc := h.named
  obtain ⟨hro, hcl, hT⟩ := (h.phase c).asking_of_first (by simp)
  obtain ⟨hne, hw⟩ := role_eq_outside hro
  have hne : s.holdingClient.id ≠ c := hne.resolve_left hf
  have hX : tokensOf c X = 0 := rest_eq_zero (by simpa using hT)
  have hother : ∀ d, d ≠ s.holdingClient.id → tokensOf d (sent dest .revoke) = 0 :=
    fun d hd => tokensOf_sent_ne fun e he hed => hd (hed ▸ hdest e he)
  refine ⟨h.server.queue hf hc hw hne, fun d => ?_, ?_⟩
  · by_cases hd : d = c
    · subst hd
      rw [role_queued_self hne]
      simpa [hcl, hX, hother d hne.symm] using Phase.refused
    · rw [tokensOf_cons_ne (Ne.symm hd)]
      by_cases hdh : d = s.holdingClient.id
      · subst hdh; exact hh
      · rw [role_queued_other hd hdh]
        simpa [tokensOf_cons_ne (Ne.symm hd), hother d hdh] using h.phase d
  · have hu := h.unnamed
    rw [tokensOf_cons_ne hc] at hu ⊢
    simpa [hother [] (h.server.named hf).symm] using hu

theorem Consistent.grant (h : Consistent s rec ((c, .first none) ::ₘ X)) (hf : s.state = .free) :
    Consistent { s with state := .locked, holdingClient := ⟨c, false⟩ } rec
      ((c, .first (some statusOk)) ::ₘ X) := by
  have hc := h.named
  obtain ⟨-, hcl, hT⟩ := (h.phase c).asking_of_first (by simp)
  have hX : tokensOf c X = 0 := rest_eq_zero (by simpa using hT)
  have hw := (h.server.free hf).2
  refine ⟨⟨by simp, fun _ => hc, h.server.unnamed, h.server.nodup, by simp [hw], by simp [hw]⟩,
    fun d => ?_, ?_⟩
  · by_cases hd : d = c
    · subst hd
      simpa [role, hcl, hX] using Phase.granted .quiet
    · have hp := h.phase d
      rw [role_free h.server hf, tokensOf_cons_ne (Ne.symm hd)] at hp
      rw [tokensOf_cons_ne (Ne.symm hd)]
      simpa [role, hw, Ne.symm hd] using hp
  · have hu := h.unnamed
    rwa [tokensOf_cons_ne hc] at hu ⊢

/-- A client that asks for the first time gets the lock or is queued; only the holder may
be disturbed, and it is told once. -/
theorem Consistent.serverAcquire_first (h : Consistent s rec ((c, .first none) ::ₘ X)) :
    ∃ r ret dest, serverAcquire s c = some (r, ret, dest) ∧
      Consistent r rec ((c, .first (some ret)) ::ₘ (sent dest .revoke + X)) := by
  have hro := ((h.phase c).asking_of_first (by simp)).1
  have hne := (role_eq_outside hro).1
  have hp := h.phase s.holdingClient.id
  cases hst : s.state with
  | free =>
    refine ⟨{ s with state := .locked, holdingClient := ⟨c, false⟩ }, statusOk, none,
      by simp [serverAcquire, hst, (h.server.free hst).2], ?_⟩
    simpa [sent] using h.grant hst
  | expecting =>
    have hf : s.state ≠ .free := by simp [hst]
    have hne := hne.resolve_left hf
    have hnm := h.server.named hf
    refine ⟨queued s c, statusRetry, none, by simp [serverAcquire, queued, hst, hnm, hne], ?_⟩
    refine h.enqueue hf (by simp) ?_
    rw [tokensOf_cons_ne hne.symm, role, if_neg (by simp [hst]), if_pos ⟨hst, rfl⟩] at hp
    simpa [role, queued, hst, sent] using hp.expected_any true
  | locked =>
    have hf : s.state ≠ .free := by simp [hst]
    have hne := hne.resolve_left hf
    have hnm := h.server.named hf
    rw [tokensOf_cons_ne hne.symm, role, if_pos ⟨hst, rfl⟩] at hp
    cases hb : s.holdingClient.sendRpc with
    | false =>
      refine ⟨queued s c, statusRetry, some s.holdingClient.id,
        by simp [serverAcquire, queued, hst, hnm, hne, hb], ?_⟩
      refine h.enqueue hf (by simp) ?_
      rw [hb] at hp
      simpa [role, queued, hst] using hp.ordered
    | true =>
      have hq : queued s c = { s with waitingClients := s.waitingClients ++ [c] } := by
        simp [queued, ← hb]
      refine ⟨queued s c, statusRetry, none,
        by simp [serverAcquire, hq, hst, hnm, hne, hb], ?_⟩
      refine h.enqueue hf (by simp) ?_
      simpa [role, queued, hst, sent, hb] using hp

/-- A client that was told to retry gets the lock. If others queued behind it, its own
acquire brings the revocation with it. -/
theorem Consistent.serverAcquire_second (h : Consistent s rec ((c, .second none) ::ₘ X)) :
    ∃ r dest, serverAcquire s c = some (r, statusOk, dest) ∧
      Consistent r rec ((c, .second (some statusOk)) ::ₘ (sent dest .revoke + X)) := by
  have hc := h.named
  obtain ⟨⟨b, hro⟩, hcl, hT⟩ := (h.phase c).askingAgain_of_second (by simp)
  obtain ⟨hst, hid, hb⟩ := role_eq_expected hro
  have hX : tokensOf c X = 0 := rest_eq_zero (by simpa using hT)
  have hs := h.server
  have hok : ServerOk { s with state := .locked } :=
    ⟨by simp, fun _ => hid ▸ hc, hs.unnamed, hs.nodup, hs.apart, hs.ordered⟩
  have hother : ∀ dest : Option Str, (∀ d ∈ dest, d = c) → ∀ d, d ≠ c →
      Phase (role { s with state := .locked } d) (rec d)
        (tokensOf d ((c, .second (some statusOk)) ::ₘ (sent dest .revoke + X))) := by
    intro dest hdest d hd
    have hp := h.phase d
    have hz : tokensOf d (sent dest .revoke) = 0 :=
      tokensOf_sent_ne fun e he hed => hd (hed ▸ hdest e he)
    rw [tokensOf_cons_ne (Ne.symm hd)] at hp ⊢
    simpa [role, hst, hid, Ne.symm hd, hz] using hp
  have hunnamed : ∀ dest : Option Str, (∀ d ∈ dest, d = c) →
      tokensOf [] ((c, .second (some statusOk)) ::ₘ (sent dest .revoke + X)) = 0 := by
    intro dest hdest
    have hu := h.unnamed
    have hz : tokensOf [] (sent dest .revoke) = 0 :=
      tokensOf_sent_ne fun e he => hdest e he ▸ hc
    rw [tokensOf_cons_ne hc] at hu ⊢
    simpa [hz] using hu
  cases b with
  | false =>
    refine ⟨{ s with state := .locked }, none, by simp [serverAcquire, hst, hid, hc, hb], hok, fun d => ?_,
      hunnamed none (by simp)⟩
    by_cases hd : d = c
    · subst hd
      simpa [role, hid, hb, hcl, sent, hX] using Phase.grantedAgain .quiet
    · exact hother none (by simp) d hd
  | true =>
    refine ⟨{ s with state := .locked }, some c, by simp [serverAcquire, hst, hid, hc, hb], hok, fun d => ?_,
      hunnamed (some c) (by simp)⟩
    by_cases hd : d = c
    · subst hd
      simpa [role, hid, hb, hcl, hX] using Phase.grantedAgain .sent
    · exact hother (some c) (by simp) d hd

/-- A release is asked for only when somebody waits, so it always names a successor. -/
theorem Consistent.serverRelease (h : Consistent s rec ((c, .release .asked) ::ₘ X)) :
    ∃ r dest, serverRelease s c = some (r, dest) ∧
      Consistent r rec ((c, .release .answered) ::ₘ (sent dest .retry + X)) := by
  have hc := h.named
  have hs := h.server
  obtain ⟨hro, hcl, hT⟩ := (h.phase c).releasing_of_asked (by simp)
  obtain ⟨hst, hid, hb⟩ := role_eq_holder hro
  have hX : tokensOf c X = 0 := rest_eq_zero (by simpa using hT)
  obtain ⟨e, rest, hw⟩ : ∃ e rest, s.waitingClients = e :: rest := by
    have ho := hs.ordered
    rw [hb] at ho
    cases hw : s.waitingClients with
    | nil => simp [hw] at ho
    | cons e rest => exact ⟨e, rest, rfl⟩
  have hnd := hs.nodup
  have hap := hs.apart
  have hun := hs.unnamed
  rw [hw] at hnd hap hun
  simp only [List.nodup_cons, List.mem_cons, not_or, hid] at hnd hap hun
  refine ⟨⟨.expecting, ⟨e, !rest.isEmpty⟩, rest⟩, some e,
    by simp [LockProtocol.serverRelease, hst, hid, hw],
    ⟨by simp, fun _ => Ne.symm hun.1, hun.2, hnd.2, hnd.1, by simp⟩, fun d => ?_, ?_⟩
  · have hp := h.phase d
    by_cases hd : d = c
    · subst hd
      have hz : tokensOf d (sent (some e) .retry) = 0 :=
        tokensOf_sent_ne (by simpa using Ne.symm hap.1)
      simpa [role, Ne.symm hap.1, hap.2, hcl, hX, hz] using Phase.released
    · rw [tokensOf_cons_ne (Ne.symm hd)] at hp ⊢
      by_cases hde : d = e
      · subst hde
        have hq : role s d = .queued := by simp [role, hst, hid, hw, hap.1]
        rw [hq] at hp
        simpa [role] using hp.picked (!rest.isEmpty)
      · have hz : tokensOf d (sent (some e) .retry) = 0 :=
          tokensOf_sent_ne (by simpa using Ne.symm hde)
        simpa [role, hst, hid, hw, Ne.symm hd, hde, Ne.symm hde, hz] using hp
  · have hu := h.unnamed
    have hz : tokensOf [] (sent (some e) .retry) = 0 :=
      tokensOf_sent_ne (by simpa using Ne.symm hun.1)
    rw [tokensOf_cons_ne hc] at hu ⊢
    simpa [hz] using hu

/-- The server has at most one client that may use the lock. -/
theorem role_holder_unique {b b' : Bool} (h : role s c = .holder b) (h' : role s d = .holder b') :
    c = d := (role_eq_holder h).2.1.symm.trans (role_eq_holder h').2.1

/-! ## What the phases exclude -/

theorem Phase.count_hold_le (h : Phase ro cl T) : T.countP (· = .hold) ≤ 1 := by
  cases h with
  | granted h | grantedAgain h | owned h | locked h => cases h <;> decide
  | _ => decide

/-- A handler of a client waits for the server, or will once it has flushed. -/
def Token.Waits : Token → Prop
  | .second _ | .release _ => True
  | _ => False

instance : DecidablePred Token.Waits
  | .second _ | .release _ => .isTrue trivial
  | .hold | .first _ | .revoke | .retry => .isFalse id

theorem Phase.countP_waits_le (h : Phase ro cl T) : T.countP Token.Waits ≤ 1 := by
  cases h with
  | granted h | grantedAgain h | owned h | locked h => cases h <;> decide
  | _ => decide

/-- A handler of a client has asked the server, which has not run the call yet. -/
def Token.Asks (t : Token) : Prop := t = .second none ∨ t = .release .asked

instance : DecidablePred Token.Asks := fun _ => instDecidableOr

theorem Phase.countP_asks_le (h : Phase ro cl T) : T.countP Token.Asks ≤ 1 := by
  cases h with
  | granted h | grantedAgain h | owned h | locked h => cases h <;> decide
  | _ => decide

theorem Phase.holder_of_hold (h : Phase ro cl T) (ht : .hold ∈ T) :
    cl.state = .locked ∧ ∃ b, ro = .holder b := by
  cases h with
  | locked h => exact ⟨rfl, _, rfl⟩
  | granted h | grantedAgain h | owned h => cases h <;> simp at ht
  | _ => simp at ht

theorem Phase.no_release_of_hold (h : Phase ro cl T) (ht : .hold ∈ T) (st : Stage) :
    .release st ∉ T := by
  cases h with
  | locked h => cases h <;> simp
  | granted h | grantedAgain h | owned h => cases h <;> simp at ht
  | _ => simp at ht

/-- The client has the lock as far as the server knows. -/
theorem Phase.holder_of_state (h : Phase ro cl T)
    (hs : cl.state = .owned ∨ cl.state = .locked ∨
      ∃ st ≠ Stage.answered, .release st ∈ T) : ∃ b, ro = .holder b := by
  cases h with
  | granted h | grantedAgain h | owned h | locked h => exact ⟨_, rfl⟩
  | flushing | evicted | releasing => exact ⟨_, rfl⟩
  | _ => simp at hs

theorem count_tokensOf (c : Str) (t : Token) (M : Multiset (Str × Token)) :
    (tokensOf c M).count t = M.count (c, t) := by
  induction M using Multiset.induction with
  | empty => rfl
  | cons p M ih =>
    obtain ⟨d, u⟩ := p
    by_cases hd : d = c
    · subst hd
      simp [Multiset.count_cons, ih]
    · simp [tokensOf_cons_ne hd, ih, Ne.symm hd]

theorem mem_tokensOf {t : Token} (h : (c, t) ∈ M) : t ∈ tokensOf c M := by
  rw [← Multiset.one_le_count_iff_mem] at h ⊢
  rwa [count_tokensOf]

theorem countP_tokensOf (c : Str) (P : Token → Prop) [DecidablePred P]
    (M : Multiset (Str × Token)) :
    (tokensOf c M).countP P = M.countP fun x => x.1 = c ∧ P x.2 := by
  induction M using Multiset.induction with
  | empty => rfl
  | cons p M ih =>
    obtain ⟨d, u⟩ := p
    by_cases hd : d = c
    · subst hd
      simp [Multiset.countP_cons, ih]
    · simp [tokensOf_cons_ne hd, ih, hd]

/-- Tokens that only the client in charge can have, and each client at most once. -/
theorem countP_le_one {P : Token → Prop} [DecidablePred P]
    (hin : ∀ c, ∀ t ∈ tokensOf c M, P t → s.holdingClient.id = c)
    (hone : ∀ c, (tokensOf c M).countP P ≤ 1) : M.countP (fun x => P x.2) ≤ 1 := by
  have hsame : M.countP (fun x => P x.2) = (tokensOf s.holdingClient.id M).countP P := by
    rw [countP_tokensOf]
    refine Multiset.countP_congr rfl fun p hp => ?_
    simp only [eq_iff_iff]
    exact ⟨fun h => ⟨(hin p.1 p.2 (mem_tokensOf hp) h).symm, h⟩, fun h => h.2⟩
  rw [hsame]
  exact hone _

/-- One thread at most, whatever its client, has been given the lock. -/
theorem Consistent.countP_hold_le (h : Consistent s rec M) : M.countP (·.2 = .hold) ≤ 1 := by
  refine countP_le_one (s := s) (P := (· = .hold)) ?_ fun c => ?_
  · rintro c t ht rfl
    obtain ⟨-, b, hb⟩ := (h.phase c).holder_of_hold ht
    exact (role_eq_holder hb).2.1
  · exact (h.phase c).count_hold_le

/-- One call at most, by the client in charge, is on its way from a handler to the server. -/
theorem Consistent.countP_asks_le (h : Consistent s rec M) :
    M.countP (fun x => x.2.Asks) ≤ 1 := by
  refine countP_le_one (s := s) (P := Token.Asks) ?_ fun c => (h.phase c).countP_asks_le
  rintro c t ht (rfl | rfl)
  · obtain ⟨⟨b, hb⟩, -, -⟩ := (h.phase c).askingAgain_of_second ht
    exact (role_eq_expected hb).2.1
  · obtain ⟨hb, -, -⟩ := (h.phase c).releasing_of_asked ht
    exact (role_eq_holder hb).2.1

end Yfs.LockPhases
