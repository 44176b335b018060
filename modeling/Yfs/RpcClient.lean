import Yfs.ConnectionRefs
import Yfs.Monitors

/-!
# The RPC client

An `rpcc` is shared by the threads that make calls, the poll thread that brings replies, threads
that cancel, and the one that destroys it at the end. A call lives on the stack of its thread, and
`calls_` points to it; a connection lives as long as somebody refers to it. Nobody uses a call that
has returned or a connection that was deleted, and none of the assertions fails. This file has the
sections and the references to the connections.
-/

namespace Yfs.RpcClient
open LabelledRuns Monitors RpcSystem ConnectionRefs

/-! ## The sections -/

/-- `rpc_const::bind` -/
def bindProc : ℕ := 1

def bindFailure : ℤ := -6

def cancelFailure : ℤ := -7

/-- An `rpcc` with the calls and the connections that exist. A call is named by its number `born`,
a connection by its number `made`. -/
structure Client where
  retrans : Bool
  bindDone : Bool := false
  srvNonce : ℕ := 0
  xid : ℕ := 1
  calls : List (ℕ × ℕ) := []
  xidRepWindow : List ℕ := [0]
  destroyWait : Bool := false
  chan : Option ℕ := none
  callers : ℕ → Option Caller := fun _ => none
  born : ℕ := 0
  heap : Heap := fun _ => none
  made : ℕ := 0

/-- The variables of a call: its `caller` and xid, `ch`, and whether `finaldeadline` was set to 0.
What `transmit` holds is seen from where the call goes on. -/
structure Frame where
  proc : ℕ
  caller : ℕ
  xid : ℕ
  ch : Option ℕ := none
  last : Bool := false
  deriving DecidableEq, Repr

/-- What a section learns from outside: whether a connection can be made and its creation time,
whether it dies while something is sent, what the clock says, and the nonce in the reply to
`bind`. -/
structure Input where
  connects : Bool := true
  sec : ℕ := 0
  usec : ℕ := 0
  dies : Bool := false
  last : Bool := false
  timedOut : Bool := false
  nonce : ℕ := 0
  deriving DecidableEq, Repr

/-- The condition of a call, and `destroy_wait_c_`. -/
inductive Cond where
  | caller (a : ℕ)
  | destroyWait
  deriving DecidableEq, Repr

/-- The sections of `call1`, of `bind` after its call, of `got_pdu`, of `cancel` and of the
destructor. -/
inductive Op where
  | call1 (proc : ℕ)
  | getRefconn (f : Frame)
  | send (f : Frame)
  | deadline (f : Frame)
  | await (f : Frame)
  | awaited (f : Frame)
  | retry (f : Frame)
  | leave (f : Frame)
  | ret (f : Frame)
  | bound
  | gotPdu (pdu : ReplyPdu)
  | dies (c : ℕ)
  | cancel
  | cancelled
  | destroy
  | destroyed
  deriving DecidableEq, Repr

inductive Result where
  | call (ret : ℤ)
  | done
  deriving DecidableEq, Repr

abbrev Section := Client × List (Notice Cond) × Ended Op Result Cond

/-- `isdead()` of a connection that is there, or `true`. -/
def isGone (heap : Heap) : Option ℕ → Option Bool
  | none => some true
  | some c => (heap c).map (·.dead)

/-- `decref()` of a connection that is there. -/
def release (heap : Heap) : Option ℕ → Option Heap
  | none => some heap
  | some c => decref c heap

/-- `connect_to_dst` -/
def connect (x : Input) (s : Client) : Client :=
  if x.connects then
    { s with
      heap := Function.update s.heap s.made (some { tvSec := x.sec, tvUsec := x.usec })
      chan := some s.made
      made := s.made + 1 }
  else { s with chan := none }

/-- The first half of `get_refconn`: a new connection for a dead one. -/
def renew (x : Input) (s : Client) : Option Client :=
  (isGone s.heap s.chan).bind fun gone =>
    if gone then (release s.heap s.chan).map fun heap => connect x { s with heap }
    else some s

/-- `rpcc::get_refconn`, with what `*ch` becomes. -/
def getRefconn (x : Input) (ch : Option ℕ) (s : Client) : Option (Client × Option ℕ) :=
  (renew x s).bind fun s =>
    match s.chan with
    | none => some (s, ch)
    | some c =>
      (release s.heap ch).bind fun heap => (incref c heap).map fun heap => ({ s with heap }, some c)

/-- The first section of `call1`. -/
def enter (proc : ℕ) (s : Client) : Section :=
  if (proc ≠ bindProc ∧ s.bindDone = false) ∨ (proc = bindProc ∧ s.bindDone = true) then
    (s, [], .ret (.call bindFailure))
  else if s.destroyWait then (s, [], .ret (.call cancelFailure))
  else
    ({ s with
      xid := (s.xid + 1) % 2 ^ 32
      calls := (s.xid, s.born) :: s.calls.filter (·.1 ≠ s.xid)
      callers := Function.update s.callers s.born (some {})
      born := s.born + 1 }, [],
      .yield (.getRefconn { proc, caller := s.born, xid := s.xid }))

/-- A connection dies. -/
def kill (c : ℕ) (heap : Heap) : Heap :=
  match heap c with
  | none => heap
  | some x => Function.update heap c (some { x with dead := true })

/-- `ch->send` -/
def send (x : Input) (f : Frame) (s : Client) : Option Section :=
  match f.ch with
  | none => some (s, [], .yield (.deadline f))
  | some c =>
    (s.heap c).map fun _ =>
      (if x.dies then { s with heap := kill c s.heap } else s, [], .yield (.deadline f))

/-- The wait of `call1` for its reply: at the test of the loop, and after a wake-up. -/
def await (f : Frame) (s : Client) : Option Section :=
  (s.callers f.caller).map fun ca =>
    if ca.done then (s, [], .yield (.leave f)) else (s, [], .wait (.caller f.caller) (.awaited f))

def awaited (x : Input) (f : Frame) (s : Client) : Option Section :=
  if x.timedOut then
    (s.callers f.caller).map fun ca =>
      (s, [], if ca.done then .yield (.leave f) else .yield (.retry f))
  else await f s

/-- The end of a round of `call1`. -/
def retry (f : Frame) (s : Client) : Option Section :=
  (isGone s.heap f.ch).map fun gone =>
    (s, [], if s.retrans && gone then .yield (.getRefconn f) else .yield (.deadline f))

/-- The section that takes a call out of `calls_`. -/
def leave (f : Frame) (s : Client) : Section :=
  ({ s with
    calls := s.calls.filter (·.1 ≠ f.xid)
    xidRepWindow := updateXidRep f.xid s.xidRepWindow },
    if s.destroyWait then [.signal .destroyWait] else [], .yield (.ret f))

/-- The end of `call1`, and of `bind` if its call has failed. -/
def ret (f : Frame) (s : Client) : Option Section :=
  (s.callers f.caller).bind fun ca =>
    (release s.heap f.ch).map fun heap =>
      ({ s with heap, callers := Function.update s.callers f.caller none }, [],
        if f.proc = bindProc ∧ ca.result = 0 then .yield .bound else .ret (.call ca.result))

/-- `got_pdu` of a reply whose header could be read. -/
def gotPdu (pdu : ReplyPdu) (s : Client) : Option Section :=
  let s := { s with xidRepWindow := updateXidRep pdu.xid s.xidRepWindow }
  match s.calls.lookup pdu.xid with
  | none => some (s, [], .ret .done)
  | some a =>
    (s.callers a).map fun ca =>
      (if ca.done then s
        else { s with callers := Function.update s.callers a (some ⟨some pdu, pdu.ret, true⟩) },
        [.broadcast (.caller a)], .ret .done)

/-- The loop of `cancel` over the calls. -/
def failAll : List (ℕ × ℕ) → (ℕ → Option Caller) → Option (ℕ → Option Caller)
  | [], callers => some callers
  | (_, a) :: calls, callers =>
    (callers a).bind fun ca =>
      failAll calls
        (Function.update callers a (some { ca with intret := cancelFailure, done := true }))

/-- The loop of `cancel` that waits for the calls to leave. -/
def cancelled (s : Client) : Client × Ended Op Result Cond :=
  if s.calls.length > 0 then ({ s with destroyWait := true }, .wait .destroyWait .cancelled)
  else (s, .ret .done)

/-- `cancel` up to its first wait. -/
def cancel (s : Client) : Option Section :=
  (failAll s.calls s.callers).map fun callers =>
    let r := cancelled { s with callers }
    (r.1, s.calls.map fun p => .signal (.caller p.2), r.2)

/-- `rpcc::~rpcc` up to the return of `closeconn`. -/
def destroy (s : Client) : Option Section :=
  match s.chan with
  | none => some (s, [], .yield .destroyed)
  | some c => (s.heap c).map fun _ => ({ s with heap := kill c s.heap }, [], .yield .destroyed)

/-- The rest of `~rpcc`. -/
def destroyed (s : Client) : Option Section :=
  (release s.heap s.chan).bind fun heap =>
    if s.calls.length = 0 then some ({ s with heap, chan := none }, [], .ret .done) else none

/-- The sections; `none` is a failed assertion or the use of what was deleted. -/
def exec (x : Input) (s : Client) : Op → Option Section
  | .call1 proc => some (enter proc s)
  | .getRefconn f =>
    (getRefconn x f.ch s).map fun (s, ch) => (s, [], .yield (.send { f with ch }))
  | .send f => send x f s
  | .deadline f =>
    some (s, [], if f.last then .yield (.leave f) else .yield (.await { f with last := x.last }))
  | .await f => await f s
  | .awaited f => awaited x f s
  | .retry f => retry f s
  | .leave f => some (leave f s)
  | .ret f => ret f s
  | .bound => some ({ s with bindDone := true, srvNonce := x.nonce }, [], .ret (.call 0))
  | .gotPdu pdu => gotPdu pdu s
  | .dies c => some ({ s with heap := kill c s.heap }, [], .ret .done)
  | .cancel => cancel s
  | .cancelled => some ((cancelled s).1, [], (cancelled s).2)
  | .destroy => destroy s
  | .destroyed => destroyed s

def rpcc : Object Client Input Op Result Cond := ⟨fun x o s => exec x s o⟩

/-- A thread that makes calls, the poll thread, one that cancels, and the one that destroys the
client. -/
inductive Role where
  | caller
  | poll
  | canceller
  | owner
  | gone
  deriving DecidableEq, Repr

abbrev View := Role × Option Op

/-- Whose section it is. -/
def Op.role : Op → Role
  | .gotPdu _ | .dies _ => .poll
  | .cancel | .cancelled => .canceller
  | .destroy | .destroyed => .owner
  | _ => .caller

def Op.frame : Op → Option Frame
  | .getRefconn f | .send f | .deadline f | .await f | .awaited f | .retry f | .leave f
  | .ret f => some f
  | _ => none

/-- A call is in `calls_` until the section that takes it out. -/
def Op.isListed : Op → Bool
  | .ret _ => false
  | o => o.frame.isSome

/-- The client has not begun to be destroyed. -/
def Open (vs : List View) : Prop := ∀ v ∈ vs, (v.1 = .owner → v.2 = none) ∧ v.1 ≠ .gone

/-- No thread is in a call or cancels. -/
def Idle (vs : List View) : Prop := ∀ v ∈ vs, v.1 = .caller ∨ v.1 = .canceller → v.2 = none

/-- "destruction should happen only when no external threads are blocked inside rpcc or will use rpcc
in the future" -/
inductive Begins (vs : List View) : Role → Op → Prop where
  | call1 (proc : ℕ) (isOpen : Open vs) : Begins vs .caller (.call1 proc)
  | cancel (isOpen : Open vs) : Begins vs .canceller .cancel
  | gotPdu (pdu : ReplyPdu) : Begins vs .poll (.gotPdu pdu)
  | dies (c : ℕ) : Begins vs .poll (.dies c)
  | destroy (idle : Idle vs) : Begins vs .owner .destroy

instance decidableOpen (vs : List View) : Decidable (Open vs) :=
  inferInstanceAs (Decidable (∀ v ∈ vs, _))

instance decidableIdle (vs : List View) : Decidable (Idle vs) :=
  inferInstanceAs (Decidable (∀ v ∈ vs, _))

def mayBegin (vs : List View) : Role → Op → Bool
  | .caller, .call1 _ | .canceller, .cancel => Open vs
  | .poll, .gotPdu _ | .poll, .dies _ => true
  | .owner, .destroy => Idle vs
  | _, _ => false

theorem begins_iff (vs : List View) (u : Role) (o : Op) : mayBegin vs u o = true ↔ Begins vs u o := by
  constructor
  · intro h
    unfold mayBegin at h
    split at h
    · exact .call1 _ (of_decide_eq_true h)
    · exact .cancel (of_decide_eq_true h)
    · exact .gotPdu _
    · exact .dies _
    · exact .destroy (of_decide_eq_true h)
    · cases h
  · intro h
    cases h with
    | call1 _ isOpen => exact decide_eq_true isOpen
    | cancel isOpen => exact decide_eq_true isOpen
    | gotPdu => rfl
    | dies => rfl
    | destroy idle => exact decide_eq_true idle

def users : Users Role Op Result Cond where
  begins ts := Begins (ts.map Thread.view)
  back u _ := if u = .owner then .gone else u
  moves _ _ _ := False

instance decidableBegins (ts : List (Thread Role Op Cond)) (u : Role) (o : Op) :
    Decidable (users.begins ts u o) :=
  decidable_of_iff _ (begins_iff (ts.map Thread.view) u o)

instance decidableMoves (ts : List (Thread Role Op Cond)) (u u' : Role) :
    Decidable (users.moves ts u u') := inferInstanceAs (Decidable False)

abbrev State := Config Client Role Op Cond

abbrev Label := ℕ × Act Input Role Op Result Cond

/-- A new client with `n` threads that call and `m` that cancel. -/
def start (retrans : Bool) (n m : ℕ) : State :=
  ⟨{ retrans }, .out .poll :: .out .owner ::
    (List.replicate n (.out .caller) ++ List.replicate m (.out .canceller))⟩

/-! ## References to connections -/

/-- What a variable adds to the references of a connection. -/
def own (o : Option ℕ) (c : ℕ) : ℕ := if o = some c then 1 else 0

/-- The connections that exist are those that are referred to, and each counts how often. -/
structure Refs (made : ℕ) (k : ℕ → ℕ) (heap : Heap) : Prop where
  counted : ∀ c x, heap c = some x → x.refno = k c
  unused : ∀ c, heap c = none ↔ k c = 0
  fresh : ∀ c, made ≤ c → k c = 0

/-- Only the current connection is alive. -/
def Retired (chan : Option ℕ) (heap : Heap) : Prop :=
  ∀ c x, heap c = some x → chan ≠ some c → x.dead = true

variable {made c d : ℕ} {k k' : ℕ → ℕ} {heap heap' : Heap} {x : Connection} {o chan : Option ℕ}

theorem Refs.congr (h : Refs made k heap) (hk : ∀ c, k' c = k c) : Refs made k' heap :=
  (funext hk : k' = k) ▸ h

/-- Another count for one connection that stays. -/
theorem Refs.update (h : Refs made k heap) (hx : heap c = some x) {y : Connection}
    (hy : y.refno = k' c) (hpos : k' c ≠ 0) (hk : ∀ d, d ≠ c → k' d = k d) :
    Refs made k' (Function.update heap c (some y)) := by
  have hmade : ¬made ≤ c := by
    intro hle
    rw [(h.unused c).mpr (h.fresh c hle)] at hx
    cases hx
  refine ⟨fun d z hz => ?_, fun d => ?_, fun d hle => ?_⟩
  · by_cases hd : d = c
    · subst hd
      rw [Function.update_self] at hz
      cases hz
      exact hy
    · rw [Function.update_of_ne hd] at hz
      rw [hk d hd]
      exact h.counted d z hz
  · by_cases hd : d = c
    · subst hd
      rw [Function.update_self]
      exact ⟨nofun, fun hz => absurd hz hpos⟩
    · rw [Function.update_of_ne hd, hk d hd]
      exact h.unused d
  · rw [hk d (fun hd => hmade (hd ▸ hle))]
    exact h.fresh d hle

/-- The last reference to a connection goes. -/
theorem Refs.delete (h : Refs made k heap) (hzero : k' c = 0) (hk : ∀ d, d ≠ c → k' d = k d) :
    Refs made k' (Function.update heap c none) := by
  refine ⟨fun d z hz => ?_, fun d => ?_, fun d hle => ?_⟩
  · by_cases hd : d = c
    · subst hd
      rw [Function.update_self] at hz
      cases hz
    · rw [Function.update_of_ne hd] at hz
      rw [hk d hd]
      exact h.counted d z hz
  · by_cases hd : d = c
    · subst hd
      rw [Function.update_self]
      exact ⟨fun _ => hzero, fun _ => rfl⟩
    · rw [Function.update_of_ne hd, hk d hd]
      exact h.unused d
  · by_cases hd : d = c
    · rw [hd, hzero]
    · rw [hk d hd]
      exact h.fresh d hle

theorem own_self (c : ℕ) : own (some c) c = 1 := if_pos rfl

theorem own_of_ne (h : o ≠ some c) : own o c = 0 := if_neg h

theorem Retired.update (h : Retired chan heap) {y : Connection} (hx : heap c = some x)
    (hy : x.dead = true → y.dead = true) : Retired chan (Function.update heap c (some y)) := by
  intro d z hz hne
  by_cases hd : d = c
  · subst hd
    rw [Function.update_self] at hz
    cases hz
    exact hy (h d x hx hne)
  · rw [Function.update_of_ne hd] at hz
    exact h d z hz hne

theorem Retired.delete (h : Retired chan heap) : Retired chan (Function.update heap c none) := by
  intro d z hz hne
  by_cases hd : d = c
  · subst hd
    rw [Function.update_self] at hz
    cases hz
  · rw [Function.update_of_ne hd] at hz
    exact h d z hz hne

/-- Taking a reference. -/
theorem Refs.incref (h : Refs made k heap) (hpos : k c ≠ 0) :
    ∃ heap', ConnectionRefs.incref c heap = some heap' ∧
      Refs made (fun d => own (some c) d + k d) heap' ∧
      ∀ chan, Retired chan heap → Retired chan heap' := by
  obtain ⟨x, hx⟩ := Option.ne_none_iff_exists'.mp (mt (h.unused c).mp hpos)
  refine ⟨_, by rw [ConnectionRefs.incref, hx, Option.map_some], ?_, ?_⟩
  · refine h.update hx ?_ ?_ fun d hd => ?_
    · rw [own_self, h.counted c x hx]
      push_cast
      omega
    · rw [own_self]
      omega
    · rw [own_of_ne (fun he => hd (Option.some.inj he).symm), Nat.zero_add]
  · exact fun chan hr => hr.update hx id

/-- Giving a reference up: a connection that nobody refers to any more is dead and goes away. -/
theorem Refs.release (h : Refs made (fun d => own o d + k d) heap)
    (hdead : ∀ c x, o = some c → heap c = some x → k c = 0 → x.dead = true) :
    ∃ heap', RpcClient.release heap o = some heap' ∧ Refs made k heap' ∧
      ∀ chan, Retired chan heap → Retired chan heap' := by
  cases o with
  | none => exact ⟨heap, rfl, h.congr fun c => (Nat.zero_add _).symm, fun _ => id⟩
  | some c =>
    have hone : own (some c) c + k c ≠ 0 := by
      rw [own_self]
      omega
    obtain ⟨x, hx⟩ := Option.ne_none_iff_exists'.mp (mt (h.unused c).mp hone)
    have hcount := h.counted c x hx
    rw [own_self] at hcount
    have hother : ∀ d, d ≠ c → k d = own (some c) d + k d := by
      intro d hd
      rw [own_of_ne (fun he => hd (Option.some.inj he).symm), Nat.zero_add]
    have hnonneg : ¬x.refno - 1 < 0 := by omega
    by_cases hzero : k c = 0
    · have hlast : x.refno - 1 = 0 ∧ x.dead = true := ⟨by omega, hdead c x rfl hx hzero⟩
      refine ⟨Function.update heap c none, ?_, h.delete hzero hother, fun _ hr => hr.delete⟩
      simp only [RpcClient.release, decref, hx, Option.bind_some, if_neg hnonneg, if_pos hlast]
    · have hmore : ¬(x.refno - 1 = 0 ∧ x.dead = true) := by omega
      refine ⟨Function.update heap c (some { x with refno := x.refno - 1 }), ?_,
        h.update hx ?_ hzero hother, fun _ hr => hr.update hx id⟩
      · simp only [RpcClient.release, decref, hx, Option.bind_some, if_neg hnonneg, if_neg hmore]
      · show x.refno - 1 = k c
        omega

theorem Refs.kill (h : Refs made k heap) (c : ℕ) : Refs made k (RpcClient.kill c heap) := by
  unfold RpcClient.kill
  split
  · exact h
  · rename_i x hx
    have hpos : k c ≠ 0 := by
      intro hz
      rw [(h.unused c).mpr hz] at hx
      cases hx
    exact h.update hx (h.counted c x hx) hpos fun _ _ => rfl

theorem Retired.kill (h : Retired chan heap) (c : ℕ) : Retired chan (RpcClient.kill c heap) := by
  unfold RpcClient.kill
  split
  · exact h
  · rename_i x hx
    exact h.update hx fun _ => rfl

/-- The references to the connections of a client, `k` of them from calls. -/
structure Linked (s : Client) (k : ℕ → ℕ) : Prop where
  refs : Refs s.made (fun c => own s.chan c + k c) s.heap
  retired : Retired s.chan s.heap

/-- What the connections are made of is all that differs. -/
structure SameCalls (s s' : Client) : Prop where
  xid : s'.xid = s.xid
  calls : s'.calls = s.calls
  callers : s'.callers = s.callers
  born : s'.born = s.born
  destroyWait : s'.destroyWait = s.destroyWait
  xidRepWindow : s'.xidRepWindow = s.xidRepWindow

theorem SameCalls.refl (s : Client) : SameCalls s s := ⟨rfl, rfl, rfl, rfl, rfl, rfl⟩

variable {s s' : Client}

theorem Linked.congr (h : Linked s k) (hk : ∀ c, k' c = k c) : Linked s k' :=
  (funext hk : k' = k) ▸ h

theorem Linked.of_eq {h : Heap} {m : ℕ} {ch : Option ℕ} (hr : Refs m (fun c => own ch c + k c) h)
    (hd : Retired ch h) (hs : s'.heap = h) (hm : s'.made = m) (hc : s'.chan = ch) : Linked s' k := by
  subst hs hm hc
  exact ⟨hr, hd⟩

/-- A connection that does not exist yet is referred to by nobody. -/
theorem linked_connect (inp : Input) (hr : Refs s.made k s.heap) (hd : Retired none s.heap) :
    Linked (connect inp s) k := by
  unfold connect
  split
  · have hzero := hr.fresh s.made (Nat.le_refl _)
    have hother : ∀ c, c ≠ s.made → own (some s.made) c = 0 :=
      fun c hc => own_of_ne fun he => hc (Option.some.inj he).symm
    refine ⟨⟨fun c x hx => ?_, fun c => ?_, fun c hle => ?_⟩, fun c x hx hne => ?_⟩
    · dsimp only at hx ⊢
      by_cases hc : c = s.made
      · subst hc
        rw [Function.update_self] at hx
        cases hx
        rw [own_self, hzero]
        rfl
      · rw [Function.update_of_ne hc] at hx
        rw [hother c hc, Nat.zero_add]
        exact hr.counted c x hx
    · dsimp only
      by_cases hc : c = s.made
      · subst hc
        rw [Function.update_self, own_self]
        exact ⟨nofun, fun he => by omega⟩
      · rw [Function.update_of_ne hc, hother c hc, Nat.zero_add]
        exact hr.unused c
    · dsimp only at hle ⊢
      rw [hother c (by omega), hr.fresh c (by omega)]
    · dsimp only at hx hne
      by_cases hc : c = s.made
      · exact absurd (hc ▸ rfl) hne
      · rw [Function.update_of_ne hc] at hx
        exact hd c x hx nofun
  · exact ⟨hr.congr fun c => Nat.zero_add _, hd⟩

theorem connect_same (inp : Input) (s : Client) : SameCalls s (connect inp s) := by
  unfold connect
  split <;> exact ⟨rfl, rfl, rfl, rfl, rfl, rfl⟩

theorem renew_same {inp : Input} (h : renew inp s = some s') : SameCalls s s' := by
  unfold renew at h
  obtain ⟨gone, -, h⟩ := Option.bind_eq_some_iff.mp h
  split_ifs at h
  · obtain ⟨heap, -, rfl⟩ := Option.map_eq_some_iff.mp h
    have hsame := connect_same inp { s with heap }
    exact ⟨hsame.xid, hsame.calls, hsame.callers, hsame.born, hsame.destroyWait, hsame.xidRepWindow⟩
  · cases h
    exact .refl s

theorem getRefconn_same {inp : Input} {ch ch' : Option ℕ}
    (h : getRefconn inp ch s = some (s', ch')) : SameCalls s s' := by
  unfold getRefconn at h
  obtain ⟨s₁, hs₁, hch⟩ := Option.bind_eq_some_iff.mp h
  have hsame := renew_same hs₁
  split at hch
  · cases hch
    exact hsame
  · obtain ⟨heap, -, hch⟩ := Option.bind_eq_some_iff.mp hch
    obtain ⟨heap', -, hch⟩ := Option.map_eq_some_iff.mp hch
    cases hch
    exact ⟨hsame.xid, hsame.calls, hsame.callers, hsame.born, hsame.destroyWait, hsame.xidRepWindow⟩

theorem isGone_ok (hr : Refs made k heap) (ho : ∀ c, o = some c → k c ≠ 0) :
    ∃ b, isGone heap o = some b ∧ (b = true → ∀ c x, o = some c → heap c = some x →
      x.dead = true) := by
  cases o with
  | none => exact ⟨true, rfl, fun _ _ _ h => by cases h⟩
  | some c =>
    obtain ⟨x, hx⟩ := Option.ne_none_iff_exists'.mp (mt (hr.unused c).mp (ho c rfl))
    refine ⟨x.dead, by rw [isGone, hx, Option.map_some], fun hd c' y hc hy => ?_⟩
    cases hc
    rw [hx] at hy
    cases hy
    exact hd

theorem renew_ok (inp : Input) (h : Linked s k) :
    ∃ s', renew inp s = some s' ∧ Linked s' k := by
  have hown : ∀ c, s.chan = some c → own s.chan c + k c ≠ 0 := by
    intro c hc
    rw [hc, own_self]
    omega
  obtain ⟨b, hb, hdead⟩ := isGone_ok h.refs hown
  rw [renew, hb, Option.bind_some]
  cases b with
  | false => exact ⟨s, rfl, h⟩
  | true =>
    obtain ⟨heap', hrel, hrefs, hret⟩ := h.refs.release fun c x hc hx _ => hdead rfl c x hc hx
    have hall : Retired none s.heap := by
      intro c x hx _
      by_cases hc : s.chan = some c
      · exact hdead rfl c x hc hx
      · exact h.retired c x hx hc
    refine ⟨connect inp { s with heap := heap' }, by rw [if_pos rfl, hrel]; rfl, ?_⟩
    exact linked_connect inp hrefs (hret none hall)

/-- `get_refconn` moves the reference of a call to the current connection, if there is one. -/
theorem getRefconn_ok {ch : Option ℕ} (inp : Input) (h : Linked s fun c => own ch c + k c) :
    ∃ s' ch', getRefconn inp ch s = some (s', ch') ∧ Linked s' (fun c => own ch' c + k c) := by
  obtain ⟨s₁, hs₁, h₁⟩ := renew_ok inp h
  rw [getRefconn, hs₁, Option.bind_some]
  cases hc : s₁.chan with
  | none => exact ⟨s₁, ch, rfl, h₁⟩
  | some c =>
    have hrefs : Refs s₁.made (fun d => own ch d + (own (some c) d + k d)) s₁.heap :=
      h₁.refs.congr fun d => by rw [hc]; omega
    obtain ⟨heap', hrel, hr', hret'⟩ := hrefs.release (fun d x hd hx hz => by
      refine h₁.retired d x hx ?_
      rintro hcd
      rw [hc] at hcd
      rw [hcd, own_self] at hz
      omega)
    obtain ⟨heap'', hinc, hr'', hret''⟩ := hr'.incref (c := c) (by rw [own_self]; omega)
    refine ⟨{ s₁ with heap := heap'' }, some c, ?_, .of_eq ?_ ?_ rfl rfl hc⟩
    · simp only [hrel, hinc, hc, Option.bind_some, Option.map_some]
    · exact hr''.congr fun d => by omega
    · exact hret'' _ (hret' _ (hc ▸ h₁.retired))

end Yfs.RpcClient
