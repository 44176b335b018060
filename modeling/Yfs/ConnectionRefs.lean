import Yfs.PartialMaps
import Yfs.RpcSystem
import Mathlib.Data.Multiset.AddSub
import Mathlib.Data.Multiset.Count
import Mathlib.Algebra.Order.Ring.Int

/-!
# The references to the connections of an RPC server

A `connection` of an `rpcs` counts who refers to it: the `tcpsconn` that accepted it, the jobs
that answer a request of it, and the table `conns_` of the latest connection to each client. The
threads that accept, receive and dispatch interleave at the locks they take.
-/

namespace Yfs.ConnectionRefs
open LabelledRuns LockProtocol ReplyWindow RpcSystem PartialMaps

/-! ## Connections -/

/-- A `connection`: `refno_`, `dead_` and `create_time_`. -/
structure Connection where
  refno : ℤ := 1
  dead : Bool := false
  tvSec : ℕ
  tvUsec : ℕ
  deriving DecidableEq, Repr

/-- The connections that were made and not deleted. -/
abbrev Heap := ℕ → Option Connection

/-- `connection::compare` -/
def Connection.compare (x another : Connection) : ℤ :=
  if x.tvSec > another.tvSec then 1
  else if x.tvSec < another.tvSec then -1
  else if x.tvUsec > another.tvUsec then 1
  else if x.tvUsec < another.tvUsec then -1
  else 0

/-- `connection::incref`; `none` for a connection that does not exist. -/
def incref (c : ℕ) (heap : Heap) : Option Heap :=
  (heap c).map fun x => Function.update heap c (some { x with refno := x.refno + 1 })

/-- `connection::decref`; `none` also when its assertion fails. -/
def decref (c : ℕ) (heap : Heap) : Option Heap :=
  (heap c).bind fun x =>
    if x.refno - 1 < 0 then none
    else if x.refno - 1 = 0 ∧ x.dead then some (Function.update heap c none)
    else some (Function.update heap c (some { x with refno := x.refno - 1 }))

/-! ## The server -/

/-- `djob_t`: the connection and the request, `none` for one whose header does not unmarshal. -/
structure Djob where
  conn : ℕ
  buf : Option Request
  deriving DecidableEq, Repr

/-- Where a thread stands in `dispatch`: before it saves the connection, before it looks for a
duplicate, in the handler, before it gets the latest connection, and before it sends its reply (if
there is one) and leaves. -/
inductive Phase where
  | saving
  | checking
  | handling
  | replying
  | leaving
  deriving DecidableEq, Repr

/-- A call of `dispatch` at work, with its variables `c` and `h`. -/
structure Job where
  conn : ℕ
  req : Request
  phase : Phase
  deriving DecidableEq, Repr

/-- An `rpcs` with the connections of its `listener_`. The thread that polls the connections holds
the job it is about to queue in `arriving`. -/
structure Server where
  nonce : ℕ
  procs : List ℕ
  heap : Heap := fun _ => none
  made : ℕ := 0
  replyWindow : ℕ → List (ReplyT ReplyPdu) := fun _ => []
  conns : List (ℕ × ℕ) := []
  arriving : Option Djob := none
  queue : List Djob := []
  running : Multiset Job := 0

/-- `conns_[n] = c` -/
def setConn (n c : ℕ) : List (ℕ × ℕ) → List (ℕ × ℕ)
  | [] => [(n, c)]
  | (m, d) :: conns => if m = n then (n, c) :: conns else (m, d) :: setConn n c conns

/-- "save the latest good connection to the client" -/
def saveConn (n c : ℕ) (heap : Heap) (conns : List (ℕ × ℕ)) : Option (Heap × List (ℕ × ℕ)) :=
  match conns.lookup n with
  | none => (incref c heap).map fun heap => (heap, setConn n c conns)
  | some d =>
    (heap d).bind fun x => (heap c).bind fun y =>
      if x.compare y < 0 then
        (decref d heap).bind fun heap => (incref c heap).map fun heap => (heap, setConn n c conns)
      else some (heap, conns)

/-- "get the latest connection to the client". For a client without an entry `conns_[n]` is a null
pointer, and `none` stands for its use. -/
def latestConn (n c : ℕ) (heap : Heap) (conns : List (ℕ × ℕ)) : Option (Heap × ℕ) :=
  (heap c).bind fun x =>
    if x.dead then
      (conns.lookup n).bind fun d =>
        if c = d then some (heap, c)
        else (decref c heap).bind fun heap => (incref d heap).map fun heap => (heap, d)
    else some (heap, c)

/-- `dispatch` up to its first use of the tables: the request goes on or was answered. A failed
assertion is `none`. -/
def dispatch (s : Server) (j : Djob) : Option (Heap × Option Job) :=
  match j.buf with
  | none => (decref j.conn s.heap).map fun heap => (heap, none)
  | some h =>
    -- this exit sends `oldsrv_failure` and returns
    if h.srvNonce ≠ 0 ∧ h.srvNonce ≠ s.nonce then some (s.heap, none)
    else if h.proc ∉ s.procs then none
    else some (s.heap, some ⟨j.conn, h, if h.cltNonce ≠ 0 then .saving else .handling⟩)

/-- The case of the `switch` a request goes to. -/
def afterCheck : RpcState ReplyPdu → Phase
  | .new => .handling
  | .inProgress | .done _ _ | .forgotten => .leaving

/-- The next section of `dispatch`, for a handler that returns `ret` and `rep`. -/
def advance (ret : ℤ) (rep : Str) (job : Job) (s : Server) : Option (Server × Option Job) :=
  let n := job.req.cltNonce
  match job.phase with
  | .saving => (saveConn n job.conn s.heap s.conns).map fun r =>
      ({ s with heap := r.1, conns := r.2 }, some { job with phase := .checking })
  | .checking =>
      (checkDuplicateAndUpdate job.req.xid job.req.xidRep (s.replyWindow n)).map fun r =>
        ({ s with replyWindow := Function.update s.replyWindow n r.1 },
          some { job with phase := afterCheck r.2 })
  | .handling =>
      if ret < 0 then none
      else if n = 0 then some (s, some { job with phase := .replying })
      else
        let pdu : ReplyPdu := ⟨job.req.xid, ret, rep⟩
        (addReply job.req.xid pdu pdu.size (s.replyWindow n)).map fun l =>
          ({ s with replyWindow := Function.update s.replyWindow n l },
            some { job with phase := .replying })
  | .replying => (latestConn n job.conn s.heap s.conns).map fun r =>
      ({ s with heap := r.1 }, some { job with conn := r.2, phase := .leaving })
  | .leaving => (decref job.conn s.heap).map fun heap => ({ s with heap }, none)

inductive Label where
  | accepted (c : ℕ)
  | collected (c : ℕ)
  | died (c : ℕ)
  | received (j : Djob)
  | queued (j : Djob)
  | refused (j : Djob)
  | dispatched (j : Djob)
  | advanced (job : Job)
  deriving DecidableEq, Repr

/-- The steps: `process_accept` makes a connection and collects dead ones, a connection dies,
`got_pdu` takes a request in, queues it or gives it up, and one of the six threads starts on a
request or goes on with it. Nobody can come to a dead connection whose owner alone refers to it,
so it is tested and given up in one step. -/
inductive Step : Server → Label → Server → Prop where
  | accept {s : Server} (sec usec : ℕ) :
      Step s (.accepted s.made)
        { s with heap := Function.update s.heap s.made (some { tvSec := sec, tvUsec := usec }),
                 made := s.made + 1 }
  | collect {s : Server} (c : ℕ) {x : Connection} {heap : Heap} (hx : s.heap c = some x)
      (hdead : x.dead = true) (hone : x.refno = 1) (hd : decref c s.heap = some heap) :
      Step s (.collected c) { s with heap }
  | die {s : Server} (c : ℕ) {x : Connection} (hx : s.heap c = some x) :
      Step s (.died c) { s with heap := Function.update s.heap c (some { x with dead := true }) }
  | gotPdu {s : Server} (j : Djob) {heap : Heap} (hidle : s.arriving = none)
      (hi : incref j.conn s.heap = some heap) :
      Step s (.received j) { s with heap, arriving := some j }
  | addObjJob {s : Server} {j : Djob} (ha : s.arriving = some j) (hroom : s.queue.length < 600) :
      Step s (.queued j) { s with arriving := none, queue := s.queue ++ [j] }
  | giveUp {s : Server} {j : Djob} {heap : Heap} (ha : s.arriving = some j)
      (hfull : 600 ≤ s.queue.length) (hd : decref j.conn s.heap = some heap) :
      Step s (.refused j) { s with heap, arriving := none }
  | dispatch {s : Server} {j : Djob} {queue : List Djob} {heap : Heap} {job : Option Job}
      (hq : s.queue = j :: queue) (hfree : s.running.card < 6)
      (h : dispatch s j = some (heap, job)) :
      Step s (.dispatched j)
        { s with heap, queue, running := (job.toList : Multiset Job) + s.running }
  | advance {s s' : Server} (job : Job) {job' : Option Job} (hm : job ∈ s.running) (ret : ℤ)
      (rep : Str) (h : advance ret rep job s = some (s', job')) :
      Step s (.advanced job)
        { s' with running := (job'.toList : Multiset Job) + s.running.erase job }

def start (nonce : ℕ) (procs : List ℕ) : Server := { nonce, procs }

/-! ## The references -/

/-- How many jobs that wait or run carry a connection. -/
def carried (s : Server) (c : ℕ) : ℕ :=
  s.arriving.toList.countP (·.conn = c) + s.queue.countP (·.conn = c) +
    s.running.countP (·.conn = c)

/-- How many entries of `conns_` point to a connection. -/
def saved (conns : List (ℕ × ℕ)) (c : ℕ) : ℕ := conns.countP (·.2 = c)

/-- The references to every connection are the owner's, the jobs' and those of `conns_`. -/
def Balanced (s : Server) : Prop :=
  ∀ c x, s.heap c = some x → x.refno = 1 + carried s c + saved s.conns c

/-- No request is being worked on. -/
def Finished (s : Server) : Prop := s.arriving = none ∧ s.queue = [] ∧ s.running = 0

/-- The connection of a request that is taken from the queue and was meant for an old instance of
the server. -/
def oldInstance (nonce : ℕ) : Label → Option ℕ
  | .dispatched ⟨c, some h⟩ => if h.srvNonce ≠ 0 ∧ h.srvNonce ≠ nonce then some c else none
  | _ => none

/-- How many requests to an old instance came over a connection. -/
def leaks (nonce : ℕ) (tr : List Label) (c : ℕ) : ℕ := tr.countP (oldInstance nonce · = some c)

/-- Every connection has a reference of its owner and `k c` others, and none of these points to a
connection that does not exist. -/
structure Counts (made : ℕ) (k : ℕ → ℕ) (heap : Heap) : Prop where
  counted : ∀ c x, heap c = some x → x.refno = 1 + k c
  exist : ∀ c, 0 < k c → heap c ≠ none
  fresh : ∀ c, made ≤ c → heap c = none

/-- One more reference to `c`. -/
def plus (c : ℕ) (k : ℕ → ℕ) (d : ℕ) : ℕ := k d + if c = d then 1 else 0

variable {made c d n : ℕ} {k k' : ℕ → ℕ} {heap heap' : Heap} {x : Connection}
  {conns conns' : List (ℕ × ℕ)} {s s' : Server} {j : Djob} {job : Job} {job' : Option Job}
  {tr : List Label} {l : Label} {procs : List ℕ}

theorem Counts.congr (h : Counts made k heap) (hk : ∀ c, k' c = k c) : Counts made k' heap :=
  (funext hk : k' = k) ▸ h

/-- Replacing one connection by another that exists. -/
theorem Counts.update (h : Counts made k heap) (hx : heap c = some x) {y : Connection}
    (hy : y.refno = 1 + k' c) (hk : ∀ d, d ≠ c → k' d = k d) :
    Counts made k' (Function.update heap c (some y)) := by
  refine ⟨?_, ?_, ?_⟩
  · intro d z hz
    rcases update_some_iff.1 hz with ⟨rfl, rfl⟩ | ⟨hd, hz⟩
    · exact hy
    · rw [hk d hd]
      exact h.counted d z hz
  · intro d hpos
    refine update_some_ne_none ?_
    by_cases hd : d = c
    · rw [hd, hx]
      exact Option.some_ne_none x
    · exact h.exist d (hk d hd ▸ hpos)
  · intro d hd
    have hne : d ≠ c := by
      rintro rfl
      rw [h.fresh d hd] at hx
      cases hx
    rw [Function.update_of_ne hne]
    exact h.fresh d hd

theorem plus_of_ne (hne : d ≠ c) : plus c k d = k d := by
  rw [plus, if_neg hne.symm, Nat.add_zero]

theorem plus_self : plus c k c = k c + 1 := by
  rw [plus, if_pos rfl]

theorem Counts.incref (h : Counts made k heap) (hi : incref c heap = some heap') :
    Counts made (plus c k) heap' := by
  obtain ⟨x, hx, rfl⟩ := Option.map_eq_some_iff.1 hi
  refine h.update hx ?_ fun d hd => plus_of_ne hd
  rw [plus_self]
  have := h.counted c x hx
  push_cast
  omega

/-- A reference that is given up was not the last one: the owner's stays. -/
theorem Counts.decref (h : Counts made (plus c k) heap) (hd : decref c heap = some heap') :
    Counts made k heap' := by
  obtain ⟨x, hx, hd⟩ := Option.bind_eq_some_iff.1 hd
  have hcount := h.counted c x hx
  rw [plus_self] at hcount
  push_cast at hcount
  rw [if_neg (by omega), if_neg (by omega)] at hd
  cases hd
  refine h.update hx ?_ fun d hd => (plus_of_ne hd).symm
  show x.refno - 1 = 1 + k c
  omega

/-- The owner of a connection gives it up when it holds the only reference. -/
theorem Counts.collect (h : Counts made k heap) (hx : heap c = some x) (hdead : x.dead = true)
    (hone : x.refno = 1) (hd : ConnectionRefs.decref c heap = some heap') :
    Counts made k heap' := by
  have hzero : k c = 0 := by
    have := h.counted c x hx
    omega
  rw [ConnectionRefs.decref, hx, Option.bind_some, if_neg (by omega),
    if_pos ⟨by omega, hdead⟩] at hd
  cases hd
  refine ⟨?_, ?_, ?_⟩
  · exact fun d y hy => h.counted d y (update_none_iff.1 hy).2
  · intro d hpos
    have hne : d ≠ c := by
      rintro rfl
      omega
    rw [Function.update_of_ne hne]
    exact h.exist d hpos
  · intro d hle
    by_cases hne : d = c
    · subst hne
      exact Function.update_self ..
    · rw [Function.update_of_ne hne]
      exact h.fresh d hle

theorem Counts.accept (h : Counts made k heap) (sec usec : ℕ) :
    Counts (made + 1) k
      (Function.update heap made (some { tvSec := sec, tvUsec := usec })) := by
  have hzero : k made = 0 := by
    by_contra hne
    exact h.exist made (Nat.pos_of_ne_zero hne) (h.fresh made (le_refl _))
  refine ⟨?_, ?_, ?_⟩
  · intro c y hy
    rcases update_some_iff.1 hy with ⟨rfl, rfl⟩ | ⟨-, hy⟩
    · rw [hzero]
      rfl
    · exact h.counted c y hy
  · exact fun c hpos => update_some_ne_none (h.exist c hpos)
  · intro c hle
    rw [Function.update_of_ne (by omega)]
    exact h.fresh c (by omega)

/-! ## The table of connections -/

theorem saved_setConn_new (h : conns.lookup n = none) :
    saved (setConn n c conns) d = plus c (saved conns) d := by
  induction conns with
  | nil => simp [saved, setConn, plus, List.countP_singleton]
  | cons e conns ih =>
    obtain ⟨m, b⟩ := e
    rw [List.lookup_cons] at h
    by_cases hm : m = n
    · subst hm
      simp at h
    · have hne : (n == m) = false := beq_eq_false_iff_ne.2 (Ne.symm hm)
      rw [hne] at h
      have ih := ih h
      simp only [saved, plus, setConn, if_neg hm, List.countP_cons] at ih ⊢
      omega

/-- An entry that is replaced loses its reference. -/
theorem saved_setConn (h : conns.lookup n = some d) :
    ∃ rest : ℕ → ℕ, saved conns = plus d rest ∧ ∀ c, saved (setConn n c conns) = plus c rest := by
  induction conns with
  | nil => cases h
  | cons entry conns ih =>
    obtain ⟨m, b⟩ := entry
    rw [List.lookup_cons] at h
    by_cases hm : m = n
    · subst hm
      rw [beq_self_eq_true] at h
      obtain rfl : b = d := Option.some.inj h
      refine ⟨saved conns, ?_, ?_⟩
      · funext e
        simp [saved, plus, List.countP_cons]
      · intro c
        funext e
        simp [saved, plus, setConn, List.countP_cons]
    · have hne : (n == m) = false := beq_eq_false_iff_ne.2 (Ne.symm hm)
      rw [hne] at h
      obtain ⟨rest, hold, hnew⟩ := ih h
      refine ⟨plus b rest, ?_, ?_⟩
      · funext e
        have he := congrFun hold e
        simp only [saved, plus, List.countP_cons, decide_eq_true_eq] at he ⊢
        omega
      · intro c
        funext e
        have he := congrFun (hnew c) e
        simp only [saved, plus, setConn, if_neg hm, List.countP_cons, decide_eq_true_eq] at he ⊢
        omega

theorem saveConn_spec (h : saveConn n c heap conns = some (heap', conns'))
    (hc : Counts made (fun d => k d + saved conns d) heap) :
    Counts made (fun d => k d + saved conns' d) heap' := by
  unfold saveConn at h
  cases hl : conns.lookup n with
  | none =>
    rw [hl] at h
    obtain ⟨heap₁, hi, he⟩ := Option.map_eq_some_iff.1 h
    cases he
    refine (hc.incref hi).congr fun d => ?_
    rw [saved_setConn_new hl, plus, plus]
    omega
  | some b =>
    rw [hl] at h
    obtain ⟨x, -, h⟩ := Option.bind_eq_some_iff.1 h
    obtain ⟨y, -, h⟩ := Option.bind_eq_some_iff.1 h
    split_ifs at h
    · obtain ⟨heap₁, hd, h⟩ := Option.bind_eq_some_iff.1 h
      obtain ⟨heap₂, hi, he⟩ := Option.map_eq_some_iff.1 h
      cases he
      obtain ⟨rest, hold, hnew⟩ := saved_setConn hl
      have hkept : Counts made (fun d => k d + rest d) heap₁ := by
        refine Counts.decref (hc.congr fun d => ?_) hd
        rw [hold, plus, plus]
        omega
      refine (hkept.incref hi).congr fun d => ?_
      rw [hnew, plus, plus]
      omega
    · cases h
      exact hc

theorem latestConn_spec (h : latestConn n c heap conns = some (heap', d))
    (hc : Counts made (plus c k) heap) : Counts made (plus d k) heap' := by
  obtain ⟨x, -, h⟩ := Option.bind_eq_some_iff.1 h
  split_ifs at h
  · obtain ⟨b, -, h⟩ := Option.bind_eq_some_iff.1 h
    split_ifs at h
    · cases h
      exact hc
    · obtain ⟨heap₁, hd, h⟩ := Option.bind_eq_some_iff.1 h
      obtain ⟨heap₂, hi, he⟩ := Option.map_eq_some_iff.1 h
      cases he
      exact (hc.decref hd).incref hi
  · cases h
    exact hc

/-! ## Runs -/

/-- The reference of a job that may have left. -/
def held (job : Option Job) (c : ℕ) : ℕ := job.toList.countP (·.conn = c)

theorem held_some : held (some job) c = if job.conn = c then 1 else 0 := by
  simp [held, List.countP_singleton]

/-- A section of `dispatch` moves references between the job and `conns_`, and changes nothing
about the other jobs. -/
structure Advances (k : ℕ → ℕ) (s : Server) (s' : Server) (job' : Option Job) : Prop where
  counts : Counts s'.made (fun c => k c + held job' c + saved s'.conns c) s'.heap
  nonce : s'.nonce = s.nonce
  arriving : s'.arriving = s.arriving
  queue : s'.queue = s.queue

theorem advance_spec {ret : ℤ} {rep : Str} (h : advance ret rep job s = some (s', job'))
    (hc : Counts s.made (fun c => k c + held (some job) c + saved s.conns c) s.heap) :
    Advances k s s' job' := by
  have hjob : Counts s.made (plus job.conn fun c => k c + saved s.conns c) s.heap := by
    refine hc.congr fun c => ?_
    rw [held_some, plus]
    omega
  unfold advance at h
  obtain ⟨c, req, phase⟩ := job
  cases phase with
  | saving =>
    obtain ⟨⟨heap, conns⟩, hs, he⟩ := Option.map_eq_some_iff.1 h
    cases he
    exact ⟨saveConn_spec hs hc, rfl, rfl, rfl⟩
  | checking =>
    obtain ⟨r, -, he⟩ := Option.map_eq_some_iff.1 h
    cases he
    exact ⟨hc, rfl, rfl, rfl⟩
  | handling =>
    dsimp only at h
    split_ifs at h
    · cases h
      exact ⟨hc, rfl, rfl, rfl⟩
    · obtain ⟨w, -, he⟩ := Option.map_eq_some_iff.1 h
      cases he
      exact ⟨hc, rfl, rfl, rfl⟩
  | replying =>
    obtain ⟨⟨heap, d⟩, hl, he⟩ := Option.map_eq_some_iff.1 h
    cases he
    refine ⟨(latestConn_spec hl hjob).congr fun c => ?_, rfl, rfl, rfl⟩
    rw [held_some, plus]
    dsimp only
    omega
  | leaving =>
    obtain ⟨heap, hd, he⟩ := Option.map_eq_some_iff.1 h
    cases he
    exact ⟨(hjob.decref hd).congr fun _ => rfl, rfl, rfl, rfl⟩

/-- What the requests to an old instance left behind is counted by `leaks`; everything else
balances. -/
structure Inv (nonce : ℕ) (tr : List Label) (s : Server) : Prop where
  same : s.nonce = nonce
  counts : Counts s.made (fun c => carried s c + saved s.conns c + leaks nonce tr c) s.heap

theorem leaks_append (nonce : ℕ) (tr : List Label) (l : Label) (c : ℕ) :
    leaks nonce (tr ++ [l]) c =
      leaks nonce tr c + if oldInstance nonce l = some c then 1 else 0 := by
  simp [leaks, List.countP_append, List.countP_singleton]

theorem leaks_append_of_none {nonce : ℕ} (h : oldInstance nonce l = none) :
    leaks nonce (tr ++ [l]) c = leaks nonce tr c := by
  rw [leaks_append, h, if_neg nofun, Nat.add_zero]

theorem dispatch_spec (h : dispatch s j = some (heap', job'))
    (hc : Counts made (plus j.conn k) s.heap) :
    Counts made (fun c => k c + held job' c +
      if oldInstance s.nonce (.dispatched j) = some c then 1 else 0) heap' := by
  obtain ⟨c, buf⟩ := j
  unfold dispatch at h
  cases buf with
  | none =>
    obtain ⟨heap, hd, he⟩ := Option.map_eq_some_iff.1 h
    cases he
    exact (hc.decref hd).congr fun _ => rfl
  | some req =>
    dsimp only at h
    split_ifs at h with hold hproc
    · -- the job is gone, and its reference is not
      cases h
      refine hc.congr fun d => ?_
      simp only [oldInstance, if_pos hold, Option.some_inj]
      rfl
    all_goals
      cases h
      refine hc.congr fun d => ?_
      simp only [oldInstance, if_neg hold, held_some, plus]
      simp

theorem carried_of_arriving (h : s.arriving = some j) :
    carried s c = plus j.conn (fun c => s.queue.countP (·.conn = c) +
      s.running.countP (·.conn = c)) c := by
  rw [carried, h, plus, Option.toList_some, List.countP_singleton]
  simp only [decide_eq_true_eq]
  omega

theorem Inv.step {nonce : ℕ} (h : Inv nonce tr s) (hs : Step s l s') :
    Inv nonce (tr ++ [l]) s' := by
  cases hs with
  | accept sec usec =>
    refine ⟨h.same, (h.counts.accept sec usec).congr fun c => ?_⟩
    rw [leaks_append_of_none rfl]
    rfl
  | collect c hx hdead hone hd =>
    refine ⟨h.same, (h.counts.collect hx hdead hone hd).congr fun c => ?_⟩
    rw [leaks_append_of_none rfl]
    rfl
  | @die c x hx =>
    have hkept := h.counts.update hx (y := { x with dead := true }) (h.counts.counted c x hx)
      fun _ _ => rfl
    refine ⟨h.same, hkept.congr fun d => ?_⟩
    rw [leaks_append_of_none rfl]
    rfl
  | @gotPdu j heap hidle hi =>
    refine ⟨h.same, (h.counts.incref hi).congr fun c => ?_⟩
    rw [leaks_append_of_none rfl, carried_of_arriving rfl, plus, plus, carried, hidle]
    simp only [Option.toList_none, List.countP_nil]
    omega
  | @addObjJob j ha hroom =>
    refine ⟨h.same, h.counts.congr fun c => ?_⟩
    rw [leaks_append_of_none rfl, carried_of_arriving ha, plus, carried]
    simp only [Option.toList_none, List.countP_nil, List.countP_append, List.countP_singleton,
      decide_eq_true_eq]
    omega
  | @giveUp j heap ha hfull hd =>
    have hjob : Counts s.made (plus j.conn fun c => s.queue.countP (·.conn = c) +
        s.running.countP (·.conn = c) + saved s.conns c + leaks nonce tr c) s.heap := by
      refine h.counts.congr fun c => ?_
      rw [carried_of_arriving ha, plus, plus]
      omega
    refine ⟨h.same, (hjob.decref hd).congr fun c => ?_⟩
    rw [leaks_append_of_none rfl, carried]
    simp only [Option.toList_none, List.countP_nil]
    omega
  | @dispatch j queue heap job hq hfree hd =>
    have hjob : Counts s.made (plus j.conn fun c => s.arriving.toList.countP (·.conn = c) +
        queue.countP (·.conn = c) + s.running.countP (·.conn = c) + saved s.conns c +
        leaks nonce tr c) s.heap := by
      refine h.counts.congr fun c => ?_
      rw [carried, hq, plus, List.countP_cons]
      simp only [decide_eq_true_eq]
      omega
    refine ⟨h.same, (dispatch_spec hd hjob).congr fun c => ?_⟩
    rw [leaks_append, carried, h.same, held]
    simp only [Multiset.countP_add, Multiset.coe_countP]
    omega
  | @advance s₁ job job' hm ret rep ha =>
    have hjob : Counts s.made (fun c => (s.arriving.toList.countP (·.conn = c) +
        s.queue.countP (·.conn = c) + (s.running.erase job).countP (·.conn = c) +
        leaks nonce tr c) + held (some job) c + saved s.conns c) s.heap := by
      refine h.counts.congr fun c => ?_
      rw [carried, held_some]
      nth_rewrite 2 [← Multiset.cons_erase hm]
      rw [Multiset.countP_cons]
      omega
    have hadv := advance_spec ha hjob
    refine ⟨hadv.nonce.trans h.same, hadv.counts.congr fun c => ?_⟩
    rw [leaks_append_of_none rfl, carried, hadv.arriving, hadv.queue, held]
    simp only [Multiset.countP_add, Multiset.coe_countP]
    omega

theorem run_inv {nonce : ℕ} (hr : Run Step (start nonce procs) tr s) : Inv nonce tr s := by
  refine hr.history_invariant ⟨rfl, ?_, ?_, ?_⟩ fun tr b l c _ hi hs => hi.step hs
  · exact nofun
  · exact fun c hpos => absurd hpos (lt_irrefl 0)
  · exact fun c _ => rfl

/-- No job and no entry of `conns_` points to a connection that was deleted. -/
theorem run_exist {nonce : ℕ} (hr : Run Step (start nonce procs) tr s)
    (hc : 0 < carried s c + saved s.conns c) : s.heap c ≠ none :=
  (run_inv hr).counts.exist c (by omega)

/-- The references of an `rpcs` balance exactly in the runs in which no request for an old
instance was dispatched, and then the owners' and those of `conns_` are the only ones when all
jobs have finished. -/
theorem references_balance_iff {nonce : ℕ} (hr : Run Step (start nonce procs) tr s) :
    (Balanced s ↔ ∀ l ∈ tr, oldInstance nonce l = none) ∧
      ((∀ l ∈ tr, oldInstance nonce l = none) → Finished s →
        ∀ c x, s.heap c = some x → x.refno = 1 + saved s.conns c) := by
  have hinv := (run_inv hr).counts
  have hbalanced : (∀ l ∈ tr, oldInstance nonce l = none) → Balanced s := by
    intro hnone c x hx
    have hzero : leaks nonce tr c = 0 := by
      refine List.countP_eq_zero.2 fun l hl => ?_
      rw [hnone l hl]
      simp
    rw [hinv.counted c x hx, hzero]
    push_cast
    omega
  refine ⟨⟨?_, hbalanced⟩, ?_⟩
  · intro hb l hl
    by_contra hne
    obtain ⟨c, hc⟩ := Option.ne_none_iff_exists'.1 hne
    have hpos : 0 < leaks nonce tr c := List.countP_pos_iff.2 ⟨l, hl, by simpa using hc⟩
    -- the connection of such a request is never deleted
    obtain ⟨x, hx⟩ := Option.ne_none_iff_exists'.1 (hinv.exist c (by omega))
    have hcount := hinv.counted c x hx
    rw [hb c x hx] at hcount
    push_cast at hcount
    omega
  · rintro hnone ⟨ha, hq, hrun⟩ c x hx
    rw [hbalanced hnone c x hx, carried, ha, hq, hrun]
    simp

/-- The request of a client 5, over its first or its second connection. -/
def asked : Request := ⟨1, 1, 5, 7, 0, []⟩

/-- The connection dies in the handler and the client asks again over a new one: the reply goes
over the new connection, the old one is collected, and `conns_` refers to the new one. -/
theorem references_balance_reconnected : ∃ tr s, Run Step (start 7 [1]) tr s ∧ Finished s ∧
    s.heap 0 = none ∧ s.conns = [(5, 1)] ∧ (∀ l ∈ tr, oldInstance 7 l = none) ∧ Balanced s ∧
    ∀ c x, s.heap c = some x → x.refno = 1 + saved s.conns c := by
  have h₀ : Run Step (start 7 [1]) [] _ := .nil
  have h₁ := (h₀.snoc (.accept 0 0)).snoc (.gotPdu ⟨0, some asked⟩ rfl rfl)
  have h₂ := (h₁.snoc (.addObjJob rfl (by decide))).snoc (.dispatch rfl (by decide) rfl)
  have h₃ := h₂.snoc (.advance ⟨0, asked, .saving⟩ (by decide) 0 [] rfl)
  have h₄ := h₃.snoc (.advance ⟨0, asked, .checking⟩ (by decide) 0 [] rfl)
  have h₅ := ((h₄.snoc (.die 0 rfl)).snoc (.accept 1 0)).snoc (.gotPdu ⟨1, some asked⟩ rfl rfl)
  have h₆ := (h₅.snoc (.addObjJob rfl (by decide))).snoc (.dispatch rfl (by decide) rfl)
  have h₇ := h₆.snoc (.advance ⟨1, asked, .saving⟩ (by decide) 0 [] rfl)
  have h₈ := h₇.snoc (.advance ⟨1, asked, .checking⟩ (by decide) 0 [] rfl)
  have h₉ := h₈.snoc (.advance ⟨1, asked, .leaving⟩ (by decide) 0 [] rfl)
  have h₁₀ := h₉.snoc (.advance ⟨0, asked, .handling⟩ (by decide) 0 [] rfl)
  have h₁₁ := h₁₀.snoc (.advance ⟨0, asked, .replying⟩ (by decide) 0 [] rfl)
  have h₁₂ := h₁₁.snoc (.advance ⟨1, asked, .leaving⟩ (by decide) 0 [] rfl)
  have h₁₃ := h₁₂.snoc (.collect 0 rfl rfl rfl rfl)
  have hb := references_balance_iff h₁₃
  refine ⟨_, _, h₁₃, ⟨rfl, rfl, rfl⟩, rfl, rfl, ?_, hb.1.2 ?_, hb.2 ?_ ⟨rfl, rfl, rfl⟩⟩
  all_goals decide

/-- A request for an old instance of the server keeps its connection for ever. -/
theorem old_instance_leaks : ∃ tr s x, Run Step (start 7 [1]) tr s ∧ Finished s ∧
    s.heap 0 = some x ∧ x.refno = 2 ∧ saved s.conns 0 = 0 ∧ ¬ Balanced s := by
  have h₀ : Run Step (start 7 [1]) [] _ := .nil
  have h₁ := (h₀.snoc (.accept 0 0)).snoc (.gotPdu ⟨0, some ⟨1, 1, 5, 3, 0, []⟩⟩ rfl rfl)
  have h₂ := (h₁.snoc (.addObjJob rfl (by decide))).snoc (.dispatch rfl (by decide) rfl)
  refine ⟨_, _, _, h₂, ⟨rfl, rfl, rfl⟩, rfl, rfl, rfl, ?_⟩
  intro hb
  exact absurd (hb 0 _ rfl) (by decide)

end Yfs.ConnectionRefs
