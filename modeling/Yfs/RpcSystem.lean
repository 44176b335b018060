import Yfs.LockProtocol
import Yfs.ReplyWindow
import Mathlib.Algebra.Group.Nat.Defs

/-!
# Remote procedure calls over a network that loses, repeats and reorders

One `rpcs` and the `rpcc` clients that call it. Every message stays in the network once it was
sent: it may arrive any number of times, at any time, or never. Clients are named by their
nonces, and a nonce of 0 asks for no at-most-once service.
-/

namespace Yfs.RpcSystem
open LabelledRuns LockProtocol ReplyWindow

/-! ## The client's window -/

/-- `xid_rep_window_.front()`. -/
def first (w : List ℕ) : ℕ := w.headD 0

/-- The loop of `update_xid_rep` that enters an xid before the first larger one. -/
def insertXid (xid : ℕ) : List ℕ → List ℕ
  | [] => [xid]
  | x :: w => if xid < x then xid :: x :: w else x :: insertXid xid w

/-- The loop at `compress`: the iterator stands before the second list, and the front is popped
while its successor is what the iterator points to. -/
def compress (pre : List ℕ) : List ℕ → List ℕ
  | [] => pre
  | x :: w => compress (pre.dropWhile (fun f => (f + 1) % 2 ^ 32 = x) ++ [x]) w

/-- `rpcc::update_xid_rep`. -/
def updateXidRep (xid : ℕ) (w : List ℕ) : List ℕ :=
  if xid ≤ first w then w
  else match insertXid xid w with
    | [] => []
    | f :: w => compress [f] w

/-- The xids up to the front of a sorted window, and the ones in it, have property `A`. -/
structure Covers (A : ℕ → Prop) (w : List ℕ) : Prop where
  nonempty : w ≠ []
  sorted : w.Pairwise (· ≤ ·)
  holds : ∀ x ∈ w, x = 0 ∨ A x
  below : ∀ x, 0 < x → x ≤ first w → A x

variable {A A' : ℕ → Prop} {w pre : List ℕ} {x xid : ℕ}

theorem Covers.mono (h : Covers A w) (hA : ∀ x, A x → A' x) : Covers A' w :=
  ⟨h.nonempty, h.sorted, fun x hx => (h.holds x hx).imp_right (hA x),
    fun x hpos hle => hA x (h.below x hpos hle)⟩

theorem mem_insertXid : x ∈ insertXid xid w ↔ x = xid ∨ x ∈ w := by
  induction w with
  | nil => simp [insertXid]
  | cons a w ih =>
    unfold insertXid
    split_ifs
    · exact List.mem_cons
    · rw [List.mem_cons, ih, List.mem_cons]
      tauto

theorem sorted_insertXid (h : w.Pairwise (· ≤ ·)) : (insertXid xid w).Pairwise (· ≤ ·) := by
  induction w with
  | nil => exact List.pairwise_singleton _ _
  | cons a w ih =>
    unfold insertXid
    split_ifs with hlt
    · refine List.pairwise_cons.2 ⟨?_, h⟩
      intro y hy
      rcases List.mem_cons.1 hy with rfl | hy
      · exact hlt.le
      · exact hlt.le.trans (List.rel_of_pairwise_cons h hy)
    · refine List.pairwise_cons.2 ⟨?_, ih h.of_cons⟩
      intro y hy
      rcases mem_insertXid.1 hy with rfl | hy
      · omega
      · exact List.rel_of_pairwise_cons h hy

theorem Covers.insert (h : Covers A w) (hlt : first w < xid) (hx : A xid) :
    Covers A (insertXid xid w) ∧ first (insertXid xid w) = first w := by
  have hfirst : first (insertXid xid w) = first w := by
    cases w with
    | nil => exact absurd rfl h.nonempty
    | cons a w =>
      have hlt : a < xid := hlt
      rw [insertXid, if_neg (by omega)]
      rfl
  refine ⟨⟨?_, sorted_insertXid h.sorted, ?_, ?_⟩, hfirst⟩
  · exact List.ne_nil_of_mem (mem_insertXid.2 (.inl rfl))
  · intro x hx
    rcases mem_insertXid.1 hx with rfl | hx
    · exact .inr ‹_›
    · exact h.holds x hx
  · rw [hfirst]
    exact h.below

/-- Popping stops at the entry the iterator points to, and skips no xid on the way. -/
theorem Covers.pop (h : Covers A (pre ++ x :: w)) (hbig : x < 2 ^ 32) :
    Covers A (pre.dropWhile (fun f => (f + 1) % 2 ^ 32 = x) ++ x :: w) ∧
      first (pre ++ x :: w) ≤
        first (pre.dropWhile (fun f => (f + 1) % 2 ^ 32 = x) ++ x :: w) := by
  induction pre with
  | nil => exact ⟨h, le_refl _⟩
  | cons f pre ih =>
    by_cases hf : (f + 1) % 2 ^ 32 = x
    · rw [List.dropWhile_cons_of_pos (by simpa using hf)]
      have hfx : f ≤ x := List.rel_of_pairwise_cons h.sorted (by simp)
      have hsucc : f + 1 = x := by omega
      have hrest : (pre ++ x :: w).Pairwise (· ≤ ·) := h.sorted.of_cons
      obtain ⟨g, hg, hgmem, hgx⟩ : ∃ g, first (pre ++ x :: w) = g ∧ g ∈ pre ++ x :: w ∧ g ≤ x := by
        cases pre with
        | nil => exact ⟨x, rfl, by simp, le_refl _⟩
        | cons g pre => exact ⟨g, rfl, by simp, List.rel_of_pairwise_cons hrest (by simp)⟩
      have hfg : f ≤ g := List.rel_of_pairwise_cons h.sorted hgmem
      have hcov : Covers A (pre ++ x :: w) := by
        refine ⟨List.ne_nil_of_mem hgmem, hrest, fun y hy => h.holds y (List.mem_cons_of_mem _ hy), ?_⟩
        intro y hpos hy
        rw [hg] at hy
        by_cases hyf : y ≤ f
        · exact h.below y hpos hyf
        · obtain rfl : y = g := by omega
          rcases h.holds y (List.mem_cons_of_mem _ hgmem) with rfl | hA
          · omega
          · exact hA
      obtain ⟨h₁, h₂⟩ := ih hcov
      refine ⟨h₁, le_trans ?_ h₂⟩
      rw [hg]
      exact hfg
    · rw [List.dropWhile_cons_of_neg (by simpa using hf)]
      exact ⟨h, le_refl _⟩

theorem Covers.compressed (h : Covers A (pre ++ w)) (hbig : ∀ x ∈ w, x < 2 ^ 32) :
    Covers A (compress pre w) ∧ first (pre ++ w) ≤ first (compress pre w) := by
  induction w generalizing pre with
  | nil =>
    rw [List.append_nil] at h ⊢
    exact ⟨h, le_refl _⟩
  | cons x w ih =>
    obtain ⟨h₁, h₂⟩ := h.pop (hbig x List.mem_cons_self)
    rw [List.append_cons (pre.dropWhile _)] at h₁ h₂
    obtain ⟨h₃, h₄⟩ := ih h₁ fun y hy => hbig y (List.mem_cons_of_mem _ hy)
    exact ⟨h₃, h₂.trans h₄⟩

/-- Acknowledging an xid with the property: the front moves up, over such xids only. -/
theorem Covers.update (h : Covers A w) (hx : A xid) (hbig : ∀ x, A x → x < 2 ^ 32) :
    Covers A (updateXidRep xid w) ∧ first w ≤ first (updateXidRep xid w) := by
  unfold updateXidRep
  split_ifs with hle
  · exact ⟨h, le_refl _⟩
  · obtain ⟨h₁, h₂⟩ := h.insert (by omega) hx
    rw [← h₂]
    generalize insertXid xid w = v at h₁
    cases v with
    | nil => exact absurd rfl h₁.nonempty
    | cons f v =>
      have hv : Covers A ([f] ++ v) := h₁
      refine hv.compressed ?_
      intro y hy
      rcases h₁.holds y (List.mem_cons_of_mem _ hy) with rfl | hA
      · decide
      · exact hbig y hA

/-! ## Messages, clients and the server -/

def atmostonceFailure : ℤ := -4

def oldsrvFailure : ℤ := -5

def timeoutFailure : ℤ := -1

/-- A request: `req_header` and the marshalled arguments. -/
structure Request where
  xid : ℕ
  proc : ℕ
  cltNonce : ℕ
  srvNonce : ℕ
  xidRep : ℕ
  args : Str
  deriving DecidableEq, Repr

/-- A reply: `reply_header` and the marshalled results. -/
structure ReplyPdu where
  xid : ℕ
  ret : ℤ
  rep : Str
  deriving DecidableEq, Repr

/-- `rpcc::caller`. -/
structure Caller where
  un : Option ReplyPdu := none
  intret : ℤ := 0
  done : Bool := false
  deriving DecidableEq, Repr

/-- `rpcc`, as far as `call1` and `got_pdu` use it. -/
structure Rpcc where
  xid : ℕ := 1
  calls : ℕ → Option Caller := fun _ => none
  xidRepWindow : List ℕ := [0]

/-- The locked part at the start of `call1`. -/
def Rpcc.call1 (c : Rpcc) (nonce proc srvNonce : ℕ) (args : Str) : Rpcc × Request :=
  ({ c with xid := (c.xid + 1) % 2 ^ 32, calls := Function.update c.calls c.xid (some {}) },
    ⟨c.xid, proc, nonce, srvNonce, first c.xidRepWindow, args⟩)

/-- The locked part at the end of `call1`. -/
def Rpcc.leave (c : Rpcc) (xid : ℕ) : Rpcc :=
  { c with calls := Function.update c.calls xid none,
           xidRepWindow := updateXidRep xid c.xidRepWindow }

/-- What `call1` returns. -/
def Caller.result (ca : Caller) : ℤ := if ca.done then ca.intret else timeoutFailure

/-- `rpcc::got_pdu`. -/
def Rpcc.gotPdu (c : Rpcc) (pdu : ReplyPdu) : Rpcc :=
  let c := { c with xidRepWindow := updateXidRep pdu.xid c.xidRepWindow }
  match c.calls pdu.xid with
  | none => c
  | some ca =>
    if ca.done then c
    else { c with calls := Function.update c.calls pdu.xid (some ⟨some pdu, pdu.ret, true⟩) }

/-- `rpcs`: its nonce, the registered procedures, the reply lists and the handlers at work. -/
structure Rpcs where
  nonce : ℕ
  procs : List ℕ
  replyWindow : ℕ → List (ReplyT ReplyPdu) := fun _ => []
  running : List Request := []

def Rpcs.setWindow (srv : Rpcs) (n : ℕ) (l : List (ReplyT ReplyPdu)) : Rpcs :=
  { srv with replyWindow := Function.update srv.replyWindow n l }

/-- The `switch` of `dispatch` up to the call of the handler, and the reply it sends. -/
def Rpcs.switch (srv : Rpcs) (req : Request) :
    RpcState ReplyPdu → Rpcs × List ReplyPdu
  | .new => ({ srv with running := srv.running ++ [req] }, [])
  | .inProgress => (srv, [])
  | .done b _ => (srv, b.toList)
  | .forgotten => (srv, [⟨req.xid, atmostonceFailure, []⟩])

/-- `rpcs::dispatch` up to the call of the handler: the new state, what the request was taken
for (`none` for one to an old server) and the replies sent. The result is `none` when an
assertion fails. -/
def Rpcs.dispatch (srv : Rpcs) (req : Request) :
    Option (Rpcs × Option (RpcState ReplyPdu) × List ReplyPdu) :=
  if req.srvNonce ≠ 0 ∧ req.srvNonce ≠ srv.nonce then
    some (srv, none, [⟨req.xid, oldsrvFailure, []⟩])
  else if req.proc ∉ srv.procs then none
  else if req.cltNonce = 0 then
    some ((srv.switch req .new).1, some .new, (srv.switch req .new).2)
  else
    (checkDuplicateAndUpdate req.xid req.xidRep (srv.replyWindow req.cltNonce)).map fun r =>
      let after := (srv.setWindow req.cltNonce r.1).switch req r.2
      (after.1, some r.2, after.2)

/-- `sz1`, the size of a reply with its header. -/
def ReplyPdu.size (pdu : ReplyPdu) : ℤ := (24 + pdu.rep.length : ℕ)

/-- The rest of `dispatch`, when a handler has returned; `none` when an assertion fails. -/
def Rpcs.finish (srv : Rpcs) (req : Request) (pdu : ReplyPdu) : Option Rpcs :=
  let srv := { srv with running := srv.running.erase req }
  if pdu.ret < 0 then none
  else if req.cltNonce = 0 then some srv
  else (addReply req.xid pdu pdu.size (srv.replyWindow req.cltNonce)).map
    (srv.setWindow req.cltNonce)

/-! ## The whole system -/

structure System where
  clients : ℕ → Rpcc := fun _ => {}
  server : Rpcs
  requests : List Request := []
  replies : List (ℕ × ReplyPdu) := []

inductive Label where
  | called (n xid : ℕ)
  | dispatched (req : Request) (st : Option (RpcState ReplyPdu))
  | finished (req : Request) (pdu : ReplyPdu)
  | received (n : ℕ) (pdu : ReplyPdu)
  | returned (n xid : ℕ) (ret : ℤ) (rep : Option ReplyPdu)
  deriving DecidableEq, Repr

def System.setClient (s : System) (n : ℕ) (c : Rpcc) : System :=
  { s with clients := Function.update s.clients n c }

def System.start (nonce : ℕ) (procs : List ℕ) : System := { server := { nonce, procs } }

/-- The steps: a call is made; it returns, with its reply or because its time is up; a request
or a reply arrives; a handler returns. -/
inductive Step : System → Label → System → Prop where
  | call {s : System} (n proc srvNonce : ℕ) (args : Str) (hn : n ≠ 0) :
      Step s (.called n (s.clients n).xid)
        { s.setClient n ((s.clients n).call1 n proc srvNonce args).1 with
          requests := s.requests ++ [((s.clients n).call1 n proc srvNonce args).2] }
  | leave {s : System} (n xid : ℕ) (ca : Caller) (h : (s.clients n).calls xid = some ca) :
      Step s (.returned n xid ca.result ca.un) (s.setClient n ((s.clients n).leave xid))
  | dispatch {s : System} (req : Request) (hm : req ∈ s.requests) {srv : Rpcs}
      {st : Option (RpcState ReplyPdu)} {out : List ReplyPdu}
      (h : s.server.dispatch req = some (srv, st, out)) :
      Step s (.dispatched req st)
        { s with server := srv, replies := s.replies ++ out.map (req.cltNonce, ·) }
  | finish {s : System} (req : Request) (hm : req ∈ s.server.running) (ret : ℤ) (rep : Str)
      {srv : Rpcs} (h : s.server.finish req ⟨req.xid, ret, rep⟩ = some srv) :
      Step s (.finished req ⟨req.xid, ret, rep⟩)
        { s with server := srv, replies := s.replies ++ [(req.cltNonce, ⟨req.xid, ret, rep⟩)] }
  | receive {s : System} (n : ℕ) (pdu : ReplyPdu) (hm : (n, pdu) ∈ s.replies) :
      Step s (.received n pdu) (s.setClient n ((s.clients n).gotPdu pdu))

/-! ## What a step does to the server -/

variable {s s' : System} {srv srv' : Rpcs} {req : Request} {st : Option (RpcState ReplyPdu)}
  {out : List ReplyPdu} {pdu : ReplyPdu} {l : Label} {tr : List Label} {n : ℕ}

/-- What `dispatch` did: the steps of the reply lists, the handler it may have started, and the
replies it sent. -/
structure Dispatches (srv : Rpcs) (req : Request) (srv' : Rpcs)
    (st : Option (RpcState ReplyPdu)) (out : List ReplyPdu) : Prop where
  nonce : srv'.nonce = srv.nonce
  current : st = none ↔ req.srvNonce ≠ 0 ∧ req.srvNonce ≠ srv.nonce
  window : ∀ st', st = some st' → req.cltNonce ≠ 0 →
    ReplyWindow.Step (srv.replyWindow req.cltNonce) (.check req.xid req.xidRep st')
      (srv'.replyWindow req.cltNonce)
  others : ∀ n, (st = none ∨ req.cltNonce = 0 ∨ n ≠ req.cltNonce) →
    srv'.replyWindow n = srv.replyWindow n
  running : srv'.running = if st = some .new then srv.running ++ [req] else srv.running
  sent : ∀ pdu ∈ out, (pdu.ret < 0 ∧ pdu.xid = req.xid) ∨
    (req.cltNonce ≠ 0 ∧ ∃ sz, st = some (.done (some pdu) sz))

theorem switch_running (st : RpcState ReplyPdu) : (srv.switch req st).1.running =
    if (some st) = some .new then srv.running ++ [req] else srv.running := by
  cases st <;> rfl

theorem switch_replyWindow (st : RpcState ReplyPdu) :
    (srv.switch req st).1.replyWindow = srv.replyWindow := by
  cases st <;> rfl

theorem switch_nonce (st : RpcState ReplyPdu) : (srv.switch req st).1.nonce = srv.nonce := by
  cases st <;> rfl

theorem switch_sent {st : RpcState ReplyPdu} (h : pdu ∈ (srv.switch req st).2) :
    (pdu.ret < 0 ∧ pdu.xid = req.xid) ∨ ∃ sz, some st = some (.done (some pdu) sz) := by
  cases st with
  | new => cases h
  | inProgress => cases h
  | done b sz =>
    obtain rfl : b = some pdu := Option.mem_toList.1 h
    exact .inr ⟨sz, rfl⟩
  | forgotten =>
    obtain rfl := List.mem_singleton.1 h
    exact .inl ⟨(by decide : atmostonceFailure < 0), rfl⟩

theorem dispatch_spec (h : srv.dispatch req = some (srv', st, out)) :
    Dispatches srv req srv' st out := by
  unfold Rpcs.dispatch at h
  split_ifs at h with hold hproc hzero
  · obtain ⟨rfl, rfl, rfl⟩ : srv = srv' ∧ none = st ∧ [⟨req.xid, oldsrvFailure, []⟩] = out := by
      simpa using h
    refine ⟨rfl, by simpa using hold, by simp, fun _ _ => rfl, rfl, ?_⟩
    intro pdu hpdu
    obtain rfl := List.mem_singleton.1 hpdu
    exact .inl ⟨(by decide : oldsrvFailure < 0), rfl⟩
  · cases h
    exact ⟨rfl, by simpa using hold, fun _ _ hne => absurd hzero hne, fun _ _ => rfl, rfl,
      fun pdu hpdu => by cases hpdu⟩
  · obtain ⟨⟨w, st'⟩, hc, he⟩ := Option.map_eq_some_iff.1 h
    dsimp only at he
    cases he
    refine ⟨switch_nonce _, by simpa using hold, ?_, ?_, switch_running _, ?_⟩
    · intro st₁ hst _
      cases hst
      rw [switch_replyWindow]
      simp only [Rpcs.setWindow, Function.update_self]
      exact .check (lt_of_check hc) hc
    · rintro m (hm | hm | hm)
      · cases hm
      · exact absurd hm hzero
      · rw [switch_replyWindow]
        exact Function.update_of_ne hm _ _
    · intro pdu hpdu
      rcases switch_sent hpdu with hneg | hdone
      · exact .inl hneg
      · exact .inr ⟨hzero, hdone⟩

/-- What is left to do when a handler has returned. -/
structure Finishes (srv : Rpcs) (req : Request) (pdu : ReplyPdu) (srv' : Rpcs) : Prop where
  nonce : srv'.nonce = srv.nonce
  nonneg : 0 ≤ pdu.ret
  window : req.cltNonce ≠ 0 → ReplyWindow.Step (srv.replyWindow req.cltNonce)
    (.reply req.xid pdu pdu.size) (srv'.replyWindow req.cltNonce)
  others : ∀ n, (req.cltNonce = 0 ∨ n ≠ req.cltNonce) → srv'.replyWindow n = srv.replyWindow n
  running : srv'.running = srv.running.erase req

theorem finish_spec (h : srv.finish req pdu = some srv') : Finishes srv req pdu srv' := by
  simp only [Rpcs.finish] at h
  split_ifs at h with hneg hzero
  · cases h
    exact ⟨rfl, not_lt.1 hneg, fun hne => absurd hzero hne, fun _ _ => rfl, rfl⟩
  · obtain ⟨w, ha, rfl⟩ := Option.map_eq_some_iff.1 h
    refine ⟨rfl, not_lt.1 hneg, ?_, ?_, rfl⟩
    · intro _
      simp only [Rpcs.setWindow, Function.update_self]
      exact .reply ha
    · rintro m (hm | hm)
      · exact absurd hm hzero
      · exact Function.update_of_ne hm _ _

/-- What a step means for the reply list of one client. -/
def event (n : ℕ) : Label → Option (Event ReplyPdu)
  | .dispatched req (some st) =>
    if req.cltNonce = n then some (.check req.xid req.xidRep st) else none
  | .finished req pdu => if req.cltNonce = n then some (.reply req.xid pdu pdu.size) else none
  | _ => none

/-- A recorded reply comes from a handler that returned it. -/
theorem finished_of_event {xid : ℕ} {sz : ℤ} (h : event n l = some (.reply xid pdu sz)) :
    ∃ req, l = .finished req pdu ∧ req.cltNonce = n ∧ req.xid = xid := by
  cases l with
  | finished req pdu' =>
    simp only [event] at h
    split_ifs at h with hc
    simp only [Option.some.injEq, Event.reply.injEq] at h
    exact ⟨req, by rw [h.2.1], hc, h.1⟩
  | dispatched req st =>
    cases st with
    | none => cases h
    | some st =>
      simp only [event] at h
      split_ifs at h
      cases h
  | _ => cases h

/-! ## The server alone -/

/-- The steps of the server, whoever sends the requests. -/
inductive ServerStep : Rpcs → Label → Rpcs → Prop where
  | dispatch {srv srv' : Rpcs} (req : Request) {st : Option (RpcState ReplyPdu)}
      {out : List ReplyPdu} (h : srv.dispatch req = some (srv', st, out)) :
      ServerStep srv (.dispatched req st) srv'
  | finish {srv srv' : Rpcs} (req : Request) (hm : req ∈ srv.running) (ret : ℤ) (rep : Str)
      (h : srv.finish req ⟨req.xid, ret, rep⟩ = some srv') :
      ServerStep srv (.finished req ⟨req.xid, ret, rep⟩) srv'

theorem window_step (hn : n ≠ 0) (hs : ServerStep srv l srv') :
    Run ReplyWindow.Step (srv.replyWindow n) (event n l).toList (srv'.replyWindow n) := by
  cases hs with
  | @dispatch _ req st out h =>
    have hd := dispatch_spec h
    cases st with
    | none =>
      rw [hd.others n (.inl rfl)]
      exact .nil
    | some st =>
      by_cases hreq : req.cltNonce = n
      · subst hreq
        simp only [event, if_true]
        exact .single (hd.window st rfl hn)
      · rw [hd.others n (.inr (.inr (Ne.symm hreq)))]
        simp only [event, if_neg hreq]
        exact .nil
  | finish req hm ret rep h =>
    have hf := finish_spec h
    by_cases hreq : req.cltNonce = n
    · subst hreq
      simp only [event, if_true]
      exact .single (hf.window hn)
    · rw [hf.others n (.inr (Ne.symm hreq))]
      simp only [event, if_neg hreq]
      exact .nil

variable {nonce : ℕ} {procs : List ℕ}

/-- Seen from one client's reply list, a run is a sequence of requests and replies. -/
theorem server_window (hn : n ≠ 0) (hr : Run ServerStep { nonce, procs } tr srv) :
    Run ReplyWindow.Step [] (tr.filterMap (event n)) (srv.replyWindow n) := by
  refine hr.history_invariant (I := fun tr srv =>
    Run ReplyWindow.Step [] (tr.filterMap (event n)) (srv.replyWindow n)) .nil ?_
  intro tr b l c _ ih hs
  rw [filterMap_concat]
  exact ih.append (window_step hn hs)

def isFor (n xid : ℕ) (req : Request) : Bool := req.cltNonce = n ∧ req.xid = xid

def isStart (n xid : ℕ) : Label → Bool
  | .dispatched req (some .new) => isFor n xid req
  | _ => false

def isEnd (n xid : ℕ) : Label → Bool
  | .finished req _ => isFor n xid req
  | _ => false

@[simp]
theorem isFor_iff {xid : ℕ} : isFor n xid req = true ↔ req.cltNonce = n ∧ req.xid = xid := by
  simp [isFor]

theorem server_once (hn : n ≠ 0) (xid : ℕ) (hr : Run ServerStep { nonce, procs } tr srv) :
    tr.countP (isStart n xid) ≤ 1 := by
  have h := (run_remembers (server_window hn hr)).once xid
  rw [List.countP_filterMap] at h
  refine le_trans (List.countP_mono_left ?_) h
  intro l _ hl
  cases l with
  | dispatched req st =>
    cases st with
    | none => cases hl
    | some st =>
      cases st with
      | new =>
        have hkey : req.cltNonce = n ∧ req.xid = xid := by simpa [isStart] using hl
        simp [event, hkey, isNew]
      | inProgress => cases hl
      | done => cases hl
      | forgotten => cases hl
  | _ => cases hl

theorem server_balance (n xid : ℕ) (hr : Run ServerStep { nonce, procs } tr srv) :
    tr.countP (isStart n xid) = tr.countP (isEnd n xid) + srv.running.countP (isFor n xid) := by
  induction hr with
  | nil => rfl
  | @snoc tr srv srv' l _ last ih =>
    rw [List.countP_append, List.countP_append, List.countP_singleton, List.countP_singleton]
    cases last with
    | @dispatch _ req st out h =>
      have hrun := (dispatch_spec h).running
      by_cases hst : st = some .new
      · subst hst
        rw [if_pos rfl] at hrun
        have hstart : isStart n xid (.dispatched req (some .new)) = isFor n xid req := rfl
        have hend : isEnd n xid (.dispatched req (some .new)) = false := rfl
        rw [hstart, hend, hrun, List.countP_append, List.countP_singleton, ih]
        simp only [Bool.false_eq_true, if_false]
        omega
      · rw [if_neg hst] at hrun
        have hno : isStart n xid (.dispatched req st) = false := by
          rcases st with _ | (_ | _ | _ | _) <;> first | rfl | exact absurd rfl hst
        simpa [hrun, hno, isEnd] using ih
    | finish req hm ret rep h =>
      have hrun := (finish_spec h).running
      have hperm := (List.perm_cons_erase hm).countP_eq (isFor n xid)
      rw [List.countP_cons] at hperm
      have hstart : isStart n xid (.finished req ⟨req.xid, ret, rep⟩) = false := rfl
      have hend : isEnd n xid (.finished req ⟨req.xid, ret, rep⟩) = isFor n xid req := rfl
      rw [hstart, hend, hrun, ih]
      simp only [Bool.false_eq_true, if_false]
      omega

/-! ## Handlers run once -/

/-- The labels of the server. -/
def isServed : Label → Bool
  | .dispatched .. | .finished .. => true
  | _ => false

theorem run_server (hr : Run Step (System.start nonce procs) tr s) :
    Run ServerStep { nonce, procs } (tr.filter isServed) s.server := by
  refine hr.history_invariant (I := fun tr s =>
    Run ServerStep { nonce, procs } (tr.filter isServed) s.server) .nil ?_
  intro tr b l c _ ih hs
  rw [List.filter_append]
  cases hs with
  | dispatch req hm h => exact ih.snoc (.dispatch req h)
  | finish req hm ret rep h => exact ih.snoc (.finish req hm ret rep h)
  | _ => simpa [isServed, System.setClient] using ih

theorem countP_served {p : Label → Bool} (hp : ∀ l, p l = true → isServed l = true) :
    (tr.filter isServed).countP p = tr.countP p := by
  rw [List.countP_filter]
  apply List.countP_congr
  intro l _
  simpa using hp l

theorem isServed_of_isStart {xid : ℕ} (h : isStart n xid l = true) : isServed l = true := by
  cases l with
  | dispatched => rfl
  | _ => cases h

theorem isServed_of_isEnd {xid : ℕ} (h : isEnd n xid l = true) : isServed l = true := by
  cases l with
  | finished => rfl
  | _ => cases h

theorem run_window (hn : n ≠ 0) (hr : Run Step (System.start nonce procs) tr s) :
    Run ReplyWindow.Step [] (tr.filterMap (event n)) (s.server.replyWindow n) := by
  have h := server_window hn (run_server hr)
  have hevent : (fun l => if isServed l = true then event n l else none) = event n := by
    funext l
    cases l <;> rfl
  rwa [List.filterMap_filter, hevent] at h

theorem start_once (hn : n ≠ 0) (xid : ℕ) (hr : Run Step (System.start nonce procs) tr s) :
    tr.countP (isStart n xid) ≤ 1 := by
  rw [← countP_served fun _ => isServed_of_isStart]
  exact server_once hn xid (run_server hr)

theorem start_balance (n xid : ℕ) (hr : Run Step (System.start nonce procs) tr s) :
    tr.countP (isStart n xid) =
      tr.countP (isEnd n xid) + s.server.running.countP (isFor n xid) := by
  rw [← countP_served fun _ => isServed_of_isStart, ← countP_served fun _ => isServed_of_isEnd]
  exact server_balance n xid (run_server hr)

end Yfs.RpcSystem
