import Yfs.AtomicObjects
import Yfs.ReplyBuffers

/-!
# Remote objects

The handlers of a server work on some object, one for each request, at the same time as others. If the
object is linearizable for the handlers, it is so for the clients, although the network loses, repeats
and reorders what they send: a call takes effect when its handler does, and a call that fails has taken
effect at most once.
-/

namespace Yfs.RemoteObjects
open LabelledRuns RpcSystem AtMostOnce
open ReplyBuffers (not_inUse_of_run run_of_calm)
open AtomicObjects (Event Status State Spec Linearizable seen)
open LockProtocol (Str)

/-- The nonce of a client and the xid of its call. -/
abbrev Key := ℕ × ℕ

/-- A procedure and its marshalled arguments. -/
abbrev Task := ℕ × Str

abbrev Result := ℤ × Str

def key (req : Request) : Key := (req.cltNonce, req.xid)

def task (req : Request) : Task := (req.proc, req.args)

/-- What the handlers do. -/
def handled (tr : List Label) : List (Key × Event Task Result) :=
  tr.filterMap fun
    | .dispatched req (some .new) => some (key req, .start (task req))
    | .finished req pdu => some (key req, .finish (pdu.ret, pdu.rep))
    | _ => none

/-- What the request of a call asks for. -/
def taskOf (reqs : List Request) (k : Key) : Task :=
  ((reqs.find? fun req => key req = k).map task).getD (0, [])

/-- What the clients see of their calls, if they sent the requests `reqs`. A call that fails gives no
result. -/
def called (reqs : List Request) (tr : List Label) : List (Key × Event Task Result) :=
  tr.filterMap fun
    | .called n xid => some ((n, xid), .start (taskOf reqs (n, xid)))
    | .returned n xid ret (some pdu) =>
      if 0 ≤ ret then some ((n, xid), .finish (ret, pdu.rep)) else none
    | _ => none

variable {V : Type} {spec : Spec V Task Result} {s s' : System} {tr : List Label} {l : Label}
  {nonce n xid : ℕ} {procs : List ℕ} {req : Request} {pdu : ReplyPdu} {v : V}
  {o o' c : State Key V Task Result} {reqs : List Request}

/-- After the steps `tr` the handlers have brought the object to state `o`, and the clients take it to
be in state `c`. -/
structure Follows (tr : List Label) (s : System) (o c : State Key V Task Result) : Prop where
  value : c.value = o.value
  unused : ∀ n xid, (s.clients n).xid ≤ xid → c.procs (n, xid) = .idle
  sent : ∀ req ∈ s.requests, tr.countP (isStart req.cltNonce req.xid) = 0 →
    c.procs (key req) = .pending (task req)
  running : ∀ req ∈ s.server.running, c.procs (key req) = o.procs (key req)
  ended : ∀ req pdu, .finished req pdu ∈ tr → (s.clients req.cltNonce).calls req.xid ≠ none →
    ∃ t, c.procs (key req) = .done t (some (pdu.ret, pdu.rep))
  busy : ∀ k, o.procs k ≠ .idle → ∃ req ∈ s.server.running, key req = k

/-- What is known of a request whose handler is at work. -/
structure Active (tr : List Label) (s : System) (req : Request) : Prop where
  known : req.xid < (s.clients req.cltNonce).xid
  started : tr.countP (isStart req.cltNonce req.xid) = 1
  unfinished : tr.countP (isEnd req.cltNonce req.xid) = 0
  alone : s.server.running.countP (isFor req.cltNonce req.xid) = 1

theorem active_of_running (hr : Run Step (System.start nonce procs) tr s) (ho : Ordered tr s)
    (hm : req ∈ s.server.running) : Active tr s req := by
  obtain ⟨hn, ⟨-, hlt⟩, -⟩ := ho.sent req (ho.taken req hm)
  have honce := start_once hn req.xid hr
  have hbal := start_balance req.cltNonce req.xid hr
  have hpos : 0 < s.server.running.countP (isFor req.cltNonce req.xid) :=
    List.countP_pos_iff.2 ⟨req, hm, isFor_iff.2 ⟨rfl, rfl⟩⟩
  exact ⟨hlt, by omega, by omega, by omega⟩

theorem key_eq_iff {req' : Request} :
    key req' = key req ↔ isFor req.cltNonce req.xid req' = true := by
  rw [isFor_iff]
  exact Prod.mk.injEq .. ▸ Iff.rfl

/-- A call whose handler is at work is not new, has not been waiting since, and has no result. -/
theorem Active.ne_unused (h : Active tr s req) (hx : (s.clients n).xid ≤ xid) : (n, xid) ≠ key req := by
  intro he
  obtain ⟨rfl, rfl⟩ := Prod.mk.inj he
  exact absurd h.known (not_lt.2 hx)

theorem Active.ne_unstarted (h : Active tr s req) {req' : Request}
    (hz : tr.countP (isStart req'.cltNonce req'.xid) = 0) : key req' ≠ key req := by
  intro he
  obtain ⟨hn, hx⟩ := Prod.mk.inj he
  rw [hn, hx, h.started] at hz
  cases hz

theorem Active.ne_ended (h : Active tr s req) {req' : Request} (hf : .finished req' pdu ∈ tr) :
    key req' ≠ key req := by
  intro he
  have hpos : 0 < tr.countP (isEnd req.cltNonce req.xid) :=
    List.countP_pos_iff.2 ⟨_, hf, key_eq_iff.1 he⟩
  rw [h.unfinished] at hpos
  exact lt_irrefl _ hpos

/-! ## Effects -/

/-- The clients see the effect of a handler. -/
theorem Follows.commit {k : Key} (hr : Run Step (System.start nonce procs) tr s) (ho : Ordered tr s)
    (h : Follows tr s o c) (hs : AtomicObjects.Step spec o (k, none) o') :
    ∃ c', AtomicObjects.Step spec c (k, none) c' ∧ Follows tr s o' c' := by
  cases hs with
  | @commit _ t v r hi hspec =>
    obtain ⟨req, hm, rfl⟩ := h.busy k (by rw [hi]; nofun)
    have hact := active_of_running hr ho hm
    have hc : c.procs (key req) = .pending t := (h.running req hm).trans hi
    rw [← h.value] at hspec
    refine ⟨_, .commit hc hspec, rfl, ?_, ?_, ?_, ?_, ?_⟩
    · intro n xid hx
      exact (Function.update_of_ne (hact.ne_unused hx) ..).trans (h.unused n xid hx)
    · intro req' hm' hz
      exact (Function.update_of_ne (hact.ne_unstarted hz) ..).trans (h.sent req' hm' hz)
    · intro req' hm'
      show Function.update c.procs (key req) _ (key req') = Function.update o.procs (key req) _ (key req')
      by_cases hk : key req' = key req
      · rw [hk, Function.update_self, Function.update_self]
      · rw [Function.update_of_ne hk, Function.update_of_ne hk, h.running req' hm']
    · intro req' pdu hf hcalls
      obtain ⟨t', ht'⟩ := h.ended req' pdu hf hcalls
      exact ⟨t', (Function.update_of_ne (hact.ne_ended hf) ..).trans ht'⟩
    · intro k hk
      by_cases hkey : k = key req
      · exact ⟨req, hm, hkey.symm⟩
      · refine h.busy k fun hidle => hk ?_
        exact (Function.update_of_ne hkey ..).trans hidle

theorem Follows.commits {R : List (AtomicObjects.Label Key Task Result)}
    (hr : Run Step (System.start nonce procs) tr s) (ho : Ordered tr s) (h : Follows tr s o c)
    (hrun : Run (AtomicObjects.Step spec) o R o') (hseen : seen R = []) :
    ∃ R' c', Run (AtomicObjects.Step spec) c R' c' ∧ seen R' = [] ∧ Follows tr s o' c' := by
  induction hrun with
  | nil => exact ⟨[], c, .nil, rfl, h⟩
  | @snoc R b d l run last ih =>
    rw [AtomicObjects.seen_append, List.append_eq_nil_iff] at hseen
    obtain ⟨R', c', hrun', hseen', h'⟩ := ih hseen.1
    obtain ⟨k, e⟩ := l
    cases e with
    | some e => cases hseen.2
    | none =>
      obtain ⟨c'', hstep, h''⟩ := h'.commit hr ho last
      refine ⟨R' ++ [(k, none)], c'', hrun'.snoc hstep, ?_, h''⟩
      rw [AtomicObjects.seen_append, hseen']
      rfl

/-! ## Steps of clients -/

/-- A call is made. -/
theorem Follows.call {proc srvNonce : ℕ} {args : Str} (ho : Ordered tr s) (h : Follows tr s o c)
    (hsmall : (s.clients n).xid + 1 < 2 ^ 32) :
    ∃ c', AtomicObjects.Step spec c ((n, (s.clients n).xid), some (.start (proc, args))) c' ∧
      Follows (tr ++ [.called n (s.clients n).xid])
        { s.setClient n ((s.clients n).call1 n proc srvNonce args).1 with
          requests := s.requests ++ [((s.clients n).call1 n proc srvNonce args).2] } o c' := by
  have hne : ∀ req ∈ s.requests, key req ≠ (n, (s.clients n).xid) := by
    intro req hm he
    obtain ⟨rfl, hx⟩ := Prod.mk.inj he
    have := (ho.sent req hm).2.1.2
    omega
  refine ⟨_, .start (proc, args) (h.unused n _ le_rfl), h.value, ?_, ?_, ?_, ?_, h.busy⟩
  · intro m x hx
    by_cases hm : m = n
    · subst hm
      simp only [System.setClient, Rpcc.call1, Function.update_self, Nat.mod_eq_of_lt hsmall] at hx
      have hx' : x ≠ (s.clients m).xid := by omega
      exact (Function.update_of_ne (by simp [hx']) ..).trans (h.unused m x (by omega))
    · simp only [System.setClient, Function.update_of_ne hm] at hx
      exact (Function.update_of_ne (by simp [hm]) ..).trans (h.unused m x hx)
  · intro req hm hz
    rcases List.mem_append.1 hm with hm | hm
    · rw [List.countP_append, Nat.add_eq_zero_iff] at hz
      exact (Function.update_of_ne (hne req hm) ..).trans (h.sent req hm hz.1)
    · obtain rfl := List.mem_singleton.1 hm
      exact Function.update_self ..
  · intro req hm
    exact (Function.update_of_ne (hne req (ho.taken req hm)) ..).trans (h.running req hm)
  · intro req pdu hf hcalls
    have hf' : .finished req pdu ∈ tr := mem_snoc_of_ne hf (by simp)
    have hk := hne req (ho.ended req pdu hf')
    obtain ⟨t, ht⟩ := h.ended req pdu hf' (by
      by_cases hm : req.cltNonce = n
      · have hx : req.xid ≠ (s.clients n).xid := fun hx => hk (Prod.ext hm hx)
        simpa only [System.setClient, Rpcc.call1, hm, Function.update_self,
          Function.update_of_ne hx] using hcalls
      · simpa only [System.setClient, Function.update_of_ne hm] using hcalls)
    exact ⟨t, (Function.update_of_ne hk ..).trans ht⟩

/-- A step of a client that makes no call and takes no result. -/
theorem Follows.setClient {cl : Rpcc} (h : Follows tr s o c) (hl : ∀ req pdu, .finished req pdu ≠ l)
    (hxid : cl.xid = (s.clients n).xid)
    (hcalls : ∀ x, cl.calls x ≠ none → (s.clients n).calls x ≠ none) :
    Follows (tr ++ [l]) (s.setClient n cl) o c := by
  refine ⟨h.value, ?_, ?_, h.running, ?_, h.busy⟩
  · intro m x hx
    by_cases hm : m = n
    · subst hm
      simp only [System.setClient, Function.update_self, hxid] at hx
      exact h.unused m x hx
    · simp only [System.setClient, Function.update_of_ne hm] at hx
      exact h.unused m x hx
  · intro req hm hz
    rw [List.countP_append, Nat.add_eq_zero_iff] at hz
    exact h.sent req hm hz.1
  · intro req pdu hf hc
    refine h.ended req pdu (mem_snoc_of_ne hf (hl req pdu)) ?_
    by_cases hm : req.cltNonce = n
    · subst hm
      simp only [System.setClient, Function.update_self] at hc
      exact hcalls _ hc
    · simpa only [System.setClient, Function.update_of_ne hm] using hc

/-- A call returns with a result. -/
theorem Follows.leave {ret : ℤ} {rep : Option ReplyPdu}
    (hr : Run Step (System.start nonce procs) tr s) (ho : Ordered tr s) (h : Follows tr s o c)
    (hf : .finished req pdu ∈ tr) (hk : key req = (n, xid)) (hcall : (s.clients n).calls xid ≠ none) :
    ∃ c', AtomicObjects.Step spec c ((n, xid), some (.finish (pdu.ret, pdu.rep))) c' ∧
      Follows (tr ++ [.returned n xid ret rep]) (s.setClient n ((s.clients n).leave xid)) o c' := by
  obtain ⟨rfl, rfl⟩ := Prod.mk.inj hk
  obtain ⟨t, ht⟩ := h.ended req pdu hf hcall
  have hreq := ho.ended req pdu hf
  obtain ⟨hn, ⟨-, hlt⟩, -⟩ := ho.sent req hreq
  have hend : 0 < tr.countP (isEnd req.cltNonce req.xid) :=
    List.countP_pos_iff.2 ⟨_, hf, isFor_iff.2 ⟨rfl, rfl⟩⟩
  have hbal := start_balance req.cltNonce req.xid hr
  have hnext : Follows (tr ++ [.returned req.cltNonce req.xid ret rep])
      (s.setClient req.cltNonce ((s.clients req.cltNonce).leave req.xid)) o c := by
    refine h.setClient nofun rfl fun x hx => ?_
    by_cases hxx : x = req.xid
    · rwa [hxx]
    · simpa only [Rpcc.leave, Function.update_of_ne hxx] using hx
  refine ⟨_, .finish ht, hnext.value, ?_, ?_, ?_, ?_, hnext.busy⟩
  · intro m x hx
    show Function.update c.procs (key req) _ (m, x) = _
    by_cases hk : (m, x) = key req
    · rw [hk, Function.update_self]
    · exact (Function.update_of_ne hk ..).trans (hnext.unused m x hx)
  · intro req' hm' hz
    refine (Function.update_of_ne ?_ ..).trans (hnext.sent req' hm' hz)
    intro he
    obtain ⟨hn', hx'⟩ := Prod.mk.inj he
    rw [List.countP_append, Nat.add_eq_zero_iff, hn', hx'] at hz
    omega
  · intro req' hm'
    refine (Function.update_of_ne ?_ ..).trans (hnext.running req' hm')
    exact fun he => (active_of_running hr ho hm').ne_ended hf he.symm
  · intro req' pdu' hf' hc'
    have hne : key req' ≠ key req := by
      intro he
      obtain ⟨hn', hx'⟩ := Prod.mk.inj he
      simp only [System.setClient, hn', hx', Function.update_self, Rpcc.leave] at hc'
      exact hc' rfl
    obtain ⟨t', ht'⟩ := hnext.ended req' pdu' hf' hc'
    exact ⟨t', (Function.update_of_ne hne ..).trans ht'⟩

/-! ## Steps of the server -/

/-- A request does not start a handler. -/
theorem Follows.dispatch {srv : Rpcs} {st : Option (ReplyWindow.RpcState ReplyPdu)}
    {out : List ReplyPdu} (h : Follows tr s o c) (hd : Dispatches s.server req srv st out)
    (hst : st ≠ some .new) :
    Follows (tr ++ [.dispatched req st])
      { s with server := srv, replies := s.replies ++ out.map (req.cltNonce, ·) } o c := by
  have hrun : srv.running = s.server.running := hd.running.trans (if_neg hst)
  refine ⟨h.value, h.unused, ?_, ?_, ?_, ?_⟩
  · intro req' hm hz
    rw [List.countP_append, Nat.add_eq_zero_iff] at hz
    exact h.sent req' hm hz.1
  · intro req' hm
    exact h.running req' (hrun ▸ hm)
  · intro req' pdu hf hc
    exact h.ended req' pdu (mem_snoc_of_ne hf nofun) hc
  · intro k hk
    obtain ⟨req', hm, hk'⟩ := h.busy k hk
    exact ⟨req', hrun ▸ hm, hk'⟩

/-- A handler starts. -/
theorem Follows.start {srv : Rpcs} {out : List ReplyPdu} (h : Follows tr s o c)
    (hm : req ∈ s.requests) (hd : Dispatches s.server req srv (some .new) out)
    (ha : Active (tr ++ [.dispatched req (some .new)])
      { s with server := srv, replies := s.replies ++ out.map (req.cltNonce, ·) } req)
    (hs : AtomicObjects.Step spec o (key req, some (.start (task req))) o') :
    Follows (tr ++ [.dispatched req (some .new)])
      { s with server := srv, replies := s.replies ++ out.map (req.cltNonce, ·) } o' c := by
  have hrun : srv.running = s.server.running ++ [req] := hd.running.trans (if_pos rfl)
  have hnew : tr.countP (isStart req.cltNonce req.xid) = 0 := by
    have hone := ha.started
    have hself : isStart req.cltNonce req.xid (.dispatched req (some .new)) = true :=
      isFor_iff.2 ⟨rfl, rfl⟩
    rw [List.countP_append, List.countP_singleton, hself, if_pos rfl] at hone
    omega
  have hothers : ∀ req' ∈ s.server.running, key req' ≠ key req := by
    intro req' hm' he
    have hone := ha.alone
    dsimp only at hone
    rw [hrun, List.countP_append, List.countP_singleton, if_pos (isFor_iff.2 ⟨rfl, rfl⟩)] at hone
    have hpos : 0 < s.server.running.countP (isFor req.cltNonce req.xid) :=
      List.countP_pos_iff.2 ⟨req', hm', key_eq_iff.1 he⟩
    omega
  cases hs with
  | start _ hi =>
    refine ⟨h.value, h.unused, ?_, ?_, ?_, ?_⟩
    · intro req' hm' hz
      rw [List.countP_append, Nat.add_eq_zero_iff] at hz
      exact h.sent req' hm' hz.1
    · intro req' hm'
      dsimp only at hm'
      rw [hrun] at hm'
      show _ = Function.update o.procs (key req) _ (key req')
      rcases List.mem_append.1 hm' with hm' | hm'
      · rw [Function.update_of_ne (hothers req' hm')]
        exact h.running req' hm'
      · obtain rfl := List.mem_singleton.1 hm'
        rw [Function.update_self]
        exact h.sent req' hm hnew
    · intro req' pdu hf hc
      exact h.ended req' pdu (mem_snoc_of_ne hf nofun) hc
    · intro k hk
      dsimp only
      rw [hrun]
      by_cases hkey : k = key req
      · exact ⟨req, List.mem_append_right _ (List.mem_singleton_self req), hkey.symm⟩
      · obtain ⟨req', hm', hk'⟩ := h.busy k fun hidle =>
          hk ((Function.update_of_ne hkey ..).trans hidle)
        exact ⟨req', List.mem_append_left _ hm', hk'⟩

/-- A handler returns. -/
theorem Follows.finish {srv : Rpcs} (h : Follows tr s o c) (hm : req ∈ s.server.running)
    (ha : Active tr s req) (hf : Finishes s.server req pdu srv)
    (hs : AtomicObjects.Step spec o (key req, some (.finish (pdu.ret, pdu.rep))) o') :
    Follows (tr ++ [.finished req pdu])
      { s with server := srv, replies := s.replies ++ [(req.cltNonce, pdu)] } o' c := by
  have hothers : ∀ req' ∈ s.server.running.erase req, key req' ≠ key req := by
    intro req' hm' he
    have hone := (List.perm_cons_erase hm).countP_eq (isFor req.cltNonce req.xid)
    rw [ha.alone, List.countP_cons_of_pos (isFor_iff.2 ⟨rfl, rfl⟩)] at hone
    have hpos : 0 < (s.server.running.erase req).countP (isFor req.cltNonce req.xid) :=
      List.countP_pos_iff.2 ⟨req', hm', key_eq_iff.1 he⟩
    omega
  cases hs with
  | @finish _ t _ hi =>
    refine ⟨h.value, h.unused, ?_, ?_, ?_, ?_⟩
    · intro req' hm' hz
      rw [List.countP_append, Nat.add_eq_zero_iff] at hz
      exact h.sent req' hm' hz.1
    · intro req' hm'
      dsimp only at hm'
      rw [hf.running] at hm'
      show _ = Function.update o.procs (key req) _ (key req')
      rw [Function.update_of_ne (hothers req' hm')]
      exact h.running req' (List.mem_of_mem_erase hm')
    · intro req' pdu' hf' hc
      by_cases hlast : Label.finished req' pdu' = .finished req pdu
      · cases hlast
        exact ⟨t, (h.running req hm).trans hi⟩
      · exact h.ended req' pdu' (mem_snoc_of_ne hf' hlast) hc
    · intro k hk
      have hkey : k ≠ key req := by
        rintro rfl
        exact hk (Function.update_self ..)
      obtain ⟨req', hm', rfl⟩ := h.busy k fun hidle =>
        hk ((Function.update_of_ne hkey ..).trans hidle)
      dsimp only
      rw [hf.running]
      exact ⟨req', (List.mem_erase_of_ne fun he => hkey (congrArg key he)).2 hm', rfl⟩

/-! ## Runs -/

theorem handled_snoc : handled (tr ++ [l]) = handled tr ++ handled [l] := List.filterMap_append

theorem called_snoc : called reqs (tr ++ [l]) = called reqs tr ++ called reqs [l] :=
  List.filterMap_append

theorem called_returned {ret : ℤ} (h : 0 ≤ ret) : called reqs [.returned n xid ret (some pdu)] =
    [((n, xid), .finish (ret, pdu.rep))] := by
  simp [called, h]

theorem called_failed {ret : ℤ} {rep : Option ReplyPdu} (h : ¬0 ≤ ret) :
    called reqs [.returned n xid ret rep] = [] := by
  cases rep with
  | none => rfl
  | some pdu => simp [called, h]

theorem calls_gotPdu_ne_none {cl : Rpcc} (h : (cl.gotPdu pdu).calls xid ≠ none) :
    cl.calls xid ≠ none := by
  simp only [Rpcc.gotPdu] at h
  split at h
  · exact h
  · split_ifs at h
    · exact h
    · by_cases hx : xid = pdu.xid
      · subst hx
        simp_all
      · simpa only [Function.update_of_ne hx] using h

/-- What the clients have made of a history of the handlers. -/
def Mirrored (spec : Spec V Task Result) (v : V) (reqs : List Request) (tr : List Label) (s : System)
    (o : State Key V Task Result) : Prop :=
  ∃ R c, Run (AtomicObjects.Step spec) (AtomicObjects.start v) R c ∧ seen R = called reqs tr ∧
    Follows tr s o c

/-- A step that the clients do not see. -/
theorem Mirrored.silent (h : Mirrored spec v reqs tr s o) (hl : called reqs [l] = [])
    (hnext : ∀ c, Follows tr s o c → Follows (tr ++ [l]) s' o' c) :
    Mirrored spec v reqs (tr ++ [l]) s' o' := by
  obtain ⟨R, c, hrun, hseen, hf⟩ := h
  refine ⟨R, c, hrun, ?_, hnext c hf⟩
  rw [called_snoc, hl, List.append_nil, hseen]

/-- A step that they see. -/
theorem Mirrored.visible {k : Key} {e : Event Task Result} (h : Mirrored spec v reqs tr s o)
    (hl : called reqs [l] = [(k, e)])
    (hnext : ∀ c, Follows tr s o c → ∃ c', AtomicObjects.Step spec c (k, some e) c' ∧
      Follows (tr ++ [l]) s' o c') : Mirrored spec v reqs (tr ++ [l]) s' o := by
  obtain ⟨R, c, hrun, hseen, hf⟩ := h
  obtain ⟨c', hstep, hf'⟩ := hnext c hf
  refine ⟨R ++ [(k, some e)], c', hrun.snoc hstep, ?_, hf'⟩
  rw [AtomicObjects.seen_append, hseen, called_snoc, hl]
  rfl

theorem Mirrored.commits {R : List (AtomicObjects.Label Key Task Result)}
    (hr : Run Step (System.start nonce procs) tr s) (ho : Ordered tr s)
    (h : Mirrored spec v reqs tr s o) (hrun : Run (AtomicObjects.Step spec) o R o')
    (hseen : seen R = []) : Mirrored spec v reqs tr s o' := by
  obtain ⟨R₀, c, hrun₀, hseen₀, hf⟩ := h
  obtain ⟨R', c', hrun', hseen', hf'⟩ := hf.commits hr ho hrun hseen
  refine ⟨R₀ ++ R', c', hrun₀.append hrun', ?_, hf'⟩
  rw [AtomicObjects.seen_append, hseen₀, hseen', List.append_nil]

/-- A step of a handler, and the effects after it. -/
theorem mirrored_handler {R : List (AtomicObjects.Label Key Task Result)} {k : Key}
    {e : Event Task Result} (hr : Run Step (System.start nonce procs) (tr ++ [l]) s')
    (ho : Ordered (tr ++ [l]) s')
    (ih : ∀ R o, Run (AtomicObjects.Step spec) (AtomicObjects.start v) R o → seen R = handled tr →
      Mirrored spec v reqs tr s o)
    (hrun : Run (AtomicObjects.Step spec) (AtomicObjects.start v) R o)
    (hseen : seen R = handled tr ++ [(k, e)]) (hl : called reqs [l] = [])
    (hnext : ∀ o₁ o₂ c, AtomicObjects.Step spec o₁ (k, some e) o₂ → Follows tr s o₁ c →
      Follows (tr ++ [l]) s' o₂ c) : Mirrored spec v reqs (tr ++ [l]) s' o := by
  obtain ⟨R₁, o₁, o₂, R₂, hrun₁, hseen₁, hstep, hrun₂, hseen₂⟩ :=
    AtomicObjects.run_seen_snoc hrun hseen
  have hnow : Mirrored spec v reqs (tr ++ [l]) s' o₂ :=
    (ih R₁ o₁ hrun₁ hseen₁).silent hl fun c hf => hnext o₁ o₂ c hstep hf
  exact hnow.commits hr ho hrun₂ hseen₂

/-- The clients follow every history of the handlers. -/
theorem mirrored_step (hr : Run Step (System.start nonce procs) tr s) (ho : Ordered tr s)
    (hs : Step s l s') (ho' : Ordered (tr ++ [l]) s')
    (hreqs : ∀ req ∈ s'.requests, taskOf reqs (key req) = task req)
    (ih : ∀ R o, Run (AtomicObjects.Step spec) (AtomicObjects.start v) R o → seen R = handled tr →
      Mirrored spec v reqs tr s o)
    {R : List (AtomicObjects.Label Key Task Result)}
    (hrun : Run (AtomicObjects.Step spec) (AtomicObjects.start v) R o)
    (hseen : seen R = handled (tr ++ [l])) : Mirrored spec v reqs (tr ++ [l]) s' o := by
  have hr' := hr.snoc hs
  rw [handled_snoc] at hseen
  cases hs with
  | call n proc srvNonce args hn =>
    have hsmall : (s.clients n).xid + 1 < 2 ^ 32 := by
      have hlt := (ho'.sound n).small
      rw [ho'.counted n, List.countP_append, ← add_assoc, ← ho.counted n] at hlt
      simpa [isCall] using hlt
    have htask : taskOf reqs (n, (s.clients n).xid) = (proc, args) :=
      hreqs ((s.clients n).call1 n proc srvNonce args).2
        (List.mem_append_right _ (List.mem_singleton_self _))
    refine (ih R o hrun (hseen.trans (List.append_nil _))).visible ?_ fun c hf => hf.call ho hsmall
    show [((n, (s.clients n).xid), Event.start (taskOf reqs (n, (s.clients n).xid)))] = _
    rw [htask]
  | leave n xid ca hca =>
    have hprev := ih R o hrun (hseen.trans (List.append_nil _))
    by_cases hok : 0 ≤ ca.result
    · obtain ⟨pdu, hun, hret, hx, hg⟩ := (run_honest hr').returned n xid _ _
        (List.mem_append_right _ (List.mem_singleton_self _)) hok
      rcases hg with hneg | ⟨req, hfin, hn, hreq⟩
      · omega
      · refine hprev.visible ?_ fun c hf => hf.leave hr ho (mem_snoc_of_ne hfin (by simp))
          (Prod.ext hn (hreq.trans hx)) (hca ▸ Option.some_ne_none ca)
        rw [hun, hret]
        exact called_returned hok
    · refine hprev.silent (called_failed hok) fun c hf => hf.setClient (by simp) rfl fun x hx => ?_
      by_cases hxx : x = xid
      · rw [hxx, hca]
        exact Option.some_ne_none ca
      · simpa only [Rpcc.leave, Function.update_of_ne hxx] using hx
  | @dispatch req hm srv st out hd =>
    have hdisp := dispatch_spec hd
    by_cases hst : st = some .new
    · subst hst
      have hnow : req ∈ srv.running := by
        rw [hdisp.running, if_pos rfl]
        exact List.mem_append_right _ (List.mem_singleton_self req)
      refine mirrored_handler hr' ho' ih hrun hseen rfl fun o₁ o₂ c hstep hf => ?_
      exact hf.start hm hdisp (active_of_running hr' ho' hnow) hstep
    · have hnone : handled [.dispatched req st] = [] := by
        rcases st with _ | (_ | _ | _ | _)
        · rfl
        · exact absurd rfl hst
        all_goals rfl
      rw [hnone, List.append_nil] at hseen
      exact (ih R o hrun hseen).silent rfl fun c hf => hf.dispatch hdisp hst
  | @finish req hm ret rep srv hfin =>
    refine mirrored_handler hr' ho' ih hrun hseen rfl fun o₁ o₂ c hstep hf => ?_
    exact hf.finish hm (active_of_running hr ho hm) (finish_spec hfin) hstep
  | receive n pdu hm =>
    refine (ih R o hrun (hseen.trans (List.append_nil _))).silent rfl fun c hf => ?_
    exact hf.setClient (by simp) (gotPdu_frame _ _).1 fun x hx => calls_gotPdu_ne_none hx

theorem requests_subset (hs : Step s l s') : s.requests ⊆ s'.requests := by
  cases hs with
  | call => exact List.subset_append_left ..
  | _ => exact List.Subset.refl _

theorem follows_start : Follows [] (System.start nonce procs) (AtomicObjects.start v)
    (AtomicObjects.start v) where
  value := rfl
  unused _ _ _ := rfl
  sent _ hm := absurd hm List.not_mem_nil
  running _ hm := absurd hm List.not_mem_nil
  ended _ _ hm := absurd hm List.not_mem_nil
  busy _ hk := absurd rfl hk

theorem run_mirrored (hr : Run Step (System.start nonce procs) tr s)
    (hcalls : ∀ n, tr.countP (isCall n) < 2 ^ 32 - 1)
    (hreqs : ∀ req ∈ s.requests, taskOf reqs (key req) = task req)
    {R : List (AtomicObjects.Label Key Task Result)}
    (hrun : Run (AtomicObjects.Step spec) (AtomicObjects.start v) R o) (hseen : seen R = handled tr) :
    Mirrored spec v reqs tr s o := by
  induction hr generalizing R o with
  | nil =>
    have hstart : Mirrored spec v reqs [] (System.start nonce procs) (AtomicObjects.start v) :=
      ⟨[], _, .nil, rfl, follows_start⟩
    exact hstart.commits .nil ordered_start hrun hseen
  | @snoc tr s s' l run last ih =>
    have hcalls' : ∀ n, tr.countP (isCall n) < 2 ^ 32 - 1 := by
      intro n
      have := hcalls n
      rw [List.countP_append] at this
      omega
    exact mirrored_step run (run_ordered run hcalls') last (run_ordered (run.snoc last) hcalls) hreqs
      (fun R o => ih hcalls' fun req hm => hreqs req (requests_subset last hm)) hrun hseen

/-- A call has one request. -/
theorem unique_requests (hr : Run Step (System.start nonce procs) tr s)
    (hcalls : ∀ n, tr.countP (isCall n) < 2 ^ 32 - 1) :
    ∀ req ∈ s.requests, ∀ req' ∈ s.requests, key req = key req' → req = req' := by
  induction hr with
  | nil => exact fun req hm => absurd hm List.not_mem_nil
  | @snoc tr s s' l run last ih =>
    have hcalls' : ∀ n, tr.countP (isCall n) < 2 ^ 32 - 1 := by
      intro n
      have := hcalls n
      rw [List.countP_append] at this
      omega
    have ho := run_ordered run hcalls'
    cases last with
    | call n proc srvNonce args hn =>
      have hne : ∀ req ∈ s.requests, key req ≠ key ((s.clients n).call1 n proc srvNonce args).2 := by
        intro req hm he
        obtain ⟨rfl, hx⟩ : req.cltNonce = n ∧ req.xid = (s.clients n).xid := Prod.mk.inj he
        have := (ho.sent req hm).2.1.2
        omega
      intro req hm req' hm' hk
      rcases List.mem_append.1 hm with hm | hm <;> rcases List.mem_append.1 hm' with hm' | hm'
      · exact ih hcalls' req hm req' hm' hk
      · rw [List.mem_singleton.1 hm'] at hk
        exact absurd hk (hne req hm)
      · rw [List.mem_singleton.1 hm] at hk
        exact absurd hk.symm (hne req' hm')
      · rw [List.mem_singleton.1 hm, List.mem_singleton.1 hm']
    | _ => exact ih hcalls'

theorem taskOf_key (h : ∀ req ∈ reqs, ∀ req' ∈ reqs, key req = key req' → req = req')
    (hm : req ∈ reqs) : taskOf reqs (key req) = task req := by
  obtain ⟨req', hfind⟩ : ∃ req', reqs.find? (fun r => key r = key req) = some req' :=
    Option.isSome_iff_exists.1 (List.find?_isSome.2 ⟨req, hm, by simp⟩)
  have hkey : key req' = key req := by simpa using List.find?_some hfind
  rw [taskOf, hfind, h req' (List.mem_of_find?_eq_some hfind) req hm hkey]
  rfl

theorem calls_are_atomic (hr : Run Step (System.start nonce procs) tr s)
    (hcalls : ∀ n, tr.countP (isCall n) < 2 ^ 32 - 1) (hlin : Linearizable spec v (handled tr)) :
    Linearizable spec v (called s.requests tr) := by
  obtain ⟨R, o, hrun, hseen⟩ := hlin
  obtain ⟨R', c, hrun', hseen', -⟩ := run_mirrored hr hcalls
    (fun req hm => taskOf_key (unique_requests hr hcalls) hm) hrun hseen
  exact ⟨R', c, hrun', hseen'⟩

/-- What is linearizable for the handlers of a server is linearizable for its clients, whatever the
network does to their messages, as long as no reply is freed while it is sent. -/
theorem remote_calls_are_atomic {all : List (Option Label)} {u : ReplyBuffers.System}
    (hr : Run ReplyBuffers.CalmStep (ReplyBuffers.System.start nonce procs) all u)
    (hcalls : ∀ n, all.reduceOption.countP (isCall n) < 2 ^ 32 - 1)
    (hlin : Linearizable spec v (handled all.reduceOption)) :
    Linearizable spec v (called u.requests all.reduceOption) := by
  obtain ⟨-, t, ht, hshow⟩ := ReplyBuffers.run_shows hr
  rw [← hshow.requests]
  exact calls_are_atomic ht hcalls hlin

/-! ### Two clients of a counter -/

/-- Procedure 7 adds one and returns the old value. -/
def counter (t : Task) (v v' : ℕ) (r : Option Result) : Prop :=
  t.1 = 7 ∧ v' = v + 1 ∧ r = some (0, [UInt8.ofNat v])

def asks (n : ℕ) : Request := ⟨1, 7, n, 9, 0, []⟩

def answers (b : UInt8) : ReplyPdu := ⟨1, 0, [b]⟩

/-- The request of client 1 overtakes that of client 2 and arrives twice. -/
def overtaking : List Label :=
  [.called 2 1, .called 1 1, .dispatched (asks 1) (some .new), .finished (asks 1) (answers 0),
    .dispatched (asks 2) (some .new), .dispatched (asks 1) (some (.done (some (answers 0)) 25)),
    .finished (asks 2) (answers 1), .received 2 (answers 1), .returned 2 1 0 (some (answers 1)),
    .received 1 (answers 0), .returned 1 1 0 (some (answers 0))]

theorem counter_handled : Linearizable counter 0 (handled overtaking) := by
  refine ⟨[((1, 1), some (.start (7, []))), ((1, 1), none), ((1, 1), some (.finish (0, [0]))),
    ((2, 1), some (.start (7, []))), ((2, 1), none), ((2, 1), some (.finish (0, [1])))], _,
    .snoc (.snoc (.snoc (.snoc (.snoc (.snoc .nil (.start (7, []) rfl)) (.commit rfl ⟨rfl, rfl, rfl⟩))
      (.finish rfl)) (.start (7, []) rfl)) (.commit rfl ⟨rfl, rfl, rfl⟩)) (.finish rfl), rfl⟩

theorem remote_calls_are_atomic_counter : ∃ all u,
    Run ReplyBuffers.CalmStep (ReplyBuffers.System.start 9 [7]) all u ∧
    all.reduceOption = overtaking ∧
    called u.requests all.reduceOption =
      [((2, 1), .start (7, [])), ((1, 1), .start (7, [])), ((2, 1), .finish (0, [1])),
        ((1, 1), .finish (0, [0]))] ∧
    Linearizable counter 0 (called u.requests all.reduceOption) := by
  have h₁ : Run ReplyBuffers.CalmStep (ReplyBuffers.System.start 9 [7]) _ _ :=
    .snoc .nil ⟨.call 2 7 9 [] (by decide), trivial⟩
  have h₂ := h₁.snoc ⟨.call 1 7 9 [] (by decide), trivial⟩
  have h₃ := h₂.snoc ⟨.dispatch (asks 1) (by decide) 1
    (not_inUse_of_run (run_of_calm h₂) (by decide) (by decide) (by decide)) rfl, by decide⟩
  have h₄ := h₃.snoc ⟨.finish (asks 1) 1 (by decide) 0 [0] rfl, trivial⟩
  have h₅ := h₄.snoc ⟨.dispatch (asks 2) (by decide) 2
    (not_inUse_of_run (run_of_calm h₄) (by decide) (by decide) (by decide)) rfl, by decide⟩
  have h₆ := h₅.snoc ⟨.dispatch (asks 1) (by decide) 3
    (not_inUse_of_run (run_of_calm h₅) (by decide) (by decide) (by decide)) rfl, by decide⟩
  have h₇ := h₆.snoc ⟨.finish (asks 2) 2 (by decide) 0 [1] rfl, trivial⟩
  have h₈ := h₇.snoc ⟨.send ⟨2, 2, 25, false⟩ (by decide), trivial⟩
  have h₉ := h₈.snoc ⟨.receive 2 (answers 1) (by decide), trivial⟩
  have h₁₀ := h₉.snoc ⟨.leave 2 1 ⟨some (answers 1), 0, true⟩ rfl, trivial⟩
  have h₁₁ := h₁₀.snoc ⟨.send ⟨1, 1, 25, false⟩ (by decide), trivial⟩
  have h₁₂ := h₁₁.snoc ⟨.receive 1 (answers 0) (by decide), trivial⟩
  have h₁₃ := h₁₂.snoc ⟨.leave 1 1 ⟨some (answers 0), 0, true⟩ rfl, trivial⟩
  exact ⟨_, _, h₁₃, rfl, by decide, remote_calls_are_atomic h₁₃
    (fun n => lt_of_le_of_lt List.countP_le_length (by decide)) counter_handled⟩

end Yfs.RemoteObjects
