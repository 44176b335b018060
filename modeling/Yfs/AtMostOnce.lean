import Yfs.RpcSystem

/-!
# At-most-once calls

The server forgets up to the largest acknowledgement it has taken up, a client acknowledges only
what it no longer waits for, and so no request that somebody waits for is ever forgotten.
-/

namespace Yfs.AtMostOnce
open LabelledRuns RpcSystem
open LockProtocol (Str)
open ReplyWindow hiding Step

/-! ## Where a reply comes from -/

/-- A reply says that the call failed, or was returned by a handler. -/
def Genuine (tr : List Label) (n : ℕ) (pdu : ReplyPdu) : Prop :=
  pdu.ret < 0 ∨ ∃ req, .finished req pdu ∈ tr ∧ req.cltNonce = n ∧ req.xid = pdu.xid

/-- What a caller that is done holds. -/
def Holds (tr : List Label) (n xid : ℕ) (ret : ℤ) (rep : Option ReplyPdu) : Prop :=
  ∃ pdu, rep = some pdu ∧ pdu.ret = ret ∧ pdu.xid = xid ∧ Genuine tr n pdu

variable {s s' : System} {tr : List Label} {l : Label} {nonce n xid : ℕ} {procs : List ℕ}
  {req : Request} {pdu : ReplyPdu} {ret : ℤ} {rep : Option ReplyPdu}

theorem Genuine.snoc (h : Genuine tr n pdu) (l : Label) : Genuine (tr ++ [l]) n pdu :=
  h.imp_right fun ⟨req, hm, hc⟩ => ⟨req, List.mem_append_left _ hm, hc⟩

theorem Holds.snoc (h : Holds tr n xid ret rep) (l : Label) : Holds (tr ++ [l]) n xid ret rep := by
  obtain ⟨pdu, hrep, hret, hxid, hg⟩ := h
  exact ⟨pdu, hrep, hret, hxid, hg.snoc l⟩

/-- Replies in the network, in the callers' hands and returned to callers are genuine. -/
structure Honest (tr : List Label) (s : System) : Prop where
  replied : ∀ n pdu, (n, pdu) ∈ s.replies → Genuine tr n pdu
  received : ∀ n xid ca, (s.clients n).calls xid = some ca → ca.done = true →
    Holds tr n xid ca.intret ca.un
  returned : ∀ n xid ret rep, .returned n xid ret rep ∈ tr → 0 ≤ ret → Holds tr n xid ret rep
  ended : ∀ req pdu, .finished req pdu ∈ tr → pdu.xid = req.xid

/-- The reply that a repeated request gets was returned by the handler of that request. -/
theorem finished_of_done {srv : Rpcs} {out : List ReplyPdu} {sz : ℤ}
    (hr : Run Step (System.start nonce procs) tr s) (hn : req.cltNonce ≠ 0)
    (hd : Dispatches s.server req srv (some (.done (some pdu) sz)) out) :
    ∃ req', .finished req' pdu ∈ tr ∧ req'.cltNonce = req.cltNonce ∧ req'.xid = req.xid := by
  have hrem := run_remembers (run_window hn hr)
  cases hd.window _ rfl hn with
  | check hrep he =>
    rcases (checks_of_eq hrem.increasing hrep he).told with
      ⟨-, -, hst⟩ | ⟨-, r, hw, hx, hst⟩ | ⟨-, -, -, hst⟩
    · cases hst
    · unfold repeated at hst
      split_ifs at hst with hcb
      simp only [RpcState.done.injEq] at hst
      obtain ⟨b, hb, hmem⟩ := hrem.genuine r hw hcb
      obtain rfl : pdu = b := by simpa [hb] using hst.1
      obtain ⟨l, hl, hev⟩ := List.mem_filterMap.1 hmem
      obtain ⟨req', rfl, hc, hx'⟩ := finished_of_event hev
      exact ⟨req', hl, hc, hx'.trans hx⟩
    · cases hst

theorem calls_gotPdu (c : Rpcc) (pdu : ReplyPdu) {ca : Caller}
    (h : (c.gotPdu pdu).calls xid = some ca) :
    c.calls xid = some ca ∨ (xid = pdu.xid ∧ ca = ⟨some pdu, pdu.ret, true⟩) := by
  simp only [Rpcc.gotPdu] at h
  split at h
  · exact .inl h
  · split_ifs at h
    · exact .inl h
    · by_cases hx : xid = pdu.xid
      · subst hx
        simp only [Function.update_self, Option.some.injEq] at h
        exact .inr ⟨rfl, h.symm⟩
      · dsimp only at h
        rw [Function.update_of_ne hx] at h
        exact .inl h

theorem mem_snoc_of_ne {α : Type} {a b : α} {tr : List α} (h : a ∈ tr ++ [b]) (hne : a ≠ b) :
    a ∈ tr := by
  simpa [hne] using h

theorem Honest.step (hr : Run Step (System.start nonce procs) tr s) (h : Honest tr s)
    (hs : Step s l s') : Honest (tr ++ [l]) s' := by
  cases hs with
  | call m proc srvNonce args hm =>
    refine ⟨fun n pdu hp => (h.replied n pdu hp).snoc _, ?_, ?_, ?_⟩
    · intro n xid ca hca hdone
      refine (h.received n xid ca ?_ hdone).snoc _
      by_cases hnm : n = m
      · subst hnm
        simp only [System.setClient, Function.update_self, Rpcc.call1] at hca
        by_cases hx : xid = (s.clients n).xid
        · subst hx
          rw [Function.update_self] at hca
          cases hca
          cases hdone
        · rwa [Function.update_of_ne hx] at hca
      · simpa only [System.setClient, Function.update_of_ne hnm] using hca
    · intro n xid ret rep hm' hret
      exact (h.returned n xid ret rep (mem_snoc_of_ne hm' (by simp)) hret).snoc _
    · intro req pdu hm'
      exact h.ended req pdu (mem_snoc_of_ne hm' (by simp))
  | leave m x ca hca =>
    refine ⟨fun n pdu hp => (h.replied n pdu hp).snoc _, ?_, ?_, ?_⟩
    · intro n xid ca' hca' hdone
      refine (h.received n xid ca' ?_ hdone).snoc _
      by_cases hnm : n = m
      · subst hnm
        simp only [System.setClient, Function.update_self, Rpcc.leave] at hca'
        by_cases hx : xid = x
        · subst hx
          rw [Function.update_self] at hca'
          cases hca'
        · rwa [Function.update_of_ne hx] at hca'
      · simpa only [System.setClient, Function.update_of_ne hnm] using hca'
    · intro n xid ret rep hm' hret
      rcases List.mem_append.1 hm' with hm' | hm'
      · exact (h.returned n xid ret rep hm' hret).snoc _
      · cases List.mem_singleton.1 hm'
        -- a call that is not done returns a negative number
        have hdone : ca.done = true := by
          by_contra hno
          rw [Caller.result, if_neg hno] at hret
          exact absurd hret (by decide)
        rw [Caller.result, if_pos hdone]
        exact (h.received _ _ ca hca hdone).snoc _
    · intro req pdu hm'
      exact h.ended req pdu (mem_snoc_of_ne hm' (by simp))
  | @dispatch req hm srv st out hd =>
    have hsp := dispatch_spec hd
    refine ⟨?_, fun n xid ca hca hdone => (h.received n xid ca hca hdone).snoc _, ?_, ?_⟩
    · intro n pdu hp
      rcases List.mem_append.1 hp with hp | hp
      · exact (h.replied n pdu hp).snoc _
      · obtain ⟨pdu', hout, he⟩ := List.mem_map.1 hp
        cases he
        rcases hsp.sent pdu hout with hneg | ⟨hne, sz, rfl⟩
        · exact .inl hneg.1
        · obtain ⟨req', hm', hc, hx⟩ := finished_of_done hr hne hsp
          exact .inr ⟨req', List.mem_append_left _ hm', hc, (h.ended req' pdu hm').symm⟩
    · intro n xid ret rep hm' hret
      exact (h.returned n xid ret rep (mem_snoc_of_ne hm' (by simp)) hret).snoc _
    · intro req pdu hm'
      exact h.ended req pdu (mem_snoc_of_ne hm' (by simp))
  | finish req hm ret rep hf =>
    refine ⟨?_, fun n xid ca hca hdone => (h.received n xid ca hca hdone).snoc _, ?_, ?_⟩
    · intro n pdu hp
      rcases List.mem_append.1 hp with hp | hp
      · exact (h.replied n pdu hp).snoc _
      · cases List.mem_singleton.1 hp
        exact .inr ⟨req, List.mem_append_right _ List.mem_cons_self, rfl, rfl⟩
    · intro n xid ret rep hm' hret
      exact (h.returned n xid ret rep (mem_snoc_of_ne hm' (by simp)) hret).snoc _
    · intro req pdu hm'
      rcases List.mem_append.1 hm' with hm' | hm'
      · exact h.ended req pdu hm'
      · cases List.mem_singleton.1 hm'
        rfl
  | receive m pdu hm =>
    refine ⟨fun n pdu hp => (h.replied n pdu hp).snoc _, ?_, ?_, ?_⟩
    · intro n xid ca hca hdone
      by_cases hnm : n = m
      · subst hnm
        simp only [System.setClient, Function.update_self] at hca
        rcases calls_gotPdu _ _ hca with hca | ⟨rfl, rfl⟩
        · exact (h.received n xid ca hca hdone).snoc _
        · exact ⟨pdu, rfl, rfl, rfl, (h.replied n pdu hm).snoc _⟩
      · refine (h.received n xid ca ?_ hdone).snoc _
        simpa only [System.setClient, Function.update_of_ne hnm] using hca
    · intro n xid ret rep hm' hret
      exact (h.returned n xid ret rep (mem_snoc_of_ne hm' (by simp)) hret).snoc _
    · intro req pdu hm'
      exact h.ended req pdu (mem_snoc_of_ne hm' (by simp))

theorem run_honest (hr : Run Step (System.start nonce procs) tr s) : Honest tr s := by
  refine hr.history_invariant ⟨by simp [System.start], ?_, by simp, by simp⟩
    fun tr b l c hr ih hs => ih.step hr hs
  intro n xid ca hca
  cases hca

/-! ## What a client acknowledges -/

/-- An xid that was given out and is not waited for. -/
def Settled (c : Rpcc) (x : ℕ) : Prop :=
  0 < x ∧ x < c.xid ∧ ∀ ca, c.calls x = some ca → ca.done = true

/-- A client whose window covers only what it does not wait for. -/
structure Sound (c : Rpcc) : Prop where
  pos : 0 < c.xid
  small : c.xid < 2 ^ 32
  pending : ∀ x ca, c.calls x = some ca → 0 < x ∧ x < c.xid
  covers : Covers (Settled c) c.xidRepWindow

variable {c c' : Rpcc}

/-- A client never acknowledges a call that it waits for. -/
theorem Sound.first_lt_waiting (h : Sound c) {ca : Caller} (hca : c.calls xid = some ca)
    (hwait : ca.done = false) : first c.xidRepWindow < xid := by
  by_contra hle
  have hdone := (h.covers.below xid (h.pending xid ca hca).1 (by omega)).2.2 ca hca
  rw [hwait] at hdone
  cases hdone

theorem Sound.call1 (h : Sound c) (hsmall : c.xid + 1 < 2 ^ 32) (n proc srvNonce : ℕ) (args : Str) :
    Sound (c.call1 n proc srvNonce args).1 := by
  have hx : (c.call1 n proc srvNonce args).1.xid = c.xid + 1 := Nat.mod_eq_of_lt hsmall
  refine ⟨by omega, by omega, ?_, h.covers.mono ?_⟩
  · intro x ca hca
    by_cases hxc : x = c.xid
    · have := h.pos
      omega
    · have hca' : c.calls x = some ca := by
        simpa only [Rpcc.call1, Function.update_of_ne hxc] using hca
      have := h.pending x ca hca'
      omega
  · intro x hset
    have hlt := hset.2.1
    refine ⟨hset.1, by omega, ?_⟩
    intro ca hca
    apply hset.2.2
    simpa only [Rpcc.call1, Function.update_of_ne (show x ≠ c.xid by omega)] using hca

/-- Acknowledging an xid that is settled from now on. -/
theorem Sound.acknowledge (h : Sound c) (hxid : c'.xid = c.xid)
    (hw : c'.xidRepWindow = updateXidRep xid c.xidRepWindow)
    (hcalls : ∀ x ca, c'.calls x = some ca → c.calls x = some ca ∨ (x = xid ∧ ca.done = true))
    (hlt : 0 < xid ∧ xid < c.xid) (hdone : ∀ ca, c'.calls xid = some ca → ca.done = true) :
    Sound c' ∧ first c.xidRepWindow ≤ first c'.xidRepWindow := by
  have hset : ∀ x, Settled c x → Settled c' x := by
    intro x hx
    refine ⟨hx.1, by rw [hxid]; exact hx.2.1, ?_⟩
    intro ca hca
    rcases hcalls x ca hca with hca | ⟨-, hd⟩
    · exact hx.2.2 ca hca
    · exact hd
  have hack : Settled c' xid := ⟨hlt.1, by rw [hxid]; exact hlt.2, hdone⟩
  have hbig : ∀ x, Settled c' x → x < 2 ^ 32 := by
    intro x hx
    have h₁ := hx.2.1
    have h₂ := h.small
    omega
  obtain ⟨hcov, hle⟩ := (h.covers.mono hset).update hack hbig
  rw [← hw] at hcov hle
  refine ⟨⟨by rw [hxid]; exact h.pos, by rw [hxid]; exact h.small, ?_, hcov⟩, hle⟩
  intro x ca hca
  rw [hxid]
  rcases hcalls x ca hca with hca | ⟨rfl, -⟩
  · exact h.pending x ca hca
  · exact hlt

theorem Sound.leave (h : Sound c) {ca : Caller} (hca : c.calls xid = some ca) :
    Sound (c.leave xid) ∧ first c.xidRepWindow ≤ first (c.leave xid).xidRepWindow := by
  refine h.acknowledge rfl rfl ?_ (h.pending xid ca hca) ?_
  · intro x ca' hca'
    by_cases hx : x = xid
    · subst hx
      simp only [Rpcc.leave, Function.update_self] at hca'
      cases hca'
    · exact .inl (by simpa only [Rpcc.leave, Function.update_of_ne hx] using hca')
  · intro ca' hca'
    simp only [Rpcc.leave, Function.update_self] at hca'
    cases hca'

theorem gotPdu_frame (c : Rpcc) (pdu : ReplyPdu) : (c.gotPdu pdu).xid = c.xid ∧
    (c.gotPdu pdu).xidRepWindow = updateXidRep pdu.xid c.xidRepWindow := by
  simp only [Rpcc.gotPdu]
  split
  · exact ⟨rfl, rfl⟩
  · split_ifs <;> exact ⟨rfl, rfl⟩

theorem done_gotPdu (c : Rpcc) (pdu : ReplyPdu) {ca : Caller}
    (h : (c.gotPdu pdu).calls pdu.xid = some ca) : ca.done = true := by
  simp only [Rpcc.gotPdu] at h
  split at h
  · simp_all
  · split_ifs at h
    · simp_all
    · simp only [Function.update_self, Option.some.injEq] at h
      rw [← h]

theorem Sound.gotPdu (h : Sound c) (hlt : 0 < pdu.xid ∧ pdu.xid < c.xid) :
    Sound (c.gotPdu pdu) ∧ first c.xidRepWindow ≤ first (c.gotPdu pdu).xidRepWindow := by
  refine h.acknowledge (gotPdu_frame c pdu).1 (gotPdu_frame c pdu).2 ?_ hlt
    fun ca hca => done_gotPdu c pdu hca
  intro x ca hca
  rcases calls_gotPdu c pdu hca with hca | ⟨rfl, rfl⟩
  · exact .inl hca
  · exact .inr ⟨rfl, rfl⟩

/-! ## What the server forgets -/

def isCall (n : ℕ) : Label → Bool
  | .called m _ => m = n
  | _ => false

/-- The clients are sound, the messages are about calls they made, and the server has forgotten
no more than they have acknowledged. -/
structure Ordered (tr : List Label) (s : System) : Prop where
  sound : ∀ n, Sound (s.clients n)
  counted : ∀ n, (s.clients n).xid = 1 + tr.countP (isCall n)
  sent : ∀ req ∈ s.requests, req.cltNonce ≠ 0 ∧
    (0 < req.xid ∧ req.xid < (s.clients req.cltNonce).xid) ∧
    req.xidRep ≤ first (s.clients req.cltNonce).xidRepWindow
  taken : ∀ req ∈ s.server.running, req ∈ s.requests
  ended : ∀ req pdu, .finished req pdu ∈ tr → req ∈ s.requests
  replied : ∀ n pdu, (n, pdu) ∈ s.replies → 0 < pdu.xid ∧ pdu.xid < (s.clients n).xid
  fronts : ∀ n, n ≠ 0 → front (s.server.replyWindow n) ≤ first (s.clients n).xidRepWindow

/-- A step of one client that gives up nothing keeps the messages and the server in order. -/
theorem Ordered.setClient (h : Ordered tr s) (hc : Sound c) (hx : (s.clients n).xid ≤ c.xid)
    (hf : first (s.clients n).xidRepWindow ≤ first c.xidRepWindow)
    (hl : ∀ req pdu, .finished req pdu ≠ l)
    (hcount : ∀ m, ((s.setClient n c).clients m).xid = 1 + (tr ++ [l]).countP (isCall m)) :
    Ordered (tr ++ [l]) (s.setClient n c) := by
  have hgrow : ∀ m, (s.clients m).xid ≤ ((s.setClient n c).clients m).xid ∧
      first (s.clients m).xidRepWindow ≤ first ((s.setClient n c).clients m).xidRepWindow := by
    intro m
    by_cases hm : m = n
    · subst hm
      simpa only [System.setClient, Function.update_self] using ⟨hx, hf⟩
    · simp only [System.setClient, Function.update_of_ne hm, le_refl, and_self]
  refine ⟨?_, hcount, ?_, h.taken, fun req pdu hm => h.ended req pdu (mem_snoc_of_ne hm (hl req pdu)),
    ?_, ?_⟩
  · intro m
    by_cases hm : m = n
    · subst hm
      simpa only [System.setClient, Function.update_self] using hc
    · simpa only [System.setClient, Function.update_of_ne hm] using h.sound m
  · intro req hreq
    obtain ⟨hne, ⟨hpos, hlt⟩, hrep⟩ := h.sent req hreq
    have := hgrow req.cltNonce
    exact ⟨hne, ⟨hpos, by omega⟩, by omega⟩
  · intro m pdu hp
    have := h.replied m pdu hp
    have := hgrow m
    omega
  · intro m hm
    exact (h.fronts m hm).trans (hgrow m).2

theorem countP_snoc_of_not (m : ℕ) (h : isCall m l = false) :
    (tr ++ [l]).countP (isCall m) = tr.countP (isCall m) := by
  rw [List.countP_append, List.countP_singleton, h]
  rfl

theorem Ordered.call (h : Ordered tr s) {proc srvNonce : ℕ} {args : Str} (hn : n ≠ 0)
    (hsmall : (s.clients n).xid + 1 < 2 ^ 32) :
    Ordered (tr ++ [.called n (s.clients n).xid])
      { s.setClient n ((s.clients n).call1 n proc srvNonce args).1 with
        requests := s.requests ++ [((s.clients n).call1 n proc srvNonce args).2] } := by
  have hc := (h.sound n).call1 hsmall n proc srvNonce args
  have hx : ((s.clients n).call1 n proc srvNonce args).1.xid = (s.clients n).xid + 1 :=
    Nat.mod_eq_of_lt hsmall
  have hord := h.setClient (l := .called n (s.clients n).xid) (n := n) hc (by omega) (le_refl _)
    (by simp) (by
    intro m
    by_cases hm : m = n
    · subst hm
      simp only [System.setClient, Function.update_self, List.countP_append, List.countP_singleton,
        isCall, decide_true, if_true, hx, h.counted m]
      omega
    · rw [countP_snoc_of_not m (by simpa [isCall] using Ne.symm hm), ← h.counted m]
      simp only [System.setClient, Function.update_of_ne hm])
  refine ⟨hord.sound, hord.counted, ?_, fun req hreq => List.mem_append_left _ (h.taken req hreq),
    fun req pdu hm => List.mem_append_left _ (hord.ended req pdu hm), hord.replied, hord.fronts⟩
  intro req hreq
  rcases List.mem_append.1 hreq with hreq | hreq
  · exact hord.sent req hreq
  · obtain rfl := List.mem_singleton.1 hreq
    refine ⟨hn, ?_, ?_⟩
    · have hpos := (h.sound n).pos
      simp only [System.setClient, Rpcc.call1, Function.update_self] at hx ⊢
      omega
    · simp only [System.setClient, Rpcc.call1, Function.update_self, le_refl]

theorem Ordered.dispatch (hr : Run Step (System.start nonce procs) tr s) (h : Ordered tr s)
    (hm : req ∈ s.requests) {srv : Rpcs} {st : Option (RpcState ReplyPdu)} {out : List ReplyPdu}
    (hd : Dispatches s.server req srv st out) :
    Ordered (tr ++ [.dispatched req st])
      { s with server := srv, replies := s.replies ++ out.map (req.cltNonce, ·) } := by
  obtain ⟨hne, hlt, hrep⟩ := h.sent req hm
  refine ⟨h.sound, fun n => by rw [countP_snoc_of_not n rfl]; exact h.counted n, h.sent, ?_,
    fun req pdu hm => h.ended req pdu (mem_snoc_of_ne hm (by simp)), ?_, ?_⟩
  · intro busy hb
    dsimp only at hb
    rw [hd.running] at hb
    split_ifs at hb
    · rcases List.mem_append.1 hb with hb | hb
      · exact h.taken busy hb
      · rw [List.mem_singleton.1 hb]
        exact hm
    · exact h.taken busy hb
  · intro n pdu hp
    rcases List.mem_append.1 hp with hp | hp
    · exact h.replied n pdu hp
    · obtain ⟨pdu', hout, he⟩ := List.mem_map.1 hp
      cases he
      have hx : pdu.xid = req.xid := by
        rcases hd.sent pdu hout with hneg | ⟨-, sz, rfl⟩
        · exact hneg.2
        · obtain ⟨req', hm', -, hx⟩ := finished_of_done hr hne hd
          rw [(run_honest hr).ended req' pdu hm', hx]
      rw [hx]
      exact hlt
  · intro n hn
    dsimp only
    by_cases hc : n = req.cltNonce
    · subst hc
      rcases st with _ | st
      · rw [hd.others _ (.inl rfl)]
        exact h.fronts _ hn
      · cases hd.window st rfl hn with
        | check hlt he =>
          rcases (checks_of_eq (run_remembers (run_window hn hr)).increasing hlt he).front_eq with
            hf | hf
          · rw [hf]
            exact h.fronts _ hn
          · rw [hf]
            exact hrep
    · rw [hd.others n (.inr (.inr hc))]
      exact h.fronts n hn

theorem Ordered.finish (h : Ordered tr s) (hm : req ∈ s.server.running) {srv : Rpcs} {rep : Str}
    (hf : Finishes s.server req ⟨req.xid, ret, rep⟩ srv) :
    Ordered (tr ++ [.finished req ⟨req.xid, ret, rep⟩])
      { s with server := srv, replies := s.replies ++ [(req.cltNonce, ⟨req.xid, ret, rep⟩)] } := by
  refine ⟨h.sound, fun n => by rw [countP_snoc_of_not n rfl]; exact h.counted n, h.sent, ?_, ?_, ?_,
    ?_⟩
  · intro busy hb
    dsimp only at hb
    rw [hf.running] at hb
    exact h.taken busy (List.mem_of_mem_erase hb)
  · intro req' pdu hm'
    rcases List.mem_append.1 hm' with hm' | hm'
    · exact h.ended req' pdu hm'
    · cases List.mem_singleton.1 hm'
      exact h.taken req hm
  · intro n pdu hp
    rcases List.mem_append.1 hp with hp | hp
    · exact h.replied n pdu hp
    · cases List.mem_singleton.1 hp
      exact (h.sent req (h.taken req hm)).2.1
  · intro n hn
    dsimp only
    by_cases hc : n = req.cltNonce
    · subst hc
      cases hf.window hn with
      | reply ha =>
        rw [front_addReply ha]
        exact h.fronts _ hn
    · rw [hf.others n (.inr hc)]
      exact h.fronts n hn

theorem Ordered.step (hr : Run Step (System.start nonce procs) tr s) (h : Ordered tr s)
    (hs : Step s l s') (hcalls : ∀ n, (tr ++ [l]).countP (isCall n) < 2 ^ 32 - 1) :
    Ordered (tr ++ [l]) s' := by
  have hother : ∀ {n c}, (s.clients n).xid = c.xid → (∀ m, isCall m l = false) →
      ∀ m, ((s.setClient n c).clients m).xid = 1 + (tr ++ [l]).countP (isCall m) := by
    intro n c hx hl m
    rw [countP_snoc_of_not m (hl m), ← h.counted m]
    by_cases hm : m = n
    · subst hm
      simp only [System.setClient, Function.update_self, hx]
    · simp only [System.setClient, Function.update_of_ne hm]
  cases hs with
  | call n proc srvNonce args hn =>
    apply h.call hn
    have hn' := hcalls n
    rw [List.countP_append, List.countP_singleton] at hn'
    simp only [isCall, decide_true, if_true] at hn'
    rw [h.counted n]
    omega
  | leave n x ca hca =>
    obtain ⟨hc, hf⟩ := (h.sound n).leave hca
    exact h.setClient hc (le_refl _) hf (by simp) (hother rfl fun _ => rfl)
  | dispatch req hm hd => exact h.dispatch hr hm (dispatch_spec hd)
  | finish req hm ret rep hf => exact h.finish hm (finish_spec hf)
  | receive n pdu hm =>
    obtain ⟨hc, hf⟩ := (h.sound n).gotPdu (h.replied n pdu hm)
    have hx := (gotPdu_frame (s.clients n) pdu).1
    exact h.setClient hc hx.ge hf (by simp) (hother hx.symm fun _ => rfl)

theorem ordered_start : Ordered [] (System.start nonce procs) := by
  refine ⟨?_, fun _ => rfl, by simp [System.start], by simp [System.start], by simp,
    by simp [System.start], ?_⟩
  · intro n
    refine ⟨Nat.one_pos, (by decide : 1 < 2 ^ 32), ?_, List.cons_ne_nil _ _,
      List.pairwise_singleton _ _, ?_, ?_⟩
    · intro x ca hca
      cases hca
    · intro x hx
      exact .inl (List.mem_singleton.1 hx)
    · intro x hpos hle
      exact absurd hle (not_le.2 hpos)
  · intro n _
    exact Nat.zero_le _

theorem run_ordered (hr : Run Step (System.start nonce procs) tr s)
    (hcalls : ∀ n, tr.countP (isCall n) < 2 ^ 32 - 1) : Ordered tr s := by
  refine hr.history_invariant (I := fun tr s => (∀ n, tr.countP (isCall n) < 2 ^ 32 - 1) →
    Ordered tr s) (fun _ => ordered_start) ?_ hcalls
  intro tr b l c hrun ih hs hcalls
  refine (ih ?_).step hrun hs hcalls
  intro n
  have := hcalls n
  rw [List.countP_append] at this
  omega

/-! ## The guarantee -/

/-- In every run in which no client runs out of xids: a handler is run at most once for a nonce
and xid; a call that returns a number that is not negative has had its handler run exactly once,
and holds the reply of that run; and no request whose call is waiting is forgotten. -/
theorem at_most_once (hr : Run Step (System.start nonce procs) tr s)
    (hcalls : ∀ n, tr.countP (isCall n) < 2 ^ 32 - 1) :
    (∀ n xid, n ≠ 0 → tr.countP (isStart n xid) ≤ 1) ∧
    (∀ n xid ret rep, .returned n xid ret rep ∈ tr → 0 ≤ ret →
      tr.countP (isStart n xid) = 1 ∧ tr.countP (isEnd n xid) = 1 ∧
        ∃ req pdu, .finished req pdu ∈ tr ∧ req.cltNonce = n ∧ req.xid = xid ∧
          rep = some pdu ∧ ret = pdu.ret) ∧
    (∀ req ∈ s.requests, ∀ ca, (s.clients req.cltNonce).calls req.xid = some ca → ca.done = false →
      ∀ srv out, s.server.dispatch req ≠ some (srv, some .forgotten, out)) := by
  have hord := run_ordered hr hcalls
  refine ⟨fun n xid hn => start_once hn xid hr, ?_, ?_⟩
  · intro n xid ret rep hm hret
    obtain ⟨pdu, hrep, hpdu, hx, hg⟩ := (run_honest hr).returned n xid ret rep hm hret
    rcases hg with hneg | ⟨req, hfin, hc, hreq⟩
    · omega
    have hn : n ≠ 0 := hc ▸ (hord.sent req (hord.ended req pdu hfin)).1
    have honce := start_once hn xid hr
    have hbal := start_balance n xid hr
    have hend : 0 < tr.countP (isEnd n xid) :=
      List.countP_pos_iff.2 ⟨_, hfin, isFor_iff.2 ⟨hc, hreq.trans hx⟩⟩
    exact ⟨by omega, by omega, req, pdu, hfin, hc, hreq.trans hx, hrep, hpdu.symm⟩
  · intro req hm ca hca hwait srv out hd
    have hn := (hord.sent req hm).1
    -- the front of the list is at most what was acknowledged, and that is below the call
    have hfirst := (hord.sound req.cltNonce).first_lt_waiting hca hwait
    have hfront := hord.fronts req.cltNonce hn
    cases (dispatch_spec hd).window _ rfl hn with
    | check hrep he =>
      rcases (checks_of_eq (run_remembers (run_window hn hr)).increasing hrep he).told with
        ⟨-, hle, -⟩ | ⟨-, r, -, -, hst⟩ | ⟨-, -, -, hst⟩
      · omega
      · unfold repeated at hst
        split_ifs at hst
      · cases hst

end Yfs.AtMostOnce
