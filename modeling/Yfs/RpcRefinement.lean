import Yfs.ClientCalls
import Mathlib.Data.Multiset.Filter
import Mathlib.Logic.Relation

/-!
# The sections of an RPC server and client

`RpcSystem` takes what happens to a request, or to a call, in as few steps as it can. The threads
of `ConnectionRefs` and `RpcClient` do the same in sections between which others run. Without its
connections the server of the one is the server of the other, and so are the clients.
-/

namespace Yfs.RpcRefinement
open LabelledRuns RpcSystem
open LockProtocol (Str)
open ReplyWindow (RpcState checkDuplicateAndUpdate addReply)
open ConnectionRefs (Server Job Phase Djob)

/-! ## The server -/

/-- The requests whose handlers are at work. -/
def handlers (jobs : Multiset Job) : Multiset Request :=
  (jobs.filter (·.phase = .handling)).map (·.req)

/-- The server without its connections. -/
structure Serves (s : Server) (srv : Rpcs) : Prop where
  nonce : srv.nonce = s.nonce
  procs : srv.procs = s.procs
  window : srv.replyWindow = s.replyWindow
  running : (srv.running : Multiset Request) = handlers s.running

/-- A request that has passed the first tests of `dispatch`. -/
structure Passed (s : Server) (job : Job) : Prop where
  current : ¬(job.req.srvNonce ≠ 0 ∧ job.req.srvNonce ≠ s.nonce)
  known : job.req.proc ∈ s.procs
  named : job.phase = .saving ∨ job.phase = .checking → job.req.cltNonce ≠ 0

variable {s s' : Server} {srv : Rpcs} {job job' : Job} {jobs : Multiset Job}
  {l : ConnectionRefs.Label} {tr : List ConnectionRefs.Label} {nonce : ℕ} {procs : List ℕ}

theorem handlers_cons_of_handling (h : job.phase = .handling) :
    handlers (job ::ₘ jobs) = job.req ::ₘ handlers jobs := by
  simp [handlers, h]

theorem handlers_cons_of_not (h : job.phase ≠ .handling) :
    handlers (job ::ₘ jobs) = handlers jobs := by
  simp [handlers, h]

/-- What `RpcSystem` does with a request that is checked for being a duplicate. -/
theorem Serves.check {r : List (ReplyWindow.ReplyT ReplyPdu) × RpcState ReplyPdu}
    (h : Serves s srv) (hp : Passed s job) (hphase : job.phase = .checking)
    (hc : checkDuplicateAndUpdate job.req.xid job.req.xidRep
      (s.replyWindow job.req.cltNonce) = some r) :
    ∃ out, srv.dispatch job.req =
      some (((srv.setWindow job.req.cltNonce r.1).switch job.req r.2).1, some r.2, out) := by
  unfold Rpcs.dispatch
  rw [h.nonce, h.procs, h.window, if_neg hp.current, if_neg (not_not.2 hp.known),
    if_neg (hp.named (.inr hphase)), hc]
  exact ⟨_, rfl⟩

theorem serves_switch (job : Job) (st : RpcState ReplyPdu)
    {w : ℕ → List (ReplyWindow.ReplyT ReplyPdu)}
    (hnonce : srv.nonce = s.nonce) (hprocs : srv.procs = s.procs) (hwindow : srv.replyWindow = w)
    (hrunning : (srv.running : Multiset Request) = handlers jobs) :
    Serves { s with
      replyWindow := w
      running := { job with phase := ConnectionRefs.afterCheck st } ::ₘ jobs }
      (srv.switch job.req st).1 := by
  refine ⟨(switch_nonce st).trans hnonce, ?_, (switch_replyWindow st).trans hwindow, ?_⟩
  · cases st <;> exact hprocs
  · rw [switch_running]
    cases st with
    | new =>
      rw [if_pos rfl, handlers_cons_of_handling rfl, ← Multiset.coe_add, hrunning,
        Multiset.coe_singleton, Multiset.add_comm, Multiset.singleton_add]
    | _ =>
      rw [if_neg (by simp), hrunning]
      exact (handlers_cons_of_not (by simp [ConnectionRefs.afterCheck])).symm

/-- A section of `dispatch` is a step of the server without connections, or none. -/
theorem Serves.advance {ret : ℤ} {rep : Str} {next : Option Job} (h : Serves s srv)
    (hm : job ∈ s.running) (hp : Passed s job)
    (hx : ConnectionRefs.advance ret rep job s = some (s', next)) :
    ∃ evs srv', Run ServerStep srv evs srv' ∧
      Serves { s' with running := (next.toList : Multiset Job) + s.running.erase job } srv' := by
  have hjobs := Multiset.cons_erase hm
  have hrunning := h.running
  rw [← hjobs] at hrunning
  generalize s.running.erase job = jobs at hrunning
  cases hphase : job.phase with
  | saving =>
    simp only [ConnectionRefs.advance, hphase] at hx
    obtain ⟨r, -, he⟩ := Option.map_eq_some_iff.1 hx
    cases he
    refine ⟨[], srv, .nil, h.nonce, h.procs, h.window, ?_⟩
    rw [hrunning, handlers_cons_of_not (by simp [hphase])]
    exact (handlers_cons_of_not (by simp)).symm
  | checking =>
    simp only [ConnectionRefs.advance, hphase] at hx
    obtain ⟨r, hc, he⟩ := Option.map_eq_some_iff.1 hx
    cases he
    obtain ⟨out, hd⟩ := h.check hp hphase hc
    refine ⟨_, _, .single (.dispatch job.req hd), ?_⟩
    rw [handlers_cons_of_not (by simp [hphase])] at hrunning
    refine serves_switch job r.2 h.nonce h.procs ?_ hrunning
    rw [← h.window]
    rfl
  | handling =>
    simp only [ConnectionRefs.advance, hphase] at hx
    rw [handlers_cons_of_handling hphase] at hrunning
    have hin : job.req ∈ srv.running := by
      rw [← Multiset.mem_coe, hrunning]
      exact Multiset.mem_cons_self _ _
    have hrest : ((srv.running.erase job.req : List Request) : Multiset Request) =
        handlers jobs := by
      rw [← Multiset.coe_erase, hrunning, Multiset.erase_cons_head]
    split_ifs at hx with hneg hzero
    · cases hx
      refine ⟨_, { srv with running := srv.running.erase job.req },
        .single (.finish job.req hin ret rep ?_), h.nonce, h.procs, h.window, ?_⟩
      · simp only [Rpcs.finish]
        rw [if_neg hneg, if_pos hzero]
      · refine hrest.trans ?_
        exact (handlers_cons_of_not (by simp)).symm
    · obtain ⟨w, hadd, he⟩ := Option.map_eq_some_iff.1 hx
      cases he
      refine ⟨_, Rpcs.setWindow { srv with running := srv.running.erase job.req } job.req.cltNonce w,
        .single (.finish job.req hin ret rep ?_), h.nonce, h.procs, ?_, ?_⟩
      · simp only [Rpcs.finish]
        rw [if_neg hneg, if_neg hzero, h.window, hadd]
        rfl
      · simp only [Rpcs.setWindow, h.window]
      · refine hrest.trans ?_
        exact (handlers_cons_of_not (by simp)).symm
  | replying =>
    simp only [ConnectionRefs.advance, hphase] at hx
    obtain ⟨r, -, he⟩ := Option.map_eq_some_iff.1 hx
    cases he
    refine ⟨[], srv, .nil, h.nonce, h.procs, h.window, ?_⟩
    rw [hrunning, handlers_cons_of_not (by simp [hphase])]
    exact (handlers_cons_of_not (by simp)).symm
  | leaving =>
    simp only [ConnectionRefs.advance, hphase] at hx
    obtain ⟨heap, -, he⟩ := Option.map_eq_some_iff.1 hx
    cases he
    refine ⟨[], srv, .nil, h.nonce, h.procs, h.window, ?_⟩
    rw [hrunning, handlers_cons_of_not (by simp [hphase])]
    simp

/-- The start of `dispatch` is a step of the server without connections when it comes to an answer
or to the handler at once. -/
theorem Serves.dispatch {j : Djob} {heap : ConnectionRefs.Heap} {queue : List Djob}
    {next : Option Job} (h : Serves s srv)
    (hx : ConnectionRefs.dispatch s j = some (heap, next)) :
    ∃ evs srv', Run ServerStep srv evs srv' ∧
      Serves { s with heap, queue, running := (next.toList : Multiset Job) + s.running } srv' := by
  unfold ConnectionRefs.dispatch at hx
  split at hx
  · obtain ⟨heap', -, he⟩ := Option.map_eq_some_iff.1 hx
    cases he
    exact ⟨[], srv, .nil, h.nonce, h.procs, h.window, by simpa using h.running⟩
  · rename_i req _
    split_ifs at hx with hold hproc hzero
    · cases hx
      have hd : srv.dispatch req = some (srv, none, [⟨req.xid, oldsrvFailure, []⟩]) := by
        rw [Rpcs.dispatch, h.nonce, if_pos hold]
      exact ⟨_, srv, .single (.dispatch req hd), h.nonce, h.procs, h.window,
        by simpa using h.running⟩
    · cases hx
      refine ⟨[], srv, .nil, h.nonce, h.procs, h.window, ?_⟩
      rw [h.running]
      exact (handlers_cons_of_not (by simp)).symm
    · cases hx
      have hd : srv.dispatch req = some ((srv.switch req .new).1, some .new, []) := by
        rw [Rpcs.dispatch, h.nonce, h.procs, if_neg hold, if_neg (not_not.2 hproc),
          if_pos (not_not.1 hzero)]
        rfl
      have hnew := serves_switch ⟨j.conn, req, .handling⟩ .new h.nonce h.procs h.window h.running
      exact ⟨_, _, .single (.dispatch req hd), hnew.nonce, hnew.procs, hnew.window, hnew.running⟩

theorem passed_dispatch {j : Djob} {heap : ConnectionRefs.Heap}
    (hx : ConnectionRefs.dispatch s j = some (heap, some job)) : Passed s job := by
  unfold ConnectionRefs.dispatch at hx
  split at hx
  · obtain ⟨heap', -, he⟩ := Option.map_eq_some_iff.1 hx
    cases he
  · split_ifs at hx with hold hproc hzero
    · cases hx
    · cases hx
      exact ⟨hold, hproc, fun _ => hzero⟩
    · cases hx
      exact ⟨hold, hproc, by simp⟩

/-- A job goes on with its request, to the tables of the same server. -/
theorem passed_advance {ret : ℤ} {rep : Str} (hp : Passed s job)
    (hx : ConnectionRefs.advance ret rep job s = some (s', some job')) : Passed s' job' := by
  cases hphase : job.phase with
  | saving =>
    simp only [ConnectionRefs.advance, hphase] at hx
    obtain ⟨r, -, he⟩ := Option.map_eq_some_iff.1 hx
    cases he
    exact ⟨hp.current, hp.known, fun _ => hp.named (.inl hphase)⟩
  | checking =>
    simp only [ConnectionRefs.advance, hphase] at hx
    obtain ⟨⟨w, st⟩, -, he⟩ := Option.map_eq_some_iff.1 hx
    cases he
    exact ⟨hp.current, hp.known, fun _ => hp.named (.inr hphase)⟩
  | handling =>
    simp only [ConnectionRefs.advance, hphase] at hx
    split_ifs at hx
    · cases hx
      exact ⟨hp.current, hp.known, by simp⟩
    · obtain ⟨w, -, he⟩ := Option.map_eq_some_iff.1 hx
      cases he
      exact ⟨hp.current, hp.known, by simp⟩
  | replying =>
    simp only [ConnectionRefs.advance, hphase] at hx
    obtain ⟨r, -, he⟩ := Option.map_eq_some_iff.1 hx
    cases he
    exact ⟨hp.current, hp.known, by simp⟩
  | leaving =>
    simp only [ConnectionRefs.advance, hphase] at hx
    obtain ⟨heap, -, he⟩ := Option.map_eq_some_iff.1 hx
    cases he

theorem advance_frame {ret : ℤ} {rep : Str} {next : Option Job}
    (hx : ConnectionRefs.advance ret rep job s = some (s', next)) :
    s'.nonce = s.nonce ∧ s'.procs = s.procs := by
  cases hphase : job.phase <;> simp only [ConnectionRefs.advance, hphase] at hx
  case handling =>
    split_ifs at hx
    · cases hx
      exact ⟨rfl, rfl⟩
    · obtain ⟨r, -, he⟩ := Option.map_eq_some_iff.1 hx
      cases he
      exact ⟨rfl, rfl⟩
  all_goals
    obtain ⟨r, -, he⟩ := Option.map_eq_some_iff.1 hx
    cases he
    exact ⟨rfl, rfl⟩

theorem passed_step (h : ∀ job ∈ s.running, Passed s job) (hs : ConnectionRefs.Step s l s') :
    ∀ job ∈ s'.running, Passed s' job := by
  cases hs with
  | @dispatch j queue heap next hq hfree hx =>
    intro job hj
    rcases Multiset.mem_add.1 hj with hj | hj
    · obtain rfl : next = some job := Option.mem_toList.1 (Multiset.mem_coe.1 hj)
      have hp := passed_dispatch hx
      exact ⟨hp.current, hp.known, hp.named⟩
    · have hp := h job hj
      exact ⟨hp.current, hp.known, hp.named⟩
  | @advance _ job next hm ret rep hx =>
    obtain ⟨hnonce, hprocs⟩ := advance_frame hx
    intro job' hj
    rcases Multiset.mem_add.1 hj with hj | hj
    · obtain rfl : next = some job' := Option.mem_toList.1 (Multiset.mem_coe.1 hj)
      have hp := passed_advance (h job hm) hx
      exact ⟨hp.current, hp.known, hp.named⟩
    · have hp := h job' (Multiset.mem_of_mem_erase hj)
      exact ⟨by rw [hnonce]; exact hp.current, by rw [hprocs]; exact hp.known, hp.named⟩
  | _ =>
    intro job hj
    have hp := h job hj
    exact ⟨hp.current, hp.known, hp.named⟩

theorem Serves.step (h : Serves s srv) (hp : ∀ job ∈ s.running, Passed s job)
    (hs : ConnectionRefs.Step s l s') :
    ∃ evs srv', Run ServerStep srv evs srv' ∧ Serves s' srv' := by
  cases hs with
  | dispatch hq hfree hx => exact h.dispatch hx
  | advance job hm ret rep hx => exact h.advance hm (hp job hm) hx
  | _ => exact ⟨[], srv, .nil, h.nonce, h.procs, h.window, h.running⟩

/-- Whatever its connections go through, the server does the steps of the one without them. -/
theorem run_serves (hr : Run ConnectionRefs.Step (ConnectionRefs.start nonce procs) tr s) :
    ∃ evs srv, Run ServerStep { nonce, procs } evs srv ∧ Serves s srv := by
  have hinv : (∀ job ∈ s.running, Passed s job) ∧
      ∃ evs srv, Run ServerStep { nonce, procs } evs srv ∧ Serves s srv := by
    refine hr.invariant (I := fun s => (∀ job ∈ s.running, Passed s job) ∧
      ∃ evs srv, Run ServerStep { nonce, procs } evs srv ∧ Serves s srv)
      ⟨?_, [], _, .nil, rfl, rfl, rfl, rfl⟩ ?_
    · intro job hj
      cases hj
    · rintro s l s' ⟨hp, evs, srv, hrun, hsrv⟩ hs
      obtain ⟨evs', srv', hrun', hsrv'⟩ := hsrv.step hp hs
      exact ⟨passed_step hp hs, evs ++ evs', srv', hrun.append hrun', hsrv'⟩
  exact hinv.2

/-- No two threads of a server are in the handler for one call. -/
theorem handlers_apart {n : ℕ} (hr : Run ConnectionRefs.Step (ConnectionRefs.start nonce procs) tr s)
    (hn : n ≠ 0) (xid : ℕ) : (handlers s.running).countP (isFor n xid ·) ≤ 1 := by
  obtain ⟨evs, srv, hrun, hsrv⟩ := run_serves hr
  have honce := server_once hn xid hrun
  have hbal := server_balance n xid hrun
  rw [← hsrv.running, Multiset.coe_countP]
  simp only [Bool.decide_eq_true]
  change srv.running.countP (isFor n xid) ≤ 1
  omega

/-! ## The client -/

section Client
open RpcClient ClientCalls Monitors

/-- The client without its connections, in which a call is found under its xid. -/
def plain (s : Client) : Rpcc where
  xid := s.xid
  calls x := (s.calls.lookup x).bind s.callers
  xidRepWindow := s.xidRepWindow

/-- What the steps of `RpcSystem` do to a client. -/
inductive ClientStep : Rpcc → Rpcc → Prop where
  | call1 {c : Rpcc} (n proc srvNonce : ℕ) (args : Str) :
      ClientStep c (c.call1 n proc srvNonce args).1
  | leave {c : Rpcc} (xid : ℕ) (h : c.calls xid ≠ none) : ClientStep c (c.leave xid)
  | gotPdu {c : Rpcc} (pdu : ReplyPdu) : ClientStep c (c.gotPdu pdu)

variable {c c' : Client} {vs : List View} {u : Role} {op : Op} {i : ℕ} {f : Frame} {inp : Input}
  {ns : List (Notice Cond)} {e : Ended Op Result Cond} {pdu : ReplyPdu}

theorem rpcc_ext {a b : Rpcc} (hxid : a.xid = b.xid) (hcalls : a.calls = b.calls)
    (hwindow : a.xidRepWindow = b.xidRepWindow) : a = b := by
  obtain ⟨xid, calls, window⟩ := a
  obtain rfl : xid = b.xid := hxid
  obtain rfl : calls = b.calls := hcalls
  obtain rfl : window = b.xidRepWindow := hwindow
  rfl

theorem lookup_filter_ne (l : List (ℕ × ℕ)) (k x : ℕ) :
    (l.filter (·.1 ≠ k)).lookup x = if x = k then none else l.lookup x := by
  induction l with
  | nil => simp
  | cons p l ih =>
    obtain ⟨y, a⟩ := p
    by_cases hy : y = k
    · rw [List.filter_cons_of_neg (by simp [hy]), ih, List.lookup_cons]
      by_cases hx : x = k
      · simp [hx]
      · have hxy : (x == y) = false := by simp [hy, hx]
        simp [hx, hxy]
    · rw [List.filter_cons_of_pos (by simp [hy]), List.lookup_cons, List.lookup_cons, ih]
      by_cases hx : x = k
      · subst hx
        have hxy : (x == y) = false := by simpa using Ne.symm hy
        simp [hxy]
      · simp [hx]

/-- A call is listed under the number that follows its own. -/
theorem lookup_calls {x a : ℕ} (h : Table c vs) (hl : c.calls.lookup x = some a) :
    x = a + 1 ∧ a ∈ vs.filterMap listedOf := by
  obtain ⟨l₁, l₂, hsplit, -⟩ := List.lookup_eq_some_iff.mp hl
  have hmem : (x, a) ∈ c.calls := by
    rw [hsplit]
    exact List.mem_append_right _ List.mem_cons_self
  obtain ⟨b, hb, he⟩ := List.mem_map.mp (h.calls.mem_iff.mp hmem)
  cases he
  exact ⟨rfl, hb⟩

theorem plain_congr (h : SameCalls c c') : plain c' = plain c := by
  apply rpcc_ext
  · exact h.xid
  · simp only [plain, h.calls, h.callers]
  · exact h.xidRepWindow

theorem plain_enter (proc : ℕ) (h : Table c vs) :
    plain (enter proc c).1 = plain c ∨ ClientStep (plain c) (plain (enter proc c).1) := by
  unfold enter
  split_ifs
  · exact .inl rfl
  · exact .inl rfl
  · refine .inr ?_
    have hcalls : plain { c with
        xid := (c.xid + 1) % 2 ^ 32
        calls := (c.xid, c.born) :: c.calls.filter (·.1 ≠ c.xid)
        callers := Function.update c.callers c.born (some {})
        born := c.born + 1 } = ((plain c).call1 0 0 0 []).1 := by
      refine rpcc_ext rfl (funext fun x => ?_) rfl
      simp only [plain, Rpcc.call1, List.lookup_cons, lookup_filter_ne]
      by_cases hx : x = c.xid
      · subst hx
        simp
      · rw [Function.update_of_ne hx]
        have hxy : (x == c.xid) = false := by simpa using hx
        simp only [hxy, hx, if_false]
        cases hl : c.calls.lookup x with
        | none => rfl
        | some a =>
          have hborn := h.born a ((listed_sublist vs).subset (lookup_calls h hl).2)
          exact Function.update_of_ne (Nat.ne_of_lt hborn) _ _
    rw [hcalls]
    exact .call1 0 0 0 []

theorem plain_leave (h : Table c vs) (hi : vs[i]? = some (u, some (.leave f))) :
    ClientStep (plain c) (plain (leave f c).1) := by
  have hstep : plain (leave f c).1 = (plain c).leave f.xid := by
    refine rpcc_ext rfl (funext fun x => ?_) rfl
    simp only [plain, leave, Rpcc.leave, lookup_filter_ne]
    by_cases hx : x = f.xid
    · subst hx
      simp
    · rw [Function.update_of_ne hx, if_neg hx]
  rw [hstep]
  refine .leave f.xid ?_
  -- the call is listed, and its caller is on the stack of the thread
  have hxid := h.xids _ (List.mem_of_getElem? hi) f rfl
  have hlisted : f.caller ∈ vs.filterMap listedOf :=
    List.mem_filterMap.mpr ⟨_, List.mem_of_getElem? hi, rfl⟩
  have hmem : (f.xid, f.caller) ∈ c.calls :=
    h.calls.mem_iff.mpr (List.mem_map.mpr ⟨_, hlisted, by rw [hxid]⟩)
  obtain ⟨a, ha⟩ : ∃ a, c.calls.lookup f.xid = some a := by
    cases hl : c.calls.lookup f.xid with
    | none =>
      have hne := List.lookup_eq_none_iff.mp hl _ hmem
      simp at hne
    | some a => exact ⟨a, rfl⟩
  have hcaller : a = f.caller := by
    have := (lookup_calls h ha).1
    omega
  subst hcaller
  simp only [plain, ha, Option.bind_some]
  exact h.own_alive hi rfl

theorem plain_ret {heap : ConnectionRefs.Heap} (h : Table c vs)
    (hi : vs[i]? = some (u, some (.ret f))) :
    plain { c with heap, callers := Function.update c.callers f.caller none } = plain c := by
  refine rpcc_ext rfl (funext fun x => ?_) rfl
  simp only [plain]
  cases hl : c.calls.lookup x with
  | none => rfl
  | some a =>
    refine Function.update_of_ne ?_ _ _
    rintro rfl
    -- two threads would be in one call
    have hcalls : (f.caller :: (vs.set i (u, none)).filterMap callOf).Perm
        (vs.filterMap callOf) := by
      have hset := filterMap_set callOf (b := (u, none)) hi
      exact (List.perm_append_singleton _ _).symm.trans
        (hset.trans (List.Perm.of_eq (List.append_nil _)))
    have hlisted : ((vs.set i (u, none)).filterMap listedOf).Perm (vs.filterMap listedOf) :=
      perm_of_keep hi rfl
    exact (List.nodup_cons.mp (hcalls.nodup_iff.mpr h.nodup)).1
      ((listed_sublist _).subset (hlisted.mem_iff.mpr (lookup_calls h hl).2))

theorem plain_gotPdu (h : Table c vs) (hx : gotPdu pdu c = some (c', ns, e)) :
    plain c' = (plain c).gotPdu pdu := by
  simp only [gotPdu] at hx
  cases hl : c.calls.lookup pdu.xid with
  | none =>
    rw [hl] at hx
    cases hx
    have hnone : (plain c).calls pdu.xid = none := by simp [plain, hl]
    simp only [Rpcc.gotPdu, hnone]
    rfl
  | some a =>
    rw [hl] at hx
    obtain ⟨ca, hca, he⟩ := Option.map_eq_some_iff.1 hx
    have hsome : (plain c).calls pdu.xid = some ca := by
      simpa [plain, hl] using hca
    simp only [Rpcc.gotPdu, hsome]
    by_cases hdone : ca.done = true
    · rw [if_pos hdone] at he ⊢
      cases he
      rfl
    · rw [if_neg hdone] at he ⊢
      cases he
      refine rpcc_ext rfl (funext fun x => ?_) rfl
      simp only [plain]
      by_cases hxx : x = pdu.xid
      · subst hxx
        simp [hl]
      · rw [Function.update_of_ne hxx]
        cases hl' : c.calls.lookup x with
        | none => rfl
        | some b =>
          have h₁ := (lookup_calls h hl).1
          have h₂ := (lookup_calls h hl').1
          exact Function.update_of_ne (by omega) _ _

/-- A section of the client, other than `cancel`, does what one of the steps of `RpcSystem` does to
it, or nothing. -/
theorem plain_exec (h : Table c vs) (hi : vs[i]? = some (u, some op))
    (hx : exec inp c op = some (c', ns, e)) (hop : op ≠ .cancel) :
    plain c' = plain c ∨ ClientStep (plain c) (plain c') := by
  cases op with
  | call1 proc =>
    have hx : enter proc c = (c', ns, e) := Option.some.inj hx
    have hstep := plain_enter proc h
    rwa [hx] at hstep
  | getRefconn f =>
    obtain ⟨⟨c₁, ch⟩, hg, hx⟩ := Option.map_eq_some_iff.mp hx
    cases hx
    exact .inl (plain_congr (getRefconn_same hg))
  | send f =>
    rw [exec, send] at hx
    split at hx
    · cases hx
      exact .inl rfl
    · obtain ⟨x, -, hx⟩ := Option.map_eq_some_iff.mp hx
      cases hx
      split_ifs <;> exact .inl rfl
  | deadline f =>
    cases hx
    exact .inl rfl
  | await f =>
    obtain ⟨rfl, -, -⟩ := await_onward hx
    exact .inl rfl
  | awaited f =>
    rw [exec, awaited] at hx
    split_ifs at hx
    · obtain ⟨ca, -, hx⟩ := Option.map_eq_some_iff.mp hx
      cases hx
      exact .inl rfl
    · obtain ⟨rfl, -, -⟩ := await_onward hx
      exact .inl rfl
  | retry f =>
    obtain ⟨gone, -, hx⟩ := Option.map_eq_some_iff.mp hx
    cases hx
    exact .inl rfl
  | leave f =>
    cases hx
    exact .inr (plain_leave h hi)
  | ret f =>
    obtain ⟨ca, -, hx⟩ := Option.bind_eq_some_iff.mp hx
    obtain ⟨heap, -, hx⟩ := Option.map_eq_some_iff.mp hx
    cases hx
    exact .inl (plain_ret h hi)
  | bound =>
    cases hx
    exact .inl rfl
  | gotPdu pdu =>
    rw [plain_gotPdu h hx]
    exact .inr (.gotPdu pdu)
  | dies a =>
    cases hx
    exact .inl rfl
  | cancel => exact absurd rfl hop
  | cancelled =>
    simp only [exec, cancelled] at hx
    split_ifs at hx <;> cases hx <;> exact .inl rfl
  | destroy =>
    rw [exec, destroy] at hx
    split at hx
    · cases hx
      exact .inl rfl
    · obtain ⟨x, -, hx⟩ := Option.map_eq_some_iff.mp hx
      cases hx
      exact .inl rfl
  | destroyed =>
    obtain ⟨heap, -, hx⟩ := Option.bind_eq_some_iff.mp hx
    split_ifs at hx
    cases hx
    exact .inl rfl

/-- A section of `cancel` up to its first wait. -/
def isCancel : RpcClient.Label → Bool
  | (_, .ran _ .cancel _) => true
  | _ => false

/-- Whatever its connections go through, a client that is not cancelled does the steps of the one
without them. -/
theorem run_plain {retrans : Bool} {n m : ℕ} {tr : List RpcClient.Label} {g : State}
    (hr : Run (Monitors.Step rpcc users) (RpcClient.start retrans n m) tr g)
    (hbound : g.shared.born + 2 < 2 ^ 32) (hcancel : ∀ l ∈ tr, isCancel l = false) :
    Relation.ReflTransGen ClientStep {} (plain g.shared) := by
  induction hr with
  | nil => exact .refl
  | @snoc tr g g' l run last ih =>
    have hle := born_step last
    have hsound := Sound.run run (by omega)
    rw [List.forall_mem_append, List.forall_mem_singleton] at hcancel
    have hbefore := ih (by omega) hcancel.1
    cases last with
    | @run i t u x o s ns e ts hi ht hx hn =>
      have hview := views_getElem? hi
      rw [view_of_next ht] at hview
      have hop : o ≠ .cancel := by
        rintro rfl
        cases hcancel.2
      rcases plain_exec hsound.kept.table hview hx hop with heq | hstep
      · dsimp only
        rwa [heq]
      · exact hbefore.tail hstep
    | _ => exact hbefore

end Client

end Yfs.RpcRefinement
