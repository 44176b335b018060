import Yfs.RpcSystem

/-!
# When a reply can be recorded

A call that runs out of time is acknowledged like one that was answered, while its handler may
still be at work. The entry the handler's reply belongs to is then dropped by the next request
but one, and `add_reply` fails.
-/

namespace Yfs.RecordedReplies
open LabelledRuns RpcSystem
open ReplyWindow hiding Step

/-- Every handler at work finds the entry that its reply will be recorded in. -/
def Recordable (s : System) : Prop :=
  ∀ req ∈ s.server.running, req.cltNonce ≠ 0 →
    ∃ r ∈ s.server.replyWindow req.cltNonce, r.xid = req.xid ∧ r.cbPresent = false

/-- A request that the server takes up acknowledges nothing beyond the handlers of its client
that are still at work. -/
def Unhurried (s : System) : Label → Prop
  | .dispatched req _ => req.srvNonce = 0 ∨ req.srvNonce = s.server.nonce → req.cltNonce ≠ 0 →
      ∀ busy ∈ s.server.running, busy.cltNonce = req.cltNonce → req.xidRep ≤ busy.xid
  | _ => True

variable {s s' : System} {tr : List Label} {l : Label} {nonce : ℕ} {procs : List ℕ} {req : Request}
  {r : ReplyT ReplyPdu}

theorem increasing_window {n : ℕ} (hn : n ≠ 0) (hr : Run Step (System.start nonce procs) tr s) :
    Increasing (s.server.replyWindow n) :=
  (run_remembers (run_window hn hr)).increasing

/-- While a handler is at work its entry holds no reply. -/
theorem not_present (hr : Run Step (System.start nonce procs) tr s) (hm : req ∈ s.server.running)
    (hn : req.cltNonce ≠ 0) (hw : r ∈ s.server.replyWindow req.cltNonce) (hx : r.xid = req.xid) :
    r.cbPresent = false := by
  by_contra hcb
  obtain ⟨b, -, hb⟩ := (run_remembers (run_window hn hr)).genuine r hw (by simpa using hcb)
  obtain ⟨l, hl, he⟩ := List.mem_filterMap.1 hb
  obtain ⟨req', rfl, hc, hx'⟩ := finished_of_event he
  have hend : isEnd req.cltNonce req.xid (.finished req' b) = true :=
    isFor_iff.2 ⟨hc, hx'.trans hx⟩
  -- the handler would have been started twice
  have hend' : 0 < tr.countP (isEnd req.cltNonce req.xid) := List.countP_pos_iff.2 ⟨_, hl, hend⟩
  have hrun : 0 < s.server.running.countP (isFor req.cltNonce req.xid) :=
    List.countP_pos_iff.2 ⟨req, hm, isFor_iff.2 ⟨rfl, rfl⟩⟩
  have hbal := start_balance req.cltNonce req.xid hr
  have honce := start_once hn req.xid hr
  omega

theorem recordable_iff (hr : Run Step (System.start nonce procs) tr s) :
    Recordable s ↔ ∀ req ∈ s.server.running, req.cltNonce ≠ 0 →
      ∃ r ∈ s.server.replyWindow req.cltNonce, r.xid = req.xid := by
  constructor
  · intro h req hm hn
    obtain ⟨r, hw, hx, -⟩ := h req hm hn
    exact ⟨r, hw, hx⟩
  · intro h req hm hn
    obtain ⟨r, hw, hx⟩ := h req hm hn
    exact ⟨r, hw, hx, not_present hr hm hn hw hx⟩

/-- Recording a reply keeps the entries of all requests. -/
theorem listed_addReply {xid : ℕ} {b : ReplyPdu} {sz : ℤ} {w w' : List (ReplyT ReplyPdu)}
    (ha : addReply xid b sz w = some w') {x : ℕ} (h : ∃ r ∈ w, r.xid = x) : ∃ r ∈ w', r.xid = x := by
  have hmap := (addReply_spec ha).1
  obtain ⟨r, hr, rfl⟩ := h
  have hmem : r.xid ∈ w'.map ReplyT.xid := by
    rw [hmap]
    exact List.mem_map_of_mem hr
  obtain ⟨r', hr', hx⟩ := List.mem_map.1 hmem
  exact ⟨r', hr', hx⟩

theorem recordable_dispatch {srv : Rpcs} {st : Option (RpcState ReplyPdu)} {out : List ReplyPdu}
    (hr : Run Step (System.start nonce procs) tr s) (h : Recordable s)
    (hd : Dispatches s.server req srv st out) (hcalm : Unhurried s (.dispatched req st)) :
    ∀ busy ∈ srv.running, busy.cltNonce ≠ 0 →
      ∃ r ∈ srv.replyWindow busy.cltNonce, r.xid = busy.xid := by
  intro busy hbusy hn
  rcases st with _ | st
  · rw [hd.others _ (.inl rfl)]
    obtain ⟨r, hw, hx, -⟩ := h busy (by simpa [hd.running] using hbusy) hn
    exact ⟨r, hw, hx⟩
  by_cases hc : busy.cltNonce = req.cltNonce
  · rw [hc] at hn ⊢
    cases hd.window st rfl hn with
    | check hrep he =>
      have hch := checks_of_eq (increasing_window hn hr) hrep he
      have hold : busy ∈ s.server.running → ∃ r ∈ srv.replyWindow req.cltNonce, r.xid = busy.xid := by
        intro hb
        obtain ⟨r, hw, hx, -⟩ := h busy hb (hc ▸ hn)
        rw [hc] at hw
        refine ⟨r, hch.kept r hw ?_, hx⟩
        rcases hch.front_eq with hf | hf
        · rw [hf]
          exact (increasing_window hn hr).front_le hw
        · rw [hf, hx]
          have hsome := mt hd.current.2 (Option.some_ne_none _)
          exact hcalm (by tauto) hn busy hb hc
      rw [hd.running] at hbusy
      split_ifs at hbusy with hnew
      · rcases List.mem_append.1 hbusy with hb | hb
        · exact hold hb
        · obtain rfl := List.mem_singleton.1 hb
          obtain rfl : st = .new := by simpa using hnew
          rcases hch.told with ⟨-, -, hst⟩ | ⟨-, r, -, -, hst⟩ | ⟨-, -, hmem, -⟩
          · cases hst
          · unfold repeated at hst
            split_ifs at hst
          · exact ⟨_, hmem, rfl⟩
      · exact hold hbusy
  · rw [hd.others _ (.inr (.inr hc))]
    have hb : busy ∈ s.server.running := by
      rw [hd.running] at hbusy
      split_ifs at hbusy
      · rcases List.mem_append.1 hbusy with hb | hb
        · exact hb
        · obtain rfl := List.mem_singleton.1 hb
          exact absurd rfl hc
      · exact hbusy
    obtain ⟨r, hw, hx, -⟩ := h busy hb hn
    exact ⟨r, hw, hx⟩

theorem unhurried_dispatch {srv : Rpcs} {st : Option (RpcState ReplyPdu)} {out : List ReplyPdu}
    (hr : Run Step (System.start nonce procs) tr s)
    (hd : Dispatches s.server req srv st out)
    (h : ∀ busy ∈ srv.running, busy.cltNonce ≠ 0 →
      ∃ r ∈ srv.replyWindow busy.cltNonce, r.xid = busy.xid) : Unhurried s (.dispatched req st) := by
  intro hcur hn busy hb hc
  rcases st with _ | st
  · have := hd.current.1 rfl
    tauto
  cases hd.window st rfl hn with
  | check hrep he =>
    have hch := checks_of_eq (increasing_window hn hr) hrep he
    have hb' : busy ∈ srv.running := by
      rw [hd.running]
      split_ifs
      · exact List.mem_append_left _ hb
      · exact hb
    obtain ⟨r, hw, hx⟩ := h busy hb' (hc ▸ hn)
    rw [hc] at hw
    calc req.xidRep ≤ front (srv.replyWindow req.cltNonce) := hch.acked
      _ ≤ r.xid := hch.increasing.front_le hw
      _ = busy.xid := hx

/-- One step loses an entry exactly when it takes up a request that acknowledges too much. -/
theorem recordable_step (hr : Run Step (System.start nonce procs) tr s) (h : Recordable s)
    (hs : Step s l s') : Recordable s' ↔ Unhurried s l := by
  have hrun := hr.snoc hs
  cases hs with
  | call => exact iff_of_true h trivial
  | leave => exact iff_of_true h trivial
  | receive => exact iff_of_true h trivial
  | dispatch req hm hd =>
    rw [recordable_iff hrun]
    exact ⟨unhurried_dispatch hr (dispatch_spec hd), recordable_dispatch hr h (dispatch_spec hd)⟩
  | @finish req hm ret rep srv hf =>
    have hfin := finish_spec hf
    refine iff_of_true ((recordable_iff hrun).2 ?_) trivial
    intro busy hbusy hn
    dsimp only at hbusy ⊢
    rw [hfin.running] at hbusy
    obtain ⟨r, hw, hx, -⟩ := h busy (List.mem_of_mem_erase hbusy) hn
    by_cases hc : busy.cltNonce = req.cltNonce
    · rw [hc] at hn hw ⊢
      cases hfin.window hn with
      | reply ha => exact listed_addReply ha ⟨r, hw, hx⟩
    · rw [hfin.others _ (.inr hc)]
      exact ⟨r, hw, hx⟩

theorem Recordable.finish_isSome (hr : Run Step (System.start nonce procs) tr s)
    (h : Recordable s) (hm : req ∈ s.server.running) {ret : ℤ} (hret : 0 ≤ ret) (rep : LockProtocol.Str) :
    (s.server.finish req ⟨req.xid, ret, rep⟩).isSome := by
  simp only [Rpcs.finish]
  rw [if_neg (not_lt.2 hret)]
  split_ifs with hn
  · rfl
  · obtain ⟨r, hw, hx, hcb⟩ := h req hm hn
    rw [Option.isSome_map]
    exact addReply_isSome (increasing_window hn hr) hw hx hcb

/-- Every reply of a run can be recorded exactly when no request is taken up that acknowledges
an xid above that of a handler still at work for the same client; in such a run no assertion of
`add_reply` fails. -/
theorem replies_recordable_iff :
    (Run (fun a l b => Step a l b ∧ Recordable b) (System.start nonce procs) tr s ↔
      Run (fun a l b => Step a l b ∧ Unhurried a l) (System.start nonce procs) tr s) ∧
    (Run (fun a l b => Step a l b ∧ Unhurried a l) (System.start nonce procs) tr s →
      Recordable s ∧ ∀ req ∈ s.server.running, ∀ ret rep, 0 ≤ ret →
        (s.server.finish req ⟨req.xid, ret, rep⟩).isSome) := by
  have hstart : Recordable (System.start nonce procs) := by
    intro req hm
    cases hm
  have hlast : ∀ {tr s}, Run (fun a l b => Step a l b ∧ Recordable b) (System.start nonce procs) tr s →
      Run Step (System.start nonce procs) tr s ∧ Recordable s := by
    intro tr s hr
    exact ⟨hr.mono fun _ _ _ h => h.1, hr.invariant hstart fun _ _ _ _ h => h.2⟩
  have hiff : Run (fun a l b => Step a l b ∧ Recordable b) (System.start nonce procs) tr s ↔
      Run (fun a l b => Step a l b ∧ Unhurried a l) (System.start nonce procs) tr s := by
    constructor
    · intro hr
      induction hr with
      | nil => exact .nil
      | snoc run last ih =>
        obtain ⟨hrun, hrec⟩ := hlast run
        exact ih.snoc ⟨last.1, (recordable_step hrun hrec last.1).1 last.2⟩
    · intro hr
      induction hr with
      | nil => exact .nil
      | snoc run last ih =>
        obtain ⟨hrun, hrec⟩ := hlast ih
        exact ih.snoc ⟨last.1, (recordable_step hrun hrec last.1).2 last.2⟩
  refine ⟨hiff, ?_⟩
  intro hr
  obtain ⟨hrun, hrec⟩ := hlast (hiff.2 hr)
  exact ⟨hrec, fun req hm ret rep hret => hrec.finish_isSome hrun hm hret rep⟩

/-! ## A slow handler, overtaken twice -/

/-- The `i`-th request of client 1. -/
def slow (i : ℕ) : Request := ⟨i, 7, 1, 9, i - 1, []⟩

/-- Client 1 calls procedure 7, and gives up when the handler is at work. -/
theorem run_impatient : ∃ s, Run Step (System.start 9 [7])
    [.called 1 1, .dispatched (slow 1) (some .new), .returned 1 1 timeoutFailure none,
      .called 1 2, .dispatched (slow 2) (some .new), .returned 1 2 timeoutFailure none,
      .called 1 3, .dispatched (slow 3) (some .new)] s ∧
    slow 1 ∈ s.server.running ∧ (s.server.replyWindow 1).map ReplyT.xid = [2, 3] ∧
    s.server.finish (slow 1) ⟨1, 0, []⟩ = none := by
  refine ⟨_, .snoc (.snoc (.snoc (.snoc (.snoc (.snoc (.snoc (.snoc .nil
    (.call 1 7 9 [] (by decide))) (.dispatch (slow 1) ?_ rfl)) (.leave 1 1 {} rfl))
    (.call 1 7 9 [] (by decide))) (.dispatch (slow 2) ?_ rfl)) (.leave 1 2 {} rfl))
    (.call 1 7 9 [] (by decide))) (.dispatch (slow 3) ?_ rfl), ?_, ?_, ?_⟩
  all_goals decide

end Yfs.RecordedReplies
