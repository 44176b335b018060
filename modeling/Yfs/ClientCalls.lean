import Yfs.RpcClient

/-!
# The calls of an RPC client

`calls_` points to the calls that are under way, each on the stack of its own thread. So `got_pdu` and
`cancel` only touch calls that have not returned, and when the client is destroyed, its connection is
deleted with the last reference to it.
-/

namespace Yfs.ClientCalls
open LabelledRuns Monitors RpcClient
open RpcSystem (Caller ReplyPdu)
open ConnectionRefs (Connection Heap)

/-! ## What the threads hold -/

def frameOf (v : View) : Option Frame := v.2.bind Op.frame

/-- The connection that a thread refers to. -/
def chOf (v : View) : Option ℕ := (frameOf v).bind Frame.ch

/-- The call that a thread is in. -/
def callOf (v : View) : Option ℕ := (frameOf v).map Frame.caller

/-- The call of a thread, if it is in `calls_`. -/
def listedOf (v : View) : Option ℕ :=
  v.2.bind fun o => if o.isListed then o.frame.map Frame.caller else none

/-- How many calls refer to a connection. -/
def held (vs : List View) (c : ℕ) : ℕ := vs.countP fun v => chOf v = some c

/-- A call exists while its thread is in `call1`, and `calls_` points to those that have not left.
The xids have not wrapped around yet. -/
structure Table (s : Client) (vs : List View) : Prop where
  xid : s.xid = s.born + 1
  xids : ∀ v ∈ vs, ∀ f, frameOf v = some f → f.xid = f.caller + 1
  nodup : (vs.filterMap callOf).Nodup
  born : ∀ a ∈ vs.filterMap callOf, a < s.born
  callers : ∀ a, s.callers a ≠ none ↔ a ∈ vs.filterMap callOf
  calls : s.calls.Perm ((vs.filterMap listedOf).map fun a => (a + 1, a))

/-- What the sections keep. -/
structure Kept (s : Client) (vs : List View) : Prop where
  linked : Linked s (held vs)
  table : Table s vs

/-- While the client is being destroyed, nobody else uses it. -/
structure Sound (s : Client) (vs : List View) : Prop where
  kept : Kept s vs
  roles : ∀ v ∈ vs, ∀ o, v.2 = some o → v.1 = o.role
  alone : Open vs ∨ Idle vs
  closing : ∀ v ∈ vs, v.2 = some .destroyed → Retired none s.heap
  ended : ∀ v ∈ vs, v.1 = .gone → s.chan = none

variable {s s' : Client} {vs : List View} {v v' : View} {u u' : Role} {op : Op} {i c : ℕ} {f : Frame}
  {k : ℕ → ℕ} {o : Option Op}

theorem held_set (v' : View) (hi : vs[i]? = some v) (c : ℕ) :
    held (vs.set i v') c + own (chOf v) c = held vs c + own (chOf v') c := by
  have hown : ∀ v : View, own (chOf v) c = (decide (chOf v = some c)).toNat := by
    intro v
    unfold own
    split_ifs with h <;> simp [h]
  rw [hown, hown]
  exact countP_set_toNat (fun v : View => decide (chOf v = some c)) hi

/-- The references without those of one thread. -/
theorem held_split (hi : vs[i]? = some v) :
    (∀ c, held vs c = own (chOf v) c + held (vs.set i (v.1, none)) c) ∧
      ∀ v' c, held (vs.set i v') c = own (chOf v') c + held (vs.set i (v.1, none)) c := by
  have hnone : ∀ c, own (chOf (v.1, none)) c = 0 := fun c => rfl
  have hbase : ∀ c, held vs c = own (chOf v) c + held (vs.set i (v.1, none)) c := by
    intro c
    have := held_set (v.1, none) hi c
    rw [hnone] at this
    omega
  refine ⟨hbase, fun v' c => ?_⟩
  have := held_set v' hi c
  rw [hbase c] at this
  omega

/-- One thread goes on with the connection it refers to. -/
theorem linked_keep (h : Linked s (held vs)) (hi : vs[i]? = some v) (hch : chOf v' = chOf v) :
    Linked s (held (vs.set i v')) := by
  apply h.congr
  intro c
  have := held_set v' hi c
  rw [hch] at this
  omega

theorem linked_kill (h : Linked s k) (c : ℕ) : Linked { s with heap := kill c s.heap } k :=
  ⟨h.refs.kill c, h.retired.kill c⟩

/-- The calls that exist are the same, and `calls_` too. -/
structure SameTable (s s' : Client) : Prop where
  xid : s'.xid = s.xid
  born : s'.born = s.born
  calls : s'.calls = s.calls
  callers : ∀ a, s'.callers a ≠ none ↔ s.callers a ≠ none

theorem perm_of_keep {f : View → Option ℕ} (hi : vs[i]? = some v) (hf : f v' = f v) :
    ((vs.set i v').filterMap f).Perm (vs.filterMap f) := by
  have := filterMap_set f (b := v') hi
  rw [hf] at this
  exact (List.perm_append_right_iff _).mp this

theorem Table.keep (h : Table s vs) (hi : vs[i]? = some v) (hs : SameTable s s')
    (hcall : callOf v' = callOf v) (hlisted : listedOf v' = listedOf v)
    (hxid : ∀ f, frameOf v' = some f → f.xid = f.caller + 1) : Table s' (vs.set i v') := by
  have hcalls := perm_of_keep hi hcall
  refine ⟨?_, forall_mem_set h.xids hxid, ?_, ?_, ?_, ?_⟩
  · rw [hs.xid, hs.born, h.xid]
  · exact hcalls.nodup_iff.mpr h.nodup
  · intro a ha
    rw [hs.born]
    exact h.born a (hcalls.mem_iff.mp ha)
  · intro a
    rw [hs.callers, h.callers, hcalls.mem_iff]
  · rw [hs.calls]
    exact h.calls.trans ((perm_of_keep hi hlisted).map _).symm

/-! ## The sections -/

theorem listedOf_eq (v : View) : listedOf v = none ∨ listedOf v = callOf v := by
  obtain ⟨u, o⟩ := v
  cases o with
  | none => exact .inl rfl
  | some o =>
    simp only [listedOf, Option.bind_some]
    split_ifs
    · exact .inr rfl
    · exact .inl rfl

/-- What is in `calls_` exists. -/
theorem listed_sublist (vs : List View) :
    (vs.filterMap listedOf).Sublist (vs.filterMap callOf) := by
  induction vs with
  | nil => exact .slnil
  | cons v vs ih =>
    rw [List.filterMap_cons, List.filterMap_cons]
    rcases listedOf_eq v with hv | hv
    · rw [hv]
      cases callOf v with
      | none => exact ih
      | some a => exact ih.cons a
    · rw [hv]
      cases callOf v with
      | none => exact ih
      | some a => exact ih.cons_cons a

/-- `calls_` points to calls that exist. -/
theorem Table.alive {p : ℕ × ℕ} (h : Table s vs) (hp : p ∈ s.calls) : s.callers p.2 ≠ none := by
  obtain ⟨a, ha, rfl⟩ := List.mem_map.mp (h.calls.mem_iff.mp hp)
  exact (h.callers a).mpr ((listed_sublist vs).subset ha)

/-- The call of a thread exists. -/
theorem Table.own_alive (h : Table s vs) (hi : vs[i]? = some (u, some op))
    (hf : op.frame = some f) : s.callers f.caller ≠ none :=
  (h.callers _).mpr (List.mem_filterMap.mpr ⟨_, List.mem_of_getElem? hi, by simp [callOf, frameOf, hf]⟩)

/-- A thread without a call stays without one. -/
theorem Kept.quiet (h : Kept s vs) (hi : vs[i]? = some v) (hv : frameOf v = none)
    (hv' : frameOf v' = none) (hl : Linked s' (held vs)) (hs : SameTable s s') :
    Kept s' (vs.set i v') := by
  have hlisted : ∀ {v : View}, frameOf v = none → listedOf v = none := by
    intro v hv
    rcases listedOf_eq v with h | h
    · exact h
    · rw [h, callOf, hv, Option.map_none]
  refine ⟨linked_keep hl hi (by rw [chOf, chOf, hv, hv']), h.table.keep hi hs ?_ ?_ ?_⟩
  · rw [callOf, callOf, hv, hv']
  · rw [hlisted hv, hlisted hv']
  · rw [hv']
    exact nofun

/-- A call goes on. -/
theorem Kept.goesOn {op' : Op} {f' : Frame} (h : Kept s vs) (hi : vs[i]? = some (u, some op))
    (hf : op.frame = some f) (hlisted : op.isListed = true) (hf' : op'.frame = some f')
    (hlisted' : op'.isListed = true) (hsame : f'.caller = f.caller ∧ f'.xid = f.xid)
    (hl : Linked s' (held (vs.set i (u, some op')))) (hs : SameTable s s') :
    Kept s' (vs.set i (u, some op')) := by
  refine ⟨hl, h.table.keep hi hs ?_ ?_ ?_⟩
  · simp [callOf, frameOf, hf, hf', hsame.1]
  · simp [listedOf, hf, hf', hlisted, hlisted', hsame.1]
  · intro f₁ hf₁
    have : f' = f₁ := by simpa [frameOf, hf'] using hf₁
    rw [← this, hsame.1, hsame.2]
    exact h.table.xids _ (List.mem_of_getElem? hi) f (by simp [frameOf, hf])

theorem SameTable.refl (s : Client) : SameTable s s := ⟨rfl, rfl, rfl, fun _ => Iff.rfl⟩

theorem SameTable.of_calls (h : SameCalls s s') : SameTable s s' :=
  ⟨h.xid, h.born, h.calls, fun a => by rw [h.callers]⟩

/-- The sections of a thread come out, and what comes after them is kept. -/
def Comes (inp : Input) (s : Client) (vs : List View) (i : ℕ) (u : Role) (op : Op) : Prop :=
  ∃ s' ns e, exec inp s op = some (s', ns, e) ∧ Kept s' (vs.set i (landedView users u e))

variable {inp : Input}

theorem comes_call1 {proc : ℕ} (h : Kept s vs) (hi : vs[i]? = some (u, some (.call1 proc)))
    (hbound : s.born + 2 < 2 ^ 32) : Comes inp s vs i u (.call1 proc) := by
  unfold Comes
  simp only [exec, enter]
  split_ifs
  · exact ⟨_, _, _, rfl, h.quiet hi rfl rfl h.linked (.refl s)⟩
  · exact ⟨_, _, _, rfl, h.quiet hi rfl rfl h.linked (.refl s)⟩
  refine ⟨_, _, _, rfl, linked_keep ⟨h.linked.refs, h.linked.retired⟩ hi rfl, ?_⟩
  generalize hv' : landedView users u
    (.yield (.getRefconn { proc, caller := s.born, xid := s.xid })) = v'
  have hcalls : ((vs.set i v').filterMap callOf).Perm (s.born :: vs.filterMap callOf) := by
    have := filterMap_set callOf (b := v') hi
    subst hv'
    exact (List.append_nil _ ▸ this).trans (List.perm_append_singleton _ _)
  have hlisted : ((vs.set i v').filterMap listedOf).Perm (s.born :: vs.filterMap listedOf) := by
    have := filterMap_set listedOf (b := v') hi
    subst hv'
    exact (List.append_nil _ ▸ this).trans (List.perm_append_singleton _ _)
  refine ⟨?_, forall_mem_set h.table.xids ?_, ?_, ?_, ?_, ?_⟩
  · show (s.xid + 1) % 2 ^ 32 = s.born + 1 + 1
    rw [h.table.xid]
    omega
  · subst hv'
    rintro _ ⟨⟩
    exact h.table.xid
  · rw [hcalls.nodup_iff, List.nodup_cons]
    exact ⟨fun hm => Nat.lt_irrefl _ (h.table.born _ hm), h.table.nodup⟩
  · intro a ha
    rcases List.mem_cons.mp (hcalls.mem_iff.mp ha) with rfl | ha
    · exact Nat.lt_succ_self _
    · exact Nat.lt_succ_of_lt (h.table.born a ha)
  · intro a
    rw [hcalls.mem_iff, List.mem_cons, ← h.table.callers]
    by_cases ha : a = s.born
    · simp [ha]
    · simp [ha]
  · have hfresh : s.calls.filter (·.1 ≠ s.xid) = s.calls := by
      rw [List.filter_eq_self]
      intro p hp
      obtain ⟨a, ha, rfl⟩ := List.mem_map.mp (h.table.calls.mem_iff.mp hp)
      have := h.table.born a ((listed_sublist vs).subset ha)
      have := h.table.xid
      simp only [ne_eq, decide_eq_true_eq]
      omega
    dsimp only
    rw [hfresh, h.table.xid]
    exact (h.table.calls.cons _).trans (hlisted.map fun a => (a + 1, a)).symm

theorem comes_getRefconn (h : Kept s vs) (hi : vs[i]? = some (u, some (.getRefconn f))) :
    Comes inp s vs i u (.getRefconn f) := by
  obtain ⟨hsplit, hset⟩ := held_split hi
  have hlinked : Linked s fun c => own f.ch c + held (vs.set i (u, none)) c :=
    h.linked.congr fun c => (hsplit c).symm
  obtain ⟨s', ch', hx, hl⟩ := getRefconn_ok inp hlinked
  refine ⟨s', [], .yield (.send { f with ch := ch' }), by rw [exec, hx]; rfl, ?_⟩
  exact h.goesOn hi rfl rfl rfl rfl ⟨rfl, rfl⟩ (hl.congr fun c => hset _ c) (.of_calls (getRefconn_same hx))

/-- A connection that a call refers to is there. -/
theorem Kept.exists_ch (h : Kept s vs) (hi : vs[i]? = some v) (hc : chOf v = some c) :
    s.heap c ≠ none := by
  intro hnone
  have hzero := (h.linked.refs.unused c).mp hnone
  have := (held_split hi).1 c
  rw [hc, own_self] at this
  omega

theorem comes_send (h : Kept s vs) (hi : vs[i]? = some (u, some (.send f))) :
    Comes inp s vs i u (.send f) := by
  have hnext : ∀ {s' : Client}, Linked s' (held vs) → SameTable s s' →
      Kept s' (vs.set i (u, some (.deadline f))) := fun hl hs =>
    h.goesOn hi rfl rfl rfl rfl ⟨rfl, rfl⟩ (linked_keep hl hi rfl) hs
  cases hc : f.ch with
  | none =>
    refine ⟨s, [], .yield (.deadline f), by simp only [exec, send, hc], ?_⟩
    exact hnext h.linked (.refl s)
  | some c =>
    obtain ⟨x, hx⟩ := Option.ne_none_iff_exists'.mp (h.exists_ch hi (c := c) hc)
    refine ⟨if inp.dies then { s with heap := kill c s.heap } else s, [], .yield (.deadline f),
      by simp only [exec, send, hc, hx, Option.map_some], ?_⟩
    split_ifs
    · exact hnext (linked_kill h.linked c) ⟨rfl, rfl, rfl, fun _ => Iff.rfl⟩
    · exact hnext h.linked (.refl s)

/-- A call goes on and changes nothing. -/
theorem Kept.goesOn_same {op' : Op} {f' : Frame} (h : Kept s vs) (hi : vs[i]? = some (u, some op))
    (hf : op.frame = some f) (hlisted : op.isListed = true) (hf' : op'.frame = some f')
    (hlisted' : op'.isListed = true)
    (hsame : f'.caller = f.caller ∧ f'.xid = f.xid ∧ f'.ch = f.ch) :
    Kept s (vs.set i (u, some op')) := by
  refine h.goesOn hi hf hlisted hf' hlisted' ⟨hsame.1, hsame.2.1⟩ (linked_keep h.linked hi ?_) (.refl s)
  simp [chOf, frameOf, hf, hf', hsame.2.2]

theorem comes_deadline (h : Kept s vs) (hi : vs[i]? = some (u, some (.deadline f))) :
    Comes inp s vs i u (.deadline f) := by
  refine ⟨s, [], _, rfl, ?_⟩
  split_ifs
  · exact h.goesOn_same hi rfl rfl rfl rfl ⟨rfl, rfl, rfl⟩
  · exact h.goesOn_same hi rfl rfl rfl rfl ⟨rfl, rfl, rfl⟩

theorem comes_await (h : Kept s vs) (hi : vs[i]? = some (u, some op)) (hf : op.frame = some f)
    (hlisted : op.isListed = true) :
    ∃ s' ns e, await f s = some (s', ns, e) ∧ Kept s' (vs.set i (landedView users u e)) := by
  obtain ⟨ca, hca⟩ := Option.ne_none_iff_exists'.mp (h.table.own_alive hi hf)
  rw [await, hca, Option.map_some]
  split_ifs
  · exact ⟨_, _, _, rfl, h.goesOn_same hi hf hlisted rfl rfl ⟨rfl, rfl, rfl⟩⟩
  · exact ⟨_, _, _, rfl, h.goesOn_same hi hf hlisted rfl rfl ⟨rfl, rfl, rfl⟩⟩

theorem comes_awaited (h : Kept s vs) (hi : vs[i]? = some (u, some (.awaited f))) :
    Comes inp s vs i u (.awaited f) := by
  unfold Comes
  simp only [exec, awaited]
  split_ifs
  · obtain ⟨ca, hca⟩ := Option.ne_none_iff_exists'.mp (h.table.own_alive hi rfl)
    refine ⟨s, [], _, by rw [hca, Option.map_some], ?_⟩
    split_ifs
    · exact h.goesOn_same hi rfl rfl rfl rfl ⟨rfl, rfl, rfl⟩
    · exact h.goesOn_same hi rfl rfl rfl rfl ⟨rfl, rfl, rfl⟩
  · exact comes_await h hi rfl rfl

theorem comes_retry (h : Kept s vs) (hi : vs[i]? = some (u, some (.retry f))) :
    Comes inp s vs i u (.retry f) := by
  have hch : ∀ c, f.ch = some c → own s.chan c + held vs c ≠ 0 := fun c hc hz =>
    h.exists_ch hi (c := c) hc ((h.linked.refs.unused c).mpr hz)
  obtain ⟨b, hb, -⟩ := isGone_ok h.linked.refs hch
  refine ⟨s, [], _, by rw [exec, retry, hb, Option.map_some], ?_⟩
  split_ifs
  · exact h.goesOn_same hi rfl rfl rfl rfl ⟨rfl, rfl, rfl⟩
  · exact h.goesOn_same hi rfl rfl rfl rfl ⟨rfl, rfl, rfl⟩

theorem comes_leave (h : Kept s vs) (hi : vs[i]? = some (u, some (.leave f))) :
    Comes inp s vs i u (.leave f) := by
  refine ⟨_, _, _, rfl, linked_keep ⟨h.linked.refs, h.linked.retired⟩ hi rfl, ?_⟩
  have hxid := h.table.xids _ (List.mem_of_getElem? hi) f rfl
  have hcalls : ((vs.set i (u, some (.ret f))).filterMap callOf).Perm (vs.filterMap callOf) :=
    perm_of_keep hi rfl
  have hlisted : (f.caller :: (vs.set i (u, some (.ret f))).filterMap listedOf).Perm
      (vs.filterMap listedOf) := by
    have := filterMap_set listedOf (b := (u, some (.ret f))) hi
    refine (List.perm_append_singleton _ _).symm.trans (this.trans ?_)
    exact List.Perm.of_eq (List.append_nil _)
  refine ⟨h.table.xid, forall_mem_set h.table.xids ?_, ?_, ?_, ?_, ?_⟩
  · rintro _ ⟨⟩
    exact hxid
  · exact hcalls.nodup_iff.mpr h.table.nodup
  · exact fun a ha => h.table.born a (hcalls.mem_iff.mp ha)
  · exact fun a => (h.table.callers a).trans hcalls.mem_iff.symm
  · -- the other calls have other xids
    have hnodup : (vs.filterMap listedOf).Nodup := h.table.nodup.sublist (listed_sublist vs)
    have hothers : (((vs.set i (u, some (.ret f))).filterMap listedOf).map fun a =>
        (a + 1, a)).filter (·.1 ≠ f.xid) =
        ((vs.set i (u, some (.ret f))).filterMap listedOf).map fun a => (a + 1, a) := by
      refine List.filter_eq_self.mpr fun p hp => ?_
      obtain ⟨a, ha, rfl⟩ := List.mem_map.mp hp
      have hne : a ≠ f.caller := by
        rintro rfl
        exact (List.nodup_cons.mp (hlisted.nodup_iff.mpr hnodup)).1 ha
      simpa [hxid] using hne
    have hfilter := (h.table.calls.trans (hlisted.map _).symm).filter (·.1 ≠ f.xid)
    rwa [List.map_cons, List.filter_cons_of_neg (by simp [hxid]), hothers] at hfilter

theorem comes_ret (h : Kept s vs) (hi : vs[i]? = some (u, some (.ret f))) :
    Comes inp s vs i u (.ret f) := by
  obtain ⟨ca, hca⟩ := Option.ne_none_iff_exists'.mp (h.table.own_alive hi rfl)
  obtain ⟨hsplit, hset⟩ := held_split hi
  have hrefs : Refs s.made (fun c => own f.ch c + (own s.chan c + held (vs.set i (u, none)) c))
      s.heap := by
    apply h.linked.refs.congr
    intro c
    have : held vs c = own f.ch c + held (vs.set i (u, none)) c := hsplit c
    omega
  obtain ⟨heap', hrel, hr, hret⟩ := hrefs.release (fun c x hc hx hz => by
    refine h.linked.retired c x hx fun hchan => ?_
    rw [hchan, own_self] at hz
    omega)
  obtain ⟨o, ho, hnone⟩ : ∃ o, landedView users u
      (if f.proc = bindProc ∧ ca.result = 0 then .yield .bound else .ret (.call ca.result)) = o ∧
      frameOf o = none ∧ listedOf o = none := by
    split_ifs
    · exact ⟨_, rfl, rfl, rfl⟩
    · exact ⟨_, rfl, rfl, rfl⟩
  refine ⟨{ s with heap := heap', callers := Function.update s.callers f.caller none }, [], _,
    by rw [exec, ret, hca, Option.bind_some, hrel, Option.map_some], ?_, ?_⟩
  · rw [ho]
    refine .of_eq ?_ (hret _ h.linked.retired) rfl rfl rfl
    apply hr.congr
    intro c
    have : own (chOf o) c = 0 := by
      rw [chOf, hnone.1]
      rfl
    rw [hset o c, this, Nat.zero_add]
  · rw [ho]
    have hcalls : (f.caller :: (vs.set i o).filterMap callOf).Perm (vs.filterMap callOf) := by
      have := filterMap_set callOf (b := o) hi
      rw [show callOf o = none by rw [callOf, hnone.1]; rfl] at this
      refine (List.perm_append_singleton _ _).symm.trans (this.trans ?_)
      exact List.Perm.of_eq (List.append_nil _)
    have hlisted : ((vs.set i o).filterMap listedOf).Perm (vs.filterMap listedOf) :=
      perm_of_keep hi hnone.2
    have hnodup := List.nodup_cons.mp (hcalls.nodup_iff.mpr h.table.nodup)
    refine ⟨h.table.xid, forall_mem_set h.table.xids ?_, hnodup.2, ?_, ?_, ?_⟩
    · rw [hnone.1]
      exact nofun
    · exact fun a ha => h.table.born a (hcalls.mem_iff.mp (List.mem_cons_of_mem _ ha))
    · intro a
      by_cases ha : a = f.caller
      · rw [ha]
        simpa using hnodup.1
      · have := h.table.callers a
        rw [← hcalls.mem_iff, List.mem_cons] at this
        simpa [ha] using this
    · exact h.table.calls.trans (hlisted.map _).symm

theorem update_caller {a : ℕ} {ca : Caller} {callers : ℕ → Option Caller}
    (h : callers a ≠ none) (b : ℕ) :
    Function.update callers a (some ca) b ≠ none ↔ callers b ≠ none := by
  by_cases hb : b = a
  · subst hb
    simpa using h
  · rw [Function.update_of_ne hb]

theorem comes_gotPdu {pdu : ReplyPdu} (h : Kept s vs) (hi : vs[i]? = some (u, some (.gotPdu pdu))) :
    Comes inp s vs i u (.gotPdu pdu) := by
  have hlinked : ∀ w, Linked { s with xidRepWindow := w } (held vs) :=
    fun w => ⟨h.linked.refs, h.linked.retired⟩
  unfold Comes
  simp only [exec, gotPdu]
  cases hl : s.calls.lookup pdu.xid with
  | none =>
    exact ⟨_, _, _, rfl, h.quiet hi rfl rfl (hlinked _) ⟨rfl, rfl, rfl, fun _ => Iff.rfl⟩⟩
  | some a =>
    have hmem : (pdu.xid, a) ∈ s.calls := by
      obtain ⟨l₁, l₂, hsplit, -⟩ := List.lookup_eq_some_iff.mp hl
      rw [hsplit]
      exact List.mem_append_right _ List.mem_cons_self
    obtain ⟨ca, hca⟩ := Option.ne_none_iff_exists'.mp (h.table.alive hmem)
    dsimp only at hca ⊢
    refine ⟨_, _, _, by rw [hca, Option.map_some], ?_⟩
    split_ifs
    · exact h.quiet hi rfl rfl (hlinked _) ⟨rfl, rfl, rfl, fun _ => Iff.rfl⟩
    · refine h.quiet hi rfl rfl ⟨h.linked.refs, h.linked.retired⟩ ⟨rfl, rfl, rfl, ?_⟩
      exact update_caller (h.table.alive hmem)

theorem comes_dies (h : Kept s vs) (hi : vs[i]? = some (u, some (.dies c))) :
    Comes inp s vs i u (.dies c) :=
  ⟨_, _, _, rfl, h.quiet hi rfl rfl (linked_kill h.linked c) ⟨rfl, rfl, rfl, fun _ => Iff.rfl⟩⟩

theorem comes_bound (h : Kept s vs) (hi : vs[i]? = some (u, some .bound)) :
    Comes inp s vs i u .bound :=
  ⟨_, _, _, rfl, h.quiet hi rfl rfl ⟨h.linked.refs, h.linked.retired⟩
    ⟨rfl, rfl, rfl, fun _ => Iff.rfl⟩⟩

/-- `cancel` finds every call it fails. -/
theorem failAll_ok {calls : List (ℕ × ℕ)} {callers : ℕ → Option Caller}
    (h : ∀ p ∈ calls, callers p.2 ≠ none) :
    ∃ callers', failAll calls callers = some callers' ∧
      ∀ b, callers' b ≠ none ↔ callers b ≠ none := by
  induction calls generalizing callers with
  | nil => exact ⟨callers, rfl, fun _ => Iff.rfl⟩
  | cons p calls ih =>
    obtain ⟨x, a⟩ := p
    rw [List.forall_mem_cons] at h
    obtain ⟨ca, hca⟩ := Option.ne_none_iff_exists'.mp h.1
    have hsame : ∀ b, Function.update callers a
        (some { ca with intret := cancelFailure, done := true }) b ≠ none ↔ callers b ≠ none :=
      update_caller h.1
    obtain ⟨callers', hf, hiff⟩ := ih fun p hp => (hsame p.2).mpr (h.2 p hp)
    refine ⟨callers', ?_, fun b => (hiff b).trans (hsame b)⟩
    dsimp only at hca
    rw [failAll, hca, Option.bind_some, hf]

theorem cancelled_kept (h : Kept s vs) (hi : vs[i]? = some v) (hv : frameOf v = none)
    (hl : Linked s' (held vs)) (hs : SameTable s s') :
    Kept (cancelled s').1 (vs.set i (landedView users u (cancelled s').2)) := by
  unfold cancelled
  split_ifs
  · exact h.quiet hi hv rfl ⟨hl.refs, hl.retired⟩ ⟨hs.xid, hs.born, hs.calls, hs.callers⟩
  · exact h.quiet hi hv rfl hl hs

theorem comes_cancel (h : Kept s vs) (hi : vs[i]? = some (u, some .cancel)) :
    Comes inp s vs i u .cancel := by
  obtain ⟨callers', hf, hiff⟩ := failAll_ok fun p hp => h.table.alive hp
  refine ⟨_, _, _, by rw [exec, cancel, hf, Option.map_some], ?_⟩
  exact cancelled_kept h hi rfl ⟨h.linked.refs, h.linked.retired⟩ ⟨rfl, rfl, rfl, hiff⟩

theorem comes_cancelled (h : Kept s vs) (hi : vs[i]? = some (u, some .cancelled)) :
    Comes inp s vs i u .cancelled :=
  ⟨_, _, _, rfl, cancelled_kept h hi rfl h.linked (.refl s)⟩

theorem exists_chan (h : Linked s k) (hc : s.chan = some c) : s.heap c ≠ none := by
  intro hnone
  have hzero := (h.refs.unused c).mp hnone
  rw [hc, own_self] at hzero
  omega

theorem comes_destroy (h : Kept s vs) (hi : vs[i]? = some (u, some .destroy)) :
    Comes inp s vs i u .destroy := by
  cases hc : s.chan with
  | none =>
    refine ⟨s, [], .yield .destroyed, by simp only [exec, destroy, hc], ?_⟩
    exact h.quiet hi rfl rfl h.linked (.refl s)
  | some c =>
    obtain ⟨x, hx⟩ := Option.ne_none_iff_exists'.mp (exists_chan h.linked hc)
    refine ⟨{ s with heap := kill c s.heap }, [], .yield .destroyed,
      by simp only [exec, destroy, hc, hx, Option.map_some], ?_⟩
    exact h.quiet hi rfl rfl (linked_kill h.linked c) ⟨rfl, rfl, rfl, fun _ => Iff.rfl⟩

/-! ## The end of a client -/

/-- Nobody is in a call while the client is being destroyed. -/
theorem Sound.idle (h : Sound s vs) (hv : v ∈ vs) (hend : v.1 = .gone ∨ v.1 = .owner ∧ v.2 ≠ none) :
    Idle vs := by
  refine h.alone.resolve_left fun hopen => ?_
  obtain ⟨howner, hgone⟩ := hopen v hv
  rcases hend with hv | ⟨hv, hbusy⟩
  · exact hgone hv
  · exact hbusy (howner hv)

theorem role_of_frame (h : op.frame = some f) : op.role = .caller := by
  cases op <;> first | rfl | cases h

theorem Sound.no_frame (h : Sound s vs) (hidle : Idle vs) (hv : v ∈ vs) : frameOf v = none := by
  obtain ⟨u, o⟩ := v
  cases o with
  | none => rfl
  | some o =>
    refine Option.eq_none_iff_forall_ne_some.mpr fun f hf => ?_
    have hrole := (h.roles _ hv o rfl).trans (role_of_frame hf)
    cases hidle _ hv (.inl hrole)

theorem Sound.no_calls (h : Sound s vs) (hidle : Idle vs) :
    s.calls = [] ∧ (∀ a, s.callers a = none) ∧ ∀ c, held vs c = 0 := by
  have hcalls : vs.filterMap callOf = [] := by
    refine List.filterMap_eq_nil_iff.mpr fun v hv => ?_
    rw [callOf, h.no_frame hidle hv, Option.map_none]
  refine ⟨?_, fun a => ?_, fun c => ?_⟩
  · have hlisted := hcalls ▸ listed_sublist vs
    have hperm := h.kept.table.calls
    rw [List.sublist_nil.mp hlisted] at hperm
    exact List.perm_nil.mp hperm
  · have := h.kept.table.callers a
    rw [hcalls] at this
    simpa using this
  · refine List.countP_eq_zero.mpr fun v hv => ?_
    rw [chOf, h.no_frame hidle hv]
    simp

theorem comes_destroyed (h : Sound s vs) (hi : vs[i]? = some (u, some .destroyed)) :
    Comes inp s vs i u .destroyed := by
  have hmem := List.mem_of_getElem? hi
  have hidle := h.idle hmem (.inr ⟨h.roles _ hmem _ rfl, nofun⟩)
  have hclosing := h.closing _ hmem rfl
  obtain ⟨heap', hrel, hrefs, hret⟩ :=
    h.kept.linked.refs.release fun c x _ hx _ => hclosing c x hx nofun
  refine ⟨{ s with heap := heap', chan := none }, [], .ret .done, ?_, ?_⟩
  · rw [exec, destroyed, hrel, Option.bind_some, (h.no_calls hidle).1]
    rfl
  · exact h.kept.quiet hi rfl rfl
      ⟨hrefs.congr fun c => Nat.zero_add _, hret none hclosing⟩ ⟨rfl, rfl, rfl, fun _ => Iff.rfl⟩

/-- Every section of a client comes out. -/
theorem Sound.comes (h : Sound s vs) (hi : vs[i]? = some (u, some op))
    (hbound : s.born + 2 < 2 ^ 32) (inp : Input) : Comes inp s vs i u op := by
  cases op with
  | call1 => exact comes_call1 h.kept hi hbound
  | getRefconn => exact comes_getRefconn h.kept hi
  | send => exact comes_send h.kept hi
  | deadline => exact comes_deadline h.kept hi
  | await => exact comes_await h.kept hi rfl rfl
  | awaited => exact comes_awaited h.kept hi
  | retry => exact comes_retry h.kept hi
  | leave => exact comes_leave h.kept hi
  | ret => exact comes_ret h.kept hi
  | bound => exact comes_bound h.kept hi
  | gotPdu => exact comes_gotPdu h.kept hi
  | dies => exact comes_dies h.kept hi
  | cancel => exact comes_cancel h.kept hi
  | cancelled => exact comes_cancelled h.kept hi
  | destroy => exact comes_destroy h.kept hi
  | destroyed => exact comes_destroyed h hi

/-! ## Runs -/

/-- The operation that a section goes on with. -/
def nextOp : Ended Op Result Cond → Option Op
  | .ret _ => none
  | .wait _ o | .yield o => some o

theorem landedView_eq (u : Role) (e : Ended Op Result Cond) :
    landedView users u e = (if nextOp e = none ∧ u = .owner then .gone else u, nextOp e) := by
  cases e with
  | ret => simp [landedView, nextOp, users]
  | wait => simp [landedView, nextOp]
  | yield => simp [landedView, nextOp]

/-- The sections that may sleep. -/
def waits : Op → Bool
  | .await _ | .awaited _ | .cancel | .cancelled => true
  | _ => false

/-- What a section may do to the number of calls, and where it goes on. -/
structure Onward (s : Client) (op : Op) (s' : Client) (e : Ended Op Result Cond) : Prop where
  born : s.born ≤ s'.born
  role : ∀ o, nextOp e = some o → o.role = op.role
  destroyed : nextOp e = some .destroyed → op = .destroy
  ended : nextOp e = none → op.role = .owner → op = .destroyed
  waits : ∀ c o, e = .wait c o → waits op = true

theorem await_onward {e : Ended Op Result Cond} {ns : List (Notice Cond)}
    (h : await f s = some (s', ns, e)) :
    s' = s ∧ ns = [] ∧ ∃ o, nextOp e = some o ∧ o.role = .caller := by
  unfold await at h
  obtain ⟨ca, -, h⟩ := Option.map_eq_some_iff.mp h
  split_ifs at h
  · cases h
    exact ⟨rfl, rfl, _, rfl, rfl⟩
  · cases h
    exact ⟨rfl, rfl, _, rfl, rfl⟩

theorem exec_onward {e : Ended Op Result Cond} {ns : List (Notice Cond)}
    (hx : exec inp s op = some (s', ns, e)) : Onward s op s' e := by
  have hcaller : ∀ {o : Op}, nextOp e = some o → o.role = .caller → op.role = .caller →
      s.born ≤ s'.born → (∀ c o, e = .wait c o → waits op = true) → Onward s op s' e := by
    intro o ho hrole hop hborn hwaits
    refine ⟨hborn, fun o' ho' => ?_, fun hd => ?_, fun hn => ?_, hwaits⟩
    · rw [ho] at ho'
      cases ho'
      rw [hrole, hop]
    · rw [ho] at hd
      cases hd
      cases hrole
    · rw [hn] at ho
      cases ho
  cases op with
  | call1 proc =>
    rw [exec, Option.some.injEq] at hx
    unfold enter at hx
    split_ifs at hx
    · cases hx
      exact ⟨Nat.le_refl _, nofun, nofun, nofun, nofun⟩
    · cases hx
      exact ⟨Nat.le_refl _, nofun, nofun, nofun, nofun⟩
    · cases hx
      exact hcaller rfl rfl rfl (Nat.le_succ _) nofun
  | getRefconn f =>
    obtain ⟨⟨s₁, ch⟩, hg, hx⟩ := Option.map_eq_some_iff.mp hx
    cases hx
    exact hcaller rfl rfl rfl (Nat.le_of_eq (getRefconn_same hg).born.symm) nofun
  | send f =>
    rw [exec, send] at hx
    split at hx
    · cases hx
      exact hcaller rfl rfl rfl (Nat.le_refl _) nofun
    · obtain ⟨x, -, hx⟩ := Option.map_eq_some_iff.mp hx
      cases hx
      refine hcaller rfl rfl rfl ?_ nofun
      split_ifs <;> exact Nat.le_refl _
  | deadline f =>
    rw [exec, Option.some.injEq] at hx
    split_ifs at hx <;> cases hx <;> exact hcaller rfl rfl rfl (Nat.le_refl _) nofun
  | await f =>
    obtain ⟨rfl, -, o, ho, hrole⟩ := await_onward hx
    exact hcaller ho hrole rfl (Nat.le_refl _) fun _ _ _ => rfl
  | awaited f =>
    rw [exec, awaited] at hx
    split_ifs at hx
    · obtain ⟨ca, -, hx⟩ := Option.map_eq_some_iff.mp hx
      split_ifs at hx <;> cases hx <;> exact hcaller rfl rfl rfl (Nat.le_refl _) nofun
    · obtain ⟨rfl, -, o, ho, hrole⟩ := await_onward hx
      exact hcaller ho hrole rfl (Nat.le_refl _) fun _ _ _ => rfl
  | retry f =>
    obtain ⟨gone, -, hx⟩ := Option.map_eq_some_iff.mp hx
    split_ifs at hx <;> cases hx <;> exact hcaller rfl rfl rfl (Nat.le_refl _) nofun
  | leave f =>
    cases hx
    exact hcaller rfl rfl rfl (Nat.le_refl _) nofun
  | ret f =>
    obtain ⟨ca, -, hx⟩ := Option.bind_eq_some_iff.mp hx
    obtain ⟨heap, -, hx⟩ := Option.map_eq_some_iff.mp hx
    split_ifs at hx
    · cases hx
      exact hcaller rfl rfl rfl (Nat.le_refl _) nofun
    · cases hx
      exact ⟨Nat.le_refl _, nofun, nofun, nofun, nofun⟩
  | bound =>
    cases hx
    exact ⟨Nat.le_refl _, nofun, nofun, nofun, nofun⟩
  | gotPdu pdu =>
    simp only [exec, gotPdu] at hx
    split at hx
    · cases hx
      exact ⟨Nat.le_refl _, nofun, nofun, nofun, nofun⟩
    · obtain ⟨ca, -, hx⟩ := Option.map_eq_some_iff.mp hx
      cases hx
      refine ⟨?_, nofun, nofun, nofun, nofun⟩
      split_ifs <;> exact Nat.le_refl _
  | dies c =>
    cases hx
    exact ⟨Nat.le_refl _, nofun, nofun, nofun, nofun⟩
  | cancel =>
    obtain ⟨callers, -, hx⟩ := Option.map_eq_some_iff.mp hx
    dsimp only [cancelled] at hx
    split_ifs at hx
    · cases hx
      exact ⟨Nat.le_refl _, fun _ ho => by cases ho; rfl, nofun, nofun, fun _ _ _ => rfl⟩
    · cases hx
      exact ⟨Nat.le_refl _, nofun, nofun, nofun, nofun⟩
  | cancelled =>
    simp only [exec, cancelled] at hx
    split_ifs at hx
    · cases hx
      exact ⟨Nat.le_refl _, fun _ ho => by cases ho; rfl, nofun, nofun, fun _ _ _ => rfl⟩
    · cases hx
      exact ⟨Nat.le_refl _, nofun, nofun, nofun, nofun⟩
  | destroy =>
    rw [exec, destroy] at hx
    split at hx
    · cases hx
      exact ⟨Nat.le_refl _, fun _ ho => by cases ho; rfl, fun _ => rfl, nofun, nofun⟩
    · obtain ⟨x, -, hx⟩ := Option.map_eq_some_iff.mp hx
      cases hx
      exact ⟨Nat.le_refl _, fun _ ho => by cases ho; rfl, fun _ => rfl, nofun, nofun⟩
  | destroyed =>
    obtain ⟨heap, -, hx⟩ := Option.bind_eq_some_iff.mp hx
    split_ifs at hx
    cases hx
    exact ⟨Nat.le_refl _, nofun, nofun, fun _ _ => rfl, nofun⟩

theorem retired_release {heap heap' : Heap} {o chan : Option ℕ} (h : Retired chan heap)
    (hrel : release heap o = some heap') : Retired chan heap' := by
  cases o with
  | none =>
    cases hrel
    exact h
  | some c =>
    obtain ⟨x, hx, hrel⟩ := Option.bind_eq_some_iff.mp hrel
    split_ifs at hrel
    · cases hrel
      exact h.delete
    · cases hrel
      exact h.update hx id

/-- The poll thread and the destructor leave dead what is dead, and make no connection. -/
theorem stays_closed {e : Ended Op Result Cond} {ns : List (Notice Cond)}
    (hx : exec inp s op = some (s', ns, e)) (hop : op.role = .poll ∨ op.role = .owner) :
    (Retired none s.heap → Retired none s'.heap) ∧ (s.chan = none → s'.chan = none) := by
  cases op with
  | gotPdu pdu =>
    simp only [exec, gotPdu] at hx
    split at hx
    · cases hx
      exact ⟨id, id⟩
    · obtain ⟨ca, -, hx⟩ := Option.map_eq_some_iff.mp hx
      cases hx
      split_ifs
      · exact ⟨id, id⟩
      · exact ⟨id, id⟩
  | dies c =>
    cases hx
    exact ⟨fun h => h.kill c, id⟩
  | destroy =>
    rw [exec, destroy] at hx
    split at hx
    · cases hx
      exact ⟨id, id⟩
    · obtain ⟨x, -, hx⟩ := Option.map_eq_some_iff.mp hx
      cases hx
      exact ⟨fun h => h.kill _, id⟩
  | destroyed =>
    obtain ⟨heap, hrel, hx⟩ := Option.bind_eq_some_iff.mp hx
    split_ifs at hx
    cases hx
    exact ⟨fun h => retired_release h hrel, fun _ => rfl⟩
  | _ => rcases hop with hop | hop <;> cases hop

/-- `closeconn` leaves no connection alive. -/
theorem all_dead {e : Ended Op Result Cond} {ns : List (Notice Cond)}
    (hx : exec inp s .destroy = some (s', ns, e)) (h : Retired s.chan s.heap) :
    Retired none s'.heap := by
  rw [exec, destroy] at hx
  split at hx
  · rename_i hc
    cases hx
    exact hc ▸ h
  · rename_i c hc
    obtain ⟨x, hxc, hx⟩ := Option.map_eq_some_iff.mp hx
    cases hx
    intro d y hy _
    rw [kill, hxc] at hy
    by_cases hd : d = c
    · subst hd
      dsimp only at hy
      rw [Function.update_self] at hy
      cases hy
      rfl
    · dsimp only at hy
      rw [Function.update_of_ne hd] at hy
      exact h d y hy fun he => hd (Option.some.inj (hc.symm.trans he)).symm

theorem Sound.ran {e : Ended Op Result Cond} {ns : List (Notice Cond)} (h : Sound s vs)
    (hi : vs[i]? = some (u, some op)) (hx : exec inp s op = some (s', ns, e))
    (hbound : s.born + 2 < 2 ^ 32) : Sound s' (vs.set i (landedView users u e)) := by
  obtain ⟨s₁, ns₁, e₁, hx₁, hkept⟩ := h.comes hi hbound inp
  rw [hx] at hx₁
  cases hx₁
  have hmem := List.mem_of_getElem? hi
  have hu : u = op.role := h.roles _ hmem op rfl
  have honward := exec_onward hx
  -- with the destructor under way, only the poll thread and the owner run
  have hclosed : Idle vs → op.role = .poll ∨ op.role = .owner := by
    intro hidle
    have hnot := fun hr => Option.some_ne_none _ (hidle _ hmem hr)
    dsimp only at hnot
    rw [hu] at hnot
    cases op <;> first | exact .inl rfl | exact .inr rfl | exact absurd (.inl rfl) hnot |
      exact absurd (.inr rfl) hnot
  rw [landedView_eq] at hkept ⊢
  refine ⟨hkept, forall_mem_set h.roles ?_, ?_, ?_, ?_⟩
  · intro o ho
    dsimp only at ho ⊢
    rw [if_neg (by simp [ho]), hu, honward.role o ho]
  · rcases h.alone with hopen | hidle
    · left
      have hne : u ≠ .owner := fun hu => Option.some_ne_none _ ((hopen _ hmem).1 hu)
      refine forall_mem_set hopen ?_
      rw [if_neg fun hn => hne hn.2]
      exact ⟨fun hu => absurd hu hne, (hopen _ hmem).2⟩
    · right
      refine forall_mem_set hidle fun hr => absurd ?_ (fun hr => Option.some_ne_none _ (hidle _ hmem hr))
      dsimp only at hr
      split_ifs at hr
      · rcases hr with hr | hr <;> cases hr
      · exact hr
  · intro v hv hd
    rcases List.mem_or_eq_of_mem_set hv with hv | rfl
    · have hidle := h.idle hv (.inr ⟨h.roles v hv _ hd, by rw [hd]; nofun⟩)
      exact (stays_closed hx (hclosed hidle)).1 (h.closing v hv hd)
    · have := honward.destroyed hd
      subst this
      exact all_dead hx h.kept.linked.retired
  · intro v hv hgone
    rcases List.mem_or_eq_of_mem_set hv with hv | rfl
    · exact (stays_closed hx (hclosed (h.idle hv (.inl hgone)))).2 (h.ended v hv hgone)
    · dsimp only at hgone
      split_ifs at hgone with hret
      · have := honward.ended hret.1 (hu ▸ hret.2)
        subst this
        obtain ⟨heap, -, hx⟩ := Option.bind_eq_some_iff.mp hx
        split_ifs at hx
        cases hx
        rfl
      · rw [hu] at hgone
        cases op <;> cases hgone

theorem Sound.began (h : Sound s vs) (hi : vs[i]? = some (u, none)) (hb : Begins vs u op) :
    Sound s (vs.set i (u, some op)) := by
  have hkept : op.frame = none → Kept s (vs.set i (u, some op)) := fun hop =>
    h.kept.quiet hi rfl hop h.kept.linked (.refl s)
  have hset : op.frame = none → u = op.role → op ≠ .destroyed → u ≠ .gone →
      Open (vs.set i (u, some op)) ∨ Idle (vs.set i (u, some op)) → Sound s (vs.set i (u, some op)) := by
    intro hop hu hd hgone halone
    refine ⟨hkept hop, forall_mem_set h.roles fun o ho => ?_, halone, forall_mem_set h.closing ?_,
      forall_mem_set h.ended fun hu => absurd hu hgone⟩
    · cases ho
      exact hu
    · exact fun ho => absurd (Option.some.inj ho) hd
  cases hb with
  | call1 proc isOpen => exact hset rfl rfl nofun nofun (.inl (forall_mem_set isOpen ⟨nofun, nofun⟩))
  | cancel isOpen => exact hset rfl rfl nofun nofun (.inl (forall_mem_set isOpen ⟨nofun, nofun⟩))
  | gotPdu pdu =>
    refine hset rfl rfl nofun nofun (h.alone.imp ?_ ?_)
    · exact fun isOpen => forall_mem_set isOpen ⟨nofun, nofun⟩
    · exact fun idle => forall_mem_set idle fun hr => by rcases hr with hr | hr <;> cases hr
  | dies c =>
    refine hset rfl rfl nofun nofun (h.alone.imp ?_ ?_)
    · exact fun isOpen => forall_mem_set isOpen ⟨nofun, nofun⟩
    · exact fun idle => forall_mem_set idle fun hr => by rcases hr with hr | hr <;> cases hr
  | destroy idle =>
    refine hset rfl rfl nofun nofun (.inr (forall_mem_set idle fun hr => ?_))
    rcases hr with hr | hr <;> cases hr

variable {g g' : State} {l : Label} {tr : List Label} {retrans : Bool} {n m : ℕ}

theorem Sound.step (h : Sound g.shared g.views) (hs : Step rpcc users g l g')
    (hbound : g.shared.born + 2 < 2 ^ 32) : Sound g'.shared g'.views := by
  have hseen := hs.seen
  generalize g'.shared = s', g'.views = vs' at hseen
  cases hseen with
  | began hi hb => exact h.began hi hb
  | ran hi hx => exact h.ran hi hx hbound
  | moved _ hm => cases hm
  | stirred => exact h

theorem born_step (hs : Step rpcc users g l g') : g.shared.born ≤ g'.shared.born := by
  cases hs with
  | run hi ht hx hn => exact (exec_onward hx).born
  | _ => exact Nat.le_refl _

theorem sound_start : Sound (start retrans n m).shared (start retrans n m).views := by
  have hout : ∀ v ∈ (start retrans n m).views, v.2 = none ∧ v.1 ≠ .gone := by
    intro v hv
    simp only [start, Config.views, List.map_cons, List.map_append, List.map_replicate,
      List.mem_cons, List.mem_append, List.mem_replicate] at hv
    rcases hv with rfl | rfl | ⟨-, rfl⟩ | ⟨-, rfl⟩ <;> exact ⟨rfl, by decide⟩
  have hframe : ∀ v ∈ (start retrans n m).views, frameOf v = none := by
    intro v hv
    rw [frameOf, (hout v hv).1, Option.bind_none]
  have hcalls : (start retrans n m).views.filterMap callOf = [] := by
    refine List.filterMap_eq_nil_iff.mpr fun v hv => ?_
    rw [callOf, hframe v hv, Option.map_none]
  have hlisted := List.sublist_nil.mp (hcalls ▸ listed_sublist (start retrans n m).views)
  have hheld : ∀ c, held (start retrans n m).views c = 0 := by
    intro c
    refine List.countP_eq_zero.mpr fun v hv => ?_
    rw [chOf, hframe v hv]
    simp
  refine ⟨⟨⟨⟨fun c x hx => absurd hx (Option.some_ne_none x).symm, fun c => ?_, fun c _ => ?_⟩,
    fun c x hx => absurd hx (Option.some_ne_none x).symm⟩,
    ⟨rfl, ?_, ?_, ?_, ?_, ?_⟩⟩, ?_, ?_, ?_, ?_⟩
  · rw [hheld]
    exact ⟨fun _ => rfl, fun _ => rfl⟩
  · rw [hheld]
    rfl
  · exact fun v hv f hf => by rw [hframe v hv] at hf; cases hf
  · rw [hcalls]
    exact List.nodup_nil
  · rw [hcalls]
    exact fun a ha => absurd ha List.not_mem_nil
  · intro a
    rw [hcalls]
    exact ⟨fun h => absurd rfl h, fun h => absurd h List.not_mem_nil⟩
  · rw [hlisted]
    exact List.Perm.nil
  · exact fun v hv o ho => by rw [(hout v hv).1] at ho; cases ho
  · exact .inl fun v hv => ⟨fun _ => (hout v hv).1, (hout v hv).2⟩
  · exact fun v hv hd => by rw [(hout v hv).1] at hd; cases hd
  · exact fun v hv hgone => absurd hgone (hout v hv).2

/-- The xids of a client that has made fewer than `2 ^ 32 - 2` calls are all different. -/
theorem Sound.run (hr : Run (Step rpcc users) (start retrans n m) tr g)
    (hbound : g.shared.born + 2 < 2 ^ 32) : Sound g.shared g.views := by
  refine hr.invariant (I := fun g : State => g.shared.born + 2 < 2 ^ 32 → Sound g.shared g.views)
    (fun _ => sound_start) (fun g l g' ih hs hbound => ?_) hbound
  have := born_step hs
  exact (ih (by omega)).step hs (by omega)

/-- Whoever has a section to do can do it: no assertion fails, and no thread uses a call that has
returned or a connection that was deleted. -/
theorem client_never_faults (hr : Run (Step rpcc users) (start retrans n m) tr g)
    (hbound : g.shared.born + 2 < 2 ^ 32) {t : Thread Role Op Cond} {o : Op} (ht : t ∈ g.threads)
    (hnext : t.next = some (u, o)) (inp : Input) : (exec inp g.shared o).isSome = true := by
  obtain ⟨i, hi⟩ := List.mem_iff_getElem?.mp ht
  have hview := views_getElem? hi
  rw [view_of_next hnext] at hview
  obtain ⟨s', ns, e, hx, -⟩ := (Sound.run hr hbound).comes hview hbound inp
  rw [hx, Option.isSome_some]

/-- A thread binds, and the poll thread has just brought the reply. -/
def binding : List (Choice Input Role Op) :=
  [.begin 2 (.call1 bindProc), .run 2 {}, .run 2 {}, .run 2 {}, .run 2 {}, .run 2 {},
    .begin 0 (.gotPdu ⟨1, 0, []⟩), .run 0 {}]

theorem client_never_faults_binding : ∃ tr g,
    Run (Step rpcc users) (start true 1 1) tr g ∧ g.shared.born + 2 < 2 ^ 32 ∧
      ∃ f, .woken .caller (.caller 0) (.awaited f) ∈ g.threads ∧
        (exec {} g.shared (.awaited f)).isSome = true := by
  have hp : (play rpcc users binding (start true 1 1)).map (fun x => (x.2.shared.born, x.2.threads)) =
      some (1, [.out .poll, .out .owner,
        .woken .caller (.caller 0) (.awaited ⟨1, 0, 1, some 0, false⟩), .out .canceller]) := rfl
  obtain ⟨⟨tr, g⟩, hp, hobs⟩ := Option.map_eq_some_iff.mp hp
  obtain ⟨hborn, hthreads⟩ := Prod.mk.inj hobs
  dsimp only at hborn hthreads
  have hbound : g.shared.born + 2 < 2 ^ 32 := by omega
  have hmem : .woken .caller (.caller 0) (.awaited ⟨1, 0, 1, some 0, false⟩) ∈ g.threads := by
    rw [hthreads]
    decide
  exact ⟨tr, g, run_play hp, hbound, _, hmem,
    client_never_faults (run_play hp) hbound hmem rfl {}⟩

/-- A connection exists exactly as long as `chan_` or a call refers to it, and counts how many do.
Once the client is destroyed, no connection and no call is left. -/
theorem connections_are_referred_to (hr : Run (Step rpcc users) (start retrans n m) tr g)
    (hbound : g.shared.born + 2 < 2 ^ 32) :
    (∀ c, (g.shared.heap c).map (·.refno) =
      if own g.shared.chan c + held g.views c = 0 then none
      else some ((own g.shared.chan c + held g.views c : ℕ) : ℤ)) ∧
    (.out .gone ∈ g.threads → (∀ c, g.shared.heap c = none) ∧ (∀ a, g.shared.callers a = none) ∧
      g.shared.calls = []) := by
  have h := Sound.run hr hbound
  refine ⟨fun c => ?_, fun hgone => ?_⟩
  · split_ifs with hc
    · rw [(h.kept.linked.refs.unused c).mpr hc, Option.map_none]
    · obtain ⟨x, hx⟩ := Option.ne_none_iff_exists'.mp (mt (h.kept.linked.refs.unused c).mp hc)
      rw [hx, Option.map_some, h.kept.linked.refs.counted c x hx]
  · have hmem : ((.gone, none) : View) ∈ g.views := List.mem_map.mpr ⟨_, hgone, rfl⟩
    obtain ⟨hcalls, hcallers, hheld⟩ := h.no_calls (h.idle hmem (.inl rfl))
    refine ⟨fun c => (h.kept.linked.refs.unused c).mpr ?_, hcallers, hcalls⟩
    rw [h.ended _ hmem rfl, hheld]
    rfl

/-- Then the thread returns and the client is destroyed. -/
def unbinding : List (Choice Input Role Op) :=
  binding ++ [.run 2 {}, .run 2 {}, .run 2 {}, .run 2 {}, .begin 1 .destroy, .run 1 {}, .run 1 {}]

theorem connections_are_referred_to_unbinding : ∃ tr g,
    Run (Step rpcc users) (start true 1 1) tr g ∧ g.shared.born + 2 < 2 ^ 32 ∧
      .out .gone ∈ g.threads ∧ g.shared.made = 1 ∧ (∀ c, g.shared.heap c = none) ∧
        (∀ a, g.shared.callers a = none) ∧ g.shared.calls = [] := by
  have hp : (play rpcc users unbinding (start true 1 1)).map
      (fun x => (x.2.shared.born, x.2.shared.made, x.2.threads)) =
      some (1, 1, [.out .poll, .out .gone, .out .caller, .out .canceller]) := rfl
  obtain ⟨⟨tr, g⟩, hp, hobs⟩ := Option.map_eq_some_iff.mp hp
  simp only [Prod.mk.injEq] at hobs
  obtain ⟨hborn, hmade, hthreads⟩ := hobs
  have hbound : g.shared.born + 2 < 2 ^ 32 := by omega
  have hgone : .out .gone ∈ g.threads := by
    rw [hthreads]
    decide
  exact ⟨tr, g, run_play hp, hbound, hgone, hmade,
    (connections_are_referred_to (run_play hp) hbound).2 hgone⟩

end Yfs.ClientCalls
