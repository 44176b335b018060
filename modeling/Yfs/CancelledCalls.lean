import Yfs.ClientCalls

/-!
# Cancelling the calls of an RPC client

`cancel` fails every call in `calls_` and sleeps until the last one has left. The flag it sets keeps
new calls out, and every call is woken and finds that it is done, so what `cancel` waits for is only a
few sections of each call. The wake-up at the end is a signal: it reaches one thread, and with two
threads in `cancel` the other one sleeps on.
-/

namespace Yfs.CancelledCalls
open LabelledRuns Monitors RpcClient ClientCalls
open RpcSystem (Caller ReplyPdu)

/-! ## What a section tells -/

def Done (s : Client) (a : ℕ) : Prop := ∃ ca, s.callers a = some ca ∧ ca.done = true

/-- What a section does to the calls, and what it notifies. -/
structure Told (s : Client) (op : Op) (s' : Client) (ns : List (Notice Cond))
    (e : Ended Op Result Cond) : Prop where
  done : ∀ a, a < s.born → Done s a → s'.callers a ≠ none → Done s' a
  told : ∀ a, Done s' a → Done s a ∨ .signal (.caller a) ∈ ns ∨ .broadcast (.caller a) ∈ ns
  flag : s.destroyWait = true → s'.destroyWait = true
  raised : s'.destroyWait = true → s.destroyWait = true ∨ op = .cancelled ∨
    op = .cancel ∧ ∀ p ∈ s'.calls, Done s' p.2
  emptied : s'.calls = [] → s.calls = [] ∨ s.destroyWait = false ∨ .signal .destroyWait ∈ ns
  kept : s.destroyWait = true → s'.calls ⊆ s.calls
  signals : .signal .destroyWait ∈ ns ∨ .broadcast .destroyWait ∈ ns → ∃ f, op = .leave f

variable {s s' : Client} {op : Op} {f : Frame} {inp : Input} {ns : List (Notice Cond)}
  {e : Ended Op Result Cond} {a : ℕ}

theorem done_congr (h : s'.callers = s.callers) : Done s' a ↔ Done s a := by
  rw [Done, Done, h]

theorem Told.same (hcallers : s'.callers = s.callers) (hcalls : s'.calls = s.calls)
    (hwait : s'.destroyWait = s.destroyWait)
    (hns : .signal .destroyWait ∉ ns ∧ .broadcast .destroyWait ∉ ns := by simp) :
    Told s op s' ns e where
  done _ _ h _ := (done_congr hcallers).mpr h
  told _ h := .inl ((done_congr hcallers).mp h)
  flag h := hwait.trans h
  raised h := .inl (hwait.symm.trans h)
  emptied h := .inl (hcalls.symm.trans h)
  kept _ := hcalls ▸ List.Subset.refl _
  signals h := absurd h (not_or.mpr hns)

/-- Another value for one call: it stays done, or it is told that it is. -/
theorem Told.update {b : ℕ} {o : Option Caller}
    (hcallers : s'.callers = Function.update s.callers b o) (hcalls : s'.calls = s.calls)
    (hwait : s'.destroyWait = s.destroyWait)
    (hdone : ∀ ca, o = some ca → ca.done = true)
    (htold : o ≠ none → .broadcast (.caller b) ∈ ns)
    (hns : .signal .destroyWait ∉ ns ∧ .broadcast .destroyWait ∉ ns := by simp) :
    Told s op s' ns e where
  done a _ h hne := by
    by_cases hab : a = b
    · subst hab
      rw [hcallers, Function.update_self] at hne
      obtain ⟨ca, hca⟩ := Option.ne_none_iff_exists'.mp hne
      exact ⟨ca, by rw [hcallers, Function.update_self, hca], hdone ca hca⟩
    · obtain ⟨ca, hca, hd⟩ := h
      exact ⟨ca, by rw [hcallers, Function.update_of_ne hab, hca], hd⟩
  told a h := by
    obtain ⟨ca, hca, hd⟩ := h
    rw [hcallers] at hca
    by_cases hab : a = b
    · subst hab
      rw [Function.update_self] at hca
      exact .inr (.inr (htold (by rw [hca]; nofun)))
    · rw [Function.update_of_ne hab] at hca
      exact .inl ⟨ca, hca, hd⟩
  flag h := hwait.trans h
  raised h := .inl (hwait.symm.trans h)
  emptied h := .inl (hcalls.symm.trans h)
  kept _ := hcalls ▸ List.Subset.refl _
  signals h := absurd h (not_or.mpr hns)

/-- The loop of `cancel` leaves done what it passes, and touches nothing else. -/
theorem failAll_done {calls : List (ℕ × ℕ)} {callers callers' : ℕ → Option Caller}
    (h : failAll calls callers = some callers') (a : ℕ) :
    (a ∈ calls.map Prod.snd → ∃ ca, callers' a = some ca ∧ ca.done = true) ∧
      (a ∉ calls.map Prod.snd → callers' a = callers a) := by
  induction calls generalizing callers with
  | nil =>
    cases h
    exact ⟨nofun, fun _ => rfl⟩
  | cons p calls ih =>
    obtain ⟨x, b⟩ := p
    obtain ⟨ca, -, h⟩ := Option.bind_eq_some_iff.mp h
    obtain ⟨hin, hout⟩ := ih h
    rw [List.map_cons, List.mem_cons, not_or]
    constructor
    · intro ha
      by_cases hmem : a ∈ calls.map Prod.snd
      · exact hin hmem
      · obtain rfl := ha.resolve_right hmem
        refine ⟨{ ca with intret := cancelFailure, done := true }, ?_, rfl⟩
        rw [hout hmem, Function.update_self]
    · rintro ⟨hne, hmem⟩
      rw [hout hmem, Function.update_of_ne hne]

theorem told_cancel (hx : exec inp s .cancel = some (s', ns, e)) : Told s .cancel s' ns e := by
  obtain ⟨callers, hf, hx⟩ := Option.map_eq_some_iff.mp hx
  have hpart : s'.callers = callers ∧ s'.calls = s.calls ∧
      (s.destroyWait = true → s'.destroyWait = true) ∧
      ns = s.calls.map fun p => .signal (.caller p.2) := by
    dsimp only [cancelled] at hx
    split_ifs at hx
    · cases hx
      exact ⟨rfl, rfl, fun _ => rfl, rfl⟩
    · cases hx
      exact ⟨rfl, rfl, id, rfl⟩
  obtain ⟨hcallers, hcalls, hflag, hns⟩ := hpart
  have hin : ∀ a ∈ s.calls.map Prod.snd, Done s' a := by
    intro a ha
    obtain ⟨ca, hca, hd⟩ := (failAll_done hf a).1 ha
    exact ⟨ca, by rw [hcallers, hca], hd⟩
  have hout : ∀ a, a ∉ s.calls.map Prod.snd → (Done s' a ↔ Done s a) := by
    intro a ha
    rw [Done, Done, hcallers, (failAll_done hf a).2 ha]
  refine ⟨fun a _ h _ => ?_, fun a h => ?_, hflag, fun _ => ?_, fun h => .inl (hcalls ▸ h),
    fun _ => hcalls ▸ List.Subset.refl _, by simp [hns]⟩
  · by_cases ha : a ∈ s.calls.map Prod.snd
    · exact hin a ha
    · exact (hout a ha).mpr h
  · by_cases ha : a ∈ s.calls.map Prod.snd
    · obtain ⟨p, hp, rfl⟩ := List.mem_map.mp ha
      right; left
      rw [hns]
      exact List.mem_map_of_mem hp
    · exact .inl ((hout a ha).mp h)
  · exact .inr (.inr ⟨rfl, fun p hp => hin _ (List.mem_map_of_mem (hcalls ▸ hp))⟩)

theorem exec_told (hx : exec inp s op = some (s', ns, e)) : Told s op s' ns e := by
  cases op with
  | call1 proc =>
    rw [exec, Option.some.injEq] at hx
    unfold enter at hx
    split_ifs at hx with hbind hwait
    · cases hx
      exact .same rfl rfl rfl
    · cases hx
      exact .same rfl rfl rfl
    · cases hx
      have hother : ∀ a, a ≠ s.born →
          Function.update s.callers s.born (some {}) a = s.callers a := fun a ha =>
        Function.update_of_ne ha _ _
      refine ⟨fun a hlt h _ => ?_, fun a h => .inl ?_, id, .inl, by simp,
        fun h => absurd h hwait, by simp⟩
      · obtain ⟨ca, hca, hd⟩ := h
        exact ⟨ca, (hother a (Nat.ne_of_lt hlt)).trans hca, hd⟩
      · obtain ⟨ca, hca, hd⟩ := h
        by_cases ha : a = s.born
        · subst ha
          dsimp only at hca
          rw [Function.update_self] at hca
          cases hca
          cases hd
        · exact ⟨ca, (hother a ha).symm.trans hca, hd⟩
  | getRefconn f =>
    obtain ⟨⟨s₁, ch⟩, hg, hx⟩ := Option.map_eq_some_iff.mp hx
    cases hx
    have hsame := getRefconn_same hg
    exact .same hsame.callers hsame.calls hsame.destroyWait
  | send f =>
    rw [exec, send] at hx
    split at hx
    · cases hx
      exact .same rfl rfl rfl
    · obtain ⟨x, -, hx⟩ := Option.map_eq_some_iff.mp hx
      cases hx
      split_ifs <;> exact .same rfl rfl rfl
  | deadline f =>
    cases hx
    exact .same rfl rfl rfl
  | await f =>
    obtain ⟨rfl, rfl, -⟩ := await_onward hx
    exact .same rfl rfl rfl
  | awaited f =>
    rw [exec, awaited] at hx
    split_ifs at hx
    · obtain ⟨ca, -, hx⟩ := Option.map_eq_some_iff.mp hx
      cases hx
      exact .same rfl rfl rfl
    · obtain ⟨rfl, rfl, -⟩ := await_onward hx
      exact .same rfl rfl rfl
  | retry f =>
    obtain ⟨gone, -, hx⟩ := Option.map_eq_some_iff.mp hx
    cases hx
    exact .same rfl rfl rfl
  | leave f =>
    cases hx
    refine ⟨fun _ _ h _ => h, fun _ h => .inl h, id, .inl, fun _ => .inr ?_, fun _ => ?_,
      fun _ => ⟨f, rfl⟩⟩
    · cases hw : s.destroyWait with
      | false => exact .inl rfl
      | true => exact .inr List.mem_cons_self
    · exact List.filter_sublist.subset
  | ret f =>
    obtain ⟨ca, -, hx⟩ := Option.bind_eq_some_iff.mp hx
    obtain ⟨heap, -, hx⟩ := Option.map_eq_some_iff.mp hx
    cases hx
    exact .update rfl rfl rfl (by simp) fun h => absurd rfl h
  | bound =>
    cases hx
    exact .same rfl rfl rfl
  | gotPdu pdu =>
    simp only [exec, gotPdu] at hx
    split at hx
    · cases hx
      exact .same rfl rfl rfl
    · obtain ⟨ca, -, hx⟩ := Option.map_eq_some_iff.mp hx
      cases hx
      split_ifs
      · exact .same rfl rfl rfl
      · refine .update rfl rfl rfl ?_ fun _ => List.mem_singleton_self _
        rintro _ ⟨⟩
        rfl
  | dies c =>
    cases hx
    exact .same rfl rfl rfl
  | cancel => exact told_cancel hx
  | cancelled =>
    simp only [exec, cancelled] at hx
    split_ifs at hx
    · cases hx
      exact ⟨fun _ _ h _ => h, fun _ h => .inl h, fun _ => rfl, fun _ => .inr (.inl rfl), .inl,
        fun _ => List.Subset.refl _, by simp⟩
    · cases hx
      exact .same rfl rfl rfl
  | destroy =>
    rw [exec, destroy] at hx
    split at hx
    · cases hx
      exact .same rfl rfl rfl
    · obtain ⟨x, -, hx⟩ := Option.map_eq_some_iff.mp hx
      cases hx
      exact .same rfl rfl rfl
  | destroyed =>
    obtain ⟨heap, -, hx⟩ := Option.bind_eq_some_iff.mp hx
    split_ifs at hx
    cases hx
    exact .same rfl rfl rfl

/-- A call sleeps until it is done, and `cancel` until no call is left. -/
theorem exec_waits {c : Cond} {o : Op} (hx : exec inp s op = some (s', ns, .wait c o)) :
    (∃ f, o = .awaited f ∧ c = .caller f.caller ∧ ¬Done s' f.caller) ∨
      o = .cancelled ∧ c = .destroyWait ∧ s'.calls ≠ [] ∧ s'.destroyWait = true := by
  have hawait : ∀ {f : Frame}, await f s = some (s', ns, .wait c o) →
      ∃ f, o = .awaited f ∧ c = .caller f.caller ∧ ¬Done s' f.caller := by
    intro f hx
    obtain ⟨ca, hca, hx⟩ := Option.map_eq_some_iff.mp hx
    split_ifs at hx with hd
    · cases hx
    · cases hx
      refine ⟨f, rfl, rfl, ?_⟩
      rintro ⟨ca', hca', hd'⟩
      rw [hca] at hca'
      cases hca'
      exact hd hd'
  have hwaits := (exec_onward hx).waits c o rfl
  cases op with
  | await f => exact .inl (hawait hx)
  | awaited f =>
    rw [exec, awaited] at hx
    split_ifs at hx
    · obtain ⟨ca, -, hx⟩ := Option.map_eq_some_iff.mp hx
      split_ifs at hx <;> cases hx
    · exact .inl (hawait hx)
  | cancel =>
    obtain ⟨callers, -, hx⟩ := Option.map_eq_some_iff.mp hx
    dsimp only [cancelled] at hx
    split_ifs at hx with hlen
    · cases hx
      exact .inr ⟨rfl, rfl, List.length_pos_iff.mp hlen, rfl⟩
    · cases hx
  | cancelled =>
    simp only [exec, cancelled] at hx
    split_ifs at hx with hlen
    · cases hx
      exact .inr ⟨rfl, rfl, List.length_pos_iff.mp hlen, rfl⟩
    · cases hx
  | _ => cases hwaits

theorem exec_cancels (hx : exec inp s op = some (s', ns, e)) (hn : nextOp e = some .cancelled) :
    s'.destroyWait = true := by
  have hrole := (exec_onward hx).role _ hn
  cases op with
  | cancel =>
    obtain ⟨callers, -, hx⟩ := Option.map_eq_some_iff.mp hx
    dsimp only [cancelled] at hx
    split_ifs at hx
    · cases hx
      rfl
    · cases hx
      cases hn
  | cancelled =>
    simp only [exec, cancelled] at hx
    split_ifs at hx
    · cases hx
      rfl
    · cases hx
      cases hn
  | _ => cases hrole

/-! ## One thread that cancels -/

/-- What holds while one thread at most cancels. -/
structure Cancelling (g : State) : Prop where
  tied : ∀ t ∈ g.threads, t.Tied rpcc
  single : g.views.countP (fun v => v.1 = .canceller) ≤ 1
  waiting : ∀ v ∈ g.views, v.2 = some .cancelled → g.shared.destroyWait = true
  failed : g.shared.destroyWait = true → ∀ p ∈ g.shared.calls, Done g.shared p.2
  undone : ∀ a, 0 < sleepers (.caller a) g.threads → ¬Done g.shared a
  lasting : 0 < sleepers .destroyWait g.threads → g.shared.calls ≠ []

variable {g g' : State} {l : Label} {tr tr' : List Label} {retrans : Bool} {n : ℕ}

/-- At most one thread sleeps for a call. -/
theorem caller_sleepers (h : Table g.shared g.views) (ht : ∀ t ∈ g.threads, t.Tied rpcc) (a : ℕ) :
    sleepers (.caller a) g.threads ≤ 1 := by
  have hle := sleepers_le_views (c := Cond.caller a) (P := fun v => callOf v == some a) ht ?_
  · rw [← List.count_filterMap] at hle
    exact hle.trans (List.nodup_iff_count_le_one.mp h.nodup a)
  · rintro u o ⟨x, o₀, s, s', ns, hx⟩
    rcases exec_waits hx with ⟨f, rfl, hc, -⟩ | ⟨-, hc, -⟩
    · cases hc
      simp [callOf, frameOf, Op.frame]
    · cases hc

/-- At most one thread sleeps in `cancel`, and then new calls are kept out. -/
theorem Cancelling.cancel_sleepers (h : Cancelling g) (hs : Sound g.shared g.views) :
    sleepers .destroyWait g.threads ≤ 1 ∧
      (0 < sleepers .destroyWait g.threads → g.shared.destroyWait = true) := by
  have hle := sleepers_le_views (c := Cond.destroyWait)
    (P := fun v => decide (v.2 = some .cancelled)) h.tied ?_
  · constructor
    · refine hle.trans (Nat.le_trans (List.countP_mono_left fun v hv hc => ?_) h.single)
      exact decide_eq_true (hs.roles v hv _ (of_decide_eq_true hc))
    · intro hpos
      obtain ⟨v, hv, hc⟩ := List.countP_pos_iff.mp (Nat.lt_of_lt_of_le hpos hle)
      exact h.waiting v hv (of_decide_eq_true hc)
  · rintro u o ⟨x, o₀, s, s', ns, hx⟩
    rcases exec_waits hx with ⟨f, -, hc, -⟩ | ⟨rfl, -⟩
    · cases hc
    · rfl

theorem single_set {vs : List View} {u u' : Role} {o o' : Option Op} {i : ℕ}
    (h : vs.countP (fun v => v.1 = .canceller) ≤ 1) (hi : vs[i]? = some (u, o))
    (hu : u' = .canceller → u = .canceller) :
    (vs.set i (u', o')).countP (fun v => v.1 = .canceller) ≤ 1 := by
  have hset := countP_set_toNat (fun v : View => decide (v.1 = .canceller)) (b := (u', o')) hi
  have hle : (decide (u' = .canceller)).toNat ≤ (decide (u = .canceller)).toNat := by
    by_cases h' : u' = .canceller
    · simp [h', hu h']
    · simp [h']
  dsimp only at hset
  omega

theorem Cancelling.step (h : Cancelling g) (hs : Sound g.shared g.views)
    (hs' : Sound g'.shared g'.views) (hstep : Step rpcc users g l g') : Cancelling g' := by
  obtain ⟨hone, hflag⟩ := h.cancel_sleepers hs
  refine ⟨tied_step h.tied hstep, ?_, ?_, ?_, fun a => ?_, ?_⟩
  · have hseen := hstep.seen
    generalize g'.shared = s', g'.views = vs' at hseen
    cases hseen with
    | began hi _ => exact single_set h.single hi id
    | @ran i x u o s ns e hi hx =>
      rw [landedView_eq]
      refine single_set h.single hi fun hu => ?_
      split_ifs at hu
      exact hu
    | moved _ hm => cases hm
    | stirred => exact h.single
  · have hseen := hstep.seen
    generalize g'.shared = s', g'.views = vs' at hseen
    cases hseen with
    | began hi hb =>
      refine forall_mem_set h.waiting fun ho => ?_
      cases ho
      cases hb
    | @ran i x u o s ns e hi hx =>
      rw [landedView_eq]
      refine forall_mem_set (fun v hv hc => ?_) (exec_cancels hx)
      exact (exec_told hx).flag (h.waiting v hv hc)
    | moved _ hm => cases hm
    | stirred => exact h.waiting
  · cases hstep with
    | @run i t x u o s ns e ts hi ht hx hn =>
      intro hw p hp
      have htold := exec_told hx
      have hkeep : g.shared.destroyWait = true → Done s p.2 := by
        intro hw₀
        have hp₀ := htold.kept hw₀ hp
        obtain ⟨a, ha, rfl⟩ := List.mem_map.mp (hs.kept.table.calls.mem_iff.mp hp₀)
        exact htold.done a (hs.kept.table.born a ((listed_sublist _).subset ha))
          (h.failed hw₀ _ hp₀) (hs'.kept.table.alive hp)
      rcases htold.raised hw with hw₀ | rfl | ⟨-, hall⟩
      · exact hkeep hw₀
      · have hview : g.views[i]? = some (u, some .cancelled) := by
          rw [views_getElem? hi, view_of_next ht]
        exact hkeep (h.waiting _ (List.mem_of_getElem? hview) rfl)
      · exact hall p hp
    | move _ hm => cases hm
    | _ => exact h.failed
  · refine sleeps_while_step (Q := fun s => ¬Done s a) (h.undone a) hstep
      (caller_sleepers hs.kept.table h.tied a) ?_ ?_
    · intro x o s ns o' hx
      rcases exec_waits hx with ⟨f, -, hc, hnot⟩ | ⟨-, hc, -⟩
      · cases hc
        exact hnot
      · cases hc
    · intro x o s ns e hx _ hnot
      by_cases hd : Done s a
      · exact .inr (((exec_told hx).told a hd).resolve_left hnot)
      · exact .inl hd
  · refine sleeps_while_step (Q := fun s => s.calls ≠ []) h.lasting hstep hone ?_ ?_
    · intro x o s ns o' hx
      rcases exec_waits hx with ⟨f, -, hc, -⟩ | ⟨-, -, hne, -⟩
      · cases hc
      · exact hne
    · intro x o s ns e hx hpos hne
      by_cases hempty : s.calls = []
      · rcases (exec_told hx).emptied hempty with h0 | h0 | h0
        · exact absurd h0 hne
        · rw [hflag hpos] at h0
          cases h0
        · exact .inr (.inl h0)
      · exact .inl hempty

theorem cancelling_start : Cancelling (start retrans n 1) := by
  have hout : ∀ t ∈ (start retrans n 1).threads, ∃ u, t = .out u := by
    intro t ht
    simp only [start, List.mem_cons, List.mem_append, List.mem_replicate] at ht
    rcases ht with rfl | rfl | ⟨-, rfl⟩ | ⟨-, rfl⟩ <;> exact ⟨_, rfl⟩
  have hnone : ∀ c, ¬0 < sleepers c (start retrans n 1).threads := by
    intro c hpos
    obtain ⟨t, ht, hs⟩ := List.countP_pos_iff.mp hpos
    obtain ⟨u, rfl⟩ := hout t ht
    cases hs
  refine ⟨fun t ht => ?_, ?_, fun v hv hc => ?_, fun h => absurd h Bool.false_ne_true,
    fun a h => absurd h (hnone _), fun h => absurd h (hnone _)⟩
  · obtain ⟨u, rfl⟩ := hout t ht
    trivial
  · simp [start, Config.views, Thread.view, List.countP_replicate]
  · obtain ⟨t, ht, rfl⟩ := List.mem_map.mp hv
    obtain ⟨u, rfl⟩ := hout t ht
    cases hc

theorem Cancelling.run (h : Cancelling g) (hs : Sound g.shared g.views)
    (hr : Run (Step rpcc users) g tr g') (hbound : g'.shared.born + 2 < 2 ^ 32) :
    Sound g'.shared g'.views ∧ Cancelling g' := by
  induction hr with
  | nil => exact ⟨hs, h⟩
  | snoc _ last ih =>
    have hle := born_step last
    obtain ⟨hs₀, h₀⟩ := ih (by omega)
    have hs' := hs₀.step last (by omega)
    exact ⟨hs', h₀.step hs₀ hs' last⟩

/-! ## What is left to do -/

/-- How many sections a call that is done still has to do. -/
def left : Op → ℕ
  | .ret _ => 1
  | .leave _ => 2
  | .await _ | .awaited _ => 3
  | .deadline _ => 4
  | .send _ => 5
  | .getRefconn _ => 6
  | .retry _ => 7
  | _ => 0

/-- What a call still has to do, as far as a thread is concerned. -/
def share (a : ℕ) (v : View) : ℕ := if callOf v = some a then v.2.elim 0 left else 0

def work (a : ℕ) (vs : List View) : ℕ := (vs.map (share a)).sum

/-- The sections of a call after its first. -/
def inCall (a : ℕ) : Label → Bool
  | (_, .ran _ o _) => o.frame.map Frame.caller = some a
  | _ => false

theorem left_of_role {o : Op} (h : o.role ≠ .caller) : left o = 0 := by
  cases o with
  | gotPdu => rfl
  | dies => rfl
  | cancel => rfl
  | cancelled => rfl
  | destroy => rfl
  | destroyed => rfl
  | _ => exact absurd rfl h

theorem await_left (hx : await f s = some (s', ns, e)) (hd : Done s f.caller) :
    nextOp e = some (.leave f) := by
  obtain ⟨ca, hca, hdone⟩ := hd
  rw [await, hca, Option.map_some, if_pos hdone] at hx
  cases hx
  rfl

/-- A section of a call that is done brings it nearer to its end, and no call begins. -/
theorem exec_left (hx : exec inp s op = some (s', ns, e)) (hw : s.destroyWait = true)
    (hd : ∀ f, op.frame = some f → op.isListed = true → Done s f.caller) :
    (nextOp e).elim 0 left + op.frame.isSome.toNat ≤ left op := by
  have hother : op.role ≠ .caller → (nextOp e).elim 0 left = 0 := by
    intro hrole
    cases hn : nextOp e with
    | none => rfl
    | some o => exact left_of_role ((exec_onward hx).role o hn ▸ hrole)
  cases op with
  | call1 proc =>
    rw [exec, Option.some.injEq] at hx
    unfold enter at hx
    split_ifs at hx
    · cases hx
      exact Nat.le_refl _
    · cases hx
      exact Nat.le_refl _
  | getRefconn f =>
    obtain ⟨⟨s₁, ch⟩, -, hx⟩ := Option.map_eq_some_iff.mp hx
    cases hx
    exact Nat.le_refl _
  | send f =>
    rw [exec, send] at hx
    split at hx
    · cases hx
      exact Nat.le_refl _
    · obtain ⟨x, -, hx⟩ := Option.map_eq_some_iff.mp hx
      cases hx
      exact Nat.le_refl _
  | deadline f =>
    rw [exec, Option.some.injEq] at hx
    split_ifs at hx <;> cases hx <;> simp [nextOp, left, Op.frame]
  | await f =>
    rw [await_left hx (hd f rfl rfl)]
    exact Nat.le_refl _
  | awaited f =>
    have hdone := hd f rfl rfl
    rw [exec, awaited] at hx
    split_ifs at hx
    · obtain ⟨ca, hca, hdone⟩ := hdone
      rw [hca, Option.map_some, if_pos hdone] at hx
      cases hx
      exact Nat.le_refl _
    · rw [await_left hx hdone]
      exact Nat.le_refl _
  | retry f =>
    obtain ⟨gone, -, hx⟩ := Option.map_eq_some_iff.mp hx
    split_ifs at hx <;> cases hx <;> simp [nextOp, left, Op.frame]
  | leave f =>
    cases hx
    exact Nat.le_refl _
  | ret f =>
    obtain ⟨ca, -, hx⟩ := Option.bind_eq_some_iff.mp hx
    obtain ⟨heap, -, hx⟩ := Option.map_eq_some_iff.mp hx
    split_ifs at hx <;> cases hx <;> simp [nextOp, left, Op.frame]
  | bound =>
    cases hx
    exact Nat.le_refl _
  | _ =>
    rw [hother (by simp [Op.role])]
    exact Nat.le_refl _

/-- A thread goes on with the call it is in. -/
theorem exec_caller {o : Op} (hx : exec inp s op = some (s', ns, e)) (hw : s.destroyWait = true)
    (ho : nextOp e = some o) (hf : o.frame.map Frame.caller = some a) :
    op.frame.map Frame.caller = some a := by
  have hawait : ∀ {f : Frame}, await f s = some (s', ns, e) → some f.caller = some a := by
    intro f hx
    obtain ⟨ca, -, hx⟩ := Option.map_eq_some_iff.mp hx
    split_ifs at hx <;> cases hx <;> cases ho <;> exact hf
  cases op with
  | call1 proc =>
    rw [exec, Option.some.injEq] at hx
    unfold enter at hx
    split_ifs at hx
    · cases hx
      cases ho
    · cases hx
      cases ho
  | getRefconn f =>
    obtain ⟨⟨s₁, ch⟩, -, hx⟩ := Option.map_eq_some_iff.mp hx
    cases hx
    cases ho
    exact hf
  | send f =>
    rw [exec, send] at hx
    split at hx
    · cases hx
      cases ho
      exact hf
    · obtain ⟨x, -, hx⟩ := Option.map_eq_some_iff.mp hx
      cases hx
      cases ho
      exact hf
  | deadline f =>
    rw [exec, Option.some.injEq] at hx
    split_ifs at hx <;> cases hx <;> cases ho <;> exact hf
  | await f => exact hawait hx
  | awaited f =>
    rw [exec, awaited] at hx
    split_ifs at hx
    · obtain ⟨ca, -, hx⟩ := Option.map_eq_some_iff.mp hx
      split_ifs at hx <;> cases hx <;> cases ho <;> exact hf
    · exact hawait hx
  | retry f =>
    obtain ⟨gone, -, hx⟩ := Option.map_eq_some_iff.mp hx
    split_ifs at hx <;> cases hx <;> cases ho <;> exact hf
  | leave f =>
    cases hx
    cases ho
    exact hf
  | ret f =>
    obtain ⟨ca, -, hx⟩ := Option.bind_eq_some_iff.mp hx
    obtain ⟨heap, -, hx⟩ := Option.map_eq_some_iff.mp hx
    split_ifs at hx <;> cases hx <;> cases ho
    cases hf
  | bound =>
    cases hx
    cases ho
  | _ =>
    -- a thread that makes no call does not begin one
    have hrole := (exec_onward hx).role o ho
    cases hframe : o.frame with
    | none =>
      rw [hframe] at hf
      cases hf
    | some f =>
      rw [role_of_frame hframe] at hrole
      cases hrole

/-- The call of a thread that has not left is in `calls_`. -/
theorem listed_mem {vs : List View} {u : Role} {i : ℕ} (h : Table s vs)
    (hi : vs[i]? = some (u, some op)) (hf : op.frame = some f) (hl : op.isListed = true) :
    (f.caller + 1, f.caller) ∈ s.calls := by
  refine h.calls.mem_iff.mpr (List.mem_map.mpr ⟨f.caller, ?_, rfl⟩)
  refine List.mem_filterMap.mpr ⟨_, List.mem_of_getElem? hi, ?_⟩
  simp [listedOf, hl, hf]

theorem share_step (u u' : Role) (hx : exec inp s op = some (s', ns, e))
    (hw : s.destroyWait = true)
    (hd : ∀ f, op.frame = some f → op.isListed = true → Done s f.caller) :
    share a (u', nextOp e) + (decide (op.frame.map Frame.caller = some a)).toNat ≤
      share a (u, some op) := by
  have hleft := exec_left hx hw hd
  have hold : callOf (u, some op) = op.frame.map Frame.caller := rfl
  by_cases ha : op.frame.map Frame.caller = some a
  · have hsome : op.frame.isSome = true := by
      cases hf : op.frame with
      | none =>
        rw [hf] at ha
        cases ha
      | some f => rfl
    rw [hsome, Bool.toNat_true] at hleft
    have hnew : share a (u', nextOp e) ≤ (nextOp e).elim 0 left := by
      unfold share
      split_ifs
      · exact Nat.le_refl _
      · exact Nat.zero_le _
    have hnow : share a (u, some op) = left op := if_pos (hold.trans ha)
    rw [hnow, decide_eq_true ha, Bool.toNat_true]
    exact (Nat.add_le_add_right hnew 1).trans hleft
  · have hnew : share a (u', nextOp e) = 0 := by
      rw [share, if_neg]
      intro hcall
      cases ho : nextOp e with
      | none =>
        rw [ho] at hcall
        cases hcall
      | some o =>
        rw [ho] at hcall
        exact ha (exec_caller hx hw ho hcall)
    rw [hnew, decide_eq_false ha]
    exact Nat.zero_le _

theorem work_step (h : Cancelling g) (hs : Sound g.shared g.views)
    (hw : g.shared.destroyWait = true) (hstep : Step rpcc users g l g') :
    work a g'.views + (inCall a l).toNat ≤ work a g.views := by
  have hseen := hstep.seen
  generalize g'.shared = s', g'.views = vs' at hseen
  cases hseen with
  | @began i u o hi hb =>
    have hset := sum_set (share a) (u, some o) hi
    have hzero : share a (u, some o) = 0 := by cases hb <;> rfl
    simp only [work, inCall, Bool.toNat_false]
    omega
  | @ran i x u o s ns e hi hx =>
    have hset := sum_set (share a) (landedView users u e) hi
    rw [landedView_eq] at hset
    have hshare := share_step (a := a) u (if nextOp e = none ∧ u = .owner then .gone else u) hx hw
      fun f hf hl => h.failed hw _ (listed_mem hs.kept.table hi hf hl)
    rw [landedView_eq]
    simp only [work, inCall]
    omega
  | moved _ hm => cases hm
  | stirred => exact Nat.le_refl _

/-- Once `cancel` waits, every section of a call leaves it less to do, and no call enters. -/
theorem work_run (h : Cancelling g) (hs : Sound g.shared g.views)
    (hw : g.shared.destroyWait = true) (hr : Run (Step rpcc users) g tr g')
    (hbound : g'.shared.born + 2 < 2 ^ 32) :
    (∀ a, work a g'.views + tr.countP (inCall a) ≤ work a g.views) ∧
      g'.shared.calls ⊆ g.shared.calls ∧ g'.shared.destroyWait = true := by
  induction hr with
  | nil => exact ⟨fun _ => Nat.le_refl _, List.Subset.refl _, hw⟩
  | @snoc tr b c l run last ih =>
    have hle := born_step last
    obtain ⟨hwork, hcalls, hflag⟩ := ih (by omega)
    obtain ⟨hs₀, h₀⟩ := h.run hs run (by omega)
    refine ⟨?_, ?_⟩
    · intro a
      have hstep := work_step (a := a) h₀ hs₀ hflag last
      have ha := hwork a
      rw [List.countP_append, List.countP_singleton]
      cases hl : inCall a l <;> simp [hl] at hstep ⊢ <;> omega
    · cases last with
      | run _ _ hx _ =>
        exact ⟨List.Subset.trans ((exec_told hx).kept hflag) hcalls, (exec_told hx).flag hflag⟩
      | _ => exact ⟨hcalls, hflag⟩

theorem share_le (a : ℕ) (v : View) : share a v ≤ 7 * (decide (callOf v = some a)).toNat := by
  obtain ⟨u, o⟩ := v
  unfold share
  split_ifs with hcall
  · rw [decide_eq_true hcall]
    cases o with
    | none => exact Nat.zero_le _
    | some o => cases o <;> simp [left]
  · exact Nat.zero_le _

/-- A call that is under way has at most seven sections to do, any other none. -/
theorem work_le (a : ℕ) (vs : List View) : work a vs ≤ 7 * (vs.filterMap callOf).count a := by
  induction vs with
  | nil => exact Nat.le_refl _
  | cons v vs ih =>
    have hcount : ((v :: vs).filterMap callOf).count a =
        (decide (callOf v = some a)).toNat + (vs.filterMap callOf).count a := by
      cases hv : callOf v with
      | none => simp [List.filterMap_cons_none hv]
      | some b =>
        rw [List.filterMap_cons_some hv, List.count_cons]
        by_cases hb : b = a <;> simp [hb, Nat.add_comm]
    have hv := share_le a v
    rw [hcount]
    simp only [work, List.map_cons, List.sum_cons] at ih ⊢
    omega

/-- While somebody sleeps, there is a call whose thread is awake. -/
theorem Cancelling.call_awake (h : Cancelling g) (hs : Sound g.shared g.views)
    (hw : g.shared.destroyWait = true) {t : Thread Role Op Cond} (ht : t ∈ g.threads)
    (hsleep : t.isAsleep = true) :
    ∃ t ∈ g.threads, ∃ u o, t.next = some (u, o) ∧ o.frame.isSome = true := by
  -- no call sleeps, since all of them are done
  have hcalls : ∀ u f a, Thread.asleep u (.caller a) (.awaited f) ∈ g.threads → a ≠ f.caller := by
    rintro u f _ hmem rfl
    obtain ⟨i, hi⟩ := List.mem_iff_getElem?.mp hmem
    exact h.undone _ (sleepers_pos hi)
      (h.failed hw _ (listed_mem hs.kept.table (views_getElem? hi) rfl rfl))
  have hcancel : ∀ u c o, Thread.asleep u c o ∈ g.threads → c = .destroyWait ∧ o = .cancelled := by
    intro u c o hmem
    obtain ⟨x, o₀, s, s', ns, hx⟩ := h.tied _ hmem
    rcases exec_waits hx with ⟨f, rfl, rfl, -⟩ | ⟨ho, hc, -⟩
    · exact absurd rfl (hcalls u f _ hmem)
    · exact ⟨hc, ho⟩
  cases t with
  | asleep u c o =>
    obtain ⟨rfl, -⟩ := hcancel u c o ht
    obtain ⟨i, hi⟩ := List.mem_iff_getElem?.mp ht
    have hne := h.lasting (sleepers_pos hi)
    obtain ⟨p, hp⟩ := List.exists_mem_of_ne_nil _ hne
    obtain ⟨a, ha, -⟩ := List.mem_map.mp (hs.kept.table.calls.mem_iff.mp hp)
    obtain ⟨v, hv, hl⟩ := List.mem_filterMap.mp ha
    obtain ⟨t', ht', rfl⟩ := List.mem_map.mp hv
    have hframe : ∀ {u : Role} {o : Op}, listedOf (u, some o) = some a → o.frame.isSome = true := by
      intro u o hl
      cases hf : o.frame with
      | none => simp [listedOf, hf] at hl
      | some f => rfl
    refine ⟨t', ht', ?_⟩
    cases t' with
    | out u' => cases hl
    | ready u' o' => exact ⟨u', o', rfl, hframe hl⟩
    | woken u' c' o' => exact ⟨u', o', rfl, hframe hl⟩
    | asleep u' c' o' =>
      obtain ⟨-, rfl⟩ := hcancel u' c' o' ht'
      cases hl
  | _ => cases hsleep

/-- With one thread that cancels, `cancel` returns: once it has begun to wait, no call enters
`calls_`, every call that is under way does at most seven more sections and no other call does any;
and while somebody sleeps, one of the calls can go on. -/
theorem cancel_returns (hr : Run (Step rpcc users) (start retrans n 1) tr g)
    (hw : g.shared.destroyWait = true) (hr' : Run (Step rpcc users) g tr' g')
    (hbound : g'.shared.born + 2 < 2 ^ 32) :
    (∀ a, tr'.countP (inCall a) ≤ if a ∈ g.views.filterMap callOf then 7 else 0) ∧
      g'.shared.calls ⊆ g.shared.calls ∧
      ((∃ t ∈ g'.threads, t.isAsleep = true) →
        ∃ t ∈ g'.threads, ∃ u o, t.next = some (u, o) ∧ o.frame.isSome = true ∧
          ∀ inp, (exec inp g'.shared o).isSome = true) := by
  have hborn : g.shared.born ≤ g'.shared.born :=
    hr'.invariant (I := fun b : State => g.shared.born ≤ b.shared.born) (Nat.le_refl _)
      fun _ _ _ ih hs => ih.trans (born_step hs)
  obtain ⟨hs, h⟩ := cancelling_start.run sound_start hr (by omega)
  obtain ⟨hwork, hcalls, hflag⟩ := work_run h hs hw hr' hbound
  obtain ⟨hs', h'⟩ := h.run hs hr' hbound
  refine ⟨?_, hcalls, ?_⟩
  · intro a
    have hle := work_le a g.views
    have ha := hwork a
    split_ifs with hmem
    · have := List.nodup_iff_count_le_one.mp hs.kept.table.nodup a
      omega
    · rw [List.count_eq_zero.mpr hmem] at hle
      omega
  · rintro ⟨t, ht, hsleep⟩
    obtain ⟨t', ht', u, o, hnext, hframe⟩ := h'.call_awake hs' hflag ht hsleep
    refine ⟨t', ht', u, o, hnext, hframe, fun inp => ?_⟩
    obtain ⟨i, hi⟩ := List.mem_iff_getElem?.mp ht'
    have hview := views_getElem? hi
    rw [view_of_next hnext] at hview
    obtain ⟨s', ns, e, hx, -⟩ := hs'.comes hview hbound inp
    rw [hx, Option.isSome_some]

/-- A thread waits for the reply to `bind`; another one cancels and sleeps until the call has left. -/
def cancellingBind : List (Choice Input Role Op) :=
  [.begin 2 (.call1 bindProc), .run 2 {}, .run 2 {}, .run 2 {}, .run 2 {}, .run 2 {},
    .begin 3 .cancel, .run 3 {}]

theorem cancel_returns_bind : ∃ tr g, Run (Step rpcc users) (start true 1 1) tr g ∧
    g.shared.destroyWait = true ∧ g.shared.born + 2 < 2 ^ 32 ∧
      .asleep .canceller .destroyWait .cancelled ∈ g.threads ∧
        ∃ t ∈ g.threads, ∃ u o, t.next = some (u, o) ∧ o.frame.isSome = true ∧
          ∀ inp, (exec inp g.shared o).isSome = true := by
  have hp : (play rpcc users cancellingBind (start true 1 1)).map
      (fun x => (x.2.shared.destroyWait, x.2.shared.born, x.2.threads)) =
      some (true, 1, [.out .poll, .out .owner,
        .woken .caller (.caller 0) (.awaited ⟨1, 0, 1, some 0, false⟩),
        .asleep .canceller .destroyWait .cancelled]) := rfl
  obtain ⟨⟨tr, g⟩, hp, hobs⟩ := Option.map_eq_some_iff.mp hp
  simp only [Prod.mk.injEq] at hobs
  obtain ⟨hwait, hborn, hthreads⟩ := hobs
  have hbound : g.shared.born + 2 < 2 ^ 32 := by omega
  have hmem : .asleep .canceller .destroyWait .cancelled ∈ g.threads := by
    rw [hthreads]
    decide
  exact ⟨tr, g, run_play hp, hwait, hbound, hmem,
    (cancel_returns (run_play hp) hwait .nil hbound).2.2 ⟨_, hmem, rfl⟩⟩

/-! ## Two threads that cancel -/

/-- With no call in `calls_`, nobody signals `destroy_wait_c_`, and no call comes. -/
theorem forgotten_step {i : ℕ} {u : Role} {o : Op} (hs : Sound g.shared g.views)
    (hi : g.threads[i]? = some (.asleep u .destroyWait o)) (hw : g.shared.destroyWait = true)
    (hempty : g.shared.calls = []) (hstep : Step rpcc users g l g') (hstir : l ≠ (i, .stirred)) :
    g'.threads[i]? = some (.asleep u .destroyWait o) ∧ g'.shared.destroyWait = true ∧
      g'.shared.calls = [] := by
  have hother : ∀ {j : ℕ} {t t' : Thread Role Op Cond}, g.threads[j]? = some t →
      t.isAsleep = false → (g.threads.set j t')[i]? = some (.asleep u .destroyWait o) := by
    intro j t t' hj ht
    rw [List.getElem?_set_ne, hi]
    rintro rfl
    rw [hi] at hj
    cases hj
    cases ht
  cases hstep with
  | begin hj => exact ⟨hother hj rfl, hw, hempty⟩
  | move hj => exact ⟨hother hj rfl, hw, hempty⟩
  | @stir j u' c o' hj =>
    refine ⟨?_, hw, hempty⟩
    rw [List.getElem?_set_ne, hi]
    rintro rfl
    exact hstir rfl
  | @run j t x u' op s ns e ts hj ht hx hn =>
    have htold := exec_told hx
    refine ⟨?_, htold.flag hw, List.subset_nil.mp (hempty ▸ htold.kept hw)⟩
    have hquiet : ¬(.signal .destroyWait ∈ ns ∨ .broadcast .destroyWait ∈ ns) := by
      intro hsignal
      obtain ⟨f, rfl⟩ := htold.signals hsignal
      have hview := views_getElem? hj
      rw [view_of_next ht] at hview
      have hmem := listed_mem hs.kept.table hview rfl rfl
      rw [hempty] at hmem
      cases hmem
    obtain ⟨hsignal, hbroad⟩ := not_or.mp hquiet
    rw [List.getElem?_set_ne]
    · exact hn.sleeps hi hsignal hbroad
    · rintro rfl
      rw [hi] at hj
      cases hj
      cases ht

/-- Once no call is left, whoever still sleeps in `cancel` sleeps on, unless it stirs by itself. -/
theorem second_canceller_sleeps_on {m i : ℕ} {u : Role} {o : Op}
    (hr : Run (Step rpcc users) (start retrans n m) tr g)
    (hi : g.threads[i]? = some (.asleep u .destroyWait o)) (hw : g.shared.destroyWait = true)
    (hempty : g.shared.calls = []) (hr' : Run (Step rpcc users) g tr' g')
    (hstir : ∀ l ∈ tr', l ≠ (i, .stirred)) (hbound : g'.shared.born + 2 < 2 ^ 32) :
    g'.threads[i]? = some (.asleep u .destroyWait o) := by
  suffices h : g'.threads[i]? = some (.asleep u .destroyWait o) ∧ g'.shared.destroyWait = true ∧
      g'.shared.calls = [] from h.1
  induction hr' with
  | nil => exact ⟨hi, hw, hempty⟩
  | @snoc tr' b c l run last ih =>
    rw [List.forall_mem_append, List.forall_mem_singleton] at hstir
    have hle := born_step last
    obtain ⟨hi', hw', hempty'⟩ := ih hstir.1 (by omega)
    exact forgotten_step (Sound.run (hr.append run) (by omega)) hi' hw' hempty' last hstir.2

/-- Two threads cancel while a third one waits for the reply to `bind`. When the call has left, one of
the two returns. -/
def twoCancel : List (Choice Input Role Op) :=
  [.begin 2 (.call1 bindProc), .run 2 {}, .run 2 {}, .run 2 {}, .run 2 {}, .run 2 {},
    .begin 3 .cancel, .run 3 {}, .begin 4 .cancel, .run 4 {}, .run 2 {}, .run 2 {}, .run 3 {}]

theorem second_canceller_sleeps_on_two : ∃ tr g tr' g',
    Run (Step rpcc users) (start true 1 2) tr g ∧ g.threads[3]? = some (.out .canceller) ∧
      Run (Step rpcc users) g tr' g' ∧ (∀ l ∈ tr', l ≠ (4, .stirred)) ∧
        g'.shared.born + 2 < 2 ^ 32 ∧
          g'.threads[4]? = some (.asleep .canceller .destroyWait .cancelled) := by
  have hp : ((play rpcc users twoCancel (start true 1 2)).bind fun x =>
      (play rpcc users [.run 2 {}] x.2).map fun y =>
        ((x.2.shared.destroyWait, x.2.shared.calls, x.2.threads[3]?, x.2.threads[4]?),
          y.1.map Prod.fst, y.2.shared.born)) =
      some ((true, [], some (.out .canceller),
        some (.asleep .canceller .destroyWait .cancelled)), [2], 1) := rfl
  obtain ⟨⟨tr, g⟩, hp, hq⟩ := Option.bind_eq_some_iff.mp hp
  obtain ⟨⟨tr', g'⟩, hq, hobs⟩ := Option.map_eq_some_iff.mp hq
  simp only [Prod.mk.injEq] at hobs
  obtain ⟨⟨hwait, hcalls, h3, h4⟩, hsteps, hborn⟩ := hobs
  have hstir : ∀ l ∈ tr', l ≠ (4, .stirred) := by
    rintro l hl rfl
    have hmem := List.mem_map_of_mem (f := Prod.fst) hl
    rw [hsteps] at hmem
    revert hmem
    decide
  have hbound : g'.shared.born + 2 < 2 ^ 32 := by omega
  exact ⟨tr, g, tr', g', run_play hp, h3, run_play hq, hstir, hbound,
    second_canceller_sleeps_on (run_play hp) h4 hwait hcalls (run_play hq) hstir hbound⟩

end Yfs.CancelledCalls
