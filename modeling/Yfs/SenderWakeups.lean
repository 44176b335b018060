import Yfs.ConnectionSenders

/-!
# Who sleeps in `send`

As long as nobody closes the connection, a thread sleeps in `send` only because the socket takes no
more bytes: the thread that has the connection waits for `write_cb`, and the others wait for that
thread. `closeconn` wakes nobody. A thread that it finds asleep on `send_complete_` sleeps on.
-/

namespace Yfs.SenderWakeups
open LabelledRuns Monitors Connection StreamFraming ConnectionSenders
open LockProtocol (Str)

variable {w : Wrote} {b : Str} {c c' : Conn} {ns : List (Notice Cond)} {e : Ended Op Result Cond}
  {op : Op} {sent : List Str} {g g' : State} {l : Label} {tr : List Label} {n i : ℕ} {u : Unit}

/-! ## The sleepers -/

theorem waits_sendWait (h : Waits connection .sendWait op) : ∃ b, op = .sendWaited b := by
  obtain ⟨w, o, c, c', ns, hx⟩ := h
  cases exec_effect hx with
  | send ha =>
    cases ha
    exact ⟨_, rfl⟩
  | sendWaited ha =>
    cases ha
    exact ⟨_, rfl⟩

theorem waits_sendComplete (h : Waits connection .sendComplete op) :
    ∃ b, op = .sendCompleted b := by
  obtain ⟨w, o, c, c', ns, hx⟩ := h
  cases exec_effect hx with
  | send ha =>
    cases ha
    exact ⟨_, rfl⟩
  | sendWaited ha =>
    cases ha
    exact ⟨_, rfl⟩
  | sleeps b => exact ⟨b, rfl⟩

/-- Who sleeps on `send_wait_` is counted in `waiters_`. -/
theorem sleepers_sendWait (h : Inv sent g.shared g.views)
    (ht : ∀ t ∈ g.threads, t.Tied connection) :
    (sleepers .sendWait g.threads : ℤ) ≤ g.shared.waiters := by
  have := sleepers_le_views (c := Cond.sendWait) (P := queues) ht fun u o hw => by
    obtain ⟨b, rfl⟩ := waits_sendWait hw
    rfl
  have := h.waiting
  omega

/-- Who sleeps on `send_complete_` has the connection. -/
theorem sleepers_sendComplete (h : Inv sent g.shared g.views)
    (ht : ∀ t ∈ g.threads, t.Tied connection) :
    sleepers .sendComplete g.threads ≤ g.shared.wpdu.buf.isSome.toNat := by
  have := sleepers_le_views (c := Cond.sendComplete) (P := owns) ht fun u o hw => by
    obtain ⟨b, rfl⟩ := waits_sendComplete hw
    rfl
  have := h.owned
  omega

/-- The PDU that has the connection is not written yet. -/
def Pending (c : Conn) : Prop := c.dead = false ∧ 0 ≤ c.wpdu.solong ∧ c.wpdu.solong < c.wpdu.sz

/-- The poll manager watches for as long as there is something to write, and whoever sleeps has a
reason to. -/
structure Awaited (g : State) : Prop where
  tied : ∀ t ∈ g.threads, t.Tied connection
  watched : Pending g.shared → g.shared.watched = true
  wait : 0 < sleepers .sendWait g.threads → g.shared.wpdu.buf ≠ none
  complete : 0 < sleepers .sendComplete g.threads → Pending g.shared

/-- The step is a call of `closeconn`. -/
def Closes (l : Label) : Prop := ∃ w e, l.2 = .ran w .closeconn e

theorem writepdu_grows {p p' : Charbuf} {out : Str} (h : writepdu w p = some (true, p', out)) :
    p'.sz = p.sz ∧ 0 ≤ p.solong ∧ p.solong ≤ p'.solong := by
  unfold writepdu at h
  split_ifs at h with h1 h2
  · cases h
    exact ⟨rfl, Int.not_lt.mp h1, Int.le_refl _⟩
  all_goals
    cases w with
    | bytes n =>
      simp only at h
      split_ifs at h
      cases h
      exact ⟨rfl, Int.not_lt.mp h1, Int.le_add_of_nonneg_right (Int.natCast_nonneg n)⟩
    | again =>
      cases h
      exact ⟨rfl, Int.not_lt.mp h1, Int.le_refl _⟩
    | failed => cases h

theorem not_pending_of_dead (h : c.dead = true) : ¬Pending c :=
  fun hp => Bool.false_ne_true (hp.1.symm.trans h)

theorem watched_acquired (ha : Acquired w b c c' ns e) (h : Pending c → c.watched = true) :
    Pending c' → c'.watched = true := by
  cases ha with
  | sleeps => exact h
  | refused => exact fun hp => absurd hp (not_pending_of_dead rfl)
  | fails => exact fun hp => absurd hp (not_pending_of_dead rfl)
  | whole => exact fun hp => absurd hp.2.2 (Int.lt_irrefl 0)
  | part => exact fun _ => rfl

theorem not_pending_finish (c : Conn) : ¬Pending (finish c).1 :=
  fun hp => absurd hp.2.2 (Int.lt_irrefl 0)

/-- The poll manager goes on watching until the PDU is written or the connection is dead. -/
theorem watched_effect (he : Effect w c op c' ns e) (hlate : op.isLate = true → c.dead = true)
    (h : Pending c → c.watched = true) : Pending c' → c'.watched = true := by
  cases he with
  | send ha => exact watched_acquired ha h
  | sendWaited ha => exact watched_acquired ha h
  | sleeps => exact h
  | completes => exact fun hp => absurd hp (not_pending_finish c)
  | removes => exact fun hp => absurd hp (not_pending_of_dead (hlate rfl))
  | failed => exact fun hp => absurd hp (not_pending_finish c)
  | idle live sz =>
    rintro ⟨-, hnonneg, hlt⟩
    rw [sz] at hlt
    omega
  | writeFails => exact fun hp => absurd hp (not_pending_of_dead rfl)
  | writesPart live sz hw lt =>
    intro _
    obtain ⟨hsz, hnonneg, hle⟩ := writepdu_grows hw
    exact h ⟨live, hnonneg, by omega⟩
  | writesAll live sz hw le => exact fun hp => absurd hp.2.2 (Int.not_lt.mpr le)
  | reads => exact h
  | readFails => exact fun hp => absurd hp (not_pending_of_dead rfl)
  | isClosed => exact h
  | closes => exact fun hp => absurd hp (not_pending_of_dead rfl)
  | closing => exact fun hp => absurd hp (not_pending_of_dead (hlate rfl))

section Sections
variable {t : Thread Unit Op Cond} {ts : List (Thread Unit Op Cond)}

/-- The end of `send` leaves nobody asleep on `send_wait_`. -/
theorem finish_wakes {k : ℤ}
    (hn : NotifyAll (if 0 < k then [.broadcast .sendWait] else []) g.threads ts)
    (hle : (sleepers .sendWait ts : ℤ) ≤ k) : sleepers .sendWait ts = 0 := by
  by_cases hk : 0 < k
  · rw [if_pos hk] at hn
    by_contra hpos
    exact (hn.signals .sendWait (Nat.pos_of_ne_zero hpos)).2 List.mem_cons_self
  · omega

/-- Whoever sleeps on `send_wait_` after a section sleeps because of the thread that has the
connection. -/
theorem wait_run (h : 0 < sleepers .sendWait g.threads → g.shared.wpdu.buf ≠ none)
    (he : Effect w g.shared op c' ns e) (hi : g.threads[i]? = some t) (ht : t.next = some (u, op)) (hn : NotifyAll ns g.threads ts)
    (hle : (sleepers .sendWait (ts.set i (landed anyone u e)) : ℤ) ≤ c'.waiters)
    (hpos : 0 < sleepers .sendWait (ts.set i (landed anyone u e))) : c'.wpdu.buf ≠ none := by
  obtain ⟨hcount, -⟩ := run_counts (A := anyone) (e := e) hi ht hn .sendWait
  rw [hcount] at hle hpos
  have hacquired : ∀ {c₀ : Conn} {b : Str}, Acquired w b c₀ c' ns e → c₀.wpdu = g.shared.wpdu →
      c'.wpdu.buf ≠ none := by
    intro c₀ b ha hc
    cases ha with
    | sleeps live busy => exact busy
    | refused =>
      cases hn
      exact hc ▸ h hpos
    | fails takes => exact takes.buf
    | whole =>
      have := finish_wakes hn hle
      exact absurd hpos (Nat.not_lt.mpr (Nat.le_of_eq this))
    | part takes => exact takes.buf
  cases he with
  | send ha => exact hacquired ha rfl
  | sendWaited ha => exact hacquired ha rfl
  | completes =>
    have := finish_wakes hn hle
    exact absurd hpos (Nat.not_lt.mpr (Nat.le_of_eq this))
  | failed =>
    have := finish_wakes hn hle
    exact absurd hpos (Nat.not_lt.mpr (Nat.le_of_eq this))
  | writeFails live sz hw => exact writepdu_buf hw (h (Nat.lt_of_lt_of_le hpos (hn.counts _).1))
  | writesPart live sz hw => exact writepdu_buf hw (h (Nat.lt_of_lt_of_le hpos (hn.counts _).1))
  | writesAll live sz hw => exact writepdu_buf hw (h (Nat.lt_of_lt_of_le hpos (hn.counts _).1))
  | _ => exact h (Nat.lt_of_lt_of_le hpos (hn.counts _).1)

/-- Whoever sleeps on `send_complete_` after a section waits for the rest of its PDU. -/
theorem complete_run (h : 0 < sleepers .sendComplete g.threads → Pending g.shared)
    (hone : sleepers .sendComplete g.threads ≤ g.shared.wpdu.buf.isSome.toNat)
    (hlate : op.isLate = true → g.shared.dead = true) (he : Effect w g.shared op c' ns e)
    (hclose : op ≠ .closeconn) (hi : g.threads[i]? = some t) (ht : t.next = some (u, op))
    (hn : NotifyAll ns g.threads ts)
    (hle : sleepers .sendComplete (ts.set i (landed anyone u e)) ≤ c'.wpdu.buf.isSome.toNat)
    (hpos : 0 < sleepers .sendComplete (ts.set i (landed anyone u e))) : Pending c' := by
  obtain ⟨hcount, -⟩ := run_counts (A := anyone) (e := e) hi ht hn .sendComplete
  rw [hcount] at hle hpos
  have hbefore : (landed anyone u e).sleepsOn .sendComplete = false → Pending g.shared := by
    intro hl
    rw [hl] at hpos
    exact h (Nat.lt_of_lt_of_le hpos (hn.counts _).1)
  have hfree : c'.wpdu.buf = none → Pending c' := by
    intro hnone
    rw [hnone] at hle
    exact absurd hpos (Nat.not_lt.mpr hle)
  -- one thread has the connection, so one signal is enough
  have hsignal : (landed anyone u e).sleepsOn .sendComplete = false →
      ns = [.signal .sendComplete] → Pending c' := by
    rintro hl rfl
    rw [hl] at hpos
    have hfew := (hn.signals _ hpos).1
    have hbool := Bool.toNat_le g.shared.wpdu.buf.isSome
    rw [List.count_singleton_self] at hfew
    simp only [Bool.toNat_false] at hpos
    omega
  have hacquired : ∀ {c₀ : Conn} {b : Str}, Acquired w b c₀ c' ns e →
      (Pending g.shared → Pending c₀) → c₀.wpdu = g.shared.wpdu → Pending c' := by
    intro c₀ b ha hp hc
    cases ha with
    | sleeps => exact hp (hbefore rfl)
    | refused dead => exact absurd (hp (hbefore rfl)) (not_pending_of_dead dead)
    | fails takes =>
      rw [← hc, takes.free] at hone
      have hnone := hbefore rfl
      cases hn
      exact absurd hpos (Nat.not_lt.mpr hone)
    | whole => exact hfree rfl
    | part takes nonneg lt => exact ⟨rfl, nonneg, lt⟩
  cases he with
  | send ha => exact hacquired ha id rfl
  | sendWaited ha => exact hacquired ha id rfl
  | sleeps b live nonneg lt => exact ⟨live, nonneg, lt⟩
  | completes => exact hfree rfl
  | removes => exact absurd (hbefore rfl) (not_pending_of_dead (hlate rfl))
  | failed => exact hfree rfl
  | idle live sz => exact hbefore rfl
  | writeFails => exact hsignal rfl rfl
  | writesPart live sz hw lt =>
    obtain ⟨-, hnonneg, hgrow⟩ := writepdu_grows hw
    exact ⟨live, Int.le_trans hnonneg hgrow, lt⟩
  | writesAll => exact hsignal rfl rfl
  | reads => exact hbefore rfl
  | readFails => exact hsignal rfl rfl
  | isClosed => exact absurd rfl hclose
  | closes => exact absurd rfl hclose
  | closing => exact hbefore rfl

end Sections

theorem Awaited.fewer {ts : List (Thread Unit Op Cond)} (h : Awaited g)
    (ht : ∀ t ∈ ts, t.Tied connection) (hle : ∀ c, sleepers c ts ≤ sleepers c g.threads) :
    Awaited ⟨g.shared, ts⟩ :=
  ⟨ht, h.watched, fun hp => h.wait (Nat.lt_of_lt_of_le hp (hle _)),
    fun hp => h.complete (Nat.lt_of_lt_of_le hp (hle _))⟩

theorem Awaited.step (h : Awaited g) (hinv : Inv sent g.shared g.views)
    (hs : Step connection anyone g l g') (hclose : ¬Closes l) : Awaited g' := by
  have hinv' := hinv.step hs
  have htied := tied_step h.tied hs
  have hwait := sleepers_sendWait hinv' htied
  have hcomplete := sleepers_sendComplete hinv' htied
  cases hs with
  | begin hi => exact h.fewer htied fun c => sleepers_set hi (Nat.zero_le _)
  | move _ hm => cases hm
  | stir hi => exact h.fewer htied fun c => sleepers_set hi (Nat.zero_le _)
  | @run i t w u op c' ns e ts hi ht hx hn =>
    have he := exec_effect hx
    have hv : g.views[i]? = some (u, some op) := view_of_next ht ▸ views_getElem? hi
    have hlate := hinv.late _ (List.mem_of_getElem? hv) op rfl
    refine ⟨htied, watched_effect he hlate h.watched, wait_run h.wait he hi ht hn hwait, ?_⟩
    refine complete_run h.complete (sleepers_sendComplete hinv h.tied) hlate he ?_ hi ht hn hcomplete
    rintro rfl
    exact hclose ⟨w, e, rfl⟩

theorem awaited_start (n : ℕ) : Awaited (start n) := by
  have hout : ∀ t ∈ (start n).threads, t = .out () := fun t ht => List.eq_of_mem_replicate ht
  have hnone : ∀ c, sleepers c (start n).threads = 0 := by
    intro c
    refine List.countP_eq_zero.mpr fun t ht => ?_
    rw [hout t ht]
    exact nofun
  refine ⟨fun t ht => hout t ht ▸ trivial, fun hp => absurd hp.2.2 (Int.lt_irrefl 0), ?_, ?_⟩
  · exact fun hp => absurd hp (Nat.not_lt.mpr (Nat.le_of_eq (hnone _)))
  · exact fun hp => absurd hp (Nat.not_lt.mpr (Nat.le_of_eq (hnone _)))

theorem awaited_run (hr : Run (Step connection anyone) (start n) tr g)
    (hclose : ∀ l ∈ tr, ¬Closes l) : Awaited g ∧ Inv (granted tr) g.shared g.views := by
  induction hr with
  | nil => exact ⟨awaited_start n, inv_start n⟩
  | snoc run last ih =>
    rw [List.forall_mem_append, List.forall_mem_singleton] at hclose
    have ih := ih hclose.1
    exact ⟨ih.1.step ih.2 last hclose.2, inv_run (run.snoc last)⟩

/-- When no thread can go on, whoever has the connection sleeps on `send_complete_`. -/
theorem Awaited.owner (h : Awaited g) (hinv : Inv sent g.shared g.views)
    (hrest : ∀ t ∈ g.threads, t.next = none) (hbuf : g.shared.wpdu.buf ≠ none) :
    ∃ b, Thread.asleep () .sendComplete (.sendCompleted b) ∈ g.threads := by
  have hone : 0 < g.views.countP owns := by
    rw [hinv.owned, Option.isSome_iff_ne_none.mpr hbuf]
    exact Nat.zero_lt_one
  obtain ⟨v, hv, howns⟩ := List.countP_pos_iff.mp hone
  obtain ⟨t, ht, rfl⟩ := List.mem_map.mp hv
  have htied := h.tied t ht
  have hnext := hrest t ht
  cases t with
  | out => cases howns
  | ready => cases hnext
  | woken => cases hnext
  | asleep u c o =>
    cases c with
    | sendWait =>
      obtain ⟨b, rfl⟩ := waits_sendWait htied
      cases howns
    | sendComplete =>
      obtain ⟨b, rfl⟩ := waits_sendComplete htied
      exact ⟨b, ht⟩

theorem sleepers_of_mem {c : Cond} (h : Thread.asleep u c op ∈ g.threads) :
    0 < sleepers c g.threads :=
  List.countP_pos_iff.mpr ⟨_, h, by simp [Thread.sleepsOn]⟩

/-- When no thread can go on and somebody sleeps in `send`, and nobody has closed the connection,
then it is alive and the poll manager watches its descriptor for writing, for one thread whose PDU
is not written yet. -/
theorem asleep_until_writable (hr : Run (Step connection anyone) (start n) tr g)
    (hclose : ∀ l ∈ tr, ¬Closes l) (hrest : ∀ t ∈ g.threads, t.next = none)
    (hsleep : ∃ t ∈ g.threads, t.isAsleep = true) :
    g.shared.dead = false ∧ g.shared.watched = true ∧ g.shared.wpdu.solong < g.shared.wpdu.sz ∧
      ∃ b, Thread.asleep () .sendComplete (.sendCompleted b) ∈ g.threads := by
  obtain ⟨h, hinv⟩ := awaited_run hr hclose
  have howner : ∃ b, Thread.asleep () .sendComplete (.sendCompleted b) ∈ g.threads := by
    obtain ⟨t, ht, hs⟩ := hsleep
    have htied := h.tied t ht
    cases t with
    | asleep u c o =>
      cases c with
      | sendWait => exact h.owner hinv hrest (h.wait (sleepers_of_mem ht))
      | sendComplete =>
        obtain ⟨b, rfl⟩ := waits_sendComplete htied
        exact ⟨b, ht⟩
    | _ => cases hs
  obtain ⟨b, hb⟩ := howner
  have hpending := h.complete (sleepers_of_mem hb)
  exact ⟨hpending.1, h.watched hpending, hpending.2.2, b, hb⟩

theorem asleep_until_writable_halfway :
    halfway.shared.watched = true ∧ halfway.shared.wpdu.solong < halfway.shared.wpdu.sz := by
  have h := asleep_until_writable run_halfway (by simp [Closes])
    (by simp [halfway, Thread.next]) ⟨_, List.mem_cons_self, rfl⟩
  exact ⟨h.2.1, h.2.2.1⟩

/-! ## After `closeconn` -/

theorem dead_acquired (ha : Acquired w b c c' ns e) (hdead : c.dead = true) :
    c'.dead = true ∧ ns = [] ∧ ¬e = .ret (.sent true) := by
  cases ha with
  | sleeps live => exact absurd (live.symm.trans hdead) Bool.false_ne_true
  | refused => exact ⟨rfl, rfl, nofun⟩
  | fails takes => exact absurd (takes.live.symm.trans hdead) Bool.false_ne_true
  | whole takes => exact absurd (takes.live.symm.trans hdead) Bool.false_ne_true
  | part takes => exact absurd (takes.live.symm.trans hdead) Bool.false_ne_true

/-- On a dead connection nobody notifies `send_complete_`, and no `send` succeeds. -/
theorem dead_effect (he : Effect w c op c' ns e) (hdead : c.dead = true) :
    c'.dead = true ∧ .signal .sendComplete ∉ ns ∧ .broadcast .sendComplete ∉ ns ∧
      e ≠ .ret (.sent true) := by
  have hlive : c.dead ≠ false := by simp [hdead]
  have hfinish : (finish c).1.dead = true ∧ .signal .sendComplete ∉ (finish c).2.1 ∧
      .broadcast .sendComplete ∉ (finish c).2.1 ∧ (finish c).2.2 ≠ .ret (.sent true) := by
    refine ⟨hdead, ?_, ?_, by simp [finish, hdead]⟩
    · unfold finish
      split <;> simp
    · unfold finish
      split <;> simp
  cases he with
  | send ha =>
    obtain ⟨h1, rfl, h2⟩ := dead_acquired ha hdead
    exact ⟨h1, List.not_mem_nil, List.not_mem_nil, h2⟩
  | sendWaited ha =>
    obtain ⟨h1, rfl, h2⟩ := dead_acquired ha hdead
    exact ⟨h1, List.not_mem_nil, List.not_mem_nil, h2⟩
  | sleeps b live => exact absurd live hlive
  | completes => exact hfinish
  | failed => exact hfinish
  | idle live => exact absurd live hlive
  | writeFails live => exact absurd live hlive
  | writesPart live => exact absurd live hlive
  | writesAll live => exact absurd live hlive
  | readFails live => exact absurd live hlive
  | closes live => exact absurd live hlive
  | removes => exact ⟨hdead, by simp, by simp, by simp⟩
  | reads => exact ⟨hdead, by simp, by simp, by simp⟩
  | isClosed => exact ⟨hdead, by simp, by simp, by simp⟩
  | closing => exact ⟨hdead, by simp, by simp, by simp⟩

/-- A dead connection on which a thread sleeps on `send_complete_` -/
def Forgotten (i : ℕ) (g : State) : Prop :=
  g.shared.dead = true ∧ ∃ u o, g.threads[i]? = some (.asleep u .sendComplete o)

theorem Forgotten.step (h : Forgotten i g) (hs : Step connection anyone g l g')
    (hstir : l ≠ (i, .stirred)) :
    Forgotten i g' ∧ ∀ w o, l.2 ≠ .ran w o (.ret (.sent true)) := by
  obtain ⟨hdead, u, o, hi⟩ := h
  have hother : ∀ {j : ℕ} {t : Thread Unit Op Cond}, g.threads[j]? = some t →
      t.isAsleep = false → j ≠ i := by
    rintro j t hj ht rfl
    rw [hi] at hj
    cases hj
    cases ht
  cases hs with
  | begin hj => exact ⟨⟨hdead, u, o, (List.getElem?_set_ne (hother hj rfl)).trans hi⟩, nofun⟩
  | move _ hm => cases hm
  | @stir j =>
    have hne : j ≠ i := fun he => hstir (he ▸ rfl)
    exact ⟨⟨hdead, u, o, (List.getElem?_set_ne hne).trans hi⟩, nofun⟩
  | @run j t w u' op c' ns e ts hj ht hx hn =>
    obtain ⟨hdead', hsignal, hbroad, hres⟩ := dead_effect (exec_effect hx) hdead
    have hne := hother hj (isAsleep_of_next ht)
    refine ⟨⟨hdead', u, o, (List.getElem?_set_ne hne).trans (hn.sleeps hi hsignal hbroad)⟩, ?_⟩
    rintro _ _ ⟨⟩
    exact hres rfl

theorem forgotten_of_closes {j : ℕ} {o : Op} (hi : g.threads[i]? = some (.asleep u .sendComplete o))
    (hs : Step connection anyone g (j, .ran w .closeconn e) g') : Forgotten i g' := by
  cases hs with
  | @run _ t _ u' _ c' ns _ ts hj ht hx hn =>
    have hne : j ≠ i := by
      rintro rfl
      rw [hi] at hj
      cases hj
      cases ht
    cases exec_effect hx with
    | isClosed dead =>
      cases hn
      exact ⟨dead, u, o, (List.getElem?_set_ne hne).trans hi⟩
    | closes =>
      cases hn
      exact ⟨rfl, u, o, (List.getElem?_set_ne hne).trans hi⟩

/-- A thread that `closeconn` finds asleep on `send_complete_` sleeps on, whatever the others do,
until it wakes up by itself. Meanwhile no `send` succeeds on the connection. -/
theorem closed_sender_sleeps_on {j : ℕ} {o : Op} {g₀ : State}
    (hi : g₀.threads[i]? = some (.asleep u .sendComplete o))
    (closes : Step connection anyone g₀ (j, .ran w .closeconn e) g)
    (hr : Run (Step connection anyone) g tr g') (hstir : (i, .stirred) ∉ tr) :
    (∃ u o, g'.threads[i]? = some (.asleep u .sendComplete o)) ∧
      ∀ l ∈ tr, ∀ w o, l.2 ≠ .ran w o (.ret (.sent true)) := by
  have hrun : Forgotten i g' ∧ ∀ l ∈ tr, ∀ w o, l.2 ≠ .ran w o (.ret (.sent true)) := by
    induction hr with
    | nil => exact ⟨forgotten_of_closes hi closes, nofun⟩
    | snoc _ last ih =>
      rw [List.mem_append, not_or, List.mem_singleton] at hstir
      obtain ⟨hf, hl⟩ := ih hstir.1
      obtain ⟨hf', hl'⟩ := hf.step last (Ne.symm hstir.2)
      exact ⟨hf', List.forall_mem_append.mpr ⟨hl, List.forall_mem_singleton.mpr hl'⟩⟩
  exact ⟨hrun.1.2, hrun.2⟩

theorem closed_sender_sleeps_on_halfway : ∃ g g' : State,
    (∃ tr, Run (Step connection anyone) (start 2) tr g) ∧
      Run (Step connection anyone) g [(1, .ran .again .closing (.ret .done))] g' ∧
      ∃ u o, g'.threads[0]? = some (.asleep u .sendComplete o) := by
  have hb : Step connection anyone halfway (1, .began .closeconn)
      ⟨halfway.shared, [.asleep () .sendComplete (.sendCompleted pdu), .ready () .closeconn]⟩ :=
    .begin rfl .closeconn
  have hc : Step connection anyone
      ⟨halfway.shared, [.asleep () .sendComplete (.sendCompleted pdu), .ready () .closeconn]⟩
      (1, .ran .again .closeconn (.yield .closing))
      ⟨{ halfway.shared with dead := true },
        [.asleep () .sendComplete (.sendCompleted pdu), .ready () .closing]⟩ :=
    .run rfl rfl rfl (.nil _)
  have hr : Run (Step connection anyone)
      ⟨{ halfway.shared with dead := true },
        [.asleep () .sendComplete (.sendCompleted pdu), .ready () .closing]⟩
      [(1, .ran .again .closing (.ret .done))] _ := .single (.run rfl rfl rfl (.nil _))
  have h := closed_sender_sleeps_on (i := 0) rfl hc hr (by simp)
  exact ⟨_, _, ⟨_, (run_halfway.snoc hb).snoc hc⟩, hr, h.1⟩

end Yfs.SenderWakeups
