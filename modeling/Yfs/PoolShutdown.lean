import Yfs.ThreadPool

/-!
# The destructor of a pool returns

Once the destructor of a `ThrPool` has begun, every step but a stir leaves less to do, and until it
has returned some thread can go on: a worker that sleeps has an empty queue, the destructor sleeps
only when the queue is full, and there is a pill for every worker that has not exited.
-/

namespace Yfs.PoolShutdown
open LabelledRuns Monitors BoundedQueue ThreadPool

variable {J : Type} {n m i : ℕ} {b : Bool} {g g' : State J} {l : Label (User J) (Option J)}
  {u u' : User J} {o : Option (Op (Option J))}

/-! ## What is left to do -/

/-- How far a thread is from its next sleep. -/
def stage : PoolThread J → ℕ
  | .out _ => 3
  | .ready _ _ => 2
  | .woken _ _ _ => 1
  | .asleep _ _ _ => 0

/-- What is left to do for a thread, in a pool of `n` workers and `k` threads. -/
def weight (n k : ℕ) : User J → ℕ
  | .working _ => 1
  | .closing p => p * (2 * k + 7) + n + 2
  | .joining p => n - p + 1
  | _ => 0

def cost (n k : ℕ) (t : PoolThread J) : ℕ := stage t + weight n k t.view.1

/-- What is left to do once the destructor has begun: an element of the queue lets one worker
run and may wake all the others. -/
def burden (n k : ℕ) (g : State J) : ℕ := (g.threads.map (cost n k)).sum + (k + 4) * g.shared.q.length

@[simp] theorem cost_out (n k : ℕ) (u : User J) : cost n k (.out u) = 3 + weight n k u := rfl

@[simp] theorem cost_ready (n k : ℕ) (u : User J) (o : Op (Option J)) :
    cost n k (.ready u o) = 2 + weight n k u := rfl

@[simp] theorem cost_woken (n k : ℕ) (u : User J) (c : Cond) (o : Op (Option J)) :
    cost n k (.woken u c o) = 1 + weight n k u := rfl

@[simp] theorem cost_asleep (n k : ℕ) (u : User J) (c : Cond) (o : Op (Option J)) :
    cost n k (.asleep u c o) = weight n k u := Nat.zero_add _

theorem cost_gentle (n k : ℕ) : Gentle (cost n k : PoolThread J → ℕ) := by
  intro u c o
  have hcost : cost n k (.woken u c o) = cost n k (.asleep u c o) + 1 := by
    rw [cost_woken, cost_asleep, Nat.add_comm]
  exact Nat.le_of_eq hcost

/-- The destructor has begun. -/
def Closing (n m : ℕ) (g : State J) : Prop :=
  ∃ u, (g.views.map Prod.fst)[n + m]? = some u ∧ u.role = .owner ∧ u ≠ .owner

theorem Closing.no_clients (hin : Inside n m b g.views) (hc : Closing n m g)
    (hi : g.views[i]? = some (.client, o)) : o = none := by
  obtain ⟨u, hu, hrole, hne⟩ := hc
  by_contra ho
  obtain ⟨o', ho'⟩ := hin.clients _ (List.mem_of_getElem? hi) rfl ho
  rw [users_getElem? ho'] at hu
  cases hu
  exact hne rfl

theorem Closing.step (hin : Inside n m b g.views) (hc : Closing n m g)
    (hs : Step (fifo (Option J)) (pool n b) g l g') : Closing n m g' := by
  obtain ⟨u, hu, hrole, hne⟩ := hc
  have hturn := step_turn hin hs
  unfold Closing
  generalize g'.views = vs' at hturn
  have hother : ∀ {i : ℕ} {v : View J} {w : User J} {o : Option (Op (Option J))},
      g.views[i]? = some (w, o) → w.role ≠ .owner →
      ∃ u', ((g.views.set i v).map Prod.fst)[n + m]? = some u' ∧ u'.role = .owner ∧ u' ≠ .owner := by
    intro i v w o hi hw
    refine ⟨u, ?_, hrole, hne⟩
    rw [List.map_set, List.getElem?_set_ne (hin.not_owner hi hw), hu]
  cases hturn with
  | quiet same => exact ⟨u, same ▸ hu, hrole, hne⟩
  | job hi => exact hother hi nofun
  | exit hi => exact hother hi nofun
  | add hi => exact hother hi nofun
  | @pill i k hi =>
    obtain rfl := hin.owner_at hi rfl
    refine ⟨.closing k, ?_, rfl, nofun⟩
    rw [List.map_set, getElem?_set (users_getElem? hi), if_pos rfl]
  | @move i w w' hi hm =>
    by_cases hw : w.role = .owner
    · obtain rfl := hin.owner_at hi hw
      refine ⟨w', ?_, by rw [hm.role, hw], ?_⟩
      · rw [List.map_set, getElem?_set (users_getElem? hi), if_pos rfl]
      · cases hm <;> nofun
    · exact hother hi hw

theorem inside_run {tr : List (Label (User J) (Option J))} (hin : Inside n m b g.views)
    (hr : Run (Step (fifo (Option J)) (pool n b)) g tr g') : Inside n m b g'.views :=
  hr.invariant (I := fun g => Inside n m b g.views) hin fun _ _ _ h hs => h.step hs

theorem Closing.run {tr : List (Label (User J) (Option J))} (hin : Inside n m b g.views)
    (hc : Closing n m g) (hr : Run (Step (fifo (Option J)) (pool n b)) g tr g') :
    Closing n m g' :=
  hr.history_invariant (I := fun _ g => Closing n m g) hc
    fun _ _ _ _ hr₁ h hs => h.step (inside_run hin hr₁) hs

/-- A move that is not the first of the destructor leaves less to do. -/
theorem Moves.weight_lt {ts : List (PoolThread J)} {k : ℕ} (hm : Moves n ts u u')
    (hu : u ≠ .owner) : weight n k u' < weight n k u := by
  cases hm with
  | finish j => exact Nat.zero_lt_one
  | close => exact absurd rfl hu
  | pills =>
    simp only [weight]
    omega
  | join p more =>
    simp only [weight]
    omega
  | joined => exact Nat.zero_lt_succ _

theorem stage_next {t : PoolThread J} {op : Op (Option J)} (h : t.next = some (u, op)) :
    0 < stage t := by
  cases t with
  | asleep => cases h
  | _ => exact Nat.zero_lt_succ _

/-- What a section that notifies others can add. -/
theorem sum_run (t' : PoolThread J) {t : PoolThread J} {ns : List (Notice Cond)} {ts : List (PoolThread J)}
    {op : Op (Option J)} {w : PoolThread J → ℕ} (hw : Gentle w) (hi : g.threads[i]? = some t)
    (ht : t.next = some (u, op)) (hn : NotifyAll ns g.threads ts) :
    ((ts.set i t').map w).sum + w t ≤ (g.threads.map w).sum + g.threads.length + w t' := by
  have h1 := hn.sum_le hw
  have h2 := sum_set w t' (hn.getElem? hi (isAsleep_of_next ht))
  omega

theorem burden_run (hin : Inside n m b g.views) (hc : Closing n m g) {t : PoolThread J}
    {x : Unit} {op : Op (Option J)} {f : Fifo (Option J)} {ns : List (Notice Cond)}
    {e : Ended (Op (Option J)) (Result (Option J)) Cond} {ts : List (PoolThread J)}
    (hi : g.threads[i]? = some t) (ht : t.next = some (u, op))
    (hx : (fifo (Option J)).exec x op g.shared = some (f, ns, e))
    (hn : NotifyAll ns g.threads ts) :
    burden n g.threads.length ⟨f, ts.set i (landed (pool n b) u e)⟩ <
      burden n g.threads.length g := by
  have hst := stage_next ht
  have hv := view_of_next ht
  have hvi : g.views[i]? = some (u, some op) := hv ▸ views_getElem? hi
  have hcalls : Calls b u op := hin.fits _ (List.mem_of_getElem? hvi)
  have hcost : cost n g.threads.length t = stage t + weight n g.threads.length u := by
    rw [cost, hv]
  -- a thread that falls asleep was heavier before
  have hsleep : ∀ c, ((g.threads.set i (.asleep u c op)).map (cost n g.threads.length)).sum <
      (g.threads.map (cost n g.threads.length)).sum := by
    intro c
    have := sum_set (cost n g.threads.length) (.asleep u c op) hi
    rw [cost_asleep] at this
    omega
  have hout := fun u' => sum_run (.out u') (cost_gentle n g.threads.length) hi ht hn
  simp only [cost_out] at hout
  cases hcalls with
  | add j => cases hc.no_clients hin hvi
  | take =>
    cases exec_effect hx with
    | starves =>
      cases hn
      exact Nat.add_lt_add_right (hsleep .nonEmpty) _
    | took e q hq | tookSilently e q hq =>
      have := hout (back .worker (.deq e))
      simp only [burden, hq, List.length_cons, Nat.mul_succ, landed, pool]
      cases e <;> simp only [back, weight] at this hcost ⊢ <;> omega
  | pill k =>
    cases exec_effect hx with
    | waits =>
      cases hn
      exact Nat.add_lt_add_right (hsleep .hasSpace) _
    | added =>
      have := hout (.closing k)
      simp only [burden, List.length_append, List.length_singleton, Nat.mul_succ, landed, pool,
        back]
      simp only [weight, Nat.succ_mul] at this hcost ⊢
      omega

/-- Every step but a stir leaves less to do. -/
theorem burden_step (hin : Inside n m b g.views) (hc : Closing n m g)
    (hs : Step (fifo (Option J)) (pool n b) g l g') :
    burden n g.threads.length g' + 1 ≤ burden n g.threads.length g + 2 * l.2.isStir.toNat := by
  cases hs with
  | @begin i u o hi hb =>
    have ht := sum_set (cost n g.threads.length) (.ready u o) hi
    simp only [cost_out, cost_ready] at ht
    simp only [burden, Act.isStir]
    omega
  | @stir i u c o hi =>
    have ht := sum_set (cost n g.threads.length) (.woken u c o) hi
    simp only [cost_asleep, cost_woken] at ht
    simp only [burden, Act.isStir, Bool.toNat_true]
    omega
  | @move i u u' hi hm =>
    have ht := sum_set (cost n g.threads.length) (.out u') hi
    have hu : u ≠ .owner := by
      rintro rfl
      obtain ⟨w, hw, -, hne⟩ := hc
      obtain rfl := hin.owner_at (views_getElem? hi) rfl
      rw [users_getElem? (views_getElem? hi)] at hw
      exact hne (Option.some.inj hw).symm
    have := Moves.weight_lt (k := g.threads.length) hm hu
    simp only [cost_out] at ht
    simp only [burden, Act.isStir]
    omega
  | run hi ht hx hn => exact burden_run hin hc hi ht hx hn

/-- A run after the destructor has begun is as long as there is something to do. -/
theorem burden_of_run {tr' : List (Label (User J) (Option J))} (hin : Inside n m b g.views)
    (hc : Closing n m g) (hr : Run (Step (fifo (Option J)) (pool n b)) g tr' g') :
    tr'.length + burden n g.threads.length g' ≤
      burden n g.threads.length g + 2 * tr'.countP fun l => l.2.isStir := by
  have h := hr.history_invariant (I := fun tr g' => g'.threads.length = g.threads.length ∧
    tr.length + burden n g.threads.length g' ≤
      burden n g.threads.length g + 2 * tr.countP fun l => l.2.isStir) ?_ ?_
  · exact h.2
  · exact ⟨rfl, by simp⟩
  · rintro tr g₁ l g₂ hr₁ ⟨hlen, hle⟩ hs
    have hstep := burden_step (inside_run hin hr₁) (hc.run hin hr₁) hs
    rw [hlen] at hstep
    refine ⟨hs.length_threads.trans hlen, ?_⟩
    rw [List.length_append, List.length_singleton, List.countP_append, List.countP_singleton]
    cases hl : l.2.isStir <;> simp only [hl, Bool.toNat_true, Bool.toNat_false] at hstep ⊢ <;>
      simp only [Bool.false_eq_true, if_false, if_true] <;> omega

/-! ## Some thread can go on -/

/-- No thread can do anything but stir. -/
def Stuck (n : ℕ) (b : Bool) (g : State J) : Prop :=
  ∀ l g', Step (fifo (Option J)) (pool n b) g l g' → l.2 = .stirred

theorem Stuck.next (h : Stuck n b g) : ∀ t ∈ g.threads, t.next = none := by
  intro t ht
  cases hn : t.next with
  | none => rfl
  | some uo =>
    obtain ⟨i, hi⟩ := List.mem_iff_getElem?.mp ht
    cases h _ _ (.run (x := ()) hi hn rfl (notifyAll_rouseAll _ _))

theorem Stuck.begins {op : Op (Option J)} (h : Stuck n b g) (hi : g.threads[i]? = some (.out u)) :
    ¬Begins b g.threads u op := by
  intro hb
  cases h _ _ (.begin hi hb)

theorem Stuck.moves (h : Stuck n b g) (hi : g.threads[i]? = some (.out u)) :
    ¬Moves n g.threads u u' := by
  intro hm
  cases h _ _ (.move hi hm)

/-- A worker has exited or sleeps in `deq`. -/
theorem Stuck.worker (h : Stuck n b g) (hin : Inside n m b g.views)
    (htied : ∀ t ∈ g.threads, t.Tied (fifo (Option J))) {k : ℕ} (hk : k < n) :
    g.threads[k]? = some (.out .exited) ∨ g.threads[k]? = some (.asleep .worker .nonEmpty .deq) := by
  have hrole : (g.views.map fun v => v.1.role)[k]? = some .worker := by
    rw [hin.roles, roles_worker hk]
  rw [Config.views, List.map_map, List.getElem?_map, Option.map_eq_some_iff] at hrole
  obtain ⟨t, hi, hrole⟩ := hrole
  have hfits := hin.fits _ (List.mem_of_getElem? (views_getElem? hi))
  cases t with
  | ready => cases h.next _ (List.mem_of_getElem? hi)
  | woken => cases h.next _ (List.mem_of_getElem? hi)
  | out u =>
    cases u with
    | worker => exact absurd .take (h.begins hi)
    | working j => exact absurd (.finish j) (h.moves hi)
    | exited => exact .inl hi
    | _ => cases hrole
  | asleep u c o =>
    have hw := htied _ (List.mem_of_getElem? hi)
    cases hfits with
    | take =>
      cases c with
      | nonEmpty => exact .inr hi
      | hasSpace =>
        obtain ⟨e, he⟩ := waits_hasSpace hw
        cases he
    | _ => cases hrole

section Progress
variable [DecidableEq J] {tr : List (Label (User J) (Option J))}

theorem workers_le (us : List (User J)) :
    us.count .exited + us.count .worker ≤ (us.map User.role).count .worker := by
  induction us with
  | nil => exact Nat.le_refl _
  | cons u us ih =>
    simp only [List.map_cons, List.count_cons]
    cases u <;> simp [User.role] <;> omega

omit [DecidableEq J] in
theorem start_out : ∀ t ∈ (start n m : State J).threads, ∃ u, t = .out u := by
  intro t ht
  simp only [start, List.mem_append, List.mem_replicate, List.mem_singleton] at ht
  rcases ht with (⟨-, rfl⟩ | ⟨-, rfl⟩) | rfl <;> exact ⟨_, rfl⟩

/-- While the destructor waits for a worker, there is a pill for it. -/
theorem Stuck.joining (h : Stuck n b g)
    (hr : Run (Step (fifo (Option J)) (pool n b)) (start n m) tr g) {k : ℕ}
    (hi : g.threads[n + m]? = some (.out (.joining k))) : False := by
  have hinv := pool_inv hr
  have hserved := (Served.init start_out).run nonEmpty_counting hr
  have hu := users_getElem? (views_getElem? hi)
  rcases Nat.lt_trichotomy k n with hk | rfl | hk
  · rcases h.worker hinv.inside hserved.tied hk with hgone | hsleep
    · exact h.moves hi (.join k hk hgone)
    · have hempty := List.length_eq_zero_iff.mp (hserved.rest h.next (sleepers_pos hsleep))
      have hbal := hinv.pills hu
      have hworker : 0 < (g.views.map Prod.fst).count .worker :=
        List.count_pos_iff.mpr (List.mem_of_getElem? (users_getElem? (views_getElem? hsleep)))
      have hle := workers_le (g.views.map Prod.fst)
      rw [hinv.inside.count_workers] at hle
      rw [hempty] at hbal
      simp only [left, List.count_nil] at hbal
      omega
  · exact h.moves hi .joined
  · have := hinv.inside.worker_lt (hinv.books.joined _ hu n hk) rfl
    omega

/-- The destructor sleeps only while some worker can take from the queue. -/
theorem Stuck.asleep (h : Stuck n b g)
    (hr : Run (Step (fifo (Option J)) (pool n b)) (start n m) tr g) (hn : 0 < n) {k : ℕ} {c : Cond}
    (hi : g.threads[n + m]? = some (.asleep (.closing (k + 1)) c (.enq none true))) : False := by
  have hinv := pool_inv hr
  have hne := (Served.init start_out).run nonEmpty_counting hr
  have hsp := (Served.init start_out).run hasSpace_counting hr
  have hw := hne.tied _ (List.mem_of_getElem? hi)
  cases c with
  | nonEmpty => cases waits_nonEmpty hw
  | hasSpace =>
    have hfull := hsp.rest h.next (sleepers_pos hi)
    rw [hinv.log.max_eq] at hfull
    have hexited : ∀ k < n, (g.views.map Prod.fst)[k]? = some .exited := by
      intro k hk
      rcases h.worker hinv.inside hne.tied hk with hgone | hsleep
      · exact users_getElem? (views_getElem? hgone)
      · have := hne.rest h.next (sleepers_pos hsleep)
        omega
    have hle := le_count_of_getElem? hexited
    have hbal := hinv.pills (users_getElem? (views_getElem? hi))
    simp only [left] at hbal
    omega

/-- Once the destructor has begun, no thread is left without something to do before it returns. -/
theorem closed_of_stuck (hn : 0 < n)
    (hr : Run (Step (fifo (Option J)) (pool n b)) (start n m) tr g) (hc : Closing n m g)
    (h : Stuck n b g) : g.threads[n + m]? = some (.out .closed) := by
  have hinv := pool_inv hr
  obtain ⟨u, hu, hrole, hne⟩ := hc
  rw [Config.views, List.map_map, List.getElem?_map, Option.map_eq_some_iff] at hu
  obtain ⟨t, hi, rfl⟩ := hu
  have hfits := hinv.inside.fits _ (List.mem_of_getElem? (views_getElem? hi))
  cases t with
  | ready => cases h.next _ (List.mem_of_getElem? hi)
  | woken => cases h.next _ (List.mem_of_getElem? hi)
  | asleep u c o =>
    cases hfits with
    | pill k => exact (h.asleep hr hn hi).elim
    | _ => cases hrole
  | out u =>
    cases u with
    | owner => exact absurd rfl hne
    | closing k =>
      cases k with
      | zero => exact absurd .pills (h.moves hi)
      | succ k => exact absurd (.pill k) (h.begins hi)
    | joining k => exact (h.joining hr hi).elim
    | closed => exact hi
    | _ => cases hrole

/-- However the threads interleave, the destructor of a pool returns: a run that goes on from where
it has begun is bounded, but for the sleepers that stir, and it can be continued until the
destructor has returned. -/
theorem destructor_returns (hn : 0 < n)
    (hr : Run (Step (fifo (Option J)) (pool n b)) (start n m) tr g) (hc : Closing n m g) :
    ∃ bound, ∀ tr' g', Run (Step (fifo (Option J)) (pool n b)) g tr' g' →
      tr'.length ≤ bound + 2 * tr'.countP (fun l => l.2.isStir) ∧
      (g'.threads[n + m]? = some (.out .closed) ∨
        ∃ l g'', Step (fifo (Option J)) (pool n b) g' l g'' ∧ l.2 ≠ .stirred) := by
  have hin := (pool_inv hr).inside
  refine ⟨burden n g.threads.length g, fun tr' g' hr' => ⟨?_, ?_⟩⟩
  · exact Nat.le_trans (Nat.le_add_right _ _) (burden_of_run hin hc hr')
  · by_cases hst : Stuck n b g'
    · exact .inl (closed_of_stuck hn (hr.append hr') (hc.run hin hr') hst)
    · simp only [Stuck, not_forall] at hst
      obtain ⟨l, g'', hs, hl⟩ := hst
      exact .inr ⟨l, g'', hs, hl⟩

theorem destructor_returns_lifetime : ∃ tr g bound,
    play (fifo (Option ℕ)) (pool 1 true) (lifetime.take 5) (start 1 1) = some (tr, g) ∧
      ∀ tr' g', Run (Step (fifo (Option ℕ)) (pool 1 true)) g tr' g' →
        tr'.length ≤ bound + 2 * tr'.countP (fun l => l.2.isStir) ∧
        (g'.threads[2]? = some (.out .closed) ∨
          ∃ l g'', Step (fifo (Option ℕ)) (pool 1 true) g' l g'' ∧ l.2 ≠ .stirred) := by
  have hp : (play (fifo (Option ℕ)) (pool 1 true) (lifetime.take 5) (start 1 1)).map
      (fun x => (x.2.views.map Prod.fst)[2]?) = some (some (.closing 1)) := by decide
  obtain ⟨⟨tr, g⟩, hp, hu⟩ := Option.map_eq_some_iff.mp hp
  obtain ⟨bound, h⟩ := destructor_returns Nat.zero_lt_one (run_play hp) ⟨_, hu, rfl, nofun⟩
  exact ⟨tr, g, bound, hp, h⟩

end Progress

end Yfs.PoolShutdown
