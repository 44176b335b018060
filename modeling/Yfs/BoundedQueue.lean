import Yfs.Monitors

/-!
# The bounded queue

`fifo<T>` is the queue between the threads that take requests in and the threads that serve them.
Whoever uses it, and however the threads interleave, what was taken is what was put in, in order,
and no thread sleeps on while there is something for it to do.
-/

namespace Yfs.BoundedQueue
open LabelledRuns Monitors

variable {α U : Type}

/-- `fifo<T>`; a `max_` of 0 is no limit. -/
structure Fifo (α : Type) where
  q : List α
  max : ℕ
  deriving DecidableEq, Repr

/-- `non_empty_c_` and `has_space_c_` -/
inductive Cond where
  | nonEmpty
  | hasSpace
  deriving DecidableEq, Repr

inductive Op (α : Type) where
  | enq (e : α) (blocking : Bool)
  | deq
  | size
  deriving DecidableEq, Repr

inductive Result (α : Type) where
  | enq (ok : Bool)
  | deq (e : α)
  | size (b : Bool)
  deriving DecidableEq, Repr

abbrev Section (α : Type) := Fifo α × List (Notice Cond) × Ended (Op α) (Result α) Cond

/-- One round of the loop of `fifo<T>::enq` -/
def enq (f : Fifo α) (e : α) (blocking : Bool) : Section α :=
  if f.max = 0 ∨ f.q.length < f.max then
    ({ f with q := f.q ++ [e] }, [.signal .nonEmpty], .ret (.enq true))
  else if blocking then (f, [], .wait .hasSpace (.enq e blocking))
  else (f, [], .ret (.enq false))

/-- One round of the loop of `fifo<T>::deq` -/
def deq (f : Fifo α) : Section α :=
  match f.q with
  | [] => (f, [], .wait .nonEmpty .deq)
  | e :: q =>
    ({ f with q := q }, if f.max ≠ 0 ∧ q.length < f.max then [.signal .hasSpace] else [],
      .ret (.deq e))

/-- `fifo<T>::size`, which returns a `bool`. -/
def size (f : Fifo α) : Section α := (f, [], .ret (.size (f.q.length != 0)))

def exec (f : Fifo α) : Op α → Section α
  | .enq e blocking => enq f e blocking
  | .deq => deq f
  | .size => size f

def fifo (α : Type) : Object (Fifo α) Unit (Op α) (Result α) Cond := ⟨fun _ o f => some (exec f o)⟩

/-- Threads that call whatever they like. -/
def anyone (α : Type) : Users Unit (Op α) (Result α) Cond where
  begins _ _ _ := True
  back u _ := u
  moves _ _ _ := False

instance (ts : List (Thread Unit (Op α) Cond)) (u : Unit) (o : Op α) :
    Decidable ((anyone α).begins ts u o) := inferInstanceAs (Decidable True)

instance (ts : List (Thread Unit (Op α) Cond)) (u u' : Unit) :
    Decidable ((anyone α).moves ts u u') := inferInstanceAs (Decidable False)

/-! ## The sections -/

/-- What a section of the queue can do. -/
inductive Effect (f : Fifo α) :
    Op α → Fifo α → List (Notice Cond) → Ended (Op α) (Result α) Cond → Prop where
  | added (e : α) (blocking : Bool) (space : f.max = 0 ∨ f.q.length < f.max) :
      Effect f (.enq e blocking) ⟨f.q ++ [e], f.max⟩ [.signal .nonEmpty] (.ret (.enq true))
  | waits (e : α) (full : f.max ≠ 0 ∧ f.max ≤ f.q.length) :
      Effect f (.enq e true) f [] (.wait .hasSpace (.enq e true))
  | refused (e : α) (full : f.max ≠ 0 ∧ f.max ≤ f.q.length) :
      Effect f (.enq e false) f [] (.ret (.enq false))
  | starves (empty : f.q = []) : Effect f .deq f [] (.wait .nonEmpty .deq)
  | took (e : α) (q : List α) (some : f.q = e :: q) (space : f.max ≠ 0 ∧ q.length < f.max) :
      Effect f .deq ⟨q, f.max⟩ [.signal .hasSpace] (.ret (.deq e))
  | tookSilently (e : α) (q : List α) (some : f.q = e :: q)
      (full : f.max = 0 ∨ f.max ≤ q.length) : Effect f .deq ⟨q, f.max⟩ [] (.ret (.deq e))
  | sized : Effect f .size f [] (.ret (.size (f.q.length != 0)))

theorem exec_effect {f f' : Fifo α} {o : Op α} {ns : List (Notice Cond)}
    {e : Ended (Op α) (Result α) Cond} {x : Unit} (h : (fifo α).exec x o f = some (f', ns, e)) :
    Effect f o f' ns e := by
  have h : exec f o = (f', ns, e) := Option.some.inj h
  cases o with
  | enq a blocking =>
    by_cases hs : f.max = 0 ∨ f.q.length < f.max
    · rw [exec, enq, if_pos hs] at h
      cases h
      exact .added a blocking hs
    · rw [exec, enq, if_neg hs] at h
      rw [not_or, Nat.not_lt] at hs
      cases blocking with
      | true =>
        cases h
        exact .waits a hs
      | false =>
        cases h
        exact .refused a hs
  | deq =>
    rcases hq : f.q with _ | ⟨a, q⟩
    · simp only [exec, deq, hq] at h
      cases h
      exact .starves hq
    · simp only [exec, deq, hq] at h
      by_cases hs : f.max ≠ 0 ∧ q.length < f.max
      · rw [if_pos hs] at h
        cases h
        exact .took a q hq hs
      · rw [if_neg hs] at h
        cases h
        exact .tookSilently a q hq (by omega)
  | size =>
    cases h
    exact .sized

theorem waits_nonEmpty {o : Op α} (h : Waits (fifo α) .nonEmpty o) : o = .deq := by
  obtain ⟨x, o₀, f, f', ns, h⟩ := h
  cases exec_effect h
  rfl

theorem waits_hasSpace {o : Op α} (h : Waits (fifo α) .hasSpace o) : ∃ e, o = .enq e true := by
  obtain ⟨x, o₀, f, f', ns, h⟩ := h
  cases exec_effect h
  exact ⟨_, rfl⟩

/-- The units that consumers wait for are the elements of the queue. -/
theorem nonEmpty_counting : Counting (fifo α) .nonEmpty fun f => f.q.length where
  sleeps x o f f' ns o' h := by
    cases exec_effect h with
    | starves empty => simp [empty]
  offers x o f f' ns e h _ := by
    cases exec_effect h with
    | added => simp
    | took a q hq => simp [hq]
    | tookSilently a q hq => simp [hq]
    | _ => simp
  uses x o f f' ns e h hw _ hne := by
    obtain rfl := waits_nonEmpty hw
    cases exec_effect h with
    | starves empty => simp [empty] at hne
    | took a q hq => simp [hq]
    | tookSilently a q hq => simp [hq]

/-- The units that producers wait for are the free places of the queue. -/
theorem hasSpace_counting : Counting (fifo α) .hasSpace fun f => f.max - f.q.length where
  sleeps x o f f' ns o' h := by
    cases exec_effect h with
    | waits e full => exact Nat.sub_eq_zero_of_le full.2
  offers x o f f' ns e h _ := by
    cases exec_effect h with
    | added => simp; omega
    | took a q hq => simp [hq]; omega
    | tookSilently a q hq => simp [hq]; omega
    | _ => simp
  uses x o f f' ns e h hw _ hne := by
    obtain ⟨a, rfl⟩ := waits_hasSpace hw
    cases exec_effect h with
    | added => simp at hne ⊢; omega
    | waits e full => omega

/-! ## Runs -/

abbrev Label (U α : Type) := ℕ × Act Unit U (Op α) (Result α) Cond

/-- The element that a step has put into the queue. -/
def accepts : Label U α → Option α
  | (_, .ran _ (.enq e _) (.ret (.enq true))) => some e
  | _ => none

/-- The element that a step has taken out. -/
def takes : Label U α → Option α
  | (_, .ran _ _ (.ret (.deq e))) => some e
  | _ => none

structure Log (max : ℕ) (tr : List (Label U α)) (f : Fifo α) : Prop where
  max_eq : f.max = max
  order : tr.filterMap accepts = tr.filterMap takes ++ f.q
  bound : max ≠ 0 → f.q.length ≤ max

variable {A : Users U (Op α) (Result α) Cond} {max : ℕ} {tr : List (Label U α)} {l : Label U α}
  {g g' : Config (Fifo α) U (Op α) Cond} {ts : List (Thread U (Op α) Cond)}

theorem Log.silent {f : Fifo α} (h : Log max tr f) (ha : accepts l = none) (ht : takes l = none) :
    Log max (tr ++ [l]) f := by
  refine ⟨h.max_eq, ?_, h.bound⟩
  simpa [List.filterMap_append, ha, ht] using h.order

theorem Log.step (h : Log max tr g.shared) (hs : Step (fifo α) A g l g') :
    Log max (tr ++ [l]) g'.shared := by
  cases hs with
  | begin => exact h.silent rfl rfl
  | move => exact h.silent rfl rfl
  | stir => exact h.silent rfl rfl
  | @run i t x u o f' ns e ts hi ht hx hn =>
    have ho := h.order
    have hb := h.bound
    have hm := h.max_eq
    cases exec_effect hx with
    | waits => exact h.silent rfl rfl
    | refused => exact h.silent rfl rfl
    | starves => exact h.silent rfl rfl
    | sized => exact h.silent rfl rfl
    | added e blocking space =>
      refine ⟨hm, ?_, fun hne => ?_⟩
      · simp [accepts, takes, ho]
      · simp only [List.length_append, List.length_singleton]
        omega
    | took e q hq space =>
      refine ⟨hm, ?_, fun hne => ?_⟩
      · simp [accepts, takes, ho, hq]
      · simp only
        omega
    | tookSilently e q hq full =>
      refine ⟨hm, ?_, fun hne => ?_⟩
      · simp [accepts, takes, ho, hq]
      · have := hb hne
        rw [hq, List.length_cons] at this
        simp only
        omega

theorem Log.run (hr : Run (Step (fifo α) A) ⟨⟨[], max⟩, ts⟩ tr g) : Log max tr g.shared :=
  hr.history_invariant (I := fun tr g => Log max tr g.shared) ⟨rfl, rfl, fun _ => Nat.zero_le _⟩
    fun _ _ _ _ _ h hs => h.step hs

/-- What was put in and not taken yet is what the queue holds, in order, and the queue never holds
more than its limit. -/
theorem taken_in_order (hr : Run (Step (fifo α) A) ⟨⟨[], max⟩, ts⟩ tr g) :
    tr.filterMap accepts = tr.filterMap takes ++ g.shared.q ∧
      (max ≠ 0 → g.shared.q.length ≤ max) :=
  ⟨(Log.run hr).order, (Log.run hr).bound⟩

/-- A consumer sleeps, two elements come in, and the consumer takes the first. -/
def handOver : List (Choice Unit Unit (Op ℕ)) :=
  [.begin 0 .deq, .run 0 (), .begin 1 (.enq 7 true), .run 1 (), .begin 1 (.enq 8 false), .run 1 (),
    .run 0 ()]

theorem taken_in_order_handOver : ∃ tr g,
    play (fifo ℕ) (anyone ℕ) handOver ⟨⟨[], 2⟩, [.out (), .out ()]⟩ = some (tr, g) ∧
      tr.filterMap accepts = [7, 8] ∧ tr.filterMap takes = [7] ∧
      tr.filterMap accepts = tr.filterMap takes ++ g.shared.q ∧ g.shared.q.length ≤ 2 := by
  have hp : (play (fifo ℕ) (anyone ℕ) handOver ⟨⟨[], 2⟩, [.out (), .out ()]⟩).isSome = true := rfl
  obtain ⟨⟨tr, g⟩, hp⟩ := Option.isSome_iff_exists.mp hp
  have h := taken_in_order (run_play hp)
  have hobs : (play (fifo ℕ) (anyone ℕ) handOver ⟨⟨[], 2⟩, [.out (), .out ()]⟩).map
      (fun x => (x.1.filterMap accepts, x.1.filterMap takes)) = some ([7, 8], [7]) := rfl
  rw [hp] at hobs
  simp only [Option.map_some, Option.some.injEq, Prod.mk.injEq] at hobs
  exact ⟨tr, g, hp, hobs.1, hobs.2, h.1, h.2 (by decide)⟩

/-- Only a queue with a limit lets a thread sleep in `enq`. -/
theorem limited_of_asleep (hts : ∀ t ∈ ts, ∃ u, t = .out u)
    (hr : Run (Step (fifo α) A) ⟨⟨[], max⟩, ts⟩ tr g) (hs : 0 < sleepers .hasSpace g.threads) :
    max ≠ 0 := by
  refine hr.history_invariant (I := fun _ g => 0 < sleepers .hasSpace g.threads → max ≠ 0) ?_ ?_ hs
  · intro h
    obtain ⟨t, ht, hs⟩ := List.countP_pos_iff.mp h
    obtain ⟨u, rfl⟩ := hts t ht
    cases hs
  · intro tr b l c run hb hst hpos
    rcases sleepers_step hst hpos with h | ⟨x, o, o', s, ns, hx⟩
    · exact hb h
    · rw [← (Log.run run).max_eq]
      cases exec_effect hx with
      | waits e full => exact full.1

/-- When every thread is outside or asleep, those that sleep in `deq` have an empty queue, those
that sleep in `enq` a full one, and so no thread sleeps in `deq` while another sleeps in `enq`. -/
theorem asleep_only_for_cause (hts : ∀ t ∈ ts, ∃ u, t = .out u)
    (hr : Run (Step (fifo α) A) ⟨⟨[], max⟩, ts⟩ tr g) (hrest : ∀ t ∈ g.threads, t.next = none) :
    (0 < sleepers .nonEmpty g.threads → g.shared.q = []) ∧
      (0 < sleepers .hasSpace g.threads → g.shared.q.length = max ∧ max ≠ 0) ∧
      (sleepers .nonEmpty g.threads = 0 ∨ sleepers .hasSpace g.threads = 0) := by
  have hlog := Log.run hr
  have hempty : 0 < sleepers .nonEmpty g.threads → g.shared.q = [] := fun hs =>
    List.length_eq_zero_iff.mp (((Served.init hts).run nonEmpty_counting hr).rest hrest hs)
  have hfull : 0 < sleepers .hasSpace g.threads → g.shared.q.length = max ∧ max ≠ 0 := by
    intro hs
    have hzero := ((Served.init hts).run hasSpace_counting hr).rest hrest hs
    have hmax := limited_of_asleep hts hr hs
    have := hlog.bound hmax
    rw [hlog.max_eq] at hzero
    omega
  refine ⟨hempty, hfull, ?_⟩
  by_contra h
  obtain ⟨h1, h2⟩ := not_or.mp h
  have hq := hempty (Nat.pos_of_ne_zero h1)
  have := hfull (Nat.pos_of_ne_zero h2)
  simp only [hq, List.length_nil] at this
  omega

/-- A consumer has come before anything was put in. -/
def starved : Config (Fifo ℕ) Unit (Op ℕ) Cond :=
  ⟨⟨[], 2⟩, [.asleep () .nonEmpty .deq, .out ()]⟩

theorem asleep_only_for_cause_starved :
    Run (Step (fifo ℕ) (anyone ℕ)) ⟨⟨[], 2⟩, [.out (), .out ()]⟩
        [(0, .began .deq), (0, .ran () .deq (.wait .nonEmpty .deq))] starved ∧
      0 < sleepers .nonEmpty starved.threads ∧ sleepers .hasSpace starved.threads = 0 := by
  have hp : play (fifo ℕ) (anyone ℕ) [.begin 0 .deq, .run 0 ()] ⟨⟨[], 2⟩, [.out (), .out ()]⟩ =
      some ([(0, .began .deq), (0, .ran () .deq (.wait .nonEmpty .deq))], starved) := rfl
  have h := asleep_only_for_cause (by simp) (run_play hp) (by decide)
  exact ⟨run_play hp, by decide, h.2.2.resolve_left (by decide)⟩

end Yfs.BoundedQueue
