import Yfs.BoundedQueue
import Mathlib.Data.List.ReduceOption

/-!
# The pool of threads

A `ThrPool` has `nthreads_` workers that take jobs from a bounded queue. Its destructor puts one
job without a function into the queue for each worker, and waits for the workers to exit. It may be
called only when no other thread uses the pool or will use it.
-/

namespace Yfs.ThreadPool
open LabelledRuns Monitors BoundedQueue

variable {J : Type}

/-- Where a thread stands outside the queue: a worker in `do_worker`, a thread that calls `addJob`,
and the thread that destroys the pool, with the jobs it still has to put in and the threads it has
joined. A `job_t` is `none` when its function is `NULL`. -/
inductive User (J : Type) where
  | worker
  | working (j : J)
  | exited
  | client
  | owner
  | closing (k : ℕ)
  | joining (k : ℕ)
  | closed
  deriving DecidableEq, Repr

inductive Role where
  | worker
  | client
  | owner
  deriving DecidableEq, Repr

def User.role : User J → Role
  | .worker | .working _ | .exited => .worker
  | .client => .client
  | .owner | .closing _ | .joining _ | .closed => .owner

abbrev PoolThread (J : Type) := Thread (User J) (Op (Option J)) Cond

abbrev State (J : Type) := Config (Fifo (Option J)) (User J) (Op (Option J)) Cond

/-- `takeJob`, `addJob` as long as the destructor has not begun, and its first loop. -/
inductive Begins (blockadd : Bool) (ts : List (PoolThread J)) : User J → Op (Option J) → Prop where
  | take : Begins blockadd ts .worker .deq
  | add (j : J) (open' : .out .owner ∈ ts) : Begins blockadd ts .client (.enq (some j) blockadd)
  | pill (k : ℕ) : Begins blockadd ts (.closing (k + 1)) (.enq none true)

/-- A worker ends its job; the destructor begins, comes to its second loop, joins a thread and
ends. -/
inductive Moves (n : ℕ) (ts : List (PoolThread J)) : User J → User J → Prop where
  | finish (j : J) : Moves n ts (.working j) .worker
  | close (alone : ∀ t ∈ ts, t.view.1 = .client → t.view.2 = none) : Moves n ts .owner (.closing n)
  | pills : Moves n ts (.closing 0) (.joining 0)
  | join (k : ℕ) (more : k < n) (gone : ts[k]? = some (.out .exited)) :
      Moves n ts (.joining k) (.joining (k + 1))
  | joined : Moves n ts (.joining n) .closed

def back : User J → Result (Option J) → User J
  | .worker, .deq (some j) => .working j
  | .worker, .deq none => .exited
  | .closing (k + 1), .enq _ => .closing k
  | u, _ => u

def pool (n : ℕ) (blockadd : Bool) : Users (User J) (Op (Option J)) (Result (Option J)) Cond where
  begins := Begins blockadd
  back := back
  moves := Moves n

/-- `ThrPool(n, blockadd)` and the `m` threads that use it; the last thread is the one that
destroys it. -/
def start (n m : ℕ) : State J :=
  ⟨⟨[], 100 * n⟩,
    List.replicate n (.out .worker) ++ List.replicate m (.out .client) ++ [.out .owner]⟩

section Decide
variable [DecidableEq J]

def beginsNow (blockadd : Bool) (ts : List (PoolThread J)) : User J → Op (Option J) → Bool
  | .worker, .deq => true
  | .client, .enq (some _) blocking => blocking = blockadd ∧ .out .owner ∈ ts
  | .closing (_ + 1), .enq none true => true
  | _, _ => false

def movesNow (n : ℕ) (ts : List (PoolThread J)) : User J → User J → Bool
  | .working _, .worker => true
  | .owner, .closing k => k = n ∧ ∀ t ∈ ts, t.view.1 = .client → t.view.2 = none
  | .closing 0, .joining 0 => true
  | .joining k, .joining k' => k' = k + 1 ∧ k < n ∧ ts[k]? = some (.out .exited)
  | .joining k, .closed => k = n
  | _, _ => false

instance (n : ℕ) (b : Bool) (ts : List (PoolThread J)) (u : User J) (o : Op (Option J)) :
    Decidable ((pool n b).begins ts u o) :=
  decidable_of_iff (beginsNow b ts u o = true) <| by
    constructor
    · intro h
      unfold beginsNow at h
      split at h
      · exact .take
      · obtain ⟨rfl, ho⟩ := of_decide_eq_true h
        exact .add _ ho
      · exact .pill _
      · cases h
    · rintro (_ | ⟨j, ho⟩ | _)
      · rfl
      · exact decide_eq_true ⟨rfl, ho⟩
      · rfl

instance (n : ℕ) (b : Bool) (ts : List (PoolThread J)) (u u' : User J) :
    Decidable ((pool n b).moves ts u u') :=
  decidable_of_iff (movesNow n ts u u' = true) <| by
    constructor
    · intro h
      unfold movesNow at h
      split at h
      · exact .finish _
      · obtain ⟨rfl, ho⟩ := of_decide_eq_true h
        exact .close ho
      · exact .pills
      · obtain ⟨rfl, hk, hgone⟩ := of_decide_eq_true h
        exact .join _ hk hgone
      · obtain rfl := of_decide_eq_true h
        exact .joined
      · cases h
    · rintro (_ | ⟨alone⟩ | _ | ⟨k, hk, hgone⟩ | _)
      · rfl
      · exact decide_eq_true ⟨rfl, alone⟩
      · rfl
      · exact decide_eq_true ⟨rfl, hk, hgone⟩
      · exact decide_eq_true rfl

end Decide

/-! ## The steps of the pool -/

abbrev View (J : Type) := User J × Option (Op (Option J))

/-- The operation that each thread may be in. -/
inductive Calls (blockadd : Bool) : User J → Op (Option J) → Prop where
  | take : Calls blockadd .worker .deq
  | add (j : J) : Calls blockadd .client (.enq (some j) blockadd)
  | pill (k : ℕ) : Calls blockadd (.closing (k + 1)) (.enq none true)

def Fits (blockadd : Bool) : View J → Prop
  | (_, none) => True
  | (u, some o) => Calls blockadd u o

def roles (n m : ℕ) : List Role :=
  List.replicate n .worker ++ List.replicate m .client ++ [.owner]

/-- Who is in the queue, and that no client is there once the destructor has begun. -/
structure Inside (n m : ℕ) (blockadd : Bool) (vs : List (View J)) : Prop where
  roles : vs.map (fun v => v.1.role) = roles n m
  fits : ∀ v ∈ vs, Fits blockadd v
  clients : ∀ v ∈ vs, v.1 = .client → v.2 ≠ none → ∃ o, vs[n + m]? = some (.owner, o)

def finishes : Label (User J) (Option J) → Option J
  | (_, .moved (.working j) _) => some j
  | _ => none

/-- What a step does to the states of the threads. -/
inductive Turn (n : ℕ) (blockadd : Bool) (g : State J) :
    Label (User J) (Option J) → List (View J) → Prop where
  | quiet {l : Label (User J) (Option J)} {vs : List (View J)}
      (same : vs.map Prod.fst = g.views.map Prod.fst) (ha : accepts l = none)
      (ht : takes l = none) (hf : finishes l = none) : Turn n blockadd g l vs
  | job {i : ℕ} {j : J} (hi : g.views[i]? = some (.worker, some .deq)) :
      Turn n blockadd g (i, .ran () .deq (.ret (.deq (some j)))) (g.views.set i (.working j, none))
  | exit {i : ℕ} (hi : g.views[i]? = some (.worker, some .deq)) :
      Turn n blockadd g (i, .ran () .deq (.ret (.deq none))) (g.views.set i (.exited, none))
  | add {i : ℕ} {j : J} (hi : g.views[i]? = some (.client, some (.enq (some j) blockadd))) :
      Turn n blockadd g (i, .ran () (.enq (some j) blockadd) (.ret (.enq true)))
        (g.views.set i (.client, none))
  | pill {i k : ℕ} (hi : g.views[i]? = some (.closing (k + 1), some (.enq none true))) :
      Turn n blockadd g (i, .ran () (.enq none true) (.ret (.enq true)))
        (g.views.set i (.closing k, none))
  | move {i : ℕ} {u u' : User J} (hi : g.views[i]? = some (u, none))
      (hm : Moves n g.threads u u') :
      Turn n blockadd g (i, .moved u u') (g.views.set i (u', none))

variable {n m i : ℕ} {b : Bool} {g g' : State J} {l : Label (User J) (Option J)}
  {vs : List (View J)} {u u' : User J} {o : Option (Op (Option J))}

theorem map_fst_set {v : View J} (hi : vs[i]? = some v) (hu : v.1 = u') :
    (vs.set i (u', o)).map Prod.fst = vs.map Prod.fst := by
  rw [List.map_set]
  apply set_of_getElem?
  rw [List.getElem?_map, hi, Option.map_some, hu]

theorem Moves.role {ts : List (PoolThread J)} (h : Moves n ts u u') : u'.role = u.role := by
  cases h <;> rfl

theorem step_turn (h : Inside n m b g.views) (hs : Step (fifo (Option J)) (pool n b) g l g') :
    Turn n b g l g'.views := by
  have hseen := hs.seen
  generalize g'.shared = f', g'.views = vs' at hseen
  cases hseen with
  | began hi hb => exact .quiet (map_fst_set hi rfl) rfl rfl rfl
  | moved hi hm => exact .move hi hm
  | stirred => exact .quiet rfl rfl rfl rfl
  | @ran i x u o _ ns e hi hx =>
    have hc : Calls b u o := h.fits _ (List.mem_of_getElem? hi)
    cases exec_effect hx with
    | waits | starves => exact .quiet (map_fst_set hi rfl) rfl rfl rfl
    | refused e full =>
      cases hc
      exact .quiet (map_fst_set hi rfl) rfl rfl rfl
    | sized => cases hc
    | added e blocking space =>
      cases hc with
      | add j => exact .add hi
      | pill k => exact .pill hi
    | took e q hq space =>
      cases hc
      cases e with
      | none => exact .exit hi
      | some j => exact .job hi
    | tookSilently e q hq full =>
      cases hc
      cases e with
      | none => exact .exit hi
      | some j => exact .job hi

/-! ## Who is in the queue -/

theorem roles_worker {k : ℕ} (hk : k < n) : (roles n m)[k]? = some .worker := by
  rw [roles, List.append_assoc, List.getElem?_append_left (by simpa using hk),
    List.getElem?_replicate, if_pos hk]

theorem roles_last : (roles n m)[n + m]? = some .owner := by
  rw [roles, List.getElem?_append_right (by simp)]
  simp

theorem roles_owner (h : (roles n m)[i]? = some .owner) : i = n + m := by
  unfold roles at h
  by_cases h1 : i < n + m
  · rw [List.getElem?_append_left (by simpa using h1)] at h
    have := List.mem_of_getElem? h
    simp at this
  · rw [List.getElem?_append_right (by simpa using Nat.not_lt.mp h1)] at h
    simp only [List.length_append, List.length_replicate] at h
    have := (List.getElem?_eq_some_iff.mp h).1
    simp only [List.length_singleton] at this
    omega

theorem Inside.role_at (h : Inside n m b vs) (hi : vs[i]? = some (u, o)) :
    (ThreadPool.roles n m)[i]? = some u.role := by
  rw [← h.roles, List.getElem?_map, hi, Option.map_some]

theorem Inside.owner_at (h : Inside n m b vs) (hi : vs[i]? = some (u, o))
    (hu : u.role = .owner) : i = n + m :=
  roles_owner (by rw [h.role_at hi, hu])

theorem Inside.not_owner (h : Inside n m b vs) (hi : vs[i]? = some (u, o))
    (hu : u.role ≠ .owner) : i ≠ n + m := by
  rintro rfl
  have := h.role_at hi
  rw [roles_last] at this
  exact hu (Option.some.inj this).symm

theorem Inside.roles_set (h : Inside n m b vs) (hi : vs[i]? = some (u, o)) {v : View J}
    (hv : v.1.role = u.role) :
    (vs.set i v).map (fun v => v.1.role) = ThreadPool.roles n m := by
  rw [← h.roles, List.map_set]
  apply set_of_getElem?
  rw [List.getElem?_map, hi, Option.map_some, hv]

/-- A step of another thread than the owner leaves the owner as it was. -/
theorem Inside.clients_set (h : Inside n m b vs) (hi : vs[i]? = some (u, o)) {v : View J}
    (hrole : u.role ≠ .owner) (hv : v.1 = .client → v.2 ≠ none → ∃ o, vs[n + m]? = some (.owner, o)) :
    ∀ w ∈ vs.set i v, w.1 = .client → w.2 ≠ none → ∃ o, (vs.set i v)[n + m]? = some (.owner, o) := by
  intro w hw hc hne
  have hold : ∃ o, vs[n + m]? = some (.owner, o) := by
    rcases List.mem_or_eq_of_mem_set hw with hw | rfl
    · exact h.clients w hw hc hne
    · exact hv hc hne
  have hni : i ≠ n + m := by
    rintro rfl
    obtain ⟨o', ho⟩ := hold
    rw [hi] at ho
    cases ho
    exact hrole rfl
  rwa [List.getElem?_set_ne hni]

/-- The owner goes on, and no client is in the queue. -/
theorem Inside.owner_set (h : Inside n m b vs) (hi : vs[i]? = some (u, o)) {v : View J}
    (hrole : u.role = .owner) (hv : v.1.role = u.role) (hfits : Fits b v)
    (hout : ∀ w ∈ vs, w.1 = .client → w.2 = none) : Inside n m b (vs.set i v) := by
  refine ⟨h.roles_set hi hv, forall_mem_set h.fits hfits, ?_⟩
  intro w hw hc hne
  rcases List.mem_or_eq_of_mem_set hw with hw | rfl
  · exact absurd (hout w hw hc) hne
  · rw [hc, hrole] at hv
    cases hv

theorem Inside.out_of_closing (h : Inside n m b vs) (hi : vs[i]? = some (u, o))
    (hrole : u.role = .owner) (hu : u ≠ .owner) : ∀ w ∈ vs, w.1 = .client → w.2 = none := by
  intro w hw hc
  by_contra hne
  obtain ⟨o', ho⟩ := h.clients w hw hc hne
  rw [← h.owner_at hi hrole, hi] at ho
  cases ho
  exact hu rfl

/-- A thread that is not the owner goes on. -/
theorem Inside.other_set (h : Inside n m b vs) (hi : vs[i]? = some (u, o)) {v : View J}
    (hrole : u.role ≠ .owner) (hv : v.1.role = u.role) (hfits : Fits b v)
    (hclient : v.1 = .client → v.2 ≠ none → ∃ o, vs[n + m]? = some (.owner, o)) :
    Inside n m b (vs.set i v) :=
  ⟨h.roles_set hi hv, forall_mem_set h.fits hfits, h.clients_set hi hrole hclient⟩

theorem Inside.open_owner (h : Inside n m b g.views) (ho : .out .owner ∈ g.threads) :
    ∃ o, g.views[n + m]? = some (.owner, o) := by
  obtain ⟨i, hi⟩ := List.mem_iff_getElem?.mp ho
  have hv := views_getElem? hi
  obtain rfl := h.owner_at hv rfl
  exact ⟨none, hv⟩

theorem Inside.began (h : Inside n m b g.views) {op : Op (Option J)}
    (hi : g.views[i]? = some (u, none)) (hb : Begins b g.threads u op) :
    Inside n m b (g.views.set i (u, some op)) := by
  cases hb with
  | take => exact h.other_set hi nofun rfl .take nofun
  | add j hopen => exact h.other_set hi nofun rfl (.add j) fun _ _ => h.open_owner hopen
  | pill k => exact h.owner_set hi rfl rfl (.pill k) (h.out_of_closing hi rfl nofun)

theorem Inside.moved (h : Inside n m b g.views) (hi : g.views[i]? = some (u, none))
    (hm : Moves n g.threads u u') : Inside n m b (g.views.set i (u', none)) := by
  cases hm with
  | finish j => exact h.other_set hi nofun rfl trivial nofun
  | close alone =>
    refine h.owner_set hi rfl rfl trivial fun w hw => ?_
    obtain ⟨t, ht, rfl⟩ := List.mem_map.mp hw
    exact alone t ht
  | pills => exact h.owner_set hi rfl rfl trivial (h.out_of_closing hi rfl nofun)
  | join => exact h.owner_set hi rfl rfl trivial (h.out_of_closing hi rfl nofun)
  | joined => exact h.owner_set hi rfl rfl trivial (h.out_of_closing hi rfl nofun)

theorem Inside.ran (h : Inside n m b g.views) {x : Unit} {op : Op (Option J)} {f : Fifo (Option J)}
    {ns : List (Notice Cond)} {e : Ended (Op (Option J)) (Result (Option J)) Cond}
    (hi : g.views[i]? = some (u, some op))
    (hx : (fifo (Option J)).exec x op g.shared = some (f, ns, e)) :
    Inside n m b (g.views.set i (landedView (pool n b) u e)) := by
  have hc : Calls b u op := h.fits _ (List.mem_of_getElem? hi)
  have hsame : Inside n m b (g.views.set i (u, some op)) := by
    rw [set_of_getElem? hi]
    exact h
  cases hc with
  | take =>
    cases exec_effect hx with
    | starves => exact hsame
    | took e | tookSilently e =>
      cases e <;> exact h.other_set hi nofun rfl trivial nofun
  | add j =>
    cases exec_effect hx with
    | waits => exact hsame
    | added | refused => exact h.other_set hi nofun rfl trivial fun _ hne => absurd rfl hne
  | pill k =>
    cases exec_effect hx with
    | waits => exact hsame
    | added => exact h.owner_set hi rfl rfl trivial (h.out_of_closing hi rfl nofun)

theorem Inside.step (h : Inside n m b g.views) (hs : Step (fifo (Option J)) (pool n b) g l g') :
    Inside n m b g'.views := by
  have hseen := hs.seen
  generalize g'.shared = f', g'.views = vs' at hseen
  cases hseen with
  | began hi hb => exact h.began hi hb
  | ran hi hx => exact h.ran hi hx
  | moved hi hm => exact h.moved hi hm
  | stirred => exact h

theorem inside_start : Inside n m b (start n m : State J).views := by
  have hv : (start n m : State J).views =
      List.replicate n (.worker, none) ++ List.replicate m (.client, none) ++ [(.owner, none)] := by
    simp [start, Config.views, Thread.view]
  have hnone : ∀ v ∈ (start n m : State J).views, v.2 = none := by
    intro v hm
    simp only [hv, List.mem_append, List.mem_replicate, List.mem_singleton] at hm
    rcases hm with (⟨-, rfl⟩ | ⟨-, rfl⟩) | rfl <;> rfl
  refine ⟨by simp [hv, roles, User.role], ?_, fun v hm _ hne => absurd (hnone v hm) hne⟩
  rintro ⟨u, o⟩ hm
  obtain rfl : o = none := hnone _ hm
  trivial

theorem users_getElem? {g : State J} (hi : g.views[i]? = some (u, o)) :
    (g.views.map Prod.fst)[i]? = some u := by
  rw [List.getElem?_map, hi, Option.map_some]

/-! ## What was put in -/

/-- The pills that the destructor has not put in yet. -/
def left (n : ℕ) : User J → ℕ
  | .owner => n
  | .closing k => k
  | _ => 0

/-- The pills come after the jobs, and the state `u` of the destructor tells how many. -/
def Put (n : ℕ) (tr : List (Label (User J) (Option J))) (u : User J) : Prop :=
  ∃ (js : List J) (p : ℕ),
    tr.filterMap accepts = js.map some ++ List.replicate p none ∧ p + left n u = n

variable {tr : List (Label (User J) (Option J))}

theorem Put.silent (h : Put n tr u) (ha : accepts l = none) (hl : left n u' = left n u) :
    Put n (tr ++ [l]) u' := by
  obtain ⟨js, p, hacc, hp⟩ := h
  rw [← hl] at hp
  exact ⟨js, p, by rw [filterMap_concat, ha, hacc, Option.toList_none, List.append_nil], hp⟩

theorem Put.job {j : J} (h : Put n tr .owner) (ha : accepts l = some (some j)) :
    Put n (tr ++ [l]) .owner := by
  obtain ⟨js, p, hacc, hp⟩ := h
  obtain rfl : p = 0 := by
    simp only [left] at hp
    omega
  refine ⟨js ++ [j], 0, ?_, hp⟩
  simp [ha, hacc]

theorem Put.pill {k : ℕ} (h : Put n tr (.closing (k + 1))) (ha : accepts l = some none) :
    Put n (tr ++ [l]) (.closing k) := by
  obtain ⟨js, p, hacc, hp⟩ := h
  refine ⟨js, p + 1, ?_, ?_⟩
  · simp [ha, hacc, List.replicate_succ']
  · simp only [left] at hp ⊢
    omega

theorem Moves.left_eq {ts : List (PoolThread J)} (h : Moves n ts u u') : left n u' = left n u := by
  cases h <;> rfl

theorem getElem?_set {α : Type} {l : List α} {a b : α} {k : ℕ} (hi : l[i]? = some a) :
    (l.set i b)[k]? = if i = k then some b else l[k]? := by
  obtain ⟨hlt, -⟩ := List.getElem?_eq_some_iff.mp hi
  rw [List.getElem?_set]
  split_ifs <;> rfl

theorem put_step (hin : Inside n m b g.views) (hu : (g.views.map Prod.fst)[n + m]? = some u)
    (h : Put n tr u) (hs : Step (fifo (Option J)) (pool n b) g l g') :
    ∃ u', (g'.views.map Prod.fst)[n + m]? = some u' ∧ Put n (tr ++ [l]) u' := by
  have hturn := step_turn hin hs
  generalize g'.views = vs' at hturn
  -- a step of another thread
  have hother : ∀ {i : ℕ} {v : View J} {w : User J} {o : Option (Op (Option J))},
      g.views[i]? = some (w, o) → w.role ≠ .owner → accepts l = none →
      ∃ u', ((g.views.set i v).map Prod.fst)[n + m]? = some u' ∧ Put n (tr ++ [l]) u' := by
    intro i v w o hi hw ha
    refine ⟨u, ?_, h.silent ha rfl⟩
    rw [List.map_set, List.getElem?_set_ne (hin.not_owner hi hw), hu]
  cases hturn with
  | quiet same ha => exact ⟨u, same ▸ hu, h.silent ha rfl⟩
  | job hi => exact hother hi nofun rfl
  | exit hi => exact hother hi nofun rfl
  | @add i j hi =>
    -- no pill is in yet, since the owner has not begun
    obtain ⟨o, ho⟩ := hin.clients _ (List.mem_of_getElem? hi) rfl nofun
    rw [users_getElem? ho] at hu
    cases hu
    exact ⟨.owner, by rw [map_fst_set hi rfl, users_getElem? ho], h.job rfl⟩
  | @pill i k hi =>
    obtain rfl := hin.owner_at hi rfl
    rw [users_getElem? hi] at hu
    cases hu
    refine ⟨.closing k, ?_, h.pill rfl⟩
    rw [List.map_set, getElem?_set (users_getElem? hi), if_pos rfl]
  | @move i w w' hi hm =>
    by_cases hw : w.role = .owner
    · obtain rfl := hin.owner_at hi hw
      rw [users_getElem? hi] at hu
      cases hu
      refine ⟨w', ?_, h.silent rfl hm.left_eq⟩
      rw [List.map_set, getElem?_set (users_getElem? hi), if_pos rfl]
    · exact hother hi hw rfl

/-! ## Where the jobs are -/

section Books
variable [DecidableEq J] {us : List (User J)}

/-- The threads that the destructor has joined. -/
def joinedBy (n : ℕ) : User J → ℕ
  | .joining k => k
  | .closed => n
  | _ => 0

/-- A worker that has taken a pill has exited, a job that was taken has ended or is run by one
worker, and the threads that were joined have exited. -/
structure Books (n m : ℕ) (tr : List (Label (User J) (Option J))) (us : List (User J)) : Prop where
  exits : (tr.filterMap takes).count none = us.count .exited
  jobs : ∀ j, (tr.filterMap takes).count (some j) =
    (tr.filterMap finishes).count j + us.count (.working j)
  joined : ∀ u, us[n + m]? = some u → ∀ k < joinedBy n u, us[k]? = some .exited

theorem count_set (a u' : User J) (hi : us[i]? = some u) :
    (us.set i u').count a + (decide (u = a)).toNat = us.count a + (decide (u' = a)).toNat :=
  countP_set_toNat (· == a) hi

/-- A step that takes nothing and ends nothing. -/
theorem Books.silent (h : Books n m tr us) (ht : takes l = none) (hf : finishes l = none) :
    Books n m (tr ++ [l]) us := by
  refine ⟨?_, ?_, h.joined⟩
  · simpa [filterMap_concat, ht] using h.exits
  · simpa [filterMap_concat, ht, hf] using h.jobs

/-- The destructor moves on. -/
theorem Books.own (h : Books n m tr us) (hi : us[n + m]? = some u) (hu : u.role = .owner)
    (hu' : u'.role = .owner) (hjoined : ∀ k < joinedBy n u', us[k]? = some .exited) :
    Books n m tr (us.set (n + m) u') := by
  have hc : ∀ a : User J, a.role = .worker → (us.set (n + m) u').count a = us.count a := by
    intro a ha
    have h1 : u ≠ a := by
      rintro rfl
      rw [hu] at ha
      cases ha
    have h2 : u' ≠ a := by
      rintro rfl
      rw [hu'] at ha
      cases ha
    simpa [h1, h2] using count_set a u' hi
  refine ⟨?_, fun j => ?_, fun w hw k hk => ?_⟩
  · rw [hc _ rfl]
    exact h.exits
  · rw [hc _ rfl]
    exact h.jobs j
  · rw [getElem?_set hi, if_pos rfl] at hw
    cases hw
    have hke := hjoined k hk
    rw [List.getElem?_set_ne]
    · exact hke
    · rintro rfl
      rw [hi] at hke
      cases hke
      cases hu

/-- A worker that has not exited moves on. -/
theorem Books.work (h : Books n m tr us) (hi : us[i]? = some u) (hne : i ≠ n + m)
    (hu : u ≠ .exited)
    (hexit : (takes l).toList.count none + us.count .exited = (us.set i u').count .exited)
    (hjob : ∀ j, (takes l).toList.count (some j) + us.count (.working j) =
      (finishes l).toList.count j + (us.set i u').count (.working j)) :
    Books n m (tr ++ [l]) (us.set i u') := by
  refine ⟨?_, fun j => ?_, fun w hw k hk => ?_⟩
  · rw [filterMap_concat, List.count_append, h.exits]
    omega
  · have := hjob j
    rw [filterMap_concat, filterMap_concat, List.count_append, List.count_append, h.jobs j]
    omega
  · rw [List.getElem?_set_ne hne] at hw
    have hke := h.joined w hw k hk
    rw [List.getElem?_set_ne]
    · exact hke
    · rintro rfl
      rw [hi] at hke
      cases hke
      exact hu rfl

theorem Books.moved (hin : Inside n m b g.views) (h : Books n m tr (g.views.map Prod.fst))
    (hi : g.views[i]? = some (u, none)) (hm : Moves n g.threads u u') :
    Books n m (tr ++ [(i, .moved u u')]) ((g.views.set i (u', none)).map Prod.fst) := by
  have hus := users_getElem? hi
  rw [List.map_set]
  cases hm with
  | finish j =>
    refine h.work hus (hin.not_owner hi (by simp [User.role])) (by simp) ?_ fun j' => ?_
    · have hc := count_set .exited .worker hus
      simp [takes] at hc ⊢
      omega
    · have hc := count_set (.working j') .worker hus
      by_cases hj : j = j' <;> simp [takes, finishes, hj] at hc ⊢ <;> omega
  | close =>
    obtain rfl := hin.owner_at hi rfl
    exact (h.silent rfl rfl).own hus rfl rfl fun k hk => absurd hk (Nat.not_lt_zero k)
  | pills =>
    obtain rfl := hin.owner_at hi rfl
    exact (h.silent rfl rfl).own hus rfl rfl fun k hk => absurd hk (Nat.not_lt_zero k)
  | join k more gone =>
    obtain rfl := hin.owner_at hi rfl
    refine (h.silent rfl rfl).own hus rfl rfl fun k' hk' => ?_
    rcases Nat.lt_succ_iff_lt_or_eq.mp hk' with hlt | rfl
    · exact h.joined _ hus k' hlt
    · exact users_getElem? (views_getElem? gone)
  | joined =>
    obtain rfl := hin.owner_at hi rfl
    exact (h.silent rfl rfl).own hus rfl rfl (h.joined (.joining n) hus)

theorem Books.step (hin : Inside n m b g.views) (h : Books n m tr (g.views.map Prod.fst))
    (hs : Step (fifo (Option J)) (pool n b) g l g') :
    Books n m (tr ++ [l]) (g'.views.map Prod.fst) := by
  have hturn := step_turn hin hs
  generalize g'.views = vs' at hturn
  cases hturn with
  | quiet same ha ht hf => exact same ▸ h.silent ht hf
  | @job i j hi =>
    have hus := users_getElem? hi
    rw [List.map_set]
    refine h.work hus (hin.not_owner hi (by simp [User.role])) (by simp) ?_ fun j' => ?_
    · have hc := count_set .exited (.working j) hus
      simp [takes] at hc ⊢
      omega
    · have hc := count_set (.working j') (.working j) hus
      by_cases hj : j = j' <;> simp [takes, finishes, hj] at hc ⊢ <;> omega
  | @exit i hi =>
    have hus := users_getElem? hi
    rw [List.map_set]
    refine h.work hus (hin.not_owner hi (by simp [User.role])) (by simp) ?_ fun j' => ?_
    · have hc := count_set .exited .exited hus
      simp [takes] at hc ⊢
      omega
    · have hc := count_set (.working j') .exited hus
      simp [takes, finishes] at hc ⊢
      omega
  | add hi =>
    rw [map_fst_set hi rfl]
    exact h.silent rfl rfl
  | pill hi =>
    obtain rfl := hin.owner_at hi rfl
    rw [List.map_set]
    exact (h.silent rfl rfl).own (users_getElem? hi) rfl rfl fun k hk => absurd hk (Nat.not_lt_zero k)
  | move hi hm => exact h.moved hin hi hm

omit [DecidableEq J] in
theorem put_start : (((start n m : State J).views.map Prod.fst)[n + m]? = some .owner) ∧
    Put n [] (.owner : User J) := by
  refine ⟨?_, [], 0, rfl, Nat.zero_add n⟩
  simp [start, Config.views, Thread.view]

theorem books_start : Books n m [] ((start n m : State J).views.map Prod.fst) := by
  have hu : (start n m : State J).views.map Prod.fst =
      List.replicate n .worker ++ List.replicate m .client ++ [.owner] := by
    simp [start, Config.views, Thread.view]
  refine ⟨?_, fun j => ?_, fun u hi k hk => ?_⟩
  · simp [hu, List.count_replicate]
  · simp [hu, List.count_replicate]
  · rw [put_start.1] at hi
    cases hi
    cases hk

/-- What holds after every run of the pool. -/
structure PoolInv (n m : ℕ) (b : Bool) (tr : List (Label (User J) (Option J))) (g : State J) :
    Prop where
  inside : Inside n m b g.views
  put : ∃ u, (g.views.map Prod.fst)[n + m]? = some u ∧ Put n tr u
  books : Books n m tr (g.views.map Prod.fst)
  log : Log (100 * n) tr g.shared

theorem pool_inv (hr : Run (Step (fifo (Option J)) (pool n b)) (start n m) tr g) :
    PoolInv n m b tr g := by
  refine hr.history_invariant (I := PoolInv n m b) ?_ ?_
  · exact ⟨inside_start, ⟨_, put_start⟩, books_start, rfl, rfl, fun _ => Nat.zero_le _⟩
  · intro tr g l g' _ h hs
    obtain ⟨u, hu, hput⟩ := h.put
    exact ⟨h.inside.step hs, put_step h.inside hu hput hs, h.books.step h.inside hs, h.log.step hs⟩

/-- The jobs that the workers run. -/
def running (us : List (User J)) : List J :=
  us.filterMap fun u => match u with
    | .working j => some j
    | _ => none

theorem count_running (us : List (User J)) (j : J) :
    (running us).count j = us.count (.working j) := by
  induction us with
  | nil => rfl
  | cons u us ih =>
    unfold running at ih ⊢
    cases u with
    | working j' => by_cases hj : j' = j <;> simp [hj, ih]
    | _ => simp [ih]

omit [DecidableEq J] in
theorem Inside.count_workers (h : Inside n m b g.views) :
    ((g.views.map Prod.fst).map User.role).count .worker = n := by
  have hroles : (g.views.map Prod.fst).map User.role = ThreadPool.roles n m := by
    rw [← h.roles, List.map_map]
    rfl
  rw [hroles, ThreadPool.roles]
  simp [List.count_replicate]

omit [DecidableEq J] in
theorem running_le (us : List (User J)) :
    (running us).length ≤ (us.map User.role).count .worker := by
  induction us with
  | nil => exact Nat.le_refl _
  | cons u us ih =>
    unfold running at ih ⊢
    cases u <;> simp [User.role] <;> omega

theorem count_reduceOption (xs : List (Option J)) (j : J) :
    xs.reduceOption.count j = xs.count (some j) := by
  induction xs with
  | nil => rfl
  | cons x xs ih =>
    cases x with
    | none => simpa using ih
    | some j' => by_cases hj : j' = j <;> simp [hj, ih]

theorem Books.started (h : Books n m tr us) :
    (tr.filterMap takes).reduceOption.Perm (tr.filterMap finishes ++ running us) := by
  rw [List.perm_iff_count]
  intro j
  rw [count_reduceOption, h.jobs j, List.count_append, count_running]

/-- A job that was accepted waits in the queue or was taken in its turn, and one that was taken has
ended or is one of the at most `n` that run. -/
theorem jobs_kept (hr : Run (Step (fifo (Option J)) (pool n b)) (start n m) tr g) :
    (tr.filterMap accepts).reduceOption =
        (tr.filterMap takes).reduceOption ++ g.shared.q.reduceOption ∧
      (tr.filterMap takes).reduceOption.Perm
        (tr.filterMap finishes ++ running (g.views.map Prod.fst)) ∧
      (running (g.views.map Prod.fst)).length ≤ n := by
  have h := pool_inv hr
  refine ⟨?_, h.books.started, ?_⟩
  · rw [h.log.order, List.reduceOption_append]
  · have := running_le (g.views.map Prod.fst)
    rwa [h.inside.count_workers] at this

/-- One worker runs the job that one client has added, and the pool is destroyed. -/
def lifetime : List (Choice Unit (User ℕ) (Op (Option ℕ))) :=
  [.begin 1 (.enq (some 7) true), .run 1 (), .begin 0 .deq, .run 0 (), .move 2 (.closing 1),
    .move 0 .worker, .begin 0 .deq, .run 0 (), .begin 2 (.enq none true), .run 2 (), .run 0 (),
    .move 2 (.joining 0), .move 2 (.joining 1), .move 2 .closed]

theorem jobs_kept_lifetime : ∃ tr g,
    play (fifo (Option ℕ)) (pool 1 true) (lifetime.take 5) (start 1 1) = some (tr, g) ∧
      (tr.filterMap accepts).reduceOption = [7] ∧
      (tr.filterMap takes).reduceOption.Perm
        (tr.filterMap finishes ++ running (g.views.map Prod.fst)) := by
  have hp : (play (fifo (Option ℕ)) (pool 1 true) (lifetime.take 5) (start 1 1)).map
      (fun x => (x.1.filterMap accepts).reduceOption) = some [7] := by decide
  obtain ⟨⟨tr, g⟩, hp, hacc⟩ := Option.map_eq_some_iff.mp hp
  exact ⟨tr, g, hp, hacc, (jobs_kept (run_play hp)).2.1⟩

/-! ## After the destructor -/

theorem le_count_of_getElem? {a : User J} (h : ∀ k < n, us[k]? = some a) : n ≤ us.count a := by
  induction n generalizing us with
  | zero => exact Nat.zero_le _
  | succ n ih =>
    cases us with
    | nil => cases h 0 (Nat.zero_lt_succ n)
    | cons u us =>
      obtain rfl : u = a := Option.some.inj (h 0 (Nat.zero_lt_succ n))
      have := ih fun k hk => h (k + 1) (Nat.succ_lt_succ hk)
      rw [List.count_cons_self]
      omega

omit [DecidableEq J] in
/-- A suffix of jobs followed by pills that has no pill is empty. -/
theorem suffix_nil {js : List J} {xs ys : List (Option J)}
    (h : js.map some ++ List.replicate (n + 1) none = xs ++ ys) (hy : none ∉ ys) : ys = [] := by
  rcases List.eq_nil_or_concat ys with rfl | ⟨ys', y, rfl⟩
  · rfl
  · rw [List.replicate_succ', List.concat_eq_append, ← List.append_assoc, ← List.append_assoc] at h
    obtain ⟨-, hl⟩ := List.append_inj' h rfl
    obtain rfl := List.singleton_inj.mp hl
    simp at hy

theorem roles_worker_lt {k : ℕ} (h : (roles n m)[k]? = some .worker) : k < n := by
  by_contra hk
  have hmem : Role.worker ∈ List.replicate m Role.client ++ [.owner] := by
    rw [roles, List.append_assoc, List.getElem?_append_right (by simpa using Nat.not_lt.mp hk)] at h
    exact List.mem_of_getElem? h
  simp at hmem

omit [DecidableEq J] in
theorem Inside.worker_lt (h : Inside n m b g.views) {k : ℕ}
    (hk : (g.views.map Prod.fst)[k]? = some u) (hu : u.role = .worker) : k < n := by
  obtain ⟨v, hv, rfl⟩ := Option.map_eq_some_iff.mp (List.getElem?_map.symm.trans hk)
  exact roles_worker_lt (m := m) (by rw [h.role_at hv, hu])

omit [DecidableEq J] in
theorem Inside.exited (h : Inside n m b g.views) {k : ℕ}
    (hk : (g.views.map Prod.fst)[k]? = some .exited) : g.threads[k]? = some (.out .exited) := by
  rw [Config.views, List.map_map, List.getElem?_map, Option.map_eq_some_iff] at hk
  obtain ⟨t, ht, hu⟩ := hk
  have hfits := h.fits _ (List.mem_of_getElem? (views_getElem? ht))
  cases t with
  | out u =>
    cases hu
    exact ht
  | _ =>
    cases hu
    cases hfits

/-- The pills that were taken are as many as the workers that have exited, and no more than were
put in. -/
theorem PoolInv.pills (h : PoolInv n m b tr g)
    (hu : (g.views.map Prod.fst)[n + m]? = some u) :
    (g.views.map Prod.fst).count .exited + g.shared.q.count none + left n u = n := by
  obtain ⟨w, hw, js, p, hacc, hp⟩ := h.put
  obtain rfl : u = w := Option.some.inj (hu.symm.trans hw)
  have hcount := congrArg (List.count none) h.log.order
  have hjs : (js.map some).count none = 0 := List.count_eq_zero.mpr (by simp)
  rw [hacc, List.count_append, List.count_replicate_self, List.count_append, h.books.exits] at hcount
  omega

/-- When the destructor has returned, every job that was accepted has ended, all the workers have
exited, and the queue is empty. -/
theorem destroyed_after_all_jobs (hn : 0 < n)
    (hr : Run (Step (fifo (Option J)) (pool n b)) (start n m) tr g)
    (hc : g.threads[n + m]? = some (.out .closed)) :
    g.shared.q = [] ∧ (∀ k < n, g.threads[k]? = some (.out .exited)) ∧
      (tr.filterMap accepts).reduceOption.Perm (tr.filterMap finishes) := by
  have h := pool_inv hr
  have hlast := users_getElem? (views_getElem? hc)
  have hexited : ∀ k < n, (g.views.map Prod.fst)[k]? = some .exited := h.books.joined .closed hlast
  -- as many pills were taken as were put in
  have hq : g.shared.q = [] := by
    have hbal := h.pills hlast
    have hle := le_count_of_getElem? hexited
    obtain ⟨u, hu, js, p, hacc, hp⟩ := h.put
    obtain rfl : u = .closed := Option.some.inj (hu.symm.trans hlast)
    obtain rfl : p = n := hp
    obtain ⟨n, rfl⟩ := Nat.exists_eq_succ_of_ne_zero (Nat.ne_of_gt hn)
    exact suffix_nil (hacc.symm.trans h.log.order) (List.count_eq_zero.mp (by omega))
  refine ⟨hq, fun k hk => h.inside.exited (hexited k hk), ?_⟩
  have hrun : running (g.views.map Prod.fst) = [] := by
    rw [List.eq_nil_iff_forall_not_mem]
    intro j hj
    have hpos : 0 < (g.views.map Prod.fst).count (.working j) := by
      rw [← count_running]
      exact List.count_pos_iff.mpr hj
    obtain ⟨k, hk⟩ := List.mem_iff_getElem?.mp (List.count_pos_iff.mp hpos)
    rw [hexited k (h.inside.worker_lt hk rfl)] at hk
    cases hk
  have hstarted := h.books.started
  rw [hrun, List.append_nil] at hstarted
  rwa [h.log.order, hq, List.append_nil]

theorem destroyed_after_all_jobs_lifetime : ∃ tr g,
    play (fifo (Option ℕ)) (pool 1 true) lifetime (start 1 1) = some (tr, g) ∧
      (tr.filterMap accepts).reduceOption = [7] ∧ g.shared.q = [] ∧ [7].Perm (tr.filterMap finishes) := by
  have hp : (play (fifo (Option ℕ)) (pool 1 true) lifetime (start 1 1)).map
      (fun x => ((x.1.filterMap accepts).reduceOption, x.2.threads[2]?)) =
      some ([7], some (.out .closed)) := by decide
  obtain ⟨⟨tr, g⟩, hp, he⟩ := Option.map_eq_some_iff.mp hp
  simp only [Prod.mk.injEq] at he
  have h := destroyed_after_all_jobs Nat.zero_lt_one (run_play hp) he.2
  exact ⟨tr, g, hp, he.1, h.1, he.1 ▸ h.2.2⟩

end Books

end Yfs.ThreadPool
