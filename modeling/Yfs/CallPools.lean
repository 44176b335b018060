import Yfs.Schedules

/-!
# Pools of dispatch threads

Remote calls are served by hosts. A call that has arrived waits in the queue of its host until one
of the host's threads takes it, and keeps that thread until it has returned: a frame that serves a
remote call is a thread that is taken. Calls within a process need no such thread.
-/

namespace Yfs.CallPools
open LabelledRuns CallStackMachines Schedules

variable {S L E R V F W H : Type} [DecidableEq H]

/-- The host of each remote call, and the number of threads that each host has. -/
structure Hosting (R H : Type) where
  host : R → Option H
  size : ℕ

/-- A configuration, and the queue of each host: the threads whose call has arrived, oldest
first. -/
structure Pools (S L R V F W H : Type) where
  system : Config S L R V F W
  queue : H → List ℕ

inductive PoolLabel (E R V F W H : Type) where
  | arrive (i : ℕ) (h : H)
  | dispatch (i : ℕ) (h : H)
  | inner (i : ℕ) (lab : Label E R V F W)

variable (M : Machine S R V F W) (A : App L E R V) (Z : Hosting R H)

def taken (h : H) (r : R) : ℕ := if Z.host r = some h then 1 else 0

/-- The threads of a host that the frames of a stack have taken. -/
def framesLoad (h : H) (fs : List F) : ℕ := (fs.map fun f => taken Z h (M.serves f)).sum

/-- A call that sleeps keeps its thread as well. -/
def controlLoad (h : H) : Control R V W → ℕ
  | .asleep w => taken Z h (M.sleepsFor w)
  | _ => 0

/-- The threads of a host that one stack of calls has taken. -/
def load (h : H) (t : Thread L R V F W) : ℕ :=
  t.busy.elim 0 fun a => controlLoad M Z h a.control + framesLoad M Z h a.frames

def occupied (h : H) (g : Config S L R V F W) : ℕ := (g.threads.map (load M Z h)).sum

/-- The thread has made a call to the host that has not been served yet. -/
def Calling (h : H) (t : Thread L R V F W) : Prop :=
  ∃ a ∈ t.busy, ∃ r, a.control = .request r ∧ Z.host r = some h

instance (h : H) (t : Thread L R V F W) : Decidable (Calling Z h t) :=
  match t with
  | ⟨_, some ⟨_, .request r, _⟩⟩ => decidable_of_iff (Z.host r = some h) (by simp [Calling])
  | ⟨_, some ⟨_, .reply _, _⟩⟩ => .isFalse (by simp [Calling])
  | ⟨_, some ⟨_, .asleep _, _⟩⟩ => .isFalse (by simp [Calling])
  | ⟨_, none⟩ => .isFalse (by simp [Calling])

inductive PoolStep : Pools S L R V F W H → PoolLabel E R V F W H → Pools S L R V F W H → Prop where
  | arrive {p : Pools S L R V F W H} {i : ℕ} {h : H} {t : Thread L R V F W}
      (hi : p.system.threads[i]? = some t) (hc : Calling Z h t) (hq : i ∉ p.queue h) :
      PoolStep p (.arrive i h) ⟨p.system, Function.update p.queue h (p.queue h ++ [i])⟩
  | dispatch {p : Pools S L R V F W H} {i : ℕ} {h : H} {rest : List ℕ} {r : R}
      {g : Config S L R V F W} (hq : p.queue h = i :: rest)
      (hfree : occupied M Z h p.system < Z.size) (hr : Z.host r = some h)
      (hs : Step M A p.system (i, .ran r) g) :
      PoolStep p (.dispatch i h) ⟨g, Function.update p.queue h rest⟩
  | inner {p : Pools S L R V F W H} {i : ℕ} {lab : Label E R V F W} {g : Config S L R V F W}
      (hs : Step M A p.system (i, lab) g) (hl : ∀ r, lab = .ran r → Z.host r = none) :
      PoolStep p (.inner i lab) ⟨g, p.queue⟩

/-- All threads of the host are taken, and none of them gets free unless the host dispatches
another call. -/
def Exhausted (h : H) (p : Pools S L R V F W H) : Prop :=
  occupied M Z h p.system = Z.size ∧ ∀ tr p', Run (PoolStep M A Z) p tr p' →
    (∀ i, .dispatch i h ∉ tr) → occupied M Z h p'.system = Z.size

variable {M A Z} {g g' : Config S L R V F W} {p p' : Pools S L R V F W H} {h h' : H} {i : ℕ}
  {s s' : S} {t t' : Thread L R V F W} {lab : Label E R V F W} {l : PoolLabel E R V F W H}

/-! ## Steps of one thread -/

/-- A piece of code that serves `r` keeps the thread of `r` at most. -/
theorem load_land {q r : R} {fs : List F} {o : Outcome R V F W} (l : L) (h : H)
    (hf : M.Faithful r o) : load M Z h (⟨l, some (.land q fs o)⟩ : Thread L R V F W) ≤
      taken Z h r + framesLoad M Z h fs := by
  cases o with
  | ret v => exact Nat.add_le_add_right (Nat.zero_le _) _
  | wait w =>
    obtain rfl : M.sleepsFor w = r := hf
    exact le_refl _
  | call r' f =>
    obtain ⟨rfl, -⟩ := hf
    exact (Nat.zero_add _).le

/-- Only a call that is dispatched takes a thread. -/
theorem load_step (hM : M.Lawful) (ht : ∀ a ∈ t.busy, M.Linked a)
    (hs : ThreadStep M A s t lab s' t') (hno : ∀ r, lab = .ran r → Z.host r ≠ some h) :
    load M Z h t' ≤ load M Z h t := by
  cases hs with
  | think => exact le_refl _
  | begins => exact le_refl _
  | ended => exact Nat.zero_le _
  | @exec l q r fs s' o hx =>
    refine (load_land l h (hM.exec r s s' o hx)).trans ?_
    rw [taken, if_neg (hno r rfl)]
    exact le_refl _
  | @wake l q w fs s' o hx => exact load_land l h (hM.wake w s s' o hx)
  | @resume l q v f fs s' o hx =>
    refine (load_land l h (hM.resume f v s s' o (ht _ rfl).2 hx)).trans ?_
    exact (Nat.zero_add _).ge

omit [DecidableEq H] in
/-- A thread that has made a remote call does nothing until the call is dispatched. -/
theorem Calling.ran (hc : Calling Z h t) (hs : ThreadStep M A s t lab s' t') :
    ∃ r, lab = .ran r ∧ Z.host r = some h := by
  obtain ⟨a, ha, r, hr, hh⟩ := hc
  cases hs with
  | think | begins => cases ha
  | exec =>
    cases ha
    cases hr
    exact ⟨r, rfl, hh⟩
  | wake | resume | ended =>
    cases ha
    cases hr

omit [DecidableEq H] in
/-- The code that a thread is about to run does not fail, so the thread can move. -/
theorem step_of_not_fails {q : R} {r : R} {fs : List F} {l : L}
    (hi : g.threads[i]? = some ⟨l, some ⟨q, .request r, fs⟩⟩)
    (hf : ¬(⟨l, some ⟨q, .request r, fs⟩⟩ : Thread L R V F W).Fails M g.shared) :
    ∃ s' o, M.exec r g.shared = some (s', o) ∧
      Step M A g (i, .ran r) ⟨s', g.threads.set i ⟨l, some (.land q fs o)⟩⟩ := by
  obtain ⟨⟨s', o⟩, hx⟩ := Option.ne_none_iff_exists'.mp hf
  exact ⟨s', o, hx, step_set hi (.exec hx)⟩

/-! ## Sums over the threads -/

/-- Every stack answers the calls below it. -/
def AllLinked (M : Machine S R V F W) (g : Config S L R V F W) : Prop :=
  ∀ t ∈ g.threads, ∀ a ∈ t.busy, M.Linked a

theorem AllLinked.step (hM : M.Lawful) (hg : AllLinked M g) {x : ℕ × Label E R V F W}
    (hs : Step M A g x g') : AllLinked M g' := by
  obtain ⟨i, lab⟩ := x
  obtain ⟨t, t', hi, ht, hset⟩ := step_elim hs
  intro u hu
  rw [hset] at hu
  rcases List.mem_or_eq_of_mem_set hu with hu | rfl
  · exact hg u hu
  · exact hM.linked_step ht (hg t (List.mem_of_getElem? hi))

/-! ## Runs -/

/-- A step of the pools is a step of the system, or the arrival of a call. -/
theorem PoolStep.system (hs : PoolStep M A Z p l p') :
    p'.system = p.system ∨ ∃ x, Step M A p.system x p'.system := by
  cases hs with
  | arrive => exact .inl rfl
  | dispatch _ _ _ hs => exact .inr ⟨_, hs⟩
  | inner hs => exact .inr ⟨_, hs⟩

/-- A step other than a dispatch at the host serves no call to the host. -/
theorem PoolStep.elim (hs : PoolStep M A Z p l p') (hl : ∀ i, l ≠ .dispatch i h) :
    p'.system = p.system ∨ ∃ i lab, Step M A p.system (i, lab) p'.system ∧
      ∀ r, lab = .ran r → Z.host r ≠ some h := by
  cases hs with
  | arrive => exact .inl rfl
  | @dispatch i h' rest r g hq hfree hr hs =>
    refine .inr ⟨i, _, hs, ?_⟩
    rintro r' ⟨⟩ hr'
    rw [hr] at hr'
    obtain rfl := Option.some.inj hr'
    exact hl i rfl
  | inner hs hno =>
    refine .inr ⟨_, _, hs, fun r hr hr' => ?_⟩
    rw [hno r hr] at hr'
    cases hr'

/-! ## Exhaustion -/

/-- Every call that has taken a thread of the host waits for another call to the host. -/
def Stuck (M : Machine S R V F W) (Z : Hosting R H) (h : H) (g : Config S L R V F W) : Prop :=
  ∀ t ∈ g.threads, 0 < load M Z h t → Calling Z h t

instance (g : Config S L R V F W) : Decidable (Stuck M Z h g) :=
  inferInstanceAs (Decidable (∀ t ∈ g.threads, 0 < load M Z h t → Calling Z h t))

theorem Stuck.step (hM : M.Lawful) (hp : AllLinked M p.system) (hstuck : Stuck M Z h p.system)
    (hs : PoolStep M A Z p l p') (hl : ∀ i, l ≠ .dispatch i h) :
    Stuck M Z h p'.system ∧ occupied M Z h p'.system = occupied M Z h p.system := by
  rcases hs.elim hl with he | ⟨i, lab, hs, hno⟩
  · rw [he]
    exact ⟨hstuck, rfl⟩
  obtain ⟨t, t', hi, ht, hset⟩ := step_elim hs
  have hmem := List.mem_of_getElem? hi
  have hload := load_step hM (hp t hmem) ht hno
  have hzero : load M Z h t = 0 := by
    by_contra hne
    obtain ⟨r, hr, hh⟩ := (hstuck t hmem (Nat.pos_of_ne_zero hne)).ran ht
    exact hno r hr hh
  have hsum := sum_set (load M Z h) t' hi
  rw [← hset] at hsum
  change occupied M Z h p'.system + _ = occupied M Z h p.system + _ at hsum
  refine ⟨fun u hu hpos => ?_, by omega⟩
  rw [hset] at hu
  rcases List.mem_or_eq_of_mem_set hu with hu | rfl
  · exact hstuck u hu hpos
  · omega

/-- A full pool whose calls all wait for the pool itself is exhausted. -/
theorem exhausted_of_stuck (hM : M.Lawful) (hp : AllLinked M p.system)
    (hfull : occupied M Z h p.system = Z.size) (hstuck : Stuck M Z h p.system) :
    Exhausted M A Z h p := by
  refine ⟨hfull, fun tr p' hr hno => ?_⟩
  have hinv := hr.history_invariant
    (I := fun tr p' => (∀ i, .dispatch i h ∉ tr) → AllLinked M p'.system ∧ Stuck M Z h p'.system ∧
      occupied M Z h p'.system = Z.size) (fun _ => ⟨hp, hstuck, hfull⟩) ?_ hno
  · exact hinv.2.2
  · intro tr b l c _ ih hs hno
    obtain ⟨hlinked, hst, hocc⟩ := ih fun i hi => hno i (List.mem_append_left _ hi)
    have hl : ∀ i, l ≠ .dispatch i h := by
      rintro i rfl
      exact hno i (by simp)
    obtain ⟨hst', hocc'⟩ := hst.step hM hlinked hs hl
    refine ⟨?_, hst', hocc'.trans hocc⟩
    rcases hs.system with he | ⟨x, hx⟩
    · rwa [he]
    · exact hlinked.step hM hx

/-- A pool is not exhausted when its calls, as long as one of them does not wait for the pool
itself, can go on without the pool and come closer to their end. -/
theorem not_exhausted {I : Pools S L R V F W H → Prop} (μ : Pools S L R V F W H → ℕ) (hp : I p)
    (progress : ∀ p, I p → ¬Stuck M Z h p.system → ∃ tr p', Run (PoolStep M A Z) p tr p' ∧
      (∀ i, .dispatch i h ∉ tr) ∧ I p' ∧ μ p' < μ p)
    (room : ∀ p, I p → Stuck M Z h p.system → occupied M Z h p.system < Z.size) :
    ¬Exhausted M A Z h p := by
  induction hn : μ p using Nat.strong_induction_on generalizing p with
  | _ n ih =>
    subst hn
    intro hex
    by_cases hstuck : Stuck M Z h p.system
    · exact (room p hp hstuck).ne hex.1
    · obtain ⟨tr, p', hr, hno, hp', hlt⟩ := progress p hp hstuck
      refine ih _ hlt hp' rfl ⟨hex.2 tr p' hr hno, fun tr' p'' hr' hno' => ?_⟩
      refine hex.2 (tr ++ tr') p'' (hr.append hr') fun i hi => ?_
      exact (List.mem_append.mp hi).elim (hno i) (hno' i)

/-! ## Queues -/

/-- The threads in a queue are different, and each has made a call to the host. -/
structure QueueOk (Z : Hosting R H) (p : Pools S L R V F W H) : Prop where
  nodup : ∀ h, (p.queue h).Nodup
  calling : ∀ h, ∀ i ∈ p.queue h, ∃ t, p.system.threads[i]? = some t ∧ Calling Z h t

omit [DecidableEq H] in
/-- A step of a thread that is in no queue. -/
theorem QueueOk.calling_step (hp : QueueOk Z p) (hs : Step M A p.system (i, lab) g)
    {j : ℕ} (hj : j ∈ p.queue h) (hji : j ≠ i) : ∃ t, g.threads[j]? = some t ∧ Calling Z h t := by
  obtain ⟨t, ht, hc⟩ := hp.calling h j hj
  obtain ⟨-, t', -, -, hset⟩ := step_elim hs
  exact ⟨t, by rw [hset, List.getElem?_set_ne hji.symm, ht], hc⟩

omit [DecidableEq H] in
theorem QueueOk.host_eq (hp : QueueOk Z p) (hs : Step M A p.system (i, lab) g)
    (hj : i ∈ p.queue h) : ∃ r, lab = .ran r ∧ Z.host r = some h := by
  obtain ⟨t, ht, hc⟩ := hp.calling h i hj
  obtain ⟨u, t', hu, hstep, -⟩ := step_elim hs
  rw [ht] at hu
  obtain rfl := Option.some.inj hu
  exact hc.ran hstep

theorem QueueOk.step (hp : QueueOk Z p) (hs : PoolStep M A Z p l p') : QueueOk Z p' := by
  cases hs with
  | @arrive i h t hi hc hq =>
    constructor
    · intro h'
      by_cases hh : h' = h
      · subst hh
        simpa [List.nodup_append, hp.nodup h'] using fun a ha (he : a = i) => hq (he ▸ ha)
      · simpa [hh] using hp.nodup h'
    · intro h' j hj
      by_cases hh : h' = h
      · subst hh
        rcases List.mem_append.1 (by simpa using hj : j ∈ p.queue h' ++ [i]) with hj | hj
        · exact hp.calling h' j hj
        · obtain rfl := List.mem_singleton.1 hj
          exact ⟨t, hi, hc⟩
      · exact hp.calling h' j (by simpa [hh] using hj)
  | @dispatch i h rest r g hq hfree hr hs =>
    have hnodup := hp.nodup h
    rw [hq, List.nodup_cons] at hnodup
    constructor
    · intro h'
      by_cases hh : h' = h
      · subst hh
        simpa using hnodup.2
      · simpa [hh] using hp.nodup h'
    · intro h' j hj
      by_cases hh : h' = h
      · subst hh
        have hj' : j ∈ rest := by simpa using hj
        refine hp.calling_step hs (by rw [hq]; exact List.mem_cons_of_mem _ hj') ?_
        rintro rfl
        exact hnodup.1 hj'
      · have hj' : j ∈ p.queue h' := by simpa [hh] using hj
        refine hp.calling_step hs hj' ?_
        rintro rfl
        obtain ⟨r', ⟨⟩, hr'⟩ := hp.host_eq hs hj'
        rw [hr] at hr'
        exact hh (Option.some.inj hr').symm
  | @inner i lab g hs hno =>
    refine ⟨hp.nodup, fun h j hj => hp.calling_step hs hj ?_⟩
    rintro rfl
    obtain ⟨r, hlab, hr⟩ := hp.host_eq hs hj
    rw [hno r hlab] at hr
    cases hr

/-- A host that has a thread left serves the oldest of its calls. -/
theorem QueueOk.serve_next (hp : QueueOk Z p) (hfails : ∀ t ∈ p.system.threads, ¬t.Fails M p.system.shared)
    (hi : p.system.threads[i]? = some t) (hc : Calling Z h t)
    (hfree : occupied M Z h p.system < Z.size) :
    ∃ tr p' j r, Run (PoolStep M A Z) p tr p' ∧
      (tr = [.dispatch j h] ∨ tr = [.arrive j h, .dispatch j h]) ∧
      Z.host r = some h ∧ Step M A p.system (j, .ran r) p'.system := by
  have hserve : ∀ {q : Pools S L R V F W H} {j : ℕ} {rest : List ℕ} {u : Thread L R V F W},
      q.system = p.system → q.queue h = j :: rest → p.system.threads[j]? = some u →
      Calling Z h u → ∃ p' r, PoolStep M A Z q (.dispatch j h) p' ∧ Z.host r = some h ∧
        Step M A p.system (j, .ran r) p'.system := by
    rintro q j rest ⟨l, _ | ⟨b, k, fs⟩⟩ hsys hq hj ⟨a, ha, r, hk, hh⟩
    · cases ha
    obtain rfl := Option.some.inj ha
    obtain rfl : k = .request r := hk
    obtain ⟨s', o, -, hs⟩ := step_of_not_fails (A := A) hj (hfails _ (List.mem_of_getElem? hj))
    exact ⟨_, r, .dispatch hq (hsys ▸ hfree) hh (hsys ▸ hs), hh, hs⟩
  cases hq : p.queue h with
  | cons j rest =>
    obtain ⟨u, hj, hu⟩ := hp.calling h j (by rw [hq]; exact List.mem_cons_self)
    obtain ⟨p', r, hs, hh, hstep⟩ := hserve rfl hq hj hu
    exact ⟨_, p', j, r, .single hs, .inl rfl, hh, hstep⟩
  | nil =>
    have harrive : PoolStep M A Z p (.arrive i h)
        ⟨p.system, Function.update p.queue h (p.queue h ++ [i])⟩ :=
      .arrive hi hc (by rw [hq]; exact List.not_mem_nil)
    have hfirst : Function.update p.queue h (p.queue h ++ [i]) h = i :: [] := by
      rw [Function.update_self, hq, List.nil_append]
    obtain ⟨p', r, hs, hh, hstep⟩ :=
      hserve (q := ⟨p.system, Function.update p.queue h (p.queue h ++ [i])⟩) rfl hfirst hi hc
    exact ⟨_, p', i, r, (Run.single harrive).snoc hs, .inr rfl, hh, hstep⟩

/-! ## The effort that is left -/

/-- What a request and a frame may still cost. -/
structure Effort (R F : Type) where
  request : R → ℕ
  frame : F → ℕ

namespace Effort

variable (c : Effort R F)

def control : Control R V W → ℕ
  | .request r => c.request r
  | _ => 0

def outcome : Outcome R V F W → ℕ
  | .call r f => c.request r + c.frame f
  | _ => 0

def thread (t : Thread L R V F W) : ℕ :=
  t.busy.elim 0 fun a => c.control a.control + (a.frames.map c.frame).sum

def total (g : Config S L R V F W) : ℕ := (g.threads.map c.thread).sum

variable {c}

omit [DecidableEq H] in
theorem thread_land (l : L) (q : R) (fs : List F) (o : Outcome R V F W) :
    c.thread (⟨l, some (.land q fs o)⟩ : Thread L R V F W) = c.outcome o + (fs.map c.frame).sum := by
  cases o with
  | ret v => rfl
  | wait w => rfl
  | call r f => exact (Nat.add_assoc _ _ _).symm

/-- A step that leaves less to do for its own thread leaves less to do. -/
theorem total_lt (hi : g.threads[i]? = some t) (hset : g'.threads = g.threads.set i t')
    (hlt : c.thread t' < c.thread t) : c.total g' < c.total g := by
  have hsum := sum_set c.thread t' hi
  rw [← hset] at hsum
  unfold total
  omega

theorem total_lt_exec {r : R} (hs : Step M A g (i, .ran r) g')
    (hx : ∀ s' o, M.exec r g.shared = some (s', o) → c.outcome o < c.request r) :
    c.total g' < c.total g := by
  obtain ⟨t, t', hi, ht, hset⟩ := step_elim hs
  refine total_lt hi hset ?_
  generalize g'.shared = s' at ht
  cases ht with
  | @exec l q r fs s' o h =>
    rw [thread_land]
    exact Nat.add_lt_add_right (hx _ _ h) _

theorem total_lt_resume {f : F} {v : V} (hs : Step M A g (i, .resumed f v) g')
    (hx : ∀ s' o, M.resume f v g.shared = some (s', o) → c.outcome o < c.frame f) :
    c.total g' < c.total g := by
  obtain ⟨t, t', hi, ht, hset⟩ := step_elim hs
  refine total_lt hi hset ?_
  generalize g'.shared = s' at ht
  cases ht with
  | @resume l q v f fs s' o h =>
    rw [thread_land]
    have := hx _ _ h
    simp only [thread, Option.elim_some, control, List.map_cons, List.sum_cons]
    omega

end Effort

/-! ## Runs in which every call is served at once -/

/-- A step for which a thread is free, if it needs one. -/
def hasRoom (M : Machine S R V F W) (Z : Hosting R H) (g : Config S L R V F W) :
    ℕ × Label E R V F W → Bool
  | (_, .ran r) => (Z.host r).all fun h => occupied M Z h g < Z.size
  | _ => true

def served (Z : Hosting R H) : ℕ × Label E R V F W → List (PoolLabel E R V F W H)
  | (i, .ran r) => (Z.host r).elim [.inner i (.ran r)] fun h => [.arrive i h, .dispatch i h]
  | (i, lab) => [.inner i lab]

theorem run_served {tr : List (ℕ × Label E R V F W)}
    (hr : Run (fun a x b => Step M A a x b ∧ hasRoom M Z a x = true) g tr g') :
    Run (PoolStep M A Z) ⟨g, fun _ => []⟩ (tr.flatMap (served Z)) ⟨g', fun _ => []⟩ := by
  induction hr with
  | nil => exact .nil
  | @snoc tr b c x run last ih =>
    obtain ⟨i, lab⟩ := x
    obtain ⟨hs, hroom⟩ := last
    rw [List.flatMap_append, List.flatMap_singleton]
    refine ih.append ?_
    have hinner : (∀ r, lab = .ran r → Z.host r = none) →
        Run (PoolStep M A Z) ⟨b, fun _ => []⟩ [.inner i lab] ⟨c, fun _ => []⟩ :=
      fun hno => .single (.inner hs hno)
    cases lab with
    | ran r =>
      cases hh : Z.host r with
      | none =>
        simp only [served, hh, Option.elim_none]
        refine hinner ?_
        rintro r' ⟨⟩
        exact hh
      | some h =>
        simp only [served, hh, Option.elim_some]
        have hfree : occupied M Z h b < Z.size := by simpa [hasRoom, hh] using hroom
        obtain ⟨t, t', hi, ht, -⟩ := step_elim hs
        have hc : Calling Z h t := by
          cases ht with
          | exec => exact ⟨_, rfl, r, rfl, hh⟩
        have h₁ : PoolStep M A Z ⟨b, fun _ => []⟩ (.arrive i h)
            ⟨b, Function.update (fun _ => []) h [i]⟩ := .arrive hi hc (List.not_mem_nil)
        have hq : Function.update (fun _ : H => ([] : List ℕ)) h [i] h = [i] :=
          Function.update_self h _ _
        have h₂ : PoolStep M A Z ⟨b, Function.update (fun _ => []) h [i]⟩ (.dispatch i h)
            ⟨c, Function.update (Function.update (fun _ => []) h [i]) h []⟩ :=
          .dispatch hq hfree hh hs
        rw [Function.update_idem, Function.update_eq_self h] at h₂
        exact (Run.single h₁).snoc h₂
    | _ => exact hinner (by simp)

end Yfs.CallPools
