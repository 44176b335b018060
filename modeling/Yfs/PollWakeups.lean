import Yfs.PollManager

/-!
# Nobody is left asleep in `block_remove_fd`

`unwatch_fd` writes a byte into the pipe when it stops watching a descriptor for good, so the poll
thread does not stay in `select` while a thread waits for it to come to the top of its loop.
-/

namespace Yfs.PollWakeups
open LabelledRuns Monitors SelectAio PollManager

variable {κ : Type} {p n i fd : ℕ}

/-! ## Descriptors -/

/-- The pipe is watched for reading only, and the other descriptors are indices of
`callbacks_`. -/
structure SnapOk (p : ℕ) (s : Snapshot) : Prop where
  pipe : p ∈ s.trfds
  high : p ≤ s.high
  reads : ∀ fd ∈ s.trfds, fd ≠ p → fd < maxPollFds
  writes : ∀ fd ∈ s.twfds, fd ≠ p ∧ fd < maxPollFds

structure AioOk (p : ℕ) (a : Aio) : Prop where
  pipefd : a.pipefd = p
  high : High a
  snap : SnapOk p (snapshot a)

theorem aioOk_newAio (p : ℕ) : AioOk p (newAio p) := by
  refine ⟨rfl, high_newAio p, Finset.mem_singleton_self p, Nat.le_refl p, fun fd hfd hne => ?_, nofun⟩
  exact absurd (Finset.mem_singleton.mp hfd) hne

theorem AioOk.of_fds {a a' : Aio} (h : AioOk p a) (hpipe : a'.pipefd = a.pipefd) (hhigh : High a')
    (hread : ∀ fd ∈ a'.rfds, fd ∈ a.rfds ∨ fd < maxPollFds)
    (hwrite : ∀ fd ∈ a'.wfds, fd ∈ a.wfds ∨ fd ≠ p ∧ fd < maxPollFds) : AioOk p a' := by
  have hp : a'.pipefd = p := hpipe.trans h.pipefd
  refine ⟨hp, hhigh, hp ▸ hhigh.pipe, ?_, fun fd hfd hne => ?_, fun fd hfd => ?_⟩
  · exact hhigh.top .read p (hp ▸ hhigh.pipe)
  · exact (hread fd hfd).elim (fun hm => h.snap.reads fd hm hne) id
  · exact (hwrite fd hfd).elim (h.snap.writes fd) id

theorem AioOk.watch {a : Aio} (h : AioOk p a) {flag : PollFlag} (hne : fd ≠ p)
    (hfd : fd < maxPollFds) : AioOk p (watchFd a fd flag) := by
  refine h.of_fds rfl (h.high.watch fd flag) (fun x hx => ?_) fun x hx => ?_
  · have hx : x ∈ (watchFd a fd flag).fds .read := hx
    rw [fds_watch] at hx
    split_ifs at hx
    · rcases Finset.mem_insert.mp hx with rfl | hx
      · exact .inr hfd
      · exact .inl hx
    · exact .inl hx
  · have hx : x ∈ (watchFd a fd flag).fds .write := hx
    rw [fds_watch] at hx
    split_ifs at hx
    · rcases Finset.mem_insert.mp hx with rfl | hx
      · exact .inr ⟨hne, hfd⟩
      · exact .inl hx
    · exact .inl hx

theorem AioOk.unwatch {a : Aio} (h : AioOk p a) (flag : PollFlag) (hne : fd ≠ p) :
    AioOk p (unwatchFd a fd flag).1 := by
  have hsub : ∀ d, ∀ x ∈ (unwatchFd a fd flag).1.fds d, x ∈ a.fds d := by
    intro d x hx
    rw [fds_unwatch] at hx
    split_ifs at hx
    · exact Finset.mem_of_mem_erase hx
    · exact hx
  exact h.of_fds rfl (h.high.unwatch flag (h.pipefd.symm ▸ hne)) (fun x hx => .inl (hsub .read x hx))
    fun x hx => .inl (hsub .write x hx)

theorem bytes_unwatch (a : Aio) (fd : ℕ) (flag : PollFlag) :
    a.bytes ≤ (unwatchFd a fd flag).1.bytes := by
  simp only [unwatchFd]
  split_ifs <;> omega

/-- With a byte in the pipe `select` returns, and it may report nothing else. -/
theorem finish_pipe {a : Aio} {s : Snapshot} (ha : a.pipefd = p) (hs : SnapOk p s)
    (hb : 0 < a.bytes) : Returns a s {p} ∅ ∧
      finish a s {p} ∅ = some ({ a with bytes := a.bytes - 1 }, [], []) := by
  have hmem : p ∈ select s.high s.trfds {p} :=
    Finset.mem_filter.mpr ⟨hs.pipe, Finset.mem_singleton_self p, Nat.lt_succ_of_le hs.high⟩
  refine ⟨⟨?_, p, Finset.mem_union_left _ hmem⟩, ?_⟩
  · rw [ha]
    exact ⟨fun _ => hb, fun _ => Finset.mem_singleton_self p⟩
  · simp only [finish, ha, if_pos hmem, if_neg (Nat.ne_of_gt hb), collect_eq, List.nil_append]
    congr 3
    · rw [List.filter_eq_nil_iff]
      intro x _
      simpa [select] using fun _ hx _ => hx
    · rw [List.filter_eq_nil_iff]
      intro x _
      simp [select]

/-! ## What holds in every run -/

def UserOk (p : ℕ) : User κ → Prop
  | .waiting s => SnapOk p s
  | .calls rs ws => ∀ fd, fd ∈ rs ∨ fd ∈ ws → fd ≠ p ∧ fd < maxPollFds
  | .calling _ fd' rs ws => ∀ fd, fd = fd' ∨ fd ∈ rs ∨ fd ∈ ws → fd ≠ p ∧ fd < maxPollFds
  | _ => True

/-- The poll thread is between the top of its loop and the return of `select`. -/
def resting : User κ → Bool
  | .armed | .waiting _ => true
  | _ => false

structure Sound (p n : ℕ) (g : State κ) : Prop where
  shape : Shape p n g.views
  aio : AioOk p g.shared.aio
  carried : ∀ v ∈ g.views, UserOk p v.1
  pending : 0 < sleepers .changedone g.threads → g.shared.pendingChange = true
  bytes : ∀ u o, g.views[0]? = some (u, o) → resting u = true →
    g.shared.pendingChange = true → 0 < g.shared.aio.bytes

variable {g g' : State κ} {l : Label κ} {u u' : User κ} {o : Option (Op κ)} {m m' : Mgr κ}
  {op : Op κ} {ns : List (Notice Cond)} {e : Ended (Op κ) (Result κ) Cond}

theorem aioOk_effect (he : Effect m op m' ns e) (h : AioOk p m.aio) (hfits : Fits p (u, some op))
    (hu : UserOk p u) : AioOk p m'.aio := by
  cases he with
  | add fd flag ch hfd =>
    rcases hfits with hb | ⟨-, fd', hop⟩
    · cases hb with
      | add _ _ _ hne => exact h.watch hne hfd
    · cases hop
  | del fd flag =>
    rcases hfits with hb | ⟨-, fd', hop⟩
    · cases hb with
      | del _ _ hne => exact h.unwatch flag hne
      | inner ch _ rs ws => exact h.unwatch flag (hu fd (.inl rfl)).1
    · cases hop
  | remove fd =>
    rcases hfits with hb | ⟨-, fd', hop⟩
    · cases hb with
      | remove _ hne => exact h.unwatch .rdwr hne
    · cases hop
  | ready s r w aio rs ws hf =>
    obtain ⟨-, -, b, rfl⟩ := finish_found hf
    exact ⟨h.pipefd, ⟨h.high.pipe, h.high.top, h.high.attained⟩, h.snap⟩
  | _ => exact h

theorem userOk_back {r : Result κ} (he : Effect m op m' ns (.ret r)) (h : AioOk p m.aio)
    (hfits : Fits p (u, some op)) (hu : UserOk p u) : UserOk p (back u r) := by
  cases he with
  | copy =>
    rcases hfits with hb | ⟨-, fd', hop⟩
    · cases hb
      exact h.snap
    · cases hop
  | interrupted s =>
    rcases hfits with hb | ⟨-, fd', hop⟩
    · cases hb
      exact fun fd hc => (hc.elim List.not_mem_nil List.not_mem_nil).elim
    · cases hop
  | ready s r w aio rs ws hf =>
    obtain ⟨h1, h2, -⟩ := finish_found hf
    rcases hfits with hb | ⟨-, fd', hop⟩
    · cases hb
      rintro fd (hfd | hfd)
      · have hne := h.pipefd ▸ (h1 fd hfd).2
        exact ⟨hne, hu.reads fd (h1 fd hfd).1 hne⟩
      · exact hu.writes fd (h2 fd hfd)
    · cases hop
  | look fd' d =>
    rcases hfits with hb | ⟨-, fd', hop⟩
    · cases hb with
      | read _ rs ws =>
        have hrest : ∀ fd, fd = fd' ∨ fd ∈ rs ∨ fd ∈ ws → fd ≠ p ∧ fd < maxPollFds := by
          rintro fd (rfl | hc | hc)
          · exact hu fd (.inl List.mem_cons_self)
          · exact hu fd (.inl (List.mem_cons_of_mem _ hc))
          · exact hu fd (.inr hc)
        cases hcb : m.callbacks fd' with
        | none => exact fun fd hc => hrest fd (.inr hc)
        | some ch => exact hrest
      | write _ ws =>
        have hrest : ∀ fd, fd = fd' ∨ fd ∈ [] ∨ fd ∈ ws → fd ≠ p ∧ fd < maxPollFds := by
          rintro fd (rfl | hc | hc)
          · exact hu fd (.inr List.mem_cons_self)
          · exact absurd hc List.not_mem_nil
          · exact hu fd (.inr (List.mem_cons_of_mem _ hc))
        cases hcb : m.callbacks fd' with
        | none => exact fun fd hc => hrest fd (.inr hc)
        | some ch => exact hrest
    · cases hop
  | passPending | passIdle =>
    rcases hfits with hb | ⟨-, fd', hop⟩
    · cases hb
      trivial
    · cases hop
  | add | del | has | removed =>
    rcases hfits with hb | ⟨rfl, -⟩
    · cases hb <;> exact hu
    · trivial

/-- A section of another thread than the poll thread takes no byte from the pipe. -/
theorem bytes_effect (he : Effect m op m' ns e) (hop : ∀ s, op ≠ .selected s)
    (h : m.pendingChange = true → 0 < m.aio.bytes) (hp : m'.pendingChange = true) :
    0 < m'.aio.bytes := by
  cases he with
  | add => exact Nat.succ_pos _
  | del fd flag => exact Nat.lt_of_lt_of_le (h hp) (bytes_unwatch _ _ _)
  | remove => exact Nat.succ_pos _
  | passPending => cases hp
  | interrupted s => exact absurd rfl (hop s)
  | ready s => exact absurd rfl (hop s)
  | _ => exact h hp

/-- The poll thread comes to rest at the top of its loop, where it clears the flag, and stays at rest
when it copies the sets. -/
theorem resting_back {r : Result κ} (he : Effect m op m' ns (.ret r)) (hfits : Fits p (u, some op))
    (hrest : resting (back u r) = true) (hp : m'.pendingChange = true) :
    resting u = true ∧ ∀ s, op ≠ .selected s := by
  rcases hfits with hb | ⟨rfl, -⟩
  · cases hb with
    | pass =>
      cases he with
      | passPending => cases hp
      | passIdle hidle => exact absurd hp (hidle ▸ nofun)
    | copy => exact ⟨rfl, nofun⟩
    | select s => cases he <;> cases hrest
    | read fd rs ws =>
      cases he
      cases hcb : m.callbacks fd <;> simp [hcb, back, resting] at hrest
    | write fd ws =>
      cases he
      cases hcb : m.callbacks fd <;> simp [hcb, back, resting] at hrest
    | _ => cases hrest
  · cases hrest

theorem pending_run {t : Thread (User κ) (Op κ) Cond}
    {ts : List (Thread (User κ) (Op κ) Cond)} (he : Effect g.shared op m' ns e)
    (h : 0 < sleepers .changedone g.threads → g.shared.pendingChange = true)
    (hi : g.threads[i]? = some t) (ht : t.next = some (u, op)) (hn : NotifyAll ns g.threads ts)
    (hpos : 0 < sleepers .changedone (ts.set i (landed (users p) u e))) :
    m'.pendingChange = true := by
  obtain ⟨hcount, -⟩ := run_counts (A := users p) (e := e) hi ht hn .changedone
  rw [hcount] at hpos
  cases he with
  | remove => rfl
  | passPending => exact absurd List.mem_cons_self (hn.signals _ hpos).2
  | _ =>
    cases hn
    exact h hpos

section Runs
variable [DecidableEq κ]

theorem Sound.run {t : Thread (User κ) (Op κ) Cond} {x : Readiness}
    {ts : List (Thread (User κ) (Op κ) Cond)} (h : Sound p n g) (hi : g.threads[i]? = some t)
    (ht : t.next = some (u, op)) (hx : (pollMgr κ).exec x op g.shared = some (m', ns, e))
    (hn : NotifyAll ns g.threads ts) :
    Sound p n (⟨m', ts.set i (landed (users p) u e)⟩ : State κ) := by
  have hs : Step (pollMgr κ) (users p) g (i, .ran x op e) _ := .run hi ht hx hn
  have he := exec_effect hx
  have hv : g.views[i]? = some (u, some op) := view_of_next ht ▸ views_getElem? hi
  have hfits := h.shape.fits _ (List.mem_of_getElem? hv)
  have hu : UserOk p u := h.carried _ (List.mem_of_getElem? hv)
  have hviews : (⟨m', ts.set i (landed (users p) u e)⟩ : State κ).views =
      g.views.set i (landedView (users p) u e) := by
    rw [views_set, hn.views]
    cases e <;> rfl
  refine ⟨h.shape.step hs, aioOk_effect he h.aio hfits hu, ?_, pending_run he h.pending hi ht hn, ?_⟩
  · rw [hviews]
    refine forall_mem_set h.carried ?_
    cases e with
    | ret r => exact userOk_back he h.aio hfits hu
    | wait => exact hu
    | yield => exact hu
  · intro w o' hw hrest hp
    rw [hviews] at hw
    by_cases h0 : i = 0
    · subst h0
      rw [List.getElem?_set_self (List.getElem?_eq_some_iff.mp hv).1] at hw
      cases e with
      | ret r =>
        cases hw
        obtain ⟨hrest', hop⟩ := resting_back he hfits hrest hp
        exact bytes_effect he hop (h.bytes u _ hv hrest') hp
      | wait c o₁ =>
        cases hw
        cases he
        exact Nat.succ_pos _
      | yield => cases he
    · rw [List.getElem?_set_ne h0] at hw
      refine bytes_effect he ?_ (h.bytes w o' hw hrest) hp
      rintro s rfl
      rcases hfits with hb | ⟨-, fd', hop⟩
      · cases hb
        exact h0 (h.shape.poll_zero hv nofun)
      · cases hop

omit [DecidableEq κ] in
/-- What a step outside of the mutex keeps. -/
theorem Sound.set {t : Thread (User κ) (Op κ) Cond} (h : Sound p n g)
    (hi : g.threads[i]? = some t) {t' : Thread (User κ) (Op κ) Cond}
    (hshape : Shape p n (⟨g.shared, g.threads.set i t'⟩ : State κ).views)
    (hu : UserOk p t'.view.1) (hsleep : t'.sleepsOn .changedone = false)
    (hrest : resting t'.view.1 = true → resting t.view.1 = true) :
    Sound p n (⟨g.shared, g.threads.set i t'⟩ : State κ) := by
  have hv := views_getElem? hi
  refine ⟨hshape, h.aio, ?_, fun hpos => ?_, fun w o' hw hr hp => ?_⟩
  · rw [views_set]
    exact forall_mem_set h.carried hu
  · refine h.pending (Nat.lt_of_lt_of_le hpos (sleepers_set hi ?_))
    rw [hsleep]
    exact Nat.zero_le _
  · rw [views_set, ← Config.views] at hw
    by_cases h0 : i = 0
    · subst h0
      rw [List.getElem?_set_self (List.getElem?_eq_some_iff.mp hv).1] at hw
      have hw : t'.view = (w, o') := Option.some.inj hw
      rw [hw] at hrest
      exact h.bytes _ _ hv (hrest hr) hp
    · rw [List.getElem?_set_ne h0] at hw
      exact h.bytes w o' hw hr hp

theorem Sound.step (h : Sound p n g) (hs : Step (pollMgr κ) (users p) g l g') : Sound p n g' := by
  have hshape := h.shape.step hs
  cases hs with
  | begin hi =>
    have hu := h.carried _ (List.mem_of_getElem? (views_getElem? hi))
    exact h.set hi hshape hu rfl id
  | run hi ht hx hn => exact h.run hi ht hx hn
  | move hi hm =>
    have hu := h.carried _ (List.mem_of_getElem? (views_getElem? hi))
    cases hm with
    | again => exact h.set hi hshape trivial rfl nofun
    | returns ch fd rs ws => exact h.set hi hshape (fun x hx => hu x (.inr hx)) rfl nofun
  | stir hi =>
    have hu := h.carried _ (List.mem_of_getElem? (views_getElem? hi))
    exact h.set hi hshape hu rfl id

omit [DecidableEq κ] in
theorem sound_start : Sound p n (start p n : State κ) := by
  have hv : (start p n : State κ).views = (.top, none) :: List.replicate n (.client, none) := by
    simp [start, Config.views, Thread.view]
  refine ⟨shape_start, aioOk_newAio p, fun v hm => ?_, fun hpos => ?_, fun u o hu hrest => ?_⟩
  · rw [hv, List.mem_cons, List.mem_replicate] at hm
    rcases hm with rfl | ⟨-, rfl⟩ <;> trivial
  · obtain ⟨t, ht, hs⟩ := List.countP_pos_iff.mp hpos
    rcases List.mem_cons.mp ht with rfl | ht
    · cases hs
    · rw [List.eq_of_mem_replicate ht] at hs
      cases hs
  · rw [hv] at hu
    cases hu
    cases hrest

theorem Sound.run_of_start {tr : List (Label κ)}
    (hr : Run (Step (pollMgr κ) (users p)) (start p n) tr g) : Sound p n g :=
  hr.invariant sound_start fun _ _ _ h hs => h.step hs

end Runs

/-! ## The way of the poll thread to the top of its loop -/

/-- The steps that are left, counted for each place, not counting calls of callbacks. -/
def rank : User κ → ℕ
  | .client | .top => 0
  | .calls rs ws => 2 * (rs.length + ws.length) + 1
  | .calling _ _ rs ws => 2 * (rs.length + ws.length) + 2
  | .waiting _ => 4 * maxPollFds + 2
  | .armed => 4 * maxPollFds + 3

def isDel : Op κ → Bool
  | .delCallback _ _ => true
  | _ => false

def distance : Thread (User κ) (Op κ) Cond → ℕ
  | .out u => 2 * rank u + 1
  | .ready u o | .asleep u _ o | .woken u _ o => 2 * rank u + 2 * (isDel o).toNat

/-- The poll thread makes a step. -/
def byPoll (l : Label κ) : Bool := l.1 = 0

/-- The poll thread begins a call from within a callback. -/
def innerCall : Label κ → Bool
  | (i, .began o) => i = 0 ∧ isDel o
  | _ => false

theorem length_le_of_nodup {rs : List ℕ} {k : ℕ} (hn : rs.Nodup) (h : ∀ fd ∈ rs, fd < k) :
    rs.length ≤ k := by
  have hsub : rs ⊆ List.range k := fun fd hfd => List.mem_range.mpr (h fd hfd)
  simpa using (List.subperm_of_subset hn hsub).length_le

/-- `wait_ready` reports at most as many descriptors as there are. -/
theorem finish_few {a a' : Aio} {s : Snapshot} {r w : Finset ℕ} {rs ws : List ℕ}
    (ha : a.pipefd = p) (hs : SnapOk p s) (h : finish a s r w = some (a', rs, ws)) :
    rs.length ≤ maxPollFds ∧ ws.length ≤ maxPollFds := by
  obtain ⟨h1, h2, -⟩ := finish_found h
  have hnodup : rs.Nodup ∧ ws.Nodup := by
    simp only [finish, collect_eq, List.nil_append] at h
    split_ifs at h
    all_goals
      cases h
      exact ⟨List.nodup_range.filter _, List.nodup_range.filter _⟩
  constructor
  · exact length_le_of_nodup hnodup.1 fun fd hfd => hs.reads fd (h1 fd hfd).1 (ha ▸ (h1 fd hfd).2)
  · exact length_le_of_nodup hnodup.2 fun fd hfd => (hs.writes fd (h2 fd hfd)).2

/-- A section of the poll thread other than the one at the top of its loop brings it nearer. -/
theorem rank_back {r : Result κ} (he : Effect m op m' ns (.ret r)) (h : AioOk p m.aio)
    (hb : Begins p u op) (hu : UserOk p u) (hpoll : u.isPoll = true) (hop : op ≠ .pass) :
    rank (back u r) + 1 ≤ rank u + (isDel op).toNat := by
  cases hb with
  | pass => exact absurd rfl hop
  | copy =>
    cases he
    exact Nat.le_refl _
  | select s =>
    cases he with
    | interrupted =>
      simp [back, rank, isDel]
    | ready _ r w aio rs ws hf =>
      have := finish_few h.pipefd hu hf
      simp only [back, rank, isDel, Bool.toNat_false]
      omega
  | read fd rs ws =>
    cases he
    cases hcb : m.callbacks fd with
    | none =>
      simp only [back, rank, List.length_cons, isDel, Bool.toNat_false]
      omega
    | some ch =>
      simp only [back, rank, List.length_cons, isDel, Bool.toNat_false]
      omega
  | write fd ws =>
    cases he
    cases hcb : m.callbacks fd with
    | none =>
      simp only [back, rank, List.length_cons, isDel, Bool.toNat_false]
      omega
    | some ch =>
      simp only [back, rank, List.length_cons, List.length_nil, isDel, Bool.toNat_false]
      omega
  | inner ch fd rs ws flag =>
    cases he
    exact Nat.le_refl _
  | _ => cases hpoll

theorem zero_exists (h : Shape p n g.views) : ∃ t, g.threads[0]? = some t := by
  have hp := congrArg List.length h.polls
  rw [List.length_map, Config.views, List.length_map, List.length_cons] at hp
  exact ⟨_, List.getElem?_eq_getElem (hp ▸ Nat.succ_pos _)⟩

theorem zero_isPoll (h : Shape p n g.views) {t : Thread (User κ) (Op κ) Cond}
    (h0 : g.threads[0]? = some t) : t.view.1.isPoll = true := by
  have hp : (true :: List.replicate n false)[0]? = some t.view.1.isPoll := by
    rw [← h.polls, List.getElem?_map, views_getElem? h0, Option.map_some]
  exact (Option.some.inj hp).symm

section Distance
variable [DecidableEq κ]

theorem waits_changedone {c : Cond} (h : Waits (pollMgr κ) c op) : ∃ fd, op = .removed fd := by
  obtain ⟨x, o, m, m', ns, hx⟩ := h
  cases exec_effect hx
  exact ⟨_, rfl⟩

/-- The poll thread never sleeps on a condition. -/
theorem zero_awake (h : Shape p n g.views) (ht : ∀ t ∈ g.threads, t.Tied (pollMgr κ))
    {t : Thread (User κ) (Op κ) Cond} (h0 : g.threads[0]? = some t) : t.isAsleep = false := by
  cases t with
  | asleep u c o =>
    obtain ⟨fd, rfl⟩ := waits_changedone (ht _ (List.mem_of_getElem? h0))
    have hpoll := zero_isPoll h h0
    rcases h.fits _ (List.mem_of_getElem? (views_getElem? h0)) with hb | ⟨rfl, -⟩
    · cases hb
    · cases hpoll
  | _ => rfl

/-- The section at the top of the loop leaves nobody asleep. -/
theorem sleepers_of_pass (h : Sound p n g) {x : Readiness} {t : Thread (User κ) (Op κ) Cond}
    {ts : List (Thread (User κ) (Op κ) Cond)} (hi : g.threads[i]? = some t)
    (ht : t.next = some (u, .pass)) (hx : (pollMgr κ).exec x .pass g.shared = some (m', ns, e))
    (hn : NotifyAll ns g.threads ts) :
    sleepers .changedone (ts.set i (landed (users p) u e)) = 0 := by
  obtain ⟨hcount, -⟩ := run_counts (A := users p) (e := e) hi ht hn .changedone
  cases exec_effect hx with
  | passPending =>
    rw [hcount]
    cases hn with
    | cons first rest =>
      cases rest
      exact first.2
  | passIdle hidle =>
    rw [hcount]
    cases hn
    apply Nat.eq_zero_of_not_pos
    intro hpos
    have := h.pending hpos
    rw [hidle] at this
    cases this

/-- While a thread sleeps, each step of the poll thread brings it nearer to the top of its loop. -/
theorem distance_step {act : Act Readiness (User κ) (Op κ) (Result κ) Cond}
    {t t' : Thread (User κ) (Op κ) Cond} (h : Sound p n g)
    (ht : ∀ t ∈ g.threads, t.Tied (pollMgr κ)) (hs : Step (pollMgr κ) (users p) g (0, act) g')
    (h0 : g.threads[0]? = some t) (h0' : g'.threads[0]? = some t')
    (hsleep : 0 < sleepers .changedone g'.threads) :
    distance t' + 1 ≤ distance t + 2 * (innerCall (0, act)).toNat := by
  have hset : ∀ {ts : List (Thread (User κ) (Op κ) Cond)} {t₁ t₂ : Thread (User κ) (Op κ) Cond},
      ts[0]? = some t₁ → (ts.set 0 t₂)[0]? = some t' → t₂ = t' := by
    intro ts t₁ t₂ h1 h2
    rw [List.getElem?_set_self (List.getElem?_eq_some_iff.mp h1).1] at h2
    exact Option.some.inj h2
  have hpoll := zero_isPoll h.shape h0
  have hview := views_getElem? h0
  have hmem := List.mem_of_getElem? hview
  cases hs with
  | @begin _ u o hi hb =>
    rw [h0] at hi
    cases hi
    obtain rfl := hset h0 h0'
    cases o <;> exact Nat.le_refl _
  | move hi hm =>
    rw [h0] at hi
    cases hi
    obtain rfl := hset h0 h0'
    cases hm with
    | again => exact Nat.le_succ 2
    | returns ch fd rs ws =>
      simp only [distance, rank]
      omega
  | stir hi =>
    have := zero_awake h.shape ht hi
    cases this
  | @run _ t₀ x u o m' ns e ts hi htn hx hn =>
    rw [h0] at hi
    cases hi
    obtain rfl := hset (hn.getElem? h0 (isAsleep_of_next htn)) h0'
    rw [view_of_next htn] at hpoll hmem
    have hb : Begins p u o := by
      rcases h.shape.fits _ hmem with hb | ⟨rfl, -⟩
      · exact hb
      · cases hpoll
    have hop : o ≠ .pass := by
      rintro rfl
      have hnone := sleepers_of_pass h h0 htn hx hn
      exact Nat.ne_of_gt hsleep hnone
    have hdist : distance t = 2 * rank u + 2 * (isDel o).toNat := by
      cases t with
      | out => cases htn
      | asleep => cases htn
      | _ =>
        cases htn
        rfl
    have he := exec_effect hx
    cases e with
    | ret r =>
      have := rank_back he h.aio hb (h.carried _ hmem) hpoll hop
      have hland : distance (landed (users p) u (.ret r)) = 2 * rank (back u r) + 1 := rfl
      rw [hdist, hland]
      omega
    | wait c o' =>
      cases he
      cases hb
      cases hpoll
    | yield o' => cases he

/-- The steps of the poll thread while a thread sleeps in `block_remove_fd` are bounded by where it
was and by what its callbacks do. -/
theorem distance_run {tr : List (Label κ)} (h : Sound p n g)
    (ht : ∀ t ∈ g.threads, t.Tied (pollMgr κ))
    (hr : Run (Step (pollMgr κ) (users p)) g tr g') (hne : ∀ l ∈ tr, l.1 ≠ i)
    (hi : g'.threads[i]? = some (.asleep u .changedone op)) {t t' : Thread (User κ) (Op κ) Cond}
    (h0 : g.threads[0]? = some t) (h0' : g'.threads[0]? = some t') :
    distance t' + tr.countP byPoll ≤ distance t + 2 * tr.countP innerCall := by
  induction hr generalizing t' with
  | nil =>
    rw [h0] at h0'
    cases h0'
    exact Nat.le_refl _
  | @snoc tr b c l run last ih =>
    rw [List.forall_mem_append, List.forall_mem_singleton] at hne
    have hb : Sound p n b := run.invariant h fun _ _ _ h hs => h.step hs
    have hbt := tied_run ht run
    obtain ⟨t₁, h1⟩ := zero_exists hb.shape
    have ih := ih hne.1 (last.asleep hi hne.2) h1
    have hstep : distance t' + (byPoll l).toNat ≤ distance t₁ + 2 * (innerCall l).toNat := by
      obtain ⟨j, act⟩ := l
      by_cases hj : j = 0
      · subst hj
        exact distance_step hb hbt last h1 h0' (sleepers_pos hi)
      · have := last.awake h1 (zero_awake hb.shape hbt h1) hj
        rw [h0'] at this
        cases this
        simp [byPoll, hj]
    rw [List.countP_append, List.countP_append, List.countP_singleton, List.countP_singleton]
    cases hp : byPoll l <;> cases hq : innerCall l <;> simp [hp, hq] at hstep ⊢ <;> omega

/-- `select` is interrupted by a signal to the process. -/
def Interrupted (l : Label κ) : Prop := ∃ s e, l.2 = .ran none (.selected s) e

/-- The sections of the poll thread do not fail, and a byte in the pipe ends `select`. -/
theorem section_returns (hb : Begins p u op) (hpoll : u.isPoll = true) (hu : UserOk p u)
    (h : AioOk p m.aio) (hbytes : resting u = true → 0 < m.aio.bytes) :
    ∃ m' ns e, (pollMgr κ).exec (some ({p}, ∅)) op m = some (m', ns, e) := by
  change ∃ m' ns e, exec (some ({p}, ∅)) m op = some (m', ns, e)
  cases hb with
  | pass =>
    simp only [exec]
    split_ifs <;> exact ⟨_, _, _, rfl⟩
  | copy => exact ⟨_, _, _, rfl⟩
  | select s =>
    obtain ⟨h1, h2⟩ := finish_pipe h.pipefd hu (hbytes rfl)
    simp only [exec, if_pos h1, h2]
    exact ⟨_, _, _, rfl⟩
  | read fd rs ws =>
    simp only [exec, if_pos (hu fd (.inl List.mem_cons_self)).2]
    exact ⟨_, _, _, rfl⟩
  | write fd ws =>
    simp only [exec, if_pos (hu fd (.inr List.mem_cons_self)).2]
    exact ⟨_, _, _, rfl⟩
  | inner ch fd rs ws flag =>
    simp only [exec, if_pos (hu fd (.inl rfl)).2]
    exact ⟨_, _, _, rfl⟩
  | _ => cases hpoll

/-- Outside of the mutex the poll thread goes on, to its next section or to its next callback. -/
theorem outside_goes_on (h0 : g.threads[0]? = some (.out u)) (hpoll : u.isPoll = true) :
    ∃ l g', Step (pollMgr κ) (users p) g l g' ∧ byPoll l ∧ ¬innerCall l ∧ ¬Interrupted l := by
  have hbegin : ∀ op, Begins p u op → isDel op = false →
      ∃ l g', Step (pollMgr κ) (users p) g l g' ∧ byPoll l ∧ ¬innerCall l ∧ ¬Interrupted l :=
    fun op hb hdel => ⟨_, _, .begin h0 hb, rfl, by simp [innerCall, hdel], nofun⟩
  have hmove : ∀ u', Moves u u' →
      ∃ l g', Step (pollMgr κ) (users p) g l g' ∧ byPoll l ∧ ¬innerCall l ∧ ¬Interrupted l :=
    fun u' hm => ⟨_, _, .move h0 hm, rfl, nofun, nofun⟩
  cases u with
  | client => cases hpoll
  | top => exact hbegin _ .pass rfl
  | armed => exact hbegin _ .copy rfl
  | waiting s => exact hbegin _ (.select s) rfl
  | calls rs ws =>
    cases rs with
    | cons fd rs => exact hbegin _ (.read fd rs ws) rfl
    | nil =>
      cases ws with
      | cons fd ws => exact hbegin _ (.write fd ws) rfl
      | nil => exact hmove _ .again
  | calling ch fd rs ws => exact hmove _ (.returns ch fd rs ws)

/-- While a thread sleeps, the poll thread can make a step, which needs no descriptor to become ready
and no signal. -/
theorem poll_can_step (h : Sound p n g) (ht : ∀ t ∈ g.threads, t.Tied (pollMgr κ))
    (hp : g.shared.pendingChange = true) {t : Thread (User κ) (Op κ) Cond}
    (h0 : g.threads[0]? = some t) :
    ∃ l g', Step (pollMgr κ) (users p) g l g' ∧ byPoll l ∧ ¬innerCall l ∧ ¬Interrupted l := by
  have hpoll := zero_isPoll h.shape h0
  have hview := views_getElem? h0
  have hinside : ∀ u op, t.next = some (u, op) →
      ∃ l g', Step (pollMgr κ) (users p) g l g' ∧ byPoll l ∧ ¬innerCall l ∧ ¬Interrupted l := by
    intro u op htn
    rw [view_of_next htn] at hview hpoll
    have hmem := List.mem_of_getElem? hview
    have hb : Begins p u op := by
      rcases h.shape.fits _ hmem with hb | ⟨rfl, -⟩
      · exact hb
      · cases hpoll
    obtain ⟨m', ns, e, hx⟩ := section_returns hb hpoll (h.carried _ hmem) h.aio
      fun hr => h.bytes _ _ hview hr hp
    exact ⟨_, _, .run h0 htn hx (notifyAll_rouseAll ns _), rfl, nofun, nofun⟩
  have hawake := zero_awake h.shape ht h0
  cases t with
  | out u => exact outside_goes_on h0 hpoll
  | ready u op => exact hinside u op rfl
  | woken u c op => exact hinside u op rfl
  | asleep => cases hawake

/-- A thread that sleeps in `block_remove_fd` is woken: the poll thread makes a bounded number of
steps until then, apart from the calls of callbacks, and it is never stuck before. -/
theorem removal_is_served {tr : List (Label κ)}
    (hr : Run (Step (pollMgr κ) (users p)) (start p n) tr g) :
    ∃ k, ∀ tr' g' u fd, Run (Step (pollMgr κ) (users p)) g tr' g' → (∀ l ∈ tr', l.1 ≠ i) →
      g'.threads[i]? = some (.asleep u .changedone (.removed fd)) →
      tr'.countP byPoll ≤ k + 2 * tr'.countP innerCall ∧
        ∃ l g'', Step (pollMgr κ) (users p) g' l g'' ∧ byPoll l ∧ ¬innerCall l ∧
          ¬Interrupted l := by
  have hsound := Sound.run_of_start hr
  have htied : ∀ t ∈ g.threads, t.Tied (pollMgr κ) := by
    refine tied_run (fun t ht => ?_) hr
    rcases List.mem_cons.mp ht with rfl | ht
    · trivial
    · rw [List.eq_of_mem_replicate ht]
      trivial
  obtain ⟨t, h0⟩ := zero_exists hsound.shape
  refine ⟨distance t, fun tr' g' u fd hr' hne hi => ?_⟩
  have hsound' : Sound p n g' := hr'.invariant hsound fun _ _ _ h hs => h.step hs
  obtain ⟨t', h0'⟩ := zero_exists hsound'.shape
  refine ⟨?_, poll_can_step hsound' (tied_run htied hr') (hsound'.pending (sleepers_pos hi)) h0'⟩
  have := distance_run hsound htied hr' hne hi h0 h0'
  omega

end Distance

theorem removal_is_served_asking :
    asking.threads[1]? = some (.asleep .client .changedone (.removed 5)) ∧
      ∃ k, ∀ tr' g' u fd, Run (Step (pollMgr ℕ) (users 3)) asking tr' g' → (∀ l ∈ tr', l.1 ≠ 1) →
        g'.threads[1]? = some (.asleep u .changedone (.removed fd)) →
        tr'.countP byPoll ≤ k + 2 * tr'.countP innerCall ∧
          ∃ l g'', Step (pollMgr ℕ) (users 3) g' l g'' ∧ byPoll l ∧ ¬innerCall l ∧
            ¬Interrupted l := by
  obtain ⟨tr₀, g₀, h₀, begins⟩ := run_asking
  exact ⟨rfl, removal_is_served (h₀.snoc begins)⟩

end Yfs.PollWakeups
