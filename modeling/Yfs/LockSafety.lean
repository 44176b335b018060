import Yfs.LockLedger
import Yfs.Schedules
import Mathlib.Algebra.Order.BigOperators.Group.List

/-!
# Safety of the caching lock protocol

The invariant of the ledgers holds along every run, whatever the applications do. It gives
mutual exclusion between clients and between threads, and it shows that no critical section
of either side ever fails an assertion.
-/

namespace Yfs.LockSafety
open LabelledRuns LockProtocol ExtentClient CallStackMachines FileService LockPhases LockLedger
open Schedules

abbrev AppThread := Thread Local Request Reply Frame Sleeper
abbrev System := Config Shared Local Request Reply Frame Sleeper
abbrev SystemLabel := ℕ × Label Empty Request Reply Frame Sleeper

/-- Nobody has used a lock yet. The caches, the store and the choice of clients with a
`lock_release_user` are arbitrary, and so is the number of threads. -/
structure Initial (g : System) : Prop where
  server : ∀ lid, g.shared.lockServer lid = {}
  client : ∀ c lid, g.shared.lockClient c lid = {}
  threads : ∀ t ∈ g.threads, t.busy = none ∧ t.loc.held = [] ∧ t.loc.client ≠ []

/-- A thread has a named client, and its stack answers a call that the thread made. -/
structure ThreadOk (t : AppThread) : Prop where
  named : t.loc.client ≠ []
  linked : ∀ a ∈ t.busy, machine.Linked a
  root : ∀ a ∈ t.busy, a.root.IsAppCall t.loc.client

theorem grounded_base {c : ClientId} {q : Request} (hq : q.IsAppCall c) (fs : List Frame) :
    Grounded (base q fs) := by
  cases fs with
  | nil => exact ⟨c, hq⟩
  | cons f fs => trivial

variable {s : Shared} {X : LockId → Multiset (ClientId × Token)} {b : Base Request Frame}

/-- Every request finds the locks in a phase that it can deal with. -/
theorem keeps_exec {r : Request} (hb : b.calls machine = r) (hg : Grounded b)
    (hn : ∀ c lid, b = .root (.acquire c lid) → c ≠ [])
    (h : LocksOk s fun lid => (ledger lid).surface (.request r) b + X lid) :
    Keeps X b (exec r s) := by
  by_cases hr : IsExtent r
  · obtain ⟨s', o, hx, hs, hc, ho⟩ := exec_extent hr s
    refine keeps_light hr hb (a := .control (.request r)) ?_ hx hs hc ho
    have ht : ∀ lid, top lid (.request r) = 0 := fun lid => by cases r <;> first | rfl | exact hr.elim
    simpa [Ledger.surface, ledger, ht] using h
  · have hl := fun (p : Proc) c lid (hp : b.calls machine = p.request c lid) => link_proc hp hg
    cases r with
    | acquire c lid =>
      have hroot : b = .root (.acquire c lid) := by
        cases b with
        | root q => exact congrArg Base.root hb
        | frame f => cases f <;> cases hb
      refine keeps_acquire ?_ (hn c lid hroot) hb hg
      simpa [Ledger.surface, ledger, top, hl .acquire c lid hb, procLink] using h
    | release c lid =>
      refine keeps_release ?_ hb hg
      simpa [Ledger.surface, ledger, top, hl .release c lid hb, procLink] using h
    | revoke c lid =>
      refine keeps_revoke ?_ hb hg
      simpa [Ledger.surface, ledger, top, hl .revoke c lid hb, procLink] using h
    | retry c lid =>
      refine keeps_retry ?_ hb hg
      simpa [Ledger.surface, ledger, top, hl .retry c lid hb, procLink] using h
    | lockAcquire lid c => exact keeps_lockAcquire hb hg h
    | lockRelease lid c => exact keeps_lockRelease hb hg h
    | dorelease c lid => exact keeps_dorelease hb hg h
    | _ => exact absurd trivial hr

/-- Every answer finds the locks in a phase that its caller can deal with. -/
theorem keeps_resume {f : Frame} {v : Reply} (hb : b.calls machine = serves f) (hg : Grounded b)
    (hv : machine.answers (calls f) v)
    (h : LocksOk s fun lid =>
      (ledger lid).surface (.reply v) (.frame f) + (link lid (.frame f) b + X lid)) :
    Keeps X b (resume f v s) := by
  have hl := fun (p : Proc) c lid (hp : b.calls machine = p.request c lid) => link_proc hp hg
  simp only [surface_reply] at h
  -- the frames that hold no token of their own
  have hz : (∀ {lid a}, link lid a (.frame f) = 0) →
      LocksOk s fun lid => link lid (.frame f) b + X lid := fun h0 => by
    simpa only [h0, zero_add] using h
  cases f with
  | acquireFirst c lid =>
    refine keeps_acquireFirst ?_ hb hg
    simpa [hl .acquire c lid hb, procLink, answer] using h
  | acquireSecond c lid =>
    refine keeps_acquireSecond ?_ hb hg
    simpa [hl .acquire c lid hb, procLink, answer] using h
  | retryRpc c lid =>
    refine keeps_retryRpc ?_ hb hg
    simpa [hl .retry c lid hb, procLink, answer] using h
  | releaseRpc c lid =>
    refine keeps_releaseRpc hv ?_ hb hg
    simpa [hl .release c lid hb, procLink, stage] using h
  | revokeRpc c lid =>
    refine keeps_revokeRpc hv ?_ hb hg
    simpa [hl .revoke c lid hb, procLink, stage] using h
  | releaseFlush c lid =>
    refine keeps_flushed (hl .release c lid hb) (.inl rfl) ?_
    simpa [hl .release c lid hb, procLink, flushStage] using h
  | revokeFlush c lid =>
    refine keeps_flushed (hl .revoke c lid hb) (.inr rfl) ?_
    simpa [hl .revoke c lid hb, procLink, flushStage] using h
  | serverAcquire lid id ret dest =>
    exact keeps_serverAcquire hv hb hg (hz rfl)
  | serverRelease lid id dest =>
    exact keeps_serverRelease hb hg (hz rfl)
  | getRpc c eid =>
    exact keeps_light (s := s) (r := .get c eid) trivial hb (hz rfl) rfl rfl rfl trivial
  | getattrRpc c eid =>
    exact keeps_light (s := s) (r := .getattr c eid) trivial hb (hz rfl) rfl rfl rfl trivial
  | createRpc c type =>
    exact keeps_light (s := s) (r := .create c type) trivial hb (hz rfl) rfl rfl rfl trivial
  | flushPut c eid buf =>
    rw [show resume (.flushPut c eid buf) v s = some (s, .ret {}) from if_pos hv]
    exact keeps_flushRpc rfl hb hg (hz rfl)
  | flushRemove c eid =>
    rw [show resume (.flushRemove c eid) v s = some (s, .ret {}) from if_pos hv]
    exact keeps_flushRpc rfl hb hg (hz rfl)

/-! ## Steps and runs -/

/-- What a piece of code running above `fs` cannot touch. -/
def around (R : LockId → Multiset (ClientId × Token)) (l : Local) (q : Request) (fs : List Frame)
    (lid : LockId) : Multiset (ClientId × Token) :=
  (ledger lid).loc l + (ledger lid).deep q fs + R lid

section
variable {R : LockId → Multiset (ClientId × Token)} {l : Local} {q : Request} {fs : List Frame}

theorem ThreadOk.calls_base {k : Control Request Reply Sleeper}
    (ht : ThreadOk ⟨l, some ⟨q, k, fs⟩⟩) : machine.Expects ((base q fs).calls machine) k := by
  rw [Base.calls_base]
  exact (ht.linked _ rfl).2

theorem ThreadOk.grounded {k : Control Request Reply Sleeper}
    (ht : ThreadOk ⟨l, some ⟨q, k, fs⟩⟩) : Grounded (base q fs) :=
  grounded_base (ht.root _ rfl) fs

/-- Only an application calls `acquire`, for its own client. -/
theorem ThreadOk.acquire_named {k : Control Request Reply Sleeper}
    (ht : ThreadOk ⟨l, some ⟨q, k, fs⟩⟩) {c : ClientId} {lid : LockId}
    (hq : (base q fs).calls machine = .acquire c lid) : c ≠ [] := by
  cases fs with
  | nil =>
    obtain rfl : q = .acquire c lid := hq
    have hr := ht.root _ rfl
    simp only [Request.IsAppCall, Request.IsExtentCall, Request.acquire.injEq, reduceCtorEq,
      exists_false, or_false] at hr
    obtain ⟨lid', rfl, -⟩ := hr
    exact ht.named
  | cons f fs => cases f <;> cases hq

theorem ThreadOk.keeps_exec {r : Request} (ht : ThreadOk ⟨l, some ⟨q, .request r, fs⟩⟩)
    (h : LocksOk s fun lid => (ledger lid).thread ⟨l, some ⟨q, .request r, fs⟩⟩ + R lid) :
    Keeps (around R l q fs) (base q fs) (exec r s) := by
  refine LockSafety.keeps_exec ht.calls_base.symm ht.grounded (fun c lid hb => ?_) ?_
  · exact ht.acquire_named (by rw [hb]; rfl)
  · convert h using 2 with lid
    simp only [around, Ledger.thread, Ledger.activity, Option.map_some, Option.getD_some]
    ac_rfl

theorem ThreadOk.keeps_resume {f : Frame} {v : Reply}
    (ht : ThreadOk ⟨l, some ⟨q, .reply v, f :: fs⟩⟩)
    (h : LocksOk s fun lid => (ledger lid).thread ⟨l, some ⟨q, .reply v, f :: fs⟩⟩ + R lid) :
    Keeps (around R l q fs) (base q fs) (resume f v s) := by
  obtain ⟨⟨hf, -⟩, hv⟩ := ht.linked _ rfl
  refine LockSafety.keeps_resume ?_ (grounded_base (ht.root _ rfl) fs) hv ?_
  · rw [Base.calls_base]
    exact hf.symm
  · convert h using 2 with lid
    simp only [around, Ledger.thread, Ledger.activity, Option.map_some, Option.getD_some,
      Ledger.deep, base]
    simp only [ledger]
    ac_rfl

theorem ThreadOk.keeps_wake {w : Sleeper} (ht : ThreadOk ⟨l, some ⟨q, .asleep w, fs⟩⟩)
    (h : LocksOk s fun lid => (ledger lid).thread ⟨l, some ⟨q, .asleep w, fs⟩⟩ + R lid) :
    Keeps (around R l q fs) (base q fs) (wake w s) := by
  have hb : (base q fs).calls machine = .acquire w.client w.lid := ht.calls_base.symm
  refine LockLedger.keeps_wake ?_ (ht.acquire_named hb) hb ht.grounded
  convert h using 2 with lid
  have hl := link_proc (p := .acquire) hb ht.grounded lid (.control (.asleep w))
  simp only [around, Ledger.thread, Ledger.activity, Option.map_some, Option.getD_some,
    Ledger.surface]
  simp only [ledger, hl, procLink, top, zero_add, add_zero]

/-- The code that ran has left its tokens on top of the stack. -/
theorem locksOk_land {x : Option (Shared × Ending)} {s' : Shared} {o : Ending}
    (h : Keeps (around R l q fs) (base q fs) x) (hx : x = some (s', o)) :
    LocksOk s' fun lid => (ledger lid).thread ⟨l, some (.land q fs o)⟩ + R lid := by
  obtain ⟨s₁, o₁, h₁, hk⟩ := h
  obtain ⟨rfl, rfl⟩ := Prod.mk.inj (Option.some.inj (h₁.symm.trans hx))
  convert hk using 2 with lid
  simp only [around, Ledger.thread, Option.map_some, Option.getD_some, Ledger.activity_land]
  ac_rfl

theorem thread_idle (l : Local) (lid : LockId) :
    (ledger lid).thread ⟨l, none⟩ = Multiset.replicate (l.held.count lid) (l.client, .hold) :=
  add_zero _

theorem thread_root (l : Local) (q : Request) (k : Control Request Reply Sleeper) (lid : LockId) :
    (ledger lid).thread ⟨l, some ⟨q, k, []⟩⟩ =
      Multiset.replicate (l.held.count lid) (l.client, .hold) +
        (top lid k + link lid (.control k) (.root q)) :=
  congrArg _ (add_zero _)

/-- A call moves at most the caller's own claim: what it gives back is now on its way. -/
theorem thread_begins {P : Local → Request → Prop} {l' : Local} {r : Request}
    (h : Begins P l r l') (lid : LockId) :
    (ledger lid).thread ⟨l', some ⟨r, .request r, []⟩⟩ = (ledger lid).thread ⟨l, none⟩ := by
  rw [thread_idle, thread_root]
  cases h with
  | acquire lid' => simp [top, link]
  | release lid' hm =>
    by_cases hl : lid' = lid
    · subst hl
      have hc := Nat.succ_pred_eq_of_pos (List.count_pos_iff.mpr hm)
      rw [← hc, List.count_erase_self, Multiset.replicate_succ, ← Multiset.singleton_add, add_comm]
      simp [top, link]
    · simp [top, link, on_other hl, List.count_erase_of_ne (Ne.symm hl)]
  | extent r hr hp => cases r <;> first | exact hr.elim | simp [top, link]

/-- The lock that a returned `acquire` stands for is now the caller's. -/
theorem thread_ended {v : Reply} (hq : q.IsAppCall l.client) (lid : LockId) :
    (ledger lid).thread ⟨l.after q, none⟩ = (ledger lid).thread ⟨l, some ⟨q, .reply v, []⟩⟩ := by
  rw [thread_idle, thread_root]
  rcases hq with ⟨lid', rfl⟩ | ⟨lid', rfl⟩ | hq
  · by_cases hl : lid' = lid
    · subst hl
      simp [Local.after, top, link, Multiset.replicate_succ, ← Multiset.singleton_add, add_comm]
    · simp [Local.after, top, link, on_other hl, List.count_cons_of_ne hl]
  · simp [Local.after, top, link]
  · cases q <;> first | exact hq.elim | simp [Local.after, top, link]

end

variable {P : Local → Request → Prop} {t t' : AppThread} {g g' : System}
  {lab : Label Empty Request Reply Frame Sleeper}

theorem ThreadOk.step {s' : Shared} (h : ThreadStep machine (app P) s t lab s' t')
    (ht : ThreadOk t) : ThreadOk t' := by
  have hl := machine_lawful.linked_step h ht.linked
  cases h with
  | think h => exact h.elim
  | begins h =>
    obtain ⟨hr, hc⟩ := h.isAppCall
    refine ⟨hc ▸ ht.named, hl, ?_⟩
    rintro a ⟨⟩
    exact hr
  | @ended l q v l' h =>
    obtain rfl : l' = l.after q := h
    exact ⟨(after_client _ _).symm ▸ ht.named, by simp, by simp⟩
  | @exec l q r fs s' o h | @wake l q w fs s' o h | @resume l q v f fs s' o h =>
    refine ⟨ht.named, hl, ?_⟩
    rintro a ⟨⟩
    have hr := ht.root _ rfl
    cases o <;> exact hr

theorem LocksOk.thread_step {s' : Shared} {R : LockId → Multiset (ClientId × Token)}
    (h : LocksOk s fun lid => (ledger lid).thread t + R lid) (ht : ThreadOk t)
    (hs : ThreadStep machine (app P) s t lab s' t') :
    LocksOk s' fun lid => (ledger lid).thread t' + R lid := by
  cases hs with
  | think he => exact he.elim
  | begins hb => simpa only [thread_begins hb] using h
  | exec hx => exact locksOk_land (ht.keeps_exec h) hx
  | resume hx => exact locksOk_land (ht.keeps_resume h) hx
  | wake hx => exact locksOk_land (ht.keeps_wake h) hx
  | @ended l q v l' he =>
    obtain rfl : l' = l.after q := he
    simpa only [thread_ended (v := v) (ht.root _ rfl)] using h

/-- The invariant of the whole system. -/
structure SystemOk (g : System) : Prop where
  threads : ∀ t ∈ g.threads, ThreadOk t
  locks : LocksOk g.shared fun lid => (ledger lid).total g

theorem SystemOk.step {lab : SystemLabel} (h : SystemOk g) (hs : Step machine (app P) g lab g') :
    SystemOk g' := by
  cases hs with
  | @mk s s' t t' lab pre post hs =>
    have ht : ThreadOk t := h.threads t (by simp)
    have hl := h.locks
    simp only [Ledger.total_split] at hl
    refine ⟨fun u hu => ?_, ?_⟩
    · simp only [List.mem_append, List.mem_cons] at hu
      rcases hu with hu | rfl | hu
      · exact h.threads u (by simp [hu])
      · exact ht.step hs
      · exact h.threads u (by simp [hu])
    · simp only [Ledger.total_split]
      exact LocksOk.thread_step hl ht hs

theorem Initial.systemOk (h : Initial g) : SystemOk g where
  threads t ht := by
    obtain ⟨hb, -, hn⟩ := h.threads t ht
    exact ⟨hn, by simp [hb], by simp [hb]⟩
  locks lid := by
    have hz : (ledger lid).total g = 0 := by
      refine List.sum_eq_zero fun m hm => ?_
      obtain ⟨t, ht, rfl⟩ := List.mem_map.mp hm
      obtain ⟨hb, hh, -⟩ := h.threads t ht
      simp [Ledger.thread, hb, hh, ledger]
    have hr : role {} = fun _ => Role.outside := by
      funext c
      simp [role]
    simp only [h.server, h.client, hz]
    exact ⟨⟨by simp, by simp, by simp, by simp, by simp, by simp⟩, fun c => by rw [hr]; exact .idle, rfl⟩

theorem Initial.run_systemOk (h : Initial g) {tr : List SystemLabel}
    (hr : Run (Step machine (app P)) g tr g') : SystemOk g' :=
  hr.invariant h.systemOk fun _ _ _ hb hs => hb.step hs

/-! ## Mutual exclusion -/

/-- A release of `c` is on its way: its cache is still being flushed, or the server has not
run the call yet. -/
def ReleaseUnprocessed (g : System) (c : ClientId) (lid : LockId) : Prop :=
  ∃ t ∈ g.threads, ∃ a ∈ t.busy, a.control = .request (.lockRelease lid c) ∨
    .releaseFlush c lid ∈ a.frames ∨ .revokeFlush c lid ∈ a.frames

/-- The client may act as the owner of the lock. -/
def Owns (g : System) (c : ClientId) (lid : LockId) : Prop :=
  (g.shared.lockClient c lid).state = .owned ∨ (g.shared.lockClient c lid).state = .locked ∨
    ((g.shared.lockClient c lid).state = .releasing ∧ ReleaseUnprocessed g c lid)

/-- The threads between a returned `acquire` and the matching `release`. -/
def insiders (g : System) (lid : LockId) : ℕ := g.threads.countP fun t => lid ∈ t.loc.held

theorem SystemOk.mem_release (h : SystemOk g) {c : ClientId} {lid : LockId}
    (hu : ReleaseUnprocessed g c lid) :
    ∃ st, st ≠ Stage.answered ∧ (c, .release st) ∈ (ledger lid).total g := by
  obtain ⟨t, ht, a, ha, hu⟩ := hu
  have hlift : ∀ x, x ∈ (ledger lid).activity a → x ∈ (ledger lid).total g :=
    fun _ => Ledger.mem_total_activity ht ha
  rcases hu with hu | hu | hu
  · obtain ⟨q, k, fs⟩ := a
    obtain rfl : k = .request (.lockRelease lid c) := hu
    have hq := (h.threads t ht).root _ ha
    have hb : (base q fs).calls machine = .lockRelease lid c := by
      rw [Base.calls_base]
      exact ((h.threads t ht).linked _ ha).2.symm
    refine ⟨.asked, by simp, hlift _ (Multiset.mem_add.mpr (.inl (Multiset.mem_add.mpr (.inr ?_))))⟩
    simp [ledger, link_lockRelease hb (grounded_base hq fs), stage]
  · obtain ⟨y, hy⟩ := (ledger lid).link_le_activity hu
    exact ⟨flushStage y, flushStage_ne_answered y, hlift _ (hy _ (by simp [ledger]))⟩
  · obtain ⟨y, hy⟩ := (ledger lid).link_le_activity hu
    exact ⟨flushStage y, flushStage_ne_answered y, hlift _ (hy _ (by simp [ledger]))⟩

theorem SystemOk.holder_of_owns (h : SystemOk g) {c : ClientId} {lid : LockId}
    (ho : Owns g c lid) : ∃ b, role (g.shared.lockServer lid) c = .holder b := by
  refine ((h.locks lid).phase c).holder_of_state ?_
  rcases ho with ho | ho | ⟨-, hu⟩
  · exact .inl ho
  · exact .inr (.inl ho)
  · obtain ⟨st, hst, hm⟩ := h.mem_release hu
    exact .inr (.inr ⟨st, hst, mem_tokensOf hm⟩)

theorem insiders_le (g : System) (lid : LockId) :
    insiders g lid ≤ ((ledger lid).total g).countP (·.2 = .hold) := by
  have hsum : insiders g lid =
      (g.threads.map (List.countP (fun t => lid ∈ t.loc.held) ∘ fun t => [t])).sum := by
    rw [← List.countP_flatMap, List.flatMap_singleton', insiders]
  rw [hsum]
  refine (ledger lid).sum_le_countP _ g fun t _ => ?_
  by_cases hm : lid ∈ t.loc.held
  · have hpos : 0 < ((ledger lid).thread t).countP (·.2 = .hold) := by
      refine Multiset.countP_pos.mpr ⟨(t.loc.client, .hold), Multiset.mem_add.mpr (.inl ?_), rfl⟩
      exact Multiset.mem_replicate.mpr ⟨(List.count_pos_iff.mpr hm).ne', rfl⟩
    simpa [hm] using Nat.succ_le_of_lt hpos
  · simp [hm]

/-- At any time one client at most may act as the owner of a lock, and one thread of the
whole system at most is inside it. -/
theorem mutual_exclusion (hg : Initial g) {tr : List SystemLabel}
    (hr : Run (Step machine (app P)) g tr g') (lid : LockId) :
    (∀ c d, Owns g' c lid → Owns g' d lid → c = d) ∧ insiders g' lid ≤ 1 := by
  have h := hg.run_systemOk hr
  refine ⟨fun c d hc hd => ?_, (insiders_le g' lid).trans (h.locks lid).countP_hold_le⟩
  obtain ⟨b, hb⟩ := h.holder_of_owns hc
  obtain ⟨b', hb'⟩ := h.holder_of_owns hd
  exact role_holder_unique hb hb'

/-! ### Two clients after the same lock -/

def clientA : ClientId := [65]
def clientB : ClientId := [66]

/-- One thread each of two clients, on a store of empty files. -/
def twoClients : System where
  shared :=
    { store := { attr := fun _ => { type := typeFile }, content := fun _ => [], supply := UInt64.ofNat } }
  threads := [⟨⟨clientA, []⟩, none⟩, ⟨⟨clientB, []⟩, none⟩]

theorem twoClients_initial : Initial twoClients where
  server _ := rfl
  client _ _ := rfl
  threads := by simp [twoClients, clientA, clientB]

/-- `A` gets lock 7; `B` asks for it, is queued, and falls asleep while `A` is told. -/
def contention : List (Choice Request) :=
  [.call 0 (.acquire clientA 7), .go 0, .go 0, .go 0, .go 0,
    .call 1 (.acquire clientB 7), .go 1, .go 1, .go 1, .go 1, .go 1]

def playContention : Option (List SystemLabel × System) :=
  play machine (allow fun _ _ => True) (fun l r _ => l.after r) contention twoClients

theorem run_contention : ∃ tr g, Run (Step machine (app fun _ _ => True)) twoClients tr g ∧
    playContention = some (tr, g) := by
  obtain ⟨⟨tr, g⟩, hp⟩ : ∃ x, playContention = some x := Option.isSome_iff_exists.mp rfl
  exact ⟨tr, g, run_play begins_allow (fun _ _ _ => rfl) contention hp, hp⟩

theorem mutual_exclusion_contention : ∃ tr g,
    Run (Step machine (app fun _ _ => True)) twoClients tr g ∧
      (g.shared.lockServer 7).waitingClients = [clientB] ∧ insiders g 7 = 1 ∧
        ((∀ c d, Owns g c 7 → Owns g d 7 → c = d) ∧ insiders g 7 ≤ 1) := by
  obtain ⟨tr, g, hr, hp⟩ := run_contention
  have hobs : playContention.map (fun x => ((x.2.shared.lockServer 7).waitingClients,
      insiders x.2 7)) = some ([clientB], 1) := rfl
  rw [hp, Option.map_some, Option.some.injEq, Prod.mk.injEq] at hobs
  exact ⟨tr, g, hr, hobs.1, hobs.2, mutual_exclusion twoClients_initial hr 7⟩

/-! ## Assertions -/

theorem SystemOk.not_fails (h : SystemOk g) (ht : t ∈ g.threads) : ¬ t.Fails machine g.shared := by
  obtain ⟨s, ts⟩ := g
  obtain ⟨pre, post, rfl⟩ := List.append_of_mem ht
  have hok := h.threads t ht
  have hl := h.locks
  simp only [Ledger.total_split] at hl
  obtain ⟨l, busy⟩ := t
  rcases busy with - | ⟨q, k, fs⟩
  · exact id
  · cases k with
    | request r =>
      obtain ⟨s', o, hx, -⟩ := hok.keeps_exec hl
      simp [Thread.Fails, machine, hx]
    | asleep w =>
      obtain ⟨s', o, hx, -⟩ := hok.keeps_wake hl
      simp [Thread.Fails, machine, hx]
    | reply v =>
      cases fs with
      | nil => exact id
      | cons f fs =>
        obtain ⟨s', o, hx, -⟩ := hok.keeps_resume hl
        simp [Thread.Fails, machine, hx]

/-- No code that is about to run fails an assertion. -/
theorem assertions_hold (hg : Initial g) {tr : List SystemLabel}
    (hr : Run (Step machine (app P)) g tr g') : ∀ t ∈ g'.threads, ¬ t.Fails machine g'.shared :=
  fun _ ht => (hg.run_systemOk hr).not_fails ht

theorem assertions_hold_contention : ∃ tr g,
    Run (Step machine (app fun _ _ => True)) twoClients tr g ∧
      (g.shared.lockClient clientA 7).pending = .revoke ∧
        ∀ t ∈ g.threads, ¬ t.Fails machine g.shared := by
  obtain ⟨tr, g, hr, hp⟩ := run_contention
  have hobs : playContention.map (fun x => (x.2.shared.lockClient clientA 7).pending) =
      some .revoke := rfl
  rw [hp, Option.map_some, Option.some.injEq] at hobs
  exact ⟨tr, g, hr, hobs, assertions_hold twoClients_initial hr⟩

end Yfs.LockSafety
