import Yfs.DispatchPools

/-!
# When the lock server runs out of threads

A call that has taken a thread of the lock server needs another one only if it has led to a
`release` or to a second `acquire`. For one lock there is at most one such call at a time, so the
server gets through with as many threads as there are locks and one more; with as many threads as
locks, each may wait for a call that nobody is left to serve.
-/

namespace Yfs.PoolExhaustion
open LabelledRuns LockProtocol ExtentClient CallStackMachines FileService LockPhases LockLedger
open LockSafety Schedules CallPools DispatchPools

variable {P : Local → Request → Prop} {g g' : System} {s s' : Shared} {t t' : AppThread}
  {c d e : ClientId} {lid : LockId} {f : Frame} {v : Reply} {o : Ending} {r : Request}
  {lids : Finset LockId}

/-! ## Calls that wait for the server itself -/

section
variable {l : Local} {q : Request} {fs : List Frame} {ret : Status}

/-- The client that is told to retry by a nested release has not had its first answer yet, so it
does not call the server again. -/
theorem retry_not_nested (hg : SystemOk g) (hh : HeadsOk g)
    (ht : (⟨l, some ⟨q, .request (.lockAcquire lid c), .retryRpc c lid :: .serverRelease lid e c ::
      .revokeRpc e lid :: .serverAcquire lid d ret e :: fs⟩⟩ : AppThread) ∈ g.threads) : False := by
  have hsecond : .second none ∈ tokensOf c ((ledger lid).total g) :=
    mem_tokens_of_control ht (by simp [base, answer])
  obtain ⟨⟨b, hrole⟩, -, hT⟩ := ((hg.locks lid).phase c).askingAgain_of_second hsecond
  obtain ⟨hst, hid, -⟩ := role_eq_expected hrole
  have hd := answered_token [.retryRpc c lid, .serverRelease lid e c, .revokeRpc e lid] hg ht
  have hled : Led g.shared (.serverAcquire lid d ret e) := hh _ ht _ rfl _ (by simp)
  rcases hled with ⟨-, rfl⟩ | ⟨-, ⟨-, hid'⟩ | ⟨hst', -⟩⟩
  · -- the revoked client made the call itself
    have hrel : .release .answered ∈ tokensOf e ((ledger lid).total g) :=
      mem_tokens_of_frame [.retryRpc c lid] ht (by simp [base, stage])
    rw [((hg.locks lid).phase e).eq_of_release hrel] at hd
    simp at hd
  · rw [← hid', hid, hT] at hd
    simp at hd
  · rw [hst] at hst'
    cases hst'

/-- A client that gives the lock back for a revocation has had the answer to its second call. -/
theorem revoke_not_nested (hg : SystemOk g) (hh : HeadsOk g)
    (ht : (⟨l, some ⟨q, .request (.lockRelease lid c), .revokeRpc c lid ::
      .serverAcquire lid e ret c :: .retryRpc e lid :: fs⟩⟩ : AppThread) ∈ g.threads) : False := by
  have hrel : .release .asked ∈ tokensOf c ((ledger lid).total g) :=
    mem_tokens_of_control ht (by simp [base, stage])
  have hT := ((hg.locks lid).phase c).eq_of_release hrel
  have hsecond : .second (some ret) ∈ tokensOf e ((ledger lid).total g) :=
    mem_tokens_of_frame [.revokeRpc c lid] ht (by simp [base, answer])
  have hled : Led g.shared (.serverAcquire lid e ret c) := hh _ ht _ rfl _ (by simp)
  rcases hled with ⟨-, rfl⟩ | ⟨rfl, -⟩
  · rw [hT] at hsecond
    simp at hsecond
  · exact absurd (((hg.locks lid).phase e).second_answered hsecond).1 (by decide)

end

/-- A call that waits for the server has taken one of its threads at most, and is then the one call
for its lock that a handler has on its way. -/
theorem lidsAt_of_calling {l : Local} {q : Request} {k : Control Request Reply Sleeper}
    {fs : List Frame} (hg : SystemOk g) (hh : HeadsOk g)
    (ht : (⟨l, some ⟨q, k, fs⟩⟩ : AppThread) ∈ g.threads) (hk : k = .request r)
    (hr : host r = some .server) :
    lidsAt .server (⟨l, some ⟨q, k, fs⟩⟩ : AppThread) = [] ∨
      ∃ lid c tok, lidsAt .server (⟨l, some ⟨q, k, fs⟩⟩ : AppThread) = [lid] ∧ tok.Asks ∧
        (c, tok) ∈ link lid (.control k) (base q fs) := by
  subst hk
  have hok := hg.threads _ ht
  have hq := hok.root _ rfl
  obtain ⟨hframed, hexp⟩ := hok.linked _ rfl
  cases r with
  | lockAcquire lid c =>
    obtain ⟨f, fs, rfl, hf | rfl⟩ := frames_of_lockAcquire hq hexp.symm
    · obtain rfl := frames_of_app (.inl (hframed.1.symm.trans hf))
      exact .inl (by simp [lidsAt, hf, host])
    obtain ⟨e, fs, rfl⟩ := frames_of_retry hq hframed.1.symm
    obtain ⟨f, fs, rfl, rfl | rfl⟩ := frames_of_lockRelease hq hframed.2.1.symm
    · obtain rfl := frames_of_app (.inr hframed.2.2.1.symm)
      exact .inr ⟨lid, c, .second none, rfl, .inl rfl, by simp [base, answer]⟩
    · obtain ⟨d, ret, fs, rfl⟩ := frames_of_revoke hq hframed.2.2.1.symm
      exact (retry_not_nested hg hh ht).elim
  | lockRelease lid c =>
    obtain ⟨f, fs, rfl, rfl | rfl⟩ := frames_of_lockRelease hq hexp.symm
    · obtain rfl := frames_of_app (.inr hframed.1.symm)
      exact .inl rfl
    obtain ⟨e, ret, fs, rfl⟩ := frames_of_revoke hq hframed.1.symm
    obtain ⟨f, fs, rfl, hf | rfl⟩ := frames_of_lockAcquire hq hframed.2.1.symm
    · obtain rfl := frames_of_app (.inl (hframed.2.2.1.symm.trans hf))
      have hserves : serves (.serverAcquire lid e ret c) = .lockAcquire lid e := rfl
      have hrevoke : serves (.revokeRpc c lid) = .revoke c lid := rfl
      refine .inr ⟨lid, c, .release .asked, ?_, .inr rfl, by simp [base, stage]⟩
      simp [lidsAt, hf, hserves, hrevoke, host, lidOf]
    · exact (revoke_not_nested hg hh ht).elim
  | _ => cases hr

/-- Calls that all wait for the server have taken at most one thread for each lock. -/
theorem occupied_of_stuck (hg : SystemOk g) (hh : HeadsOk g) (h : LidsOk lids g)
    (hstuck : Stuck machine pools .server g) : occupied machine pools .server g ≤ lids.card := by
  refine occupied_le h hg fun lid => ?_
  refine ((ledger lid).sum_le_countP _ g fun t ht => ?_).trans (hg.locks lid).countP_asks_le
  by_cases hload : load machine pools .server t = 0
  · rw [load_eq, List.length_eq_zero_iff] at hload
    simp [hload]
  obtain ⟨a, ha, r, hk, hr⟩ := hstuck t ht (Nat.pos_of_ne_zero hload)
  obtain ⟨l, _⟩ := t
  obtain rfl := Option.mem_def.mp ha
  obtain ⟨q, k, fs⟩ := a
  rcases lidsAt_of_calling hg hh ht hk hr with hnil | ⟨lid', c, tok, hone, hasks, hmem⟩
  · simp [hnil]
  · rw [hone]
    by_cases hl : lid' = lid
    · subst hl
      rw [List.count_singleton_self]
      refine Multiset.countP_pos.mpr ⟨(c, tok), ?_, hasks⟩
      exact Multiset.mem_add.mpr (.inr (Multiset.mem_add.mpr (.inl (Multiset.mem_add.mpr (.inr hmem)))))
    · simp [hl]

/-! ## Calls that can go on -/

/-- What a call costs at most before it returns or waits for the server. -/
def effort : Effort Request Frame where
  request
    | .release _ _ | .revoke _ _ => 6
    | .acquire _ _ | .dorelease _ _ | .get _ _ | .getattr _ _ | .create _ _ => 3
    | .retry _ _ => 2
    | .lockAcquire _ _ | .lockRelease _ _ => 0
    | _ => 1
  frame
    | .acquireFirst _ _ | .releaseFlush _ _ | .revokeFlush _ _ => 2
    | _ => 1

theorem effort_leave (s : Shared) {p : Proc} (c : ClientId) (lid : LockId)
    {m : LockStateClient × ClientMove} (hm : p.CanMove m.2) :
    effort.outcome (leave s p c lid m).2 < effort.request (p.request c lid) := by
  obtain ⟨r, mv⟩ := m
  cases hlu : s.lu c <;> cases p <;> cases mv <;>
    first
      | exact hm.elim
      | (rename_i b; cases b <;> simp [leave, Effort.outcome, effort, Proc.request])
      | simp [leave, callRelease, againFrame, hlu, Effort.outcome, effort, Proc.request]

theorem effort_map {p : Proc} {x : Option (LockStateClient × ClientMove)}
    (hx : ∀ m, x = some m → p.CanMove m.2) (h : x.map (leave s p c lid) = some (s', o)) :
    effort.outcome o < effort.request (p.request c lid) := by
  obtain ⟨m, hm, he⟩ := Option.map_eq_some_iff.mp h
  have hlt := effort_leave s c lid (hx m hm)
  rwa [he] at hlt

/-- Whatever is not run by the server leaves less to do. -/
theorem effort_exec (h : exec r s = some (s', o)) (hr : host r ≠ some .server) :
    effort.outcome o < effort.request r := by
  cases r with
  | acquire c lid =>
    obtain ⟨-, rfl⟩ := Prod.mk.inj (Option.some.inj h)
    exact effort_leave s (p := .acquire) c lid (canMove_acquireStart _)
  | release c lid => exact effort_map (p := .release) (fun m hm => canMove_start.1 hm) h
  | revoke c lid => exact effort_map (p := .revoke) (fun m hm => canMove_start.2.1 hm) h
  | retry c lid => exact effort_map (p := .retry) (fun m hm => canMove_start.2.2 hm) h
  | lockAcquire | lockRelease => exact absurd rfl hr
  | dorelease c lid =>
    obtain ⟨-, rfl⟩ := Prod.mk.inj (Option.some.inj h)
    split
    · simp [Effort.outcome, effort]
    · split_ifs <;> simp [Effort.outcome, effort]
  | get c eid =>
    obtain ⟨-, rfl⟩ := Prod.mk.inj (Option.some.inj h)
    unfold execGet
    split <;> simp [Effort.outcome, effort]
  | getattr c eid =>
    obtain ⟨-, rfl⟩ := Prod.mk.inj (Option.some.inj h)
    unfold execGetattr
    split <;> simp [Effort.outcome, effort]
  | _ => cases h; simp [Effort.outcome, effort]

/-- A procedure whose last call was answered is done. -/
theorem done_answered {ret : Status} {k : LockStateClient} {m : LockStateClient × ClientMove} :
    (acquireAnsweredAgain ret k = some m → ∃ b, m.2 = .done b) ∧
      (releaseAnswered ret k = some m → ∃ b, m.2 = .done b) ∧
        (revokeAnswered ret k = some m → ∃ b, m.2 = .done b) ∧
          (retryAnswered ret k = some m → ∃ b, m.2 = .done b) := by
  unfold acquireAnsweredAgain releaseAnswered revokeAnswered retryAnswered
  refine ⟨?_, ?_, ?_, ?_⟩ <;> intro h <;> split_ifs at h <;> cases h <;> exact ⟨_, rfl⟩

theorem effort_done {p : Proc} {x : Option (LockStateClient × ClientMove)}
    (hx : ∀ m, x = some m → ∃ b, m.2 = .done b) (h : x.map (leave s p c lid) = some (s', o)) :
    effort.outcome o < 1 := by
  obtain ⟨⟨k, mv⟩, hm, he⟩ := Option.map_eq_some_iff.mp h
  obtain ⟨b, rfl⟩ : ∃ b, mv = .done b := hx _ hm
  obtain ⟨-, rfl⟩ := Prod.mk.inj he
  cases b <;> exact Nat.one_pos

/-- A call that has been answered goes on with less to do. -/
theorem effort_resume (h : resume f v s = some (s', o)) : effort.outcome o < effort.frame f := by
  cases f with
  | acquireFirst c lid =>
    obtain ⟨m, hm, he⟩ := Option.map_eq_some_iff.mp h
    obtain ⟨-, rfl⟩ := Prod.mk.inj he
    unfold acquireAnswered at hm
    split_ifs at hm <;> cases hm <;> simp [againFrame, Effort.outcome, effort]
  | acquireSecond c lid => exact effort_done (fun m hm => done_answered.1 hm) h
  | releaseRpc c lid => exact effort_done (fun m hm => done_answered.2.1 hm) h
  | revokeRpc c lid => exact effort_done (fun m hm => done_answered.2.2.1 hm) h
  | retryRpc c lid => exact effort_done (fun m hm => done_answered.2.2.2 hm) h
  | releaseFlush | revokeFlush | serverRelease | getRpc | getattrRpc | createRpc =>
    cases h
    simp [Effort.outcome, effort]
  | serverAcquire | flushPut | flushRemove =>
    simp only [resume] at h
    split_ifs at h
    cases h
    simp [Effort.outcome, effort]

/-! ## Runs -/

/-- What holds in every state of the pools. -/
structure PoolsOk (lids : Finset LockId) (p : LockPools) : Prop where
  system : SystemOk p.system
  queue : QueueOk pools p
  lids : LidsOk lids p.system
  heads : HeadsOk p.system

/-- The locks that a run asks for. -/
def AsksFor (lids : Finset LockId) : LockPoolLabel → Prop
  | .inner _ lab => Uses lids lab
  | _ => True

variable {p p' : LockPools}

theorem PoolsOk.step (h : PoolsOk lids p) {l : LockPoolLabel}
    (hs : PoolStep machine (app P) pools p l p') (hl : AsksFor lids l) : PoolsOk lids p' := by
  refine ⟨?_, h.queue.step hs, ?_, ?_⟩ <;> cases hs with
  | arrive => first | exact h.system | exact h.lids | exact h.heads
  | dispatch _ _ _ hs =>
    first | exact h.system.step hs | exact h.lids.step hs (by simp [Uses, askedFor]) | exact h.heads.step h.system hs
  | inner hs =>
    first | exact h.system.step hs | exact h.lids.step hs hl | exact h.heads.step h.system hs

theorem PoolsOk.run (h : PoolsOk lids p) {tr : List LockPoolLabel}
    (hr : Run (PoolStep machine (app P) pools) p tr p') (hl : ∀ l ∈ tr, AsksFor lids l) :
    PoolsOk lids p' := by
  refine hr.history_invariant (I := fun tr p' => (∀ l ∈ tr, AsksFor lids l) → PoolsOk lids p')
    (fun _ => h) ?_ hl
  intro tr b l c _ ih hs hl
  exact (ih fun l' hl' => hl l' (List.mem_append_left _ hl')).step hs (hl l (by simp))

theorem poolsOk_idle (hg : Initial g) (lids : Finset LockId) : PoolsOk lids (idle g) where
  system := hg.systemOk
  queue := ⟨fun _ => List.nodup_nil, fun _ _ hi => by cases hi⟩
  lids := ⟨fun t ht lid hl => by simp [(hg.threads t ht).2.1] at hl,
    fun t ht a ha => by simp [(hg.threads t ht).1] at ha⟩
  heads t ht a ha := by simp [(hg.threads t ht).1] at ha

/-- As long as a call has taken a thread of the server and does not wait for the server, something
can go on elsewhere: the clients have a thread left. -/
theorem PoolsOk.progress (h : PoolsOk lids p) (hcard : lids.card < 6)
    (hstuck : ¬Stuck machine pools .server p.system) :
    ∃ tr p', Run (PoolStep machine (app P) pools) p tr p' ∧ (∀ i, .dispatch i .server ∉ tr) ∧
      PoolsOk lids p' ∧ effort.total p'.system < effort.total p.system := by
  simp only [Stuck, not_forall] at hstuck
  obtain ⟨t, ht, hload, hcalling⟩ := hstuck
  obtain ⟨i, hi⟩ := List.getElem?_of_mem ht
  have hfails := fun t ht => h.system.not_fails (t := t) ht
  obtain ⟨l, _ | ⟨q, k, fs⟩⟩ := t
  · cases hload
  have hinner : ∀ {lab : Label Empty Request Reply Frame Sleeper} {g' : System},
      Step machine (app P) p.system (i, lab) g' → (∀ r, lab = .ran r → host r = none) →
      Uses lids lab → effort.total g' < effort.total p.system →
      ∃ tr p', Run (PoolStep machine (app P) pools) p tr p' ∧ (∀ i, .dispatch i .server ∉ tr) ∧
        PoolsOk lids p' ∧ effort.total p'.system < effort.total p.system := by
    intro lab g' hs hlab huse hlt
    have hstep : PoolStep machine (app P) pools p (.inner i lab) ⟨g', p.queue⟩ := .inner hs hlab
    exact ⟨_, _, .single hstep, by simp, h.step hstep huse, hlt⟩
  cases k with
  | asleep w =>
    have hnil : fs = [] := frames_of_app (.inl ((h.system.threads _ ht).linked _ rfl).2.symm)
    subst hnil
    cases hload
  | reply v =>
    cases fs with
    | nil => cases hload
    | cons f fs =>
      obtain ⟨⟨s', o⟩, hx⟩ := Option.ne_none_iff_exists'.mp (hfails _ ht)
      have hs := step_set (A := app P) hi (.resume hx)
      exact hinner hs (by simp) (by simp [Uses, askedFor]) (Effort.total_lt_resume hs fun _ _ => effort_resume)
  | request r =>
    cases hr : host r with
    | none =>
      obtain ⟨s', o, hx, hs⟩ := step_of_not_fails (A := app P) hi (hfails _ ht)
      have hne : host r ≠ some .server := by simp [hr]
      refine hinner hs ?_ (by simp [Uses, askedFor]) (Effort.total_lt_exec hs fun _ _ hx => effort_exec hx hne)
      rintro r' ⟨⟩
      exact hr
    | some z =>
      cases z with
      | server => exact absurd ⟨_, rfl, r, rfl, hr⟩ hcalling
      | client c =>
        have hroom := (client_room h.system h.lids c).trans_lt hcard
        obtain ⟨tr, p', j, r', hrun, htr, hr', hs⟩ :=
          h.queue.serve_next (A := app P) hfails hi ⟨_, rfl, r, rfl, hr⟩ hroom
        have hne : host r' ≠ some .server := by
          rw [show host r' = some (.client c) from hr']
          simp
        refine ⟨tr, p', hrun, ?_, h.run hrun ?_,
          Effort.total_lt_exec hs fun _ _ hx => effort_exec hx hne⟩
        · rcases htr with rfl | rfl <;> simp
        · rcases htr with rfl | rfl <;> simp [AsksFor]

/-- With at most five locks, the six threads of the lock server are never all taken by calls of
which none can return before the server has served another one. -/
theorem few_locks_never_exhaust (hg : Initial g) (hcard : lids.card ≤ 5) {tr : List LockPoolLabel}
    (hr : Run (PoolStep machine (app P) pools) (idle g) tr p) (hl : ∀ l ∈ tr, AsksFor lids l) :
    ¬Exhausted machine (app P) pools .server p := by
  have hlt : lids.card < 6 := Nat.lt_succ_of_le hcard
  refine not_exhausted (I := PoolsOk lids) (fun p => effort.total p.system)
    ((poolsOk_idle hg lids).run hr hl) (fun p hp hstuck => hp.progress hlt hstuck) ?_
  intro p hp hstuck
  exact (occupied_of_stuck hp.system hp.heads hp.lids hstuck).trans_lt hlt

/-! ## As many locks as threads -/

/-- One thread of `A` and six of `B`. -/
def sixAndOne : System where
  shared := twoClients.shared
  threads := ⟨⟨clientA, []⟩, none⟩ :: List.replicate 6 ⟨⟨clientB, []⟩, none⟩

theorem sixAndOne_initial : Initial sixAndOne where
  server _ := rfl
  client _ _ := rfl
  threads := by simp [sixAndOne, clientA, clientB]

/-- `A` uses the locks `1 … n` and keeps them; each thread of `B` then asks for one of them, and the
revocation gets as far as the release. -/
def revocations (n : ℕ) : List (Choice Request) :=
  ((List.range n).flatMap fun i => alone 0 (Request.acquire clientA (.ofNat (i + 1))) 4 ++
      alone 0 (Request.release clientA (.ofNat (i + 1))) 2) ++
    (List.range n).flatMap fun i => alone (i + 1) (Request.acquire clientB (.ofNat (i + 1))) 5

def playRevocations (n : ℕ) : Option (List SystemLabel × System) :=
  playIf machine (allow fun _ _ => True) (fun l r _ => l.after r) (hasRoom machine pools)
    (revocations n) sixAndOne

theorem asksFor_served {tr : List SystemLabel} (h : ∀ x ∈ tr, Uses lids x.2) :
    ∀ l ∈ tr.flatMap (served pools), AsksFor lids l := by
  intro l hl
  obtain ⟨⟨i, lab⟩, hx, hl⟩ := List.mem_flatMap.mp hl
  have hinner : l = .inner i lab → AsksFor lids l := by
    rintro rfl
    exact h _ hx
  cases lab with
  | ran r =>
    cases hr : host r with
    | none => exact hinner (by simpa [served, pools, hr] using hl)
    | some z =>
      rcases (by simpa [served, pools, hr] using hl : l = .arrive i z ∨ l = .dispatch i z) with rfl | rfl <;>
        trivial
  | _ => exact hinner (List.mem_singleton.mp hl)

/-- Five locks are revoked at once; one thread of the server is left for the releases. -/
theorem few_locks_never_exhaust_five : ∃ tr p,
    Run (PoolStep machine (app fun _ _ => True) pools) (idle sixAndOne) tr p ∧
      occupied machine pools .server p.system = 5 ∧
        ¬Exhausted machine (app fun _ _ => True) pools .server p := by
  have hobs : (playRevocations 5).map (fun x => decide (occupied machine pools .server x.2 = 5 ∧
      ∀ l ∈ x.1, Uses {1, 2, 3, 4, 5} l.2)) = some true := by decide +kernel
  obtain ⟨⟨tr, g⟩, hp, hseen⟩ := Option.map_eq_some_iff.mp hobs
  obtain ⟨hfive, huses⟩ := of_decide_eq_true hseen
  have hr := run_served (run_playIf (A := app fun _ _ => True) begins_allow (fun _ _ _ => rfl) _ hp)
  exact ⟨_, _, hr, hfive,
    few_locks_never_exhaust sixAndOne_initial (by decide) hr (asksFor_served huses)⟩

/-- Six locks are enough: every thread of the server waits for a revocation, and every revocation
for a release that has no thread. -/
theorem six_locks_exhaust : Initial sixAndOne ∧ ∃ tr p,
    Run (PoolStep machine (app fun _ _ => True) pools) (idle sixAndOne) tr p ∧
      Exhausted machine (app fun _ _ => True) pools .server p := by
  have hobs : (playRevocations 6).map (fun x => decide (occupied machine pools .server x.2 = 6 ∧
      Stuck machine pools .server x.2)) = some true := by decide +kernel
  obtain ⟨⟨tr, g⟩, hp, hseen⟩ := Option.map_eq_some_iff.mp hobs
  obtain ⟨hfull, hstuck⟩ := of_decide_eq_true hseen
  have hr := run_playIf (A := app fun _ _ => True) begins_allow (fun _ _ _ => rfl) _ hp
  have hok := sixAndOne_initial.run_systemOk (hr.mono fun _ _ _ hs => hs.1)
  refine ⟨sixAndOne_initial, _, _, run_served hr, ?_⟩
  exact exhausted_of_stuck machine_lawful (fun t ht => (hok.threads t ht).linked) hfull hstuck

end Yfs.PoolExhaustion
