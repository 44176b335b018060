import Yfs.LockSafety

/-!
# Who may have an extent in its cache

A client may keep an extent cached as long as the server has it as the holder of the lock
and its `dorelease` has not run. No step but `dorelease` itself takes this right away,
so a cache that is emptied there is never left behind.
-/

namespace Yfs.CacheOwnership
open LabelledRuns LockProtocol ExtentClient CallStackMachines FileService LockPhases LockLedger
open LockSafety

/-- A release of `c` has gone past its `dorelease` and has not reached the server. -/
def Departed (c : ClientId) (M : Multiset (ClientId × Token)) : Prop :=
  (c, .release .evicted) ∈ M ∨ (c, .release .asked) ∈ M

theorem departed_add {c : ClientId} {M N : Multiset (ClientId × Token)} :
    Departed c (M + N) ↔ Departed c M ∨ Departed c N := by
  simp only [Departed, Multiset.mem_add]
  tauto

theorem departed_on {lid lid' : LockId} {c d : ClientId} {t : Token} :
    Departed c (on lid lid' d {t}) ↔
      lid' = lid ∧ d = c ∧ (t = .release .evicted ∨ t = .release .asked) := by
  unfold Departed on
  split_ifs with hl
  · simp only [Multiset.map_singleton, Multiset.mem_singleton, Prod.mk.injEq, hl, true_and]
    tauto
  · simp [hl]

/-- The server has `c` as the holder, and `c` may still have the extent cached. -/
def Keeper (s : LockStateServer) (M : Multiset (ClientId × Token)) (c : ClientId) : Prop :=
  (∃ b, role s c = .holder b) ∧ ¬ Departed c M

theorem Keeper.unique {s : LockStateServer} {M : Multiset (ClientId × Token)} {c d : ClientId}
    (hc : Keeper s M c) (hd : Keeper s M d) : c = d := by
  obtain ⟨⟨b, hb⟩, -⟩ := hc
  obtain ⟨⟨b', hb'⟩, -⟩ := hd
  exact role_holder_unique hb hb'

/-- Nobody loses the lock because somebody else asks for it. -/
theorem role_serverAcquire {s r : LockStateServer} {id d : ClientId} {ret : Status}
    {dest : Option ClientId} (h : serverAcquire s id = some (r, ret, dest))
    (hd : ∃ b, role s d = .holder b) : ∃ b, role r d = .holder b := by
  obtain ⟨b, hb⟩ := hd
  obtain ⟨hst, hid, -⟩ := role_eq_holder hb
  unfold serverAcquire at h
  rw [hst] at h
  dsimp only at h
  split_ifs at h <;> cases h <;> exact ⟨_, by rw [role, if_pos ⟨rfl, hid⟩]⟩

/-- Only the holder itself ends its own claim. -/
theorem role_serverRelease {s r : LockStateServer} {id d : ClientId} {dest : Option ClientId}
    (h : serverRelease s id = some (r, dest)) (hd : ∃ b, role s d = .holder b) : d = id := by
  obtain ⟨b, hb⟩ := hd
  obtain ⟨-, hid, -⟩ := role_eq_holder hb
  unfold serverRelease at h
  split_ifs at h with h1 h2
  exact hid.symm.trans (not_not.mp h2)

section
variable {s s' : Shared} {b : Base Request Frame} {p : Proc} {c d : ClientId} {lid lid' : LockId}
  {o : Ending}

/-- With a `lock_release_user`, a critical section of a client never skips the flush. -/
theorem not_departed_leave (hlu : s.lu d = true) (hb : b.calls machine = p.request d lid')
    (hg : Grounded b) {m : LockStateClient × ClientMove} (hm : p.CanMove m.2) :
    ¬ Departed c ((ledger lid).landed b (leave s p d lid' m).2) := by
  rw [landed_leave hb hg s hm]
  obtain ⟨r, mv⟩ := m
  cases mv with
  | done v =>
    simp only [moveTokens]
    split_ifs
    · simp [departed_on]
    · simp [on, Departed]
  | sleep => simp [moveTokens, on, Departed]
  | callRelease => simp [moveTokens, departed_on, hlu]
  | _ => simp [moveTokens, departed_on]

theorem not_departed_map (hlu : s.lu d = true) (hb : b.calls machine = p.request d lid')
    (hg : Grounded b) {x : Option (LockStateClient × ClientMove)}
    (hc : ∀ m, x = some m → p.CanMove m.2) (hx : x.map (leave s p d lid') = some (s', o)) :
    ¬ Departed c ((ledger lid).landed b o) ∧ s'.lockServer = s.lockServer := by
  obtain ⟨m, hm, he⟩ := Option.map_eq_some_iff.mp hx
  have hn : ¬Departed c ((ledger lid).landed b (leave s p d lid' m).2) :=
    not_departed_leave hlu hb hg (hc m hm)
  have hs := leave_lockServer s p d lid' m
  rw [he] at hn hs
  exact ⟨hn, hs⟩

theorem not_departed_lockAcquire (c : ClientId) (lid : LockId) (hb : b.calls machine = .lockAcquire lid' d) (hg : Grounded b)
    (hx : exec (.lockAcquire lid' d) s = some (s', o)) :
    ¬ Departed c ((ledger lid).landed b o) ∧
      ∃ r ret dest, serverAcquire (s.lockServer lid') d = some (r, ret, dest) ∧
        s'.lockServer = (s.setServer lid' r).lockServer := by
  simp only [exec, execLockAcquire] at hx
  split at hx
  · cases hx
  · next r ret he =>
    cases hx
    refine ⟨?_, r, ret, none, he, rfl⟩
    rcases link_lockAcquire hb hg with hl | hl <;>
      simp [Ledger.landed, Ledger.surface, ledger, top, hl, departed_on]
  · next r ret dest he =>
    cases hx
    refine ⟨?_, r, ret, some dest, he, rfl⟩
    rcases link_lockAcquire hb hg with hl | hl <;>
      simp only [Ledger.landed, Ledger.surface, ledger, hl] <;>
      simp [top, link, departed_add, departed_on]

theorem not_departed_lockRelease (c : ClientId) (lid : LockId) (hb : b.calls machine = .lockRelease lid' d) (hg : Grounded b)
    (hx : exec (.lockRelease lid' d) s = some (s', o)) :
    ¬ Departed c ((ledger lid).landed b o) ∧
      ∃ r dest, serverRelease (s.lockServer lid') d = some (r, dest) ∧
        s'.lockServer = (s.setServer lid' r).lockServer := by
  have hl := link_lockRelease hb hg
  simp only [exec, execLockRelease] at hx
  split at hx
  · cases hx
  · next r he =>
    cases hx
    refine ⟨?_, r, none, he, rfl⟩
    simp [Ledger.landed, Ledger.surface, ledger, top, hl, departed_on, stage]
  · next r dest he =>
    cases hx
    refine ⟨?_, r, some dest, he, rfl⟩
    simp only [Ledger.landed, Ledger.surface, ledger, hl]
    simp [top, link, departed_add, departed_on, stage]

variable {X : LockId → Multiset (ClientId × Token)}

/-- Tokens that do not depart leave the rest of the ledger to decide. -/
theorem Keeper.replace {r r' : LockStateServer} {M M' N : Multiset (ClientId × Token)}
    (h : Keeper r (M + N) c) (hr : (∃ b, role r c = .holder b) → ∃ b, role r' c = .holder b)
    (hd : Departed c M' → Departed c M) : Keeper r' (M' + N) c := by
  refine ⟨hr h.1, fun hn => h.2 ?_⟩
  rw [departed_add] at hn ⊢
  exact hn.imp_left hd

theorem keeper_exec {r : Request} (hlu : ∀ d, s.lu d = true) (hb : b.calls machine = r)
    (hg : Grounded b) (hx : exec r s = some (s', o)) (hr : r ≠ .dorelease c lid)
    (hk : Keeper (s.lockServer lid) ((ledger lid).surface (.request r) b + X lid) c) :
    Keeper (s'.lockServer lid) ((ledger lid).landed b o + X lid) c := by
  by_cases he : IsExtent r
  · obtain ⟨s₁, o₁, hx₁, hs, -, ho⟩ := exec_extent he s
    obtain ⟨rfl, rfl⟩ := Prod.mk.inj (Option.some.inj (hx₁.symm.trans hx))
    rw [hs, landed_light he hb ho lid (.control (.request r))]
    exact hk.replace id fun hd => departed_add.mpr (.inr hd)
  · have hclient : ¬ Departed c ((ledger lid).landed b o) ∧ s'.lockServer = s.lockServer →
        Keeper (s'.lockServer lid) ((ledger lid).landed b o + X lid) c := by
      rintro ⟨hn, hs⟩
      rw [hs]
      exact hk.replace id fun hd => absurd hd hn
    cases r with
    | acquire d lid' =>
      exact hclient (not_departed_map (p := .acquire) (x := some _) (hlu d) hb hg
        (by rintro m ⟨⟩; exact canMove_acquireStart _) hx)
    | release d lid' =>
      exact hclient (not_departed_map (p := .release) (hlu d) hb hg (fun m hm => canMove_start.1 hm) hx)
    | revoke d lid' =>
      exact hclient (not_departed_map (p := .revoke) (hlu d) hb hg (fun m hm => canMove_start.2.1 hm) hx)
    | retry d lid' =>
      exact hclient (not_departed_map (p := .retry) (hlu d) hb hg (fun m hm => canMove_start.2.2 hm) hx)
    | lockAcquire lid' d =>
      obtain ⟨hn, r, ret, dest, ha, hs⟩ := not_departed_lockAcquire c lid hb hg hx
      rw [hs]
      refine hk.replace (fun hh => ?_) fun hd => absurd hd hn
      by_cases hl : lid = lid'
      · subst hl
        simpa [Shared.setServer] using role_serverAcquire ha hh
      · simpa [Shared.setServer, hl] using hh
    | lockRelease lid' d =>
      obtain ⟨hn, r, dest, ha, hs⟩ := not_departed_lockRelease c lid hb hg hx
      rw [hs]
      refine hk.replace (fun hh => ?_) fun hd => absurd hd hn
      by_cases hl : lid = lid'
      · -- the holder itself is asking, so it has departed
        subst hl
        obtain rfl := role_serverRelease ha hh
        refine absurd (departed_add.mpr (.inl (.inr ?_))) hk.2
        simp [Ledger.surface, ledger, top, link_lockRelease hb hg, stage]
      · simpa [Shared.setServer, hl] using hh
    | dorelease d lid' =>
      have hs := (execFlush_locks s d lid').1
      have hl := landed_execFlush (s := s) hb hg lid
      rw [Option.some.inj hx] at hs hl
      rw [hs, hl]
      refine hk.replace id fun hd => ?_
      obtain ⟨rfl, rfl, -⟩ := departed_on.mp hd
      exact absurd rfl hr
    | _ => exact absurd trivial he

theorem keeper_resume {f : Frame} {v : Reply} (hlu : ∀ d, s.lu d = true)
    (hb : b.calls machine = serves f) (hg : Grounded b) (hx : resume f v s = some (s', o))
    (hk : Keeper (s.lockServer lid)
      ((ledger lid).surface (.reply v) (.frame f) + (link lid (.frame f) b + X lid)) c) :
    Keeper (s'.lockServer lid) ((ledger lid).landed b o + X lid) c := by
  rw [surface_reply, ← add_assoc] at hk
  have hclient : ¬ Departed c ((ledger lid).landed b o) ∧ s'.lockServer = s.lockServer →
      Keeper (s'.lockServer lid) ((ledger lid).landed b o + X lid) c := by
    rintro ⟨hn, hs⟩
    rw [hs]
    exact hk.replace id fun hd => absurd hd hn
  have hret : ∀ v', s'.lockServer = s.lockServer → o = .ret v' →
      link lid (.control (.reply v')) b = link lid (.frame f) b →
      Keeper (s'.lockServer lid) ((ledger lid).landed b o + X lid) c := by
    rintro v' hs rfl hl
    rw [hs]
    refine hk.replace id fun hd => departed_add.mpr (.inr ?_)
    rwa [← hl, ← surface_reply]
  cases f with
  | acquireFirst d lid' =>
    exact hclient (not_departed_map (p := .acquire) (hlu d) hb hg
      (fun m hm => canMove_answered.1 hm) hx)
  | acquireSecond d lid' =>
    exact hclient (not_departed_map (p := .acquire) (hlu d) hb hg
      (fun m hm => canMove_answered.2.1 hm) hx)
  | releaseRpc d lid' =>
    exact hclient (not_departed_map (p := .release) (hlu d) hb hg
      (fun m hm => canMove_answered.2.2.1 hm) hx)
  | revokeRpc d lid' =>
    exact hclient (not_departed_map (p := .revoke) (hlu d) hb hg
      (fun m hm => canMove_answered.2.2.2.1 hm) hx)
  | retryRpc d lid' =>
    exact hclient (not_departed_map (p := .retry) (hlu d) hb hg
      (fun m hm => canMove_answered.2.2.2.2 hm) hx)
  | releaseFlush d lid' =>
    cases hx
    refine hk.replace id fun hd => departed_add.mpr (.inl ?_)
    have hl := link_proc (p := .release) hb hg lid (.frame (.releaseRpc d lid'))
    simpa [Ledger.landed, Ledger.surface, ledger, top, hl, procLink, departed_on, stage,
      flushStage] using hd
  | revokeFlush d lid' =>
    cases hx
    refine hk.replace id fun hd => departed_add.mpr (.inl ?_)
    have hl := link_proc (p := .revoke) hb hg lid (.frame (.revokeRpc d lid'))
    simpa [Ledger.landed, Ledger.surface, ledger, top, hl, procLink, departed_on, stage,
      flushStage] using hd
  | serverAcquire lid' id ret dest =>
    simp only [resume] at hx
    split_ifs at hx
    cases hx
    refine hret _ rfl rfl ?_
    rcases link_lockAcquire hb hg with hl | hl <;> simp [hl, answer]
  | serverRelease lid' id dest =>
    cases hx
    refine hret _ rfl rfl ?_
    simp [link_lockRelease hb hg, stage]
  | getRpc d eid | getattrRpc d eid | createRpc d type =>
    cases hx
    refine hret _ rfl rfl (link_extent ?_ hb lid _ _)
    trivial
  | flushPut d eid buf | flushRemove d eid =>
    simp only [resume] at hx
    split_ifs at hx
    cases hx
    refine hret _ rfl rfl ?_
    simp [link_dorelease hb hg, flushStage]

theorem keeper_wake {w : Sleeper} (hlu : ∀ d, s.lu d = true)
    (hb : b.calls machine = .acquire w.client w.lid) (hg : Grounded b)
    (hx : wake w s = some (s', o)) {M : Multiset (ClientId × Token)}
    (hk : Keeper (s.lockServer lid) (M + X lid) c) :
    Keeper (s'.lockServer lid) ((ledger lid).landed b o + X lid) c := by
  obtain ⟨hn, hs⟩ : ¬Departed c ((ledger lid).landed b o) ∧ s'.lockServer = s.lockServer :=
    not_departed_map (p := .acquire) (x := some _) (hlu w.client) hb hg
      (by rintro m ⟨⟩; exact canMove_acquireWoken _) hx
  rw [hs]
  exact hk.replace id fun hd => absurd hd hn

end

/-! ## Along the steps of the system -/

variable {P : Local → Request → Prop} {g g' : System}

/-- Client `c` may have extent `eid` cached. -/
def MayCache (g : System) (c : ClientId) (eid : ExtentId) : Prop :=
  Keeper (g.shared.lockServer eid) ((ledger eid).total g) c

theorem keeper_step {s s' : Shared} {t t' : AppThread} {c : ClientId} {eid : ExtentId}
    {lab : Label Empty Request Reply Frame Sleeper} {N : Multiset (ClientId × Token)}
    (ht : ThreadOk t) (hlu : ∀ d, s.lu d = true) (hs : ThreadStep machine (app P) s t lab s' t')
    (hl : lab ≠ .ran (.dorelease c eid))
    (h : Keeper (s.lockServer eid) ((ledger eid).thread t + N) c) :
    Keeper (s'.lockServer eid) ((ledger eid).thread t' + N) c := by
  have hland : ∀ (l : Local) q fs (o : Ending),
      (ledger eid).thread ⟨l, some (.land q fs o)⟩ + N =
        (ledger eid).landed (base q fs) o + around (fun _ => N) l q fs eid := fun l q fs o => by
    simp only [around, Ledger.thread, Option.map_some, Option.getD_some, Ledger.activity_land]
    ac_rfl
  cases hs with
  | think hx => exact hx.elim
  | begins hx => rwa [thread_begins hx]
  | @ended l q v l' hx =>
    obtain rfl : l' = l.after q := hx
    rwa [thread_ended (v := v) (ht.root _ rfl)]
  | exec hx =>
    rw [hland]
    refine keeper_exec hlu ht.calls_base.symm ht.grounded hx (fun he => hl (he ▸ rfl)) ?_
    convert h using 1
    simp only [around, Ledger.thread, Ledger.activity, Option.map_some, Option.getD_some]
    ac_rfl
  | @resume l q v f fs s' o hx =>
    rw [hland]
    obtain ⟨⟨hf, -⟩, -⟩ := ht.linked _ rfl
    refine keeper_resume hlu ?_ (grounded_base (ht.root _ rfl) fs) hx ?_
    · rw [Base.calls_base]
      exact hf.symm
    · convert h using 1
      simp only [around, Ledger.thread, Ledger.activity, Option.map_some, Option.getD_some,
        Ledger.deep, base]
      simp only [ledger]
      ac_rfl
  | @wake l q w fs s' o hx =>
    rw [hland]
    refine keeper_wake hlu ht.calls_base.symm ht.grounded hx
      (M := (ledger eid).surface (.asleep w) (base q fs)) ?_
    convert h using 1
    simp only [around, Ledger.thread, Ledger.activity, Option.map_some, Option.getD_some]
    ac_rfl

/-- Only its own `dorelease` takes the right to cache away from a client. -/
theorem mayCache_step {i : ℕ} {lab : Label Empty Request Reply Frame Sleeper} {c : ClientId}
    {eid : ExtentId} (hg : SystemOk g) (hlu : ∀ d, g.shared.lu d = true)
    (hs : Step machine (app P) g (i, lab) g') (hl : lab ≠ .ran (.dorelease c eid))
    (h : MayCache g c eid) : MayCache g' c eid := by
  cases hs with
  | @mk s s' t t' lab pre post hs =>
    unfold MayCache at h ⊢
    rw [Ledger.total_split] at h ⊢
    exact keeper_step (hg.threads t (by simp)) hlu hs hl h

/-- A thread that was given the lock belongs to the client that may cache the extent. -/
theorem mayCache_of_held {t : AppThread} {eid : ExtentId} (hg : SystemOk g) (ht : t ∈ g.threads)
    (he : eid ∈ t.loc.held) : MayCache g t.loc.client eid := by
  have hm : (t.loc.client, Token.hold) ∈ (ledger eid).total g :=
    Ledger.mem_total ht (Multiset.mem_add.mpr (.inl
      (Multiset.mem_replicate.mpr ⟨(List.count_pos_iff.mpr he).ne', rfl⟩)))
  have hp := (hg.locks eid).phase t.loc.client
  have hnone := hp.no_release_of_hold (mem_tokensOf hm)
  exact ⟨(hp.holder_of_hold (mem_tokensOf hm)).2,
    fun hd => hd.elim (fun h => hnone _ (mem_tokensOf h)) fun h => hnone _ (mem_tokensOf h)⟩

end Yfs.CacheOwnership
