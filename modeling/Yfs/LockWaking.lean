import Yfs.LockSafety

/-!
# Sleeping threads

A thread that finds its lock taken sleeps on the condition variable of its client until
somebody broadcasts. Which critical sections broadcast, and which do not, decides whether a
sleeper is ever woken.
-/

namespace Yfs.LockWaking
open LabelledRuns LockProtocol ExtentClient CallStackMachines FileService LockPhases LockLedger
open LockSafety Schedules

/-- A thread of the system sleeps in `acquire`. -/
def Asleep (g : System) (w : Sleeper) : Prop :=
  ∃ t ∈ g.threads, ∃ a ∈ t.busy, a.control = .asleep w

/-- There was a broadcast since the thread fell asleep. -/
def Notified (s : Shared) (w : Sleeper) : Prop := w.seen < s.broadcasts w.client

instance (s : Shared) (w : Sleeper) : Decidable (Notified s w) := Nat.decLt _ _

/-- The lock is cached and not in use, or is not cached at all. -/
def Takeable (r : LockStateClient) : Prop := r.state = .none ∨ r.state = .owned

/-! ## What a step does to the clients -/

abbrev StepLabel := Label Empty Request Reply Frame Sleeper

/-- The critical sections of the client code, by the label of their step: the record they
find, the record they leave and how they let go of the mutex. -/
inductive Section : Proc → ClientId → LockId → StepLabel → LockStateClient →
    LockStateClient × ClientMove → Prop where
  | acquireStart (c lid r) : Section .acquire c lid (.ran (.acquire c lid)) r (acquireStart r)
  | acquireWoken (w r) : Section .acquire w.client w.lid (.woke w) r (acquireWoken r)
  | acquireAnswered {c lid v r m} (h : acquireAnswered v.ret r = some m) :
      Section .acquire c lid (.resumed (.acquireFirst c lid) v) r m
  | acquireAnsweredAgain {c lid v r m} (h : acquireAnsweredAgain v.ret r = some m) :
      Section .acquire c lid (.resumed (.acquireSecond c lid) v) r m
  | releaseStart {c lid r m} (h : releaseStart r = some m) :
      Section .release c lid (.ran (.release c lid)) r m
  | releaseAnswered {c lid v r m} (h : releaseAnswered v.ret r = some m) :
      Section .release c lid (.resumed (.releaseRpc c lid) v) r m
  | revokeStart {c lid r m} (h : revokeStart r = some m) :
      Section .revoke c lid (.ran (.revoke c lid)) r m
  | revokeAnswered {c lid v r m} (h : revokeAnswered v.ret r = some m) :
      Section .revoke c lid (.resumed (.revokeRpc c lid) v) r m
  | retryStart {c lid r m} (h : retryStart r = some m) :
      Section .retry c lid (.ran (.retry c lid)) r m
  | retryAnswered {c lid v r m} (h : retryAnswered v.ret r = some m) :
      Section .retry c lid (.resumed (.retryRpc c lid) v) r m

theorem not_takeable_acquireStart (r : LockStateClient) : ¬ Takeable (acquireStart r).1 := by
  unfold acquireStart
  split_ifs with ho
  · simp [Takeable]
  · unfold acquireLoop
    split_ifs with hn <;> simp [Takeable, ho, hn]

variable {p : Proc} {c : ClientId} {lid : LockId} {lab : StepLabel} {r : LockStateClient}
  {m : LockStateClient × ClientMove}

/-- Whoever falls asleep leaves a lock that cannot be taken. -/
theorem Section.sleeps (h : Section p c lid lab r m) (hm : m.2 = .sleep) : ¬ Takeable m.1 := by
  cases h with
  | acquireStart => exact not_takeable_acquireStart r
  | acquireWoken =>
    rw [acquireWoken_eq]
    exact not_takeable_acquireStart r
  | acquireAnswered h =>
    unfold LockProtocol.acquireAnswered at h
    split_ifs at h <;> cases h <;> simp [Takeable]
  | acquireAnsweredAgain h =>
    unfold LockProtocol.acquireAnsweredAgain at h
    split_ifs at h
    cases h
    cases hm
  | releaseStart h =>
    unfold LockProtocol.releaseStart at h
    split_ifs at h <;> cases h <;> cases hm
  | releaseAnswered h =>
    unfold LockProtocol.releaseAnswered at h
    split_ifs at h
    cases h
    cases hm
  | revokeStart h =>
    unfold LockProtocol.revokeStart at h
    split_ifs at h <;> cases h <;> cases hm
  | revokeAnswered h =>
    unfold LockProtocol.revokeAnswered at h
    split_ifs at h
    cases h
    cases hm
  | retryStart h =>
    unfold LockProtocol.retryStart at h
    split_ifs at h <;> cases h <;> cases hm
  | retryAnswered h =>
    unfold LockProtocol.retryAnswered at h
    split_ifs at h
    cases h
    cases hm

/-- Whoever makes a lock takeable wakes all sleepers, except at the end of `release`. -/
theorem Section.wakes (h : Section p c lid lab r m) (hm : Takeable m.1) :
    m.2 = .done true ∨ ∃ v, lab = .resumed (.releaseRpc c lid) v := by
  cases h with
  | acquireStart => exact absurd hm (not_takeable_acquireStart r)
  | acquireWoken =>
    rw [acquireWoken_eq] at hm
    exact absurd hm (not_takeable_acquireStart r)
  | acquireAnswered h =>
    unfold LockProtocol.acquireAnswered at h
    split_ifs at h <;> cases h <;> simp [Takeable] at hm
  | acquireAnsweredAgain h =>
    unfold LockProtocol.acquireAnsweredAgain at h
    split_ifs at h
    cases h
    simp [Takeable] at hm
  | releaseStart h =>
    unfold LockProtocol.releaseStart at h
    split_ifs at h <;> cases h
    · exact .inl rfl
    · simp [Takeable] at hm
  | releaseAnswered h => exact .inr ⟨_, rfl⟩
  | revokeStart h =>
    unfold LockProtocol.revokeStart at h
    split_ifs at h with h1 h2 h3 <;> cases h <;> simp [Takeable, h1, h3] at hm
  | revokeAnswered h =>
    unfold LockProtocol.revokeAnswered at h
    split_ifs at h
    cases h
    exact .inl rfl
  | retryStart h =>
    unfold LockProtocol.retryStart at h
    split_ifs at h with h1 h2 h3 <;> cases h <;> simp [Takeable, *] at hm
  | retryAnswered h =>
    unfold LockProtocol.retryAnswered at h
    split_ifs at h
    cases h
    exact .inl rfl

/-- The labels of steps that take a thread out of `acquire`, or let it sleep on. -/
def Leaves (lab : StepLabel) : Prop :=
  (∃ w, lab = .woke w) ∨ ∃ c lid v, lab = .resumed (.acquireSecond c lid) v

/-- A piece of code leaves the records of the clients alone and does not fall asleep, or is a
critical section of one of them. -/
def Moves (s : Shared) (lab : StepLabel) (x : Shared × Ending) : Prop :=
  (x.1.lockClient = s.lockClient ∧ x.1.broadcasts = s.broadcasts ∧ (∀ w, x.2 ≠ .wait w) ∧
      ¬ Leaves lab) ∨
    ∃ p c lid m, Section p c lid lab (s.lockClient c lid) m ∧ leave s p c lid m = x

variable {s s' : Shared} {o : Ending} {P : Local → Request → Prop}

theorem moves_map {y : Option (LockStateClient × ClientMove)}
    (hy : ∀ m, y = some m → Section p c lid lab (s.lockClient c lid) m)
    (h : y.map (leave s p c lid) = some (s', o)) : Moves s lab (s', o) := by
  obtain ⟨m, hm, he⟩ := Option.map_eq_some_iff.mp h
  exact .inr ⟨p, c, lid, m, hy m hm, he⟩

theorem moves_nothing (h1 : s'.lockClient = s.lockClient) (h2 : s'.broadcasts = s.broadcasts)
    (h3 : ∀ w, o ≠ .wait w) (h4 : ¬ Leaves lab) : Moves s lab (s', o) :=
  .inl ⟨h1, h2, h3, h4⟩

theorem moves_exec {q : Request} (h : exec q s = some (s', o)) : Moves s (.ran q) (s', o) := by
  have hl : ¬ Leaves (.ran q) := by simp [Leaves]
  cases q with
  | acquire c lid => exact .inr ⟨.acquire, c, lid, _, .acquireStart c lid _, Option.some.inj h⟩
  | release c lid => exact moves_map (fun m hm => .releaseStart hm) h
  | revoke c lid => exact moves_map (fun m hm => .revokeStart hm) h
  | retry c lid => exact moves_map (fun m hm => .retryStart hm) h
  | lockAcquire lid id =>
    simp only [exec, execLockAcquire] at h
    split at h <;> cases h <;> exact moves_nothing rfl rfl (by simp) hl
  | lockRelease lid id =>
    simp only [exec, execLockRelease] at h
    split at h <;> cases h <;> exact moves_nothing rfl rfl (by simp) hl
  | dorelease c lid =>
    simp only [exec, execFlush] at h
    split at h
    · cases h
      exact moves_nothing rfl rfl (by simp) hl
    · split_ifs at h <;> cases h <;> exact moves_nothing rfl rfl (by simp) hl
  | get c eid =>
    simp only [exec, execGet] at h
    split at h <;> cases h <;> exact moves_nothing rfl rfl (by simp) hl
  | getattr c eid =>
    simp only [exec, execGetattr] at h
    split at h <;> cases h <;> exact moves_nothing rfl rfl (by simp) hl
  | _ =>
    cases h
    exact moves_nothing rfl rfl (by simp) hl

theorem moves_resume {f : Frame} {v : Reply} (h : resume f v s = some (s', o)) :
    Moves s (.resumed f v) (s', o) := by
  cases f with
  | acquireFirst c lid => exact moves_map (fun m hm => .acquireAnswered hm) h
  | acquireSecond c lid => exact moves_map (fun m hm => .acquireAnsweredAgain hm) h
  | releaseRpc c lid => exact moves_map (fun m hm => .releaseAnswered hm) h
  | revokeRpc c lid => exact moves_map (fun m hm => .revokeAnswered hm) h
  | retryRpc c lid => exact moves_map (fun m hm => .retryAnswered hm) h
  | serverAcquire | flushPut | flushRemove =>
    simp only [resume] at h
    split_ifs at h
    cases h
    exact moves_nothing rfl rfl (by simp) (by simp [Leaves])
  | _ =>
    cases h
    exact moves_nothing rfl rfl (by simp) (by simp [Leaves])

theorem moves_wake {w : Sleeper} (h : wake w s = some (s', o)) : Moves s (.woke w) (s', o) :=
  .inr ⟨.acquire, w.client, w.lid, _, .acquireWoken w _, Option.some.inj h⟩

theorem leave_broadcasts (s : Shared) (p : Proc) (c : ClientId) (lid : LockId)
    (m : LockStateClient × ClientMove) (d : ClientId) :
    (leave s p c lid m).1.broadcasts d =
      s.broadcasts d + if d = c ∧ m.2 = .done true then 1 else 0 := by
  obtain ⟨r, mv⟩ := m
  cases mv with
  | done v =>
    cases v with
    | false => simp [leave, Shared.setClient]
    | true =>
      by_cases hd : d = c
      · subst hd
        simp [leave, Shared.setClient, Shared.broadcast]
      · simp [leave, Shared.setClient, Shared.broadcast, hd]
  | _ => simp [leave, Shared.setClient]

theorem leave_wait {w : Sleeper} (h : (leave s p c lid m).2 = .wait w) :
    m.2 = .sleep ∧ w = ⟨c, lid, s.broadcasts c⟩ := by
  obtain ⟨r, mv⟩ := m
  cases mv with
  | done v => cases v <;> cases h
  | callRelease =>
    simp only [leave, callRelease] at h
    split at h <;> cases h
  | sleep =>
    cases h
    exact ⟨rfl, rfl⟩
  | _ => cases h

theorem leave_record (s : Shared) (p : Proc) (c : ClientId) (lid : LockId)
    (m : LockStateClient × ClientMove) (d : ClientId) (k : LockId) :
    (leave s p c lid m).1.lockClient d k = if d = c ∧ k = lid then m.1 else s.lockClient d k := by
  rw [leave_lockClient]
  unfold Shared.setClient
  by_cases hd : d = c
  · subst hd
    by_cases hk : k = lid
    · subst hk
      simp
    · simp [hk]
  · simp [hd]

theorem Moves.broadcasts_le {x : Shared × Ending} (h : Moves s lab x) (d : ClientId) :
    s.broadcasts d ≤ x.1.broadcasts d := by
  rcases h with ⟨-, hb, -⟩ | ⟨p, c, lid, m, -, rfl⟩
  · rw [hb]
  · rw [leave_broadcasts]
    omega

variable {pre post : List AppThread} {t t' : AppThread}

/-- Every step either starts or ends a call, which touches no record, or lands somewhere. -/
theorem step_moves (h : ThreadStep machine (app P) s t lab s' t') :
    (s' = s ∧ (∀ a ∈ t'.busy, ∀ w, a.control ≠ .asleep w) ∧ ¬ Leaves lab) ∨
      ∃ l q fs o, t' = ⟨l, some (.land q fs o)⟩ ∧ Moves s lab (s', o) := by
  cases h with
  | think h => exact h.elim
  | begins h => exact .inl ⟨rfl, (by rintro a ⟨⟩ w hw; cases hw), by simp [Leaves]⟩
  | ended h => exact .inl ⟨rfl, (by rintro a ⟨⟩), by simp [Leaves]⟩
  | exec h => exact .inr ⟨_, _, _, _, rfl, moves_exec h⟩
  | resume h => exact .inr ⟨_, _, _, _, rfl, moves_resume h⟩
  | wake h => exact .inr ⟨_, _, _, _, rfl, moves_wake h⟩

theorem land_asleep {q : Request} {fs : List Frame} {w : Sleeper}
    (h : (Activity.land q fs o).control = .asleep w) : o = .wait w := by
  cases o <;> cases h
  rfl

/-- A sleeper after a step slept before, or has just fallen asleep. -/
theorem Asleep.cases (s : Shared) (t : AppThread) {w : Sleeper}
    (h : Asleep ⟨s', pre ++ t' :: post⟩ w) :
    (∃ a ∈ t'.busy, a.control = .asleep w) ∨ Asleep ⟨s, pre ++ t :: post⟩ w := by
  obtain ⟨u, hu, hw⟩ := h
  simp only [List.mem_append, List.mem_cons] at hu
  rcases hu with hu | rfl | hu
  · exact .inr ⟨u, by simp [hu], hw⟩
  · exact .inl hw
  · exact .inr ⟨u, by simp [hu], hw⟩

/-! ## Nobody oversleeps -/

/-- No sleeper has seen a broadcast of the future. -/
def Timely (g : System) : Prop := ∀ w, Asleep g w → w.seen ≤ g.shared.broadcasts w.client

/-- Every sleeper has been told, once its lock can be taken. -/
def Told (g : System) : Prop :=
  ∀ w, Asleep g w → Takeable (g.shared.lockClient w.client w.lid) → Notified g.shared w

/-- `release` does not broadcast when the server has taken the lock back. This is harmless in
a state where no thread of the client is left asleep for it. -/
def Harmless (g : System) (lab : SystemLabel) : Prop :=
  ∀ c lid v, lab.2 = .resumed (.releaseRpc c lid) v →
    ∀ w, Asleep g w → w.client = c → w.lid = lid → Notified g.shared w

theorem Timely.step {g g' : System} {lab : SystemLabel} (h : Timely g)
    (hs : Step machine (app P) g lab g') : Timely g' := by
  cases hs with
  | @mk s s' t t' lab pre post hs =>
    intro w hw
    rcases step_moves hs with ⟨rfl, hno, -⟩ | ⟨l, q, fs, o, rfl, hm⟩
    · rcases hw.cases s' t with ⟨a, ha, hc⟩ | hslept
      · exact absurd hc (hno a ha w)
      · exact h w hslept
    · rcases hw.cases s t with ⟨a, ha, hc⟩ | hslept
      · cases ha
        have hle := hm.broadcasts_le
        obtain rfl := land_asleep hc
        rcases hm with ⟨-, -, hno, -⟩ | ⟨p, c, lid, m, -, he⟩
        · exact absurd rfl (hno w)
        · obtain ⟨-, rfl⟩ := leave_wait (congrArg Prod.snd he)
          exact hle c
      · exact (h w hslept).trans (hm.broadcasts_le w.client)

theorem Told.step {g g' : System} {lab : SystemLabel} (h : Told g) (htime : Timely g)
    (hs : Step machine (app P) g lab g') (hlab : Harmless g lab) : Told g' := by
  cases hs with
  | @mk s s' t t' lab pre post hs =>
    intro w hw htake
    rcases step_moves hs with ⟨rfl, hno, -⟩ | ⟨l, q, fs, o, rfl, hm⟩
    · rcases hw.cases s' t with ⟨a, ha, hc⟩ | hslept
      · exact absurd hc (hno a ha w)
      · exact h w hslept htake
    · have hle := hm.broadcasts_le
      rcases hw.cases s t with ⟨a, ha, hc⟩ | hslept
      · -- a thread that falls asleep leaves a lock that is taken
        cases ha
        obtain rfl := land_asleep hc
        rcases hm with ⟨-, -, hno, -⟩ | ⟨p, c, lid, m, hsec, he⟩
        · exact absurd rfl (hno w)
        · obtain ⟨hsleep, rfl⟩ := leave_wait (congrArg Prod.snd he)
          obtain rfl : s' = (leave s p c lid m).1 := (congrArg Prod.fst he).symm
          simp only [leave_record, and_self, if_true] at htake
          exact absurd htake (hsec.sleeps hsleep)
      · rcases hm with ⟨hrec, hb, -⟩ | ⟨p, c, lid, m, hsec, he⟩
        · simp only at hrec hb
          simp only [hrec] at htake
          exact lt_of_lt_of_eq (h w hslept htake) (congrFun hb w.client).symm
        · obtain rfl : s' = (leave s p c lid m).1 := (congrArg Prod.fst he).symm
          simp only [leave_record] at htake
          split_ifs at htake with hwc
          · -- the section that makes the lock takeable broadcasts, or was harmless
            rcases hsec.wakes htake with hdone | ⟨v, rfl⟩
            · unfold Notified
              rw [leave_broadcasts, if_pos ⟨hwc.1, hdone⟩]
              exact Nat.lt_succ_of_le (htime w hslept)
            · exact lt_of_lt_of_le (hlab c lid v rfl w hslept hwc.1 hwc.2) (hle w.client)
          · exact lt_of_lt_of_le (h w hslept htake) (hle w.client)

theorem Initial.not_asleep {g : System} (h : Initial g) (w : Sleeper) : ¬ Asleep g w := by
  rintro ⟨t, ht, a, ha, -⟩
  simp [(h.threads t ht).1] at ha

theorem Initial.run_timely {g g' : System} (hg : Initial g) {tr : List SystemLabel}
    (hr : Run (Step machine (app P)) g tr g') : Timely g' :=
  hr.invariant (fun w hw => absurd hw (Initial.not_asleep hg w)) fun _ _ _ h hs => h.step hs

/-- No thread of client `c` can go on with its `acquire` or `release` of the lock. -/
def AtRest (g : System) (c : ClientId) (lid : LockId) : Prop :=
  ∀ t ∈ g.threads, ∀ a ∈ t.busy, a.root = .acquire c lid ∨ a.root = .release c lid →
    ∃ w, a.control = .asleep w ∧ ¬ Notified g.shared w

theorem asleep_root {a : Activity Request Reply Frame Sleeper} {w : Sleeper}
    (h : machine.Linked a) (hw : a.control = .asleep w) : a.root = .acquire w.client w.lid := by
  obtain ⟨q, k, fs⟩ := a
  obtain rfl : k = .asleep w := hw
  obtain ⟨-, hk⟩ := h
  cases fs with
  | nil => exact hk.symm
  | cons f fs => cases f <;> cases hk

/-- As long as every `release` that ends at the server is harmless, a client that has the lock
to give, or can ask for it, has no thread asleep that nobody will wake. -/
theorem nobody_left_asleep {g g' : System} (hg : Initial g) {tr : List SystemLabel}
    (hr : Run (fun a lab b => Step machine (app P) a lab b ∧ Harmless a lab) g tr g')
    (c : ClientId) (lid : LockId) (htake : Takeable (g'.shared.lockClient c lid))
    (hrest : AtRest g' c lid) : ¬ ∃ w, Asleep g' w ∧ w.client = c ∧ w.lid = lid := by
  have htold : Timely g' ∧ Told g' := by
    apply hr.invariant (I := fun a => Timely a ∧ Told a)
    · exact ⟨fun w hw => absurd hw (Initial.not_asleep hg w),
        fun w hw => absurd hw (Initial.not_asleep hg w)⟩
    · intro a lab b ha hs
      exact ⟨ha.1.step hs.1, ha.2.step ha.1 hs.1 hs.2⟩
  have hsys : SystemOk g' := hg.run_systemOk (hr.mono fun _ _ _ hs => hs.1)
  rintro ⟨w, hw, rfl, rfl⟩
  have hnotified := htold.2 w hw htake
  obtain ⟨t, ht, a, ha, hc⟩ := hw
  have hroot := asleep_root ((hsys.threads t ht).linked a ha) hc
  obtain ⟨w', hc', hnot⟩ := hrest t ht a ha (.inl hroot)
  obtain rfl : w = w' := by
    rw [hc] at hc'
    exact Control.asleep.inj hc'
  exact hnot hnotified

/-! ### Two threads of one client -/

/-- Two threads of client `A` and one of client `B`. -/
def threeThreads : System where
  shared := twoClients.shared
  threads := [⟨⟨clientA, []⟩, none⟩, ⟨⟨clientA, []⟩, none⟩, ⟨⟨clientB, []⟩, none⟩]

theorem threeThreads_initial : Initial threeThreads where
  server _ := rfl
  client _ _ := rfl
  threads := by simp [threeThreads, clientA, clientB]

/-- Nobody wakes up without a broadcast. -/
def promptly (g : System) (lab : SystemLabel) : Bool :=
  match lab.2 with
  | .woke w => decide (Notified g.shared w)
  | _ => true

/-- Nobody wakes up without a broadcast, and no `release` ends at the server. -/
def locally (g : System) (lab : SystemLabel) : Bool :=
  promptly g lab && match lab.2 with
    | .resumed (.releaseRpc _ _) _ => false
    | _ => true

theorem harmless_locally {g : System} {lab : SystemLabel} (h : locally g lab = true) :
    Harmless g lab := by
  intro c lid v hlab
  obtain ⟨i, lab⟩ := lab
  obtain rfl : lab = .resumed (.releaseRpc c lid) v := hlab
  cases h

/-- Where the threads of a system sleep. -/
def sleepers (g : System) : List (Option (Option Sleeper)) :=
  g.threads.map fun t => t.busy.map fun a =>
    match a.control with
    | .asleep w => some w
    | _ => none

theorem busy_of_sleepers {g : System} {x : List (Option (Option Sleeper))} (h : sleepers g = x)
    (hx : ∀ y ∈ x, ∀ z ∈ y, ∃ w, z = some w ∧ ¬ Notified g.shared w) :
    ∀ t ∈ g.threads, ∀ a ∈ t.busy, ∃ w, a.control = .asleep w ∧ ¬ Notified g.shared w := by
  intro t ht a ha
  subst h
  obtain ⟨w, hw, hn⟩ := hx _ (List.mem_map_of_mem ht) _ (Option.mem_map_of_mem _ ha)
  refine ⟨w, ?_, hn⟩
  split at hw
  · next he => rw [he, Option.some.inj hw]
  · cases hw

/-- The second thread of `A` waits for the first one, and gets the lock from it. -/
def takingTurns : List (Choice Request) :=
  alone 0 (Request.acquire clientA 7) 4 ++ alone 1 (Request.acquire clientA 7) 1 ++
    alone 0 (Request.release clientA 7) 2 ++ [.go 1, .go 1] ++ alone 1 (Request.release clientA 7) 2

def playTurns : Option (List SystemLabel × System) :=
  playIf machine (allow fun _ _ => True) (fun l r _ => l.after r) locally takingTurns threeThreads

theorem nobody_left_asleep_turns : ∃ tr g,
    Run (fun a lab b => Step machine (app fun _ _ => True) a lab b ∧ Harmless a lab)
        threeThreads tr g ∧
      (g.shared.lockClient clientA 7).state = .owned ∧
        ¬ ∃ w, Asleep g w ∧ w.client = clientA ∧ w.lid = 7 := by
  have hobs : playTurns.map (fun x => (sleepers x.2, (x.2.shared.lockClient clientA 7).state)) =
      some ([none, none, none], .owned) := by decide +kernel
  obtain ⟨⟨tr, g⟩, hp, hseen⟩ := Option.map_eq_some_iff.mp hobs
  rw [Prod.mk.injEq] at hseen
  obtain ⟨hsleep, hstate⟩ := hseen
  have hrun := run_playIf begins_allow (fun _ _ _ => rfl) takingTurns hp
  have hr : Run (fun a lab b => Step machine (app fun _ _ => True) a lab b ∧ Harmless a lab)
      threeThreads tr g := hrun.mono fun _ _ _ hs => ⟨hs.1, harmless_locally hs.2⟩
  have hrest := busy_of_sleepers hsleep (by simp)
  exact ⟨tr, g, hr, hstate, nobody_left_asleep threeThreads_initial hr clientA 7 (.inr hstate)
    fun t ht a ha _ => hrest t ht a ha⟩

/-- The second thread of `A` waits for the first one, which gives the lock back to the server
because `B` wants it. `B` uses the lock and keeps it. -/
def overslept : List (Choice Request) :=
  alone 0 (Request.acquire clientA 7) 4 ++ alone 1 (Request.acquire clientA 7) 1 ++
    alone 2 (Request.acquire clientB 7) 5 ++ alone 0 (Request.release clientA 7) 10 ++
      [.go 2, .go 2] ++ alone 2 (Request.release clientB 7) 2

def playOverslept : Option (List SystemLabel × System) :=
  playIf machine (allow fun _ _ => True) (fun l r _ => l.after r) promptly overslept threeThreads

/-- In the end `A` does not have the lock, no call and no handler is under way, and nobody is
about to wake up; but the second thread of `A` still sleeps. -/
theorem thread_left_asleep : ∃ tr g,
    Run (fun a lab b => Step machine (app fun _ _ => True) a lab b ∧ promptly a lab = true)
        threeThreads tr g ∧
      (g.shared.lockClient clientA 7).state = .none ∧
      (∀ t ∈ g.threads, ∀ a ∈ t.busy, ∃ w, a.control = .asleep w ∧ ¬ Notified g.shared w) ∧
      ∃ w, Asleep g w ∧ w.client = clientA ∧ w.lid = 7 := by
  have hobs : playOverslept.map (fun x => (sleepers x.2, (x.2.shared.lockClient clientA 7).state,
      x.2.shared.broadcasts clientA)) =
      some ([none, some (some ⟨clientA, 7, 0⟩), none], .none, 0) := by decide +kernel
  obtain ⟨⟨tr, g⟩, hp, hseen⟩ := Option.map_eq_some_iff.mp hobs
  rw [Prod.mk.injEq, Prod.mk.injEq] at hseen
  obtain ⟨hsleep, hstate, hbroad⟩ := hseen
  dsimp only at hsleep hstate hbroad
  have hrest := busy_of_sleepers hsleep (by simp [Notified, hbroad])
  refine ⟨tr, g, run_playIf begins_allow (fun _ _ _ => rfl) overslept hp, hstate, hrest,
    ⟨clientA, 7, 0⟩, ?_, rfl, rfl⟩
  have hmem : some (some ⟨clientA, 7, 0⟩) ∈ sleepers g := by rw [hsleep]; simp
  obtain ⟨t, ht, hbusy⟩ := List.mem_map.1 hmem
  obtain ⟨a, ha, hw⟩ := Option.map_eq_some_iff.1 hbusy
  obtain ⟨w, hc, -⟩ := hrest t ht a ha
  rw [hc] at hw
  obtain rfl := Option.some.inj hw
  exact ⟨t, ht, a, ha, hc⟩

end Yfs.LockWaking
