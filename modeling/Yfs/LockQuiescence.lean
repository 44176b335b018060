import Yfs.LockWaking

/-!
# Quiescence

When no lock call is under way and every thread that was woken has run, the records of the
clients agree with the server's. What could spoil this is a lock that a client got on behalf
of a sleeping thread after it was told to give it back: such a client has been promised to
the sleeper, which will find the revocation noted.
-/

namespace Yfs.LockQuiescence
open LabelledRuns LockProtocol ExtentClient CallStackMachines FileService LockPhases LockLedger
open LockSafety LockWaking Schedules

/-- A thread of the client asks the server a second time, having been called in between. -/
def Reasking (g : System) (c : ClientId) (lid : LockId) : Prop :=
  ∃ t ∈ g.threads, ∃ a ∈ t.busy, .acquireSecond c lid ∈ a.frames

/-- Somebody at the client takes care of a lock that is being waited for, or was given while
it was already revoked. -/
structure Attended (g : System) (c : ClientId) (lid : LockId) : Prop where
  waiting : (g.shared.lockClient c lid).state = .waiting →
    (∃ w, Asleep g w ∧ w.client = c ∧ w.lid = lid) ∨ Reasking g c lid
  owed : (g.shared.lockClient c lid).state = .owned →
    (g.shared.lockClient c lid).pending = .revoke →
      (∃ w, Asleep g w ∧ w.client = c ∧ w.lid = lid ∧ Notified g.shared w) ∨ Reasking g c lid

variable {P : Local → Request → Prop} {s s' : Shared} {pre post : List AppThread}
  {t t' : AppThread} {lab : StepLabel} {c : ClientId} {lid : LockId}

theorem mem_land_frames {q : Request} {fs : List Frame} {o : Ending} {f : Frame} (h : f ∈ fs) :
    f ∈ (Activity.land q fs o).frames := by
  cases o with
  | ret v => exact h
  | wait w => exact h
  | call r f' => exact List.mem_cons_of_mem _ h

/-- A sleeper sleeps on until it wakes up. -/
theorem asleep_step (hs : ThreadStep machine (app P) s t lab s' t') {w : Sleeper}
    (h : Asleep ⟨s, pre ++ t :: post⟩ w) (hw : lab ≠ .woke w) :
    Asleep ⟨s', pre ++ t' :: post⟩ w := by
  obtain ⟨u, hu, a, ha, hc⟩ := h
  simp only [List.mem_append, List.mem_cons] at hu
  rcases hu with hu | rfl | hu
  · exact ⟨u, by simp [hu], a, ha, hc⟩
  · cases hs with
    | think | begins => cases ha
    | exec | resume | ended =>
      cases ha
      cases hc
    | wake =>
      cases ha
      cases hc
      exact absurd rfl hw
  · exact ⟨u, by simp [hu], a, ha, hc⟩

theorem reasking_step (hs : ThreadStep machine (app P) s t lab s' t')
    (h : Reasking ⟨s, pre ++ t :: post⟩ c lid) (hl : ∀ v, lab ≠ .resumed (.acquireSecond c lid) v) :
    Reasking ⟨s', pre ++ t' :: post⟩ c lid := by
  obtain ⟨u, hu, a, ha, hf⟩ := h
  simp only [List.mem_append, List.mem_cons] at hu
  rcases hu with hu | rfl | hu
  · exact ⟨u, by simp [hu], a, ha, hf⟩
  · refine ⟨t', by simp, ?_⟩
    cases hs with
    | think | begins => cases ha
    | ended =>
      cases ha
      cases hf
    | exec | wake =>
      cases ha
      exact ⟨_, rfl, mem_land_frames hf⟩
    | resume =>
      cases ha
      rcases List.mem_cons.1 hf with rfl | hf
      · exact absurd rfl (hl _)
      · exact ⟨_, rfl, mem_land_frames hf⟩
  · exact ⟨u, by simp [hu], a, ha, hf⟩

/-- A step that does not touch the record, and takes nobody out of `acquire`. -/
theorem Attended.keep (h : Attended ⟨s, pre ++ t :: post⟩ c lid)
    (hs : ThreadStep machine (app P) s t lab s' t')
    (hrec : s'.lockClient c lid = s.lockClient c lid)
    (hb : ∀ d, s.broadcasts d ≤ s'.broadcasts d)
    (hwoke : ∀ w, w.client = c → w.lid = lid → lab ≠ .woke w)
    (hsecond : ∀ v, lab ≠ .resumed (.acquireSecond c lid) v) :
    Attended ⟨s', pre ++ t' :: post⟩ c lid := by
  constructor
  · intro hst
    simp only [hrec] at hst
    rcases h.waiting hst with ⟨w, hw, hc, hl⟩ | hre
    · exact .inl ⟨w, asleep_step hs hw (hwoke w hc hl), hc, hl⟩
    · exact .inr (reasking_step hs hre hsecond)
  · intro hst hp
    simp only [hrec] at hst hp
    rcases h.owed hst hp with ⟨w, hw, hc, hl, hn⟩ | hre
    · exact .inl ⟨w, asleep_step hs hw (hwoke w hc hl), hc, hl, lt_of_lt_of_le hn (hb w.client)⟩
    · exact .inr (reasking_step hs hre hsecond)

/-- The sections of a lock are labelled with that lock. -/
theorem Section.of_woke {p : Proc} {c₀ : ClientId} {lid₀ : LockId} {r : LockStateClient}
    {m : LockStateClient × ClientMove} {w : Sleeper} (h : Section p c₀ lid₀ (.woke w) r m) :
    c₀ = w.client ∧ lid₀ = w.lid := by
  cases h
  exact ⟨rfl, rfl⟩

theorem Section.of_acquireSecond {p : Proc} {c₀ : ClientId} {lid₀ : LockId} {r : LockStateClient}
    {m : LockStateClient × ClientMove} {v : Reply}
    (h : Section p c₀ lid₀ (.resumed (.acquireSecond c lid) v) r m) : c₀ = c ∧ lid₀ = lid := by
  cases h
  exact ⟨rfl, rfl⟩

theorem Phase.waiting_of_second {ro : Role} {cl : LockStateClient} {T : Multiset Token} {r : Status}
    (h : Phase ro cl T) (ht : .second (some r) ∈ T) : cl.state = .waiting := by
  cases h with
  | grantedAgain h => rfl
  | granted h | owned h | locked h => cases h <;> simp at ht
  | _ => simp at ht

/-- A retry that is answered finds the client waiting. -/
theorem waiting_of_retryRpc {l : Local} {q : Request} {v : Reply} {fs : List Frame}
    (hg : SystemOk ⟨s, pre ++ ⟨l, some ⟨q, .reply v, .retryRpc c lid :: fs⟩⟩ :: post⟩) :
    (s.lockClient c lid).state = .waiting := by
  have hm : (c, Token.second (some v.ret)) ∈
      (ledger lid).total ⟨s, pre ++ ⟨l, some ⟨q, .reply v, .retryRpc c lid :: fs⟩⟩ :: post⟩ := by
    refine Ledger.mem_total (t := ⟨l, some ⟨q, .reply v, .retryRpc c lid :: fs⟩⟩) (by simp)
      (Multiset.mem_add.mpr (.inr ?_))
    refine Multiset.mem_add.mpr (.inl (Multiset.mem_add.mpr (.inr ?_)))
    simp [ledger, base, answer]
  exact Phase.waiting_of_second ((hg.locks lid).phase c) (mem_tokensOf hm)

theorem resumed_thread {f : Frame} {v : Reply}
    (hs : ThreadStep machine (app P) s t (.resumed f v) s' t') :
    ∃ l q fs, t = ⟨l, some ⟨q, .reply v, f :: fs⟩⟩ := by
  cases hs
  exact ⟨_, _, _, rfl⟩

/-- The critical sections of the lock itself. -/
theorem Attended.section {l : Local} {q : Request} {fs : List Frame} {o : Ending} {p : Proc}
    {m : LockStateClient × ClientMove} (h : Attended ⟨s, pre ++ t :: post⟩ c lid)
    (hg : SystemOk ⟨s, pre ++ t :: post⟩) (htime : Timely ⟨s, pre ++ t :: post⟩)
    (hs : ThreadStep machine (app P) s t lab s' ⟨l, some (.land q fs o)⟩)
    (hsec : Section p c lid lab (s.lockClient c lid) m) (he : leave s p c lid m = (s', o)) :
    Attended ⟨s', pre ++ ⟨l, some (.land q fs o)⟩ :: post⟩ c lid := by
  obtain rfl : s' = (leave s p c lid m).1 := (congrArg Prod.fst he).symm
  obtain rfl : o = (leave s p c lid m).2 := (congrArg Prod.snd he).symm
  have hrec : (leave s p c lid m).1.lockClient c lid = m.1 := by simp [leave_record]
  -- a thread that falls asleep here takes care of the lock
  have hsleep : m.2 = .sleep → ∃ w, Asleep ⟨(leave s p c lid m).1,
      pre ++ ⟨l, some (.land q fs (leave s p c lid m).2)⟩ :: post⟩ w ∧ w.client = c ∧ w.lid = lid := by
    intro hm
    refine ⟨⟨c, lid, s.broadcasts c⟩, ⟨_, List.mem_append_right _ List.mem_cons_self, _, rfl, ?_⟩,
      rfl, rfl⟩
    obtain ⟨r, mv⟩ := m
    obtain rfl : mv = .sleep := hm
    rfl
  have hnever : m.1.state ≠ .waiting → m.1.state ≠ .owned → Attended ⟨(leave s p c lid m).1,
      pre ++ ⟨l, some (.land q fs (leave s p c lid m).2)⟩ :: post⟩ c lid := by
    intro h1 h2
    exact ⟨fun hst => absurd (hrec ▸ hst) h1, fun hst => absurd (hrec ▸ hst) h2⟩
  have hstart : ∀ r, m = acquireStart r → Attended ⟨(leave s p c lid m).1,
      pre ++ ⟨l, some (.land q fs (leave s p c lid m).2)⟩ :: post⟩ c lid := by
    rintro r rfl
    refine ⟨fun hst => .inl (hsleep ?_), fun hst => ?_⟩
    · simp only [hrec] at hst
      unfold acquireStart acquireLoop at hst ⊢
      split_ifs at hst ⊢
      rfl
    · simp only [hrec] at hst
      exact absurd (.inr hst) (not_takeable_acquireStart r)
  cases hsec with
  | acquireStart => exact hstart _ rfl
  | acquireWoken w => exact hstart _ (acquireWoken_eq _)
  | acquireAnswered hm =>
    unfold acquireAnswered at hm
    split_ifs at hm <;> cases hm
    · exact hnever (by simp) (by simp)
    · refine ⟨fun _ => .inr ?_, fun hst => absurd (hrec ▸ hst) (by simp)⟩
      exact ⟨_, List.mem_append_right _ List.mem_cons_self, _, rfl, List.mem_cons_self⟩
    · exact ⟨fun _ => .inl (hsleep rfl), fun hst => absurd (hrec ▸ hst) (by simp)⟩
  | acquireAnsweredAgain hm =>
    unfold acquireAnsweredAgain at hm
    split_ifs at hm
    cases hm
    exact hnever (by simp) (by simp)
  | releaseStart hm =>
    unfold releaseStart at hm
    split_ifs at hm with h1 h2 h3 <;> cases hm
    · refine ⟨fun hst => absurd (hrec ▸ hst) (by simp), fun _ hp => ?_⟩
      have hzero := (congrArg LockStateClient.pending hrec).symm.trans hp
      simp [h3] at hzero
    · exact hnever (by simp) (by simp)
  | releaseAnswered hm =>
    unfold releaseAnswered at hm
    split_ifs at hm
    cases hm
    exact hnever (by simp) (by simp)
  | revokeStart hm =>
    unfold revokeStart at hm
    split_ifs at hm with h1 h2 h3 <;> cases hm
    · exact hnever (by simp) (by simp)
    · refine ⟨fun hst => ?_, fun hst =>
        absurd ((congrArg LockStateClient.state hrec).symm.trans hst) h3⟩
      simp only [hrec] at hst
      rcases h.waiting hst with ⟨w, hw, hc, hl⟩ | hre
      · exact .inl ⟨w, asleep_step hs hw (by simp), hc, hl⟩
      · exact .inr (reasking_step hs hre (by simp))
  | revokeAnswered hm =>
    unfold revokeAnswered at hm
    split_ifs at hm
    cases hm
    exact hnever (by simp) (by simp)
  | retryStart hm =>
    unfold retryStart at hm
    split_ifs at hm with h1 h2 h3 <;> cases hm
    · exact hnever (by simp [h2]) (by simp [h2])
    · refine ⟨fun _ => ?_, fun hst => absurd (hrec ▸ hst) (by simp [h3])⟩
      rcases h.waiting h3 with ⟨w, hw, hc, hl⟩ | hre
      · exact .inl ⟨w, asleep_step hs hw (by simp), hc, hl⟩
      · exact .inr (reasking_step hs hre (by simp))
  | retryAnswered hm =>
    unfold retryAnswered at hm
    split_ifs at hm
    cases hm
    refine ⟨fun hst => absurd (hrec ▸ hst) (by simp), fun _ _ => ?_⟩
    have hwait : (s.lockClient c lid).state = .waiting := by
      obtain ⟨l, q, fs, rfl⟩ := resumed_thread hs
      exact waiting_of_retryRpc hg
    rcases h.waiting hwait with ⟨w, hw, rfl, rfl⟩ | hre
    · -- the sleeper for whom the lock was waited for has just been told
      refine .inl ⟨w, asleep_step hs hw (by simp), rfl, rfl, ?_⟩
      unfold Notified
      rw [leave_broadcasts, if_pos ⟨rfl, rfl⟩]
      exact Nat.lt_succ_of_le (htime w hw)
    · exact .inr (reasking_step hs hre (by simp))

theorem Attended.step {g g' : System} {lab : SystemLabel} (h : Attended g c lid) (hg : SystemOk g)
    (htime : Timely g) (hs : Step machine (app P) g lab g') : Attended g' c lid := by
  cases hs with
  | @mk s s' t t' lab pre post hs =>
    have hkeep : ¬ Leaves lab → s'.lockClient = s.lockClient → s'.broadcasts = s.broadcasts →
        Attended ⟨s', pre ++ t' :: post⟩ c lid := by
      intro hl hrec hb
      apply h.keep hs (by rw [hrec]) (fun d => by rw [hb])
      · intro w _ _ he
        exact hl (.inl ⟨w, he⟩)
      · intro v he
        exact hl (.inr ⟨c, lid, v, he⟩)
    rcases step_moves hs with ⟨rfl, -, hl⟩ | ⟨l, q, fs, o, rfl, hm⟩
    · exact hkeep hl rfl rfl
    · have hle := hm.broadcasts_le
      rcases hm with ⟨hrec, hb, -, hl⟩ | ⟨p, c₀, lid₀, m, hsec, he⟩
      · exact hkeep hl hrec hb
      · by_cases hsame : c₀ = c ∧ lid₀ = lid
        · obtain ⟨rfl, rfl⟩ := hsame
          exact h.section hg htime hs hsec he
        · apply h.keep hs ?_ hle
          · rintro w rfl rfl rfl
            exact hsame (Section.of_woke hsec)
          · rintro v rfl
            exact hsame (Section.of_acquireSecond hsec)
          · obtain rfl : s' = (leave s p c₀ lid₀ m).1 := (congrArg Prod.fst he).symm
            rw [leave_record, if_neg]
            rintro ⟨rfl, rfl⟩
            exact hsame ⟨rfl, rfl⟩

theorem Initial.run_attended {g g' : System} (hg : Initial g) {tr : List SystemLabel}
    (hr : Run (Step machine (app P)) g tr g') (c : ClientId) (lid : LockId) :
    Attended g' c lid := by
  have hstart : Attended g c lid :=
    ⟨fun hst => by simp [hg.client] at hst, fun hst => by simp [hg.client] at hst⟩
  apply hr.history_invariant (I := fun _ g' => Attended g' c lid) hstart
  intro tr b lab d run ih hs
  exact ih.step (hg.run_systemOk run) (Initial.run_timely hg run) hs

/-! ## Server and clients agree -/

/-- The frames of a lock call that is under way, and of the handlers. -/
def IsLockFrame : Frame → Prop
  | .getRpc _ _ | .getattrRpc _ _ | .createRpc _ _ | .flushPut _ _ _ | .flushRemove _ _ => False
  | _ => True

/-- No lock call is under way, no handler is executing, and every thread that was woken has
run. -/
structure Quiescent (g : System) : Prop where
  calls : ∀ t ∈ g.threads, ∀ a ∈ t.busy, ∀ f ∈ a.frames, ¬ IsLockFrame f
  woken : ∀ w, Asleep g w → ¬ Notified g.shared w

theorem link_not_lock {f : Frame} (hf : ¬ IsLockFrame f) (a : Above Request Reply Frame Sleeper) :
    link lid a (.frame f) = 0 := by
  cases f <;> first | rfl | exact absurd trivial hf

theorem hold_of_link {x : ClientId × Token} {q : Request} {fs : List Frame}
    {a : Above Request Reply Frame Sleeper} (hfs : ∀ f ∈ fs, ¬ IsLockFrame f)
    (hx : x ∈ link lid a (base q fs)) : x.2 = .hold := by
  cases fs with
  | cons f fs =>
    rw [base, link_not_lock (hfs f List.mem_cons_self)] at hx
    cases hx
  | nil =>
    have hon : ∀ lid' c, x ∈ on lid lid' c {.hold} → x.2 = .hold := by
      intro lid' c hx
      unfold on at hx
      split_ifs at hx
      · obtain ⟨y, hy, rfl⟩ := Multiset.mem_map.1 hx
        exact Multiset.mem_singleton.1 hy
      · cases hx
    cases q with
    | acquire c lid' =>
      cases a with
      | frame f => cases hx
      | control k =>
        cases k with
        | reply v => exact hon lid' c hx
        | request r => cases hx
        | asleep w => cases hx
    | _ => cases hx

theorem hold_of_deep {x : ClientId × Token} {q : Request} {fs : List Frame}
    (hfs : ∀ f ∈ fs, ¬ IsLockFrame f) (hx : x ∈ (ledger lid).deep q fs) : x.2 = .hold := by
  induction fs with
  | nil => cases hx
  | cons f fs ih =>
    have hfs' : ∀ f ∈ fs, ¬ IsLockFrame f := fun f hf => hfs f (List.mem_cons_of_mem _ hf)
    rcases Multiset.mem_add.1 hx with hx | hx
    · exact hold_of_link hfs' (show x ∈ link lid (.frame f) (base q fs) from hx)
    · exact ih hfs' hx

/-- The stacks of a quiescent system stand only for locks that are held. -/
theorem hold_of_activity {a : Activity Request Reply Frame Sleeper} {d : ClientId}
    (hlink : machine.Linked a) (hroot : a.root.IsAppCall d)
    (hfs : ∀ f ∈ a.frames, ¬ IsLockFrame f) {x : ClientId × Token}
    (hx : x ∈ (ledger lid).activity a) : x.2 = .hold := by
  obtain ⟨q, k, fs⟩ := a
  rcases Multiset.mem_add.1 hx with hx | hx
  · rcases Multiset.mem_add.1 hx with hx | hx
    · obtain ⟨-, hk⟩ := hlink
      -- a handler is called only by a lock frame
      have hcall : ∀ r, k = .request r → (∀ f, calls f = r → IsLockFrame f) →
          ¬ r.IsAppCall d → False := by
        rintro r rfl hf hr
        cases fs with
        | nil =>
          obtain rfl : r = q := hk
          exact hr hroot
        | cons f fs => exact hfs f List.mem_cons_self (hf f (Eq.symm hk))
      cases k with
      | reply v => cases hx
      | asleep w => cases hx
      | request r =>
        cases r with
        | release c lid' =>
          change x ∈ on lid lid' c {.hold} at hx
          unfold on at hx
          split_ifs at hx
          · obtain ⟨y, hy, rfl⟩ := Multiset.mem_map.1 hx
            exact Multiset.mem_singleton.1 hy
          · cases hx
        | revoke c lid' =>
          refine (hcall _ rfl (fun f hf => ?_) (by simp [Request.IsAppCall, Request.IsExtentCall])).elim
          cases f <;> cases hf
          trivial
        | retry c lid' =>
          refine (hcall _ rfl (fun f hf => ?_) (by simp [Request.IsAppCall, Request.IsExtentCall])).elim
          cases f <;> cases hf
          trivial
        | _ => cases hx
    · exact hold_of_link hfs hx
  · exact hold_of_deep hfs hx

theorem Quiescent.hold {g : System} (hq : Quiescent g) (hg : SystemOk g) {x : ClientId × Token}
    (hx : x ∈ (ledger lid).total g) : x.2 = .hold := by
  unfold Ledger.total at hx
  obtain ⟨M, hM, hx⟩ : ∃ M ∈ g.threads.map (ledger lid).thread, x ∈ M := by
    generalize g.threads.map (ledger lid).thread = Ms at hx
    induction Ms with
    | nil => cases hx
    | cons M Ms ih =>
      rw [List.sum_cons] at hx
      rcases Multiset.mem_add.1 hx with hx | hx
      · exact ⟨M, List.mem_cons_self, hx⟩
      · obtain ⟨N, hN, hx⟩ := ih hx
        exact ⟨N, List.mem_cons_of_mem _ hN, hx⟩
  obtain ⟨t, ht, rfl⟩ := List.mem_map.1 hM
  rcases Multiset.mem_add.1 hx with hx | hx
  · rw [Multiset.eq_of_mem_replicate hx]
  · cases hb : t.busy with
    | none =>
      rw [hb] at hx
      cases hx
    | some a =>
      rw [hb] at hx
      exact hold_of_activity ((hg.threads t ht).linked a hb) ((hg.threads t ht).root a hb)
        (hq.calls t ht a hb) hx

/-- The phases that a lock can rest in. -/
theorem Phase.resting {ro : Role} {cl : LockStateClient} {T : Multiset Token} (h : Phase ro cl T)
    (hT : ∀ x ∈ T, x = .hold) :
    (ro = .outside ∧ cl.state = .none) ∨ (ro = .queued ∧ cl.state = .waiting) ∨
      ∃ b, ro = .holder b ∧ (cl.state = .owned ∨ cl.state = .locked) ∧
        (b = true → cl.pending = .revoke) := by
  cases h with
  | idle => exact .inl ⟨rfl, rfl⟩
  | waiting => exact .inr (.inl ⟨rfl, rfl⟩)
  | owned h =>
    refine .inr (.inr ⟨_, rfl, .inl rfl, ?_⟩)
    cases h with
    | quiet => simp
    | sent => simp at hT
    | marked => simp
  | locked h =>
    refine .inr (.inr ⟨_, rfl, .inr rfl, ?_⟩)
    cases h with
    | quiet => simp
    | sent => simp at hT
    | marked => simp
  | granted h | grantedAgain h => simp at hT
  | _ => simp at hT

theorem mem_of_mem_tokensOf {x : Token} {M : Multiset (ClientId × Token)} (h : x ∈ tokensOf c M) :
    (c, x) ∈ M := by
  rw [← Multiset.one_le_count_iff_mem] at h ⊢
  rwa [count_tokensOf] at h

/-- In a quiescent state the server expects nobody, a free lock is cached nowhere, and a lock
that is held is held where the server thinks it is, with the revocation noted if somebody
waits for it. -/
theorem quiescent_agreement {g g' : System} (hg : Initial g) {tr : List SystemLabel}
    (hr : Run (Step machine (app P)) g tr g') (hq : Quiescent g') (lid : LockId) :
    (g'.shared.lockServer lid).state ≠ .expecting ∧
    ((g'.shared.lockServer lid).state = .free →
      ∀ c, (g'.shared.lockClient c lid).state = .none) ∧
    ((g'.shared.lockServer lid).state = .locked →
      let h := (g'.shared.lockServer lid).holdingClient.id
      ((g'.shared.lockClient h lid).state = .owned ∨ (g'.shared.lockClient h lid).state = .locked) ∧
      ((g'.shared.lockServer lid).waitingClients ≠ [] →
        (g'.shared.lockClient h lid).state = .locked ∧
          (g'.shared.lockClient h lid).pending = .revoke)) ∧
    (∀ c ∈ (g'.shared.lockServer lid).waitingClients,
      (g'.shared.lockClient c lid).state = .waiting) ∧
    (∀ c, ¬ ((g'.shared.lockServer lid).state = .locked ∧
        (g'.shared.lockServer lid).holdingClient.id = c) →
      c ∉ (g'.shared.lockServer lid).waitingClients →
        (g'.shared.lockClient c lid).state = .none) := by
  have hsys := hg.run_systemOk hr
  have hserver := (hsys.locks lid).server
  have hrest := fun c => Phase.resting ((hsys.locks lid).phase c) fun x hx =>
    hq.hold hsys (mem_of_mem_tokensOf hx)
  -- the lock that was given to a sleeper has been taken by now
  have howed : ∀ c, (g'.shared.lockClient c lid).state = .owned →
      (g'.shared.lockClient c lid).pending ≠ .revoke := by
    intro c hst hp
    rcases (Initial.run_attended hg hr c lid).owed hst hp with ⟨w, hw, -, -, hn⟩ | ⟨t, ht, a, ha, hf⟩
    · exact hq.woken w hw hn
    · exact hq.calls t ht a ha _ hf trivial
  refine ⟨?_, ?_, ?_, ?_, ?_⟩
  · intro hst
    have hrole : role (g'.shared.lockServer lid) (g'.shared.lockServer lid).holdingClient.id =
        .expected (g'.shared.lockServer lid).holdingClient.sendRpc := by simp [role, hst]
    rcases hrest (g'.shared.lockServer lid).holdingClient.id with ⟨h, -⟩ | ⟨h, -⟩ | ⟨b, h, -⟩ <;>
      rw [hrole] at h <;> cases h
  · intro hst c
    have hrole : role (g'.shared.lockServer lid) c = .outside := by
      simp [role, hst, (hserver.free hst).2]
    rcases hrest c with ⟨-, h⟩ | ⟨h, -⟩ | ⟨b, h, -⟩
    · exact h
    · rw [hrole] at h
      cases h
    · rw [hrole] at h
      cases h
  · intro hst h
    have hrole : role (g'.shared.lockServer lid) h =
        .holder (g'.shared.lockServer lid).holdingClient.sendRpc := by simp [role, hst, h]
    rcases hrest h with ⟨hr, -⟩ | ⟨hr, -⟩ | ⟨b, hr, hstate, hmark⟩
    · rw [hrole] at hr
      cases hr
    · rw [hrole] at hr
      cases hr
    · refine ⟨hstate, fun hwait => ?_⟩
      rw [hrole] at hr
      obtain rfl := Role.holder.inj hr
      have hpending := hmark (by simpa [hserver.ordered] using hwait)
      rcases hstate with hstate | hstate
      · exact absurd hpending (howed h hstate)
      · exact ⟨hstate, hpending⟩
  · intro c hc
    have hne : (g'.shared.lockServer lid).holdingClient.id ≠ c := fun he => hserver.apart (he ▸ hc)
    have hrole : role (g'.shared.lockServer lid) c = .queued := by simp [role, hne, hc]
    rcases hrest c with ⟨h, -⟩ | ⟨-, h⟩ | ⟨b, h, -⟩
    · rw [hrole] at h
      cases h
    · exact h
    · rw [hrole] at h
      cases h
  · intro c hholder hc
    rcases hrest c with ⟨-, h⟩ | ⟨h, -⟩ | ⟨b, h, -⟩
    · exact h
    · unfold role at h
      split_ifs at h
    · unfold role at h
      split_ifs at h

/-! ### A lock that is held while somebody waits for it -/

theorem asleep_frames {a : Activity Request Reply Frame Sleeper} {w : Sleeper}
    (h : machine.Linked a) (hw : a.control = .asleep w) : a.frames = [] := by
  obtain ⟨q, k, fs⟩ := a
  obtain rfl : k = .asleep w := hw
  obtain ⟨-, hk⟩ := h
  cases fs with
  | nil => rfl
  | cons f fs => cases f <;> cases hk

/-- A system in which every thread is idle or fast asleep. -/
theorem quiescent_of_asleep {g : System} (hg : SystemOk g)
    (h : ∀ t ∈ g.threads, ∀ a ∈ t.busy, ∃ w, a.control = .asleep w ∧ ¬ Notified g.shared w) :
    Quiescent g := by
  constructor
  · intro t ht a ha f hf
    obtain ⟨w, hw, -⟩ := h t ht a ha
    rw [asleep_frames ((hg.threads t ht).linked a ha) hw] at hf
    cases hf
  · rintro w ⟨t, ht, a, ha, hc⟩
    obtain ⟨w', hw', hn⟩ := h t ht a ha
    rw [hc] at hw'
    obtain rfl := Control.asleep.inj hw'
    exact hn

theorem quiescent_agreement_contention : ∃ tr g,
    Run (Step machine (app fun _ _ => True)) twoClients tr g ∧ Quiescent g ∧
      (g.shared.lockServer 7).waitingClients = [clientB] ∧
      (g.shared.lockServer 7).holdingClient.id = clientA ∧
      (g.shared.lockClient clientA 7).state = .locked ∧
      (g.shared.lockClient clientA 7).pending = .revoke ∧
      (g.shared.lockClient clientB 7).state = .waiting := by
  obtain ⟨tr, g, hr, hp⟩ := run_contention
  have hobs : playContention.map (fun x => (sleepers x.2, x.2.shared.broadcasts clientB)) =
      some ([none, some (some ⟨clientB, 7, 0⟩)], 0) := by decide +kernel
  have hserver : playContention.map (fun x => x.2.shared.lockServer 7) =
      some ⟨.locked, ⟨clientA, true⟩, [clientB]⟩ := by decide +kernel
  rw [hp, Option.map_some, Option.some.injEq] at hobs hserver
  dsimp only at hserver
  obtain ⟨hsleep, hbroad⟩ := Prod.mk.inj hobs
  have hwait : (g.shared.lockServer 7).waitingClients = [clientB] := by rw [hserver]
  have hstate : (g.shared.lockServer 7).state = .locked := by rw [hserver]
  have hholder : (g.shared.lockServer 7).holdingClient.id = clientA := by rw [hserver]
  dsimp only at hsleep hbroad
  have hq : Quiescent g := quiescent_of_asleep (twoClients_initial.run_systemOk hr)
    (busy_of_sleepers hsleep (by simp [Notified, hbroad]))
  obtain ⟨-, -, hlocked, hwaiting, -⟩ := quiescent_agreement twoClients_initial hr hq 7
  have hnote := (hlocked hstate).2 (by simp [hwait])
  rw [hholder] at hnote
  exact ⟨tr, g, hr, hq, hwait, hholder, hnote.1, hnote.2, hwaiting clientB (by simp [hwait])⟩

end Yfs.LockQuiescence
