import Yfs.LabelledRuns
import Yfs.LockProtocol
import Mathlib.Logic.Function.Basic
import Mathlib.Data.List.Nodup

/-!
# The queue of the lock server

The lock server alone, under any sequence of calls by clients that ask for a lock only when they
neither hold it nor wait for it, and give back only what they hold. The history of the answers says
who is waiting and how often the holder was asked to give the lock back; the server's record agrees
with it, and locks are handed on in the order of the refusals.
-/

namespace Yfs.LockQueue
open LabelledRuns LockProtocol

abbrev Records := LockId → LockStateServer

/-- A critical section that has run, with its answer and the call that follows it. -/
inductive Event where
  | acquired (lid : LockId) (id : Str) (ret : Status) (revoked : Option Str)
  | released (lid : LockId) (id : Str) (retried : Option Str)

def Holds (s : LockStateServer) (id : Str) : Prop := s.state = .locked ∧ s.holdingClient.id = id

def Expected (s : LockStateServer) (id : Str) : Prop :=
  s.state = .expecting ∧ s.holdingClient.id = id

/-- When a client calls `acquire`. -/
def MayAcquire (s : LockStateServer) (id : Str) : Prop :=
  (¬Holds s id ∧ id ∉ s.waitingClients) ∨ Expected s id

inductive ServerStep : Records → Event → Records → Prop where
  | acquire {s : Records} {lid : LockId} {id : Str} {r : LockStateServer} {ret : Status}
      {dest : Option Str} (may : MayAcquire (s lid) id)
      (hx : serverAcquire (s lid) id = some (r, ret, dest)) :
      ServerStep s (.acquired lid id ret dest) (Function.update s lid r)
  | release {s : Records} {lid : LockId} {id : Str} {r : LockStateServer} {dest : Option Str}
      (may : Holds (s lid) id) (hx : serverRelease (s lid) id = some (r, dest)) :
      ServerStep s (.released lid id dest) (Function.update s lid r)

/-! ## What the history says -/

/-- The clients that were refused and have not obtained the lock since, in the order of the
refusals. -/
def noteRefusal (lid : LockId) (q : List Str) : Event → List Str
  | .acquired lid' id ret _ =>
    if lid' = lid then if ret = statusOk then q.erase id else q ++ [id] else q
  | .released _ _ _ => q

def refused (lid : LockId) (tr : List Event) : List Str := tr.foldl (noteRefusal lid) []

/-- The revocations that were requested since the lock was last given to a client; none once it
was given back. -/
def noteRevoke (lid : LockId) (n : ℕ) : Event → ℕ
  | .acquired lid' _ ret dest =>
    if lid' = lid then (if ret = statusOk then 0 else n) + dest.toList.length else n
  | .released lid' _ _ => if lid' = lid then 0 else n

def revokes (lid : LockId) (tr : List Event) : ℕ := tr.foldl (noteRevoke lid) 0

/-- The client that was last given the lock and has not given it back. -/
def noteHolder (lid : LockId) (c : Option Str) : Event → Option Str
  | .acquired lid' id ret _ => if lid' = lid ∧ ret = statusOk then some id else c
  | .released lid' _ _ => if lid' = lid then none else c

def holder (lid : LockId) (tr : List Event) : Option Str := tr.foldl (noteHolder lid) none

/-! ## The record agrees with the history -/

/-- The server's bookkeeping of one lock. -/
structure QueueOk (s : LockStateServer) : Prop where
  nodup : s.waitingClients.Nodup
  apart : s.holdingClient.id ∉ s.waitingClients
  free : s.state = .free → s.waitingClients = [] ∧ s.holdingClient.id = []
  ordered : s.waitingClients ≠ [] → s.holdingClient.sendRpc = true

/-- The client that the lock is promised to. -/
def promised (s : LockStateServer) : List Str :=
  if s.state = .expecting then [s.holdingClient.id] else []

/-- A record together with the history that led to it. -/
structure Recorded (s : LockStateServer) (q : List Str) (n : ℕ) (c : Option Str) : Prop
    extends QueueOk s where
  waiting : q = promised s ++ s.waitingClients
  holds : c = if s.state = .locked then some s.holdingClient.id else none
  revoked : n = if s.state = .locked ∧ s.holdingClient.sendRpc = true then 1 else 0
  quiet : s.waitingClients = [] → s.holdingClient.sendRpc = false

variable {s r : LockStateServer} {q : List Str} {n : ℕ} {c : Option Str} {id : Str} {ret : Status}
  {dest : Option Str}

theorem Recorded.start : Recorded {} [] 0 none where
  nodup := List.nodup_nil
  apart := List.not_mem_nil
  free _ := ⟨rfl, rfl⟩
  ordered h := absurd rfl h
  waiting := rfl
  holds := rfl
  revoked := rfl
  quiet _ := rfl

/-- The record with one more client at the end of the queue, and a revocation ordered. -/
def enqueue (s : LockStateServer) (id : Str) : LockStateServer :=
  { s with waitingClients := s.waitingClients ++ [id],
           holdingClient := { s.holdingClient with sendRpc := true } }

/-- The three ways in which `acquire` is answered: the lock is free, it was promised to the caller,
or the caller has to wait. -/
theorem serverAcquire_cases (hx : serverAcquire s id = some (r, ret, dest)) :
    (s.state = .free ∧ r = { s with state := .locked, holdingClient := ⟨id, false⟩ } ∧
        ret = statusOk ∧ dest = none) ∨
      (s.state = .expecting ∧ s.holdingClient.id = id ∧ r = { s with state := .locked } ∧
        ret = statusOk ∧ dest = if s.holdingClient.sendRpc then some id else none) ∨
      (s.state ≠ .free ∧ s.holdingClient.id ≠ id ∧ r = enqueue s id ∧ ret = statusRetry ∧
        dest = if s.state = .locked ∧ s.holdingClient.sendRpc = false then some s.holdingClient.id
          else none) := by
  unfold serverAcquire at hx
  cases hs : s.state with
  | free =>
    simp only [hs] at hx
    split at hx <;> cases hx
    exact .inl ⟨rfl, rfl, rfl, rfl⟩
  | expecting =>
    simp only [hs] at hx
    by_cases hn : s.holdingClient.id = []
    · simp [hn] at hx
    by_cases hid : s.holdingClient.id = id
    · subst hid
      simp only [hn, if_false, if_true, Option.some.injEq, Prod.mk.injEq] at hx
      obtain ⟨rfl, rfl, rfl⟩ := hx
      exact .inr (.inl ⟨rfl, rfl, rfl, rfl, rfl⟩)
    · simp only [hn, hid, if_false, Option.some.injEq, Prod.mk.injEq] at hx
      obtain ⟨rfl, rfl, rfl⟩ := hx
      exact .inr (.inr ⟨by simp, hid, by simp [enqueue, hs], rfl, by simp⟩)
  | locked =>
    simp only [hs] at hx
    split_ifs at hx with hn hid hsend <;> cases hx
    · exact .inr (.inr ⟨by simp, hid, by simp [enqueue, hs], rfl, by simp [hsend]⟩)
    · have hkeep : { s.holdingClient with sendRpc := true } = s.holdingClient := by
        rw [← eq_true_of_ne_false hsend]
      exact .inr (.inr ⟨by simp, hid, by simp [enqueue, hs, hkeep], rfl, by simp [hsend]⟩)

/-- A client that neither holds the lock nor waits for it may be put at the end of the queue. -/
theorem QueueOk.enqueue (h : QueueOk s) (hs : s.state ≠ .free) (hid : s.holdingClient.id ≠ id)
    (hq : id ∉ s.waitingClients) : QueueOk (enqueue s id) where
  nodup := by
    have hnew := List.Nodup.concat hq h.nodup
    rwa [List.concat_eq_append] at hnew
  apart hm := by
    rcases List.mem_append.1 hm with hm | hm
    · exact h.apart hm
    · exact hid (List.mem_singleton.1 hm)
  free hf := absurd hf hs
  ordered _ := rfl

/-- A client that has to wait is not waiting yet. -/
theorem MayAcquire.not_waiting (may : MayAcquire s id) (hid : s.holdingClient.id ≠ id) :
    id ∉ s.waitingClients := by
  rcases may with ⟨-, hq⟩ | ⟨-, he⟩
  · exact hq
  · exact absurd he hid

theorem Recorded.refuse (h : Recorded s q n c) (hs : s.state ≠ .free)
    (hid : s.holdingClient.id ≠ id) (hq : id ∉ s.waitingClients)
    (hd : dest = if s.state = .locked ∧ s.holdingClient.sendRpc = false then
      some s.holdingClient.id else none) :
    Recorded (enqueue s id) (q ++ [id]) (n + dest.toList.length) c where
  toQueueOk := h.toQueueOk.enqueue hs hid hq
  waiting := by
    rw [h.waiting, List.append_assoc]
    rfl
  holds := h.holds
  revoked := by
    rw [h.revoked, hd]
    cases hst : s.state <;> cases hsend : s.holdingClient.sendRpc <;> simp [enqueue, hst]
  quiet hw := by simp [enqueue] at hw

theorem Recorded.grant (h : Recorded s q n c) (hs : s.state = .free) :
    Recorded { s with state := .locked, holdingClient := ⟨id, false⟩ } (q.erase id) 0 (some id) := by
  obtain ⟨hw, -⟩ := h.free hs
  have hq : q = [] := by
    rw [h.waiting, hw, promised, hs]
    rfl
  subst hq
  constructor
  · exact ⟨h.nodup, by simp [hw], fun hf => (by cases hf), fun hne => absurd hw hne⟩
  · simp [promised, hw]
  · rfl
  · simp
  · exact fun _ => rfl

theorem Recorded.fulfil (h : Recorded s q n c) (hs : s.state = .expecting)
    (hid : s.holdingClient.id = id) :
    Recorded { s with state := .locked } (q.erase id)
      (if s.holdingClient.sendRpc then some id else none).toList.length (some id) := by
  have hq : q = id :: s.waitingClients := by
    rw [h.waiting, promised, if_pos hs, hid]
    rfl
  subst hq
  constructor
  · exact ⟨h.nodup, h.apart, fun hf => (by cases hf), h.ordered⟩
  · simp [promised]
  · rw [← hid]
    rfl
  · cases s.holdingClient.sendRpc <;> simp
  · exact h.quiet

theorem Recorded.acquire (h : Recorded s q n c) (may : MayAcquire s id)
    (hx : serverAcquire s id = some (r, ret, dest)) :
    Recorded r (if ret = statusOk then q.erase id else q ++ [id])
      ((if ret = statusOk then 0 else n) + dest.toList.length)
      (if ret = statusOk then some id else c) := by
  rcases serverAcquire_cases hx with ⟨hs, rfl, rfl, rfl⟩ | ⟨hs, hid, rfl, rfl, rfl⟩ |
    ⟨hs, hid, rfl, rfl, hd⟩
  · exact h.grant hs
  · rw [if_pos rfl, if_pos rfl, if_pos rfl, Nat.zero_add]
    exact h.fulfil hs hid
  · exact h.refuse hs hid (may.not_waiting hid) hd

/-- The client that is asked to give the lock back has it. -/
theorem holds_of_revoked {d : Str} (hx : serverAcquire s id = some (r, ret, some d)) : Holds r d := by
  rcases serverAcquire_cases hx with ⟨-, -, -, hd⟩ | ⟨hs, hid, rfl, -, hd⟩ | ⟨hs, hid, rfl, -, hd⟩
  · cases hd
  · split_ifs at hd
    cases hd
    exact ⟨rfl, hid⟩
  · split_ifs at hd with hlocked
    cases hd
    exact ⟨hlocked.1, rfl⟩

/-- Nobody obtains the lock ahead of the client that was refused first. -/
theorem Recorded.first_refused (h : Recorded s q n c)
    (hx : serverAcquire s id = some (r, statusOk, dest)) : ∀ d ∈ q.head?, d = id := by
  rcases serverAcquire_cases hx with ⟨hs, -⟩ | ⟨hs, hid, -⟩ | ⟨-, -, -, hret, -⟩
  · rw [h.waiting, (h.free hs).1, promised, hs]
    simp
  · rw [h.waiting, promised, if_pos hs, hid]
    simp
  · cases hret

theorem Recorded.release (h : Recorded s q n c) (hx : serverRelease s id = some (r, dest)) :
    Recorded r q 0 none := by
  unfold serverRelease at hx
  split_ifs at hx with hs hid
  have hs' : s.state = .locked := not_not.1 hs
  have hq : q = s.waitingClients := by
    rw [h.waiting, promised, hs']
    rfl
  subst hq
  cases hw : s.waitingClients with
  | nil =>
    simp only [hw] at hx
    cases hx
    constructor
    · exact ⟨List.nodup_nil, List.not_mem_nil, fun _ => ⟨rfl, rfl⟩, fun hne => absurd rfl hne⟩
    · rfl
    · rfl
    · simp
    · exact fun _ => rfl
  | cons d rest =>
    have hnodup := h.nodup
    simp only [hw] at hx
    rw [hw, List.nodup_cons] at hnodup
    cases hx
    constructor
    · exact ⟨hnodup.2, hnodup.1, fun hf => (by cases hf), fun hne => by simpa using hne⟩
    · simp [promised]
    · rfl
    · simp
    · rintro ⟨⟩
      rfl

/-! ## Every sequence of calls -/

theorem refused_snoc (lid : LockId) (tr : List Event) (e : Event) :
    refused lid (tr ++ [e]) = noteRefusal lid (refused lid tr) e := by
  simp [refused]

theorem revokes_snoc (lid : LockId) (tr : List Event) (e : Event) :
    revokes lid (tr ++ [e]) = noteRevoke lid (revokes lid tr) e := by
  simp [revokes]

theorem holder_snoc (lid : LockId) (tr : List Event) (e : Event) :
    holder lid (tr ++ [e]) = noteHolder lid (holder lid tr) e := by
  simp [holder]

theorem run_recorded {tr : List Event} {s : Records} (hr : Run ServerStep (fun _ => {}) tr s)
    (lid : LockId) : Recorded (s lid) (refused lid tr) (revokes lid tr) (holder lid tr) := by
  refine hr.history_invariant
    (I := fun tr s => Recorded (s lid) (refused lid tr) (revokes lid tr) (holder lid tr))
    Recorded.start ?_
  intro tr s e s' _ ih hstep
  rw [refused_snoc, revokes_snoc, holder_snoc]
  cases hstep with
  | @acquire lid' id r ret dest may hx =>
    by_cases hl : lid' = lid
    · subst hl
      simpa [noteRefusal, noteRevoke, noteHolder] using ih.acquire may hx
    · simpa [noteRefusal, noteRevoke, noteHolder, hl, Ne.symm hl] using ih
  | @release lid' id r dest may hx =>
    by_cases hl : lid' = lid
    · subst hl
      simpa [noteRefusal, noteRevoke, noteHolder] using ih.release hx
    · simpa [noteRefusal, noteRevoke, noteHolder, hl, Ne.symm hl] using ih

theorem Recorded.holds_iff (h : Recorded s q n c) : c = some id ↔ Holds s id := by
  rw [h.holds, Holds]
  split
  · simp [*]
  · simp [*]

/-- After every sequence of calls the queue is in order, the holder has been asked for the lock at
most once, and just once if somebody waits; only holders have ever been asked; and the lock has passed
to the refused clients in the order of their refusals, nobody else obtaining it in between. -/
theorem queue_fifo {tr : List Event} {s : Records} (hr : Run ServerStep (fun _ => {}) tr s)
    (lid : LockId) :
    QueueOk (s lid) ∧ revokes lid tr ≤ 1 ∧
      ((s lid).state = .locked → (s lid).waitingClients ≠ [] → revokes lid tr = 1) ∧
      (∀ id, holder lid tr = some id ↔ Holds (s lid) id) ∧
      (∀ pre post id ret d, tr = pre ++ .acquired lid id ret (some d) :: post →
        holder lid (pre ++ [.acquired lid id ret (some d)]) = some d) ∧
      refused lid tr = promised (s lid) ++ (s lid).waitingClients ∧
      ∀ pre post id dest, tr = pre ++ .acquired lid id statusOk dest :: post →
        ∀ d ∈ (refused lid pre).head?, d = id := by
  have h := run_recorded hr lid
  refine ⟨h.toQueueOk, ?_, ?_, fun id => h.holds_iff, ?_, h.waiting, ?_⟩
  · rw [h.revoked]
    split <;> simp
  · intro hs hw
    rw [h.revoked, if_pos ⟨hs, h.ordered hw⟩]
  · rintro pre post id ret d rfl
    obtain ⟨s₁, s₂, hpre, hstep, -⟩ := hr.split
    apply (run_recorded (hpre.snoc hstep) lid).holds_iff.2
    cases hstep with
    | acquire _ hx =>
      rw [Function.update_self]
      exact holds_of_revoked hx
  · rintro pre post id dest rfl
    obtain ⟨s₁, s₂, hpre, hstep, -⟩ := hr.split
    cases hstep with
    | acquire _ hx => exact (run_recorded hpre lid).first_refused hx

/-- Only one lock is in use. -/
def single (lid : LockId) (s : LockStateServer) : Records := Function.update (fun _ => {}) lid s

theorem single_acquire (lid : LockId) (may : MayAcquire s id)
    (hx : serverAcquire s id = some (r, ret, dest)) :
    ServerStep (single lid s) (.acquired lid id ret dest) (single lid r) := by
  have hs : single lid s lid = s := by simp [single]
  have hstep := ServerStep.acquire (s := single lid s) (hs ▸ may) (by rw [hs]; exact hx)
  rwa [single, Function.update_idem] at hstep

theorem single_release (lid : LockId) (may : Holds s id)
    (hx : serverRelease s id = some (r, dest)) :
    ServerStep (single lid s) (.released lid id dest) (single lid r) := by
  have hs : single lid s lid = s := by simp [single]
  have hstep := ServerStep.release (s := single lid s) (hs ▸ may) (by rw [hs]; exact hx)
  rwa [single, Function.update_idem] at hstep

/-- Two clients are refused while a third one holds the lock; the first of them is promised the
lock, takes it and is asked to give it back. -/
theorem queue_fifo_handover : ∃ tr s, Run ServerStep (fun _ => {}) tr s ∧
    (s 7).waitingClients = [[67]] ∧ QueueOk (s 7) ∧ revokes 7 tr = 1 ∧ holder 7 tr = some [66] := by
  have h₁ : ServerStep (single 7 {}) (.acquired 7 [65] statusOk none)
      (single 7 ⟨.locked, ⟨[65], false⟩, []⟩) :=
    single_acquire 7 (.inl ⟨by simp [Holds], by simp⟩) rfl
  have h₂ : ServerStep (single 7 ⟨.locked, ⟨[65], false⟩, []⟩)
      (.acquired 7 [66] statusRetry (some [65])) (single 7 ⟨.locked, ⟨[65], true⟩, [[66]]⟩) :=
    single_acquire 7 (.inl ⟨by simp [Holds], by simp⟩) rfl
  have h₃ : ServerStep (single 7 ⟨.locked, ⟨[65], true⟩, [[66]]⟩)
      (.acquired 7 [67] statusRetry none) (single 7 ⟨.locked, ⟨[65], true⟩, [[66], [67]]⟩) :=
    single_acquire 7 (.inl ⟨by simp [Holds], by simp⟩) rfl
  have h₄ : ServerStep (single 7 ⟨.locked, ⟨[65], true⟩, [[66], [67]]⟩)
      (.released 7 [65] (some [66])) (single 7 ⟨.expecting, ⟨[66], true⟩, [[67]]⟩) :=
    single_release 7 ⟨rfl, rfl⟩ rfl
  have h₅ : ServerStep (single 7 ⟨.expecting, ⟨[66], true⟩, [[67]]⟩)
      (.acquired 7 [66] statusOk (some [66])) (single 7 ⟨.locked, ⟨[66], true⟩, [[67]]⟩) :=
    single_acquire 7 (.inr ⟨rfl, rfl⟩) rfl
  have hrun := ((((Run.single h₁).snoc h₂).snoc h₃).snoc h₄).snoc h₅
  rw [single, Function.update_eq_self] at hrun
  obtain ⟨hok, -, hone, hholder, -⟩ := queue_fifo hrun 7
  exact ⟨_, _, hrun, rfl, hok, hone rfl (by decide), (hholder _).2 ⟨rfl, rfl⟩⟩

end Yfs.LockQueue
