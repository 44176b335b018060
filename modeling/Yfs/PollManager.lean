import Yfs.Monitors
import Yfs.SelectAio

/-!
# The poll manager

One thread waits for descriptors and runs the callbacks of those that are ready, without the lock.
`block_remove_fd` promises that once it has returned no callback of its descriptor will be called.
It waits for one broadcast of the poll thread, without a loop, so the promise holds as long as the
system makes no spurious wake-ups.
-/

namespace Yfs.PollManager
open LabelledRuns Monitors SelectAio

variable {κ : Type}

/-- `MAX_POLL_FDS` -/
def maxPollFds : ℕ := 128

/-- `PollMgr` -/
structure Mgr (κ : Type) where
  aio : Aio
  callbacks : ℕ → Option κ
  pendingChange : Bool

inductive Cond where
  | changedone
  deriving DecidableEq, Repr

/-- The calls of `PollMgr`, the rest of `block_remove_fd` after its wait, and what the poll thread
does in `wait_loop`: the section at its top, the two halves of `wait_ready` around `select`, and the
look at `callbacks_[fd]`. -/
inductive Op (κ : Type) where
  | addCallback (fd : ℕ) (flag : PollFlag) (ch : κ)
  | delCallback (fd : ℕ) (flag : PollFlag)
  | hasCallback (fd : ℕ) (flag : PollFlag) (ch : κ)
  | blockRemoveFd (fd : ℕ)
  | removed (fd : ℕ)
  | pass
  | waitReady
  | selected (s : Snapshot)
  | look (fd : ℕ) (d : Dir)

inductive Result (κ : Type) where
  | done
  | has (b : Bool)
  | copied (s : Snapshot)
  | ready (readable writable : List ℕ)
  | found (ch : Option κ)

/-- The descriptors that `select` finds readable and writable; `none` is `EINTR`. -/
abbrev Readiness := Option (Finset ℕ × Finset ℕ)

/-- `select` returns when it has found something, and the pipe is readable when it holds a byte. -/
def Returns (a : Aio) (s : Snapshot) (readable writable : Finset ℕ) : Prop :=
  (a.pipefd ∈ readable ↔ 0 < a.bytes) ∧
    (select s.high s.trfds readable ∪ select s.high s.twfds writable).Nonempty

instance (a : Aio) (s : Snapshot) (r w : Finset ℕ) : Decidable (Returns a s r w) :=
  inferInstanceAs (Decidable (_ ∧ _))

section Exec
variable [DecidableEq κ]

/-- The sections; an index outside of `callbacks_` and a failed assertion are `none`. -/
def exec (x : Readiness) (m : Mgr κ) :
    Op κ → Option (Mgr κ × List (Notice Cond) × Ended (Op κ) (Result κ) Cond)
  | .addCallback fd flag ch =>
    if fd < maxPollFds ∧ (m.callbacks fd = none ∨ m.callbacks fd = some ch) then
      some ({ m with
        aio := watchFd m.aio fd flag
        callbacks := Function.update m.callbacks fd (some ch) }, [], .ret .done)
    else none
  | .delCallback fd flag =>
    if fd < maxPollFds then
      some ({ m with
        aio := (unwatchFd m.aio fd flag).1
        callbacks := if (unwatchFd m.aio fd flag).2 then Function.update m.callbacks fd none
          else m.callbacks }, [], .ret .done)
    else none
  | .hasCallback fd flag ch =>
    if fd < maxPollFds then
      some (m, [], .ret (.has (m.callbacks fd = some ch ∧ isWatched m.aio fd flag)))
    else none
  | .blockRemoveFd fd =>
    some ({ m with
      aio := (unwatchFd m.aio fd .rdwr).1
      pendingChange := true }, [], .wait .changedone (.removed fd))
  | .removed fd =>
    if fd < maxPollFds then
      some ({ m with callbacks := Function.update m.callbacks fd none }, [], .ret .done)
    else none
  | .pass =>
    if m.pendingChange then
      some ({ m with pendingChange := false }, [.broadcast .changedone], .ret .done)
    else some (m, [], .ret .done)
  | .waitReady => some (m, [], .ret (.copied (snapshot m.aio)))
  | .selected s =>
    match x with
    | none => some (m, [], .ret (.ready [] []))
    | some (r, w) =>
      if Returns m.aio s r w then
        (finish m.aio s r w).map fun (aio, rs, ws) => ({ m with aio := aio }, [], .ret (.ready rs ws))
      else none
  | .look fd _ => if fd < maxPollFds then some (m, [], .ret (.found (m.callbacks fd))) else none

def pollMgr (κ : Type) [DecidableEq κ] : Object (Mgr κ) Readiness (Op κ) (Result κ) Cond :=
  ⟨fun x o m => exec x m o⟩

end Exec

/-- A thread that uses the manager, and the places of the poll thread: at the top of its loop,
before it copies the sets, in `select`, with the descriptors it has yet to look at, and in a
callback. -/
inductive User (κ : Type) where
  | client
  | top
  | armed
  | waiting (s : Snapshot)
  | calls (readable writable : List ℕ)
  | calling (ch : κ) (fd : ℕ) (readable writable : List ℕ)

/-- The descriptor `p` of the pipe is known to nobody else. A callback calls `del_callback` on its
own descriptor at most, as those of `connection` do. -/
inductive Begins (p : ℕ) : User κ → Op κ → Prop where
  | add (fd : ℕ) (flag : PollFlag) (ch : κ) (hfd : fd ≠ p) :
      Begins p .client (.addCallback fd flag ch)
  | del (fd : ℕ) (flag : PollFlag) (hfd : fd ≠ p) : Begins p .client (.delCallback fd flag)
  | has (fd : ℕ) (flag : PollFlag) (ch : κ) : Begins p .client (.hasCallback fd flag ch)
  | remove (fd : ℕ) (hfd : fd ≠ p) : Begins p .client (.blockRemoveFd fd)
  | pass : Begins p .top .pass
  | copy : Begins p .armed .waitReady
  | select (s : Snapshot) : Begins p (.waiting s) (.selected s)
  | read (fd : ℕ) (rs ws : List ℕ) : Begins p (.calls (fd :: rs) ws) (.look fd .read)
  | write (fd : ℕ) (ws : List ℕ) : Begins p (.calls [] (fd :: ws)) (.look fd .write)
  | inner (ch : κ) (fd : ℕ) (rs ws : List ℕ) (flag : PollFlag) :
      Begins p (.calling ch fd rs ws) (.delCallback fd flag)

/-- The poll thread has looked at everything, or a callback returns. -/
inductive Moves : User κ → User κ → Prop where
  | again : Moves (.calls [] []) .top
  | returns (ch : κ) (fd : ℕ) (rs ws : List ℕ) : Moves (.calling ch fd rs ws) (.calls rs ws)

def back : User κ → Result κ → User κ
  | .top, _ => .armed
  | .armed, .copied s => .waiting s
  | .waiting _, .ready rs ws => .calls rs ws
  | .calls (_ :: rs) ws, .found none => .calls rs ws
  | .calls (fd :: rs) ws, .found (some ch) => .calling ch fd rs ws
  | .calls [] (_ :: ws), .found none => .calls [] ws
  | .calls [] (fd :: ws), .found (some ch) => .calling ch fd [] ws
  | u, _ => u

def users (p : ℕ) : Users (User κ) (Op κ) (Result κ) Cond where
  begins _ := Begins p
  back := back
  moves _ := Moves

abbrev State (κ : Type) := Config (Mgr κ) (User κ) (Op κ) Cond

abbrev Label (κ : Type) := ℕ × Act Readiness (User κ) (Op κ) (Result κ) Cond

/-- `PollMgr::PollMgr`, with its thread first and `n` threads that use it. -/
def start (p n : ℕ) : State κ :=
  ⟨⟨newAio p, fun _ => none, false⟩, .out .top :: List.replicate n (.out .client)⟩

/-! ## The sections -/

/-- What a section can do. -/
inductive Effect (m : Mgr κ) :
    Op κ → Mgr κ → List (Notice Cond) → Ended (Op κ) (Result κ) Cond → Prop where
  | add (fd : ℕ) (flag : PollFlag) (ch : κ) (hfd : fd < maxPollFds) :
      Effect m (.addCallback fd flag ch)
        ⟨watchFd m.aio fd flag, Function.update m.callbacks fd (some ch), m.pendingChange⟩ []
        (.ret .done)
  | del (fd : ℕ) (flag : PollFlag) (cbs : ℕ → Option κ) :
      Effect m (.delCallback fd flag) ⟨(unwatchFd m.aio fd flag).1, cbs, m.pendingChange⟩ []
        (.ret .done)
  | has (fd : ℕ) (flag : PollFlag) (ch : κ) (b : Bool) :
      Effect m (.hasCallback fd flag ch) m [] (.ret (.has b))
  | remove (fd : ℕ) :
      Effect m (.blockRemoveFd fd) ⟨(unwatchFd m.aio fd .rdwr).1, m.callbacks, true⟩ []
        (.wait .changedone (.removed fd))
  | removed (fd : ℕ) (cbs : ℕ → Option κ) :
      Effect m (.removed fd) { m with callbacks := cbs } [] (.ret .done)
  | passPending (h : m.pendingChange = true) :
      Effect m .pass { m with pendingChange := false } [.broadcast .changedone] (.ret .done)
  | passIdle (h : m.pendingChange = false) : Effect m .pass m [] (.ret .done)
  | copy : Effect m .waitReady m [] (.ret (.copied (snapshot m.aio)))
  | interrupted (s : Snapshot) : Effect m (.selected s) m [] (.ret (.ready [] []))
  | ready (s : Snapshot) (r w : Finset ℕ) (aio : Aio) (rs ws : List ℕ)
      (h : finish m.aio s r w = some (aio, rs, ws)) :
      Effect m (.selected s) { m with aio := aio } [] (.ret (.ready rs ws))
  | look (fd : ℕ) (d : Dir) : Effect m (.look fd d) m [] (.ret (.found (m.callbacks fd)))

theorem exec_effect [DecidableEq κ] {x : Readiness} {o : Op κ} {m m' : Mgr κ} {ns : List (Notice Cond)}
    {e : Ended (Op κ) (Result κ) Cond} (h : (pollMgr κ).exec x o m = some (m', ns, e)) :
    Effect m o m' ns e := by
  change exec x m o = _ at h
  cases o with
  | addCallback fd flag ch =>
    simp only [exec] at h
    split_ifs at h with hc
    cases h
    exact .add fd flag ch hc.1
  | delCallback fd flag =>
    simp only [exec] at h
    split_ifs at h
    all_goals
      cases h
      exact .del fd flag _
  | hasCallback fd flag ch =>
    simp only [exec] at h
    split_ifs at h
    cases h
    exact .has fd flag ch _
  | blockRemoveFd fd =>
    cases h
    exact .remove fd
  | removed fd =>
    simp only [exec] at h
    split_ifs at h
    cases h
    exact .removed fd _
  | pass =>
    simp only [exec] at h
    split_ifs at h with hp
    · cases h
      exact .passPending hp
    · cases h
      exact .passIdle (by simpa using hp)
  | waitReady =>
    cases h
    exact .copy
  | selected s =>
    rcases x with _ | ⟨r, w⟩
    · cases h
      exact .interrupted s
    · simp only [exec] at h
      split_ifs at h
      obtain ⟨⟨aio, rs, ws⟩, hf, h⟩ := Option.map_eq_some_iff.mp h
      cases h
      exact .ready s r w aio rs ws hf
  | look fd d =>
    simp only [exec] at h
    split_ifs at h
    cases h
    exact .look fd d

/-! ## What the poll thread holds -/

def User.isPoll : User κ → Bool
  | .client => false
  | _ => true

/-- The descriptors that the poll thread may call back on in this round. -/
def User.carries (fd : ℕ) : User κ → Prop
  | .waiting s => fd ∈ s.trfds ∨ fd ∈ s.twfds
  | .calls rs ws => fd ∈ rs ∨ fd ∈ ws
  | .calling _ fd' rs ws => fd = fd' ∨ fd ∈ rs ∨ fd ∈ ws
  | _ => False

abbrev View (κ : Type) := User κ × Option (Op κ)

/-- The operation that a thread is in. -/
def Fits (p : ℕ) : View κ → Prop
  | (_, none) => True
  | (u, some o) => Begins p u o ∨ u = .client ∧ ∃ fd, o = .removed fd

structure Shape (p n : ℕ) (vs : List (View κ)) : Prop where
  polls : vs.map (fun v => v.1.isPoll) = true :: List.replicate n false
  fits : ∀ v ∈ vs, Fits p v

variable {p n i fd : ℕ} {g g' : State κ} {l : Label κ} {vs : List (View κ)} {u u' : User κ}
  {o : Option (Op κ)}

theorem back_isPoll (u : User κ) (r : Result κ) : (back u r).isPoll = u.isPoll := by
  unfold back
  split <;> rfl

theorem Shape.set (h : Shape p n vs) (hi : vs[i]? = some (u, o)) {v : View κ}
    (hv : v.1.isPoll = u.isPoll) (hfits : Fits p v) : Shape p n (vs.set i v) := by
  refine ⟨?_, forall_mem_set h.fits hfits⟩
  rw [← h.polls, List.map_set]
  apply set_of_getElem?
  rw [List.getElem?_map, hi, Option.map_some, hv]

/-- Only the poll thread is at a place of the poll thread. -/
theorem Shape.poll_zero (h : Shape p n vs) (hi : vs[i]? = some (u, o)) (hu : u ≠ .client) :
    i = 0 := by
  have hp : (true :: List.replicate n false)[i]? = some u.isPoll := by
    rw [← h.polls, List.getElem?_map, hi, Option.map_some]
  cases i with
  | zero => rfl
  | succ i =>
    rw [List.getElem?_cons_succ] at hp
    have := List.eq_of_mem_replicate (List.mem_of_getElem? hp)
    cases u with
    | client => exact absurd rfl hu
    | _ => cases this

section Steps
variable [DecidableEq κ]

theorem Shape.step (h : Shape p n g.views) (hs : Step (pollMgr κ) (users p) g l g') :
    Shape p n g'.views := by
  have hseen := hs.seen
  generalize g'.shared = m', g'.views = vs' at hseen
  cases hseen with
  | began hi hb => exact h.set hi rfl (.inl hb)
  | moved hi hm =>
    refine h.set hi ?_ trivial
    cases hm <;> rfl
  | stirred => exact h
  | @ran i x u o _ ns e hi hx =>
    cases exec_effect hx with
    | remove fd =>
      have hu : u = .client := by
        rcases h.fits _ (List.mem_of_getElem? hi) with hb | hc
        · cases hb
          rfl
        · exact hc.1
      exact h.set hi rfl (.inr ⟨hu, fd, rfl⟩)
    | _ => exact h.set hi (back_isPoll u _) trivial

end Steps

/-! ## Descriptors that are out of the way -/

/-- No callback of `fd` is under way, and none will come unless `fd` is added again. -/
structure Quiet (fd : ℕ) (g : State κ) : Prop where
  unwatched : ∀ d, fd ∉ g.shared.aio.fds d
  uncarried : ∀ v ∈ g.views, ¬v.1.carries fd

/-- The step is an `add_callback` on `fd`. -/
def Adds (fd : ℕ) (l : Label κ) : Prop :=
  ∃ flag ch, ∃ x e, l.2 = .ran x (.addCallback fd flag ch) e

/-- The step calls a callback of `fd`. -/
def CallsBack (fd : ℕ) (l : Label κ) : Prop :=
  ∃ x d ch, l.2 = .ran x (.look fd d) (.ret (.found (some ch)))

theorem Effect.unwatched {m m' : Mgr κ} {op : Op κ} {ns : List (Notice Cond)}
    {e : Ended (Op κ) (Result κ) Cond} (he : Effect m op m' ns e)
    (h : ∀ d, fd ∉ m.aio.fds d) (hop : ∀ flag ch, op ≠ .addCallback fd flag ch) :
    ∀ d, fd ∉ m'.aio.fds d := by
  intro d
  cases he with
  | add fd' flag ch =>
    rw [fds_watch]
    have hne : fd ≠ fd' := fun hf => hop flag ch (hf ▸ rfl)
    split_ifs
    · exact fun hm => (Finset.mem_insert.mp hm).elim hne (h d)
    · exact h d
  | del fd' flag =>
    rw [fds_unwatch]
    split_ifs
    · exact fun hm => h d (Finset.mem_of_mem_erase hm)
    · exact h d
  | remove fd' =>
    rw [fds_unwatch]
    split_ifs
    · exact fun hm => h d (Finset.mem_of_mem_erase hm)
    · exact h d
  | ready s r w aio rs ws hf =>
    obtain ⟨-, -, b, rfl⟩ := finish_found hf
    cases d
    · exact h .read
    · exact h .write
  | _ => exact h d

theorem not_carries_back {m m' : Mgr κ} {op : Op κ} {ns : List (Notice Cond)} {r : Result κ}
    (he : Effect m op m' ns (.ret r)) (hfits : Fits p (u, some op)) (hu : ¬u.carries fd)
    (h : ∀ d, fd ∉ m.aio.fds d) : ¬(back u r).carries fd := by
  cases he with
  | copy =>
    rcases hfits with hb | ⟨-, fd', hop⟩
    · cases hb
      exact fun hc => hc.elim (h .read) (h .write)
    · cases hop
  | interrupted s =>
    rcases hfits with hb | ⟨-, fd', hop⟩
    · cases hb
      exact fun hc => hc.elim (absurd · List.not_mem_nil) (absurd · List.not_mem_nil)
    · cases hop
  | ready s r w aio rs ws hf =>
    obtain ⟨h1, h2, -⟩ := finish_found hf
    rcases hfits with hb | ⟨-, fd', hop⟩
    · cases hb
      exact fun hc => hu (hc.imp (fun hr => (h1 fd hr).1) (h2 fd))
    · cases hop
  | look fd' d =>
    rcases hfits with hb | ⟨-, fd', hop⟩
    · cases hb with
      | read _ rs ws =>
        have hcases : (back (.calls (fd' :: rs) ws) (.found (m.callbacks fd'))).carries fd →
            fd = fd' ∨ fd ∈ rs ∨ fd ∈ ws := by
          cases m.callbacks fd' with
          | none => exact .inr
          | some ch => exact id
        intro hc
        apply hu
        rcases hcases hc with rfl | hc | hc
        · exact .inl List.mem_cons_self
        · exact .inl (List.mem_cons_of_mem _ hc)
        · exact .inr hc
      | write _ ws =>
        have hcases : (back (.calls [] (fd' :: ws)) (.found (m.callbacks fd'))).carries fd →
            fd = fd' ∨ fd ∈ ws := by
          cases m.callbacks fd' with
          | none => exact fun hc => .inr (hc.resolve_left List.not_mem_nil)
          | some ch => exact fun hc => hc.imp id fun hc => hc.resolve_left List.not_mem_nil
        intro hc
        apply hu
        rcases hcases hc with rfl | hc
        · exact .inr List.mem_cons_self
        · exact .inr (List.mem_cons_of_mem _ hc)
    · cases hop
  | passPending | passIdle =>
    rcases hfits with hb | ⟨-, fd', hop⟩
    · cases hb
      exact id
    · cases hop
  | add | del | has | removed =>
    rcases hfits with hb | ⟨rfl, -⟩
    · cases hb <;> exact hu
    · exact hu

section Guarantee
variable [DecidableEq κ]

theorem Quiet.step (hsh : Shape p n g.views) (h : Quiet fd g)
    (hs : Step (pollMgr κ) (users p) g l g') (hadd : ¬Adds fd l) : Quiet fd g' := by
  have hseen := hs.seen
  suffices hq : (∀ d, fd ∉ g'.shared.aio.fds d) ∧ ∀ v ∈ g'.views, ¬v.1.carries fd from ⟨hq.1, hq.2⟩
  generalize g'.shared = m', g'.views = vs' at hseen
  cases hseen with
  | began hi hb =>
    have hu := h.uncarried _ (List.mem_of_getElem? hi)
    exact ⟨h.unwatched, forall_mem_set h.uncarried hu⟩
  | moved hi hm =>
    have hu := h.uncarried _ (List.mem_of_getElem? hi)
    refine ⟨h.unwatched, forall_mem_set h.uncarried ?_⟩
    cases hm with
    | again => exact id
    | returns => exact fun hc => hu (.inr hc)
  | stirred => exact ⟨h.unwatched, h.uncarried⟩
  | @ran i x u o _ ns e hi hx =>
    have he := exec_effect hx
    have hu := h.uncarried _ (List.mem_of_getElem? hi)
    have hfits := hsh.fits _ (List.mem_of_getElem? hi)
    refine ⟨he.unwatched h.unwatched fun flag ch ho => hadd ⟨flag, ch, x, e, ho ▸ rfl⟩,
      forall_mem_set h.uncarried ?_⟩
    cases e with
    | ret r => exact not_carries_back he hfits hu h.unwatched
    | wait c o' => exact hu
    | yield o' => exact hu

theorem Quiet.not_callsBack (hsh : Shape p n g.views) (h : Quiet fd g)
    (hs : Step (pollMgr κ) (users p) g l g') : ¬CallsBack fd l := by
  rintro ⟨x, d, ch, hl⟩
  have hseen := hs.seen
  generalize g'.shared = m', g'.views = vs' at hseen
  cases hseen with
  | @ran i x u o _ ns e hi hx =>
    cases hl
    have hu := h.uncarried _ (List.mem_of_getElem? hi)
    rcases hsh.fits _ (List.mem_of_getElem? hi) with hb | ⟨-, fd', hop⟩
    · cases hb with
      | read => exact hu (.inl List.mem_cons_self)
      | write => exact hu (.inr List.mem_cons_self)
    · cases hop
  | _ => cases hl

/-- A thread that is in `block_remove_fd` sleeps until the poll thread has come to the top of its
loop, and from then on the descriptor is quiet. -/
def Leaving (i fd : ℕ) (g : State κ) : Prop :=
  (∀ d, fd ∉ g.shared.aio.fds d) ∧
    (Quiet fd g ∨ g.shared.pendingChange = true ∧
      ∃ u, g.threads[i]? = some (.asleep u .changedone (.removed fd)))

omit [DecidableEq κ] in
/-- At the top of its loop the poll thread carries nothing. -/
theorem quiet_of_pass (hsh : Shape p n g.views) (hun : ∀ d, fd ∉ g'.shared.aio.fds d)
    (hi : g.views[i]? = some (.top, o)) (hv : g'.views = g.views.set i (.armed, none)) :
    Quiet fd g' := by
  refine ⟨hun, fun v hm => ?_⟩
  rw [hv] at hm
  obtain ⟨k, hk⟩ := List.mem_iff_getElem?.mp hm
  obtain rfl := hsh.poll_zero hi nofun
  by_cases h0 : k = 0
  · subst h0
    rw [List.getElem?_set_self (List.getElem?_eq_some_iff.mp hi).1] at hk
    cases hk
    exact id
  · rw [List.getElem?_set_ne (Ne.symm h0)] at hk
    obtain ⟨u, o'⟩ := v
    by_cases hu : u = .client
    · subst hu
      exact id
    · exact absurd (hsh.poll_zero hk hu) h0

theorem Leaving.step (hsh : Shape p n g.views) (h : Leaving i fd g)
    (hs : Step (pollMgr κ) (users p) g l g') (hadd : ¬Adds fd l) (hstir : l ≠ (i, .stirred)) :
    Leaving i fd g' := by
  obtain ⟨hun, hq | ⟨hp, u, hi⟩⟩ := h
  · have := hq.step hsh hs hadd
    exact ⟨this.unwatched, .inl this⟩
  have hother : ∀ {j : ℕ} {t t' : Thread (User κ) (Op κ) Cond}, g.threads[j]? = some t →
      (∀ u c o, t ≠ .asleep u c o) → (g.threads.set j t')[i]? = g.threads[i]? := by
    intro j t t' hj ht
    apply List.getElem?_set_ne
    rintro rfl
    rw [hi] at hj
    exact ht _ _ _ (Option.some.inj hj).symm
  cases hs with
  | begin hj => exact ⟨hun, .inr ⟨hp, u, (hother hj nofun).trans hi⟩⟩
  | move hj => exact ⟨hun, .inr ⟨hp, u, (hother hj nofun).trans hi⟩⟩
  | @stir j u' c o hj =>
    have hne : j ≠ i := fun he => hstir (he ▸ rfl)
    exact ⟨hun, .inr ⟨hp, u, (List.getElem?_set_ne hne).trans hi⟩⟩
  | @run j t x u' o m' ns e ts hj ht hx hn =>
    have he := exec_effect hx
    have hun' := he.unwatched hun fun flag ch ho => hadd ⟨flag, ch, x, e, ho ▸ rfl⟩
    have hawake : ∀ u c o, t ≠ .asleep u c o := by
      rintro _ _ _ rfl
      cases ht
    refine ⟨hun', ?_⟩
    cases he with
    | passPending =>
      have hv : g.views[j]? = some (u', some .pass) := view_of_next ht ▸ views_getElem? hj
      obtain rfl : u' = .top := by
        rcases hsh.fits _ (List.mem_of_getElem? hv) with hb | ⟨-, fd', hop⟩
        · cases hb
          rfl
        · cases hop
      refine .inl (quiet_of_pass hsh hun' hv ?_)
      rw [views_set, hn.views]
      rfl
    | passIdle hidle =>
      rw [hp] at hidle
      cases hidle
    | _ =>
      cases hn
      exact .inr ⟨by first | exact hp | rfl, u, (hother hj hawake).trans hi⟩

theorem shape_run {tr : List (Label κ)} (h : Shape p n g.views)
    (hr : Run (Step (pollMgr κ) (users p)) g tr g') : Shape p n g'.views :=
  hr.invariant (I := fun g => Shape p n g.views) h fun _ _ _ h hs => h.step hs

omit [DecidableEq κ] in
theorem shape_start : Shape p n (start p n : State κ).views := by
  have hv : (start p n : State κ).views = (.top, none) :: List.replicate n (.client, none) := by
    simp [start, Config.views, Thread.view]
  refine ⟨by simp [hv, User.isPoll], fun v hm => ?_⟩
  rw [hv, List.mem_cons, List.mem_replicate] at hm
  rcases hm with rfl | ⟨-, rfl⟩ <;> trivial

theorem leaving_of_begins {x : Readiness} {e : Ended (Op κ) (Result κ) Cond}
    (hs : Step (pollMgr κ) (users p) g (i, .ran x (.blockRemoveFd fd) e) g') :
    Leaving i fd g' := by
  cases hs with
  | @run _ t _ u _ m' ns _ ts hi ht hx hn =>
    cases exec_effect hx
    cases hn
    refine ⟨fun d => ?_, .inr ⟨rfl, u, ?_⟩⟩
    · rw [fds_unwatch]
      cases d <;> exact Finset.notMem_erase fd _
    · exact List.getElem?_set_self (List.getElem?_eq_some_iff.mp hi).1

theorem Shape.leaving_run {tr : List (Label κ)} (hsh : Shape p n g.views)
    (hr : Run (Step (pollMgr κ) (users p)) g tr g') (h : Leaving i fd g)
    (hstir : (i, .stirred) ∉ tr) (hadd : ∀ l ∈ tr, ¬Adds fd l) : Leaving i fd g' := by
  have hboth := hr.invariant_on (I := fun g => Shape p n g.views ∧ Leaving i fd g)
    (P := fun l => ¬Adds fd l ∧ l ≠ (i, .stirred)) ?_ ⟨hsh, h⟩ ?_
  · exact hboth.2
  · exact fun l hl => ⟨hadd l hl, fun he => hstir (he ▸ hl)⟩
  · exact fun b l c hP h hs => ⟨h.1.step hs, h.2.step h.1 hs hP.1 hP.2⟩

/-- A thread that goes on after its wait was woken. -/
theorem Leaving.quiet_of_ends {x : Readiness} {e : Ended (Op κ) (Result κ) Cond}
    (h : Leaving i fd g) (hs : Step (pollMgr κ) (users p) g (i, .ran x (.removed fd) e) g') :
    Quiet fd g := by
  obtain ⟨-, hq | ⟨-, u, hi⟩⟩ := h
  · exact hq
  · cases hs with
    | run hi' ht =>
      rw [hi] at hi'
      cases hi'
      cases ht

/-- When `block_remove_fd` returns, no callback of its descriptor is under way, and none is called
until the descriptor is added again, unless the wait in `block_remove_fd` ended by itself. -/
theorem removed_for_good {tr₀ tr₁ tr₂ : List (Label κ)} {g₀ g₁ g₂ g₃ g₄ : State κ}
    {x x' : Readiness} {e : Ended (Op κ) (Result κ) Cond}
    (h₀ : Run (Step (pollMgr κ) (users p)) (start p n) tr₀ g₀)
    (begins : Step (pollMgr κ) (users p) g₀ (i, .ran x (.blockRemoveFd fd) e) g₁)
    (h₁ : Run (Step (pollMgr κ) (users p)) g₁ tr₁ g₂)
    (ends : Step (pollMgr κ) (users p) g₂ (i, .ran x' (.removed fd) (.ret .done)) g₃)
    (h₂ : Run (Step (pollMgr κ) (users p)) g₃ tr₂ g₄)
    (hstir : (i, .stirred) ∉ tr₁) (hadd : ∀ l ∈ tr₁ ++ tr₂, ¬Adds fd l) :
    (∀ v ∈ g₃.views, ¬v.1.carries fd) ∧ ∀ l ∈ tr₂, ¬CallsBack fd l := by
  have hs₁ := (shape_run shape_start h₀).step begins
  rw [List.forall_mem_append] at hadd
  have hl := (hs₁.leaving_run h₁ (leaving_of_begins begins) hstir hadd.1)
  have hs₂ := shape_run hs₁ h₁
  have hq₂ := hl.quiet_of_ends ends
  have hq₃ := hq₂.step hs₂ ends nofun
  have hs₃ := hs₂.step ends
  refine ⟨hq₃.uncarried, fun l hl => ?_⟩
  obtain ⟨tr, tr', rfl⟩ := List.append_of_mem hl
  obtain ⟨c, d, hc, hs, -⟩ := h₂.split
  have hq : Shape p n c.views ∧ Quiet fd c := by
    refine hc.invariant_on (I := fun g => Shape p n g.views ∧ Quiet fd g)
      (P := fun l => ¬Adds fd l) ?_ ⟨hs₃, hq₃⟩ ?_
    · exact fun l hl => hadd.2 l (List.mem_append_left _ hl)
    · exact fun b l c hP h hs => ⟨h.1.step hs, h.2.step h.1 hs hP⟩
  exact hq.2.not_callsBack hq.1 hs

end Guarantee

/-- The manager after `add_callback(5, CB_RDONLY, 7)`, with the byte taken from its pipe. -/
def watching : Mgr ℕ :=
  ⟨{ watchFd (newAio 3) 5 .rdonly with bytes := 0 },
    Function.update (fun _ => none) 5 (some 7), false⟩

/-- The poll thread is in the callback of descriptor 5. -/
def calling : State ℕ := ⟨watching, [.out (.calling 7 5 [] []), .out .client]⟩

/-- A thread sleeps in `block_remove_fd` while the callback runs. -/
def asking : State ℕ :=
  ⟨{ watching with aio := (unwatchFd watching.aio 5 .rdwr).1, pendingChange := true },
    [.out (.calling 7 5 [] []), .asleep .client .changedone (.removed 5)]⟩

/-- The callback has returned and the poll thread has been at the top of its loop. -/
def answered : State ℕ :=
  ⟨{ asking.shared with pendingChange := false },
    [.out .armed, .woken .client .changedone (.removed 5)]⟩

/-- A thread makes a call that returns and wakes nobody. -/
theorem run_call {g₀ : State ℕ} {tr : List (Label ℕ)} {m m' : Mgr ℕ} {i : ℕ} {u : User ℕ}
    {ts : List (Thread (User ℕ) (Op ℕ) Cond)} (h : Run (Step (pollMgr ℕ) (users 3)) g₀ tr ⟨m, ts⟩)
    (x : Readiness) (o : Op ℕ) (r : Result ℕ) (hi : ts[i]? = some (.out u)) (hb : Begins 3 u o)
    (hx : exec x m o = some (m', [], .ret r)) :
    Run (Step (pollMgr ℕ) (users 3)) g₀ (tr ++ [(i, .began o)] ++ [(i, .ran x o (.ret r))])
      ⟨m', (ts.set i (.ready u o)).set i (.out (back u r))⟩ := by
  have hready : (ts.set i (.ready u o))[i]? = some (.ready u o) :=
    List.getElem?_set_self (List.getElem?_eq_some_iff.mp hi).1
  exact (h.snoc (.begin hi hb)).snoc (.run hready rfl hx (.nil _))

theorem run_calling : ∃ tr, Run (Step (pollMgr ℕ) (users 3)) (start 3 1) tr calling := by
  have init : Run (Step (pollMgr ℕ) (users 3)) (start 3 1) [] (start 3 1) := .nil
  have added := run_call (i := 1) init none (.addCallback 5 .rdonly 7) .done rfl
    (.add 5 .rdonly 7 (by decide)) rfl
  have passed := run_call (i := 0) added none .pass .done rfl .pass rfl
  have copied := run_call (i := 0) passed none .waitReady (.copied ⟨{5, 3}, ∅, 5⟩) rfl .copy rfl
  -- the byte of `add_callback` is still in the pipe, so `select` finds the pipe readable too
  have selected := run_call (i := 0) copied (some ({3, 5}, ∅)) (.selected ⟨{5, 3}, ∅, 5⟩)
    (.ready [5] []) rfl (.select _) rfl
  exact ⟨_, run_call (i := 0) selected none (.look 5 .read) (.found (some 7)) rfl
    (.read 5 [] []) rfl⟩

theorem run_asking : ∃ tr g, Run (Step (pollMgr ℕ) (users 3)) (start 3 1) tr g ∧
    Step (pollMgr ℕ) (users 3) g
      (1, .ran none (.blockRemoveFd 5) (.wait .changedone (.removed 5))) asking := by
  obtain ⟨tr, h⟩ := run_calling
  exact ⟨_, _, h.snoc (.begin (i := 1) rfl (.remove 5 (by decide))), .run rfl rfl rfl (.nil _)⟩

theorem removed_for_good_calling : (∃ v ∈ asking.views, v.1.carries 5) ∧
    ∃ g : State ℕ, g.threads = [.out .armed, .out .client] ∧
      (∃ tr, Run (Step (pollMgr ℕ) (users 3)) asking tr g) ∧ (∀ v ∈ g.views, ¬v.1.carries 5) ∧
        ¬CallsBack 5 ((0, .began .waitReady) : Label ℕ) := by
  obtain ⟨tr₀, g₀, h₀, begins⟩ := run_asking
  have passes : Step (pollMgr ℕ) (users 3)
      ⟨asking.shared, [.ready .top .pass, .asleep .client .changedone (.removed 5)]⟩
      (0, .ran none .pass (.ret .done)) answered :=
    .run (u := User.top) rfl rfl rfl (notifyAll_rouseAll [.broadcast Cond.changedone] _)
  have h₁ : Run (Step (pollMgr ℕ) (users 3)) asking
      [(0, .moved (.calling 7 5 [] []) (.calls [] [])), (0, .moved (.calls [] []) .top),
        (0, .began .pass), (0, .ran none .pass (.ret .done))] answered :=
    (((Run.single (.move rfl (.returns 7 5 [] []))).snoc (.move rfl .again)).snoc
      (.begin rfl .pass)).snoc passes
  have ends : Step (pollMgr ℕ) (users 3) answered (1, .ran none (.removed 5) (.ret .done))
      ⟨_, [.out .armed, .out .client]⟩ := .run (u := User.client) rfl rfl rfl (.nil _)
  have key := removed_for_good h₀ begins h₁ ends (.single (.begin (i := 0) rfl .copy))
    (by simp) (by simp [Adds])
  exact ⟨⟨_, List.mem_cons_self, .inl rfl⟩, _, rfl, ⟨_, h₁.snoc ends⟩, key.1,
    key.2 _ (List.mem_singleton_self _)⟩

end Yfs.PollManager
