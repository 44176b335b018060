import Mathlib.Data.Finset.Insert
import Mathlib.Data.Finset.Filter
import Mathlib.Data.Finset.Erase
import Mathlib.Order.Lattice.Nat

/-!
# The sets of descriptors of `select`

`SelectAIO` keeps two sets of file descriptors, the largest of them, and a pipe whose only use is to
wake the thread that waits in `select`. Each descriptor has one switch for reading and one for
writing; `wait_ready` reports those that are on and ready.
-/

namespace Yfs.SelectAio

inductive PollFlag where
  | rdonly
  | wronly
  | rdwr
  deriving DecidableEq, Repr

/-- `SelectAIO`, with the number of bytes in its pipe; `pipefd` is `pipefd_[0]`. -/
structure Aio where
  rfds : Finset ℕ
  wfds : Finset ℕ
  highfds : ℕ
  pipefd : ℕ
  bytes : ℕ

/-- `SelectAIO::SelectAIO` -/
def newAio (pipefd : ℕ) : Aio := ⟨{pipefd}, ∅, pipefd, pipefd, 0⟩

def watchFd (a : Aio) (fd : ℕ) (flag : PollFlag) : Aio :=
  { a with
    highfds := if a.highfds ≤ fd then fd else a.highfds
    rfds := match flag with
      | .rdonly | .rdwr => insert fd a.rfds
      | .wronly => a.rfds
    wfds := match flag with
      | .wronly | .rdwr => insert fd a.wfds
      | .rdonly => a.wfds
    bytes := a.bytes + 1 }

def isWatched (a : Aio) (fd : ℕ) : PollFlag → Bool
  | .rdonly => fd ∈ a.rfds
  | .wronly => fd ∈ a.wfds
  | .rdwr => fd ∈ a.rfds ∧ fd ∈ a.wfds

/-- The loop of `unwatch_fd` for the new `highfds_` -/
def scan (rfds wfds : Finset ℕ) (newh : ℕ) (fds : List ℕ) : ℕ :=
  fds.foldl (fun newh i => if i ∈ rfds then i else if i ∈ wfds then i else newh) newh

def unwatchFd (a : Aio) (fd : ℕ) (flag : PollFlag) : Aio × Bool :=
  let rfds := match flag with
    | .rdonly | .rdwr => a.rfds.erase fd
    | .wronly => a.rfds
  let wfds := match flag with
    | .wronly | .rdwr => a.wfds.erase fd
    | .rdonly => a.wfds
  let highfds :=
    if fd ∉ rfds ∧ fd ∉ wfds ∧ fd = a.highfds then
      scan rfds wfds a.pipefd (List.range (a.highfds + 1))
    else a.highfds
  ({ a with
      rfds := rfds
      wfds := wfds
      highfds := highfds
      bytes := if flag = .rdwr then a.bytes + 1 else a.bytes },
    fd ∉ rfds ∧ fd ∉ wfds)

/-- What `wait_ready` copies before it calls `select`. -/
structure Snapshot where
  trfds : Finset ℕ
  twfds : Finset ℕ
  high : ℕ
  deriving DecidableEq

def snapshot (a : Aio) : Snapshot := ⟨a.rfds, a.wfds, a.highfds⟩

/-- What `select(high + 1, …)` leaves of a set when the descriptors of `ready` are ready. -/
def select (high : ℕ) (fds ready : Finset ℕ) : Finset ℕ :=
  fds.filter fun fd => fd ∈ ready ∧ fd < high + 1

/-- The last loop of `wait_ready` -/
def collect (pipefd : ℕ) (trfds twfds : Finset ℕ) (fds : List ℕ) (found : List ℕ × List ℕ) :
    List ℕ × List ℕ :=
  fds.foldl (fun found fd =>
    if fd = pipefd ∧ fd ∈ trfds then found
    else
      (if fd ∈ trfds then found.1 ++ [fd] else found.1,
        if fd ∈ twfds then found.2 ++ [fd] else found.2)) found

/-- `wait_ready` from the return of `select` on: the byte it takes from the pipe, and the
descriptors it has found readable and writable. A failed assertion is `none`. -/
def finish (a : Aio) (s : Snapshot) (readable writable : Finset ℕ) :
    Option (Aio × List ℕ × List ℕ) :=
  let trfds := select s.high s.trfds readable
  let twfds := select s.high s.twfds writable
  let found := collect a.pipefd trfds twfds (List.range (s.high + 1)) ([], [])
  if a.pipefd ∈ trfds then
    if a.bytes = 0 then none else some ({ a with bytes := a.bytes - 1 }, found)
  else some (a, found)

/-! ## One switch for each descriptor and direction -/

inductive Op where
  | watch (fd : ℕ) (flag : PollFlag)
  | unwatch (fd : ℕ) (flag : PollFlag)
  deriving DecidableEq, Repr

def Op.fd : Op → ℕ
  | .watch fd _ | .unwatch fd _ => fd

def apply (a : Aio) : Op → Aio
  | .watch fd flag => watchFd a fd flag
  | .unwatch fd flag => (unwatchFd a fd flag).1

inductive Dir where
  | read
  | write
  deriving DecidableEq, Repr

def PollFlag.covers : PollFlag → Dir → Bool
  | .rdonly, .read | .wronly, .write | .rdwr, _ => true
  | .rdonly, .write | .wronly, .read => false

/-- The switch of `fd` after an operation. -/
def switch (fd : ℕ) (d : Dir) (on : Bool) : Op → Bool
  | .watch fd' flag => if fd' = fd ∧ flag.covers d then true else on
  | .unwatch fd' flag => if fd' = fd ∧ flag.covers d then false else on

def watched (ops : List Op) (fd : ℕ) (d : Dir) : Bool := ops.foldl (switch fd d) false

def Aio.fds (a : Aio) : Dir → Finset ℕ
  | .read => a.rfds
  | .write => a.wfds

theorem fds_watch (a : Aio) (fd : ℕ) (flag : PollFlag) (d : Dir) :
    (watchFd a fd flag).fds d = if flag.covers d then insert fd (a.fds d) else a.fds d := by
  cases flag <;> cases d <;> rfl

theorem fds_unwatch (a : Aio) (fd : ℕ) (flag : PollFlag) (d : Dir) :
    (unwatchFd a fd flag).1.fds d = if flag.covers d then (a.fds d).erase fd else a.fds d := by
  cases flag <;> cases d <;> rfl

theorem mem_fds_apply (a : Aio) (op : Op) (fd : ℕ) (d : Dir) {on : Bool}
    (h : fd ∈ a.fds d ↔ on = true) : fd ∈ (apply a op).fds d ↔ switch fd d on op = true := by
  cases op with
  | watch fd' flag =>
    rw [apply, fds_watch, switch]
    cases flag.covers d with
    | false => simpa using h
    | true =>
      rcases eq_or_ne fd fd' with rfl | hfd
      · simp
      · simp [hfd, hfd.symm, h]
  | unwatch fd' flag =>
    rw [apply, fds_unwatch, switch]
    cases flag.covers d with
    | false => simpa using h
    | true =>
      rcases eq_or_ne fd fd' with rfl | hfd
      · simp
      · simp [hfd, hfd.symm, h]

theorem apply_pipefd (a : Aio) (op : Op) : (apply a op).pipefd = a.pipefd := by
  cases op <;> rfl

/-! ## The largest descriptor -/

/-- `highfds_` is the largest descriptor that is watched. -/
structure High (a : Aio) : Prop where
  pipe : a.pipefd ∈ a.rfds
  top : ∀ d, ∀ fd ∈ a.fds d, fd ≤ a.highfds
  attained : ∃ d, a.highfds ∈ a.fds d

theorem scan_range_succ (r w : Finset ℕ) (p k : ℕ) :
    scan r w p (List.range (k + 1)) =
      if k ∈ r ∨ k ∈ w then k else scan r w p (List.range k) := by
  rw [scan, List.range_succ, List.foldl_append]
  by_cases hr : k ∈ r
  · simp [hr]
  · by_cases hw : k ∈ w <;> simp [hr, hw, scan]

/-- The loop finds the largest descriptor below its bound, if there is one. -/
theorem scan_spec {r w : Finset ℕ} {p k : ℕ} (h : ∃ i < k, i ∈ r ∨ i ∈ w) :
    (scan r w p (List.range k) ∈ r ∨ scan r w p (List.range k) ∈ w) ∧
      ∀ i < k, i ∈ r ∨ i ∈ w → i ≤ scan r w p (List.range k) := by
  induction k with
  | zero =>
    obtain ⟨i, hi, -⟩ := h
    omega
  | succ k ih =>
    rw [scan_range_succ]
    by_cases hk : k ∈ r ∨ k ∈ w
    · rw [if_pos hk]
      exact ⟨hk, fun i hi _ => Nat.le_of_lt_succ hi⟩
    · rw [if_neg hk]
      obtain ⟨i, hi, hm⟩ := h
      have hlt : ∀ j < k + 1, j ∈ r ∨ j ∈ w → j < k := by
        intro j hj hm
        rcases Nat.lt_succ_iff_lt_or_eq.mp hj with hj | rfl
        · exact hj
        · exact absurd hm hk
      obtain ⟨h1, h2⟩ := ih ⟨i, hlt i hi hm, hm⟩
      exact ⟨h1, fun j hj hjm => h2 j (hlt j hj hjm) hjm⟩

theorem High.watch {a : Aio} (h : High a) (fd : ℕ) (flag : PollFlag) :
    High (watchFd a fd flag) := by
  have hsub : ∀ d, a.fds d ⊆ (watchFd a fd flag).fds d := by
    intro d
    rw [fds_watch]
    split_ifs
    · exact Finset.subset_insert fd _
    · exact Finset.Subset.refl _
  have hhigh : (watchFd a fd flag).highfds = if a.highfds ≤ fd then fd else a.highfds := rfl
  refine ⟨hsub .read h.pipe, fun d x hx => ?_, ?_⟩
  · have hx : x = fd ∨ x ∈ a.fds d := by
      rw [fds_watch] at hx
      split_ifs at hx
      · exact Finset.mem_insert.mp hx
      · exact .inr hx
    rw [hhigh]
    rcases hx with rfl | hx
    · split_ifs <;> omega
    · have := h.top d x hx
      split_ifs <;> omega
  · rw [hhigh]
    split_ifs
    · obtain ⟨d, hd⟩ : ∃ d, flag.covers d = true := by
        cases flag
        · exact ⟨.read, rfl⟩
        · exact ⟨.write, rfl⟩
        · exact ⟨.read, rfl⟩
      refine ⟨d, ?_⟩
      rw [fds_watch, if_pos hd]
      exact Finset.mem_insert_self fd _
    · obtain ⟨d, hd⟩ := h.attained
      exact ⟨d, hsub d hd⟩

theorem High.unwatch {a : Aio} (h : High a) {fd : ℕ} (flag : PollFlag) (hfd : fd ≠ a.pipefd) :
    High (unwatchFd a fd flag).1 := by
  generalize hu : (unwatchFd a fd flag).1 = a'
  have hfds : ∀ d x, x ∈ a'.fds d ↔ x ∈ a.fds d ∧ ¬(x = fd ∧ flag.covers d) := by
    intro d x
    rw [← hu, fds_unwatch]
    cases flag.covers d <;> simp [and_comm]
  have hpipe : a'.pipefd = a.pipefd := hu ▸ rfl
  have hhigh : a'.highfds = if fd ∉ a'.rfds ∧ fd ∉ a'.wfds ∧ fd = a.highfds then
      scan a'.rfds a'.wfds a.pipefd (List.range (a.highfds + 1)) else a.highfds := hu ▸ rfl
  have hin : a'.pipefd ∈ a'.fds .read := by
    rw [hfds, hpipe]
    exact ⟨h.pipe, fun hc => hfd hc.1.symm⟩
  have hle : ∀ d, ∀ x ∈ a'.fds d, x ≤ a.highfds := fun d x hx => h.top d x ((hfds d x).mp hx).1
  by_cases hc : fd ∉ a'.rfds ∧ fd ∉ a'.wfds ∧ fd = a.highfds
  · -- the largest has gone, and the loop looks for the next
    rw [if_pos hc] at hhigh
    obtain ⟨h1, h2⟩ := scan_spec (r := a'.rfds) (w := a'.wfds) (p := a.pipefd)
      ⟨a'.pipefd, Nat.lt_succ_of_le (hle .read _ hin), .inl hin⟩
    rw [← hhigh] at h1 h2
    refine ⟨hin, fun d x hx => h2 x (Nat.lt_succ_of_le (hle d x hx)) ?_, ?_⟩
    · cases d
      · exact .inl hx
      · exact .inr hx
    · rcases h1 with h1 | h1
      · exact ⟨.read, h1⟩
      · exact ⟨.write, h1⟩
  · rw [if_neg hc] at hhigh
    refine ⟨hin, fun d x hx => hhigh ▸ hle d x hx, ?_⟩
    rw [hhigh]
    by_cases hf : fd = a.highfds
    · have hstill : fd ∈ a'.rfds ∨ fd ∈ a'.wfds := by
        by_contra hno
        rw [not_or] at hno
        exact hc ⟨hno.1, hno.2, hf⟩
      rw [← hf]
      rcases hstill with hs | hs
      · exact ⟨.read, hs⟩
      · exact ⟨.write, hs⟩
    · obtain ⟨d, hd⟩ := h.attained
      exact ⟨d, (hfds d _).mpr ⟨hd, fun hc => hf hc.1.symm⟩⟩

theorem High.apply {a : Aio} (h : High a) {op : Op} (hop : op.fd ≠ a.pipefd) :
    High (SelectAio.apply a op) := by
  cases op with
  | watch fd flag => exact h.watch fd flag
  | unwatch fd flag => exact h.unwatch flag hop

theorem high_newAio (pipefd : ℕ) : High (newAio pipefd) := by
  refine ⟨Finset.mem_singleton_self _, fun d fd hfd => ?_, .read, Finset.mem_singleton_self _⟩
  cases d with
  | read => exact (Finset.mem_singleton.mp hfd).le
  | write => exact absurd hfd (Finset.notMem_empty fd)

/-! ## What is reported -/

theorem collect_eq (pipefd : ℕ) (t w : Finset ℕ) (fds : List ℕ) (found : List ℕ × List ℕ) :
    collect pipefd t w fds found =
      (found.1 ++ fds.filter (fun fd => fd ∈ t ∧ fd ≠ pipefd),
        found.2 ++ fds.filter (fun fd => fd ∈ w ∧ ¬(fd = pipefd ∧ fd ∈ t))) := by
  induction fds generalizing found with
  | nil => simp [collect]
  | cons fd fds ih =>
    have hstep : collect pipefd t w (fd :: fds) found = collect pipefd t w fds
      (if fd = pipefd ∧ fd ∈ t then found
        else (if fd ∈ t then found.1 ++ [fd] else found.1,
          if fd ∈ w then found.2 ++ [fd] else found.2)) := rfl
    rw [hstep, ih]
    by_cases h1 : fd ∈ t <;> by_cases h2 : fd ∈ w <;> by_cases h3 : fd = pipefd <;>
      simp [h1, h2, h3] <;> simp_all

/-- `wait_ready` reports descriptors of the sets it has copied, but for the pipe, and changes only
the number of bytes in the pipe. -/
theorem finish_found {a a' : Aio} {s : Snapshot} {readable writable : Finset ℕ} {rs ws : List ℕ}
    (h : finish a s readable writable = some (a', rs, ws)) :
    (∀ fd ∈ rs, fd ∈ s.trfds ∧ fd ≠ a.pipefd) ∧ (∀ fd ∈ ws, fd ∈ s.twfds) ∧
      ∃ n, a' = { a with bytes := n } := by
  simp only [finish, collect_eq, List.nil_append] at h
  have hfound : ∀ x : Aio, (x, (List.range (s.high + 1)).filter
      (fun fd => fd ∈ select s.high s.trfds readable ∧ fd ≠ a.pipefd),
      (List.range (s.high + 1)).filter (fun fd => fd ∈ select s.high s.twfds writable ∧
        ¬(fd = a.pipefd ∧ fd ∈ select s.high s.trfds readable))) = (a', rs, ws) →
      (∀ fd ∈ rs, fd ∈ s.trfds ∧ fd ≠ a.pipefd) ∧ (∀ fd ∈ ws, fd ∈ s.twfds) ∧ a' = x := by
    rintro x ⟨⟩
    refine ⟨fun fd hfd => ?_, fun fd hfd => ?_, rfl⟩
    · simp only [List.mem_filter, select, Finset.mem_filter, decide_eq_true_eq] at hfd
      exact ⟨hfd.2.1.1, hfd.2.2⟩
    · simp only [List.mem_filter, select, Finset.mem_filter, decide_eq_true_eq] at hfd
      exact hfd.2.1.1
  split_ifs at h
  · obtain ⟨h1, h2, h3⟩ := hfound _ (Option.some.inj h)
    exact ⟨h1, h2, _, h3⟩
  · obtain ⟨h1, h2, h3⟩ := hfound _ (Option.some.inj h)
    exact ⟨h1, h2, a.bytes, h3⟩

/-- The state after a sequence of operations. -/
def after (pipefd : ℕ) (ops : List Op) : Aio := ops.foldl apply (newAio pipefd)

/-- The sets hold the descriptors whose switch is on, and the pipe. -/
structure Kept (pipefd : ℕ) (ops : List Op) (a : Aio) : Prop where
  pipe : a.pipefd = pipefd
  high : High a
  mem : ∀ fd ≠ pipefd, ∀ d, fd ∈ a.fds d ↔ watched ops fd d = true
  own : pipefd ∉ a.fds .write

theorem kept_after {pipefd : ℕ} {ops : List Op} (hops : ∀ op ∈ ops, op.fd ≠ pipefd) :
    Kept pipefd ops (after pipefd ops) := by
  induction ops using List.reverseRecOn with
  | nil =>
    refine ⟨rfl, high_newAio pipefd, fun fd hfd d => ?_, Finset.notMem_empty _⟩
    cases d <;> simp [after, newAio, Aio.fds, watched, hfd]
  | append_singleton ops op ih =>
    have h := ih fun op' hop => hops op' (List.mem_append_left _ hop)
    have hop : op.fd ≠ pipefd := hops op (by simp)
    have happ : after pipefd (ops ++ [op]) = apply (after pipefd ops) op := by
      simp [after, List.foldl_append]
    rw [happ]
    refine ⟨(apply_pipefd _ _).trans h.pipe, h.high.apply (h.pipe.symm ▸ hop), fun fd hfd d => ?_, ?_⟩
    · rw [mem_fds_apply _ op fd d (h.mem fd hfd d), watched, watched, List.foldl_append]
      rfl
    · have hown : pipefd ∈ (after pipefd ops).fds .write ↔ false = true := by simpa using h.own
      have := mem_fds_apply _ op pipefd .write hown
      intro hmem
      have hon := this.mp hmem
      cases op <;> simp [switch] at hon
      exact hop hon.1

theorem watched_pipe {pipefd : ℕ} {ops : List Op} (hops : ∀ op ∈ ops, op.fd ≠ pipefd) (d : Dir) :
    watched ops pipefd d = false := by
  unfold watched
  generalize false = on
  induction ops generalizing on with
  | nil => rfl
  | cons op ops ih =>
    have hop : op.fd ≠ pipefd := hops op List.mem_cons_self
    have hsame : switch pipefd d on op = on := by
      cases op with
      | watch fd flag => exact if_neg fun hc => hop hc.1
      | unwatch fd flag => exact if_neg fun hc => hop hc.1
    rw [List.foldl_cons, hsame]
    exact ih (fun op' hop' => hops op' (List.mem_cons_of_mem _ hop')) on

/-- `wait_ready` returns, in increasing order, the descriptors that are watched for reading and
readable and those that are watched for writing and writable. -/
theorem wait_ready_reports (pipefd : ℕ) (ops : List Op) (hops : ∀ op ∈ ops, op.fd ≠ pipefd)
    (readable writable : Finset ℕ)
    (hpipe : pipefd ∈ readable → 0 < (after pipefd ops).bytes) :
    ∃ a rs ws, finish (after pipefd ops) (snapshot (after pipefd ops)) readable writable =
        some (a, rs, ws) ∧
      rs.Pairwise (· < ·) ∧ ws.Pairwise (· < ·) ∧
      (∀ fd, fd ∈ rs ↔ watched ops fd .read = true ∧ fd ∈ readable) ∧
      (∀ fd, fd ∈ ws ↔ watched ops fd .write = true ∧ fd ∈ writable) := by
  have h := kept_after hops
  have hoff := watched_pipe hops
  generalize after pipefd ops = a at h hpipe
  obtain rfl := h.pipe
  have hlt : ∀ d, ∀ fd ∈ a.fds d, fd < a.highfds + 1 :=
    fun d fd hfd => Nat.lt_succ_of_le (h.high.top d fd hfd)
  refine ⟨if a.pipefd ∈ select a.highfds a.rfds readable then { a with bytes := a.bytes - 1 } else a,
    (List.range (a.highfds + 1)).filter
      (fun fd => fd ∈ select a.highfds a.rfds readable ∧ fd ≠ a.pipefd),
    (List.range (a.highfds + 1)).filter
      (fun fd => fd ∈ select a.highfds a.wfds writable ∧
        ¬(fd = a.pipefd ∧ fd ∈ select a.highfds a.rfds readable)),
    ?_, List.pairwise_lt_range.filter _, List.pairwise_lt_range.filter _, fun fd => ?_, fun fd => ?_⟩
  · simp only [finish, snapshot, collect_eq, List.nil_append]
    by_cases hp : a.pipefd ∈ select a.highfds a.rfds readable
    · have hb := hpipe (Finset.mem_filter.mp hp).2.1
      rw [if_pos hp, if_pos hp, if_neg (Nat.ne_of_gt hb)]
    · rw [if_neg hp, if_neg hp]
  · by_cases hfd : fd = a.pipefd
    · subst hfd
      simp [hoff]
    · have hm := h.mem fd hfd .read
      have := hlt .read fd
      simp only [List.mem_filter, List.mem_range, select, Finset.mem_filter, decide_eq_true_eq]
      rw [← hm]
      exact ⟨fun hx => ⟨hx.2.1.1, hx.2.1.2.1⟩, fun hx => ⟨this hx.1, ⟨hx.1, hx.2, this hx.1⟩, hfd⟩⟩
  · by_cases hfd : fd = a.pipefd
    · subst hfd
      have hown : a.pipefd ∉ a.wfds := h.own
      simp [hoff, select, hown]
    · have hm := h.mem fd hfd .write
      have := hlt .write fd
      simp only [List.mem_filter, List.mem_range, select, Finset.mem_filter, decide_eq_true_eq]
      rw [← hm]
      exact ⟨fun hx => ⟨hx.2.1.1, hx.2.1.2.1⟩,
        fun hx => ⟨this hx.1, ⟨hx.1, hx.2, this hx.1⟩, fun hc => hfd hc.1⟩⟩

theorem wait_ready_reports_two : ∃ a rs ws,
    finish (after 3 [.watch 5 .rdwr, .watch 7 .rdonly, .unwatch 7 .rdwr])
        (snapshot (after 3 [.watch 5 .rdwr, .watch 7 .rdonly, .unwatch 7 .rdwr])) {3, 5, 7} {5} =
      some (a, rs, ws) ∧ (5 ∈ rs ↔ True) ∧ (7 ∈ rs ↔ False) ∧ (5 ∈ ws ↔ True) := by
  obtain ⟨a, rs, ws, hf, -, -, hr, hw⟩ := wait_ready_reports 3
    [.watch 5 .rdwr, .watch 7 .rdonly, .unwatch 7 .rdwr] (by decide) {3, 5, 7} {5} (by decide)
  refine ⟨a, rs, ws, hf, ?_, ?_, ?_⟩
  · rw [hr]
    decide
  · rw [hr]
    decide
  · rw [hw]
    decide

end Yfs.SelectAio
