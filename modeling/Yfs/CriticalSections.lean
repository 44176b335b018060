import Yfs.Processes

/-!
# Operations with one critical section

An operation of `yfs_client` that takes the lock of one inode, works on the content of this inode and
gives the lock back for good is atomic: in any run of any number of processes it seems to happen in one
moment, when it begins to give the lock back. The lock client caches the lock and the extent client the
content, so that most of these operations never reach a server.
-/

namespace Yfs.CriticalSections
open LabelledRuns CallTrees LockProtocol ExtentClient CallStackMachines FileService LockSafety
open CacheOwnership ExtentViews ExtentCoherence Processes
open YfsClient (Inum Held Call Op Fault OK)
open AtomicObjects (Status State seen)

variable {T R α β : Type}

/-! ## Programs with one critical section -/

inductive Phase where
  | ahead
  | inside
  | past
  deriving DecidableEq, Repr

/-- The program takes the lock of `ino` once, uses the content of `ino` only while it has it, and makes
no call after it has given it back. What comes then does not depend on the answer. -/
def Single (ino : Inum) (Φ : α → Phase → Prop) : Prog YfsClient.Step Reply Fault α → Phase → Prop
  | .ret a, ph => Φ a ph
  | .fault _, _ => True
  | .call (_, .acquire i) k, ph =>
    i = ino ∧ ph = .ahead ∧ ∀ r, r.ret = 0 → Single ino Φ (k r) .inside
  | .call (_, .release i) k, ph =>
    i = ino ∧ ph = .inside ∧ ∃ p, (∀ r, r.ret = 0 → k r = p) ∧
      ∀ r, r.ret = 0 → Single ino Φ (k r) .past
  | .call (_, .get i) k, ph =>
    i = ino ∧ ph = .inside ∧ ∀ r, r.ret = OK → Single ino Φ (k r) .inside
  | .call (_, .put i _) k, ph =>
    i = ino ∧ ph = .inside ∧ ∀ r, r.ret = OK → Single ino Φ (k r) .inside
  | .call (_, .create _) k, ph => ph = .inside ∧ ∀ r, r.ret = OK → Single ino Φ (k r) .inside
  | .call (_, .getattr _) _, _ => False
  | .call (_, .remove _) _, _ => False

section
variable {ino : Inum} {Φ : α → Phase → Prop} {Ψ : β → Phase → Prop} {ph : Phase}

theorem Single.bind {p : Prog YfsClient.Step Reply Fault α}
    {f : α → Prog YfsClient.Step Reply Fault β} (h : Single ino Φ p ph)
    (hf : ∀ a ph, Φ a ph → Single ino Ψ (f a) ph) : Single ino Ψ (p >>= f) ph := by
  induction p generalizing ph with
  | ret a => exact hf a ph h
  | fault e => exact trivial
  | call q k ih =>
    obtain ⟨held, c⟩ := q
    cases c with
    | acquire i => exact ⟨h.1, h.2.1, fun r hr => ih r (h.2.2 r hr)⟩
    | release i =>
      obtain ⟨hi, hph, p, hp, hk⟩ := h
      refine ⟨hi, hph, p >>= f, fun r hr => ?_, fun r hr => ih r (hk r hr)⟩
      show k r >>= f = p >>= f
      rw [hp r hr]
    | get i => exact ⟨h.1, h.2.1, fun r hr => ih r (h.2.2 r hr)⟩
    | put i buf => exact ⟨h.1, h.2.1, fun r hr => ih r (h.2.2 r hr)⟩
    | create type => exact ⟨h.1, fun r hr => ih r (h.2 r hr)⟩
    | getattr i => exact h
    | remove i => exact h

end

/-- The same for programs with the set `held_lock`. -/
def Sections (ino : Inum) (ph : Phase) (h : Held) (p : Op α) (Φ : α → Phase → Held → Prop) : Prop :=
  Single ino (fun x ph => Φ x.1 ph x.2) (p.run h) ph

section
variable {ino : Inum} {ph : Phase} {h : Held} {Φ : α → Phase → Held → Prop}
  {Ψ : β → Phase → Held → Prop}

theorem Sections.bind {p : Op α} {f : α → Op β} (hp : Sections ino ph h p Φ)
    (hf : ∀ a ph h, Φ a ph h → Sections ino ph h (f a) Ψ) : Sections ino ph h (p >>= f) Ψ := by
  unfold Sections
  rw [StateT.run_bind]
  exact Single.bind hp fun x ph hx => hf x.1 ph x.2 hx

theorem sections_pure {a : α} (ha : Φ a ph h) : Sections ino ph h (pure a) Φ := ha

theorem sections_lift {x : Except Fault α} :
    Sections ino ph h (YfsClient.lift x) fun _ ph' h' => ph' = ph ∧ h' = h := by
  cases x with
  | ok a => exact ⟨rfl, rfl⟩
  | error e => trivial

/-- Before `lock`: the operation takes the lock itself, or another one that uses it has it. -/
inductive Opens (ino : Inum) : Bool → Phase → Held → Prop where
  | takes : Opens ino false .ahead []
  | has : Opens ino true .inside [ino]

/-- After `unlock`. -/
inductive Closes (ino : Inum) : Bool → Phase → Held → Prop where
  | gave : Closes ino false .past []
  | has : Closes ino true .inside [ino]

variable {lr : Bool}

theorem sections_lock (ho : Opens ino lr ph h) :
    Sections ino ph h (YfsClient.lock ino) fun lr' ph h => lr' = lr ∧ ph = .inside ∧ h = [ino] := by
  unfold Sections
  cases ho with
  | takes =>
    rw [YfsClient.run_lock, if_neg List.not_mem_nil]
    refine ⟨rfl, rfl, fun r hr => ?_⟩
    dsimp only
    rw [if_pos hr]
    exact ⟨rfl, rfl, rfl⟩
  | has =>
    rw [YfsClient.run_lock, if_pos List.mem_cons_self]
    exact ⟨rfl, rfl, rfl⟩

theorem sections_unlock :
    Sections ino .inside [ino] (YfsClient.unlockUnless lr ino) fun _ => Closes ino lr := by
  cases lr with
  | true => exact .has
  | false =>
    show Sections ino .inside [ino] (YfsClient.unlock ino) _
    unfold Sections
    rw [YfsClient.run_unlock, if_pos List.mem_cons_self]
    refine ⟨rfl, rfl, .ret ((), [ino].erase ino), fun r hr => if_pos hr, fun r hr => ?_⟩
    dsimp only
    rw [if_pos hr, List.erase_cons_head]
    exact .gave

theorem sections_get : Sections ino .inside h (YfsClient.emit (.get ino)) fun a ph h' =>
    a.ret = OK ∧ ph = .inside ∧ h' = h :=
  ⟨rfl, rfl, fun _ hr => ⟨hr, rfl, rfl⟩⟩

theorem sections_put {buf : Str} :
    Sections ino .inside h (YfsClient.emit (.put ino buf)) fun a ph h' =>
      a.ret = OK ∧ ph = .inside ∧ h' = h :=
  ⟨rfl, rfl, fun _ hr => ⟨hr, rfl, rfl⟩⟩

theorem sections_new {type : UInt32} :
    Sections ino .inside h (YfsClient.emit (.create type)) fun a ph h' =>
      a.ret = OK ∧ ph = .inside ∧ h' = h :=
  ⟨rfl, fun _ hr => ⟨hr, rfl, rfl⟩⟩

end

/-! ## What a program does alone -/

/-- What is assumed of the servers: the numbers that new inodes get, and the contents that they are
asked to store. -/
structure Limits where
  ids : Inum → Prop
  stores : Inum → Str → Prop

/-- The answers to a program that has the inode to itself. -/
def Answers (ino : Inum) (lim : Limits) (f : Str) (x : YfsClient.Step) (a : Reply) (f' : Str) :
    Prop :=
  match x.2 with
  | .acquire i | .release i => i = ino ∧ a.ret = 0 ∧ f' = f
  | .get i => i = ino ∧ a.ret = OK ∧ a.buf = f ∧ f' = f
  | .put i buf => i = ino ∧ a.ret = OK ∧ lim.stores i buf ∧ f' = buf
  | .create _ => a.ret = OK ∧ lim.ids a.id ∧ f' = f
  | .getattr _ | .remove _ => False

section
variable {i : Inum} {lim : Limits} {f w buf : Str} {h : Held} {lr : Bool} {ph : Phase}

theorem ends_bind {p : Op α} {k : α → Op β} {x : Except Fault (β × Held)}
    {Φ : α × Held → Str → Prop} (he : Ends (Answers i lim) ((p >>= k).run h) f x w)
    (hp : ∀ y f', Ends (Answers i lim) (p.run h) f y f' → ∃ a, y = .ok a ∧ Φ a f') :
    ∃ a f', Φ a f' ∧ Ends (Answers i lim) ((k a.1).run a.2) f' x w := by
  rw [StateT.run_bind] at he
  exact he.bind hp

theorem ends_lock {x : Except Fault (Bool × Held)} (ho : Opens i lr ph h)
    (he : Ends (Answers i lim) ((YfsClient.lock i).run h) f x w) :
    ∃ a, x = .ok a ∧ a = (lr, [i]) ∧ w = f := by
  cases ho with
  | takes =>
    rw [YfsClient.run_lock, if_neg List.not_mem_nil] at he
    cases he with
    | call answer rest =>
      obtain ⟨-, hret, rfl⟩ := answer
      dsimp only at rest
      rw [if_pos hret] at rest
      cases rest
      exact ⟨_, rfl, rfl, rfl⟩
  | has =>
    rw [YfsClient.run_lock, if_pos List.mem_cons_self] at he
    cases he
    exact ⟨_, rfl, rfl, rfl⟩

theorem ends_unlock {x : Except Fault (Unit × Held)}
    (he : Ends (Answers i lim) ((YfsClient.unlockUnless lr i).run [i]) f x w) :
    ∃ a, x = .ok a ∧ a = ((), if lr then [i] else []) ∧ w = f := by
  cases lr with
  | true =>
    cases he
    exact ⟨_, rfl, rfl, rfl⟩
  | false =>
    have he' : Ends (Answers i lim) ((YfsClient.unlock i).run [i]) f x w := he
    rw [YfsClient.run_unlock, if_pos List.mem_cons_self, List.erase_cons_head] at he'
    cases he' with
    | call answer rest =>
      obtain ⟨-, hret, rfl⟩ := answer
      dsimp only at rest
      rw [if_pos hret] at rest
      cases rest
      exact ⟨_, rfl, rfl, rfl⟩

theorem ends_get {x : Except Fault (Reply × Held)}
    (he : Ends (Answers i lim) ((YfsClient.emit (.get i)).run h) f x w) :
    ∃ a, x = .ok a ∧ (a.1.ret = OK ∧ a.1.buf = f ∧ a.2 = h) ∧ w = f := by
  cases he with
  | call answer rest =>
    obtain ⟨-, hret, hbuf, rfl⟩ := answer
    cases rest
    exact ⟨_, rfl, ⟨hret, hbuf, rfl⟩, rfl⟩

end

/-- What an operation does to the content of its inode when it is alone, and its result. -/
def Means (inode : T → Inum) (lim : Limits) (program : T → Op R) (task : T) (F F' : Inum → Str)
    (r : Option R) : Prop :=
  ∃ x w, Ends (Answers (inode task) lim) ((program task).run []) (F (inode task)) x w ∧
    F' = Function.update F (inode task) w ∧ r = x.toOption.map Prod.fst

/-- Every task has one critical section, and `held_lock` is empty at the end. -/
def Guarded (inode : T → Inum) (program : T → Op R) : Prop :=
  ∀ task, Sections (inode task) .ahead [] (program task) fun _ ph h => ph = .past ∧ h = []

/-! ## What a process knows -/

section
variable (inode : T → Inum) (lim : Limits) (program : T → Op R)

/-- The rest of a task inside its critical section, when the content is `v` and was `f` at the
beginning of the section. -/
structure Inside (f v : Str) (task : T) (p : Rest R) : Prop where
  single : Single (inode task) (fun x ph => ph = .past ∧ x.2 = []) p .inside
  means : ∀ x w, Ends (Answers (inode task) lim) p v x w →
    Ends (Answers (inode task) lim) ((program task).run []) f x w

/-- The rest of a task after its critical section. -/
def Past (p : Rest R) (o : Option R) : Prop :=
  (∃ r, p = .ret (r, []) ∧ o = some r) ∨ ∃ e, p = .fault e ∧ o = none

/-- Where a task stands whose call is being served. A new content is in place once the extent client
has it. -/
def Midway (f v : Str) (task : T) (k : Reply → Rest R) (ctl : Control Request Reply Sleeper) :
    Call → Prop
  | .get i => i = inode task ∧
      ∀ r, r.ret = OK → r.buf = v → Inside inode lim program f v task (k r)
  | .put i buf => i = inode task ∧
      (((∃ r, ctl = .request r) ∧
          ∀ r, r.ret = OK → lim.stores i buf → Inside inode lim program f buf task (k r)) ∨
        (∃ r, ctl = .reply r) ∧ ∀ r, r.ret = OK → Inside inode lim program f v task (k r))
  | .create _ => ∀ r, r.ret = OK → lim.ids r.id → Inside inode lim program f v task (k r)
  | .acquire _ | .release _ | .getattr _ | .remove _ => False

/-- What a process knows when the inodes have the contents `V`, and had the contents `F` at the end of
their last critical sections. -/
inductive Knows (F V : Inum → Str) : Status T R → ProcessThread T R → Prop where
  | idle (c : ClientId) : Knows F V .idle ⟨⟨⟨c, []⟩, [], none⟩, none⟩
  | ahead (c : ClientId) (task : T) :
      Knows F V (.pending task) ⟨⟨⟨c, []⟩, [], some (task, (program task).run [])⟩, none⟩
  | acquiring {c : ClientId} {task : T} {h' : Held} {k : Reply → Rest R}
      {a : Activity Request Reply Frame Sleeper}
      (prog : (program task).run [] = .call (h', .acquire (inode task)) k)
      (root : a.root = .acquire c (inode task)) :
      Knows F V (.pending task)
        ⟨⟨⟨c, []⟩, [], some (task, .call (h', .acquire (inode task)) k)⟩, some a⟩
  | inside {c : ClientId} {task : T} {p : Rest R}
      (rest : Inside inode lim program (F (inode task)) (V (inode task)) task p) :
      Knows F V (.pending task) ⟨⟨⟨c, [inode task]⟩, [], some (task, p)⟩, none⟩
  | calling {c : ClientId} {task : T} {h' : Held} {q : Call} {k : Reply → Rest R}
      {a : Activity Request Reply Frame Sleeper} (root : a.root = request c q)
      (mid : Midway inode lim program (F (inode task)) (V (inode task)) task k a.control q) :
      Knows F V (.pending task) ⟨⟨⟨c, [inode task]⟩, [], some (task, .call (h', q) k)⟩, some a⟩
  | releasing {c : ClientId} {task : T} {h' : Held} {k : Reply → Rest R} {o : Option R}
      {a : Activity Request Reply Frame Sleeper} (root : a.root = .release c (inode task))
      (rest : ∀ r, r.ret = 0 → Past (k r) o) :
      Knows F V (.done task o)
        ⟨⟨⟨c, []⟩, [], some (task, .call (h', .release (inode task)) k)⟩, some a⟩
  | past {c : ClientId} {task : T} {p : Rest R} {o : Option R} (rest : Past p o) :
      Knows F V (.done task o) ⟨⟨⟨c, []⟩, [], some (task, p)⟩, none⟩

end

variable {inode : T → Inum} {lim : Limits} {program : T → Op R} {F F' V V' : Inum → Str}
  {f v : Str} {st : Status T R} {t t' : ProcessThread T R} {task : T}

/-- A process only knows the contents of which it holds the lock. -/
theorem Knows.others (h : Knows inode lim program F V st t)
    (hsame : ∀ e ∈ t.loc.loc.held, F' e = F e ∧ V' e = V e) : Knows inode lim program F' V' st t := by
  cases h with
  | idle c => exact .idle c
  | ahead c task => exact .ahead c task
  | acquiring prog root => exact .acquiring prog root
  | inside rest =>
    obtain ⟨hf, hv⟩ := hsame _ List.mem_cons_self
    rw [← hf, ← hv] at rest
    exact .inside rest
  | calling root mid =>
    obtain ⟨hf, hv⟩ := hsame _ List.mem_cons_self
    rw [← hf, ← hv] at mid
    exact .calling root mid
  | releasing root rest => exact .releasing root rest
  | past rest => exact .past rest

/-- The task of a process is that of its status. -/
theorem Knows.job (h : Knows inode lim program F V st t) : t.loc.job.map Prod.fst = st.task := by
  cases h <;> rfl

/-- A task that has died does so when it is alone. -/
theorem Knows.died {e : Fault} (h : Knows inode lim program F V st t)
    (hjob : t.loc.job = some (task, .fault e)) :
    st = .done task none ∨ st = .pending task ∧ ∃ F', Means inode lim program task F F' none := by
  cases h with
  | idle c => cases hjob
  | ahead c task' =>
    simp only [Option.some.injEq, Prod.mk.injEq] at hjob
    obtain ⟨rfl, hprog⟩ := hjob
    refine .inr ⟨rfl, _, .error e, F (inode task'), ?_, rfl, rfl⟩
    rw [hprog]
    exact .fault e _
  | acquiring prog root => cases hjob
  | inside rest =>
    cases hjob
    exact .inr ⟨rfl, _, .error e, _, rest.means _ _ (.fault e _), rfl, rfl⟩
  | calling root mid => cases hjob
  | releasing root rest => cases hjob
  | past rest =>
    cases hjob
    rcases rest with ⟨r, hret, -⟩ | ⟨e, -, rfl⟩
    · cases hret
    · exact .inl rfl

/-- After the critical section a program has ended. -/
theorem past_of_single {ino : Inum} {p : Rest R}
    (h : Single ino (fun x ph => ph = .past ∧ x.2 = []) p .past) (lim : Limits) :
    ∃ o, Past p o ∧ ∀ w : Str, ∃ x, Ends (Answers ino lim) p w x w ∧ o = x.toOption.map Prod.fst := by
  cases p with
  | ret a =>
    obtain ⟨r, held⟩ := a
    obtain rfl : held = [] := h.2
    exact ⟨some r, .inl ⟨r, rfl, rfl⟩, fun w => ⟨_, .ret _ w, rfl⟩⟩
  | fault e => exact ⟨none, .inr ⟨e, rfl, rfl⟩, fun w => ⟨_, .fault e w, rfl⟩⟩
  | call q k =>
    obtain ⟨held, c⟩ := q
    cases c with
    | acquire i => cases h.2.1
    | release i => cases h.2.1
    | get i => cases h.2.1
    | put i buf => cases h.2.1
    | create type => cases h.1
    | getattr i => exact h.elim
    | remove i => exact h.elim

/-! ## What a process learns from its own steps -/

section
variable {l : Local} {h h' : Held} {p p' : Process T R} {q : Request} {fs fs' : List Frame}

theorem Knows.start (hk : Knows inode lim program F V st ⟨⟨l, h, none⟩, none⟩) (task : T) :
    st = .idle ∧ Knows inode lim program F V (.pending task)
      ⟨⟨l, h, some (task, (program task).run h)⟩, none⟩ := by
  cases hk with
  | idle c => exact ⟨rfl, .ahead c task⟩

theorem Knows.finish (hg : Guarded inode program) {r : R}
    (hk : Knows inode lim program F V st ⟨⟨l, h, some (task, .ret (r, h'))⟩, none⟩) :
    st = .done task (some r) ∧ Knows inode lim program F V .idle ⟨⟨l, h', none⟩, none⟩ := by
  generalize hp : (⟨⟨l, h, some (task, .ret (r, h'))⟩, none⟩ : ProcessThread T R) = t at hk
  cases hk with
  | ahead c task' =>
    have hsingle := hg task'
    unfold Sections at hsingle
    simp only [Thread.mk.injEq, Process.mk.injEq, Option.some.injEq, Prod.mk.injEq] at hp
    rw [← hp.1.2.2.2] at hsingle
    cases hsingle.1
  | inside rest =>
    cases hp
    cases rest.single.1
  | past rest =>
    cases hp
    rcases rest with ⟨r, hret, rfl⟩ | ⟨e, hret, -⟩
    · cases hret
      exact ⟨rfl, .idle _⟩
    · cases hret
  | _ => cases hp

/-- The rest of a task that is about to make a call inside its critical section. -/
theorem Inside.next {c : Call} {k : Reply → Rest R}
    (hin : Inside inode lim program f v task (.call (h', c) k)) (hc : ∀ i, c ≠ .release i)
    (ctl : Control Request Reply Sleeper) (hctl : ∃ r, ctl = .request r) :
    Midway inode lim program f v task k ctl c ∧ ∀ cl, ∀ e ∈ target (request cl c), e = inode task := by
  obtain ⟨hsingle, hmeans⟩ := hin
  cases c with
  | acquire i => cases hsingle.2.1
  | release i => exact absurd rfl (hc i)
  | get i =>
    obtain ⟨rfl, -, hk⟩ := hsingle
    refine ⟨⟨rfl, fun r hr hbuf => ⟨hk r hr, fun x w he => ?_⟩⟩, fun cl e he => ?_⟩
    · exact hmeans x w (.call ⟨rfl, hr, hbuf, rfl⟩ he)
    · cases he
      rfl
  | put i buf =>
    obtain ⟨rfl, -, hk⟩ := hsingle
    refine ⟨⟨rfl, .inl ⟨hctl, fun r hr hstores => ⟨hk r hr, fun x w he => ?_⟩⟩⟩, fun cl e he => ?_⟩
    · exact hmeans x w (.call ⟨rfl, hr, hstores, rfl⟩ he)
    · cases he
      rfl
  | create type =>
    obtain ⟨-, hk⟩ := hsingle
    refine ⟨fun r hr hid => ⟨hk r hr, fun x w he => ?_⟩, nofun⟩
    exact hmeans x w (.call ⟨hr, hid, rfl⟩ he)
  | getattr i => exact hsingle.elim
  | remove i => exact hsingle.elim

end

/-- How a step is seen by the atomic object. -/
inductive Mirrors (inode : T → Inum) (lim : Limits) (program : T → Op R) :
    Act T R → (Inum → Str) → Status T R → (Inum → Str) → Status T R → Prop where
  | start (F : Inum → Str) (task : T) :
      Mirrors inode lim program (.think (.start task)) F .idle F (.pending task)
  | finish (F : Inum → Str) (task : T) (r : R) :
      Mirrors inode lim program (.think (.finish task r)) F (.done task (some r)) F .idle
  | commit {lab : Act T R} {F F' : Inum → Str} {task : T} {o : Option R} (hlab : ∀ e, lab ≠ .think e)
      (means : Means inode lim program task F F' o) :
      Mirrors inode lim program lab F (.pending task) F' (.done task o)
  | silent {lab : Act T R} (F : Inum → Str) (st : Status T R) (hlab : ∀ e, lab ≠ .think e) :
      Mirrors inode lim program lab F st F st

/-- What a step of one process does to the inodes and to what the process knows of them. -/
structure Moves (inode : T → Inum) (lim : Limits) (program : T → Op R) (F V F' V' : Inum → Str)
    (st st' : Status T R) (t t' : ProcessThread T R) (lab : Act T R) : Prop where
  knows : Knows inode lim program F' V' st' t'
  mirror : Mirrors inode lim program lab F st F' st'
  alone : ∀ e, e ∉ t.loc.loc.held → F' e = F e ∧ V' e = V e
  free : ∀ e, e ∉ t'.loc.loc.held → e ∉ t.loc.loc.held ∨ V' e = F' e

theorem Moves.of_same {lab : Act T R} (hk : Knows inode lim program F V st t')
    (hlab : ∀ e, lab ≠ .think e) (hheld : ∀ e, e ∉ t'.loc.loc.held → e ∉ t.loc.loc.held) :
    Moves inode lim program F V F V st st t t' lab :=
  ⟨hk, .silent F st hlab, fun _ _ => ⟨rfl, rfl⟩, fun e hout => .inl (hheld e hout)⟩

section
variable {l : Local} {h h' : Held} {p p' : Process T R} {q : Request} {fs fs' : List Frame}

/-- The call that gives the lock back takes effect. -/
theorem Inside.releases {cl : ClientId} {i : Inum} {k : Reply → Rest R}
    (hin : Inside inode lim program (F (inode task)) (V (inode task)) task
      (.call (h', .release i) k)) :
    i = inode task ∧ ∃ F' st', Moves inode lim program F V F' V (.pending task) st'
      ⟨⟨⟨cl, [inode task]⟩, [], some (task, .call (h', .release i) k)⟩, none⟩
      ⟨⟨⟨cl, []⟩, [], some (task, .call (h', .release i) k)⟩,
        some ⟨.release cl i, .request (.release cl i), []⟩⟩ (.begins (.release cl i)) := by
  obtain ⟨⟨rfl, -, p, hp, hrest⟩, hmeans⟩ := hin
  have hone := hrest { ret := 0 } rfl
  rw [hp _ rfl] at hone
  obtain ⟨o, hpast, hends⟩ := past_of_single hone lim
  obtain ⟨x, hx, ho⟩ := hends (V (inode task))
  have hx' : Ends (Answers (inode task) lim) (k { ret := 0 }) (V (inode task)) x (V (inode task)) := by
    rw [hp _ rfl]
    exact hx
  refine ⟨rfl, Function.update F (inode task) (V (inode task)), .done task o, ?_, .commit nofun
    ⟨x, _, hmeans x _ (.call ⟨rfl, rfl, rfl⟩ hx'), rfl, ho⟩, fun e hout => ?_, fun e _ => ?_⟩
  · refine .releasing rfl fun r hr => ?_
    rw [hp r hr]
    exact hpast
  · exact ⟨Function.update_of_ne (fun he => hout (List.mem_singleton.2 he)) .., rfl⟩
  · by_cases he : e = inode task
    · subst he
      right
      rw [Function.update_self]
    · exact .inl fun hmem => he (List.mem_singleton.1 hmem)

/-- A call that is made is allowed, and the process waits for its answer. -/
theorem Knows.begins (hg : Guarded inode program) {c : Call} {k : Reply → Rest R}
    (hk : Knows inode lim program F V st ⟨⟨l, h, some (task, .call (h', c) k)⟩, none⟩) :
    ((∀ j, c = .release j → j ∈ l.held) ∧ ∀ e ∈ target (request l.client c), e ∈ l.held) ∧
      ∃ F' st', Moves inode lim program F V F' V st st'
        ⟨⟨l, h, some (task, .call (h', c) k)⟩, none⟩
        ⟨⟨before l (request l.client c), h, some (task, .call (h', c) k)⟩,
          some ⟨request l.client c, .request (request l.client c), []⟩⟩
        (.begins (request l.client c)) := by
  generalize hp : (⟨⟨l, h, some (task, .call (h', c) k)⟩, none⟩ : ProcessThread T R) = t at hk ⊢
  cases hk with
  | ahead cl task' =>
    simp only [Thread.mk.injEq, Process.mk.injEq, Option.some.injEq, Prod.mk.injEq, and_true] at hp
    obtain ⟨rfl, rfl, rfl, hprog⟩ := hp
    have hsingle := hg task
    unfold Sections at hsingle
    rw [← hprog] at hsingle ⊢
    cases c with
    | acquire i =>
      obtain ⟨rfl, -, -⟩ := hsingle
      exact ⟨⟨nofun, nofun⟩, F, _, .of_same (.acquiring hprog.symm rfl) nofun fun _ => id⟩
    | release i => cases hsingle.2.1
    | get i => cases hsingle.2.1
    | put i buf => cases hsingle.2.1
    | create type => cases hsingle.1
    | getattr i => exact hsingle.elim
    | remove i => exact hsingle.elim
  | @inside cl task' p rest =>
    cases hp
    by_cases hc : ∀ i, c ≠ .release i
    · obtain ⟨hmid, htarget⟩ := rest.next hc (.request (request cl c)) ⟨_, rfl⟩
      have hbefore : before ⟨cl, [inode task]⟩ (request cl c) = ⟨cl, [inode task]⟩ := by
        cases c with
        | release i => exact absurd rfl (hc i)
        | _ => rfl
      refine ⟨⟨fun j hj => absurd hj (hc j), fun e he => ?_⟩, F, .pending task, ?_⟩
      · rw [htarget cl e he]
        exact List.mem_cons_self
      · rw [hbefore]
        exact .of_same (.calling rfl hmid) nofun fun _ => id
    · obtain ⟨i, hi⟩ := not_forall.mp hc
      obtain rfl := not_not.mp hi
      obtain ⟨rfl, hmove⟩ := rest.releases
      have hheld : before ⟨cl, [inode task]⟩ (.release cl (inode task)) = ⟨cl, []⟩ := by
        show (⟨cl, [inode task].erase (inode task)⟩ : Local) = _
        rw [List.erase_cons_head]
      refine ⟨⟨fun j hj => ?_, nofun⟩, ?_⟩
      · cases hj
        exact List.mem_cons_self
      · show ∃ F' st', Moves inode lim program F V F' V _ st' _
          ⟨⟨before ⟨cl, [inode task]⟩ (.release cl (inode task)), [], _⟩, _⟩ _
        rw [hheld]
        exact hmove
  | past rest =>
    cases hp
    rcases rest with ⟨r, hret, -⟩ | ⟨e, hret, -⟩
    · cases hret
    · cases hret
  | _ => cases hp

/-- The new content is in place when the extent client has it. -/
theorem Knows.put {c : ClientId} {e : Inum} {buf : Str}
    (hk : Knows inode lim program F V st ⟨p, some ⟨q, .request (.put c e buf), fs⟩⟩)
    (hl : machine.Linked ⟨q, .request (.put c e buf), fs⟩) (hstores : lim.stores e buf) :
    e ∈ p.loc.held ∧
      Knows inode lim program F (Function.update V e buf) st ⟨p, some (.land q fs (.ret {}))⟩ := by
  obtain ⟨rfl, rfl⟩ := linked_app hl fun f hf => by cases f <;> cases hf
  generalize hp : (⟨p, some ⟨.put c e buf, .request (.put c e buf), []⟩⟩ : ProcessThread T R) = t
    at hk
  cases hk with
  | acquiring prog root =>
    cases hp
    cases root
  | releasing root rest =>
    cases hp
    cases root
  | @calling cl task h' q k a root mid =>
    cases hp
    cases q with
    | put i buf' =>
      cases root
      obtain ⟨rfl, ⟨-, hnext⟩ | ⟨⟨r, hr⟩, -⟩⟩ := mid
      · refine ⟨List.mem_cons_self, .calling rfl ⟨rfl, .inr ⟨⟨_, rfl⟩, ?_⟩⟩⟩
        rw [Function.update_self]
        exact fun r hr => hnext r hr hstores
      · cases hr
    | _ => cases root
  | _ => cases hp

/-- The other steps in which a call is served tell the process nothing. -/
theorem Knows.land {k k' : Control Request Reply Sleeper}
    (hk : Knows inode lim program F V st ⟨p, some ⟨q, k, fs⟩⟩) (hq : ∀ c e buf, q ≠ .put c e buf) :
    Knows inode lim program F V st ⟨p, some ⟨q, k', fs'⟩⟩ := by
  generalize hp : (⟨p, some ⟨q, k, fs⟩⟩ : ProcessThread T R) = t at hk
  cases hk with
  | acquiring prog root =>
    cases hp
    exact .acquiring prog root
  | releasing root rest =>
    cases hp
    exact .releasing root rest
  | @calling cl task h' q' k a root mid =>
    cases hp
    refine .calling root ?_
    cases q' with
    | put i buf => exact absurd root (hq _ _ _)
    | _ => exact mid
  | _ => cases hp

/-- The answer to a call. -/
theorem Knows.ended {r : Reply} (hg : Guarded inode program)
    (hk : Knows inode lim program F V st ⟨p, some ⟨q, .reply r, []⟩⟩)
    (hl : machine.Linked ⟨q, .reply r, []⟩) (hx : Returns p q r p')
    (hfree : ∀ e, e ∈ p'.loc.held → e ∉ p.loc.held → V e = F e)
    (hget : ∀ c e, q = .get c e → r.buf = V e) (hcreate : ∀ c type, q = .create c type → lim.ids r.id) :
    Knows inode lim program F V st ⟨p', none⟩ ∧ ∀ e, e ∉ p'.loc.held → e ∉ p.loc.held := by
  generalize hp : (⟨p, some ⟨q, .reply r, []⟩⟩ : ProcessThread T R) = t at hk
  cases hk with
  | @acquiring c task h' k a prog root =>
    cases hp
    obtain rfl : q = .acquire c (inode task) := root
    have hret : r.ret = 0 := hl.2
    cases hx with
    | mk =>
      have hsingle := hg task
      unfold Sections at hsingle
      rw [prog] at hsingle
      refine ⟨.inside ⟨hsingle.2.2 r hret, fun x w he => ?_⟩, fun _ _ => List.not_mem_nil⟩
      rw [prog]
      rw [hfree (inode task) List.mem_cons_self List.not_mem_nil] at he
      exact .call ⟨rfl, hret, rfl⟩ he
  | @releasing c task h' k o a root rest =>
    cases hp
    obtain rfl : q = .release c (inode task) := root
    have hret : r.ret = 0 := hl.2
    cases hx with
    | mk => exact ⟨.past (rest r hret), fun _ => id⟩
  | @calling c task h' q' k a root mid =>
    cases hp
    obtain rfl : q = request c q' := root
    have hret : r.ret = OK := by cases q' <;> exact hl.2
    cases hx with
    | mk =>
      cases q' with
      | get i =>
        obtain ⟨rfl, hnext⟩ := mid
        exact ⟨.inside (hnext r hret (hget c _ rfl)), fun _ => id⟩
      | put i buf =>
        obtain ⟨rfl, ⟨⟨r', hr'⟩, -⟩ | ⟨-, hnext⟩⟩ := mid
        · cases hr'
        · exact ⟨.inside (hnext r hret), fun _ => id⟩
      | create type => exact ⟨.inside (mid r hret (hcreate c type rfl)), fun _ => id⟩
      | _ => exact mid.elim
  | _ => cases hp

end

/-! ## Steps -/

/-- The contents after a step. -/
def wrote (V : Inum → Str) (lab : Act T R) (e : Inum) : Str := (lab.outer.bind (putOf e)).getD (V e)

theorem wrote_put (V : Inum → Str) (c : ClientId) (e : Inum) (buf : Str) :
    wrote V (.ran (.put c e buf) : Act T R) = Function.update V e buf := by
  funext i
  show (if e = i then some buf else none).getD (V i) = _
  by_cases he : e = i
  · subst he
    rw [if_pos rfl, Function.update_self]
    rfl
  · rw [if_neg he, Function.update_of_ne (Ne.symm he)]
    rfl

/-- No frame serves a `put`. -/
theorem framed_put {c : ClientId} {e : ExtentId} {buf : Str} {fs : List Frame}
    (hf : machine.Framed (.put c e buf) fs) : fs = [] := by
  induction fs with
  | nil => rfl
  | cons f fs ih =>
    obtain ⟨hserve, hrest⟩ := hf
    cases ih hrest
    cases f <;> cases hserve

theorem linked_put {c : ClientId} {e : ExtentId} {buf : Str} {k : Control Request Reply Sleeper}
    {fs : List Frame} (hl : machine.Linked ⟨.put c e buf, k, fs⟩) :
    fs = [] ∧ (k = .request (.put c e buf) ∨ ∃ r, k = .reply r) := by
  obtain ⟨hf, hk⟩ := hl
  cases framed_put hf
  exact ⟨rfl, expects_awake hk nofun⟩

/-- A call that is being served and has not just been answered, or is about to run something else,
is no `put`. -/
theorem not_put {q : Request} {k : Control Request Reply Sleeper} {fs : List Frame}
    (hl : machine.Linked ⟨q, k, fs⟩) (hk : fs ≠ [] ∨ (∃ w, k = .asleep w) ∨
      ∃ r, k = .request r ∧ ∀ c e buf, r ≠ .put c e buf) (c : ClientId) (e : Inum) (buf : Str) :
    q ≠ .put c e buf := by
  rintro rfl
  obtain ⟨rfl, hreq⟩ := linked_put hl
  rcases hk with hne | ⟨w, rfl⟩ | ⟨r, rfl, hr⟩
  · exact hne rfl
  · rcases hreq with hk | ⟨r, hk⟩ <;> cases hk
  · rcases hreq with hk | ⟨r, hk⟩
    · cases hk
      exact hr c e buf rfl
    · cases hk

/-- One step of one process. -/
theorem Knows.step {s s' : Shared} {lab : Act T R} (hg : Guarded inode program)
    (hk : Knows inode lim program F V st t)
    (hs : ThreadStep machine (processes program) s t lab s' t')
    (hlink : ∀ a ∈ t.busy, machine.Linked a)
    (hfree : ∀ e, e ∈ t'.loc.loc.held → e ∉ t.loc.loc.held → V e = F e)
    (hget : ∀ a ∈ t.busy, ∀ c e r, a.root = .get c e → a.control = .reply r → r.buf = V e)
    (hcreate : ∀ a ∈ t.busy, ∀ c type r, a.root = .create c type → a.control = .reply r →
      lim.ids r.id)
    (hput : ∀ c e buf, lab = .ran (.put c e buf) → lim.stores e buf) :
    ∃ F' st', Moves inode lim program F V F' (wrote V lab) st st' t t' lab := by
  cases hs with
  | think hx =>
    cases hx with
    | start l h task =>
      obtain ⟨rfl, hstart⟩ := hk.start task
      exact ⟨F, _, hstart, .start F task, fun _ _ => ⟨rfl, rfl⟩, fun e hout => .inl hout⟩
    | finish l h h' task r =>
      obtain ⟨rfl, hidle⟩ := hk.finish hg
      exact ⟨F, _, hidle, .finish F task r, fun _ _ => ⟨rfl, rfl⟩, fun e hout => .inl hout⟩
  | begins hx =>
    cases hx with
    | mk l h h' task c k => exact (hk.begins hg).2
  | @exec p q r fs s' o hx =>
    by_cases hr : ∃ c e buf, r = .put c e buf
    · obtain ⟨c, e, buf, rfl⟩ := hr
      cases hx
      obtain ⟨hheld, hnext⟩ := hk.put (hlink _ rfl) (hput c e buf rfl)
      rw [wrote_put]
      refine ⟨F, st, hnext, .silent F st nofun, fun i hi => ⟨rfl, ?_⟩, fun i hi => .inl hi⟩
      have hne : i ≠ e := by
        rintro rfl
        exact hi hheld
      exact Function.update_of_ne hne ..
    · have hr' : ∀ c e buf, r ≠ .put c e buf := fun c e buf he => hr ⟨c, e, buf, he⟩
      have hq := not_put (hlink _ rfl) (.inr (.inr ⟨r, rfl, hr'⟩))
      have hsame : wrote V (.ran r : Act T R) = V := by
        cases r with
        | put c e buf => exact absurd rfl (hr' c e buf)
        | _ => rfl
      rw [hsame]
      refine ⟨F, st, .of_same ?_ nofun fun _ => id⟩
      cases o <;> exact hk.land hq
  | @resume p q r fr fs s' o hx =>
    have hq := not_put (hlink _ rfl) (.inl (List.cons_ne_nil fr fs))
    refine ⟨F, st, .of_same ?_ nofun fun _ => id⟩
    cases o <;> exact hk.land hq
  | @wake p q w fs s' o hx =>
    have hq := not_put (hlink _ rfl) (.inr (.inl ⟨w, rfl⟩))
    refine ⟨F, st, .of_same ?_ nofun fun _ => id⟩
    cases o <;> exact hk.land hq
  | @ended p q r p' hx =>
    obtain ⟨hnext, hheld⟩ := hk.ended hg (hlink _ rfl) hx hfree
      (fun c e hc => hget _ rfl c e r hc rfl) fun c type hc => hcreate _ rfl c type r hc rfl
    exact ⟨F, st, .of_same hnext nofun hheld⟩

/-- A process never removes an extent. -/
theorem Knows.not_remove {p : Process T R} {q : Request} {c : ClientId} {e : ExtentId}
    {fs : List Frame} (hk : Knows inode lim program F V st ⟨p, some ⟨q, .request (.remove c e), fs⟩⟩)
    (hl : machine.Linked ⟨q, .request (.remove c e), fs⟩) : False := by
  obtain ⟨rfl, rfl⟩ := linked_app hl fun f hf => by cases f <;> cases hf
  generalize hp : (⟨p, some ⟨.remove c e, .request (.remove c e), []⟩⟩ : ProcessThread T R) = t at hk
  cases hk with
  | acquiring prog root =>
    cases hp
    cases root
  | releasing root rest =>
    cases hp
    cases root
  | @calling cl task h' q k a root mid =>
    cases hp
    cases q with
    | remove i => exact mid
    | _ => cases root
  | _ => cases hp

theorem not_removes_step {s s' : Shared} {i : ℕ} {lab : Act T R}
    (hk : Knows inode lim program F V st t) (hlink : ∀ a ∈ t.busy, machine.Linked a)
    (hs : ThreadStep machine (processes program) s t lab s' t') {x : SystemLabel}
    (hx : x ∈ (lab.outer.map (i, ·)).toList) (e : ExtentId) : removes e x.2 = false := by
  cases hs with
  | think h => cases hx
  | @exec p q r fs s' o h =>
    obtain rfl := List.mem_singleton.1 hx
    cases r with
    | remove c e => exact (hk.not_remove (hlink _ rfl)).elim
    | _ => rfl
  | _ =>
    obtain rfl := List.mem_singleton.1 hx
    rfl

/-! ## Runs -/

/-- Nothing has happened yet, and the server will hand out the assumed numbers. -/
structure Starts (lim : Limits) (g : Cluster T R) : Prop where
  fresh : Fresh (outer g)
  idle : ∀ t ∈ g.threads, t.loc.locks = [] ∧ t.loc.job = none
  supply : ∀ j, lim.ids (g.shared.store.supply j)

/-- Only the assumed contents are stored. -/
def Stores (lim : Limits) (tr : List (ClusterLabel T R)) : Prop :=
  ∀ i c e buf, (i, .ran (.put c e buf)) ∈ tr → lim.stores e buf

/-- The contents of the inodes after the steps `tr`. -/
def contents (g₀ : Cluster T R) (tr : List (ClusterLabel T R)) (e : Inum) : Str :=
  currentContent e (g₀.shared.store.content e) (outerTrace tr)

/-- What is known after the steps `tr`, when the atomic object is in state `s`. -/
structure Inv (inode : T → Inum) (lim : Limits) (program : T → Op R) (g₀ : Cluster T R)
    (tr : List (ClusterLabel T R)) (g : Cluster T R) (s : State ℕ (Inum → Str) T R) : Prop where
  outer : Run (CallStackMachines.Step machine (app Holding)) (outer g₀) (outerTrace tr) (outer g)
  kept : ∀ e, NeverRemoved e (outerTrace tr)
  count : g.threads.length = g₀.threads.length
  knows : ∀ i t, g.threads[i]? = some t →
    Knows inode lim program s.value (contents g₀ tr) (s.procs i) t
  free : ∀ e, (∀ t ∈ g.threads, e ∉ t.loc.loc.held) → contents g₀ tr e = s.value e

variable {g₀ g g' : Cluster T R} {tr : List (ClusterLabel T R)} {s : State ℕ (Inum → Str) T R} {i : ℕ}
  {lab : Act T R}

theorem contents_snoc : contents g₀ (tr ++ [(i, lab)]) = wrote (contents g₀ tr) lab := by
  funext e
  rw [contents, outerTrace_snoc, wrote]
  cases lab.outer with
  | none =>
    rw [Option.map_none, Option.toList_none, List.append_nil]
    rfl
  | some lab' => exact currentContent_snoc ..

/-- Who is at index `j` is somebody else than who is at `i`. -/
theorem mem_of_index_ne {pre post : List α} {t u : α} {j : ℕ}
    (hu : (pre ++ t :: post)[j]? = some u) (hj : j ≠ pre.length) : u ∈ pre ++ post := by
  rcases lt_or_gt_of_ne hj with hlt | hgt
  · rw [List.getElem?_append_left hlt] at hu
    exact List.mem_append_left _ (List.mem_of_getElem? hu)
  · obtain ⟨k, rfl⟩ : ∃ k, j = pre.length + (k + 1) := ⟨j - pre.length - 1, by omega⟩
    rw [List.getElem?_append_right (by omega), Nat.add_sub_cancel_left,
      List.getElem?_cons_succ] at hu
    exact List.mem_append_right _ (List.mem_of_getElem? hu)

/-- Two applications never hold the lock together. -/
theorem not_held_of_index {g : System} {t u : AppThread} {i j : ℕ} {e : ExtentId} (hg : SystemOk g)
    (hi : g.threads[i]? = some t) (hj : g.threads[j]? = some u) (hne : j ≠ i)
    (ht : e ∈ t.loc.held) : e ∉ u.loc.held := by
  obtain ⟨s, threads⟩ := g
  obtain ⟨hlt, rfl⟩ := List.getElem?_eq_some_iff.1 hi
  have hsplit : threads = threads.take i ++ threads[i] :: threads.drop (i + 1) := by
    rw [← List.drop_eq_getElem_cons hlt, List.take_append_drop]
  have hlen : (threads.take i).length = i := List.length_take_of_le hlt.le
  generalize threads[i] = t at ht hsplit
  generalize threads.take i = pre at hsplit hlen
  generalize threads.drop (i + 1) = post at hsplit
  subst hsplit hlen
  exact not_held_of_held hg ht (mem_of_index_ne hj hne)

/-- Two processes never hold the lock together. -/
theorem not_held_at {j : ℕ} {e : ExtentId} {u : ProcessThread T R}
    (hok : SystemOk (Processes.outer g)) (hi : g.threads[i]? = some t)
    (hj : g.threads[j]? = some u) (hne : j ≠ i) (ht : e ∈ t.loc.loc.held) : e ∉ u.loc.loc.held := by
  have hi' : (Processes.outer g).threads[i]? = some (t.map Process.loc) := by
    simp [Processes.outer, Config.map, hi]
  have hj' : (Processes.outer g).threads[j]? = some (u.map Process.loc) := by
    simp [Processes.outer, Config.map, hj]
  exact not_held_of_index hok hi' hj' hne ht

theorem Starts.inv (h : Starts lim g₀) :
    Inv inode lim program g₀ [] g₀ (AtomicObjects.start g₀.shared.store.content) where
  outer := .nil
  kept e x hx := absurd hx List.not_mem_nil
  count := rfl
  knows i t ht := by
    have hmem := List.mem_of_getElem? ht
    obtain ⟨hlocks, hjob⟩ := h.idle t hmem
    obtain ⟨hbusy, hheld, -⟩ := h.fresh.initial.threads _ (List.mem_map_of_mem hmem)
    obtain ⟨⟨⟨c, held⟩, locks, job⟩, busy⟩ := t
    obtain rfl : locks = [] := hlocks
    obtain rfl : job = none := hjob
    obtain rfl : busy = none := hbusy
    obtain rfl : held = [] := hheld
    exact .idle c
  free e _ := rfl

/-- If nobody held a lock but the process at `i`, nobody does when this process does not. -/
theorem nobody_holds {e : ExtentId} (hi : g.threads[i]? = some t) (hout : e ∉ t.loc.loc.held)
    (hothers : ∀ j u, j ≠ i → g.threads[j]? = some u → e ∉ u.loc.loc.held) :
    ∀ u ∈ g.threads, e ∉ u.loc.loc.held := by
  intro u hu
  obtain ⟨j, hj⟩ := List.mem_iff_getElem?.1 hu
  by_cases hji : j = i
  · subst hji
    obtain rfl : t = u := Option.some.inj (hi.symm.trans hj)
    exact hout
  · exact hothers j u hji hj

/-- A step of the processes is mirrored by the atomic object. -/
theorem Inv.step (hg : Guarded inode program) (h₀ : Starts lim g₀)
    (h : Inv inode lim program g₀ tr g s)
    (hs : CallStackMachines.Step machine (processes program) g (i, lab) g')
    (hput : ∀ c e buf, lab = .ran (.put c e buf) → lim.stores e buf) :
    i < g₀.threads.length ∧ ∃ F' st', Mirrors inode lim program lab s.value (s.procs i) F' st' ∧
      Inv inode lim program g₀ (tr ++ [(i, lab)]) g' ⟨F', Function.update s.procs i st'⟩ := by
  obtain ⟨t, t', hi, hts, hset⟩ := step_elim hs
  have hlt : i < g.threads.length := (List.getElem?_eq_some_iff.1 hi).1
  have hself : g'.threads[i]? = some t' := by rw [hset, List.getElem?_set_self hlt]
  have hothers : ∀ j u, j ≠ i → g.threads[j]? = some u → g'.threads[j]? = some u := fun j u hj hu => by
    rw [hset, List.getElem?_set_ne (Ne.symm hj), hu]
  have houter' : Run (CallStackMachines.Step machine (app Holding)) (Processes.outer g₀)
      (outerTrace (tr ++ [(i, lab)])) (Processes.outer g') :=
    run_outer h.outer hs fun l hh h' task c k ht => ((h.knows i _ ht).begins hg).1
  have hok := h₀.fresh.run_serviceOk h.outer
  have hok' := h₀.fresh.run_serviceOk houter'
  have hmem : t.map Process.loc ∈ (Processes.outer g).threads :=
    List.mem_map_of_mem (List.mem_of_getElem? hi)
  have hlink := (hok.system.threads _ hmem).linked
  obtain ⟨hsupply, hsupplied⟩ := h₀.fresh.run_supplied h.outer
  obtain ⟨F', st', hmove⟩ := (h.knows i t hi).step hg hts hlink
    (fun e hheld hout => h.free e (nobody_holds hi hout fun j u hji hj =>
      not_held_at hok'.system hself (hothers j u hji hj) hji hheld))
    (fun a ha c e r hroot hr => by
      have hcoh := Fresh.run_coherent e h₀.fresh h.outer (h.kept e)
      exact ((hcoh.tame _ hmem a ha).2.2 c hroot).2 r hr)
    (fun a ha c type r hroot hr => by
      obtain ⟨j, hj⟩ := hsupplied _ hmem a ha c type hroot r hr
      rw [hj, hsupply]
      exact h₀.supply j)
    hput
  refine ⟨h.count ▸ hlt, F', st', hmove.mirror, houter', ?_, ?_, ?_, ?_⟩
  · intro e x hx
    rw [outerTrace_snoc] at hx
    rcases List.mem_append.1 hx with hx | hx
    · exact h.kept e x hx
    · exact not_removes_step (h.knows i t hi) hlink hts hx e
  · rw [hset, List.length_set, h.count]
  · intro j u hu
    rw [contents_snoc]
    by_cases hji : j = i
    · subst hji
      obtain rfl : t' = u := Option.some.inj (hself.symm.trans hu)
      show Knows _ _ _ F' _ (Function.update s.procs j st' j) t'
      rw [Function.update_self]
      exact hmove.knows
    · rw [hset, List.getElem?_set_ne (Ne.symm hji)] at hu
      show Knows _ _ _ F' _ (Function.update s.procs i st' j) u
      rw [Function.update_of_ne hji]
      -- what this process knows is under its locks, which the process that moves does not hold
      refine (h.knows j u hu).others fun e he => hmove.alone e ?_
      exact not_held_at hok.system hu hi (Ne.symm hji) he
  · intro e hnone
    rw [contents_snoc]
    have hout' := hnone t' (List.mem_of_getElem? hself)
    rcases hmove.free e hout' with hout | hv
    · obtain ⟨hf, hv⟩ := hmove.alone e hout
      rw [hv]
      show _ = F' e
      rw [hf]
      exact h.free e (nobody_holds hi hout fun j u hji hj =>
        hnone u (List.mem_of_getElem? (hothers j u hji hj)))
    · exact hv

/-- What the mirror of every step keeps holds of the atomic object after any run. -/
theorem run_invariant {J : List (ClusterLabel T R) → State ℕ (Inum → Str) T R → Prop}
    (hg : Guarded inode program) (h₀ : Starts lim g₀)
    (hr : Run (CallStackMachines.Step machine (processes program)) g₀ tr g) (hst : Stores lim tr)
    (hstart : J [] (AtomicObjects.start g₀.shared.store.content))
    (hstep : ∀ done i lab s F' st', done ++ [(i, lab)] <+: tr → i < g₀.threads.length → J done s →
      Mirrors inode lim program lab s.value (s.procs i) F' st' →
        J (done ++ [(i, lab)]) ⟨F', Function.update s.procs i st'⟩) :
    ∃ s, Inv inode lim program g₀ tr g s ∧ J tr s := by
  refine hr.history_invariant
    (I := fun done g => done <+: tr → ∃ s, Inv inode lim program g₀ done g s ∧ J done s)
    (fun _ => ⟨_, h₀.inv, hstart⟩) ?_ List.prefix_rfl
  rintro done b ⟨i, lab⟩ c - ih hs hdone
  obtain ⟨s, hinv, hJ⟩ := ih ((List.prefix_append _ _).trans hdone)
  obtain ⟨hi, F', st', hmirror, hinv'⟩ := hinv.step hg h₀ hs fun c e buf hlab =>
    hst i c e buf (hdone.subset (by simp [hlab]))
  exact ⟨_, hinv', hstep done i lab s F' st' hdone hi hJ hmirror⟩

end Yfs.CriticalSections
