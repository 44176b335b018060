import Yfs.AtomicObjects
import Yfs.ExtentCoherence
import Yfs.Schedules
import Yfs.YfsClient

/-!
# Processes

A process is a `yfs_client` with one thread: it carries out one task after the other, and each
call of the task's program is a call of its lock client or of its extent client. Seen from these
libraries it is an application like any other.
-/

namespace Yfs.Processes
open LabelledRuns CallTrees LockProtocol ExtentClient CallStackMachines FileService LockSafety
open CacheOwnership ExtentViews ExtentCoherence Schedules

variable {T R : Type}

/-- What is left of a task. -/
abbrev Rest (R : Type) := Prog YfsClient.Step Reply YfsClient.Fault (R × YfsClient.Held)

/-- A process with the locks that its libraries have given to it, its `held_lock`, and the task it
is working on. -/
structure Process (T R : Type) where
  loc : Local
  locks : YfsClient.Held
  job : Option (T × Rest R)

inductive Event (T R : Type) where
  | start (task : T)
  | finish (task : T) (result : R)
  deriving DecidableEq, Repr

/-- The request that a call of the program makes. -/
def request (c : ClientId) : YfsClient.Call → Request
  | .acquire i => .acquire c i
  | .release i => .release c i
  | .get i => .get c i
  | .put i buf => .put c i buf
  | .getattr i => .getattr c i
  | .remove i => .remove c i
  | .create type => .create c type

/-- A caller of `release` has given the lock back. -/
def before (l : Local) : Request → Local
  | .release _ lid => { l with held := l.held.erase lid }
  | _ => l

inductive Thinks (program : T → YfsClient.Op R) : Process T R → Event T R → Process T R → Prop where
  | start (l : Local) (h : YfsClient.Held) (task : T) :
      Thinks program ⟨l, h, none⟩ (.start task) ⟨l, h, some (task, (program task).run h)⟩
  | finish (l : Local) (h h' : YfsClient.Held) (task : T) (r : R) :
      Thinks program ⟨l, h, some (task, .ret (r, h'))⟩ (.finish task r) ⟨l, h', none⟩

inductive Calls : Process T R → Request → Process T R → Prop where
  | mk (l : Local) (h h' : YfsClient.Held) (task : T) (c : YfsClient.Call) (k : Reply → Rest R) :
      Calls ⟨l, h, some (task, .call (h', c) k)⟩ (request l.client c)
        ⟨before l (request l.client c), h, some (task, .call (h', c) k)⟩

inductive Returns : Process T R → Request → Reply → Process T R → Prop where
  | mk (l : Local) (h : YfsClient.Held) (task : T) (q : YfsClient.Step) (k : Reply → Rest R)
      (r : Request) (v : Reply) :
      Returns ⟨l, h, some (task, .call q k)⟩ r v ⟨l.after r, h, some (task, k v)⟩

def processes (program : T → YfsClient.Op R) : App (Process T R) (Event T R) Request Reply where
  think := Thinks program
  begins := Calls
  ends := Returns

abbrev ProcessThread (T R : Type) := Thread (Process T R) Request Reply Frame Sleeper
abbrev Cluster (T R : Type) := Config Shared (Process T R) Request Reply Frame Sleeper
abbrev Act (T R : Type) := Label (Event T R) Request Reply Frame Sleeper
abbrev ClusterLabel (T R : Type) := ℕ × Act T R

/-- The cluster as its lock clients and extent clients see it. -/
def outer (g : Cluster T R) : System := g.map Process.loc

/-- The starts and ends of the tasks. -/
def history (tr : List (ClusterLabel T R)) : List (ℕ × AtomicObjects.Event T R) :=
  tr.filterMap fun x => match x.2 with
    | .think (.start task) => some (x.1, .start task)
    | .think (.finish _ r) => some (x.1, .finish r)
    | _ => none

variable {program : T → YfsClient.Op R} {g g' : Cluster T R} {i : ℕ} {t t' : ProcessThread T R}
  {lab : Act T R} {tr : List (ClusterLabel T R)}

theorem mem_history {task : T} (h : (i, .think (.start task)) ∈ tr) : (i, .start task) ∈ history tr :=
  List.mem_filterMap.2 ⟨_, h, rfl⟩

/-- A call that keeps the rules of the libraries is one of the calls that they expect. -/
theorem begins_request {l : Local} {c : YfsClient.Call}
    (hrelease : ∀ i, c = .release i → i ∈ l.held)
    (hunder : ∀ e ∈ target (request l.client c), e ∈ l.held) :
    (app Holding).begins l (request l.client c) (before l (request l.client c)) := by
  cases c with
  | acquire i => exact .acquire l i
  | release i => exact .release l i (hrelease i rfl)
  | get i => exact .extent l _ rfl hunder
  | put i buf => exact .extent l _ rfl hunder
  | getattr i => exact .extent l _ rfl hunder
  | remove i => exact .extent l _ rfl hunder
  | create type => exact .extent l _ rfl hunder

theorem Thinks.loc {p p' : Process T R} {e : Event T R} (h : Thinks program p e p') :
    p'.loc = p.loc := by
  cases h <;> rfl

theorem Returns.loc {p p' : Process T R} {r : Request} {v : Reply} (h : Returns p r v p') :
    p'.loc = p.loc.after r := by
  cases h
  rfl

/-- A step of a process is a step of an application, as long as the process keeps the rules. -/
theorem run_outer {a : System}
    (hrun : Run (Step machine (app Holding)) a (outerTrace tr) (outer g))
    (hs : Step machine (processes program) g (i, lab) g')
    (hrules : ∀ l h h' task c k, g.threads[i]? = some ⟨⟨l, h, some (task, .call (h', c) k)⟩, none⟩ →
      (∀ j, c = .release j → j ∈ l.held) ∧ ∀ e ∈ target (request l.client c), e ∈ l.held) :
    Run (Step machine (app Holding)) a (outerTrace (tr ++ [(i, lab)]))
      (outer g') := by
  generalize hx : (i, lab) = x at hs
  cases hs with
  | @mk s s' t t' lab pre post ht =>
    obtain ⟨rfl, rfl⟩ := Prod.mk.inj hx
    have hi : (pre ++ t :: post)[pre.length]? = some t := by simp
    refine run_outerTrace_snoc hrun ht (fun e l h => h.loc) ?_ ?_
    · rintro r p rfl hp
      cases ht with
      | begins _ =>
        cases hp with
        | mk l h h' task c k =>
          obtain ⟨hrelease, hunder⟩ := hrules l h h' task c k hi
          exact begins_request hrelease hunder
    · rintro r v p - hp
      exact hp.loc

/-! ## Schedules -/

/-- The process has its reply. -/
def answered (task : T) (k : Reply → Rest R) (p : Process T R) (r : Request) (v : Reply) :
    Process T R :=
  ⟨p.loc.after r, p.locks, some (task, k v)⟩

/-- The next step of a process, which starts on `next` if it has nothing to do. -/
def move (program : T → YfsClient.Op R) (next : T) (s : Shared) (t : ProcessThread T R) :
    Option (Shared × ProcessThread T R × Act T R) :=
  match t with
  | ⟨⟨l, h, none⟩, none⟩ =>
    some (s, ⟨⟨l, h, some (next, (program next).run h)⟩, none⟩, .think (.start next))
  | ⟨⟨l, _, some (task, .ret (r, h'))⟩, none⟩ =>
    some (s, ⟨⟨l, h', none⟩, none⟩, .think (.finish task r))
  | ⟨⟨l, h, some (task, .call (h', c) k)⟩, none⟩ =>
    some (s, ⟨⟨before l (request l.client c), h, some (task, .call (h', c) k)⟩,
      some ⟨request l.client c, .request (request l.client c), []⟩⟩, .begins (request l.client c))
  | ⟨⟨_, _, some (task, .call _ k)⟩, some _⟩ => advance machine (answered task k) s t
  | _ => none

/-- Let the processes move one after the other. -/
def moves (program : T → YfsClient.Op R) :
    List (ℕ × T) → Cluster T R → Option (List (ClusterLabel T R) × Cluster T R)
  | [], g => some ([], g)
  | (i, next) :: cs, g => do
    let t ← g.threads[i]?
    let (s, t', lab) ← move program next g.shared t
    let (tr, g') ← moves program cs ⟨s, g.threads.set i t'⟩
    some ((i, lab) :: tr, g')

theorem step_move {next : T} {s s' : Shared} (h : move program next s t = some (s', t', lab)) :
    ThreadStep machine (processes program) s t lab s' t' := by
  unfold move at h
  split at h
  · cases h
    exact .think (.start _ _ _)
  · cases h
    exact .think (.finish _ _ _ _ _)
  · cases h
    exact .begins (.mk _ _ _ _ _ _)
  · exact step_advance (fun r v => Returns.mk _ _ _ _ _ r v) h
  · cases h

theorem run_moves {cs : List (ℕ × T)} (h : moves program cs g = some (tr, g')) :
    Run (Step machine (processes program)) g tr g' := by
  induction cs generalizing g tr with
  | nil =>
    cases h
    exact .nil
  | cons c cs ih =>
    simp only [moves, Option.bind_eq_bind, Option.bind_eq_some_iff] at h
    obtain ⟨t, hi, ⟨s, t', lab⟩, hs, ⟨tr', g''⟩, hm, he⟩ := h
    cases he
    exact (Run.single (step_set hi (step_move hs))).append (ih hm)

end Yfs.Processes
