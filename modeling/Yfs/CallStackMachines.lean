import Yfs.LabelledRuns
import Mathlib.Algebra.BigOperators.Group.Multiset.Basic
import Mathlib.Algebra.GroupWithZero.Nat
import Mathlib.Data.Multiset.Filter

/-!
# Machines whose threads are stacks of pending calls

A thread runs a piece of code atomically until that code returns, calls another
procedure and waits for the answer, or goes to sleep. The callee may live in the same
process or behind a network: a call that was made but not yet run is a request on its
way, a returned value that was not yet consumed is a reply on its way, and both may
stay on their way for any length of time. Since every call is run exactly once and
answered exactly once, the frames below a call form an ordinary stack.

The application code above the machine is a relation: it decides which requests a
thread may make next and what it learns from their replies.
-/

namespace Yfs.CallStackMachines
open LabelledRuns

/-- How a piece of atomic code ends. -/
inductive Outcome (R V F W : Type) where
  | ret (v : V)
  | call (r : R) (f : F)
  | wait (w : W)

/-- The code of a machine. `none` is a failed assertion. A frame remembers the request it
serves and the request it made; a sleeper remembers the request it serves. `answers` says
which values may answer a request. -/
structure Machine (S R V F W : Type) where
  exec : R → S → Option (S × Outcome R V F W)
  resume : F → V → S → Option (S × Outcome R V F W)
  wake : W → S → Option (S × Outcome R V F W)
  serves : F → R
  calls : F → R
  sleepsFor : W → R
  answers : R → V → Prop

/-- The application code: steps of its own, the calls it may make, the effect of a reply. -/
structure App (L E R V : Type) where
  think : L → E → L → Prop
  begins : L → R → L → Prop
  ends : L → R → V → L → Prop

inductive Control (R V W : Type) where
  | request (r : R)
  | reply (v : V)
  | asleep (w : W)

structure Activity (R V F W : Type) where
  root : R
  control : Control R V W
  frames : List F

structure Thread (L R V F W : Type) where
  loc : L
  busy : Option (Activity R V F W)

structure Config (S L R V F W : Type) where
  shared : S
  threads : List (Thread L R V F W)

inductive Label (E R V F W : Type) where
  | think (e : E)
  | begins (r : R)
  | ran (r : R)
  | resumed (f : F) (v : V)
  | woke (w : W)
  | ended (r : R) (v : V)
  deriving DecidableEq

variable {S L E R V F W : Type}

/-- The stack after a piece of code that ran above `frames` has ended. -/
def Activity.land (root : R) (frames : List F) : Outcome R V F W → Activity R V F W
  | .ret v => ⟨root, .reply v, frames⟩
  | .call r f => ⟨root, .request r, f :: frames⟩
  | .wait w => ⟨root, .asleep w, frames⟩

/-- One step of one thread. -/
inductive ThreadStep (M : Machine S R V F W) (A : App L E R V) :
    S → Thread L R V F W → Label E R V F W → S → Thread L R V F W → Prop where
  | think {s l e l'} (h : A.think l e l') : ThreadStep M A s ⟨l, none⟩ (.think e) s ⟨l', none⟩
  | begins {s l r l'} (h : A.begins l r l') :
      ThreadStep M A s ⟨l, none⟩ (.begins r) s ⟨l', some ⟨r, .request r, []⟩⟩
  | exec {s l q r fs s' o} (h : M.exec r s = some (s', o)) :
      ThreadStep M A s ⟨l, some ⟨q, .request r, fs⟩⟩ (.ran r) s' ⟨l, some (.land q fs o)⟩
  | resume {s l q v f fs s' o} (h : M.resume f v s = some (s', o)) :
      ThreadStep M A s ⟨l, some ⟨q, .reply v, f :: fs⟩⟩ (.resumed f v) s'
        ⟨l, some (.land q fs o)⟩
  | wake {s l q w fs s' o} (h : M.wake w s = some (s', o)) :
      ThreadStep M A s ⟨l, some ⟨q, .asleep w, fs⟩⟩ (.woke w) s' ⟨l, some (.land q fs o)⟩
  | ended {s l q v l'} (h : A.ends l q v l') :
      ThreadStep M A s ⟨l, some ⟨q, .reply v, []⟩⟩ (.ended q v) s ⟨l', none⟩

/-- A step of the whole machine: any one thread moves. The label says which. -/
inductive Step (M : Machine S R V F W) (A : App L E R V) :
    Config S L R V F W → ℕ × Label E R V F W → Config S L R V F W → Prop where
  | mk {s s' t t' lab} (pre post : List (Thread L R V F W)) (h : ThreadStep M A s t lab s' t') :
      Step M A ⟨s, pre ++ t :: post⟩ (pre.length, lab) ⟨s', pre ++ t' :: post⟩

/-- A step replaces the thread that moves. -/
theorem step_elim {M : Machine S R V F W} {A : App L E R V} {g g' : Config S L R V F W} {i : ℕ}
    {lab : Label E R V F W} (hs : Step M A g (i, lab) g') : ∃ t t', g.threads[i]? = some t ∧
      ThreadStep M A g.shared t lab g'.shared t' ∧ g'.threads = g.threads.set i t' := by
  generalize hx : (i, lab) = x at hs
  cases hs with
  | @mk s s' t t' lab pre post ht =>
    obtain ⟨rfl, rfl⟩ := Prod.mk.inj hx
    exact ⟨t, t', by simp, ht, by simp⟩

/-- The code that the thread would run next fails an assertion. -/
def Thread.Fails (M : Machine S R V F W) (s : S) (t : Thread L R V F W) : Prop :=
  match t.busy with
  | some ⟨_, .request r, _⟩ => M.exec r s = none
  | some ⟨_, .reply v, f :: _⟩ => M.resume f v s = none
  | some ⟨_, .asleep w, _⟩ => M.wake w s = none
  | _ => False

/-! ## Forgetting what the application thinks

A detailed application can be seen as a coarser one when its calls and replies are calls and
replies there; its own steps are then not seen at all. -/

section
variable {L' : Type}

def Thread.map (f : L → L') (t : Thread L R V F W) : Thread L' R V F W := ⟨f t.loc, t.busy⟩

def Config.map (f : L → L') (c : Config S L R V F W) : Config S L' R V F W :=
  ⟨c.shared, c.threads.map (Thread.map f)⟩

def Label.outer : Label E R V F W → Option (Label Empty R V F W)
  | .think _ => none
  | .begins r => some (.begins r)
  | .ran r => some (.ran r)
  | .resumed f v => some (.resumed f v)
  | .woke w => some (.woke w)
  | .ended r v => some (.ended r v)

def outerTrace (tr : List (ℕ × Label E R V F W)) : List (ℕ × Label Empty R V F W) :=
  tr.filterMap fun x => x.2.outer.map (x.1, ·)

theorem outerTrace_snoc (tr : List (ℕ × Label E R V F W)) (i : ℕ) (lab : Label E R V F W) :
    outerTrace (tr ++ [(i, lab)]) = outerTrace tr ++ (lab.outer.map (i, ·)).toList := by
  simp only [outerTrace, List.filterMap_append, List.filterMap_cons, List.filterMap_nil]
  cases lab.outer <;> rfl

/-- The step of one thread is a step of the coarser application, or is not seen. -/
theorem run_outerTrace_snoc {M : Machine S R V F W} {A : App L E R V} {B : App L' Empty R V}
    {f : L → L'} {a : Config S L' R V F W} {tr : List (ℕ × Label E R V F W)} {s s' : S}
    {pre post : List (Thread L R V F W)} {t t' : Thread L R V F W} {lab : Label E R V F W}
    (hrun : Run (Step M B) a (outerTrace tr) (Config.map f ⟨s, pre ++ t :: post⟩))
    (h : ThreadStep M A s t lab s' t') (hthink : ∀ e l, A.think t.loc e l → f l = f t.loc)
    (hbegins : ∀ r l, lab = .begins r → A.begins t.loc r l → B.begins (f t.loc) r (f l))
    (hends : ∀ r v l, lab = .ended r v → A.ends t.loc r v l → B.ends (f t.loc) r v (f l)) :
    Run (Step M B) a (outerTrace (tr ++ [(pre.length, lab)]))
      (Config.map f ⟨s', pre ++ t' :: post⟩) := by
  rw [outerTrace_snoc]
  have hstep : ∀ lab', ThreadStep M B s (t.map f) lab' s' (t'.map f) →
      Run (Step M B) a (outerTrace tr ++ [(pre.length, lab')])
        (Config.map f ⟨s', pre ++ t' :: post⟩) := by
    intro lab' ht
    have hs := Step.mk (pre.map (Thread.map f)) (post.map (Thread.map f)) ht
    rw [List.length_map] at hs
    simp only [Config.map, List.map_append, List.map_cons] at hrun ⊢
    exact hrun.snoc hs
  cases h with
  | think h =>
    have hf := hthink _ _ h
    simp only [Config.map, List.map_append, List.map_cons, Thread.map, hf, Label.outer] at hrun ⊢
    simpa using hrun
  | begins h => exact hstep _ (.begins (hbegins _ _ rfl h))
  | exec h => exact hstep _ (.exec h)
  | resume h => exact hstep _ (.resume h)
  | wake h => exact hstep _ (.wake h)
  | ended h => exact hstep _ (.ended (hends _ _ _ rfl h))

end

/-! ## Every frame answers the call made by the frame below it -/

namespace Machine

variable (M : Machine S R V F W)

/-- The call that the top of the stack is working on. -/
def pending (q : R) : List F → R
  | [] => q
  | f :: _ => M.calls f

def Framed (q : R) : List F → Prop
  | [] => True
  | f :: fs => M.serves f = M.pending q fs ∧ Framed q fs

def Expects (r : R) : Control R V W → Prop
  | .request r' => r' = r
  | .reply v => M.answers r v
  | .asleep w => M.sleepsFor w = r

def Linked (a : Activity R V F W) : Prop :=
  M.Framed a.root a.frames ∧ M.Expects (M.pending a.root a.frames) a.control

/-- A piece of code serving `r` ends well: it returns an answer to `r`, and the frames and
sleepers it leaves are labelled truthfully. -/
def Faithful (r : R) : Outcome R V F W → Prop
  | .ret v => M.answers r v
  | .call r' f => M.serves f = r ∧ M.calls f = r'
  | .wait w => M.sleepsFor w = r

structure Lawful : Prop where
  exec : ∀ r s s' o, M.exec r s = some (s', o) → M.Faithful r o
  resume : ∀ f v s s' o, M.answers (M.calls f) v → M.resume f v s = some (s', o) →
    M.Faithful (M.serves f) o
  wake : ∀ w s s' o, M.wake w s = some (s', o) → M.Faithful (M.sleepsFor w) o

variable {M}

theorem linked_land {q : R} {fs : List F} {o : Outcome R V F W} (hf : M.Framed q fs)
    (ho : M.Faithful (M.pending q fs) o) : M.Linked (.land q fs o) := by
  cases o with
  | ret v => exact ⟨hf, ho⟩
  | call r f => exact ⟨⟨ho.1, hf⟩, ho.2.symm⟩
  | wait w => exact ⟨hf, ho⟩

theorem Lawful.linked_step (hM : M.Lawful) {A : App L E R V} {s s' : S}
    {t t' : Thread L R V F W} {lab : Label E R V F W} (h : ThreadStep M A s t lab s' t')
    (ht : ∀ a ∈ t.busy, M.Linked a) : ∀ a ∈ t'.busy, M.Linked a := by
  cases h with
  | think h => simp
  | begins h => rintro a ⟨⟩; exact ⟨trivial, rfl⟩
  | exec h =>
    rintro a ⟨⟩
    obtain ⟨hf, he⟩ := ht _ rfl
    exact linked_land hf (he ▸ hM.exec _ _ _ _ h)
  | resume h =>
    rintro a ⟨⟩
    obtain ⟨⟨hs, hf⟩, hv⟩ := ht _ rfl
    exact linked_land hf (hs ▸ hM.resume _ _ _ _ _ hv h)
  | wake h =>
    rintro a ⟨⟩
    obtain ⟨hf, he⟩ := ht _ rfl
    exact linked_land hf (he ▸ hM.wake _ _ _ _ h)
  | ended h => simp

end Machine

/-! ## Ledgers: counting what is on its way

A ledger assigns tokens to the local state of a thread, to the control at the top of its
stack, and to each frame together with whatever stands directly above it. A step changes
only the top of one stack, so it exchanges a few tokens and leaves all others alone.
-/

inductive Above (R V F W : Type) where
  | control (c : Control R V W)
  | frame (f : F)

inductive Base (R F : Type) where
  | root (r : R)
  | frame (f : F)

structure Ledger (L R V F W T : Type) where
  loc : L → Multiset T
  top : Control R V W → Multiset T
  link : Above R V F W → Base R F → Multiset T

/-- What the top of a stack stands on. -/
def base (q : R) : List F → Base R F
  | [] => .root q
  | f :: _ => .frame f

/-- The call made by the base of a stack. -/
def Base.calls (M : Machine S R V F W) : Base R F → R
  | .root r => r
  | .frame f => M.calls f

@[simp] theorem Base.calls_base (M : Machine S R V F W) (q : R) (fs : List F) :
    (base q fs).calls M = M.pending q fs := by
  cases fs <;> rfl

namespace Ledger

variable {T : Type} (G : Ledger L R V F W T)

/-- The tokens of all frames that have another frame directly above them. -/
def deep (q : R) : List F → Multiset T
  | [] => 0
  | f :: fs => G.link (.frame f) (base q fs) + deep q fs

def surface (c : Control R V W) (b : Base R F) : Multiset T := G.top c + G.link (.control c) b

/-- The tokens on the surface after a piece of code that stood on `b` has ended. -/
def landed (b : Base R F) : Outcome R V F W → Multiset T
  | .ret v => G.surface (.reply v) b
  | .call r f => G.surface (.request r) (.frame f) + G.link (.frame f) b
  | .wait w => G.surface (.asleep w) b

def activity (a : Activity R V F W) : Multiset T :=
  G.surface a.control (base a.root a.frames) + G.deep a.root a.frames

def thread (t : Thread L R V F W) : Multiset T :=
  G.loc t.loc + (t.busy.map G.activity).getD 0

def total (c : Config S L R V F W) : Multiset T := (c.threads.map G.thread).sum

theorem activity_land (q : R) (fs : List F) (o : Outcome R V F W) :
    G.activity (.land q fs o) = G.landed (base q fs) o + G.deep q fs := by
  cases o <;> simp [activity, Activity.land, landed, deep, base, add_assoc]

theorem total_split (s : S) (pre post : List (Thread L R V F W)) (t : Thread L R V F W) :
    G.total ⟨s, pre ++ t :: post⟩ =
      G.thread t + ((pre.map G.thread).sum + (post.map G.thread).sum) := by
  simp only [total, List.map_append, List.map_cons, List.sum_append, List.sum_cons]
  exact add_left_comm _ _ _

/-- The tokens of a frame are on the stack, whatever stands above it. -/
theorem link_le_activity {T : Type} (G : Ledger L R V F W T) {a : Activity R V F W} {f : F}
    (hf : f ∈ a.frames) : ∃ y, ∀ x ∈ G.link y (.frame f), x ∈ G.activity a := by
  have hdeep : ∀ (q : R) (fs : List F) (y : Above R V F W), f ∈ fs →
      ∃ z, ∀ x ∈ G.link z (.frame f), x ∈ G.link y (base q fs) + G.deep q fs := by
    intro q fs
    induction fs with
    | nil => simp
    | cons e fs ih =>
      intro y hm
      rcases List.mem_cons.mp hm with rfl | hm
      · exact ⟨y, fun x hx => Multiset.mem_add.mpr (.inl hx)⟩
      · obtain ⟨z, hz⟩ := ih (.frame e) hm
        exact ⟨z, fun x hx => Multiset.mem_add.mpr (.inr (hz x hx))⟩
  obtain ⟨z, hz⟩ := hdeep a.root a.frames (.control a.control) hf
  refine ⟨z, fun x hx => ?_⟩
  rw [activity, surface, add_assoc]
  exact Multiset.mem_add.mpr (.inr (hz x hx))

/-- What a frame and the one below it are worth together. -/
theorem frame_le_activity {T : Type} (G : Ledger L R V F W T) (q : R) (k : Control R V W) (f : F)
    (pre fs : List F) : ∀ x ∈ G.link (.frame f) (base q fs), x ∈ G.activity ⟨q, k, pre ++ f :: fs⟩ := by
  intro x hx
  refine Multiset.mem_add.mpr (.inr ?_)
  induction pre with
  | nil => exact Multiset.mem_add.mpr (.inl hx)
  | cons g pre ih => exact Multiset.mem_add.mpr (.inr ih)

/-- Frames that are worth a token of some kind are at most as many as these tokens. -/
theorem countP_frames_le {T : Type} (G : Ledger L R V F W T) {P : F → Prop} {Q : T → Prop}
    [DecidablePred P] [DecidablePred Q]
    (hw : ∀ f, P f → ∀ y, 1 ≤ (G.link y (.frame f)).countP Q) (a : Activity R V F W) :
    a.frames.countP (fun f => P f) ≤ (G.activity a).countP Q := by
  have hdeep : ∀ (q : R) (fs : List F) (y : Above R V F W),
      fs.countP (fun f => P f) ≤ (G.link y (base q fs) + G.deep q fs).countP Q := by
    intro q fs
    induction fs with
    | nil => exact fun _ => Nat.zero_le _
    | cons f fs ih =>
      intro y
      have hrest := ih (.frame f)
      rw [List.countP_cons, Multiset.countP_add]
      simp only [deep, base, Multiset.countP_add, decide_eq_true_eq] at hrest ⊢
      by_cases hf : P f
      · have := hw f hf y
        simp only [hf, if_true]
        omega
      · simp only [hf, if_false]
        omega
  have h := hdeep a.root a.frames (.control a.control)
  rw [activity, surface, add_assoc, Multiset.countP_add]
  omega

theorem mem_total {T : Type} {G : Ledger L R V F W T} {c : Config S L R V F W}
    {t : Thread L R V F W} {x : T} (ht : t ∈ c.threads) (hx : x ∈ G.thread t) : x ∈ G.total c := by
  obtain ⟨pre, post, he⟩ := List.append_of_mem ht
  have hs := G.total_split c.shared pre post t
  rw [← he] at hs
  rw [hs]
  exact Multiset.mem_add.mpr (.inl hx)

theorem mem_total_activity {T : Type} {G : Ledger L R V F W T} {c : Config S L R V F W}
    {t : Thread L R V F W} {a : Activity R V F W} {x : T} (ht : t ∈ c.threads) (ha : a ∈ t.busy)
    (hx : x ∈ G.activity a) : x ∈ G.total c := by
  refine mem_total ht (Multiset.mem_add.mpr (.inr ?_))
  rw [Option.mem_def.mp ha]
  exact hx

/-- What is at most as much as the tokens of every thread is at most as much as all tokens. -/
theorem sum_le_countP {T : Type} (G : Ledger L R V F W T) {Q : T → Prop} [DecidablePred Q]
    (φ : Thread L R V F W → ℕ) (c : Config S L R V F W)
    (h : ∀ t ∈ c.threads, φ t ≤ (G.thread t).countP Q) :
    (c.threads.map φ).sum ≤ (G.total c).countP Q := by
  obtain ⟨s, ts⟩ := c
  unfold total
  induction ts with
  | nil => simp
  | cons t ts ih =>
    have ht := h t List.mem_cons_self
    have hts := ih fun u hu => h u (List.mem_cons_of_mem _ hu)
    simp only [List.map_cons, List.sum_cons, Multiset.countP_add]
    exact Nat.add_le_add ht hts

end Ledger

end Yfs.CallStackMachines
