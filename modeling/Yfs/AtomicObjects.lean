import Yfs.LabelledRuns
import Mathlib.Logic.Function.Basic

/-!
# Atomic objects

An object with one value is used by many processes. A task of a process starts, takes effect at one
moment, and returns the result that belongs to this moment. It may also take effect and never return.
Only starts and returns are seen: a system whose histories are all seen of an atomic object is
linearizable.
-/

namespace Yfs.AtomicObjects
open LabelledRuns

variable {ι S T R : Type}

inductive Event (T R : Type) where
  | start (task : T)
  | finish (result : R)
  deriving DecidableEq, Repr

/-- What a process is doing: a task that has not taken effect, or one that has, with its result if it
will return. -/
inductive Status (T R : Type) where
  | idle
  | pending (task : T)
  | done (task : T) (result : Option R)
  deriving DecidableEq, Repr

/-- The task of a process. -/
def Status.task : Status T R → Option T
  | .idle => none
  | .pending task | .done task _ => some task

structure State (ι S T R : Type) where
  value : S
  procs : ι → Status T R

/-- A step of process `i`; `none` is the moment when its task takes effect. -/
abbrev Label (ι T R : Type) := ι × Option (Event T R)

/-- What the tasks may do to the value, and with which results. -/
abbrev Spec (S T R : Type) := T → S → S → Option R → Prop

inductive Step [DecidableEq ι] (spec : Spec S T R) :
    State ι S T R → Label ι T R → State ι S T R → Prop where
  | start {s : State ι S T R} {i : ι} (task : T) (hi : s.procs i = .idle) :
      Step spec s (i, some (.start task)) ⟨s.value, Function.update s.procs i (.pending task)⟩
  | commit {s : State ι S T R} {i : ι} {task : T} {v : S} {r : Option R}
      (hi : s.procs i = .pending task) (h : spec task s.value v r) :
      Step spec s (i, none) ⟨v, Function.update s.procs i (.done task r)⟩
  | finish {s : State ι S T R} {i : ι} {task : T} {r : R} (hi : s.procs i = .done task (some r)) :
      Step spec s (i, some (.finish r)) ⟨s.value, Function.update s.procs i .idle⟩

def start (v : S) : State ι S T R := ⟨v, fun _ => .idle⟩

/-- What is seen of a run. -/
def seen (tr : List (Label ι T R)) : List (ι × Event T R) := tr.filterMap fun x => x.2.map (x.1, ·)

/-- The history is seen of an atomic object. -/
def Linearizable [DecidableEq ι] (spec : Spec S T R) (v : S) (h : List (ι × Event T R)) : Prop :=
  ∃ tr s, Run (Step spec) (start v) tr s ∧ seen tr = h

def State.map {S' : Type} (abs : S → S') (s : State ι S T R) : State ι S' T R :=
  ⟨abs s.value, s.procs⟩

variable {spec : Spec S T R} {s s' : State ι S T R} {l : Label ι T R} {tr : List (Label ι T R)}
  {v : S} {h : List (ι × Event T R)}

theorem seen_append (tr tr' : List (Label ι T R)) : seen (tr ++ tr') = seen tr ++ seen tr' :=
  List.filterMap_append

/-- The last event of a run, with the effects after it. -/
theorem run_seen_snoc [DecidableEq ι] {i : ι} {e : Event T R} (hr : Run (Step spec) s tr s')
    (hseen : seen tr = h ++ [(i, e)]) : ∃ tr₁ s₁ s₂ tr₂, Run (Step spec) s tr₁ s₁ ∧ seen tr₁ = h ∧
      Step spec s₁ (i, some e) s₂ ∧ Run (Step spec) s₂ tr₂ s' ∧ seen tr₂ = [] := by
  induction hr with
  | nil => simp [seen] at hseen
  | @snoc tr b c l run last ih =>
    obtain ⟨j, o⟩ := l
    rw [seen_append] at hseen
    cases o with
    | none =>
      have hnone : seen [((j, none) : Label ι T R)] = [] := rfl
      rw [hnone, List.append_nil] at hseen
      obtain ⟨tr₁, s₁, s₂, tr₂, h₁, hs₁, hstep, h₂, hs₂⟩ := ih hseen
      refine ⟨tr₁, s₁, s₂, tr₂ ++ [(j, none)], h₁, hs₁, hstep, h₂.snoc last, ?_⟩
      rw [seen_append, hs₂, hnone]
      rfl
    | some e' =>
      have hsome : seen [((j, some e') : Label ι T R)] = [(j, e')] := rfl
      rw [hsome] at hseen
      obtain ⟨hinit, hlast⟩ := List.append_inj' hseen rfl
      cases hlast
      exact ⟨tr, b, c, [], run, hinit, last, .nil, rfl⟩

/-! ## Refinement -/

section
variable {S' : Type} {spec' : Spec S' T R} {P : S → Prop} {Q : T → Prop} {abs : S → S'}

/-- What holds while `P` holds of the value and `Q` of the tasks that are started. -/
structure Sound (P : S → Prop) (Q : T → Prop) (s : State ι S T R) : Prop where
  value : P s.value
  pending : ∀ i task, s.procs i = .pending task → Q task

theorem sound_start (hv : P v) : Sound P Q (start v : State ι S T R) := ⟨hv, nofun⟩

variable [DecidableEq ι]

theorem Sound.update (hs : Sound P Q s) (hv : P v) {i : ι} {st : Status T R}
    (hst : ∀ task, st = .pending task → Q task) : Sound P Q ⟨v, Function.update s.procs i st⟩ := by
  refine ⟨hv, fun j task hj => ?_⟩
  dsimp only at hj
  by_cases hji : j = i
  · subst hji
    rw [Function.update_self] at hj
    exact hst task hj
  · rw [Function.update_of_ne hji] at hj
    exact hs.pending j task hj

theorem Sound.step (hs : Sound P Q s) (hstep : Step spec s l s')
    (hstart : ∀ i task, l = (i, some (.start task)) → Q task)
    (keep : ∀ task v v' r, Q task → P v → spec task v v' r → P v' ∧ spec' task (abs v) (abs v') r) :
    Sound P Q s' ∧ Step spec' (s.map abs) l (s'.map abs) := by
  cases hstep with
  | @start i task hi =>
    refine ⟨hs.update hs.value fun task' he => ?_, .start task hi⟩
    cases he
    exact hstart i task rfl
  | commit hi hspec =>
    obtain ⟨hv, hspec'⟩ := keep _ _ _ _ (hs.pending _ _ hi) hs.value hspec
    exact ⟨hs.update hv nofun, .commit hi hspec'⟩
  | finish hi => exact ⟨hs.update hs.value nofun, .finish hi⟩

/-- While `P` holds, which tasks in `Q` keep, the object is as good as the one that is seen
through `abs`. -/
theorem Sound.run (hr : Run (Step spec) s tr s') (hs : Sound P Q s)
    (hstart : ∀ i task, (i, some (.start task)) ∈ tr → Q task)
    (keep : ∀ task v v' r, Q task → P v → spec task v v' r → P v' ∧ spec' task (abs v) (abs v') r) :
    Sound P Q s' ∧ Run (Step spec') (s.map abs) tr (s'.map abs) := by
  induction hr with
  | nil => exact ⟨hs, .nil⟩
  | @snoc tr b c l run last ih =>
    obtain ⟨hb, hrun⟩ := ih fun i task hmem => hstart i task (List.mem_append_left _ hmem)
    obtain ⟨hc, hstep⟩ := hb.step last (fun i task he => hstart i task (by simp [he])) keep
    exact ⟨hc, hrun.snoc hstep⟩

omit [DecidableEq ι] in
theorem mem_seen {i : ι} {e : Event T R} (hmem : (i, some e) ∈ tr) : (i, e) ∈ seen tr :=
  List.mem_filterMap.2 ⟨_, hmem, rfl⟩

/-- A history stays linearizable when it is compared with a more abstract object. -/
theorem Linearizable.refine (hl : Linearizable spec v h) (hv : P v)
    (hstart : ∀ i task, (i, .start task) ∈ h → Q task)
    (keep : ∀ task v v' r, Q task → P v → spec task v v' r → P v' ∧ spec' task (abs v) (abs v') r) :
    Linearizable spec' (abs v) h := by
  obtain ⟨tr, s, hr, hseen⟩ := hl
  subst hseen
  have hrun := (Sound.run hr (sound_start hv) (fun i task hmem => hstart i task (mem_seen hmem)) keep).2
  exact ⟨tr, s.map abs, hrun, rfl⟩

end

end Yfs.AtomicObjects
