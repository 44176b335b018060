import Yfs.CallStackMachines

/-!
# Playing a schedule

A machine is deterministic once somebody says which thread moves and which call an idle
thread makes. A schedule is such a list of choices; playing it gives a run.
-/

namespace Yfs.Schedules
open LabelledRuns CallStackMachines

variable {S L E R V F W : Type}

inductive Choice (R : Type) where
  | call (i : ℕ) (r : R)
  | go (i : ℕ)

/-- A call of thread `i`, and `n` steps that it takes by itself. -/
def alone (i : ℕ) (r : R) (n : ℕ) : List (Choice R) := .call i r :: List.replicate n (.go i)

/-- The next step of a busy thread; `done` is what the application learns from a reply. -/
def advance (M : Machine S R V F W) (done : L → R → V → L) (s : S) (t : Thread L R V F W) :
    Option (S × Thread L R V F W × Label E R V F W) :=
  match t.busy with
  | none => none
  | some ⟨q, .request r, fs⟩ =>
    (M.exec r s).map fun x => (x.1, ⟨t.loc, some (.land q fs x.2)⟩, .ran r)
  | some ⟨q, .reply v, f :: fs⟩ =>
    (M.resume f v s).map fun x => (x.1, ⟨t.loc, some (.land q fs x.2)⟩, .resumed f v)
  | some ⟨q, .asleep w, fs⟩ =>
    (M.wake w s).map fun x => (x.1, ⟨t.loc, some (.land q fs x.2)⟩, .woke w)
  | some ⟨q, .reply v, []⟩ => some (s, ⟨done t.loc q v, none⟩, .ended q v)

/-- An idle thread makes a call, if the application allows it. -/
def start (allow : L → R → Option L) (r : R) (s : S) (t : Thread L R V F W) :
    Option (S × Thread L R V F W × Label E R V F W) :=
  match t.busy with
  | none => (allow t.loc r).map fun l => (s, ⟨l, some ⟨r, .request r, []⟩⟩, .begins r)
  | some _ => none

variable (M : Machine S R V F W) (allow : L → R → Option L) (done : L → R → V → L)

def choose (g : Config S L R V F W) :
    Choice R → Option (Config S L R V F W × (ℕ × Label E R V F W))
  | .call i r => do
    let t ← g.threads[i]?
    let (s, t', lab) ← start allow r g.shared t
    some (⟨s, g.threads.set i t'⟩, (i, lab))
  | .go i => do
    let t ← g.threads[i]?
    let (s, t', lab) ← advance M done g.shared t
    some (⟨s, g.threads.set i t'⟩, (i, lab))

/-- Play a schedule as long as every step passes the test `ok`. -/
def playIf (ok : Config S L R V F W → ℕ × Label E R V F W → Bool) :
    List (Choice R) → Config S L R V F W →
      Option (List (ℕ × Label E R V F W) × Config S L R V F W)
  | [], g => some ([], g)
  | c :: cs, g => do
    let (g', lab) ← choose M allow done g c
    if ok g lab then
      let (tr, g'') ← playIf ok cs g'
      some (lab :: tr, g'')
    else none

def play : List (Choice R) → Config S L R V F W →
    Option (List (ℕ × Label E R V F W) × Config S L R V F W) :=
  playIf M allow done fun _ _ => true

variable {M allow done} {A : App L E R V}

theorem step_advance {s s' : S} {t t' : Thread L R V F W}
    (hd : ∀ r v, A.ends t.loc r v (done t.loc r v)) {lab : Label E R V F W}
    (h : advance M done s t = some (s', t', lab)) : ThreadStep M A s t lab s' t' := by
  obtain ⟨l, busy⟩ := t
  rcases busy with - | ⟨q, k, fs⟩
  · cases h
  · cases k with
    | request r =>
      obtain ⟨⟨s₁, o⟩, hx, he⟩ := Option.map_eq_some_iff.mp h
      cases he
      exact .exec hx
    | asleep w =>
      obtain ⟨⟨s₁, o⟩, hx, he⟩ := Option.map_eq_some_iff.mp h
      cases he
      exact .wake hx
    | reply v =>
      cases fs with
      | nil =>
        cases h
        exact .ended (hd q v)
      | cons f fs =>
        obtain ⟨⟨s₁, o⟩, hx, he⟩ := Option.map_eq_some_iff.mp h
        cases he
        exact .resume hx

theorem step_start (ha : ∀ l r l', allow l r = some l' → A.begins l r l') {s s' : S} {r : R}
    {t t' : Thread L R V F W} {lab : Label E R V F W} (h : start allow r s t = some (s', t', lab)) :
    ThreadStep M A s t lab s' t' := by
  obtain ⟨l, busy⟩ := t
  cases busy with
  | some a => cases h
  | none =>
    obtain ⟨l', hl, he⟩ := Option.map_eq_some_iff.mp h
    cases he
    exact .begins (ha l r l' hl)

/-- Replacing the thread at a position is a step of the whole machine. -/
theorem step_set {g : Config S L R V F W} {i : ℕ} {s' : S} {t t' : Thread L R V F W}
    {lab : Label E R V F W} (hi : g.threads[i]? = some t)
    (h : ThreadStep M A g.shared t lab s' t') : Step M A g (i, lab) ⟨s', g.threads.set i t'⟩ := by
  obtain ⟨s, ts⟩ := g
  obtain ⟨hlt, rfl⟩ := List.getElem?_eq_some_iff.mp hi
  have hts : ts = ts.take i ++ ts[i] :: ts.drop (i + 1) := by simp
  have hlen : (ts.take i).length = i := List.length_take_of_le (Nat.le_of_lt hlt)
  have hset : ts.set i t' = ts.take i ++ t' :: ts.drop (i + 1) :=
    List.set_eq_take_append_cons_drop.trans (if_pos hlt)
  have hs := Step.mk (ts.take i) (ts.drop (i + 1)) h
  rwa [← hts, hlen, ← hset] at hs

theorem step_choose (ha : ∀ l r l', allow l r = some l' → A.begins l r l')
    (hd : ∀ l r v, A.ends l r v (done l r v)) {g g' : Config S L R V F W} {c : Choice R}
    {lab : ℕ × Label E R V F W} (h : choose M allow done g c = some (g', lab)) :
    Step M A g lab g' := by
  cases c with
  | call i r =>
    simp only [choose, Option.bind_eq_bind, Option.bind_eq_some_iff] at h
    obtain ⟨t, hi, ⟨s, t', lb⟩, hs, he⟩ := h
    cases he
    exact step_set hi (step_start ha hs)
  | go i =>
    simp only [choose, Option.bind_eq_bind, Option.bind_eq_some_iff] at h
    obtain ⟨t, hi, ⟨s, t', lb⟩, hs, he⟩ := h
    cases he
    exact step_set hi (step_advance (hd t.loc) hs)

/-- A schedule that can be played to its end is a run. -/
theorem run_playIf (ha : ∀ l r l', allow l r = some l' → A.begins l r l')
    (hd : ∀ l r v, A.ends l r v (done l r v))
    {ok : Config S L R V F W → ℕ × Label E R V F W → Bool} (cs : List (Choice R))
    {g g' : Config S L R V F W} {tr : List (ℕ × Label E R V F W)}
    (h : playIf M allow done ok cs g = some (tr, g')) :
    Run (fun a l b => Step M A a l b ∧ ok a l = true) g tr g' := by
  induction cs generalizing g tr with
  | nil =>
    cases h
    exact .nil
  | cons c cs ih =>
    simp only [playIf, Option.bind_eq_bind, Option.bind_eq_some_iff] at h
    obtain ⟨⟨g₁, lab⟩, hc, h⟩ := h
    dsimp only at h
    split_ifs at h with hok
    obtain ⟨⟨tr₁, g₂⟩, hp, he⟩ := Option.bind_eq_some_iff.mp h
    cases he
    exact (Run.single ⟨step_choose ha hd hc, hok⟩).append (ih hp)

theorem run_play (ha : ∀ l r l', allow l r = some l' → A.begins l r l')
    (hd : ∀ l r v, A.ends l r v (done l r v)) (cs : List (Choice R)) {g g' : Config S L R V F W}
    {tr : List (ℕ × Label E R V F W)} (h : play M allow done cs g = some (tr, g')) :
    Run (Step M A) g tr g' :=
  (run_playIf ha hd cs h).mono fun _ _ _ hs => hs.1

end Yfs.Schedules
