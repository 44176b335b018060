import Yfs.LabelledRuns
import Mathlib.Data.List.Forall2

/-!
# Monitors

Threads share data under one mutex and sleep on condition variables. What a thread does from taking
the mutex to giving it up is one section. A signal wakes at least one of the sleepers if there are
any, a broadcast wakes all of them, and a sleeper may also stir without either. A thread that was
woken competes for the mutex like any other.

A condition that counts is one whose sleepers wait for units of something: a section offers as many
units as it signals, and whoever is woken uses one. No wake-up of such a condition is lost.
-/

namespace Yfs.Monitors
open LabelledRuns

variable {S I U O R C : Type}

inductive Notice (C : Type) where
  | signal (c : C)
  | broadcast (c : C)
  deriving DecidableEq, Repr

/-- How a section gives up the mutex: the operation returns, it sleeps and goes on with `o` when it
is woken, or it goes on with `o` once it has the mutex again. -/
inductive Ended (O R C : Type) where
  | ret (r : R)
  | wait (c : C) (o : O)
  | yield (o : O)
  deriving DecidableEq, Repr

/-- The sections of the operations on the shared data. The first argument is what a section learns
from outside; a failed assertion is `none`. -/
structure Object (S I O R C : Type) where
  exec : I → O → S → Option (S × List (Notice C) × Ended O R C)

/-- A thread is outside with its own state, wants the mutex for an operation, sleeps, or was woken
and wants the mutex again. -/
inductive Thread (U O C : Type) where
  | out (u : U)
  | ready (u : U) (o : O)
  | asleep (u : U) (c : C) (o : O)
  | woken (u : U) (c : C) (o : O)
  deriving DecidableEq, Repr

/-- What the threads do outside: the operations they begin, how they take a result, and the moves
they make on their own. -/
structure Users (U O R C : Type) where
  begins : List (Thread U O C) → U → O → Prop
  back : U → R → U
  moves : List (Thread U O C) → U → U → Prop

structure Config (S U O C : Type) where
  shared : S
  threads : List (Thread U O C)

inductive Act (I U O R C : Type) where
  | began (o : O)
  | ran (x : I) (o : O) (e : Ended O R C)
  | moved (u u' : U)
  | stirred
  deriving DecidableEq, Repr

def Act.isStir : Act I U O R C → Bool
  | .stirred => true
  | _ => false

/-- The operation that a thread goes on with when it gets the mutex. -/
def Thread.next : Thread U O C → Option (U × O)
  | .ready u o | .woken u _ o => some (u, o)
  | .out _ | .asleep _ _ _ => none

/-- The state of a thread outside, and the operation it is in; who sleeps is left out. -/
def Thread.view : Thread U O C → U × Option O
  | .out u => (u, none)
  | .ready u o | .asleep u _ o | .woken u _ o => (u, some o)

def Config.views (g : Config S U O C) : List (U × Option O) := g.threads.map Thread.view

def landed (A : Users U O R C) (u : U) : Ended O R C → Thread U O C
  | .ret r => .out (A.back u r)
  | .wait c o => .asleep u c o
  | .yield o => .ready u o

/-- A thread is left alone, or woken from `c`. -/
inductive Rouse (c : C) : Thread U O C → Thread U O C → Prop where
  | alone (t : Thread U O C) : Rouse c t t
  | wakes (u : U) (o : O) : Rouse c (.asleep u c o) (.woken u c o)

section Counts
variable [DecidableEq C]

def Thread.sleepsOn (c : C) : Thread U O C → Bool
  | .asleep _ d _ => d = c
  | _ => false

def Thread.wokenFrom (c : C) : Thread U O C → Bool
  | .woken _ d _ => d = c
  | _ => false

def sleepers (c : C) (ts : List (Thread U O C)) : ℕ := ts.countP (Thread.sleepsOn c)

/-- The threads that were woken from `c` and have not had the mutex since. -/
def roused (c : C) (ts : List (Thread U O C)) : ℕ := ts.countP (Thread.wokenFrom c)

def Notify : Notice C → List (Thread U O C) → List (Thread U O C) → Prop
  | .signal c, ts, ts' =>
    List.Forall₂ (Rouse c) ts ts' ∧ (0 < sleepers c ts → sleepers c ts' < sleepers c ts)
  | .broadcast c, ts, ts' => List.Forall₂ (Rouse c) ts ts' ∧ sleepers c ts' = 0

inductive NotifyAll : List (Notice C) → List (Thread U O C) → List (Thread U O C) → Prop where
  | nil (ts : List (Thread U O C)) : NotifyAll [] ts ts
  | cons {n : Notice C} {ns : List (Notice C)} {ts ts' ts'' : List (Thread U O C)}
      (first : Notify n ts ts') (rest : NotifyAll ns ts' ts'') : NotifyAll (n :: ns) ts ts''

inductive Step (M : Object S I O R C) (A : Users U O R C) :
    Config S U O C → ℕ × Act I U O R C → Config S U O C → Prop where
  | begin {g : Config S U O C} {i : ℕ} {u : U} {o : O} (hi : g.threads[i]? = some (.out u))
      (hb : A.begins g.threads u o) :
      Step M A g (i, .began o) ⟨g.shared, g.threads.set i (.ready u o)⟩
  | run {g : Config S U O C} {i : ℕ} {t : Thread U O C} {x : I} {u : U} {o : O} {s : S}
      {ns : List (Notice C)} {e : Ended O R C} {ts : List (Thread U O C)}
      (hi : g.threads[i]? = some t) (ht : t.next = some (u, o))
      (hx : M.exec x o g.shared = some (s, ns, e)) (hn : NotifyAll ns g.threads ts) :
      Step M A g (i, .ran x o e) ⟨s, ts.set i (landed A u e)⟩
  | move {g : Config S U O C} {i : ℕ} {u u' : U} (hi : g.threads[i]? = some (.out u))
      (hm : A.moves g.threads u u') :
      Step M A g (i, .moved u u') ⟨g.shared, g.threads.set i (.out u')⟩
  | stir {g : Config S U O C} {i : ℕ} {u : U} {c : C} {o : O}
      (hi : g.threads[i]? = some (.asleep u c o)) :
      Step M A g (i, .stirred) ⟨g.shared, g.threads.set i (.woken u c o)⟩

end Counts

/-! ## Waking -/

def Thread.isAsleep : Thread U O C → Bool
  | .asleep _ _ _ => true
  | _ => false

theorem isAsleep_of_next {t : Thread U O C} {u : U} {o : O} (h : t.next = some (u, o)) :
    t.isAsleep = false := by
  cases t with
  | asleep => cases h
  | _ => rfl

theorem Rouse.eq_of_awake {c : C} {t t' : Thread U O C} (h : Rouse c t t')
    (ht : t.isAsleep = false) : t' = t := by
  cases h with
  | alone => rfl
  | wakes => cases ht

theorem getElem?_of_forall₂ {c : C} {ts ts' : List (Thread U O C)} {i : ℕ} {t : Thread U O C}
    (h : List.Forall₂ (Rouse c) ts ts') (hi : ts[i]? = some t) :
    ∃ t', ts'[i]? = some t' ∧ Rouse c t t' := by
  induction h generalizing i with
  | nil => cases hi
  | cons hd _ ih =>
    cases i with
    | zero =>
      cases hi
      exact ⟨_, rfl, hd⟩
    | succ i => exact ih hi

theorem asleep_of_forall₂ {c d : C} {ts ts' : List (Thread U O C)} {i : ℕ} {u : U} {o : O}
    (h : List.Forall₂ (Rouse c) ts ts') (hi : ts'[i]? = some (.asleep u d o)) :
    ts[i]? = some (.asleep u d o) := by
  induction h generalizing i with
  | nil => cases hi
  | cons hd _ ih =>
    cases i with
    | zero =>
      cases hi
      cases hd
      rfl
    | succ i => exact ih hi

section Counts
variable [DecidableEq C] {c d : C} {ts ts' : List (Thread U O C)} {ns : List (Notice C)} {i : ℕ}
  {t t' : Thread U O C}

theorem Rouse.counts (h : Rouse c t t') (d : C) :
    (t'.sleepsOn d).toNat ≤ (t.sleepsOn d).toNat ∧
      (t'.sleepsOn d).toNat + (t'.wokenFrom d).toNat =
        (t.sleepsOn d).toNat + (t.wokenFrom d).toNat := by
  cases h with
  | alone => exact ⟨Nat.le_refl _, rfl⟩
  | wakes u o => by_cases hd : c = d <;> simp [Thread.sleepsOn, Thread.wokenFrom, hd]

theorem countP_cons_toNat {α : Type} (p : α → Bool) (a : α) (l : List α) :
    (a :: l).countP p = l.countP p + (p a).toNat := by
  cases h : p a <;> simp [h]

theorem forall₂_counts (h : List.Forall₂ (Rouse c) ts ts') (d : C) :
    sleepers d ts' ≤ sleepers d ts ∧
      sleepers d ts' + roused d ts' = sleepers d ts + roused d ts := by
  induction h with
  | nil => exact ⟨Nat.le_refl _, rfl⟩
  | cons hd _ ih =>
    obtain ⟨h1, h2⟩ := hd.counts d
    obtain ⟨h3, h4⟩ := ih
    simp only [sleepers, roused, countP_cons_toNat] at h3 h4 ⊢
    omega

theorem Notify.forall₂ {n : Notice C} (h : Notify n ts ts') :
    ∃ c, List.Forall₂ (Rouse c) ts ts' := by
  cases n with
  | signal c => exact ⟨c, h.1⟩
  | broadcast c => exact ⟨c, h.1⟩

theorem NotifyAll.getElem? (h : NotifyAll ns ts ts') (hi : ts[i]? = some t)
    (ht : t.isAsleep = false) : ts'[i]? = some t := by
  induction h with
  | nil => exact hi
  | cons first _ ih =>
    obtain ⟨c, hc⟩ := first.forall₂
    obtain ⟨t', hi', hr⟩ := getElem?_of_forall₂ hc hi
    rw [hr.eq_of_awake ht] at hi'
    exact ih hi'

theorem NotifyAll.asleep {u : U} {o : O} (h : NotifyAll ns ts ts')
    (hi : ts'[i]? = some (.asleep u c o)) : ts[i]? = some (.asleep u c o) := by
  induction h with
  | nil => exact hi
  | cons first _ ih =>
    obtain ⟨d, hd⟩ := first.forall₂
    exact asleep_of_forall₂ hd (ih hi)

omit [DecidableEq C] in
theorem asleep_of_others {d : C} {u : U} {o : O} (h : List.Forall₂ (Rouse d) ts ts') (hne : d ≠ c)
    (hi : ts[i]? = some (.asleep u c o)) : ts'[i]? = some (.asleep u c o) := by
  obtain ⟨t', hi', hr⟩ := getElem?_of_forall₂ h hi
  cases hr with
  | alone => exact hi'
  | wakes => exact absurd rfl hne

/-- Who sleeps on `c` sleeps on as long as nobody notifies `c`. -/
theorem NotifyAll.sleeps {u : U} {o : O} (h : NotifyAll ns ts ts')
    (hi : ts[i]? = some (.asleep u c o)) (hsignal : .signal c ∉ ns) (hbroad : .broadcast c ∉ ns) :
    ts'[i]? = some (.asleep u c o) := by
  induction h with
  | nil => exact hi
  | @cons n ns ts ts₁ ts' first _ ih =>
    rw [List.mem_cons, not_or] at hsignal hbroad
    refine ih ?_ hsignal.2 hbroad.2
    cases n with
    | signal d => exact asleep_of_others first.1 (fun he => hsignal.1 (he ▸ rfl)) hi
    | broadcast d => exact asleep_of_others first.1 (fun he => hbroad.1 (he ▸ rfl)) hi

theorem NotifyAll.counts (h : NotifyAll ns ts ts') (d : C) :
    sleepers d ts' ≤ sleepers d ts ∧
      sleepers d ts' + roused d ts' = sleepers d ts + roused d ts := by
  induction h with
  | nil => exact ⟨Nat.le_refl _, rfl⟩
  | cons first _ ih =>
    obtain ⟨c, hc⟩ := first.forall₂
    have := forall₂_counts hc d
    omega

/-- Each signal wakes one more sleeper, for as long as there are any. -/
theorem NotifyAll.signals (h : NotifyAll ns ts ts') (c : C) (hs : 0 < sleepers c ts') :
    sleepers c ts' + ns.count (.signal c) ≤ sleepers c ts ∧ .broadcast c ∉ ns := by
  induction h with
  | nil => simp
  | @cons n ns ts ts₁ ts' first rest ih =>
    obtain ⟨h1, h2⟩ := ih hs
    have hle := rest.counts c
    cases n with
    | signal d =>
      have := forall₂_counts first.1 c
      by_cases hd : d = c
      · subst hd
        have hlt := first.2 (by omega)
        rw [List.count_cons_self, List.mem_cons, not_or]
        exact ⟨by omega, by simp, h2⟩
      · have hne : (Notice.signal d : Notice C) ≠ .signal c := by simpa using hd
        rw [List.count_cons_of_ne hne, List.mem_cons, not_or]
        exact ⟨by omega, by simp, h2⟩
    | broadcast d =>
      have := forall₂_counts first.1 c
      have hd : d ≠ c := by
        rintro rfl
        have := first.2
        omega
      rw [List.count_cons_of_ne (by simp), List.mem_cons, not_or]
      exact ⟨by omega, by simpa using Ne.symm hd, h2⟩

theorem countP_set_toNat {α : Type} (p : α → Bool) {l : List α} {a b : α} (hi : l[i]? = some a) :
    (l.set i b).countP p + (p a).toNat = l.countP p + (p b).toNat := by
  induction l generalizing i with
  | nil => cases hi
  | cons x l ih =>
    cases i with
    | zero =>
      cases hi
      simp only [List.set_cons_zero, countP_cons_toNat]
      omega
    | succ i =>
      have := ih hi
      simp only [List.set_cons_succ, countP_cons_toNat]
      omega

/-- What a list collects from its entries when one of them is replaced. -/
theorem filterMap_set {α β : Type} (f : α → Option β) {l : List α} {a b : α}
    (hi : l[i]? = some a) :
    ((l.set i b).filterMap f ++ (f a).toList).Perm (l.filterMap f ++ (f b).toList) := by
  induction l generalizing i with
  | nil => cases hi
  | cons x l ih =>
    have hcons : ∀ (y : α) (l : List α), (y :: l).filterMap f = (f y).toList ++ l.filterMap f := by
      intro y l
      cases h : f y <;> simp [h]
    cases i with
    | zero =>
      cases hi
      rw [List.set_cons_zero, hcons, hcons, List.append_assoc (f a).toList]
      exact List.perm_append_comm.trans (List.perm_append_comm.append_left _)
    | succ i =>
      rw [List.set_cons_succ, hcons, hcons, List.append_assoc, List.append_assoc]
      exact (ih hi).append_left _

/-! ## Sums over the threads -/

/-- A thread that wakes up gets heavier by at most one. -/
def Gentle (w : Thread U O C → ℕ) : Prop := ∀ u c o, w (.woken u c o) ≤ w (.asleep u c o) + 1

omit [DecidableEq C] in
theorem forall₂_sum {w : Thread U O C → ℕ} (hw : Gentle w) (h : List.Forall₂ (Rouse c) ts ts') :
    (ts'.map w).sum + ts'.countP Thread.isAsleep ≤ (ts.map w).sum + ts.countP Thread.isAsleep := by
  induction h with
  | nil => exact Nat.le_refl _
  | @cons t t' ts ts' hd _ ih =>
    have hle : w t' + t'.isAsleep.toNat ≤ w t + t.isAsleep.toNat := by
      cases hd with
      | alone => exact Nat.le_refl _
      | wakes u o => exact hw u c o
    simp only [List.map_cons, List.sum_cons, countP_cons_toNat]
    omega

/-- What the notices of a section can add to the weights. -/
theorem NotifyAll.sum_le {w : Thread U O C → ℕ} (hw : Gentle w) (h : NotifyAll ns ts ts') :
    (ts'.map w).sum ≤ (ts.map w).sum + ts.length := by
  have hsum : (ts'.map w).sum + ts'.countP Thread.isAsleep ≤
      (ts.map w).sum + ts.countP Thread.isAsleep := by
    induction h with
    | nil => exact Nat.le_refl _
    | cons first _ ih =>
      obtain ⟨c, hc⟩ := first.forall₂
      exact Nat.le_trans ih (forall₂_sum hw hc)
  have := List.countP_le_length (p := Thread.isAsleep) (l := ts)
  omega

/-! ## Steps without the sleepers -/

/-- The view of a thread after a section. -/
def landedView (A : Users U O R C) (u : U) : Ended O R C → U × Option O
  | .ret r => (A.back u r, none)
  | .wait _ o | .yield o => (u, some o)

/-- What a step does to the shared data and to the views of the threads. -/
inductive Seen (M : Object S I O R C) (A : Users U O R C) (g : Config S U O C) :
    ℕ × Act I U O R C → S → List (U × Option O) → Prop where
  | began {i : ℕ} {u : U} {o : O} (hi : g.views[i]? = some (u, none))
      (hb : A.begins g.threads u o) :
      Seen M A g (i, .began o) g.shared (g.views.set i (u, some o))
  | ran {i : ℕ} {x : I} {u : U} {o : O} {s : S} {ns : List (Notice C)} {e : Ended O R C}
      (hi : g.views[i]? = some (u, some o)) (hx : M.exec x o g.shared = some (s, ns, e)) :
      Seen M A g (i, .ran x o e) s (g.views.set i (landedView A u e))
  | moved {i : ℕ} {u u' : U} (hi : g.views[i]? = some (u, none))
      (hm : A.moves g.threads u u') :
      Seen M A g (i, .moved u u') g.shared (g.views.set i (u', none))
  | stirred {i : ℕ} : Seen M A g (i, .stirred) g.shared g.views

variable {M : Object S I O R C} {A : Users U O R C} {g g' : Config S U O C}
  {lab : ℕ × Act I U O R C}

omit [DecidableEq C] in
theorem Rouse.view {t t' : Thread U O C} (h : Rouse c t t') : t'.view = t.view := by
  cases h <;> rfl

omit [DecidableEq C] in
theorem forall₂_views (h : List.Forall₂ (Rouse c) ts ts') :
    ts'.map Thread.view = ts.map Thread.view := by
  induction h with
  | nil => rfl
  | cons hd _ ih => rw [List.map_cons, List.map_cons, hd.view, ih]

theorem NotifyAll.views (h : NotifyAll ns ts ts') :
    ts'.map Thread.view = ts.map Thread.view := by
  induction h with
  | nil => rfl
  | cons first _ ih =>
    obtain ⟨c, hc⟩ := first.forall₂
    rw [ih, forall₂_views hc]

omit [DecidableEq C] in
theorem views_getElem? {t : Thread U O C} (hi : g.threads[i]? = some t) :
    g.views[i]? = some t.view := by
  rw [Config.views, List.getElem?_map, hi, Option.map_some]

omit [DecidableEq C] in
theorem view_of_next {u : U} {o : O} (h : t.next = some (u, o)) : t.view = (u, some o) := by
  cases t with
  | out => cases h
  | asleep => cases h
  | _ =>
    cases h
    rfl

omit [DecidableEq C] in
theorem views_set (s : S) (ts : List (Thread U O C)) (t : Thread U O C) :
    (⟨s, ts.set i t⟩ : Config S U O C).views = (ts.map Thread.view).set i t.view := List.map_set

theorem set_of_getElem? {α : Type} {l : List α} {a : α} (hi : l[i]? = some a) :
    l.set i a = l := by
  obtain ⟨hlt, rfl⟩ := List.getElem?_eq_some_iff.mp hi
  exact List.set_getElem_self hlt

theorem Step.seen (hs : Step M A g lab g') : Seen M A g lab g'.shared g'.views := by
  cases hs with
  | begin hi hb =>
    rw [views_set]
    exact .began (views_getElem? hi) hb
  | @run i t x u o s ns e ts hi ht hx hn =>
    have hl : (landed A u e).view = landedView A u e := by cases e <;> rfl
    rw [views_set, hn.views, hl]
    exact .ran (by rw [views_getElem? hi, view_of_next ht]) hx
  | move hi hm =>
    rw [views_set]
    exact .moved (views_getElem? hi) hm
  | @stir i u c o hi =>
    have hv : g.views[i]? = some (u, some o) := views_getElem? hi
    have hset : g.views.set i (Thread.woken u c o).view = g.views := set_of_getElem? hv
    rw [views_set, ← Config.views, hset]
    exact .stirred

theorem Step.length_threads (hs : Step M A g lab g') :
    g'.threads.length = g.threads.length := by
  have hseen := hs.seen
  have hlen : ∀ g : Config S U O C, g.views.length = g.threads.length := fun g => List.length_map _
  rw [← hlen g, ← hlen g']
  generalize g'.shared = s, g'.views = vs at hseen
  cases hseen with
  | stirred => rfl
  | _ => exact List.length_set

/-- The other threads leave a thread that is awake alone. -/
theorem Step.awake (hs : Step M A g lab g') (hi : g.threads[i]? = some t)
    (ht : t.isAsleep = false) (hne : lab.1 ≠ i) : g'.threads[i]? = some t := by
  cases hs with
  | run _ _ _ hn => exact (List.getElem?_set_ne hne).trans (hn.getElem? hi ht)
  | _ => exact (List.getElem?_set_ne hne).trans hi

/-- A thread that sleeps has slept since its own last step. -/
theorem Step.asleep {u : U} {o : O} (hs : Step M A g lab g')
    (hi : g'.threads[i]? = some (.asleep u c o)) (hne : lab.1 ≠ i) :
    g.threads[i]? = some (.asleep u c o) := by
  cases hs with
  | run _ _ _ hn => exact hn.asleep ((List.getElem?_set_ne hne).symm.trans hi)
  | _ => exact (List.getElem?_set_ne hne).symm.trans hi

/-! ## Conditions that count -/

/-- An operation that goes on with `o` after a sleep on `c`. -/
def Waits (M : Object S I O R C) (c : C) (o : O) : Prop :=
  ∃ x o₀ s s' ns, M.exec x o₀ s = some (s', ns, .wait c o)

/-- Whoever sleeps on `c` finds nothing available, a section makes no more available than it
signals, and a thread that was woken uses one unit if there is one. -/
structure Counting (M : Object S I O R C) (c : C) (avail : S → ℕ) : Prop where
  sleeps : ∀ x o s s' ns o', M.exec x o s = some (s', ns, .wait c o') → avail s' = 0
  offers : ∀ x o s s' ns e, M.exec x o s = some (s', ns, e) → .broadcast c ∉ ns →
    avail s' ≤ avail s + ns.count (.signal c)
  uses : ∀ x o s s' ns e, M.exec x o s = some (s', ns, e) → Waits M c o → .broadcast c ∉ ns →
    avail s' ≠ 0 → avail s' + 1 ≤ avail s + ns.count (.signal c)

/-- A thread that sleeps or was woken goes on with an operation that waits. -/
def Thread.Tied (M : Object S I O R C) : Thread U O C → Prop
  | .asleep _ c o | .woken _ c o => Waits M c o
  | .out _ | .ready _ _ => True

/-- While a thread sleeps on `c`, there is a thread on its way for each unit available. -/
structure Served (M : Object S I O R C) (c : C) (avail : S → ℕ) (g : Config S U O C) : Prop where
  tied : ∀ t ∈ g.threads, t.Tied M
  enough : 0 < sleepers c g.threads → avail g.shared ≤ roused c g.threads

variable {avail : S → ℕ}

theorem forall_mem_set {α : Type} {P : α → Prop} {l : List α} {a : α} (h : ∀ b ∈ l, P b)
    (ha : P a) : ∀ b ∈ l.set i a, P b := by
  intro b hb
  rcases List.mem_or_eq_of_mem_set hb with hb | rfl
  · exact h b hb
  · exact ha

omit [DecidableEq C] in
theorem forall₂_tied (h : List.Forall₂ (Rouse c) ts ts') (ht : ∀ t ∈ ts, t.Tied M) :
    ∀ t ∈ ts', t.Tied M := by
  induction h with
  | nil => exact ht
  | cons hd _ ih =>
    rw [List.forall_mem_cons] at ht ⊢
    refine ⟨?_, ih ht.2⟩
    cases hd with
    | alone => exact ht.1
    | wakes => exact ht.1

theorem NotifyAll.tied (h : NotifyAll ns ts ts') (ht : ∀ t ∈ ts, t.Tied M) :
    ∀ t ∈ ts', t.Tied M := by
  induction h with
  | nil => exact ht
  | cons first _ ih =>
    obtain ⟨c, hc⟩ := first.forall₂
    exact ih (forall₂_tied hc ht)

theorem tied_step (ht : ∀ t ∈ g.threads, t.Tied M) (hs : Step M A g lab g') :
    ∀ t ∈ g'.threads, t.Tied M := by
  cases hs with
  | begin => exact forall_mem_set ht trivial
  | @run i t x u o s ns e ts hi htn hx hn =>
    refine forall_mem_set (hn.tied ht) ?_
    cases e with
    | ret r => trivial
    | yield o' => trivial
    | wait c o' => exact ⟨x, o, g.shared, s, ns, hx⟩
  | move => exact forall_mem_set ht trivial
  | @stir i u c o hi =>
    apply forall_mem_set ht
    have := ht _ (List.mem_of_getElem? hi)
    exact this

theorem tied_run {tr : List (ℕ × Act I U O R C)} (ht : ∀ t ∈ g.threads, t.Tied M)
    (hr : Run (Step M A) g tr g') : ∀ t ∈ g'.threads, t.Tied M :=
  hr.invariant (I := fun g : Config S U O C => ∀ t ∈ g.threads, t.Tied M) ht
    fun _ _ _ h hs => tied_step h hs

/-- Whoever sleeps on `c` is in an operation that waits on it. -/
theorem sleepers_le_views {P : U × Option O → Bool} (ht : ∀ t ∈ g.threads, t.Tied M)
    (hP : ∀ u o, Waits M c o → P (u, some o) = true) :
    sleepers c g.threads ≤ g.views.countP P := by
  rw [sleepers, Config.views, List.countP_map]
  refine List.countP_mono_left fun t hm hs => ?_
  have htied := ht t hm
  cases t with
  | asleep u d o =>
    obtain rfl : d = c := by simpa [Thread.sleepsOn] using hs
    exact hP u o htied
  | _ => cases hs

/-- What a section does to the threads that sleep on `c` and to those woken from it. -/
theorem run_counts {u : U} {o : O} {e : Ended O R C} (hi : ts[i]? = some t)
    (ht : t.next = some (u, o)) (hn : NotifyAll ns ts ts') (c : C) :
    sleepers c (ts'.set i (landed A u e)) = sleepers c ts' + ((landed A u e).sleepsOn c).toNat ∧
      roused c (ts'.set i (landed A u e)) + (t.wokenFrom c).toNat = roused c ts' := by
  have hi' := hn.getElem? hi (isAsleep_of_next ht)
  have h1 := countP_set_toNat (Thread.sleepsOn c) (b := landed A u e) hi'
  have h2 := countP_set_toNat (Thread.wokenFrom c) (b := landed A u e) hi'
  have h3 : t.sleepsOn c = false := by
    cases t with
    | asleep => cases ht
    | _ => rfl
  have h4 : (landed A u e).wokenFrom c = false := by cases e <;> rfl
  rw [h3] at h1
  rw [h4] at h2
  exact ⟨h1, h2⟩

theorem sleepers_set (hi : ts[i]? = some t)
    (h : (t'.sleepsOn c).toNat ≤ (t.sleepsOn c).toNat) :
    sleepers c (ts.set i t') ≤ sleepers c ts := by
  have := countP_set_toNat (Thread.sleepsOn c) (b := t') hi
  simp only [sleepers]
  omega

/-- A thread that does not fall asleep on `c`, and was not woken from it, leaves enough. -/
theorem enough_set {n : ℕ} (h : 0 < sleepers c ts → n ≤ roused c ts) (hi : ts[i]? = some t)
    (hsleep : (t'.sleepsOn c).toNat ≤ (t.sleepsOn c).toNat)
    (hwoken : (t.wokenFrom c).toNat ≤ (t'.wokenFrom c).toNat) :
    0 < sleepers c (ts.set i t') → n ≤ roused c (ts.set i t') := by
  intro hpos
  have h1 := sleepers_set hi hsleep
  have h2 := countP_set_toNat (Thread.wokenFrom c) (b := t') hi
  have := h (Nat.lt_of_lt_of_le hpos h1)
  simp only [roused] at this ⊢
  omega

theorem sleepsOn_landed {u : U} {e : Ended O R C} (h : (landed A u e).sleepsOn c = true) :
    ∃ o, e = .wait c o := by
  cases e with
  | ret => cases h
  | yield => cases h
  | wait d o =>
    obtain rfl : d = c := by simpa [landed, Thread.sleepsOn] using h
    exact ⟨o, rfl⟩

/-- A sleeper was there before, or the step has gone to sleep. -/
theorem sleepers_step (hs : Step M A g lab g') (hpos : 0 < sleepers c g'.threads) :
    0 < sleepers c g.threads ∨
      ∃ x o o' s ns, M.exec x o g.shared = some (s, ns, .wait c o') := by
  cases hs with
  | begin hi => exact .inl (Nat.lt_of_lt_of_le hpos (sleepers_set hi (Nat.zero_le _)))
  | move hi => exact .inl (Nat.lt_of_lt_of_le hpos (sleepers_set hi (Nat.zero_le _)))
  | stir hi => exact .inl (Nat.lt_of_lt_of_le hpos (sleepers_set hi (Nat.zero_le _)))
  | @run i t x u o s ns e ts hi ht hx hn =>
    obtain ⟨h1, -⟩ := run_counts (A := A) (e := e) hi ht hn c
    by_cases hl : (landed A u e).sleepsOn c = true
    · obtain ⟨o', rfl⟩ := sleepsOn_landed hl
      exact .inr ⟨x, o, o', s, ns, hx⟩
    · have := (hn.counts c).1
      simp only [hl, Bool.toNat_false] at h1
      left
      simp only at hpos
      omega

theorem Served.step (hc : Counting M c avail) (h : Served M c avail g)
    (hs : Step M A g lab g') : Served M c avail g' := by
  refine ⟨tied_step h.tied hs, ?_⟩
  cases hs with
  | begin hi => exact enough_set h.enough hi (Nat.le_refl _) (Nat.le_refl _)
  | move hi => exact enough_set h.enough hi (Nat.le_refl _) (Nat.le_refl _)
  | stir hi => exact enough_set h.enough hi (Nat.zero_le _) (Nat.zero_le _)
  | @run i t x u o s ns e ts hi ht hx hn =>
    intro hpos
    obtain ⟨h1, h2⟩ := run_counts (A := A) (e := e) hi ht hn c
    simp only at hpos ⊢
    by_cases hw : ∃ o', e = .wait c o'
    · -- the section itself has found nothing
      obtain ⟨o', rfl⟩ := hw
      have := hc.sleeps x o g.shared s ns o' hx
      omega
    have hl : (landed A u e).sleepsOn c = false := by
      cases h : (landed A u e).sleepsOn c with
      | false => rfl
      | true => exact absurd (sleepsOn_landed h) hw
    rw [hl, Bool.toNat_false] at h1
    obtain ⟨h3, h4⟩ := hn.signals c (by omega)
    have h5 := hn.counts c
    have h6 := h.enough (by omega)
    cases hwk : t.wokenFrom c with
    | false =>
      have := hc.offers x o g.shared s ns e hx h4
      rw [hwk] at h2
      simp only [Bool.toNat_false] at h2
      omega
    | true =>
      have hwait : Waits M c o := by
        have htied := h.tied t (List.mem_of_getElem? hi)
        cases t with
        | woken u' d o' =>
          cases ht
          obtain rfl : d = c := by simpa [Thread.wokenFrom] using hwk
          exact htied
        | _ => cases hwk
      have := hc.uses x o g.shared s ns e hx hwait h4
      rw [hwk] at h2
      simp only [Bool.toNat_true] at h2
      omega

theorem sleepers_pos {u : U} {o : O} (hi : ts[i]? = some (.asleep u c o)) :
    0 < sleepers c ts :=
  List.countP_pos_iff.mpr ⟨_, List.mem_of_getElem? hi, by simp [Thread.sleepsOn]⟩

theorem Served.init {s : S} (h : ∀ t ∈ ts, ∃ u, t = .out u) :
    Served M c avail (⟨s, ts⟩ : Config S U O C) := by
  constructor
  · intro t ht
    obtain ⟨u, rfl⟩ := h t ht
    trivial
  · intro hpos
    obtain ⟨t, ht, hs⟩ := List.countP_pos_iff.mp hpos
    obtain ⟨u, rfl⟩ := h t ht
    cases hs

/-- No wake-up of a condition that counts is lost. -/
theorem Served.run {tr : List (ℕ × Act I U O R C)} (hc : Counting M c avail)
    (h : Served M c avail g) (hr : Run (Step M A) g tr g') : Served M c avail g' :=
  hr.invariant h fun _ _ _ hb hs => hb.step hc hs

/-- When no thread is on its way, whoever sleeps has nothing to go on with. -/
theorem Served.rest (h : Served M c avail g) (hrest : ∀ t ∈ g.threads, t.next = none)
    (hs : 0 < sleepers c g.threads) : avail g.shared = 0 := by
  have hzero : roused c g.threads = 0 := by
    apply List.countP_eq_zero.mpr
    intro t ht
    have := hrest t ht
    cases t with
    | woken => cases this
    | _ => simp [Thread.wokenFrom]
  have := h.enough hs
  omega

/-! ## Conditions with one sleeper -/

/-- A thread sleeps on `c` only as long as `Q` holds, if no other thread does and every section that
ends `Q` notifies `c`. -/
theorem sleeps_while_step {Q : S → Prop} (h : 0 < sleepers c g.threads → Q g.shared)
    (hs : Step M A g lab g') (hone : sleepers c g.threads ≤ 1)
    (hsleeps : ∀ x o s ns o', M.exec x o g.shared = some (s, ns, .wait c o') → Q s)
    (htells : ∀ x o s ns e, M.exec x o g.shared = some (s, ns, e) → 0 < sleepers c g.threads →
      Q g.shared → Q s ∨ .signal c ∈ ns ∨ .broadcast c ∈ ns) :
    0 < sleepers c g'.threads → Q g'.shared := by
  intro hpos
  cases hs with
  | begin hi => exact h (Nat.lt_of_lt_of_le hpos (sleepers_set hi (Nat.zero_le _)))
  | move hi => exact h (Nat.lt_of_lt_of_le hpos (sleepers_set hi (Nat.zero_le _)))
  | stir hi => exact h (Nat.lt_of_lt_of_le hpos (sleepers_set hi (Nat.zero_le _)))
  | @run i t x u o s ns e ts hi ht hx hn =>
    obtain ⟨h1, -⟩ := run_counts (A := A) (e := e) hi ht hn c
    simp only at hpos ⊢
    by_cases hl : (landed A u e).sleepsOn c = true
    · obtain ⟨o', rfl⟩ := sleepsOn_landed hl
      exact hsleeps x o s ns o' hx
    · rw [Bool.not_eq_true] at hl
      rw [hl, Bool.toNat_false] at h1
      obtain ⟨h2, hbroad⟩ := hn.signals c (by omega)
      have hslept : 0 < sleepers c g.threads := by omega
      rcases htells x o s ns e hx hslept (h hslept) with hq | hsignal | hbroad'
      · exact hq
      · have := List.count_pos_iff.mpr hsignal
        omega
      · exact absurd hbroad' hbroad

/-! ## Playing a schedule -/

/-- The thread as a wake-up from `c` leaves it. -/
def Thread.wake (c : C) : Thread U O C → Thread U O C
  | .asleep u d o => if d = c then .woken u d o else .asleep u d o
  | t => t

def wakeFirst (c : C) : List (Thread U O C) → List (Thread U O C)
  | [] => []
  | t :: ts => if t.sleepsOn c then t.wake c :: ts else t :: wakeFirst c ts

/-- One way to follow a notice: the first sleeper is the one that a signal wakes. -/
def rouse : Notice C → List (Thread U O C) → List (Thread U O C)
  | .signal c, ts => wakeFirst c ts
  | .broadcast c, ts => ts.map (Thread.wake c)

def rouseAll : List (Notice C) → List (Thread U O C) → List (Thread U O C)
  | [], ts => ts
  | n :: ns, ts => rouseAll ns (rouse n ts)

theorem rouse_wake (c : C) (t : Thread U O C) : Rouse c t (t.wake c) := by
  cases t with
  | asleep u d o =>
    by_cases h : d = c
    · subst h
      rw [Thread.wake, if_pos rfl]
      exact .wakes u o
    · rw [Thread.wake, if_neg h]
      exact .alone _
  | _ => exact .alone _

theorem sleepsOn_wake (c : C) (t : Thread U O C) : (t.wake c).sleepsOn c = false := by
  cases t with
  | asleep u d o => by_cases h : d = c <;> simp [Thread.wake, Thread.sleepsOn, h]
  | _ => rfl

theorem notify_wakeFirst (c : C) (ts : List (Thread U O C)) :
    List.Forall₂ (Rouse c) ts (wakeFirst c ts) ∧
      (0 < sleepers c ts → sleepers c (wakeFirst c ts) < sleepers c ts) := by
  induction ts with
  | nil => exact ⟨.nil, fun h => h⟩
  | cons t ts ih =>
    by_cases h : t.sleepsOn c = true
    · rw [wakeFirst, if_pos h]
      refine ⟨.cons (rouse_wake c t) (List.forall₂_same.mpr fun t _ => .alone t), fun _ => ?_⟩
      simp only [sleepers, countP_cons_toNat, sleepsOn_wake, h]
      exact Nat.lt_succ_self _
    · rw [wakeFirst, if_neg h]
      refine ⟨.cons (.alone t) ih.1, fun hpos => ?_⟩
      have := ih.2
      simp only [sleepers, countP_cons_toNat, h, Bool.toNat_false] at hpos this ⊢
      omega

theorem notify_rouse (n : Notice C) (ts : List (Thread U O C)) : Notify n ts (rouse n ts) := by
  cases n with
  | signal c => exact notify_wakeFirst c ts
  | broadcast c =>
    refine ⟨List.forall₂_map_right_iff.mpr ?_, ?_⟩
    · exact List.forall₂_same.mpr fun t _ => rouse_wake c t
    · apply List.countP_eq_zero.mpr
      intro t ht
      obtain ⟨t₀, -, rfl⟩ := List.mem_map.mp ht
      simp [sleepsOn_wake]

theorem notifyAll_rouseAll (ns : List (Notice C)) (ts : List (Thread U O C)) :
    NotifyAll ns ts (rouseAll ns ts) := by
  induction ns generalizing ts with
  | nil => exact .nil ts
  | cons n ns ih => exact .cons (notify_rouse n ts) (ih _)

inductive Choice (I U O : Type) where
  | begin (i : ℕ) (o : O)
  | run (i : ℕ) (x : I)
  | move (i : ℕ) (u : U)
  | stir (i : ℕ)

variable (M A)
variable [∀ ts u o, Decidable (A.begins ts u o)] [∀ ts u u', Decidable (A.moves ts u u')]

def choose (g : Config S U O C) :
    Choice I U O → Option ((ℕ × Act I U O R C) × Config S U O C)
  | .begin i o =>
    match g.threads[i]? with
    | some (.out u) =>
      if A.begins g.threads u o then
        some ((i, .began o), ⟨g.shared, g.threads.set i (.ready u o)⟩)
      else none
    | _ => none
  | .run i x =>
    (g.threads[i]?.bind Thread.next).bind fun (u, o) =>
      (M.exec x o g.shared).map fun (s, ns, e) =>
        ((i, .ran x o e), ⟨s, (rouseAll ns g.threads).set i (landed A u e)⟩)
  | .move i u' =>
    match g.threads[i]? with
    | some (.out u) =>
      if A.moves g.threads u u' then
        some ((i, .moved u u'), ⟨g.shared, g.threads.set i (.out u')⟩)
      else none
    | _ => none
  | .stir i =>
    match g.threads[i]? with
    | some (.asleep u c o) => some ((i, .stirred), ⟨g.shared, g.threads.set i (.woken u c o)⟩)
    | _ => none

def play : List (Choice I U O) → Config S U O C →
    Option (List (ℕ × Act I U O R C) × Config S U O C)
  | [], g => some ([], g)
  | c :: cs, g =>
    (choose M A g c).bind fun (lab, g') => (play cs g').map fun (tr, g'') => (lab :: tr, g'')

variable {M A}

theorem step_choose {c : Choice I U O} (h : choose M A g c = some (lab, g')) :
    Step M A g lab g' := by
  cases c with
  | begin i o =>
    simp only [choose] at h
    split at h
    case h_1 u hi =>
      split_ifs at h with hb
      cases h
      exact .begin hi hb
    case h_2 => cases h
  | run i x =>
    simp only [choose, Option.bind_eq_some_iff, Option.map_eq_some_iff] at h
    obtain ⟨⟨u, o⟩, ⟨t, hi, ht⟩, ⟨s, ns, e⟩, hx, h⟩ := h
    cases h
    exact .run hi ht hx (notifyAll_rouseAll ns g.threads)
  | move i u' =>
    simp only [choose] at h
    split at h
    case h_1 u hi =>
      split_ifs at h with hm
      cases h
      exact .move hi hm
    case h_2 => cases h
  | stir i =>
    simp only [choose] at h
    split at h
    case h_1 u c o hi =>
      cases h
      exact .stir hi
    case h_2 => cases h

theorem run_play {cs : List (Choice I U O)} {tr : List (ℕ × Act I U O R C)}
    (h : play M A cs g = some (tr, g')) : Run (Step M A) g tr g' := by
  induction cs generalizing g tr with
  | nil =>
    cases h
    exact .nil
  | cons c cs ih =>
    simp only [play, Option.bind_eq_some_iff, Option.map_eq_some_iff] at h
    obtain ⟨⟨lab, g₁⟩, hc, ⟨tr₁, g₂⟩, hp, h⟩ := h
    cases h
    exact (Run.single (step_choose hc)).append (ih hp)

end Counts

end Yfs.Monitors
