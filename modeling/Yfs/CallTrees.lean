import Mathlib.Data.List.Basic

/-!
# Programs as trees of calls

A program makes a call and goes on with whatever answer it gets; it ends with a result or
with a fault. Programs are reasoned about with a rule for each node: what must hold when a
call is made, what an answer may tell, and what may happen to the rest of the world in the
meantime.
-/

namespace Yfs.CallTrees

inductive Prog (Q A ε α : Type) where
  | ret (a : α)
  | fault (e : ε)
  | call (q : Q) (k : A → Prog Q A ε α)

variable {Q A ε α β σ : Type}

namespace Prog

def bind : Prog Q A ε α → (α → Prog Q A ε β) → Prog Q A ε β
  | ret a, f => f a
  | fault e, _ => fault e
  | call q k, f => call q fun a => bind (k a) f

instance : Monad (Prog Q A ε) where
  pure := ret
  bind := bind

@[simp] theorem pure_eq (a : α) : (pure a : Prog Q A ε α) = ret a := rfl

@[simp] theorem ret_bind (a : α) (f : α → Prog Q A ε β) : ret a >>= f = f a := rfl

@[simp] theorem fault_bind (e : ε) (f : α → Prog Q A ε β) : fault e >>= f = fault e := rfl

@[simp] theorem call_bind (q : Q) (k : A → Prog Q A ε α) (f : α → Prog Q A ε β) :
    call q k >>= f = call q fun a => k a >>= f := rfl

end Prog

/-! ## Safety

`rely s s'` says that others may take the world from `s` to `s'`, `pre s q` that call `q` may
be made in `s`, and `post s q a s'` that it may be answered with `a`, leaving `s'`. -/

section
variable (rely : σ → σ → Prop) (pre : σ → Q → Prop) (post : σ → Q → A → σ → Prop)
  (crash : ε → Prop)

/-- Every call is allowed when it is made, only the faults `crash` happen, and the result
satisfies `Φ`. -/
def Safe (Φ : σ → α → Prop) : Prog Q A ε α → σ → Prop
  | .ret a, s => ∀ s', rely s s' → Φ s' a
  | .fault e, _ => crash e
  | .call q k, s => ∀ s', rely s s' → pre s' q ∧ ∀ a s'', post s' q a s'' → Safe Φ (k a) s''

variable {rely pre post crash} {Φ Ψ : σ → α → Prop} {s s' : σ}

/-- A program does not mind what others may do. -/
theorem Safe.stable (htrans : ∀ a b c, rely a b → rely b c → rely a c) {p : Prog Q A ε α}
    (h : Safe rely pre post crash Φ p s) (hr : rely s s') : Safe rely pre post crash Φ p s' := by
  cases p with
  | ret a => exact fun s'' h'' => h s'' (htrans _ _ _ hr h'')
  | fault e => exact h
  | call q k => exact fun s'' h'' => h s'' (htrans _ _ _ hr h'')

theorem Safe.mono {p : Prog Q A ε α} (h : Safe rely pre post crash Φ p s)
    (hΦ : ∀ s a, Φ s a → Ψ s a) : Safe rely pre post crash Ψ p s := by
  induction p generalizing s with
  | ret a => exact fun s' hs => hΦ s' a (h s' hs)
  | fault e => exact h
  | call q k ih => exact fun s' hs => ⟨(h s' hs).1, fun a s'' ha => ih a ((h s' hs).2 a s'' ha)⟩

/-- Sequencing. -/
theorem Safe.bind {Θ : σ → β → Prop} {p : Prog Q A ε α} {f : α → Prog Q A ε β}
    (hrefl : ∀ s, rely s s) (h : Safe rely pre post crash Φ p s)
    (hf : ∀ s a, Φ s a → Safe rely pre post crash Θ (f a) s) :
    Safe rely pre post crash Θ (p >>= f) s := by
  induction p generalizing s with
  | ret a => exact hf s a (h s (hrefl s))
  | fault e => exact h
  | call q k ih => exact fun s' hs => ⟨(h s' hs).1, fun a s'' ha => ih a ((h s' hs).2 a s'' ha)⟩

/-- What every answer and everybody else preserves is preserved by a program. -/
theorem Safe.keeps {G : σ → Prop} {p : Prog Q A ε α} (h : Safe rely pre post crash Φ p s)
    (hrely : ∀ s s', rely s s' → G s → G s')
    (hpost : ∀ s q a s', post s q a s' → G s → G s') (hG : G s) :
    Safe rely pre post crash (fun s a => Φ s a ∧ G s) p s := by
  induction p generalizing s with
  | ret a => exact fun s' hs => ⟨h s' hs, hrely s s' hs hG⟩
  | fault e => exact h
  | call q k ih =>
    exact fun s' hs => ⟨(h s' hs).1, fun a s'' ha =>
      ih a ((h s' hs).2 a s'' ha) (hpost s' q a s'' ha (hrely s s' hs hG))⟩

end

/-! ## Outcomes -/

/-- How a program may end when nobody else interferes. -/
inductive Ends (post : σ → Q → A → σ → Prop) : Prog Q A ε α → σ → Except ε α → σ → Prop where
  | ret (a : α) (s : σ) : Ends post (.ret a) s (.ok a) s
  | fault (e : ε) (s : σ) : Ends post (.fault e) s (.error e) s
  | call {q : Q} {k : A → Prog Q A ε α} {a : A} {s s' s'' : σ} {x : Except ε α}
      (answer : post s q a s') (rest : Ends post (k a) s' x s'') : Ends post (.call q k) s x s''

/-- A program that ends safely satisfies its postcondition. -/
theorem Safe.ends {rely : σ → σ → Prop} {pre : σ → Q → Prop} {post : σ → Q → A → σ → Prop}
    {Φ : σ → α → Prop} {p : Prog Q A ε α} {s s' : σ} {x : Except ε α} (hrefl : ∀ s, rely s s)
    (h : Safe rely pre post (fun _ => False) Φ p s) (he : Ends post p s x s') :
    ∃ a, x = .ok a ∧ Φ s' a := by
  induction he with
  | ret a s => exact ⟨a, rfl, h s (hrefl s)⟩
  | fault e s => exact h.elim
  | call answer _ ih => exact ih ((h _ (hrefl _)).2 _ _ answer)

/-- A program in sequence after one that does not fault. -/
theorem Ends.bind {post : σ → Q → A → σ → Prop} {p : Prog Q A ε α} {f : α → Prog Q A ε β}
    {s s'' : σ} {x : Except ε β} {Φ : α → σ → Prop} (he : Ends post (p >>= f) s x s'')
    (hp : ∀ y s', Ends post p s y s' → ∃ a, y = .ok a ∧ Φ a s') :
    ∃ a s', Φ a s' ∧ Ends post (f a) s' x s'' := by
  induction p generalizing s with
  | ret a =>
    obtain ⟨b, hb, hΦ⟩ := hp _ _ (.ret a s)
    cases hb
    exact ⟨a, s, hΦ, he⟩
  | fault e =>
    obtain ⟨b, hb, -⟩ := hp _ _ (.fault e s)
    cases hb
  | call q k ih =>
    cases he with
    | call answer rest => exact ih _ rest fun y s' hy => hp y s' (.call answer hy)

/-- A program in sequence after one that faults is not reached. -/
theorem Ends.bind_fault {post : σ → Q → A → σ → Prop} {p : Prog Q A ε α} {f : α → Prog Q A ε β}
    {s s'' : σ} {x : Except ε β} {Φ : ε → σ → Prop} (he : Ends post (p >>= f) s x s'')
    (hp : ∀ y s', Ends post p s y s' → ∃ e, y = .error e ∧ Φ e s') :
    ∃ e, x = .error e ∧ Φ e s'' := by
  induction p generalizing s with
  | ret a =>
    obtain ⟨e, hy, -⟩ := hp _ _ (.ret a s)
    cases hy
  | fault e =>
    obtain ⟨_, hy, hΦ⟩ := hp _ _ (.fault e s)
    cases hy
    cases he
    exact ⟨e, rfl, hΦ⟩
  | call q k ih =>
    cases he with
    | call answer rest => exact ih _ rest fun y s' hy => hp y s' (.call answer hy)

/-- A program whose result is only renamed. -/
theorem Ends.of_map {post : σ → Q → A → σ → Prop} {p : Prog Q A ε α} {f : α → β} {s s' : σ}
    {x : Except ε β} (he : Ends post (p >>= fun a => .ret (f a)) s x s') :
    ∃ y, Ends post p s y s' ∧ x = y.map f := by
  induction p generalizing s with
  | ret a =>
    cases he
    exact ⟨.ok a, .ret a _, rfl⟩
  | fault e =>
    cases he
    exact ⟨.error e, .fault e _, rfl⟩
  | call q k ih =>
    cases he with
    | call answer rest =>
      obtain ⟨y, hy, hx⟩ := ih _ rest
      exact ⟨y, .call answer hy, hx⟩

/-! ## Triples

The same for programs that carry a state `ρ` of their own. -/

section
variable {ρ : Type} (rely : σ → σ → Prop) (pre : σ → Q → Prop) (post : σ → Q → A → σ → Prop)
  (crash : ε → Prop)

/-- Started where `P` holds, the program is safe and ends where `R` holds of its result. -/
def Triple (P : σ → ρ → Prop) (p : StateT ρ (Prog Q A ε) α) (R : α → σ → ρ → Prop) : Prop :=
  ∀ s h, P s h → Safe rely pre post crash (fun s' x => R x.1 s' x.2) (p.run h) s

variable {rely pre post crash} {P P' : σ → ρ → Prop} {p : StateT ρ (Prog Q A ε) α}
  {R R' : α → σ → ρ → Prop}

theorem Triple.bind {f : α → StateT ρ (Prog Q A ε) β} {T : β → σ → ρ → Prop}
    (hrefl : ∀ s, rely s s) (hp : Triple rely pre post crash P p R)
    (hf : ∀ a, Triple rely pre post crash (R a) (f a) T) :
    Triple rely pre post crash P (p >>= f) T := by
  intro s h hP
  rw [StateT.run_bind]
  exact (hp s h hP).bind hrefl fun s' x hx => hf x.1 s' x.2 hx

theorem Triple.weaken (hp : Triple rely pre post crash P p R) (hP : ∀ s h, P' s h → P s h)
    (hR : ∀ a s h, R a s h → R' a s h) : Triple rely pre post crash P' p R' :=
  fun s h hs => (hp s h (hP s h hs)).mono fun s' x hx => hR x.1 s' x.2 hx

/-- A fact that does not depend on the state may be assumed. -/
theorem Triple.assume {φ : Prop} (h : φ → Triple rely pre post crash P p R) :
    Triple rely pre post crash (fun s r => φ ∧ P s r) p R :=
  fun s r hs => h hs.1 s r hs.2

theorem Triple.exists {ι : Type} {P : ι → σ → ρ → Prop}
    (h : ∀ i, Triple rely pre post crash (P i) p R) :
    Triple rely pre post crash (fun s r => ∃ i, P i s r) p R :=
  fun s r ⟨i, hs⟩ => h i s r hs

theorem Triple.keeps {G : σ → Prop} (hp : Triple rely pre post crash P p R)
    (hrely : ∀ s s', rely s s' → G s → G s')
    (hpost : ∀ s q a s', post s q a s' → G s → G s') :
    Triple rely pre post crash (fun s r => P s r ∧ G s) p (fun a s r => R a s r ∧ G s) :=
  fun s h ⟨hP, hG⟩ => (hp s h hP).keeps hrely hpost hG

theorem Triple.pure {a : α} (h : ∀ s s' r, P s r → rely s s' → R a s' r) :
    Triple rely pre post crash P (pure a) R :=
  fun s r hs s' hr => h s s' r hs hr

end

/-! ## Running

A program whose calls are served one after the other by a function of the world. -/

section
variable (serve : Q → σ → σ × A)

def run : Prog Q A ε α → σ → Except ε (α × σ)
  | .ret a, s => .ok (a, s)
  | .fault e, _ => .error e
  | .call q k, s => run (k (serve q s).2) (serve q s).1

/-- Running one program after the other. -/
theorem run_bind (p : Prog Q A ε α) (f : α → Prog Q A ε β) (s : σ) :
    run serve (p >>= f) s = (run serve p s).bind fun r => run serve (f r.1) r.2 := by
  induction p generalizing s with
  | ret a => rfl
  | fault e => rfl
  | call q k ih => exact ih (serve q s).2 (serve q s).1

/-- How a call is answered. -/
def Served (s : σ) (q : Q) (a : A) (s' : σ) : Prop := serve q s = (s', a)

/-- A safe program returns, and its result satisfies the postcondition. -/
theorem Safe.run {pre : σ → Q → Prop} {Φ : σ → α → Prop} {p : Prog Q A ε α} {s : σ}
    (h : Safe Eq pre (Served serve) (fun _ => False) Φ p s) :
    ∃ a s', CallTrees.run serve p s = .ok (a, s') ∧ Φ s' a := by
  induction p generalizing s with
  | ret a => exact ⟨a, s, rfl, h s rfl⟩
  | fault e => exact h.elim
  | call q k ih => exact ih (serve q s).2 ((h s rfl).2 _ _ rfl)

end

/-! ## Feeding answers

A program alone, its answers given in advance: the calls that it makes, and how it ends if
the answers suffice. -/

def feed : Prog Q A ε α → List A → List Q × Option (Except ε α)
  | .ret a, _ => ([], some (.ok a))
  | .fault e, _ => ([], some (.error e))
  | .call q _, [] => ([q], none)
  | .call q k, a :: as => (q :: (feed (k a) as).1, (feed (k a) as).2)

/-- What has been called and answered so far. -/
structure Log (Q A : Type) where
  calls : List Q
  answers : List A

def Log.next (s : Log Q A) (q : Q) (a : A) (s' : Log Q A) : Prop :=
  s' = ⟨s.calls ++ [q], s.answers ++ [a]⟩

/-- Safety of a program alone, with its log as the world. -/
abbrev Alone (pre : Log Q A → Q → Prop) (Φ : Log Q A → α → Prop) :
    Prog Q A ε α → Log Q A → Prop :=
  Safe Eq pre Log.next (fun _ : ε => True) Φ

/-- A safe program makes only allowed calls, whatever it is told. -/
theorem Safe.feed_calls {pre : Log Q A → Q → Prop} {Φ : Log Q A → α → Prop}
    {p : Prog Q A ε α} {s : Log Q A} (h : Alone pre Φ p s) (as : List A) :
    ∀ q ∈ (feed p as).1, ∃ s' : Log Q A, s'.answers <+: s.answers ++ as ∧ pre s' q := by
  induction p generalizing s as with
  | ret a => simp [feed]
  | fault e => simp [feed]
  | call q k ih =>
    obtain ⟨hq, hk⟩ := h s rfl
    cases as with
    | nil =>
      simp only [feed, List.mem_singleton, forall_eq]
      exact ⟨s, by simp, hq⟩
    | cons a as =>
      simp only [feed, List.mem_cons]
      rintro q' (rfl | hm)
      · exact ⟨s, List.prefix_append _ _, hq⟩
      · obtain ⟨s', hs', hp⟩ := ih a (hk a _ rfl) as q' hm
        exact ⟨s', by simpa using hs', hp⟩

/-- A safe program that returns satisfies its postcondition. -/
theorem Safe.feed_result {pre : Log Q A → Q → Prop} {Φ : Log Q A → α → Prop}
    {p : Prog Q A ε α} {s : Log Q A} (h : Alone pre Φ p s) {as : List A} {a : α}
    (hr : (feed p as).2 = some (.ok a)) :
    ∃ used, used <+: as ∧ Φ ⟨s.calls ++ (feed p as).1, s.answers ++ used⟩ a := by
  induction p generalizing s as with
  | ret b =>
    obtain rfl : b = a := by simpa [feed] using hr
    exact ⟨[], List.nil_prefix, by simpa [feed] using h s rfl⟩
  | fault e => simp [feed] at hr
  | call q k ih =>
    cases as with
    | nil => simp [feed] at hr
    | cons b as =>
      obtain ⟨used, hu, hp⟩ := ih b ((h s rfl).2 b _ rfl) (show (feed (k b) as).2 = _ by simpa [feed] using hr)
      exact ⟨b :: used, by simpa using hu, by simpa [feed] using hp⟩

end Yfs.CallTrees
