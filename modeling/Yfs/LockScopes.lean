import Yfs.YfsClient

/-!
# The locks of an operation

What each step of a file-system operation does to the set of held locks and to the balance
of acquired and released ones, and at which calls it holds the lock of the extent it works
on. Most operations take the locks they need and leave everything as it was.
-/

namespace Yfs.LockScopes
open CallTrees LockProtocol ExtentClient DirectoryFormat YfsClient

/-- The extent that a call works on. -/
def extentOf : Call → Option Inum
  | .get i | .put i _ | .getattr i | .remove i => some i
  | .acquire _ | .release _ | .create _ => none

/-- The lock of the extent is held when the call is made. -/
def Orderly (x : Step) : Prop := ∀ i ∈ extentOf x.2, i ∈ x.1

instance (x : Step) : Decidable (Orderly x) :=
  Option.decidableForallMem (p := (· ∈ x.1)) (extentOf x.2)

/-- How often lock `i` was taken and not given back. -/
def surplus (calls : List Step) (i : Inum) : ℤ :=
  calls.countP (fun x => x.2 = .acquire i) - calls.countP (fun x => x.2 = .release i)

theorem surplus_snoc (calls : List Step) (x : Step) (i : Inum) :
    surplus (calls ++ [x]) i = surplus calls i +
      ((if x.2 = .acquire i then 1 else 0) - (if x.2 = .release i then 1 else 0)) := by
  unfold surplus
  simp only [List.countP_append, List.countP_singleton, decide_eq_true_eq]
  split_ifs <;> push_cast <;> ring

/-- The locks that are held and the balance of the calls so far. -/
structure Locks where
  held : Held
  balance : Inum → ℤ

namespace Locks

/-- The locks after `lock i` has returned `lr`. -/
def locked (L : Locks) (lr : Bool) (i : Inum) : Locks :=
  if lr then L else ⟨i :: L.held, Function.update L.balance i (L.balance i + 1)⟩

def unlocked (L : Locks) (i : Inum) : Locks :=
  ⟨L.held.erase i, Function.update L.balance i (L.balance i - 1)⟩

@[simp] theorem locked_true (L : Locks) (i : Inum) : L.locked true i = L := rfl

@[simp] theorem unlocked_locked (L : Locks) (i : Inum) : (L.locked false i).unlocked i = L := by
  simp [locked, unlocked]

theorem mem_locked {L : Locks} {lr : Bool} {i : Inum} (h : lr = true ↔ i ∈ L.held) :
    i ∈ (L.locked lr i).held := by
  cases lr with
  | true => exact h.1 rfl
  | false => exact List.mem_cons_self

theorem mem_locked_of_mem {L : Locks} {lr : Bool} {i j : Inum} (h : j ∈ L.held) :
    j ∈ (L.locked lr i).held := by
  cases lr with
  | true => exact h
  | false => exact List.mem_cons_of_mem _ h

/-- Two locks that were taken may be given back in either order. -/
theorem unlocked_locked_comm (L : Locks) {i j : Inum} (h : i ≠ j) :
    ((L.locked false i).locked false j).unlocked i = L.locked false j := by
  have hb : Function.update (Function.update (Function.update L.balance i (L.balance i + 1)) j
      (L.balance j + 1)) i (L.balance i) = Function.update L.balance j (L.balance j + 1) := by
    rw [Function.update_comm h, Function.update_idem, Function.update_comm h.symm,
      Function.update_eq_self]
  simp [locked, unlocked, h, h.symm, hb]

end Locks

/-! ## Triples over the log -/

section
variable {α β : Type} (pre : Log Step Reply → Step → Prop)

/-- A triple about an operation that runs alone. Only its calls can be restricted. -/
abbrev LogTriple (P : Log Step Reply → Held → Prop) (p : Op α)
    (R : α → Log Step Reply → Held → Prop) : Prop :=
  Triple Eq pre Log.next (fun _ : Fault => True) P p R

/-- Orderly calls are allowed. -/
def Permits : Prop := ∀ s x, Orderly x → pre s x

/-- The locks are `L`. -/
def At (L : Locks) (s : Log Step Reply) (h : Held) : Prop :=
  h = L.held ∧ surplus s.calls = L.balance

/-- The locks are `L`, and the answers so far were `as`. -/
def Seen (L : Locks) (as : List Reply) (s : Log Step Reply) (h : Held) : Prop :=
  At L s h ∧ s.answers = as

/-- The operation takes locks from `L` to `L'`. -/
abbrev Moves (L : Locks) (p : Op α) (L' : Locks) : Prop := LogTriple pre (At L) p fun _ => At L'

variable {pre} {L L' M : Locks} {as : List Reply} {i : Inum} {lr : Bool}
  {P : Log Step Reply → Held → Prop} {R : α → Log Step Reply → Held → Prop}

theorem logTriple_bind {p : Op α} {f : α → Op β} {T : β → Log Step Reply → Held → Prop}
    (hp : LogTriple pre P p R) (hf : ∀ a, LogTriple pre (R a) (f a) T) :
    LogTriple pre P (p >>= f) T :=
  hp.bind (fun _ => rfl) hf

theorem logTriple_pure {a : α} (h : ∀ s r, P s r → R a s r) : LogTriple pre P (pure a) R :=
  Triple.pure fun s _ r hP hs => hs ▸ h s r hP

theorem logTriple_discard {p : Op α} {T : Log Step Reply → Held → Prop}
    (hp : LogTriple pre P p fun _ => T) : LogTriple pre P (do let _ ← p) fun _ => T :=
  logTriple_bind hp fun _ => logTriple_pure fun _ _ h => h

theorem logTriple_lift (x : Except Fault α) :
    LogTriple pre P (lift x) (fun a s h => x = .ok a ∧ P s h) := by
  cases x with
  | ok a => exact logTriple_pure fun s r hP => ⟨rfl, hP⟩
  | error e => exact fun _ _ _ => trivial

theorem logTriple_skip (i : Inum) : LogTriple pre P (unlockUnless true i) (fun _ => P) :=
  logTriple_pure fun _ _ hP => hP

/-- What a longer log still satisfies is kept. -/
theorem logTriple_keeps {G : Log Step Reply → Prop} {p : Op α} (hp : LogTriple pre P p R)
    (hG : ∀ s q a s', Log.next s q a s' → G s → G s') :
    LogTriple pre (fun s h => P s h ∧ G s) p (fun a s h => R a s h ∧ G s) :=
  hp.keeps (fun _ _ hs h => hs ▸ h) hG

theorem logTriple_emit {c : Call} (hc : ∀ s h, P s h → pre s (h, c)) :
    LogTriple pre P (emit c) (fun a s' h => ∃ s, P s h ∧
      s' = ⟨s.calls ++ [(h, c)], s.answers ++ [a]⟩) := by
  rintro s h hP s' rfl
  refine ⟨hc s h hP, fun a s'' hs s''' hs' => ?_⟩
  obtain rfl := hs'
  exact ⟨s, hP, hs⟩

/-- A call that takes and releases no lock. -/
theorem at_emit {G : Log Step Reply → Prop} {c : Call}
    (hdata : ∀ j, c ≠ .acquire j ∧ c ≠ .release j) (hc : ∀ s, G s → pre s (L.held, c)) :
    LogTriple pre (fun s h => At L s h ∧ G s) (emit c) (fun a s' h => At L s' h ∧
      ∃ s, G s ∧ s' = ⟨s.calls ++ [(L.held, c)], s.answers ++ [a]⟩) := by
  refine (logTriple_emit fun s h hs => ?_).weaken (fun _ _ h => h) ?_
  · obtain ⟨⟨rfl, _⟩, hG⟩ := hs
    exact hc s hG
  · rintro a s' h ⟨s, ⟨⟨rfl, hb⟩, hG⟩, rfl⟩
    refine ⟨⟨rfl, ?_⟩, s, hG, rfl⟩
    funext j
    rw [surplus_snoc, ← hb]
    simp [hdata j]

theorem seen_emit {c : Call} (hdata : ∀ j, c ≠ .acquire j ∧ c ≠ .release j)
    (hc : ∀ s, pre s (L.held, c)) :
    LogTriple pre (Seen L as) (emit c) (fun a => Seen L (as ++ [a])) := by
  refine (at_emit (G := fun s => s.answers = as) hdata fun s _ => hc s).weaken (fun _ _ h => h) ?_
  rintro a s' h ⟨hat, s, rfl, rfl⟩
  exact ⟨hat, rfl⟩

/-- The calls of `lock` and `unlock`, whose answer is verified. -/
theorem safe_verified {Φ : Log Step Reply → α → Prop} {x : Step} {a : α} {s : Log Step Reply}
    (hx : pre s x) (hΦ : ∀ r, Φ ⟨s.calls ++ [x], s.answers ++ [r]⟩ a) :
    Safe Eq pre Log.next (fun _ : Fault => True) Φ
      (.call x fun r : Reply => if r.ret = 0 then .ret a else .fault .assertion) s := by
  rintro s' rfl
  refine ⟨hx, fun r s' hs => ?_⟩
  obtain rfl := hs
  dsimp only
  split
  · rintro s' rfl
    exact hΦ r
  · trivial

theorem seen_lock (hpre : Permits pre) (i : Inum) :
    LogTriple pre (Seen L as) (lock i) (fun lr s h => (lr = true ↔ i ∈ L.held) ∧
      ∃ r : List Reply, r.length = (if lr then 0 else 1) ∧ Seen (L.locked lr i) (as ++ r) s h) := by
  rintro s h ⟨⟨rfl, hb⟩, has⟩
  rw [run_lock]
  by_cases hi : i ∈ L.held
  · rw [if_pos hi]
    rintro s' rfl
    exact ⟨by simp [hi], [], rfl, ⟨rfl, hb⟩, by simp [has]⟩
  · rw [if_neg hi]
    have horder : Orderly (L.held, .acquire i) := by simp [Orderly, extentOf]
    refine safe_verified (hpre _ _ horder) fun r => ?_
    refine ⟨by simp [hi], [r], rfl, ⟨rfl, ?_⟩, by simp [has]⟩
    funext j
    rw [surplus_snoc, hb]
    by_cases hj : j = i
    · simp [hj, Locks.locked]
    · simp [hj, Ne.symm hj, Locks.locked]

theorem moves_unlock (hpre : Permits pre) (L : Locks) (i : Inum) :
    Moves pre L (unlock i) (L.unlocked i) := by
  rintro s h ⟨rfl, hb⟩
  rw [run_unlock]
  by_cases hi : i ∈ L.held
  · rw [if_pos hi]
    have horder : Orderly (L.held.erase i, .release i) := by simp [Orderly, extentOf]
    refine safe_verified (hpre _ _ horder) fun r => ⟨rfl, ?_⟩
    funext j
    rw [surplus_snoc, hb]
    by_cases hj : j = i
    · simp [hj, Locks.unlocked, sub_eq_add_neg]
    · simp [hj, Ne.symm hj, Locks.unlocked]
  · rw [if_neg hi]
    trivial

/-! ## Scopes -/

theorem moves_bind {p : Op α} {f : α → Op β} (hp : Moves pre L p M)
    (hf : ∀ a, Moves pre M (f a) L') : Moves pre L (p >>= f) L' :=
  logTriple_bind hp hf

theorem moves_pure (L : Locks) (a : α) : Moves pre L (pure a) L := logTriple_pure fun _ _ h => h

theorem moves_lift (L : Locks) (x : Except Fault α) : Moves pre L (lift x) L :=
  (logTriple_lift x).weaken (fun _ _ h => h) fun _ _ _ h => h.2

theorem moves_of_seen {p : Op α} (h : ∀ as, LogTriple pre (Seen L as) p fun _ => At L') :
    Moves pre L p L' :=
  fun s r hs => h s.answers s r ⟨hs, rfl⟩

theorem moves_emit {c : Call} (hdata : ∀ j, c ≠ .acquire j ∧ c ≠ .release j)
    (hc : ∀ s, pre s (L.held, c)) : Moves pre L (emit c) L :=
  moves_of_seen fun _ => (seen_emit hdata hc).weaken (fun _ _ h => h) fun _ _ _ h => h.1

/-- A scope that starts with `lock`. -/
theorem moves_lock {f : Bool → Op β} (hpre : Permits pre)
    (hf : ∀ lr, (lr = true ↔ i ∈ L.held) → Moves pre (L.locked lr i) (f lr) L') :
    Moves pre L (lock i >>= f) L' :=
  moves_of_seen fun _ => logTriple_bind (seen_lock hpre i) fun lr =>
    Triple.assume fun hlr => Triple.exists fun _ =>
      Triple.weaken (hf lr hlr) (fun _ _ h => h.2.1) fun _ _ _ h => h

theorem moves_unlockUnless (hpre : Permits pre) (L : Locks) (lr : Bool) (i : Inum) :
    Moves pre (L.locked lr i) (unlockUnless lr i) L := by
  cases lr with
  | true => exact moves_pure L ()
  | false =>
    have h := moves_unlock hpre (L.locked false i) i
    rwa [Locks.unlocked_locked] at h

/-- The usual end of a scope. -/
theorem moves_leave (hpre : Permits pre) (L : Locks) (lr : Bool) (i : Inum) (a : α) :
    Moves pre (L.locked lr i) (do unlockUnless lr i; pure a) L :=
  moves_bind (moves_unlockUnless hpre L lr i) fun _ => moves_pure L a

/-- A call that works on an extent whose lock is held. -/
theorem moves_data {c : Call} (hpre : Permits pre) (hc : extentOf c = some i) (hi : i ∈ L.held) :
    Moves pre L (emit c) L := by
  refine moves_emit (fun j => ?_) fun s => hpre s _ fun k hk => ?_
  · constructor <;> (rintro rfl; simp [extentOf] at hc)
  · obtain rfl : i = k := by simpa [hc] using hk
    exact hi

/-! ## The operations -/

theorem moves_isfile (hpre : Permits pre) (L : Locks) (i : Inum) : Moves pre L (isfile i) L := by
  refine moves_lock hpre fun lr hlr => ?_
  refine moves_bind (moves_data hpre rfl (Locks.mem_locked hlr)) fun a => ?_
  split <;> exact moves_leave hpre L lr i _

theorem moves_isdir (hpre : Permits pre) (L : Locks) (i : Inum) : Moves pre L (isdir i) L :=
  moves_bind (moves_isfile hpre L i) fun _ => moves_pure L _

theorem moves_getfile (hpre : Permits pre) (L : Locks) (i : Inum) : Moves pre L (getfile i) L := by
  refine moves_lock hpre fun lr hlr => ?_
  refine moves_bind (moves_data hpre rfl (Locks.mem_locked hlr)) fun a => ?_
  split <;> exact moves_leave hpre L lr i _

theorem moves_getdir (hpre : Permits pre) (L : Locks) (i : Inum) : Moves pre L (getdir i) L := by
  refine moves_lock hpre fun lr hlr => ?_
  refine moves_bind (moves_data hpre rfl (Locks.mem_locked hlr)) fun a => ?_
  split <;> exact moves_leave hpre L lr i _

theorem moves_setattr (hpre : Permits pre) (L : Locks) (i : Inum) (size : ℕ) :
    Moves pre L (setattr i size) L := by
  refine moves_lock hpre fun lr hlr => ?_
  refine moves_bind (moves_data hpre rfl (Locks.mem_locked hlr)) fun got => ?_
  split
  · exact moves_leave hpre L lr i _
  · refine moves_bind (moves_lift _ _) fun buf => ?_
    refine moves_bind (moves_data hpre rfl (Locks.mem_locked hlr)) fun r => ?_
    exact moves_leave hpre L lr i _

theorem moves_readdir (hpre : Permits pre) (L : Locks) (dir : Inum) :
    Moves pre L (readdir dir) L := by
  refine moves_lock hpre fun lr hlr => ?_
  refine moves_bind (moves_data hpre rfl (Locks.mem_locked hlr)) fun got => ?_
  split
  · exact moves_leave hpre L lr dir _
  · refine moves_bind (moves_unlockUnless hpre L lr dir) fun _ => ?_
    exact moves_bind (moves_lift L (listDir got.buf)) fun _ => moves_pure L _

theorem moves_lookup (hpre : Permits pre) (L : Locks) (parent : Inum) (name : Str) :
    Moves pre L (lookup parent name) L := by
  unfold lookup
  refine moves_bind (moves_readdir hpre L parent) fun x => ?_
  dsimp only
  split <;> exact moves_pure L _

theorem moves_read (hpre : Permits pre) (L : Locks) (i : Inum) (size : ℕ) (off : ℤ) :
    Moves pre L (read i size off) L := by
  refine moves_lock hpre fun lr hlr => ?_
  refine moves_bind (moves_data hpre rfl (Locks.mem_locked hlr)) fun got => ?_
  split
  · exact moves_leave hpre L lr i _
  · refine moves_bind (moves_unlockUnless hpre L lr i) fun _ => ?_
    exact moves_bind (moves_lift L _) fun _ => moves_pure L _

theorem moves_write (hpre : Permits pre) (L : Locks) (i : Inum) (off : ℤ) (data : Str) :
    Moves pre L (write i off data) L := by
  refine moves_lock hpre fun lr hlr => ?_
  refine moves_bind (moves_data hpre rfl (Locks.mem_locked hlr)) fun got => ?_
  split
  · exact moves_leave hpre L lr i _
  · refine moves_bind (moves_lift _ _) fun x => ?_
    refine moves_bind (moves_data hpre rfl (Locks.mem_locked hlr)) fun r => ?_
    exact moves_leave hpre L lr i _

theorem moves_construct (hpre : Permits pre) (L : Locks) : Moves pre L construct L := by
  refine moves_lock hpre fun lr hlr => ?_
  refine moves_bind (moves_data hpre rfl (Locks.mem_locked hlr)) fun _ => ?_
  exact moves_unlockUnless hpre L lr 1

theorem moves_link (hpre : Permits pre) (L : Locks) {parent : Inum} (name : Str) (ino : Inum)
    (hlr : lr = true ↔ parent ∈ L.held) :
    Moves pre (L.locked lr parent) (link parent name ino lr) L := by
  unfold link
  refine moves_bind (moves_data hpre rfl (Locks.mem_locked hlr)) fun got => ?_
  split
  · exact moves_leave hpre L lr parent _
  · refine moves_bind (moves_lift _ (placeEntry got.buf name ino)) fun x => ?_
    refine moves_bind (moves_write hpre _ parent _ _) fun y => ?_
    exact moves_leave hpre L lr parent _

/-- Only the content of a new directory is stored without its lock. -/
theorem moves_create (hpre : Permits pre) (L : Locks) (parent : Inum) (name : Str) {type : UInt32}
    (hput : type = typeDir → ∀ s h ino, pre s (h, .put ino newdir)) :
    Moves pre L (create parent name type) L := by
  unfold create
  refine moves_lock hpre fun lr hlr => ?_
  refine moves_bind (moves_lookup hpre _ parent name) fun x => ?_
  have hleave : ∀ y : Status × Option Inum,
      Moves pre (L.locked lr parent) (do unlockUnless lr parent; pure y) L :=
    moves_leave hpre L lr parent
  have hlink : ∀ ino, Moves pre (L.locked lr parent)
      (do let r ← link parent name ino lr; pure (r, some ino)) L := fun ino =>
    moves_bind (moves_link hpre L name ino hlr) fun _ => moves_pure L _
  dsimp only
  split
  · exact hleave _
  split
  · exact hleave _
  refine moves_bind (moves_emit (by simp) fun s => hpre s _ (by simp [Orderly, extentOf]))
    fun made => ?_
  split
  · exact hleave _
  split
  next hdir =>
    refine moves_bind (moves_emit (by simp) fun s => hput hdir s _ _) fun stored => ?_
    split
    · exact hleave _
    · exact hlink _
  next => exact hlink _

/-- The operations that only work under locks and give back what they take. -/
def IsPlain : FsOp → Prop
  | .create _ _ _ | .unlink _ _ => False
  | _ => True

theorem moves_plain (hpre : Permits pre) (L : Locks) {o : FsOp} (h : IsPlain o) :
    Moves pre L o.program L := by
  cases o with
  | construct => exact moves_construct hpre L
  | isfile i => exact logTriple_discard (moves_isfile hpre L i)
  | isdir i => exact logTriple_discard (moves_isdir hpre L i)
  | getfile i => exact logTriple_discard (moves_getfile hpre L i)
  | getdir i => exact logTriple_discard (moves_getdir hpre L i)
  | setattr i n => exact logTriple_discard (moves_setattr hpre L i n)
  | create parent name type => exact h.elim
  | lookup parent name => exact logTriple_discard (moves_lookup hpre L parent name)
  | readdir dir => exact logTriple_discard (moves_readdir hpre L dir)
  | read i n off => exact logTriple_discard (moves_read hpre L i n off)
  | write i off data => exact logTriple_discard (moves_write hpre L i off data)
  | unlink parent name => exact h.elim

/-- What `lookup` finds in the answer to its `get`. -/
def foundIn (name : Str) (got : Reply) : Option Inum :=
  if got.ret = OK then (listDir got.buf).toOption.bind (findName name) else none

theorem foundIn_of_failed {name : Str} {got : Reply} (h : got.ret ≠ OK) : foundIn name got = none :=
  if_neg h

theorem foundIn_of_ok {name : Str} {got : Reply} {ds : List Dirent} (h : got.ret = OK)
    (hl : listDir got.buf = .ok ds) : foundIn name got = findName name ds := by
  rw [foundIn, if_pos h, hl]
  rfl

/-- `readdir` of a directory whose lock is held. -/
theorem seen_readdir (hpre : Permits pre) {dir : Inum} (hp : dir ∈ L.held) :
    LogTriple pre (Seen L as) (readdir dir) (fun x s h => ∃ got : Reply,
      (got.ret = OK → listDir got.buf = .ok x.2) ∧ x.1 = got.ret ∧ Seen L (as ++ [got]) s h) := by
  unfold readdir
  refine logTriple_bind (seen_lock hpre dir) fun lr => Triple.assume fun hlr => ?_
  obtain rfl : lr = true := hlr.2 hp
  refine Triple.exists fun r => Triple.assume fun hr => ?_
  obtain rfl : r = [] := by simpa using hr
  rw [List.append_nil, Locks.locked_true]
  refine logTriple_bind (seen_emit (by simp) fun s => hpre s _ ?_) fun got => ?_
  · simpa [Orderly, extentOf] using hp
  · split
    next hne =>
      exact logTriple_bind (logTriple_skip dir) fun _ =>
        logTriple_pure fun s h hs => ⟨got, fun h => absurd h hne, rfl, hs⟩
    next =>
      refine logTriple_bind (logTriple_skip dir) fun _ => ?_
      exact logTriple_bind (logTriple_lift (listDir got.buf)) fun list =>
        logTriple_pure fun s h hs => ⟨got, fun _ => hs.1, rfl, hs.2⟩

/-- `lookup` in a directory whose lock is held. -/
theorem seen_lookup (hpre : Permits pre) {parent : Inum} (name : Str) (hp : parent ∈ L.held) :
    LogTriple pre (Seen L as) (lookup parent name) (fun x s h => ∃ got : Reply,
      x = (got.ret, foundIn name got) ∧ Seen L (as ++ [got]) s h) := by
  unfold lookup
  refine logTriple_bind (seen_readdir hpre hp) fun x => ?_
  dsimp only
  split
  next hne =>
    refine logTriple_pure fun s h ⟨got, _, hx, hs⟩ => ⟨got, ?_, hs⟩
    rw [foundIn_of_failed (hx ▸ hne), hx]
  next hok =>
    refine logTriple_pure fun s h ⟨got, hlist, hx, hs⟩ => ⟨got, ?_, hs⟩
    have hret : got.ret = OK := hx ▸ not_not.1 hok
    rw [foundIn_of_ok hret (hlist hret), hx]

/-- `isdir` of an inode whose lock is held. -/
theorem seen_isdir (hpre : Permits pre) (hi : i ∈ L.held) :
    LogTriple pre (Seen L as) (isdir i) (fun b s h => ∃ a : Reply,
      (b = false → a.ret = OK ∧ a.attr.type = typeFile) ∧
        (b = true → ¬(a.ret = OK ∧ a.attr.type = typeFile)) ∧ Seen L (as ++ [a]) s h) := by
  have hfile : LogTriple pre (Seen L as) (isfile i) (fun b s h => ∃ a : Reply,
      (b = true ↔ a.ret = OK ∧ a.attr.type = typeFile) ∧ Seen L (as ++ [a]) s h) := by
    unfold isfile
    refine logTriple_bind (seen_lock hpre i) fun lr => Triple.assume fun hlr => ?_
    obtain rfl : lr = true := hlr.2 hi
    refine Triple.exists fun r => Triple.assume fun hr => ?_
    obtain rfl : r = [] := by simpa using hr
    rw [List.append_nil, Locks.locked_true]
    refine logTriple_bind (seen_emit (by simp) fun s => hpre s _ ?_) fun a => ?_
    · simpa [Orderly, extentOf] using hi
    · split
      next hne =>
        exact logTriple_bind (logTriple_skip i) fun _ =>
          logTriple_pure fun s h hs => ⟨a, by simp [hne], hs⟩
      next hok =>
        exact logTriple_bind (logTriple_skip i) fun _ =>
          logTriple_pure fun s h hs => ⟨a, by simp [not_not.1 hok], hs⟩
  refine logTriple_bind hfile fun b => logTriple_pure fun s h ⟨a, hb, hs⟩ => ⟨a, ?_, ?_, hs⟩
  · intro hn
    exact hb.1 (by simpa using hn)
  · intro hn hfile
    rw [hb.2 hfile] at hn
    exact Bool.false_ne_true hn

/-! ## Two scopes at once

`unlink` gives back the lock of the parent, which it took first, before that of the file. -/

section
variable {parent ino : Inum} {lr1 lr2 : Bool}

theorem moves_unlockOuter (hpre : Permits pre)
    (hlr2 : lr2 = true ↔ ino ∈ (L.locked lr1 parent).held) :
    Moves pre ((L.locked lr1 parent).locked lr2 ino) (unlockUnless lr1 parent)
      (L.locked lr2 ino) := by
  cases lr1 with
  | true => exact moves_pure _ ()
  | false =>
    have h := moves_unlock hpre ((L.locked false parent).locked lr2 ino) parent
    cases lr2 with
    | true => rwa [Locks.locked_true, Locks.unlocked_locked] at h
    | false =>
      have hne : parent ≠ ino := by
        rintro rfl
        exact Bool.false_ne_true (hlr2.2 List.mem_cons_self)
      rwa [Locks.unlocked_locked_comm L hne] at h

/-- The end of `unlink`. When the file is removed, the lock of the parent is gone. -/
theorem seen_unlinkEntry {G : Log Step Reply → Prop} (hpre : Permits pre) (name buf : Str)
    (hG : ∀ s q a s', Log.next s q a s' → G s → G s')
    (hrem : ∀ s, G s → pre s ((L.locked lr2 ino).held, .remove ino))
    (hlr2 : lr2 = true ↔ ino ∈ (L.locked lr1 parent).held) :
    LogTriple pre (fun s h => At ((L.locked lr1 parent).locked lr2 ino) s h ∧ G s)
      (unlinkEntry parent name ino lr1 lr2 buf)
      (fun _ s h => At L s h ∧ ((L.locked lr2 ino).held, .remove ino) ∈ s.calls) := by
  have htail : LogTriple pre (fun s h => At ((L.locked lr1 parent).locked lr2 ino) s h ∧ G s)
      (do
        unlockUnless lr1 parent
        let r ← emit (.remove ino)
        unlockUnless lr2 ino
        pure r.ret)
      (fun _ s h => At L s h ∧ ((L.locked lr2 ino).held, .remove ino) ∈ s.calls) := by
    refine logTriple_bind (logTriple_keeps (moves_unlockOuter hpre hlr2) hG) fun _ => ?_
    have hemit : LogTriple pre (fun s h => At (L.locked lr2 ino) s h ∧ G s) (emit (.remove ino))
        (fun _ s h => At (L.locked lr2 ino) s h ∧
          ((L.locked lr2 ino).held, .remove ino) ∈ s.calls) := by
      refine (at_emit (by simp) hrem).weaken (fun _ _ h => h) ?_
      rintro a s' h ⟨hat, s, -, rfl⟩
      exact ⟨hat, by simp⟩
    refine logTriple_bind hemit fun r => ?_
    refine logTriple_keeps (moves_leave hpre L lr2 ino r.ret) fun s q a s' hs hm => ?_
    obtain rfl := hs
    exact List.mem_append_left _ hm
  unfold unlinkEntry
  refine logTriple_bind (logTriple_keeps (moves_lift _ (clearEntry buf name ino)) hG) fun x => ?_
  cases x with
  | none => exact htail
  | some w =>
    exact logTriple_bind (logTriple_keeps (moves_write hpre _ parent w.1 w.2) hG) fun _ => htail

/-- The lock of the file is still held when the file is removed, unless the file is its own
parent and the lock of the parent was taken here. -/
theorem moves_unlinkFound (hpre : Permits pre) (name : Str)
    (hlr1 : lr1 = true ↔ parent ∈ L.held)
    (hrem : ino = parent → lr1 = false → ∀ s h, pre s (h, .remove ino)) :
    Moves pre (L.locked lr1 parent) (unlinkFound parent name ino lr1) L := by
  unfold unlinkFound
  refine moves_lock hpre fun lr2 hlr2 => ?_
  refine moves_bind (moves_isdir hpre _ ino) fun b => ?_
  have hleave : ∀ r : Status, Moves pre ((L.locked lr1 parent).locked lr2 ino)
      (do unlockUnless lr2 ino; unlockUnless lr1 parent; pure r) L := fun r =>
    moves_bind (moves_unlockUnless hpre _ lr2 ino) fun _ => moves_leave hpre L lr1 parent r
  cases b with
  | true => exact hleave ENOTEMPTY
  | false =>
    have hparent : parent ∈ ((L.locked lr1 parent).locked lr2 ino).held :=
      Locks.mem_locked_of_mem (Locks.mem_locked hlr1)
    refine moves_bind (moves_data hpre rfl hparent) fun got => ?_
    split
    · exact hleave got.ret
    · refine (seen_unlinkEntry (G := fun _ => True) hpre name got.buf (fun _ _ _ _ _ h => h)
        (fun s _ => ?_) hlr2).weaken (fun _ _ h => ⟨h, trivial⟩) fun _ _ _ h => h.1
      by_cases hstray : ino = parent ∧ lr1 = false
      · exact hrem hstray.1 hstray.2 s _
      · refine hpre s _ fun j hj => ?_
        obtain rfl : ino = j := by simpa [extentOf] using hj
        cases lr2 with
        | false => exact List.mem_cons_self
        | true =>
          have hin := hlr2.1 rfl
          cases lr1 with
          | true => exact hin
          | false => exact (List.mem_cons.1 hin).resolve_left fun h => hstray ⟨h, rfl⟩

/-- `unlink` under a lock that is held already. -/
theorem moves_unlink_held (hpre : Permits pre) (name : Str) (hp : parent ∈ L.held) :
    Moves pre L (unlink parent name) L := by
  unfold unlink
  refine moves_lock hpre fun lr hlr => ?_
  obtain rfl : lr = true := hlr.2 hp
  refine moves_bind (moves_lookup hpre _ parent name) fun x => ?_
  dsimp only
  split
  · exact moves_pure L _
  split
  · exact moves_pure L _
  · exact moves_unlinkFound hpre name hlr fun _ h => absurd h (by simp)

/-- `unlink` that takes the lock, up to the point where the lookup has been answered. -/
theorem seen_unlink {R : Status → Log Step Reply → Held → Prop} (hpre : Permits pre) (name : Str)
    (hp : parent ∉ L.held)
    (hmissing : ∀ acq got s, foundIn name got = none →
      Seen (L.locked false parent) [acq, got] s (L.locked false parent).held →
        ∀ r, R r s (L.locked false parent).held)
    (hfound : ∀ acq got ino, foundIn name got = some ino →
      LogTriple pre (Seen (L.locked false parent) [acq, got])
        (unlinkFound parent name ino false) R) :
    LogTriple pre (Seen L []) (unlink parent name) R := by
  unfold unlink
  refine logTriple_bind (seen_lock hpre parent) fun lr => Triple.assume fun hlr => ?_
  obtain rfl : lr = false := by simpa [hp] using hlr
  refine Triple.exists fun r => Triple.assume fun hr => ?_
  obtain ⟨acq, rfl⟩ := List.length_eq_one_iff.1 hr
  refine logTriple_bind (seen_lookup hpre name (Locks.mem_locked hlr)) fun x => ?_
  refine Triple.exists fun got => Triple.assume fun hx => ?_
  obtain rfl := hx
  have hend : foundIn name got = none → ∀ r : Status,
      LogTriple pre (Seen (L.locked false parent) [acq, got]) (pure r) R := fun hn r =>
    logTriple_pure fun s h hs => by
      obtain rfl := hs.1.1
      exact hmissing acq got s hn hs r
  dsimp only
  split
  next hne => exact hend (foundIn_of_failed hne) _
  next =>
    split
    next hn => exact hend hn _
    next ino hs => exact hfound acq got ino hs

end

end

end Yfs.LockScopes
