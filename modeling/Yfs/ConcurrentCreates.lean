import Yfs.SharedFiles
import Mathlib.Algebra.BigOperators.Group.Finset.Basic
import Mathlib.Algebra.Order.Group.Multiset
import Mathlib.Data.List.DropRight
import Mathlib.Tactic.Abel

/-!
# No name is lost or entered twice

Any number of processes create, look up and list names in one directory. The atomic file system that
they make up is enough to see that every entry was added by a create that has returned or is about to.
So among the creates of one name exactly one wins, and a listing shows all winners that had returned
before it was asked for.
-/

namespace Yfs.ConcurrentCreates
open LabelledRuns CallTrees LockProtocol ExtentClient CallStackMachines FileService LockSafety
open DirectoryFormat YfsClient DirectoryOps Processes CriticalSections SharedDirectory SharedFiles

/-- A create, lookup or listing of the directory. The entry of a create has a length that is an
`int`. -/
def Fits (dir : Inum) : Task → Prop
  | .create parent name => parent = dir ∧ IsInt (name.length + 12)
  | .lookup parent _ => parent = dir
  | .readdir d => d = dir
  | .read _ _ _ | .write _ _ _ | .setattr _ _ => False

instance decidableFits (dir : Inum) : (task : Task) → Decidable (Fits dir task)
  | .create _ _ => inferInstanceAs (Decidable (_ ∧ _))
  | .lookup _ _ | .readdir _ => inferInstanceAs (Decidable (_ = _))
  | .read _ _ _ | .write _ _ _ | .setattr _ _ => inferInstanceAs (Decidable False)

/-! ## Histories -/

/-- The entry that a task with this result has made. -/
def entryOf : Task → Result → List Dirent
  | .create _ name, .created r (some ino) => if r = OK then [⟨name, ino⟩] else []
  | _, _ => []

/-- The entry that a create has made when it returns. -/
def madeBy : Act Task Result → List Dirent
  | .think (.finish task r) => entryOf task r
  | _ => []

/-- The entry of a create that has taken effect and has not returned. -/
def mine : AtomicObjects.Status Task Result → List Dirent
  | .done task (some r) => entryOf task r
  | _ => []

/-- Whether a step starts or finishes a task. -/
def thinks : Act Task Result → Bool
  | .think _ => true
  | _ => false

/-- The entries of the creates that have returned. -/
def created (tr : List (ClusterLabel Task Result)) : List Dirent := tr.flatMap fun x => madeBy x.2

/-- What had happened when process `i` last started or finished a task. -/
def asked (i : ℕ) (tr : List (ClusterLabel Task Result)) : List (ClusterLabel Task Result) :=
  (tr.rdropWhile fun x => !(x.1 = i && thinks x.2)).dropLast

variable {dir : Inum} {tr done : List (ClusterLabel Task Result)} {i j : ℕ} {lab : Act Task Result}
  {task : Task} {ds ds' old : List Dirent}

theorem created_snoc (x : ClusterLabel Task Result) :
    created (tr ++ [x]) = created tr ++ madeBy x.2 := by
  simp [created]

theorem asked_snoc_of_ne (h : ¬(j = i ∧ thinks lab = true)) :
    asked i (tr ++ [(j, lab)]) = asked i tr := by
  rw [asked, List.rdropWhile_concat_pos _ _ _ (by simpa [or_iff_not_imp_left] using h), asked]

theorem asked_snoc_self (h : thinks lab = true) : asked i (tr ++ [(i, lab)]) = tr := by
  rw [asked, List.rdropWhile_concat_neg _ _ _ (by simpa using h), List.dropLast_concat]

theorem asked_append {tr' : List (ClusterLabel Task Result)} (h : ∀ e, (i, .think e) ∉ tr')
    (hl : thinks lab = true) : asked i (tr ++ (i, lab) :: tr') = tr := by
  induction tr' using List.reverseRecOn with
  | nil => exact asked_snoc_self hl
  | append_singleton tr' x ih =>
    obtain ⟨j, lab'⟩ := x
    rw [← List.cons_append, ← List.append_assoc, asked_snoc_of_ne]
    · exact ih fun e he => h e (List.mem_append_left _ he)
    · rintro ⟨rfl, hx⟩
      cases lab' with
      | think e => exact h e (by simp)
      | _ => cases hx

theorem asked_isPrefix (i : ℕ) (tr : List (ClusterLabel Task Result)) : asked i tr <+: tr :=
  (List.dropLast_prefix _).trans (List.rdropWhile_prefix _ _)

theorem created_asked_subset (i : ℕ) (tr : List (ClusterLabel Task Result)) :
    created (asked i tr) ⊆ created tr := by
  intro d hd
  obtain ⟨x, hx, hd⟩ := List.mem_flatMap.1 hd
  exact List.mem_flatMap.2 ⟨x, (asked_isPrefix i tr).subset hx, hd⟩

/-- A step that neither starts nor finishes a task. -/
theorem thinks_of_silent (h : ∀ e, lab ≠ .think e) : thinks lab = false ∧ madeBy lab = [] := by
  cases lab with
  | think e => exact absurd rfl (h e)
  | _ => exact ⟨rfl, rfl⟩

/-! ## When a task takes effect -/

/-- What a task does to the entries of the directory. -/
inductive Committed (ds : List Dirent) : Task → List Dirent → Option Result → Prop where
  | won {parent : Inum} {name : Str} (ino : Inum) (new : findName name ds = none) :
      Committed ds (.create parent name) (ds ++ [⟨name, ino⟩]) (some (.created OK (some ino)))
  | lost {parent : Inum} {name : Str} (known : findName name ds ≠ none) :
      Committed ds (.create parent name) ds (some (.created EXIST none))
  | found (parent : Inum) (name : Str) :
      Committed ds (.lookup parent name) ds (some (.found OK (findName name ds)))
  | listed (d : Inum) : Committed ds (.readdir d) ds (some (.listed OK ds))
  | died (task : Task) : Committed ds task ds none

theorem committed_of_apply {ino : Inum} {r : Option Result} (hfits : Fits dir task)
    (h : task.apply ino (.dir ds) = (.dir ds', r)) : Committed ds task ds' r := by
  cases task with
  | create parent name =>
    rw [Task.apply] at h
    cases hfind : findName name ds with
    | none =>
      rw [hfind] at h
      cases h
      exact .won ino hfind
    | some old =>
      rw [hfind] at h
      cases h
      exact .lost (by simp [hfind])
  | lookup parent name =>
    cases h
    exact .found parent name
  | readdir d =>
    cases h
    exact .listed d
  | read | write | setattr => exact hfits.elim

theorem Fits.proper (h : Fits dir task) : task.inode = dir ∧ task.Proper (· = dir) := by
  cases task with
  | create parent name => exact ⟨h.1, decide_eq_true h.1, h.2⟩
  | lookup parent name => exact ⟨h, decide_eq_true h⟩
  | readdir d => exact ⟨h, decide_eq_true h⟩
  | read | write | setattr => exact h.elim

section
variable {F F' : Inum → Str} {r : Option Result}

/-- In a directory that cannot be copied nothing happens any more. -/
theorem died_of_full (hfits : Fits dir task) (hfull : (F dir).length + 1 = 2 ^ 31)
    (hm : Means Task.inode (limits (2 ^ 31)) Task.program task F F' r) : F' = F ∧ r = none := by
  have hlist := listDir_full hfull
  have hstays {α : Type} {f : α → Result} {y : Except Fault (α × Held)} {w : Str}
      (hy : ∃ e, y = .error e ∧ w = F dir) :
      Function.update F dir w = F ∧
        ((y.map fun a => (f a.1, a.2)).toOption.map Prod.fst : Option Result) = none := by
    obtain ⟨e, rfl, rfl⟩ := hy
    exact ⟨Function.update_eq_self .., rfl⟩
  obtain ⟨x, w, he, rfl, rfl⟩ := hm
  cases task with
  | create parent name =>
    obtain ⟨rfl, -⟩ := hfits
    obtain ⟨y, hy, rfl⟩ := he.of_map
    exact hstays (f := fun a => .created a.1 a.2) (ends_create_fault hlist hy)
  | lookup parent name =>
    obtain rfl : parent = dir := hfits
    obtain ⟨y, hy, rfl⟩ := he.of_map
    exact hstays (f := fun a => .found a.1 a.2) (ends_lookup_fault hlist .takes hy)
  | readdir d =>
    obtain rfl : d = dir := hfits
    obtain ⟨y, hy, rfl⟩ := he.of_map
    exact hstays (f := fun a => .listed a.1 a.2) ⟨_, ends_readdir_fault hlist .takes hy⟩
  | read | write | setattr => exact hfits.elim

theorem entries_has {slots : List Slot} {f : Str} (h : Has slots f) : entries f = listing slots := by
  rw [h.1, entries_chain h.2.small]

theorem means_committed (hfits : Fits dir task) (hv : Valid (F dir))
    (hm : Means Task.inode (limits (2 ^ 31)) Task.program task F F' r) :
    Valid (F' dir) ∧ Committed (entries (F dir)) task (entries (F' dir)) r := by
  obtain ⟨slots, hhas⟩ := hv
  obtain ⟨hinode, hproper⟩ := hfits.proper
  have hsmall : IsInt (F dir).length := by
    rw [hhas.1]
    exact hhas.2.small
  by_cases hcopy : IsInt ((F dir).length + 1)
  · have hreads : Reads slots (F task.inode) := by
      rw [hinode]
      exact ⟨hhas, hcopy⟩
    obtain ⟨ino, slots', w, -, hhas', -, rfl, happly⟩ :=
      dir_means le_rfl hproper (decide_eq_true hinode) hreads hm
    rw [hinode, Function.update_self, entries_has hhas, entries_has hhas']
    exact ⟨⟨slots', hhas'⟩, committed_of_apply hfits happly⟩
  · obtain ⟨rfl, rfl⟩ := died_of_full hfits (by omega) hm
    exact ⟨⟨slots, hhas⟩, .died task⟩

end

/-! ## Accounts -/

/-- The task may have this result when the directory has the entries `ds`, of which those in `old` were
there before the task was started. -/
def Answered (old ds : List Dirent) : Task → Result → Prop
  | .create _ name, r =>
    (∃ ino, r = .created OK (some ino)) ∨ r = .created EXIST none ∧ name ∈ ds.map Dirent.name
  | .readdir _, r => ∃ shown, r = .listed OK shown ∧ (shown.map Dirent.name).Nodup ∧ old ⊆ shown
  | _, _ => True

theorem Answered.grown {r : Result} (h : Answered old ds task r) (hds : ds ⊆ ds') :
    Answered old ds' task r := by
  cases task with
  | create parent name => exact h.imp_right fun hr => ⟨hr.1, List.map_subset _ hds hr.2⟩
  | _ => exact h

/-- The entries that running creates have made. -/
def pending (procs : ℕ → AtomicObjects.Status Task Result) (n : ℕ) : Multiset Dirent :=
  ∑ i ∈ Finset.range n, (mine (procs i) : Multiset Dirent)

theorem pending_update (procs : ℕ → AtomicObjects.Status Task Result) {n : ℕ} (hi : i < n)
    (st : AtomicObjects.Status Task Result) :
    pending (Function.update procs i st) n + mine (procs i) = pending procs n + mine st := by
  have hmem := Finset.mem_range.2 hi
  have hrest : ∑ j ∈ (Finset.range n).erase i, (mine (Function.update procs i st j) : Multiset _) =
      ∑ j ∈ (Finset.range n).erase i, (mine (procs j) : Multiset Dirent) := by
    refine Finset.sum_congr rfl fun j hj => ?_
    rw [Function.update_of_ne (Finset.ne_of_mem_erase hj)]
  rw [pending, pending, ← Finset.add_sum_erase _ _ hmem, ← Finset.add_sum_erase _ _ hmem, hrest,
    Function.update_self]
  abel

/-- What is known of the directory and of `n` processes after the steps `tr`. -/
structure Accounts (dir : Inum) (n : ℕ) (tr : List (ClusterLabel Task Result))
    (s : AtomicObjects.State ℕ (Inum → Str) Task Result) : Prop where
  valid : Valid (s.value dir)
  balance : (entries (s.value dir) : Multiset Dirent) = created tr + pending s.procs n
  committed : ∀ i task r, s.procs i = .done task (some r) →
    Answered (created (asked i tr)) (entries (s.value dir)) task r
  ended : ∀ done i task r, done ++ [(i, .think (.finish task r))] <+: tr →
    Answered (created (asked i done)) (entries (s.value dir)) task r
  started : ∀ i task, (i, .think (.start task)) ∈ tr →
    i < n ∧ ((∃ r, (i, .think (.finish task r)) ∈ tr) ∨ (s.procs i).task = some task)
  fits : ∀ i task, (s.procs i).task = some task → Fits dir task

variable {n : ℕ} {s : AtomicObjects.State ℕ (Inum → Str) Task Result} {F' : Inum → Str}
  {st' : AtomicObjects.Status Task Result}

/-- The entries of the creates that have returned are in the directory. -/
theorem Accounts.created_subset (h : Accounts dir n tr s) : created tr ⊆ entries (s.value dir) := by
  intro d hd
  rw [← Multiset.mem_coe, h.balance]
  exact Multiset.mem_add.2 (.inl hd)

theorem accounts_start {F : Inum → Str} (hF : F dir = newdir) :
    Accounts dir n [] (AtomicObjects.start F) where
  valid := by
    show Valid (F dir)
    rw [hF]
    exact valid_newdir
  balance := by
    show (entries (F dir) : Multiset Dirent) = _
    rw [hF, entries_newdir]
    simp [created, pending, AtomicObjects.start, mine]
  committed i task r h := by cases h
  ended done i task r h := by simp at h
  started i task h := absurd h List.not_mem_nil
  fits i task h := by cases h

/-- What a step of process `i` has to come to. -/
structure Books (dir : Inum) (tr : List (ClusterLabel Task Result)) (i : ℕ) (lab : Act Task Result)
    (s : AtomicObjects.State ℕ (Inum → Str) Task Result) (F' : Inum → Str)
    (st' : AtomicObjects.Status Task Result) : Prop where
  valid : Valid (F' dir)
  grown : entries (s.value dir) ⊆ entries (F' dir)
  balance : (entries (F' dir) : Multiset Dirent) + mine (s.procs i) =
    entries (s.value dir) + (madeBy lab + mine st')
  committed : ∀ task r, st' = .done task (some r) →
    Answered (created (asked i (tr ++ [(i, lab)]))) (entries (F' dir)) task r
  ended : ∀ task r, lab = .think (.finish task r) →
    Answered (created (asked i tr)) (entries (F' dir)) task r
  task : ∀ task, (s.procs i).task = some task →
    (∃ r, lab = .think (.finish task r)) ∨ st'.task = some task
  started : ∀ task, lab = .think (.start task) → st'.task = some task
  fits : ∀ task, st'.task = some task → Fits dir task

theorem Accounts.snoc (h : Accounts dir n tr s) (hi : i < n) (hb : Books dir tr i lab s F' st') :
    Accounts dir n (tr ++ [(i, lab)]) ⟨F', Function.update s.procs i st'⟩ where
  valid := hb.valid
  balance := by
    have hpend := pending_update s.procs hi st'
    have hbal := hb.balance
    rw [h.balance] at hbal
    rw [created_snoc, ← Multiset.coe_add]
    refine add_right_cancel (hbal.trans ?_ : _ + (mine (s.procs i) : Multiset Dirent) = _)
    rw [add_assoc _ (pending (Function.update s.procs i st') _), hpend]
    abel
  committed j task r hj := by
    dsimp only at hj
    by_cases hji : j = i
    · subst hji
      rw [Function.update_self] at hj
      exact hb.committed task r hj
    · rw [Function.update_of_ne hji] at hj
      rw [asked_snoc_of_ne fun hx => hji hx.1.symm]
      exact (h.committed j task r hj).grown hb.grown
  ended done j task r hpre := by
    rcases List.prefix_concat_iff.1 hpre with heq | hpre
    · obtain ⟨rfl, hlast⟩ := List.append_inj' heq rfl
      obtain ⟨rfl, hlab⟩ := Prod.mk.inj (List.singleton_inj.1 hlast)
      exact hb.ended task r hlab.symm
    · exact (h.ended done j task r hpre).grown hb.grown
  started j task hj := by
    dsimp only
    rcases List.mem_append.1 hj with hj | hj
    · obtain ⟨hjn, ⟨r, hr⟩ | htask⟩ := h.started j task hj
      · exact ⟨hjn, .inl ⟨r, List.mem_append_left _ hr⟩⟩
      · refine ⟨hjn, ?_⟩
        by_cases hji : j = i
        · subst hji
          rcases hb.task task htask with ⟨r, rfl⟩ | htask'
          · exact .inl ⟨r, by simp⟩
          · exact .inr (by rw [Function.update_self, htask'])
        · exact .inr (by rw [Function.update_of_ne hji, htask])
    · obtain ⟨rfl, hlab⟩ := Prod.mk.inj (List.mem_singleton.1 hj)
      exact ⟨hi, .inr (by rw [Function.update_self, hb.started task hlab.symm])⟩
  fits j task hj := by
    dsimp only at hj
    by_cases hji : j = i
    · subst hji
      rw [Function.update_self] at hj
      exact hb.fits task hj
    · rw [Function.update_of_ne hji] at hj
      exact h.fits j task hj

/-- The moment when a task takes effect. -/
theorem Accounts.commit {o : Option Result} (h : Accounts dir n tr s) (hlab : ∀ e, lab ≠ .think e)
    (hst : s.procs i = .pending task) (hv : Valid (F' dir))
    (hc : Committed (entries (s.value dir)) task (entries (F' dir)) o) :
    Books dir tr i lab s F' (.done task o) := by
  obtain ⟨hthinks, hmade⟩ := thinks_of_silent hlab
  have hnames := hv.names
  refine ⟨hv, ?_, ?_, ?_, fun task r he => absurd he (hlab _), ?_, fun task he => absurd he (hlab _),
    fun task' he => h.fits i task' (by rw [hst]; exact he)⟩
  · generalize entries (F' dir) = ds' at hc ⊢
    cases hc with
    | won ino new => exact List.subset_append_left _ _
    | _ => exact List.Subset.refl _
  · rw [hst, hmade]
    generalize entries (F' dir) = ds' at hc ⊢
    cases hc with
    | won ino new =>
      rw [← Multiset.coe_add]
      simp [mine, entryOf]
    | _ => simp [mine, entryOf]
  · rintro _ r ⟨⟩
    rw [asked_snoc_of_ne (by simp [hthinks])]
    generalize entries (F' dir) = ds' at hc hnames ⊢
    cases hc with
    | won ino new => exact .inl ⟨ino, rfl⟩
    | lost known =>
      refine .inr ⟨rfl, ?_⟩
      by_contra hno
      exact known (findName_eq_none.2 hno)
    | found parent name => trivial
    | listed d =>
      exact ⟨_, rfl, hnames, fun d hd => h.created_subset (created_asked_subset i tr hd)⟩
  · intro task' he
    rw [hst] at he
    exact .inr he

theorem Accounts.mirror (h : Accounts dir n tr s) (hi : i < n)
    (hfits : ∀ task, lab = .think (.start task) → Fits dir task)
    (hm : Mirrors Task.inode (limits (2 ^ 31)) Task.program lab s.value (s.procs i) F' st') :
    Accounts dir n (tr ++ [(i, lab)]) ⟨F', Function.update s.procs i st'⟩ := by
  apply h.snoc hi
  generalize hst : s.procs i = st at hm
  generalize hF : s.value = F at hm
  cases hm with
  | start _ task =>
    subst hF
    refine ⟨h.valid, List.Subset.refl _, ?_, nofun, nofun, ?_, ?_, ?_⟩
    · simp [hst, mine, madeBy]
    · rw [hst]
      exact nofun
    · rintro _ ⟨⟩
      rfl
    · rintro _ ⟨⟩
      exact hfits task rfl
  | finish _ task r =>
    subst hF
    refine ⟨h.valid, List.Subset.refl _, ?_, nofun, ?_, ?_, nofun, nofun⟩
    · rw [hst]
      simp [mine, madeBy]
    · rintro _ _ ⟨⟩
      exact h.committed i task r hst
    · rw [hst]
      rintro _ ⟨⟩
      exact .inl ⟨r, rfl⟩
  | @commit _ _ _ task o hlab means =>
    subst hF
    obtain ⟨hv, hc⟩ := means_committed (h.fits i task (by rw [hst]; rfl)) h.valid means
    exact h.commit hlab hst hv hc
  | silent _ _ hlab =>
    subst hF
    obtain ⟨hthinks, hmade⟩ := thinks_of_silent hlab
    refine ⟨h.valid, List.Subset.refl _, ?_, ?_, fun task r he => absurd he (hlab _), ?_,
      fun task he => absurd he (hlab _), ?_⟩
    · rw [hst, hmade]
      simp
    · intro task r he
      rw [asked_snoc_of_ne (by simp [hthinks])]
      exact h.committed i task r (hst.trans he)
    · intro task he
      exact .inr (hst ▸ he)
    · intro task he
      exact h.fits i task (by rw [hst, he])

/-! ## The outcome -/

/-- A create of the name returns `OK`. -/
def wins (name : Str) (x : ClusterLabel Task Result) : Bool :=
  match x.2 with
  | .think (.finish (.create _ n) (.created r _)) => n = name ∧ r = OK
  | _ => false

theorem count_created {x : ClusterLabel Task Result} (name : Str)
    (h : ∀ task r, x.2 = .think (.finish task r) → Answered old ds task r) :
    (madeBy x.2).countP (·.name = name) = if wins name x then 1 else 0 := by
  obtain ⟨i, lab⟩ := x
  cases lab with
  | think e =>
    cases e with
    | start task => rfl
    | finish task r =>
      cases task with
      | create parent n =>
        rcases h _ _ rfl with ⟨ino, rfl⟩ | ⟨rfl, -⟩
        · simp [madeBy, entryOf, wins, List.countP_cons]
        · have hne : EXIST ≠ OK := by decide
          simp [madeBy, entryOf, wins, hne]
      | _ => rfl
  | _ => rfl

theorem countP_name_le {name : Str} (h : (ds.map Dirent.name).Nodup) :
    ds.countP (·.name = name) ≤ 1 := by
  have hcount := List.nodup_iff_count_le_one.1 h name
  rw [List.count, List.countP_map] at hcount
  refine le_of_eq_of_le (List.countP_congr fun d _ => ?_) hcount
  simp

/-- A name that is listed is listed once. -/
theorem filter_name (h : (ds.map Dirent.name).Nodup) {d : Dirent} (hd : d ∈ ds) :
    ds.filter (·.name = d.name) = [d] := by
  have hmem : d ∈ ds.filter (·.name = d.name) := List.mem_filter.2 ⟨hd, by simp⟩
  have hlen : (ds.filter (·.name = d.name)).length ≤ 1 := by
    rw [← List.countP_eq_length_filter]
    exact countP_name_le h
  obtain ⟨x, hx⟩ := List.length_eq_one_iff.1 (le_antisymm hlen (List.length_pos_of_mem hmem))
  rw [hx, List.mem_singleton] at hmem
  rw [hx, hmem]

/-- The winners among the creates of a name have made its entries. -/
theorem Accounts.countP_created (h : Accounts dir n tr s) (name : Str) :
    (created tr).countP (·.name = name) = tr.countP (wins name) := by
  have hends : ∀ x ∈ tr, (madeBy x.2).countP (·.name = name) = if wins name x then 1 else 0 := by
    intro x hx
    obtain ⟨pre, post, rfl⟩ := List.append_of_mem hx
    have hended : ∀ task r, x.2 = .think (.finish task r) →
        Answered (created (asked x.1 pre)) (entries (s.value dir)) task r := by
      intro task r he
      refine h.ended pre x.1 task r ?_
      rw [← he]
      exact ⟨post, by simp⟩
    exact count_created name hended
  clear h
  induction tr with
  | nil => rfl
  | cons x tr ih =>
    have htail := ih fun y hy => hends y (List.mem_cons_of_mem _ hy)
    rw [created] at htail
    rw [created, List.flatMap_cons, List.countP_append, hends x List.mem_cons_self, List.countP_cons,
      htail, Nat.add_comm]

theorem Accounts.once (h : Accounts dir n tr s) (name : Str) : tr.countP (wins name) ≤ 1 := by
  have hle : (created tr : Multiset Dirent) ≤ entries (s.value dir) := by
    rw [h.balance]
    exact Multiset.le_add_right _ _
  rw [← h.countP_created, ← Multiset.coe_countP]
  refine (Multiset.countP_le_of_le _ hle).trans ?_
  rw [Multiset.coe_countP]
  exact countP_name_le h.valid.names

theorem mem_mine {st : AtomicObjects.Status Task Result} {d : Dirent} (h : d ∈ mine st) :
    ∃ parent, st.task = some (.create parent d.name) := by
  match st, h with
  | .done (.create parent name) (some (.created r (some ino))), h =>
    simp only [mine, entryOf] at h
    split_ifs at h
    · obtain rfl := List.mem_singleton.1 h
      exact ⟨parent, rfl⟩
    · exact absurd h List.not_mem_nil

/-- A name that is in the directory was entered by a create that has returned, unless one is still
running. -/
theorem Accounts.won (h : Accounts dir n tr s) {name : Str}
    (hname : name ∈ (entries (s.value dir)).map Dirent.name)
    (hdone : ∀ i < n, (s.procs i).task ≠ some (.create dir name)) :
    0 < tr.countP (wins name) := by
  obtain ⟨d, hd, rfl⟩ := List.mem_map.1 hname
  rw [← Multiset.mem_coe, h.balance] at hd
  rw [← h.countP_created]
  rcases Multiset.mem_add.1 hd with hd | hd
  · exact List.countP_pos_iff.2 ⟨d, hd, by simp⟩
  · obtain ⟨i, hi, hd⟩ := Multiset.mem_sum.1 hd
    obtain ⟨parent, htask⟩ := mem_mine hd
    obtain rfl : parent = dir := (h.fits i _ htask).1
    exact absurd htask (hdone i (Finset.mem_range.1 hi))

theorem Accounts.create_ended (h : Accounts dir n tr s) {name : Str} {r : Result}
    (hr : (i, .think (.finish (.create dir name) r)) ∈ tr) :
    (∃ ino, r = .created OK (some ino)) ∨
      r = .created EXIST none ∧ name ∈ (entries (s.value dir)).map Dirent.name := by
  obtain ⟨pre, post, rfl⟩ := List.append_of_mem hr
  exact h.ended pre i (.create dir name) r ⟨post, by simp⟩

theorem Accounts.exactly (h : Accounts dir n tr s) {name : Str}
    (hstart : (i, .think (.start (.create dir name))) ∈ tr)
    (hdone : ∀ i < n, (s.procs i).task ≠ some (.create dir name)) : tr.countP (wins name) = 1 := by
  refine le_antisymm (h.once name) ?_
  obtain ⟨hi, ⟨r, hr⟩ | htask⟩ := h.started i _ hstart
  · rcases h.create_ended hr with ⟨ino, rfl⟩ | ⟨-, hname⟩
    · exact List.countP_pos_iff.2 ⟨_, hr, by simp [wins]⟩
    · exact h.won hname hdone
  · exact absurd htask (hdone i hi)

/-! ## Processes that do not die -/

/-- The directory can be copied, and no task has died. -/
structure Healthy (dir : Inum) (s : AtomicObjects.State ℕ (Inum → Str) Task Result) : Prop where
  reads : ∃ slots, Reads slots (s.value dir)
  fits : ∀ i task, s.procs i = .pending task → Fits dir task
  returns : ∀ i task, s.procs i ≠ .done task none

theorem healthy_start {F : Inum → Str} (hF : F dir = newdir) : Healthy dir (AtomicObjects.start F) := by
  refine ⟨?_, nofun, nofun⟩
  show ∃ slots, Reads slots (F dir)
  obtain ⟨slots, hhas⟩ := valid_newdir
  rw [hF]
  exact ⟨slots, hhas, by decide⟩

/-- As long as the directory can be copied, every task returns. -/
theorem means_returns {F F' : Inum → Str} {slots : List Slot} {r : Option Result}
    (hfits : Fits dir task) (hreads : Reads slots (F dir))
    (hm : Means Task.inode (limits (2 ^ 31 - 1)) Task.program task F F' r) :
    r ≠ none ∧ ∃ slots', Reads slots' (F' dir) := by
  obtain ⟨rfl, hproper⟩ := hfits.proper
  obtain ⟨ino, slots', w, -, hhas', hw, rfl, happly⟩ :=
    dir_means (by decide) hproper (decide_eq_true rfl) hreads hm
  rw [Function.update_self]
  refine ⟨?_, slots', hhas', ?_⟩
  · rintro rfl
    cases task with
    | create parent name =>
      rw [Task.apply] at happly
      cases hfind : findName name (listing slots) <;> simp [hfind] at happly
    | lookup | readdir => simp [Task.apply] at happly
    | read | write | setattr => exact hfits.elim
  · rcases hw with rfl | hlt
    · exact hreads.2
    · omega

theorem Healthy.mirror (h : Healthy dir s) (hfits : ∀ task, lab = .think (.start task) → Fits dir task)
    (hm : Mirrors Task.inode (limits (2 ^ 31 - 1)) Task.program lab s.value (s.procs i) F' st') :
    Healthy dir ⟨F', Function.update s.procs i st'⟩ := by
  have hkeep : (∃ slots, Reads slots (F' dir)) → (∀ task, st' = .pending task → Fits dir task) →
      (∀ task, st' ≠ .done task none) → Healthy dir ⟨F', Function.update s.procs i st'⟩ := by
    refine fun hreads hpending hdone => ⟨hreads, fun j task hj => ?_, fun j task hj => ?_⟩
    all_goals
      dsimp only at hj
      by_cases hji : j = i
    · subst hji
      rw [Function.update_self] at hj
      exact hpending task hj
    · rw [Function.update_of_ne hji] at hj
      exact h.fits j task hj
    · subst hji
      rw [Function.update_self] at hj
      exact hdone task hj
    · rw [Function.update_of_ne hji] at hj
      exact h.returns j task hj
  generalize hst : s.procs i = st at hm
  generalize hF : s.value = F at hm
  cases hm with
  | start _ task =>
    subst hF
    refine hkeep h.reads ?_ nofun
    rintro _ ⟨⟩
    exact hfits task rfl
  | finish _ task r =>
    subst hF
    exact hkeep h.reads nofun nofun
  | @commit _ _ _ task o hlab means =>
    subst hF
    obtain ⟨slots, hreads⟩ := h.reads
    obtain ⟨hreturns, hreads'⟩ := means_returns (h.fits i task hst) hreads means
    refine hkeep hreads' nofun ?_
    rintro _ ⟨⟩
    exact hreturns rfl
  | silent _ _ hlab =>
    subst hF
    exact hkeep h.reads (fun task he => h.fits i task (hst.trans he))
      fun task he => h.returns i task (hst.trans he)

/-! ## The result -/

/-- How creates and listings end that are carried out at the same time. No process dies while the
directory is short enough to be copied. -/
structure Exact (dir : Inum) (tr : List (ClusterLabel Task Result)) (g : Cluster Task Result) :
    Prop where
  once : ∀ name, tr.countP (wins name) ≤ 1
  results : ∀ i name r, (i, .think (.finish (.create dir name) r)) ∈ tr →
    (∃ ino, r = .created OK (some ino)) ∨ r = .created EXIST none
  exactly : ∀ i name, (i, .think (.start (.create dir name))) ∈ tr →
    (∀ t ∈ g.threads, t.loc.job.map Prod.fst ≠ some (.create dir name)) → tr.countP (wins name) = 1
  listed : ∀ i res tr₁ tr₂ tr₃, tr = tr₁ ++ (i, .think (.start (.readdir dir))) :: tr₂ ++
      (i, .think (.finish (.readdir dir) res)) :: tr₃ → (∀ e, (i, .think e) ∉ tr₂) →
    ∃ ds, res = .listed OK ds ∧ (ds.map Dirent.name).Nodup ∧
      ∀ j name ino, (j, .think (.finish (.create dir name) (.created OK (some ino)))) ∈ tr₁ →
        ds.filter (·.name = name) = [⟨name, ino⟩]
  alive : Stores (limits (2 ^ 31 - 1)) tr →
    ∀ t ∈ g.threads, ∀ task e, t.loc.job ≠ some (task, .fault e)

section
variable {g₀ g : Cluster Task Result}

theorem run_healthy {size : ℕ} (h₀ : Starts (limits size) g₀)
    (hnew : g₀.shared.store.content dir = newdir)
    (hr : Run (CallStackMachines.Step machine (processes Task.program)) g₀ tr g)
    (hfits : ∀ i task, (i, .start task) ∈ history tr → Fits dir task)
    (hst : Stores (limits (2 ^ 31 - 1)) tr) {t : ProcessThread Task Result} (ht : t ∈ g.threads)
    (task : Task) (e : Fault) : t.loc.job ≠ some (task, .fault e) := by
  have h₀' : Starts (limits (2 ^ 31 - 1)) g₀ := ⟨h₀.fresh, h₀.idle, h₀.supply⟩
  obtain ⟨s, hinv, hhealthy⟩ := run_invariant (J := fun _ s => Healthy dir s) guarded h₀' hr hst
    (healthy_start hnew) fun done i lab s F' st' hpre _ h hm =>
      h.mirror (fun task he => hfits i task (mem_history (hpre.subset (by simp [he])))) hm
  obtain ⟨i, hi⟩ := List.mem_iff_getElem?.1 ht
  intro hjob
  rcases (hinv.knows i t hi).died hjob with hdone | ⟨hpending, F', hm⟩
  · exact hhealthy.returns i task hdone
  · obtain ⟨slots, hreads⟩ := hhealthy.reads
    exact (means_returns (hhealthy.fits i task hpending) hreads hm).1 rfl

/-- Among the creates of one name that any number of processes carry out, one wins and the others
find the name, and every listing shows the winners that had returned when it was asked for. -/
theorem creates_exact (h₀ : Starts (limits (2 ^ 31)) g₀)
    (hnew : g₀.shared.store.content dir = newdir)
    (hr : Run (CallStackMachines.Step machine (processes Task.program)) g₀ tr g)
    (hfits : ∀ i task, (i, .start task) ∈ history tr → Fits dir task)
    (hst : Stores (limits (2 ^ 31)) tr) : Exact dir tr g := by
  obtain ⟨s, hinv, hacc⟩ := run_invariant (J := Accounts dir g₀.threads.length) guarded h₀ hr hst
    (accounts_start hnew) fun done i lab s F' st' hpre hi h hm =>
      h.mirror hi (fun task he => hfits i task (mem_history (hpre.subset (by simp [he])))) hm
  refine ⟨hacc.once, ?_, ?_, ?_, fun hshort t ht => run_healthy h₀ hnew hr hfits hshort ht⟩
  · intro i name r hx
    exact (hacc.create_ended hx).imp_right fun h => h.1
  · intro i name hstart hdone
    refine hacc.exactly hstart fun j hj htask => ?_
    have hget := List.getElem?_eq_getElem (hinv.count ▸ hj)
    exact hdone _ (List.mem_of_getElem? hget) ((hinv.knows j _ hget).job.trans htask)
  · rintro i res tr₁ tr₂ tr₃ rfl hno
    obtain ⟨ds, hres, hnodup, hold⟩ := hacc.ended (tr₁ ++ (i, .think (.start (.readdir dir))) :: tr₂) i
      (.readdir dir) res ⟨tr₃, by simp⟩
    rw [asked_append hno rfl] at hold
    refine ⟨ds, hres, hnodup, fun j name ino hx => ?_⟩
    have hmade : (⟨name, ino⟩ : Dirent) ∈ created tr₁ :=
      List.mem_flatMap.2 ⟨_, hx, by simp [madeBy, entryOf]⟩
    exact filter_name hnodup (hold hmade)

end

/-- The first process is in the middle of its create when the second one asks for the lock; later
the second one lists the directory. -/
def contended : List (ℕ × Task) :=
  List.replicate 12 (0, .create 1 [97]) ++ List.replicate 6 (1, .create 1 [97]) ++
    List.replicate 25 (0, .create 1 [97]) ++ List.replicate 13 (1, .create 1 [97]) ++
      List.replicate 11 (1, .readdir 1)

/-- Two processes want the same name. -/
theorem creates_exact_contended : ∃ tr g,
    Run (CallStackMachines.Step machine (processes Task.program)) twoClients tr g ∧
      Starts (limits (2 ^ 31)) twoClients ∧ Stores (limits (2 ^ 31 - 1)) tr ∧
      history tr =
        [(0, .start (.create 1 [97])), (1, .start (.create 1 [97])),
          (0, .finish (.created OK (some 2))), (1, .finish (.created EXIST none)),
          (1, .start (.readdir 1)), (1, .finish (.listed OK [⟨[97], 2⟩]))] ∧ Exact 1 tr g := by
  have hobs : (moves Task.program contended twoClients).map
      (fun x => (history x.1, x.1.all storesBelow)) =
    some ([(0, .start (.create 1 [97])), (1, .start (.create 1 [97])),
      (0, .finish (.created OK (some 2))), (1, .finish (.created EXIST none)),
      (1, .start (.readdir 1)), (1, .finish (.listed OK [⟨[97], 2⟩]))], true) := by
    decide +kernel
  obtain ⟨⟨tr, g⟩, hm, hseen⟩ := Option.map_eq_some_iff.1 hobs
  obtain ⟨hhist, hbelow⟩ := Prod.mk.inj hseen
  have hst := stores_of_below hbelow
  refine ⟨tr, g, run_moves hm, twoClients_starts, hst, hhist, ?_⟩
  refine creates_exact twoClients_starts rfl (run_moves hm) ?_ fun i c e buf hmem =>
    (hst i c e buf hmem).trans (by decide)
  intro i task hmem
  rw [hhist] at hmem
  simp only [List.mem_cons, Prod.mk.injEq, AtomicObjects.Event.start.injEq, reduceCtorEq, and_false,
    false_or, or_false, List.not_mem_nil] at hmem
  obtain ⟨-, rfl⟩ | ⟨-, rfl⟩ | ⟨-, rfl⟩ := hmem <;> decide

end Yfs.ConcurrentCreates
