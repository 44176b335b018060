import Yfs.LabelledRuns
import Yfs.LockProtocol
import Yfs.PartialMaps
import Mathlib.Data.Multiset.Count
import Mathlib.Data.Finset.Basic

/-!
# Handles

The lock server reaches its clients through `handle` objects, which share one `hinfo` per name. An
`hinfo` counts the handles that point to it. One that was deleted, or whose `bind` has failed, is
freed with its last handle; until then its name can not be used.
-/

namespace Yfs.Handles
open LabelledRuns PartialMaps
open LockProtocol (Str)

structure Hinfo where
  cl : Option ℕ := none
  refcnt : ℤ := 1
  del : Bool := false
  m : Str
  deriving DecidableEq, Repr

/-- A `handle` object: which one it is, the name it was made for, and its pointer. -/
structure Handle where
  id : ℕ
  m : Str
  h : Option ℕ
  deriving DecidableEq, Repr

/-- The handle manager and the memory that it uses. Objects are numbered in the order in which they
are made; `freed` lists the `hinfo` objects that were deleted, as they were then. -/
structure Mgr where
  hmap : Str → Option ℕ := fun _ => none
  heap : ℕ → Option Hinfo := fun _ => none
  hinfos : ℕ := 0
  freed : List (ℕ × Hinfo) := []
  rpccs : Finset ℕ := ∅
  made : ℕ := 0

def Mgr.setInfo (s : Mgr) (p : ℕ) (i : Hinfo) : Mgr :=
  { s with heap := Function.update s.heap p (some i) }

/-- `handle_mgr::get_handle`. The result is `none` when freed memory is used, here and below. -/
def getHandle (m : Str) (s : Mgr) : Option (Mgr × Option ℕ) :=
  match s.hmap m with
  | none =>
    some ({ s with heap := Function.update s.heap s.hinfos (some { m := m }),
                   hinfos := s.hinfos + 1,
                   hmap := Function.update s.hmap m (some s.hinfos) }, some s.hinfos)
  | some p => do
    let i ← s.heap p
    if i.del then some (s, none)
    else some (s.setInfo p { i with refcnt := i.refcnt + 1 }, some p)

/-- `delete cl` -/
def deleteRpcc (c : ℕ) (s : Mgr) : Option Mgr :=
  if c ∈ s.rpccs then some { s with rpccs := s.rpccs.erase c } else none

/-- `if (h->cl) { h->cl->cancel(); delete h->cl; }` -/
def deleteCl (cl : Option ℕ) (s : Mgr) : Option Mgr :=
  match cl with
  | none => some s
  | some c => deleteRpcc c s

/-- `delete h` -/
def deleteHinfo (p : ℕ) (s : Mgr) : Option Mgr := do
  let i ← s.heap p
  some { s with heap := Function.update s.heap p none, freed := s.freed ++ [(p, i)] }

/-- `handle_mgr::delete_handle_wo`, and `delete_handle`. -/
def deleteHandleWo (m : Str) (s : Mgr) : Option Mgr :=
  match s.hmap m with
  | none => some s
  | some p => do
    let i ← s.heap p
    if i.refcnt = 0 then do
      let s ← deleteCl i.cl s
      deleteHinfo p { s with hmap := Function.update s.hmap m none }
    else some (s.setInfo p { i with del := true })

/-- `handle_mgr::done_handle`. -/
def doneHandle (p : ℕ) (s : Mgr) : Option Mgr := do
  let i ← s.heap p
  let i := { i with refcnt := i.refcnt - 1 }
  if i.refcnt = 0 ∧ i.del then deleteHandleWo i.m (s.setInfo p i)
  else some (s.setInfo p i)

/-- `handle::~handle`. -/
def destroy (x : Handle) (s : Mgr) : Option Mgr :=
  match x.h with
  | none => some s
  | some p => doneHandle p s

/-- `handle::safebind`, where `ret` is what `bind` returns if it is called. -/
def safebind (x : Handle) (ret : ℤ) (s : Mgr) : Option (Mgr × Option ℕ) :=
  match x.h with
  | none => some (s, none)
  | some p => do
    let i ← s.heap p
    if i.del then some (s, none)
    else match i.cl with
      | some c => some (s, some c)
      | none =>
        let c := s.made
        let s := { s with made := c + 1, rpccs := insert c s.rpccs }
        if ret < 0 then do
          let s ← deleteRpcc c s
          some (s.setInfo p { i with del := true }, i.cl)
        else some (s.setInfo p { i with cl := some c }, some c)

/-! ## Runs -/

structure Process where
  mgr : Mgr := {}
  live : Multiset Handle := 0
  handles : ℕ := 0

inductive Label where
  | constructed (x : Handle)
  | destroyed (x : Handle)
  | bound (x : Handle) (ret : ℤ) (result : Option ℕ)
  | deleted (m : Str)
  deriving DecidableEq, Repr

inductive Step : Process → Label → Process → Prop where
  | construct {s : Process} {m : Str} {mgr : Mgr} {p : Option ℕ}
      (h : getHandle m s.mgr = some (mgr, p)) :
      Step s (.constructed ⟨s.handles, m, p⟩) ⟨mgr, ⟨s.handles, m, p⟩ ::ₘ s.live, s.handles + 1⟩
  | destroy {s : Process} {x : Handle} {mgr : Mgr} (hx : x ∈ s.live)
      (h : destroy x s.mgr = some mgr) :
      Step s (.destroyed x) ⟨mgr, s.live.erase x, s.handles⟩
  | safebind {s : Process} {x : Handle} {ret : ℤ} {mgr : Mgr} {result : Option ℕ} (hx : x ∈ s.live)
      (h : safebind x ret s.mgr = some (mgr, result)) :
      Step s (.bound x ret result) ⟨mgr, s.live, s.handles⟩
  | delete {s : Process} {m : Str} {mgr : Mgr} (h : deleteHandleWo m s.mgr = some mgr) :
      Step s (.deleted m) ⟨mgr, s.live, s.handles⟩

/-! ## The invariant -/

/-- The number of handles that point to an `hinfo`. -/
def refs (live : Multiset Handle) (p : ℕ) : ℕ := live.countP fun x => x.h = some p

/-- What holds between any two operations, when the handles `live` exist. -/
structure Inv (live : Multiset Handle) (s : Mgr) : Prop where
  named : ∀ m p, s.hmap m = some p ↔ ∃ i, s.heap p = some i ∧ i.m = m
  bounded : ∀ p i, s.heap p = some i → p < s.hinfos
  counted : ∀ p i, s.heap p = some i → i.refcnt = refs live p
  points : ∀ x ∈ live, ∀ p, x.h = some p → ∃ i, s.heap p = some i ∧ i.m = x.m
  waits : ∀ p i, s.heap p = some i → i.del = true → 0 < refs live p
  freedOnce : (s.freed.map Prod.fst).Nodup
  freedIdle : ∀ x ∈ s.freed, x.2.refcnt = 0
  freedIff : ∀ p, p ∈ s.freed.map Prod.fst ↔ p < s.hinfos ∧ s.heap p = none
  rpcc : ∀ p i c, s.heap p = some i → i.cl = some c → c ∈ s.rpccs
  rpccInj : ∀ p q i j c, s.heap p = some i → s.heap q = some j → i.cl = some c → j.cl = some c →
    p = q
  rpccMade : ∀ c ∈ s.rpccs, c < s.made

variable {s s' : Mgr} {live live' : Multiset Handle} {x : Handle} {p q c : ℕ} {i i' : Hinfo}
  {m : Str} {ret : ℤ}

theorem inv_start : Inv 0 {} where
  named m p := by simp
  bounded p i h := by cases h
  counted p i h := by cases h
  points x hx := by cases hx
  waits p i h := by cases h
  freedOnce := List.nodup_nil
  freedIdle x hx := by cases hx
  freedIff p := by simp
  rpcc p i c h := by cases h
  rpccInj p q i j c h := by cases h
  rpccMade c hc := by simp at hc

/-- Two names have two `hinfo`s. -/
theorem Inv.eq_of_name (h : Inv live s) {j : Hinfo} (hp : s.heap p = some i)
    (hq : s.heap q = some j) (hm : i.m = j.m) : p = q := by
  have h₁ := (h.named i.m p).2 ⟨i, hp, rfl⟩
  have h₂ := (h.named i.m q).2 ⟨j, hq, hm.symm⟩
  exact Option.some.inj (h₁.symm.trans h₂)

@[simp] theorem setInfo_heap_self : (s.setInfo p i).heap p = some i := Function.update_self ..

@[simp] theorem setInfo_heap_of_ne (h : q ≠ p) : (s.setInfo p i).heap q = s.heap q :=
  Function.update_of_ne h ..

/-- An `hinfo` is changed, and so may be the handles that point to it. -/
theorem Inv.setInfo (h : Inv live s) (hp : s.heap p = some i) (hm : i'.m = i.m)
    (hcount : i'.refcnt = refs live' p) (hothers : ∀ q, q ≠ p → refs live' q = refs live q)
    (hpoints : ∀ y ∈ live', y ∈ live ∨ y.h = none ∨ y.h = some p ∧ y.m = i.m)
    (hdel : i'.del = true → 0 < refs live' p)
    (hrpcc : ∀ c, i'.cl = some c → c ∈ s.rpccs ∧ ∀ q j, q ≠ p → s.heap q = some j → j.cl ≠ some c) :
    Inv live' (s.setInfo p i') := by
  have hsome : ∀ q j, (s.setInfo p i').heap q = some j →
      q = p ∧ j = i' ∨ q ≠ p ∧ s.heap q = some j := fun _ _ => update_some_iff.1
  have hkept : ∀ q j, s.heap q = some j →
      ∃ j', (s.setInfo p i').heap q = some j' ∧ j'.m = j.m := by
    intro q j hj
    by_cases hq : q = p
    · subst hq
      obtain rfl := Option.some.inj (hj.symm.trans hp)
      exact ⟨i', setInfo_heap_self, hm⟩
    · exact ⟨j, by rw [setInfo_heap_of_ne hq, hj], rfl⟩
  refine ⟨?_, ?_, ?_, ?_, ?_, h.freedOnce, h.freedIdle, ?_, ?_, ?_, h.rpccMade⟩
  · intro m q
    rw [show (s.setInfo p i').hmap = s.hmap from rfl, h.named]
    constructor
    · rintro ⟨j, hj, rfl⟩
      exact hkept q j hj
    · rintro ⟨j, hj, rfl⟩
      rcases hsome q j hj with ⟨rfl, rfl⟩ | ⟨-, hj⟩
      · exact ⟨i, hp, hm.symm⟩
      · exact ⟨j, hj, rfl⟩
  · intro q j hj
    rcases hsome q j hj with ⟨rfl, -⟩ | ⟨-, hj⟩
    · exact h.bounded _ i hp
    · exact h.bounded q j hj
  · intro q j hj
    rcases hsome q j hj with ⟨rfl, rfl⟩ | ⟨hq, hj⟩
    · exact hcount
    · rw [hothers q hq]
      exact h.counted q j hj
  · intro y hy q hyq
    rcases hpoints y hy with hy | hnone | ⟨hyp, hym⟩
    · obtain ⟨j, hj, hjm⟩ := h.points y hy q hyq
      obtain ⟨j', hj', hm'⟩ := hkept q j hj
      exact ⟨j', hj', hm'.trans hjm⟩
    · cases hnone.symm.trans hyq
    · obtain rfl : p = q := Option.some.inj (hyp.symm.trans hyq)
      exact ⟨i', setInfo_heap_self, hm.trans hym.symm⟩
  · intro q j hj hjd
    rcases hsome q j hj with ⟨rfl, rfl⟩ | ⟨hq, hj⟩
    · exact hdel hjd
    · rw [hothers q hq]
      exact h.waits q j hj hjd
  · intro q
    rw [show (s.setInfo p i').freed = s.freed from rfl, h.freedIff]
    refine and_congr_right fun _ => ?_
    by_cases hq : q = p
    · subst hq
      simp [hp]
    · rw [setInfo_heap_of_ne hq]
  · intro q j c hj hjc
    rcases hsome q j hj with ⟨rfl, rfl⟩ | ⟨-, hj⟩
    · exact (hrpcc c hjc).1
    · exact h.rpcc q j c hj hjc
  · intro q r j k c hj hk hjc hkc
    rcases hsome q j hj with ⟨hq, hji⟩ | ⟨hq, hj⟩ <;> rcases hsome r k hk with ⟨hr, hki⟩ | ⟨hr, hk⟩
    · exact hq.trans hr.symm
    · rw [hji] at hjc
      exact absurd hkc ((hrpcc c hjc).2 r k hr hk)
    · rw [hki] at hkc
      exact absurd hjc ((hrpcc c hkc).2 q j hq hj)
    · exact h.rpccInj q r j k c hj hk hjc hkc

/-- What remains when an `hinfo` without handles is freed. -/
theorem Inv.remove (h : Inv live s) (hp : s.heap p = some i) (i' : Hinfo) (hidle : i'.refcnt = 0)
    (hnone : refs live' p = 0) (hothers : ∀ q, q ≠ p → refs live' q = refs live q)
    (hpoints : ∀ y ∈ live', y ∈ live) {rpccs : Finset ℕ} (hsub : rpccs ⊆ s.rpccs)
    (hrpccs : ∀ c ∈ s.rpccs, i.cl ≠ some c → c ∈ rpccs) :
    Inv live' { s with heap := Function.update s.heap p none,
                       hmap := Function.update s.hmap i.m none,
                       freed := s.freed ++ [(p, i')], rpccs := rpccs } := by
  have hiff : ∀ q j, Function.update s.heap p none q = some j ↔ q ≠ p ∧ s.heap q = some j :=
    fun _ _ => update_none_iff
  have hnew : p ∉ s.freed.map Prod.fst := by
    intro hmem
    cases ((h.freedIff p).1 hmem).2.symm.trans hp
  refine ⟨?_, ?_, ?_, ?_, ?_, ?_, ?_, ?_, ?_, ?_, fun c hc => h.rpccMade c (hsub hc)⟩
  · intro m q
    simp only [hiff]
    by_cases hm : m = i.m
    · subst hm
      rw [Function.update_self]
      refine iff_of_false (by simp) ?_
      rintro ⟨j, ⟨hq, hj⟩, hjm⟩
      exact hq (h.eq_of_name hj hp hjm)
    · rw [Function.update_of_ne hm, h.named]
      constructor
      · rintro ⟨j, hj, rfl⟩
        refine ⟨j, ⟨?_, hj⟩, rfl⟩
        rintro rfl
        obtain rfl := Option.some.inj (hj.symm.trans hp)
        exact hm rfl
      · rintro ⟨j, ⟨-, hj⟩, hjm⟩
        exact ⟨j, hj, hjm⟩
  · intro q j hj
    exact h.bounded q j ((hiff q j).1 hj).2
  · intro q j hj
    obtain ⟨hq, hj⟩ := (hiff q j).1 hj
    rw [hothers q hq]
    exact h.counted q j hj
  · intro y hy q hyq
    have hq : q ≠ p := by
      rintro rfl
      have hpos : 0 < refs live' q := Multiset.countP_pos_of_mem hy hyq
      omega
    obtain ⟨j, hj, hjm⟩ := h.points y (hpoints y hy) q hyq
    exact ⟨j, (hiff q j).2 ⟨hq, hj⟩, hjm⟩
  · intro q j hj hjd
    obtain ⟨hq, hj⟩ := (hiff q j).1 hj
    rw [hothers q hq]
    exact h.waits q j hj hjd
  · rw [List.map_append, List.nodup_append]
    refine ⟨h.freedOnce, List.nodup_singleton _, ?_⟩
    intro a ha b hb hab
    rw [List.map_singleton, List.mem_singleton] at hb
    rw [hab, hb] at ha
    exact hnew ha
  · intro y hy
    rcases List.mem_append.1 hy with hy | hy
    · exact h.freedIdle y hy
    · rw [List.mem_singleton.1 hy]
      exact hidle
  · intro q
    rw [List.map_append, List.mem_append, h.freedIff]
    by_cases hq : q = p
    · subst hq
      have hlt := h.bounded _ i hp
      simp [hlt]
    · simp [hq]
  · intro q j c hj hjc
    obtain ⟨hq, hj⟩ := (hiff q j).1 hj
    refine hrpccs c (h.rpcc q j c hj hjc) fun hic => hq ?_
    exact h.rpccInj q p j i c hj hp hjc hic
  · intro q r j k c hj hk
    exact h.rpccInj q r j k c ((hiff q j).1 hj).2 ((hiff r k).1 hk).2

/-! ## What each operation does -/

/-- Time has passed: no `hinfo` has come back, lost its mark or changed its connection. -/
structure Later (s s' : Mgr) : Prop where
  hinfos : s.hinfos ≤ s'.hinfos
  kept : ∀ p i', s'.heap p = some i' → p < s.hinfos → ∃ i, s.heap p = some i ∧ i'.m = i.m ∧
    (i.del = true → i'.del = true) ∧ ∀ c, i.cl = some c → i'.cl = some c

theorem refs_cons (x : Handle) (live : Multiset Handle) (p : ℕ) :
    refs (x ::ₘ live) p = refs live p + if x.h = some p then 1 else 0 := Multiset.countP_cons ..

theorem Later.refl (s : Mgr) : Later s s :=
  ⟨le_refl _, fun _ i h _ => ⟨i, h, rfl, id, fun _ hc => hc⟩⟩

theorem later_setInfo (hs : s'.hinfos = s.hinfos) (hheap : s'.heap = s.heap)
    (hp : s.heap p = some i) (hm : i'.m = i.m) (hdel : i.del = true → i'.del = true)
    (hcl : ∀ c, i.cl = some c → i'.cl = some c) : Later s (s'.setInfo p i') := by
  refine ⟨hs.ge, fun q j hj hlt => ?_⟩
  rcases update_some_iff.1 hj with ⟨rfl, rfl⟩ | ⟨-, hj⟩
  · exact ⟨i, hp, hm, hdel, hcl⟩
  · exact ⟨j, hheap ▸ hj, rfl, id, fun _ hc => hc⟩

theorem later_of_heap (hs : s'.hinfos = s.hinfos)
    (h : ∀ q j, s'.heap q = some j → s.heap q = some j) : Later s s' :=
  ⟨hs.ge, fun q j hj _ => ⟨j, h q j hj, rfl, id, fun _ hc => hc⟩⟩

theorem Inv.heap_hinfos (h : Inv live s) : s.heap s.hinfos = none := by
  cases hi : s.heap s.hinfos with
  | none => rfl
  | some i => exact absurd (h.bounded _ i hi) (lt_irrefl _)

theorem Inv.refs_hinfos (h : Inv live s) : refs live s.hinfos = 0 := by
  rw [refs, Multiset.countP_eq_zero]
  intro x hx hxp
  obtain ⟨i, hi, -⟩ := h.points x hx _ hxp
  cases h.heap_hinfos.symm.trans hi

/-- A new `hinfo` and the handle it was made for. -/
theorem Inv.add (h : Inv live s) (hm : s.hmap m = none) (k : ℕ) :
    Inv (⟨k, m, some s.hinfos⟩ ::ₘ live)
      { s with heap := Function.update s.heap s.hinfos (some { m := m }),
               hinfos := s.hinfos + 1,
               hmap := Function.update s.hmap m (some s.hinfos) } := by
  have hfree := h.heap_hinfos
  have hsome : ∀ q j, Function.update s.heap s.hinfos (some { m := m }) q = some j →
      q = s.hinfos ∧ j = { m := m } ∨ q ≠ s.hinfos ∧ s.heap q = some j :=
    fun _ _ => update_some_iff.1
  have hold : ∀ q j, s.heap q = some j →
      q ≠ s.hinfos ∧ Function.update s.heap s.hinfos (some { m := m }) q = some j := by
    intro q j hj
    have hq : q ≠ s.hinfos := by
      rintro rfl
      cases hfree.symm.trans hj
    exact ⟨hq, by rw [Function.update_of_ne hq, hj]⟩
  have hothers : ∀ q, q ≠ s.hinfos → refs (⟨k, m, some s.hinfos⟩ ::ₘ live) q = refs live q := by
    intro q hq
    rw [refs_cons, if_neg fun he => hq (Option.some.inj he).symm, Nat.add_zero]
  have hone : refs (⟨k, m, some s.hinfos⟩ ::ₘ live) s.hinfos = 1 := by
    rw [refs_cons, h.refs_hinfos, if_pos rfl]
  refine ⟨?_, ?_, ?_, ?_, ?_, h.freedOnce, h.freedIdle, ?_, ?_, ?_, h.rpccMade⟩
  · intro n q
    dsimp only
    by_cases hn : n = m
    · subst hn
      rw [Function.update_self]
      constructor
      · rintro ⟨⟩
        exact ⟨_, Function.update_self .., rfl⟩
      · rintro ⟨j, hj, hjm⟩
        rcases hsome q j hj with ⟨rfl, -⟩ | ⟨-, hj⟩
        · rfl
        · cases hm.symm.trans ((h.named n q).2 ⟨j, hj, hjm⟩)
    · rw [Function.update_of_ne hn, h.named]
      constructor
      · rintro ⟨j, hj, hjn⟩
        exact ⟨j, (hold q j hj).2, hjn⟩
      · rintro ⟨j, hj, hjn⟩
        rcases hsome q j hj with ⟨-, rfl⟩ | ⟨-, hj⟩
        · exact absurd hjn.symm hn
        · exact ⟨j, hj, hjn⟩
  · intro q j hj
    rcases hsome q j hj with ⟨rfl, -⟩ | ⟨-, hj⟩
    · exact Nat.lt_succ_self _
    · exact Nat.lt_succ_of_lt (h.bounded q j hj)
  · intro q j hj
    rcases hsome q j hj with ⟨rfl, rfl⟩ | ⟨hq, hj⟩
    · rw [hone]
      rfl
    · rw [hothers q hq]
      exact h.counted q j hj
  · intro y hy q hyq
    rcases Multiset.mem_cons.1 hy with rfl | hy
    · cases hyq
      exact ⟨_, Function.update_self .., rfl⟩
    · obtain ⟨j, hj, hjm⟩ := h.points y hy q hyq
      exact ⟨j, (hold q j hj).2, hjm⟩
  · intro q j hj hjd
    rcases hsome q j hj with ⟨rfl, rfl⟩ | ⟨hq, hj⟩
    · cases hjd
    · rw [hothers q hq]
      exact h.waits q j hj hjd
  · intro q
    rw [h.freedIff]
    by_cases hq : q = s.hinfos
    · simp [hq]
    · simp only [Function.update_of_ne hq]
      exact and_congr_left fun _ => by omega
  · intro q j c hj hjc
    rcases hsome q j hj with ⟨-, rfl⟩ | ⟨-, hj⟩
    · cases hjc
    · exact h.rpcc q j c hj hjc
  · intro q r j k c hj hk hjc hkc
    rcases hsome q j hj with ⟨-, rfl⟩ | ⟨-, hj⟩
    · cases hjc
    · rcases hsome r k hk with ⟨-, rfl⟩ | ⟨-, hk⟩
      · cases hkc
      · exact h.rpccInj q r j k c hj hk hjc hkc

/-- A handle that points nowhere does not count. -/
theorem Inv.congr (h : Inv live s) (hrefs : ∀ q, refs live' q = refs live q)
    (hpoints : ∀ y ∈ live', y ∈ live ∨ y.h = none) : Inv live' s := by
  refine ⟨h.named, h.bounded, ?_, ?_, ?_, h.freedOnce, h.freedIdle, h.freedIff, h.rpcc, h.rpccInj,
    h.rpccMade⟩
  · intro q j hj
    rw [hrefs]
    exact h.counted q j hj
  · intro y hy q hyq
    rcases hpoints y hy with hy | hnone
    · exact h.points y hy q hyq
    · cases hnone.symm.trans hyq
  · intro q j hj hjd
    rw [hrefs]
    exact h.waits q j hj hjd

theorem refs_cons_of_ne (h : x.h ≠ some p) : refs (x ::ₘ live) p = refs live p := by
  rw [refs_cons, if_neg h, Nat.add_zero]

theorem refs_cons_self (h : x.h = some p) : refs (x ::ₘ live) p = refs live p + 1 := by
  rw [refs_cons, if_pos h]

/-- The connection of an `hinfo` is its own. -/
theorem Inv.rpcc_own (h : Inv live s) (hp : s.heap p = some i) : ∀ c, i.cl = some c →
    c ∈ s.rpccs ∧ ∀ q j, q ≠ p → s.heap q = some j → j.cl ≠ some c :=
  fun c hc => ⟨h.rpcc p i c hp hc, fun q j hq hj hjc => hq (h.rpccInj q p j i c hj hp hjc hc)⟩

theorem getHandle_spec (h : Inv live s) (k : ℕ) (m : Str) : ∃ s' r,
    getHandle m s = some (s', r) ∧ Inv (⟨k, m, r⟩ ::ₘ live) s' ∧ Later s s' ∧
      (s.hmap m = none → r = some s.hinfos) ∧
      ∀ q j, s.hinfos ≤ q → s'.heap q = some j → r = some q ∧ j.m = m := by
  unfold getHandle
  cases hm : s.hmap m with
  | none =>
    refine ⟨_, _, rfl, h.add hm k, ?_, fun _ => rfl, ?_⟩
    · refine ⟨Nat.le_succ _, fun q j hj hlt => ?_⟩
      simp only [Function.update_of_ne hlt.ne] at hj
      exact ⟨j, hj, rfl, id, fun _ hc => hc⟩
    · intro q j hq hj
      rcases update_some_iff.1 hj with ⟨rfl, rfl⟩ | ⟨-, hj⟩
      · exact ⟨rfl, rfl⟩
      · exact absurd (h.bounded q j hj) (by omega)
  | some p =>
    obtain ⟨i, hp, him⟩ := (h.named m p).1 hm
    have hold : ∀ q j, s.hinfos ≤ q → s.heap q ≠ some j := fun q j hq hj =>
      absurd (h.bounded q j hj) (by omega)
    simp only [hp, Option.bind_eq_bind, Option.bind_some]
    split_ifs with hdel
    · refine ⟨s, none, rfl, ?_, .refl s, fun hnone => hnone.elim, ?_⟩
      · refine h.congr (fun q => refs_cons_of_ne (by simp)) ?_
        intro y hy
        rcases Multiset.mem_cons.1 hy with rfl | hy
        · exact .inr rfl
        · exact .inl hy
      · exact fun q j hq hj => absurd hj (hold q j hq)
    · refine ⟨_, some p, rfl, ?_, later_setInfo rfl rfl hp rfl (fun hd => hd) (fun _ hc => hc),
        fun hnone => hnone.elim, ?_⟩
      · refine h.setInfo hp rfl ?_ ?_ ?_ (fun hd => absurd hd hdel)
          (fun c hc => h.rpcc_own hp c hc)
        · rw [refs_cons_self rfl, h.counted p i hp]
          push_cast
          rfl
        · exact fun q hq => refs_cons_of_ne fun he => hq (Option.some.inj he).symm
        · intro y hy
          rcases Multiset.mem_cons.1 hy with rfl | hy
          · exact .inr (.inr ⟨rfl, him.symm⟩)
          · exact .inl hy
      · intro q j hq hj
        have hne : q ≠ p := by
          rintro rfl
          exact hold q i hq hp
        rw [setInfo_heap_of_ne hne] at hj
        exact absurd hj (hold q j hq)

/-- Deleting an `hinfo` that nobody uses frees it and its connection. -/
theorem deleteHandleWo_idle (hmap : s.hmap m = some p) (hp : s.heap p = some i)
    (hidle : i.refcnt = 0) (hcl : ∀ c, i.cl = some c → c ∈ s.rpccs) :
    ∃ rpccs ⊆ s.rpccs, (∀ c ∈ s.rpccs, i.cl ≠ some c → c ∈ rpccs) ∧ deleteHandleWo m s =
      some { s with heap := Function.update s.heap p none,
                    hmap := Function.update s.hmap m none,
                    freed := s.freed ++ [(p, i)], rpccs := rpccs } := by
  unfold deleteHandleWo
  simp only [hmap, hp, hidle, Option.bind_eq_bind, Option.bind_some, if_true]
  cases hc : i.cl with
  | none =>
    refine ⟨s.rpccs, Finset.Subset.refl _, fun c hc _ => hc, ?_⟩
    simp [deleteCl, deleteHinfo, hp]
  | some c =>
    refine ⟨s.rpccs.erase c, Finset.erase_subset _ _, ?_, ?_⟩
    · intro c' hc' hne
      exact Finset.mem_erase.2 ⟨fun he => hne (by rw [he]), hc'⟩
    · simp [deleteCl, deleteRpcc, deleteHinfo, hp, hcl c hc]

theorem deleteHandleWo_spec (h : Inv live s) (m : Str) : ∃ s', deleteHandleWo m s = some s' ∧
    Inv live s' ∧ (Later s s' ∧ s'.hinfos = s.hinfos) ∧
      ∀ q j, s'.heap q = some j → j.m = m → j.del = true := by
  cases hm : s.hmap m with
  | none =>
    refine ⟨s, by rw [deleteHandleWo, hm], h, ⟨.refl s, rfl⟩, ?_⟩
    intro q j hj hjm
    cases hm.symm.trans ((h.named m q).2 ⟨j, hj, hjm⟩)
  | some p =>
    obtain ⟨i, hp, rfl⟩ := (h.named m p).1 hm
    have hcount := h.counted p i hp
    by_cases hidle : i.refcnt = 0
    · obtain ⟨rpccs, hsub, hrpccs, he⟩ := deleteHandleWo_idle hm hp hidle fun c => h.rpcc p i c hp
      have hinv := h.remove hp i hidle (by omega) (fun _ _ => rfl) (fun _ hy => hy) hsub hrpccs
      refine ⟨_, he, hinv, ⟨later_of_heap rfl ?_, rfl⟩, ?_⟩
      · exact fun q j hj => (update_none_iff.1 hj).2
      · intro q j hj hjm
        have hnone := (hinv.named i.m q).2 ⟨j, hj, hjm⟩
        simp at hnone
    · have hpos : 0 < refs live p := by omega
      have he : deleteHandleWo i.m s = some (s.setInfo p { i with del := true }) := by
        simp [deleteHandleWo, hm, hp, hidle]
      refine ⟨_, he, h.setInfo hp rfl hcount (fun _ _ => rfl) (fun _ hy => .inl hy) (fun _ => hpos)
        (fun c hc => h.rpcc_own hp c hc),
        ⟨later_setInfo rfl rfl hp rfl (fun _ => rfl) (fun _ hc => hc), rfl⟩, ?_⟩
      intro q j hj hjm
      rcases update_some_iff.1 hj with ⟨rfl, rfl⟩ | ⟨hq, hj⟩
      · rfl
      · exact absurd (h.eq_of_name hj hp hjm) hq

theorem doneHandle_spec (h : Inv (x ::ₘ live) s) (hx : x.h = some p) : ∃ s',
    doneHandle p s = some s' ∧ Inv live s' ∧ Later s s' ∧ s'.hinfos = s.hinfos := by
  obtain ⟨i, hp, him⟩ := h.points x (Multiset.mem_cons_self x live) p hx
  have hcount := h.counted p i hp
  rw [refs_cons_self hx] at hcount
  have hothers : ∀ q, q ≠ p → refs live q = refs (x ::ₘ live) q := fun q hq =>
    (refs_cons_of_ne fun he => hq (Option.some.inj (he.symm.trans hx))).symm
  have hmem : ∀ y ∈ live, y ∈ x ::ₘ live := fun y => Multiset.mem_cons_of_mem
  unfold doneHandle
  simp only [hp, Option.bind_eq_bind, Option.bind_some]
  split_ifs with hlast
  · obtain ⟨hidle, hdel⟩ := hlast
    have hmap : (s.setInfo p { i with refcnt := i.refcnt - 1 }).hmap i.m = some p :=
      (h.named i.m p).2 ⟨i, hp, rfl⟩
    obtain ⟨rpccs, hsub, hrpccs, he⟩ := deleteHandleWo_idle hmap setInfo_heap_self hidle
      fun c => h.rpcc p i c hp
    have hinv := h.remove hp { i with refcnt := i.refcnt - 1 } hidle (by omega) hothers hmem hsub
      hrpccs
    refine ⟨_, he, ?_, later_of_heap rfl ?_, rfl⟩
    · simpa [Mgr.setInfo] using hinv
    · intro q j hj
      obtain ⟨hq, hj⟩ := update_none_iff.1 hj
      rwa [setInfo_heap_of_ne hq] at hj
  · refine ⟨_, rfl, h.setInfo hp rfl ?_ hothers (fun y hy => .inl (hmem y hy)) ?_
      (fun c hc => h.rpcc_own hp c hc),
      later_setInfo rfl rfl hp rfl (fun hd => hd) (fun _ hc => hc), rfl⟩
    · dsimp only
      omega
    · intro hd
      by_contra hnot
      exact hlast ⟨by omega, hd⟩

theorem destroy_spec (h : Inv (x ::ₘ live) s) : ∃ s', destroy x s = some s' ∧ Inv live s' ∧
    Later s s' ∧ s'.hinfos = s.hinfos := by
  unfold destroy
  cases hx : x.h with
  | none =>
    refine ⟨s, rfl, h.congr (fun q => ?_) (fun y hy => .inl (Multiset.mem_cons_of_mem hy)),
      .refl s, rfl⟩
    exact (refs_cons_of_ne (by simp [hx])).symm
  | some p => exact doneHandle_spec h hx

/-- More `rpcc` objects may exist than are in use. -/
theorem Inv.making (h : Inv live s) {made : ℕ} {rpccs : Finset ℕ} (hsub : s.rpccs ⊆ rpccs)
    (hmade : ∀ c ∈ rpccs, c < made) : Inv live { s with made := made, rpccs := rpccs } :=
  ⟨h.named, h.bounded, h.counted, h.points, h.waits, h.freedOnce, h.freedIdle, h.freedIff,
    fun p i c hp hc => hsub (h.rpcc p i c hp hc), h.rpccInj, hmade⟩

theorem safebind_spec (h : Inv live s) (hx : x ∈ live) (ret : ℤ) : ∃ s' r,
    safebind x ret s = some (s', r) ∧ Inv live s' ∧ (Later s s' ∧ s'.hinfos = s.hinfos) ∧
      ∀ p, x.h = some p → ∃ i, s'.heap p = some i ∧
        (r = none → i.del = true) ∧ ∀ c, r = some c → i.cl = some c := by
  unfold safebind
  cases hxp : x.h with
  | none => exact ⟨s, none, rfl, h, ⟨.refl s, rfl⟩, fun p hp => by cases hp⟩
  | some p =>
    obtain ⟨i, hp, -⟩ := h.points x hx p hxp
    have hpos : 0 < refs live p := Multiset.countP_pos_of_mem hx hxp
    have hown : ∀ {made : ℕ} {rpccs : Finset ℕ} {i' : Hinfo}, s.rpccs ⊆ rpccs →
        (∀ c ∈ rpccs, c < made) → i'.m = i.m → i'.refcnt = i.refcnt →
        (∀ c, i'.cl = some c → c ∈ rpccs ∧ ∀ q j, q ≠ p → s.heap q = some j → j.cl ≠ some c) →
        Inv live (Mgr.setInfo { s with made := made, rpccs := rpccs } p i') := by
      intro made rpccs i' hsub hmade hm hcount hrpcc
      exact (h.making hsub hmade).setInfo hp hm (hcount.trans (h.counted p i hp)) (fun _ _ => rfl)
        (fun _ hy => .inl hy) (fun _ => hpos) hrpcc
    have hless : ∀ c ∈ s.rpccs, c < s.made + 1 := fun c hc => Nat.lt_succ_of_lt (h.rpccMade c hc)
    have hnew : s.made ∉ s.rpccs := fun hm => lt_irrefl _ (h.rpccMade _ hm)
    simp only [hp, Option.bind_eq_bind, Option.bind_some]
    by_cases hdel : i.del = true
    · refine ⟨s, none, by simp [hdel], h, ⟨.refl s, rfl⟩, ?_⟩
      rintro q ⟨⟩
      exact ⟨i, hp, fun _ => hdel, nofun⟩
    · rw [if_neg hdel]
      cases hcl : i.cl with
      | some c =>
        refine ⟨s, some c, rfl, h, ⟨.refl s, rfl⟩, ?_⟩
        rintro q ⟨⟩
        exact ⟨i, hp, nofun, fun c' hc' => hcl.trans hc'⟩
      | none =>
        by_cases hret : ret < 0
        · refine ⟨Mgr.setInfo { s with made := s.made + 1 } p { i with del := true }, none, ?_,
            hown (Finset.Subset.refl _) hless rfl rfl (fun c hc => by cases hcl.symm.trans hc),
            ⟨later_setInfo rfl rfl hp rfl (fun _ => rfl) (fun _ hc => hc), rfl⟩, ?_⟩
          · simp [hret, deleteRpcc, Finset.erase_insert hnew, hcl]
          · rintro q ⟨⟩
            exact ⟨_, setInfo_heap_self, fun _ => rfl, nofun⟩
        · refine ⟨_, some s.made, if_neg hret, hown (Finset.subset_insert _ _) ?_ rfl rfl ?_,
            ⟨later_setInfo rfl rfl hp rfl (fun hd => hd) (fun c hc => by cases hcl.symm.trans hc),
              rfl⟩, ?_⟩
          · intro c hc
            rcases Finset.mem_insert.1 hc with rfl | hc
            · exact Nat.lt_succ_self _
            · exact hless c hc
          · rintro c ⟨⟩
            refine ⟨Finset.mem_insert_self _ _, fun q j _ hj hjc => hnew (h.rpcc q j _ hj hjc)⟩
          · rintro q ⟨⟩
            exact ⟨_, setInfo_heap_self, nofun, fun c hc => hc⟩

/-! ## Whole runs -/

section
variable {s s' s₁ s₂ : Process} {l : Label} {tr tr' : List Label} {x y : Handle} {c c' : ℕ}

theorem step_spec (h : Inv s.live s.mgr) (hs : Step s l s') : Inv s'.live s'.mgr ∧
    Later s.mgr s'.mgr ∧ ∀ q j, s.mgr.hinfos ≤ q → s'.mgr.heap q = some j →
      ∃ x, l = .constructed x ∧ x.h = some q ∧ x.m = j.m := by
  have hsame : ∀ {mgr : Mgr}, Inv s'.live mgr → mgr.hinfos = s.mgr.hinfos → ∀ q j,
      s.mgr.hinfos ≤ q → mgr.heap q = some j →
        ∃ x, l = .constructed x ∧ x.h = some q ∧ x.m = j.m := by
    intro mgr hinv hn q j hq hj
    exact absurd (hinv.bounded q j hj) (by omega)
  cases hs with
  | @construct m mgr r hget =>
    obtain ⟨_, _, he, hinv, hlater, -, hnew⟩ := getHandle_spec h s.handles m
    cases he.symm.trans hget
    exact ⟨hinv, hlater, fun q j hq hj => ⟨_, rfl, (hnew q j hq hj).1, (hnew q j hq hj).2.symm⟩⟩
  | @destroy x mgr hx hdone =>
    rw [← Multiset.cons_erase hx] at h
    obtain ⟨_, he, hinv, hlater, hn⟩ := destroy_spec h
    cases he.symm.trans hdone
    exact ⟨hinv, hlater, hsame hinv hn⟩
  | @safebind x ret mgr r hx hbind =>
    obtain ⟨_, _, he, hinv, ⟨hlater, hn⟩, -⟩ := safebind_spec h hx ret
    cases he.symm.trans hbind
    exact ⟨hinv, hlater, hsame hinv hn⟩
  | @delete m mgr hdelete =>
    obtain ⟨_, he, hinv, ⟨hlater, hn⟩, -⟩ := deleteHandleWo_spec h m
    cases he.symm.trans hdelete
    exact ⟨hinv, hlater, hsame hinv hn⟩

theorem run_inv (h : Inv s.live s.mgr) (hr : Run Step s tr s') : Inv s'.live s'.mgr :=
  hr.invariant h fun _ _ _ hb hs => (step_spec hb hs).1

/-- No operation uses freed memory. -/
structure Total (s : Process) : Prop where
  construct : ∀ m, ∃ x s', x.m = m ∧ Step s (.constructed x) s'
  destroy : ∀ x ∈ s.live, ∃ s', Step s (.destroyed x) s'
  safebind : ∀ x ∈ s.live, ∀ ret, ∃ r s', Step s (.bound x ret r) s'
  delete : ∀ m, ∃ s', Step s (.deleted m) s'

theorem Inv.total (h : Inv s.live s.mgr) : Total s := by
  constructor
  · intro m
    obtain ⟨mgr, r, he, -⟩ := getHandle_spec h s.handles m
    exact ⟨_, _, rfl, .construct he⟩
  · intro x hx
    have hcons := h
    rw [← Multiset.cons_erase hx] at hcons
    obtain ⟨mgr, he, -⟩ := destroy_spec hcons
    exact ⟨_, .destroy hx he⟩
  · intro x hx ret
    obtain ⟨mgr, r, he, -⟩ := safebind_spec h hx ret
    exact ⟨r, _, .safebind hx he⟩
  · intro m
    obtain ⟨mgr, he, -⟩ := deleteHandleWo_spec h m
    exact ⟨_, .delete he⟩

/-! ### Connections -/

/-- The connections that `safebind` has returned so far: each `hinfo` has had only one. -/
structure Agreed (tr : List Label) (s : Process) : Prop where
  kept : ∀ x ret c, .bound x ret (some c) ∈ tr → ∃ p, x.h = some p ∧ p < s.mgr.hinfos ∧
    ∀ i, s.mgr.heap p = some i → i.cl = some c
  same : ∀ x y ret ret' c c', .bound x ret (some c) ∈ tr → .bound y ret' (some c') ∈ tr →
    x.h = y.h → c = c'

theorem Later.kept_cl {s s' : Mgr} {p c : ℕ} (h : Later s s') (hp : p < s.hinfos)
    (hcl : ∀ i, s.heap p = some i → i.cl = some c) : ∀ i, s'.heap p = some i → i.cl = some c := by
  intro i' hi'
  obtain ⟨i, hi, -, -, hkept⟩ := h.kept p i' hi' hp
  exact hkept c (hcl i hi)

theorem agreed_snoc (h : Inv s.live s.mgr) (ha : Agreed tr s) (hs : Step s l s') :
    Agreed (tr ++ [l]) s' := by
  obtain ⟨hinv, hlater, -⟩ := step_spec h hs
  have hnew : ∀ x ret c, l = .bound x ret (some c) → ∃ p i, x.h = some p ∧
      s'.mgr.heap p = some i ∧ i.cl = some c := by
    rintro x ret c rfl
    cases hs with
    | @safebind _ _ mgr _ hx hbind =>
      obtain ⟨_, _, he, -, -, hres⟩ := safebind_spec h hx ret
      cases he.symm.trans hbind
      cases hxp : x.h with
      | none =>
        rw [safebind, hxp] at hbind
        cases hbind
      | some p =>
        obtain ⟨i, hi, -, hcl⟩ := hres p hxp
        exact ⟨p, i, rfl, hi, hcl c rfl⟩
  have hkept : ∀ x ret c, .bound x ret (some c) ∈ tr ++ [l] → ∃ p, x.h = some p ∧
      p < s'.mgr.hinfos ∧ ∀ i, s'.mgr.heap p = some i → i.cl = some c := by
    intro x ret c hmem
    rcases List.mem_append.1 hmem with hmem | hmem
    · obtain ⟨p, hxp, hlt, hcl⟩ := ha.kept x ret c hmem
      exact ⟨p, hxp, hlt.trans_le hlater.hinfos, hlater.kept_cl hlt hcl⟩
    · obtain ⟨p, i, hxp, hi, hcl⟩ := hnew x ret c (List.mem_singleton.1 hmem).symm
      refine ⟨p, hxp, hinv.bounded p i hi, fun j hj => ?_⟩
      rwa [← Option.some.inj (hi.symm.trans hj)]
  -- what a result has to agree with is still there when it is returned
  have hagree : ∀ x y ret ret' c c', l = .bound x ret (some c) →
      .bound y ret' (some c') ∈ tr ++ [l] → x.h = y.h → c = c' := by
    intro x y ret ret' c c' hl hy hxy
    obtain ⟨p, i, hxp, hi, hcl⟩ := hnew x ret c hl
    obtain ⟨q, hyq, -, hcl'⟩ := hkept y ret' c' hy
    obtain rfl : p = q := Option.some.inj (hxp.symm.trans (hxy.trans hyq))
    exact Option.some.inj (hcl.symm.trans (hcl' i hi))
  refine ⟨hkept, fun x y ret ret' c c' hx hy hxy => ?_⟩
  rcases List.mem_append.1 hx with hx' | hx'
  · rcases List.mem_append.1 hy with hy' | hy'
    · exact ha.same x y ret ret' c c' hx' hy' hxy
    · exact (hagree y x ret' ret c' c (List.mem_singleton.1 hy').symm hx hxy.symm).symm
  · exact hagree x y ret ret' c c' (List.mem_singleton.1 hx').symm hy hxy

theorem run_agreed (hr : Run Step {} tr s) : Agreed tr s :=
  hr.history_invariant ⟨nofun, nofun⟩ fun _ _ _ _ run ih hs =>
    agreed_snoc (run_inv inv_start run) ih hs

/-- Two handles of one name that point somewhere point to the same `hinfo`. -/
theorem Inv.same_hinfo {live : Multiset Handle} {s : Mgr} (h : Inv live s) {p q : ℕ} (hx : x ∈ live)
    (hy : y ∈ live) (hm : x.m = y.m) (hp : x.h = some p) (hq : y.h = some q) : p = q := by
  obtain ⟨i, hi, him⟩ := h.points x hx p hp
  obtain ⟨j, hj, hjm⟩ := h.points y hy q hq
  exact h.eq_of_name hi hj (him.trans (hm.trans hjm.symm))

/-! ### Names that can be used again -/

/-- The step after which the `hinfo` of the name is waiting for its end. -/
def Condemns (m : Str) : Label → Prop
  | .deleted n => n = m
  | .bound x _ none => x.m = m ∧ x.h ≠ none
  | _ => False

/-- All that there is for the name is marked. -/
def Condemned (m : Str) (s : Mgr) : Prop := ∀ p i, s.heap p = some i → i.m = m → i.del = true

theorem condemned_step {m : Str} (h : Inv s.live s.mgr) (hs : Step s l s') (hl : Condemns m l) :
    Condemned m s'.mgr := by
  cases hs with
  | construct => exact hl.elim
  | destroy => exact hl.elim
  | @delete n mgr hdelete =>
    obtain rfl : n = m := hl
    obtain ⟨_, he, -, -, hmarked⟩ := deleteHandleWo_spec h n
    cases he.symm.trans hdelete
    exact hmarked
  | @safebind x ret mgr r hx hbind =>
    cases r with
    | some c => exact hl.elim
    | none =>
      obtain ⟨hxm, hxp⟩ := hl
      obtain ⟨p, hp⟩ := Option.ne_none_iff_exists'.1 hxp
      obtain ⟨_, _, he, hinv, -, hres⟩ := safebind_spec h hx ret
      cases he.symm.trans hbind
      obtain ⟨i, hi, hdel, -⟩ := hres p hp
      obtain ⟨i₀, hi₀, him⟩ := hinv.points x hx p hp
      obtain rfl := Option.some.inj (hi.symm.trans hi₀)
      intro q j hj hjm
      obtain rfl := hinv.eq_of_name hj hi₀ (hjm.trans (hxm.symm.trans him.symm))
      rw [← Option.some.inj (hi.symm.trans hj)]
      exact hdel rfl

theorem condemned_kept {m : Str} (h : Inv s.live s.mgr) (hc : Condemned m s.mgr)
    (hs : Step s l s') (hnew : ∀ x, l = .constructed x → x.m = m → x.h = none) :
    Condemned m s'.mgr := by
  obtain ⟨-, hlater, hmade⟩ := step_spec h hs
  intro q j hj hjm
  by_cases hq : q < s.mgr.hinfos
  · obtain ⟨i, hi, hm, hdel, -⟩ := hlater.kept q j hj hq
    exact hdel (hc q i hi (hm.symm.trans hjm))
  · obtain ⟨x, hx, hxq, hxm⟩ := hmade q j (by omega) hj
    cases (hnew x hx (hxm.trans hjm)).symm.trans hxq

/-- Without handles a condemned name has no `hinfo`. -/
theorem Condemned.unmapped {m : Str} (h : Inv s.live s.mgr) (hc : Condemned m s.mgr)
    (hgone : ∀ y ∈ s.live, y.m = m → y.h = none) : s.mgr.hmap m = none := by
  cases hm : s.mgr.hmap m with
  | none => rfl
  | some p =>
    obtain ⟨i, hi, him⟩ := (h.named m p).1 hm
    obtain ⟨y, hy, hyp⟩ := Multiset.countP_pos.1 (h.waits p i hi (hc p i hi him))
    obtain ⟨j, hj, hjm⟩ := h.points y hy p hyp
    obtain rfl := Option.some.inj (hi.symm.trans hj)
    cases (hgone y hy (hjm.symm.trans him)).symm.trans hyp

theorem next_handle_new {m : Str} (h : Inv s.live s.mgr) (hs : Step s l s₁) (hl : Condemns m l)
    (hr : Run Step s₁ tr s₂) (hnone : ∀ y, .constructed y ∈ tr → y.m = m → y.h = none)
    (hgone : ∀ y ∈ s₂.live, y.m = m → y.h = none) (hnext : Step s₂ (.constructed x) s')
    (hx : x.m = m) : x.h = some s₂.mgr.hinfos := by
  have hinv₁ := (step_spec h hs).1
  have hcond : Condemned m s₂.mgr := by
    refine hr.history_invariant (I := fun tr s₂ =>
      (∀ y, .constructed y ∈ tr → y.m = m → y.h = none) → Condemned m s₂.mgr)
      (fun _ => condemned_step h hs hl) ?_ hnone
    intro tr b l c run ih hs hnone
    refine condemned_kept (run_inv hinv₁ run) (ih fun y hy => hnone y (by simp [hy])) hs ?_
    rintro y rfl
    exact hnone y (by simp)
  have hinv₂ := run_inv hinv₁ hr
  cases hnext with
  | @construct n mgr r hget =>
    obtain rfl : n = m := hx
    obtain ⟨_, _, he, -, -, hfresh, -⟩ := getHandle_spec hinv₂ s₂.handles n
    cases he.symm.trans hget
    exact hfresh (hcond.unmapped hinv₂ hgone)

/-- The counts are right: at most one `hinfo` exists for a name, it counts the handles that point
to it, it is freed once, when there is none, and no handle points to one that was freed. -/
structure Accounted (s : Process) : Prop where
  named : ∀ m p, s.mgr.hmap m = some p ↔ ∃ i, s.mgr.heap p = some i ∧ i.m = m
  counted : ∀ p i, s.mgr.heap p = some i → i.refcnt = s.live.countP fun x => x.h = some p
  freedOnce : (s.mgr.freed.map Prod.fst).Nodup
  freedIdle : ∀ x ∈ s.mgr.freed, x.2.refcnt = 0
  freedIff : ∀ p, p ∈ s.mgr.freed.map Prod.fst ↔ p < s.mgr.hinfos ∧ s.mgr.heap p = none
  points : ∀ x ∈ s.live, ∀ p, x.h = some p → p ∉ s.mgr.freed.map Prod.fst

theorem Inv.accounted (h : Inv s.live s.mgr) : Accounted s := by
  refine ⟨h.named, h.counted, h.freedOnce, h.freedIdle, h.freedIff, ?_⟩
  intro x hx p hp hfreed
  obtain ⟨i, hi, -⟩ := h.points x hx p hp
  cases ((h.freedIff p).1 hfreed).2.symm.trans hi

/-- Along every run the handles are accounted for and no operation uses freed memory; the
connections returned to handles of one name that exist at the same time are the same; and once the
name was deleted or its `bind` has failed, and no handle points to its `hinfo`, the next handle
gets a new one. -/
theorem handles_accounted (hr : Run Step {} tr s) : Accounted s ∧ Total s ∧
    (∀ tr' s' x y ret ret' c c', Run Step s tr' s' → x ∈ s.live → y ∈ s.live → x.m = y.m →
      .bound x ret (some c) ∈ tr ++ tr' → .bound y ret' (some c') ∈ tr ++ tr' → c = c') ∧
    ∀ m l s₁ tr' s₂ x s₃, Step s l s₁ → Condemns m l → Run Step s₁ tr' s₂ →
      (∀ y, .constructed y ∈ tr' → y.m = m → y.h = none) →
      (∀ y ∈ s₂.live, y.m = m → y.h = none) → Step s₂ (.constructed x) s₃ → x.m = m →
        x.h = some s₂.mgr.hinfos := by
  have hinv := run_inv inv_start hr
  refine ⟨hinv.accounted, hinv.total, ?_, ?_⟩
  · intro tr' s' x y ret ret' c c' hr' hx hy hm hxc hyc
    have hagreed := run_agreed (hr.append hr')
    obtain ⟨p, hp, -⟩ := hagreed.kept x ret c hxc
    obtain ⟨q, hq, -⟩ := hagreed.kept y ret' c' hyc
    refine hagreed.same x y ret ret' c c' hxc hyc ?_
    rw [hp, hq, hinv.same_hinfo hx hy hm hp hq]
  · intro m l s₁ tr' s₂ x s₃ hs hl hr' hnone hgone hnext hx
    exact next_handle_new hinv hs hl hr' hnone hgone hnext hx

/-- A handle whose connection was made, and another one that is gone. -/
theorem handles_accounted_two : ∃ tr s, Run Step {} tr s ∧
    .bound ⟨0, [7], some 0⟩ 0 (some 0) ∈ tr ∧ ⟨0, [7], some 0⟩ ∈ s.live ∧ Accounted s := by
  have h₁ : Step {} _ _ := .construct (m := [7]) rfl
  have h₂ := (Run.single h₁).snoc (.construct (m := [7]) rfl)
  have h₃ := h₂.snoc (l := .bound ⟨0, [7], some 0⟩ 0 (some 0)) (.safebind (by decide) rfl)
  have h₄ := h₃.snoc (.destroy (x := ⟨1, [7], some 0⟩) (by decide) rfl)
  exact ⟨_, _, h₄, by decide, by decide, (handles_accounted h₄).1⟩

/-- A connection is not deleted while a handle lives that it was returned to. -/
theorem result_exists (hr : Run Step {} tr s) (hx : x ∈ s.live) {ret : ℤ}
    (hc : .bound x ret (some c) ∈ tr) : c ∈ s.mgr.rpccs := by
  have hinv := run_inv inv_start hr
  obtain ⟨p, hp, -, hcl⟩ := (run_agreed hr).kept x ret c hc
  obtain ⟨i, hi, -⟩ := hinv.points x hx p hp
  exact hinv.rpcc p i c hi (hcl i hi)

end

end Yfs.Handles
