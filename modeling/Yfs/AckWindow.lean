import Yfs.RpcSystem
import Mathlib.Data.List.TakeWhile
import Mathlib.Order.Bounds.Basic

/-!
# What a client acknowledges

The front of `xid_rep_window_` is sent with every request and lets the server forget replies. It is
the largest number up to which all xids have been reported, however often and in whatever order
they were.
-/

namespace Yfs.AckWindow
open RpcSystem

/-! ## The loop with its iterator -/

/-- The inner loop at `compress`, with the list cut where the iterator stands, at `x`. When there
is nothing before `x`, the front is `x` itself and must not be popped. -/
def popFront (x : ℕ) : List ℕ → Option (List ℕ)
  | [] => if (x + 1) % 2 ^ 32 = x then none else some []
  | f :: pre => if (f + 1) % 2 ^ 32 = x then popFront x pre else some (f :: pre)

/-- The loop at `compress`; `none` when it pops the element that its iterator stands on. -/
def compressChecked (pre : List ℕ) : List ℕ → Option (List ℕ)
  | [] => some pre
  | x :: w => (popFront x pre).bind fun pre => compressChecked (pre ++ [x]) w

/-- `rpcc::update_xid_rep`, unless its iterator becomes invalid. -/
def updateChecked (xid : ℕ) (w : List ℕ) : Option (List ℕ) :=
  if xid ≤ first w then some w
  else match insertXid xid w with
    | [] => some []
    | f :: w => compressChecked [f] w

/-- The reports of a list of xids, one after the other. -/
def reports : List ℕ → List ℕ → Option (List ℕ)
  | [], w => some w
  | xid :: xids, w => (updateChecked xid w).bind (reports xids)

variable {A : ℕ → Prop} {w pre xids : List ℕ} {x xid : ℕ}

theorem popFront_eq (x : ℕ) (pre : List ℕ) :
    popFront x pre = some (pre.dropWhile fun f => (f + 1) % 2 ^ 32 = x) := by
  induction pre with
  | nil => exact if_neg (by omega)
  | cons f pre ih =>
    unfold popFront
    by_cases hf : (f + 1) % 2 ^ 32 = x
    · rw [if_pos hf, List.dropWhile_cons_of_pos (by simpa using hf)]
      exact ih
    · rw [if_neg hf, List.dropWhile_cons_of_neg (by simpa using hf)]

theorem compressChecked_eq (pre w : List ℕ) : compressChecked pre w = some (compress pre w) := by
  induction w generalizing pre with
  | nil => rfl
  | cons x w ih =>
    rw [compressChecked, popFront_eq, Option.bind_some, ih]
    rfl

/-- The iterator never becomes invalid. -/
theorem updateChecked_eq (xid : ℕ) (w : List ℕ) :
    updateChecked xid w = some (updateXidRep xid w) := by
  unfold updateChecked updateXidRep
  split_ifs
  · rfl
  · cases insertXid xid w with
    | nil => rfl
    | cons f w => exact compressChecked_eq [f] w

/-! ## Compression -/

/-- Nothing in the list follows its front directly. -/
def Compressed (w : List ℕ) : Prop := first w + 1 ∉ w

/-- The front is popped together with its copies, or not at all. -/
theorem dropWhile_compressed (hs : (pre ++ [x]).Pairwise (· ≤ ·)) (hc : Compressed pre)
    (hx : x < 2 ^ 32) : pre.dropWhile (fun f => (f + 1) % 2 ^ 32 = x) =
      if first pre + 1 = x then [] else pre := by
  obtain ⟨hpre, -, hle⟩ := List.pairwise_append.1 hs
  cases pre with
  | nil => simp
  | cons f pre =>
    have hfx : f ≤ x := hle f List.mem_cons_self x List.mem_cons_self
    have hfirst : first (f :: pre) = f := rfl
    rw [hfirst]
    split_ifs with hf
    · rw [List.dropWhile_eq_nil_iff]
      intro y hy
      -- what lies between `f` and `f + 1`, and is not `f + 1`, is another `f`
      have hfy : f ≤ y := by
        rcases List.mem_cons.1 hy with rfl | hy
        · exact le_refl _
        · exact List.rel_of_pairwise_cons hpre hy
      have hyx : y ≤ x := hle y hy x List.mem_cons_self
      have hne : y ≠ f + 1 := fun h => hc (h ▸ hy)
      have hy : (y + 1) % 2 ^ 32 = x := by omega
      simpa using hy
    · refine List.dropWhile_cons_of_neg ?_
      have hf' : (f + 1) % 2 ^ 32 ≠ x := by omega
      simpa using hf'

theorem compressed_singleton (x : ℕ) : Compressed [x] := by
  simp [Compressed, first]

theorem first_append (hne : pre ≠ []) : first (pre ++ w) = first pre := by
  cases pre with
  | nil => exact absurd rfl hne
  | cons f pre => rfl

/-- The loop leaves a compressed list, and drops nothing that is larger than the new front. -/
theorem compress_spec (hne : pre ≠ []) (hs : (pre ++ w).Pairwise (· ≤ ·)) (hc : Compressed pre)
    (hbig : ∀ x ∈ w, x < 2 ^ 32) :
    Compressed (compress pre w) ∧ first pre ≤ first (compress pre w) ∧
      ∀ x ∈ pre ++ w, first (compress pre w) < x → x ∈ compress pre w := by
  induction w generalizing pre with
  | nil => exact ⟨hc, le_refl _, fun x hx _ => by rwa [List.append_nil] at hx⟩
  | cons x w ih =>
    rw [List.append_cons] at hs
    have hpre := (List.pairwise_append.1 hs).1
    have hw : ∀ y ∈ w, y < 2 ^ 32 := fun y hy => hbig y (List.mem_cons_of_mem _ hy)
    rw [compress, dropWhile_compressed hpre hc (hbig x List.mem_cons_self)]
    split_ifs with hx
    · rw [List.nil_append]
      obtain ⟨h₁, h₂, h₃⟩ := ih (List.cons_ne_nil x [])
        (hs.sublist (by simp)) (compressed_singleton x) hw
      have hfirst : first [x] = x := rfl
      rw [hfirst] at h₂
      refine ⟨h₁, by omega, ?_⟩
      intro y hy hlt
      rcases List.mem_append.1 hy with hy | hy
      · -- what was popped is not larger than `x`
        have hyx := (List.pairwise_append.1 hpre).2.2 y hy x List.mem_cons_self
        omega
      · exact h₃ y hy hlt
    · have hfirst : first (pre ++ [x]) = first pre := first_append hne
      have hc' : Compressed (pre ++ [x]) := by
        intro hmem
        rw [hfirst, List.mem_append, List.mem_singleton] at hmem
        exact hmem.elim hc hx
      obtain ⟨h₁, h₂, h₃⟩ := ih (by simp) hs hc' hw
      rw [hfirst] at h₂
      refine ⟨h₁, h₂, ?_⟩
      intro y hy
      rw [List.append_cons] at hy
      exact h₃ y hy

/-! ## Exact windows -/

/-- The window of a client to which the xids with property `A` have been reported. -/
structure Exact (A : ℕ → Prop) (w : List ℕ) : Prop where
  covers : Covers A w
  above : ∀ x, A x → first w < x → x ∈ w
  compressed : Compressed w

theorem exact_start : Exact (fun _ => False) [0] where
  covers := ⟨by simp, List.pairwise_singleton _ _, by simp,
    fun x h₀ h => absurd h (Nat.not_le.2 h₀)⟩
  above _ h := h.elim
  compressed := compressed_singleton 0

theorem Exact.update (h : Exact A w) (hA : ∀ x, A x → x < 2 ^ 32) (hxid : xid < 2 ^ 32) :
    Exact (fun x => A x ∨ x = xid) (updateXidRep xid w) := by
  have hbig : ∀ x, (A x ∨ x = xid) → x < 2 ^ 32 := by
    rintro x (hx | rfl)
    · exact hA x hx
    · exact hxid
  have hcov : Covers (fun x => A x ∨ x = xid) w := h.covers.mono fun x hx => .inl hx
  have hcov' := (hcov.update (.inr rfl) hbig).1
  unfold updateXidRep at hcov' ⊢
  split_ifs at hcov' ⊢ with hle
  · refine ⟨hcov', ?_, h.compressed⟩
    rintro x (hx | rfl) hlt
    · exact h.above x hx hlt
    · omega
  · obtain ⟨hins, hfirst⟩ := hcov.insert (by omega) (.inr rfl)
    have hmem : ∀ x, (A x ∨ x = xid) → first w < x → x ∈ insertXid xid w := by
      intro x hx hlt
      exact mem_insertXid.2 (hx.symm.imp_right fun hx => h.above x hx hlt)
    generalize insertXid xid w = v at hcov' hins hfirst hmem ⊢
    cases v with
    | nil => exact absurd rfl hins.nonempty
    | cons f v =>
      have hv : ∀ y ∈ v, y < 2 ^ 32 := by
        intro y hy
        rcases hins.holds y (List.mem_cons_of_mem _ hy) with rfl | hy
        · decide
        · exact hbig y hy
      obtain ⟨h₁, h₂, h₃⟩ := compress_spec (List.cons_ne_nil f []) hins.sorted
        (compressed_singleton f) hv
      refine ⟨hcov', ?_, h₁⟩
      intro x hx hlt
      have hle : first w ≤ first (compress [f] v) := hfirst ▸ h₂
      exact h₃ x (hmem x hx (hle.trans_lt hlt)) hlt

theorem reports_exact (h : Exact A w) (hA : ∀ x, A x → x < 2 ^ 32)
    (hxids : ∀ x ∈ xids, x < 2 ^ 32) :
    ∃ w', reports xids w = some w' ∧ Exact (fun x => A x ∨ x ∈ xids) w' := by
  induction xids generalizing A w with
  | nil => exact ⟨w, rfl, by simpa using h⟩
  | cons xid xids ih =>
    have hxid := hxids xid List.mem_cons_self
    have hA' : ∀ x, (A x ∨ x = xid) → x < 2 ^ 32 := by
      rintro x (hx | rfl)
      · exact hA x hx
      · exact hxid
    obtain ⟨w', hw', hexact⟩ := ih (h.update hA hxid) hA' fun x hx =>
      hxids x (List.mem_cons_of_mem _ hx)
    refine ⟨w', ?_, ?_⟩
    · rw [reports, updateChecked_eq]
      exact hw'
    · simpa only [or_assoc, ← List.mem_cons] using hexact

/-- After any reports the window is sorted; its front is the largest number up to which every xid
was reported, and behind it are the other reported xids. The loop keeps its iterator valid. -/
theorem window_exact (hxids : ∀ x ∈ xids, 1 ≤ x ∧ x ≤ 2 ^ 32 - 2) :
    ∃ w, reports xids [0] = some w ∧ w ≠ [] ∧ w.Pairwise (· ≤ ·) ∧
      IsGreatest {k | ∀ x, 1 ≤ x → x ≤ k → x ∈ xids} (first w) ∧
      (∀ x ∈ xids, first w < x → x ∈ w) ∧ ∀ x, 1 ≤ x → x ∉ xids → x ∉ w := by
  have hbig : ∀ x ∈ xids, x < 2 ^ 32 := by
    intro x hx
    have hle := (hxids x hx).2
    omega
  obtain ⟨w, hw, hexact⟩ := reports_exact exact_start (fun x hx => hx.elim) hbig
  simp only [false_or] at hexact
  refine ⟨w, hw, hexact.covers.nonempty, hexact.covers.sorted, ⟨?_, ?_⟩, hexact.above, ?_⟩
  · exact hexact.covers.below
  · intro k hk
    by_contra hlt
    have hnext : first w + 1 ∈ xids := hk _ (by omega) (by omega)
    exact hexact.compressed (hexact.above _ hnext (by omega))
  · intro x hpos hno hx
    rcases hexact.covers.holds x hx with rfl | hx
    · omega
    · exact hno hx

theorem window_exact_repeated : ∃ w, reports [2, 2, 4, 1, 1, 4] [0] = some w ∧ first w = 2 := by
  have hxids : ∀ x ∈ [2, 2, 4, 1, 1, 4], 1 ≤ x ∧ x ≤ 2 ^ 32 - 2 := by decide
  obtain ⟨w, hw, -⟩ := window_exact hxids
  refine ⟨w, hw, ?_⟩
  have heval : reports [2, 2, 4, 1, 1, 4] [0] = some [2, 2, 4, 4] := by decide
  rw [Option.some.inj (hw.symm.trans heval)]
  rfl

end Yfs.AckWindow
