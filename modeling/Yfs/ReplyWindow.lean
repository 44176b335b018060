import Yfs.LabelledRuns
import Mathlib.Data.List.Sort
import Mathlib.Data.Int.Basic

/-!
# The reply list that the server keeps for a client

`rpcs` remembers which requests of a client it has seen in one list, sorted by xid. The
first entry only marks how far the client has got; requests at or below it are forgotten.
-/

namespace Yfs.ReplyWindow
open LabelledRuns

/-- `rpcs::reply_t`. What a reply buffer holds is of type `β`; `none` is the null pointer. -/
structure ReplyT (β : Type) where
  xid : ℕ
  cbPresent : Bool := false
  buf : Option β := none
  sz : ℤ := 0
  deriving DecidableEq, Repr

/-- `rpcs::rpcstate_t`, with the reply that is handed out with `DONE`. -/
inductive RpcState (β : Type) where
  | new
  | inProgress
  | done (b : Option β) (sz : ℤ)
  | forgotten
  deriving DecidableEq, Repr

variable {β : Type}

/-- The xid of the first entry. -/
def front : List (ReplyT β) → ℕ
  | [] => 0
  | r :: _ => r.xid

/-- The xid of the last entry. -/
def back (l : List (ReplyT β)) : ℕ := (l.getLast?.map ReplyT.xid).getD 0

/-- Make `xidRep` the first entry of what is left. -/
def reheaded (xidRep : ℕ) : List (ReplyT β) → List (ReplyT β)
  | [] => [{ xid := xidRep }]
  | r :: l => if r.xid ≠ xidRep then { xid := xidRep } :: r :: l else r :: l

/-- Drop what the client has acknowledged. -/
def trimmed (xidRep : ℕ) (l : List (ReplyT β)) : List (ReplyT β) :=
  if front l < xidRep then reheaded xidRep (l.dropWhile fun r => r.xid < xidRep) else l

/-- The loop that looks for `xid`, and the insertion where it stops. -/
def looked (xid : ℕ) : List (ReplyT β) → List (ReplyT β) × RpcState β
  | [] => ([{ xid := xid }], .new)
  | r :: l =>
    if r.xid = xid then (r :: l, if r.cbPresent then .done r.buf r.sz else .inProgress)
    else if xid < r.xid then ({ xid := xid } :: r :: l, .new)
    else (r :: (looked xid l).1, (looked xid l).2)

/-- `rpcs::checkduplicate_and_update` on the list of one client; `none` is the failed
assertion. -/
def checkDuplicateAndUpdate (xid xidRep : ℕ) (l : List (ReplyT β)) :
    Option (List (ReplyT β) × RpcState β) :=
  if xid ≤ xidRep then none
  else if l = [] then some ([{ xid := xidRep }, { xid := xid }], .new)
  else if xid ≤ front l then some (l, .forgotten)
  else if back (trimmed xidRep l) < xid then some (trimmed xidRep l ++ [{ xid := xid }], .new)
  else some (looked xid (trimmed xidRep l))

/-- `rpcs::add_reply` on the list of one client; `none` is a failed assertion. -/
def addReply (xid : ℕ) (b : β) (sz : ℤ) : List (ReplyT β) → Option (List (ReplyT β))
  | [] => none
  | r :: l =>
    if r.xid = xid then
      if r.cbPresent then none
      else some ({ r with buf := some b, sz := sz, cbPresent := true } :: l)
    else (addReply xid b sz l).map (r :: ·)

/-! ## Sorted lists -/

/-- Strictly increasing in xid. -/
def Increasing (l : List (ReplyT β)) : Prop := l.Pairwise fun a b => a.xid < b.xid

variable {l l' : List (ReplyT β)} {xid xidRep : ℕ} {b : β} {sz : ℤ}

theorem Increasing.front_le (h : Increasing l) {r : ReplyT β} (hr : r ∈ l) : front l ≤ r.xid := by
  cases l with
  | nil => cases hr
  | cons a l =>
    rcases List.mem_cons.1 hr with rfl | hr
    · exact le_refl _
    · exact (List.rel_of_pairwise_cons h hr).le

theorem Increasing.unique (h : Increasing l) {r r' : ReplyT β} (hr : r ∈ l) (hr' : r' ∈ l)
    (hx : r.xid = r'.xid) : r = r' := by
  induction l with
  | nil => cases hr
  | cons a l ih =>
    rcases List.mem_cons.1 hr with rfl | hl
    · rcases List.mem_cons.1 hr' with rfl | hl'
      · rfl
      · have := List.rel_of_pairwise_cons h hl'
        omega
    · rcases List.mem_cons.1 hr' with rfl | hl'
      · have := List.rel_of_pairwise_cons h hl
        omega
      · exact ih h.of_cons hl hl'

theorem Increasing.le_back (h : Increasing l) : ∀ r ∈ l, r.xid ≤ back l := by
  induction l with
  | nil => simp
  | cons a l ih =>
    cases l with
    | nil =>
      intro r hr
      obtain rfl := List.mem_singleton.1 hr
      exact le_refl _
    | cons c l =>
      have hback : back (a :: c :: l) = back (c :: l) := rfl
      have hrest := ih h.of_cons
      rw [hback]
      intro r hr
      rcases List.mem_cons.1 hr with rfl | hr
      · have := List.rel_of_pairwise_cons h (List.mem_cons_self (a := c) (l := l))
        have := hrest c List.mem_cons_self
        omega
      · exact hrest r hr

theorem mem_dropWhile (h : Increasing l) {r : ReplyT β} :
    r ∈ l.dropWhile (fun r => r.xid < xidRep) ↔ r ∈ l ∧ xidRep ≤ r.xid := by
  induction l with
  | nil => simp
  | cons a l ih =>
    by_cases ha : a.xid < xidRep
    · rw [List.dropWhile_cons_of_pos (by simpa using ha), ih h.of_cons]
      constructor
      · intro hr
        exact ⟨List.mem_cons_of_mem _ hr.1, hr.2⟩
      · intro hr
        rcases List.mem_cons.1 hr.1 with rfl | hl
        · omega
        · exact ⟨hl, hr.2⟩
    · rw [List.dropWhile_cons_of_neg (by simpa using ha)]
      constructor
      · intro hr
        refine ⟨hr, ?_⟩
        have := h.front_le hr
        simp only [front] at this
        omega
      · exact fun hr => hr.1

/-! ## Trimming -/

/-- What trimming does to a sorted list: the first entry is the acknowledged xid from now on,
unless it was beyond already, and everything from there on is kept. -/
structure Trims (xidRep : ℕ) (l t : List (ReplyT β)) : Prop where
  increasing : Increasing t
  nonempty : t ≠ []
  front_eq : front t = max (front l) xidRep
  old : ∀ r ∈ t, r ∈ l ∨ r = { xid := xidRep }
  kept : ∀ r ∈ l, front t ≤ r.xid → r ∈ t

theorem reheaded_spec (hlt : front l < xidRep) (hd : Increasing l')
    (hmem : ∀ r, r ∈ l' ↔ r ∈ l ∧ xidRep ≤ r.xid) : Trims xidRep l (reheaded xidRep l') := by
  have hmax : max (front l) xidRep = xidRep := max_eq_right hlt.le
  cases l' with
  | nil =>
    refine ⟨List.pairwise_singleton _ _, List.cons_ne_nil _ _, hmax.symm, ?_, ?_⟩
    · intro r hr
      exact .inr (List.mem_singleton.1 hr)
    · intro r hr hle
      exact absurd ((hmem r).2 ⟨hr, hle⟩) List.not_mem_nil
  | cons a l' =>
    have ha := ((hmem a).1 List.mem_cons_self).2
    simp only [reheaded]
    split_ifs with hne
    · refine ⟨?_, List.cons_ne_nil _ _, hmax.symm, ?_, ?_⟩
      · refine List.pairwise_cons.2 ⟨?_, hd⟩
        intro r hr
        have := hd.front_le hr
        simp only [front] at this
        change xidRep < r.xid
        omega
      · intro r hr
        rcases List.mem_cons.1 hr with rfl | hr
        · exact .inr rfl
        · exact .inl ((hmem r).1 hr).1
      · intro r hr hle
        exact List.mem_cons_of_mem _ ((hmem r).2 ⟨hr, hle⟩)
    · have hax : a.xid = xidRep := not_not.1 hne
      refine ⟨hd, List.cons_ne_nil _ _, hax.trans hmax.symm, ?_, ?_⟩
      · intro r hr
        exact .inl ((hmem r).1 hr).1
      · intro r hr hle
        exact (hmem r).2 ⟨hr, hax ▸ hle⟩

theorem trimmed_spec (h : Increasing l) (hl : l ≠ []) : Trims xidRep l (trimmed xidRep l) := by
  unfold trimmed
  split_ifs with hlt
  · exact reheaded_spec hlt (h.sublist (List.dropWhile_sublist _)) fun r => mem_dropWhile h
  · exact ⟨h, hl, (max_eq_left (not_lt.1 hlt)).symm, fun r hr => .inl hr, fun r hr _ => hr⟩

/-! ## Looking up -/

/-- What a repeated request is told. -/
def repeated (r : ReplyT β) : RpcState β := if r.cbPresent then .done r.buf r.sz else .inProgress

theorem looked_of_mem (h : Increasing l) {r : ReplyT β} (hr : r ∈ l) (hx : r.xid = xid) :
    looked xid l = (l, repeated r) := by
  induction l with
  | nil => cases hr
  | cons a l ih =>
    unfold looked
    rcases List.mem_cons.1 hr with rfl | hl
    · rw [if_pos hx]
      rfl
    · have := List.rel_of_pairwise_cons h hl
      rw [if_neg (by omega), if_neg (by omega), ih h.of_cons hl]

/-- An xid that is not in the list is entered in its place. -/
theorem looked_of_not_mem (h : Increasing l) (hx : ∀ r ∈ l, r.xid ≠ xid) :
    (looked xid l).2 = .new ∧ Increasing (looked xid l).1 ∧
      (∀ r, r ∈ (looked xid l).1 ↔ r ∈ l ∨ r = { xid := xid }) := by
  induction l with
  | nil => exact ⟨rfl, List.pairwise_singleton _ _, by simp [looked]⟩
  | cons a l ih =>
    obtain ⟨hnew, hinc, hmem⟩ := ih h.of_cons fun r hr => hx r (List.mem_cons_of_mem _ hr)
    unfold looked
    rw [if_neg (hx a List.mem_cons_self)]
    split_ifs with hlt
    · refine ⟨rfl, ?_, ?_⟩
      · refine List.pairwise_cons.2 ⟨?_, h⟩
        intro r hr
        exact lt_of_lt_of_le hlt (h.front_le hr)
      · intro r
        rw [List.mem_cons]
        exact or_comm
    · refine ⟨hnew, ?_, ?_⟩
      · refine List.pairwise_cons.2 ⟨?_, hinc⟩
        intro r hr
        rcases (hmem r).1 hr with hr | rfl
        · exact List.rel_of_pairwise_cons h hr
        · have := hx a List.mem_cons_self
          change a.xid < xid
          omega
      · intro r
        rw [List.mem_cons, List.mem_cons, hmem, or_assoc]

theorem looked_append (h : ∀ r ∈ l, r.xid < xid) :
    looked xid l = (l ++ [{ xid := xid }], .new) := by
  induction l with
  | nil => rfl
  | cons a l ih =>
    have ha := h a List.mem_cons_self
    unfold looked
    rw [if_neg (by omega), if_neg (by omega), ih fun r hr => h r (List.mem_cons_of_mem _ hr)]
    rfl

/-- Everything that `checkduplicate_and_update` does on a sorted list. -/
structure Checks (xid xidRep : ℕ) (l l' : List (ReplyT β)) (st : RpcState β) : Prop where
  increasing : Increasing l'
  nonempty : l' ≠ []
  front_le : l ≠ [] → front l ≤ front l'
  front_lt : st ≠ .forgotten → front l' < xid
  front_eq : front l' = front l ∨ front l' = xidRep
  acked : xidRep ≤ front l'
  old : ∀ r ∈ l', r ∈ l ∨ (r = { xid := xidRep } ∧ r.xid = front l' ∧ (l ≠ [] → front l < r.xid)) ∨
    (r = { xid := xid } ∧ st = .new)
  kept : ∀ r ∈ l, front l' ≤ r.xid → r ∈ l'
  told : (l ≠ [] ∧ xid ≤ front l ∧ st = .forgotten) ∨
    (front l < xid ∧ ∃ r ∈ l, r.xid = xid ∧ st = repeated r) ∨
    ((∀ r ∈ l, r.xid ≠ xid) ∧ (l ≠ [] → front l < xid) ∧ { xid := xid } ∈ l' ∧ st = .new)

/-- On a list that has not forgotten the xid, the search decides. -/
theorem check_eq_looked (h : Increasing l) (hl : l ≠ []) (hrep : xidRep < xid)
    (hx : front l < xid) :
    checkDuplicateAndUpdate xid xidRep l = some (looked xid (trimmed xidRep l)) := by
  unfold checkDuplicateAndUpdate
  rw [if_neg (by omega), if_neg hl, if_neg (by omega)]
  split_ifs with hback
  · rw [looked_append]
    intro r hr
    exact lt_of_le_of_lt ((trimmed_spec h hl).increasing.le_back r hr) hback
  · rfl

theorem Checks.of_looked (h : Increasing l) (hl : l ≠ []) (hrep : xidRep < xid)
    (hx : front l < xid) :
    Checks xid xidRep l (looked xid (trimmed xidRep l)).1 (looked xid (trimmed xidRep l)).2 := by
  have ht : Trims xidRep l (trimmed xidRep l) := trimmed_spec h hl
  generalize trimmed xidRep l = t at ht
  have hfront : front t < xid := by
    have := ht.front_eq
    omega
  have heq : front t = front l ∨ front t = xidRep := by
    have := ht.front_eq
    omega
  have hack : xidRep ≤ front t := by
    have := ht.front_eq
    omega
  have hold : ∀ r ∈ t, r ∈ l ∨ (r = { xid := xidRep } ∧ r.xid = front t ∧
      (l ≠ [] → front l < r.xid)) := by
    intro r hr
    rcases ht.old r hr with hr | rfl
    · exact .inl hr
    · by_cases hlt : front l < xidRep
      · exact .inr ⟨rfl, by have := ht.front_eq; change xidRep = front t; omega, fun _ => hlt⟩
      · have hge := ht.increasing.front_le hr
        have := ht.front_eq
        change front t ≤ xidRep at hge
        have hhead : xidRep = front l := by omega
        -- the acknowledged xid is the first entry already
        cases l with
        | nil => exact absurd rfl hl
        | cons a l =>
          refine .inl ?_
          have ha : a ∈ t := ht.kept a List.mem_cons_self (by simp only [front] at *; omega)
          rw [ht.increasing.unique hr ha hhead]
          exact List.mem_cons_self
  by_cases hmem : ∃ r ∈ l, r.xid = xid
  · obtain ⟨r, hr, hrx⟩ := hmem
    have hrt : r ∈ t := ht.kept r hr (by omega)
    rw [looked_of_mem ht.increasing hrt hrx]
    refine ⟨ht.increasing, ht.nonempty, ?_, fun _ => hfront, heq, hack, ?_, ht.kept, ?_⟩
    · intro _
      have := ht.front_eq
      change front l ≤ front t
      omega
    · intro r hr
      rcases hold r hr with hr | hr
      · exact .inl hr
      · exact .inr (.inl hr)
    · exact .inr (.inl ⟨hx, r, hr, hrx, rfl⟩)
  · have hno : ∀ r ∈ t, r.xid ≠ xid := by
      intro r hr hrx
      rcases ht.old r hr with hr | rfl
      · exact hmem ⟨r, hr, hrx⟩
      · change xidRep = xid at hrx
        omega
    obtain ⟨hnew, hinc, hmem'⟩ := looked_of_not_mem ht.increasing hno
    have hfront' : front (looked xid t).1 = front t := by
      cases t with
      | nil => exact absurd rfl ht.nonempty
      | cons a t =>
        unfold looked
        rw [if_neg (hno a List.mem_cons_self), if_neg (by simp only [front] at hfront; omega)]
        rfl
    refine ⟨hinc, ?_, ?_, fun _ => by rw [hfront']; exact hfront, by rw [hfront']; exact heq,
      by rw [hfront']; exact hack, ?_, ?_, ?_⟩
    · intro he
      have := (hmem' { xid := xid }).2 (.inr rfl)
      rw [he] at this
      cases this
    · intro _
      have := ht.front_eq
      omega
    · intro r hr
      rw [hfront']
      rcases (hmem' r).1 hr with hr | rfl
      · rcases hold r hr with hr | hr
        · exact .inl hr
        · exact .inr (.inl hr)
      · exact .inr (.inr ⟨rfl, hnew⟩)
    · intro r hr hle
      rw [hfront'] at hle
      exact (hmem' r).2 (.inl (ht.kept r hr hle))
    · refine .inr (.inr ⟨?_, fun _ => hx, (hmem' _).2 (.inr rfl), hnew⟩)
      intro r hr hrx
      exact hmem ⟨r, hr, hrx⟩

theorem check_spec (h : Increasing l) (hrep : xidRep < xid) :
    ∃ l' st, checkDuplicateAndUpdate xid xidRep l = some (l', st) ∧ Checks xid xidRep l l' st := by
  by_cases hl : l = []
  · subst hl
    refine ⟨_, _, by unfold checkDuplicateAndUpdate; rw [if_neg (by omega), if_pos rfl], ?_⟩
    refine ⟨?_, List.cons_ne_nil _ _, by simp, fun _ => hrep, .inr rfl, le_refl _, ?_, by simp, ?_⟩
    · simpa [Increasing] using hrep
    · intro r hr
      rcases List.mem_cons.1 hr with rfl | hr
      · exact .inr (.inl ⟨rfl, rfl, by simp⟩)
      · exact .inr (.inr ⟨List.mem_singleton.1 hr, rfl⟩)
    · exact .inr (.inr ⟨by simp, by simp, by simp, rfl⟩)
  · by_cases hx : xid ≤ front l
    · refine ⟨l, .forgotten, ?_, ?_⟩
      · unfold checkDuplicateAndUpdate
        rw [if_neg (by omega), if_neg hl, if_pos hx]
      · exact ⟨h, hl, fun _ => le_refl _, fun hst => absurd rfl hst, .inl rfl, by omega,
          fun r hr => .inl hr, fun r hr _ => hr, .inl ⟨hl, hx, rfl⟩⟩
    · exact ⟨_, _, check_eq_looked h hl hrep (by omega), Checks.of_looked h hl hrep (by omega)⟩

theorem checks_of_eq {st : RpcState β} (h : Increasing l) (hrep : xidRep < xid)
    (he : checkDuplicateAndUpdate xid xidRep l = some (l', st)) : Checks xid xidRep l l' st := by
  obtain ⟨l₁, st₁, h₁, hc⟩ := check_spec h hrep
  rw [h₁] at he
  cases he
  exact hc

/-- Only a request beyond its own acknowledgement passes the assertion. -/
theorem lt_of_check {r : List (ReplyT β) × RpcState β}
    (h : checkDuplicateAndUpdate xid xidRep l = some r) : xidRep < xid := by
  by_contra hle
  unfold checkDuplicateAndUpdate at h
  rw [if_pos (by omega)] at h
  cases h

/-! ## Recording -/

/-- Recording a reply changes the one entry of its xid. -/
theorem addReply_spec (h : addReply xid b sz l = some l') :
    l'.map ReplyT.xid = l.map ReplyT.xid ∧
      (∃ r ∈ l, r.xid = xid ∧ r.cbPresent = false) ∧
      (∃ r ∈ l', r.xid = xid ∧ r.cbPresent = true ∧ r.buf = some b ∧ r.sz = sz) ∧
      ∀ r, r.xid ≠ xid → (r ∈ l' ↔ r ∈ l) := by
  induction l generalizing l' with
  | nil => cases h
  | cons a l ih =>
    simp only [addReply] at h
    split_ifs at h with ha hcb
    · cases h
      refine ⟨rfl, ⟨a, List.mem_cons_self, ha, by simpa using hcb⟩,
        ⟨_, List.mem_cons_self, ha, rfl, rfl, rfl⟩, ?_⟩
      intro r hr
      rw [List.mem_cons, List.mem_cons]
      constructor
      · rintro (rfl | hl)
        · exact absurd ha hr
        · exact .inr hl
      · rintro (rfl | hl)
        · exact absurd ha hr
        · exact .inr hl
    · obtain ⟨l₁, h₁, rfl⟩ := Option.map_eq_some_iff.1 h
      obtain ⟨hmap, ⟨r, hr, hrx, hcb⟩, ⟨r', hr', hd⟩, hmem⟩ := ih h₁
      refine ⟨by simp [hmap], ⟨r, List.mem_cons_of_mem _ hr, hrx, hcb⟩,
        ⟨r', List.mem_cons_of_mem _ hr', hd⟩, ?_⟩
      intro r hr
      rw [List.mem_cons, List.mem_cons, hmem r hr]

theorem addReply_isSome (h : Increasing l) {r : ReplyT β} (hr : r ∈ l) (hx : r.xid = xid)
    (hcb : r.cbPresent = false) : (addReply xid b sz l).isSome := by
  induction l with
  | nil => cases hr
  | cons a l ih =>
    unfold addReply
    rcases List.mem_cons.1 hr with rfl | hl
    · rw [if_pos hx, hcb]
      rfl
    · have := List.rel_of_pairwise_cons h hl
      rw [if_neg (by omega), Option.isSome_map]
      exact ih h.of_cons hl

theorem increasing_iff : Increasing l ↔ (l.map ReplyT.xid).Pairwise (· < ·) := by
  rw [List.pairwise_map]
  rfl

theorem front_eq_head (l : List (ReplyT β)) : front l = ((l.map ReplyT.xid).head?).getD 0 := by
  cases l <;> rfl

theorem front_addReply (h : addReply xid b sz l = some l') : front l' = front l := by
  rw [front_eq_head, front_eq_head, (addReply_spec h).1]

theorem Increasing.addReply (hl : Increasing l) (h : addReply xid b sz l = some l') :
    Increasing l' := by
  rw [increasing_iff] at hl ⊢
  rw [(addReply_spec h).1]
  exact hl

/-! ## Buffers -/

/-- The buffers that `checkduplicate_and_update` frees: those of the entries it erases. -/
def freed (xid xidRep : ℕ) (l : List (ReplyT β)) : List β :=
  if xid ≤ front l ∨ xidRep ≤ front l then []
  else (l.takeWhile fun r => r.xid < xidRep).filterMap ReplyT.buf

theorem mem_reheaded {r : ReplyT β} (hr : r ∈ l) : r ∈ reheaded xidRep l := by
  cases l with
  | nil => cases hr
  | cons a l =>
    simp only [reheaded]
    split_ifs
    · exact List.mem_cons_of_mem _ hr
    · exact hr

theorem mem_looked {r : ReplyT β} (hr : r ∈ l) : r ∈ (looked xid l).1 := by
  induction l with
  | nil => cases hr
  | cons a l ih =>
    unfold looked
    split
    · exact hr
    · split
      · exact List.mem_cons_of_mem _ hr
      · rcases List.mem_cons.1 hr with rfl | hr
        · exact List.mem_cons_self
        · exact List.mem_cons_of_mem _ (ih hr)

/-- Nothing enters the list with a buffer. -/
theorem mem_of_reheaded {r : ReplyT β} (hr : r ∈ reheaded xidRep l) (hb : r.buf ≠ none) :
    r ∈ l := by
  cases l with
  | nil =>
    obtain rfl := List.mem_singleton.1 hr
    exact absurd rfl hb
  | cons a l =>
    simp only [reheaded] at hr
    split_ifs at hr
    · rcases List.mem_cons.1 hr with rfl | hr
      · exact absurd rfl hb
      · exact hr
    · exact hr

theorem mem_of_trimmed {r : ReplyT β} (hr : r ∈ trimmed xidRep l) (hb : r.buf ≠ none) :
    r ∈ l := by
  unfold trimmed at hr
  split_ifs at hr
  · exact (List.dropWhile_sublist _).subset (mem_of_reheaded hr hb)
  · exact hr

theorem mem_of_looked {r : ReplyT β} (hr : r ∈ (looked xid l).1) (hb : r.buf ≠ none) :
    r ∈ l := by
  induction l with
  | nil =>
    obtain rfl := List.mem_singleton.1 hr
    exact absurd rfl hb
  | cons a l ih =>
    unfold looked at hr
    split at hr
    · exact hr
    · split at hr
      · rcases List.mem_cons.1 hr with rfl | hr
        · exact absurd rfl hb
        · exact hr
      · rcases List.mem_cons.1 hr with rfl | hr
        · exact List.mem_cons_self
        · exact List.mem_cons_of_mem _ (ih hr)

theorem mem_of_check {r : ReplyT β} {st : RpcState β}
    (h : checkDuplicateAndUpdate xid xidRep l = some (l', st)) (hr : r ∈ l') (hb : r.buf ≠ none) :
    r ∈ l := by
  unfold checkDuplicateAndUpdate at h
  split_ifs at h
  · cases h
    rcases List.mem_cons.1 hr with rfl | hr
    · exact absurd rfl hb
    · obtain rfl := List.mem_singleton.1 hr
      exact absurd rfl hb
  · cases h
    exact hr
  · cases h
    rcases List.mem_append.1 hr with hr | hr
    · exact mem_of_trimmed hr hb
    · obtain rfl := List.mem_singleton.1 hr
      exact absurd rfl hb
  · obtain rfl : (looked xid (trimmed xidRep l)).1 = l' := congrArg Prod.fst (Option.some.inj h)
    exact mem_of_trimmed (mem_of_looked hr hb) hb

/-- An entry whose buffer is not freed stays. -/
theorem mem_check {r : ReplyT β} {st : RpcState β}
    (h : checkDuplicateAndUpdate xid xidRep l = some (l', st)) (hr : r ∈ l) (hb : r.buf = some b)
    (hf : b ∉ freed xid xidRep l) : r ∈ l' := by
  unfold checkDuplicateAndUpdate at h
  unfold freed at hf
  split_ifs at h with hrep hl hx hback
  · rw [hl] at hr
    cases hr
  · cases h
    exact hr
  all_goals
    have htrim : r ∈ trimmed xidRep l := by
      unfold trimmed
      split_ifs with hlt
      · rw [if_neg (by omega)] at hf
        rw [← List.takeWhile_append_dropWhile (p := fun r : ReplyT β => r.xid < xidRep) (l := l),
          List.mem_append] at hr
        rcases hr with hr | hr
        · exact absurd (List.mem_filterMap.2 ⟨r, hr, hb⟩) hf
        · exact mem_reheaded hr
      · exact hr
  · cases h
    exact List.mem_append_left _ htrim
  · obtain rfl : (looked xid (trimmed xidRep l)).1 = l' := congrArg Prod.fst (Option.some.inj h)
    exact mem_looked htrim

theorem looked_done {bo : Option β} (h : (looked xid l).2 = .done bo sz) :
    ∃ r ∈ l, r.buf = bo ∧ r.sz = sz := by
  induction l with
  | nil => cases h
  | cons a l ih =>
    simp only [looked] at h
    split_ifs at h
    · simp only [RpcState.done.injEq] at h
      exact ⟨a, List.mem_cons_self, h⟩
    · obtain ⟨r, hr, he⟩ := ih h
      exact ⟨r, List.mem_cons_of_mem _ hr, he⟩

/-- The reply that is handed out is one of the list. -/
theorem check_done {bo : Option β}
    (h : checkDuplicateAndUpdate xid xidRep l = some (l', .done bo sz)) :
    ∃ r ∈ l', r.buf = bo ∧ r.sz = sz := by
  unfold checkDuplicateAndUpdate at h
  split_ifs at h
  · cases h
  · cases h
  · cases h
  · obtain rfl : (looked xid (trimmed xidRep l)).1 = l' := congrArg Prod.fst (Option.some.inj h)
    obtain ⟨r, hr, he⟩ := looked_done (congrArg Prod.snd (Option.some.inj h))
    exact ⟨r, mem_looked hr, he⟩

/-- Recording a reply adds its buffer to those of the list. -/
theorem mem_of_addReply {r : ReplyT β} (h : addReply xid b sz l = some l') (hr : r ∈ l') :
    r ∈ l ∨ (r.buf = some b ∧ r.cbPresent = true) := by
  induction l generalizing l' with
  | nil => cases h
  | cons a l ih =>
    simp only [addReply] at h
    split_ifs at h
    · cases h
      rcases List.mem_cons.1 hr with rfl | hr
      · exact .inr ⟨rfl, rfl⟩
      · exact .inl (List.mem_cons_of_mem _ hr)
    · obtain ⟨l₁, h₁, rfl⟩ := Option.map_eq_some_iff.1 h
      rcases List.mem_cons.1 hr with rfl | hr
      · exact .inl List.mem_cons_self
      · exact (ih h₁ hr).imp_left (List.mem_cons_of_mem _)

/-- A reply that was recorded before stays. -/
theorem mem_addReply {r : ReplyT β} (h : addReply xid b sz l = some l') (hr : r ∈ l)
    (hcb : r.cbPresent = true) : r ∈ l' := by
  induction l generalizing l' with
  | nil => cases hr
  | cons a l ih =>
    simp only [addReply] at h
    split_ifs at h with ha hno
    · cases h
      rcases List.mem_cons.1 hr with rfl | hr
      · exact absurd hcb hno
      · exact List.mem_cons_of_mem _ hr
    · obtain ⟨l₁, h₁, rfl⟩ := Option.map_eq_some_iff.1 h
      rcases List.mem_cons.1 hr with rfl | hr
      · exact List.mem_cons_self
      · exact List.mem_cons_of_mem _ (ih h₁ hr)

/-! ## Replies behind pointers

What the list does depends on no reply, so it commutes with reading the replies. -/

section Reading

variable {γ : Type} (f : β → ℤ → γ)

/-- The entry with what is read from its buffer. -/
def ReplyT.map (r : ReplyT β) : ReplyT γ := ⟨r.xid, r.cbPresent, r.buf.map (f · r.sz), r.sz⟩

def RpcState.map : RpcState β → RpcState γ
  | .new => .new
  | .inProgress => .inProgress
  | .done b sz => .done (b.map (f · sz)) sz
  | .forgotten => .forgotten

theorem front_map (l : List (ReplyT β)) : front (l.map (ReplyT.map f)) = front l := by
  cases l <;> rfl

theorem back_map (l : List (ReplyT β)) : back (l.map (ReplyT.map f)) = back l := by
  unfold back
  rw [List.getLast?_map, Option.map_map]
  rfl

theorem reheaded_map (xidRep : ℕ) (l : List (ReplyT β)) :
    reheaded xidRep (l.map (ReplyT.map f)) = (reheaded xidRep l).map (ReplyT.map f) := by
  cases l with
  | nil => rfl
  | cons r l =>
    simp only [List.map_cons, reheaded, ReplyT.map]
    split_ifs <;> rfl

theorem trimmed_map (xidRep : ℕ) (l : List (ReplyT β)) :
    trimmed xidRep (l.map (ReplyT.map f)) = (trimmed xidRep l).map (ReplyT.map f) := by
  unfold trimmed
  rw [front_map, List.dropWhile_map, reheaded_map]
  split_ifs <;> rfl

theorem looked_map (xid : ℕ) (l : List (ReplyT β)) : looked xid (l.map (ReplyT.map f)) =
    ((looked xid l).1.map (ReplyT.map f), (looked xid l).2.map f) := by
  induction l with
  | nil => rfl
  | cons r l ih =>
    have hx : (r.map f).xid = r.xid := rfl
    have hcb : (r.map f).cbPresent = r.cbPresent := rfl
    simp only [List.map_cons, looked, ih, hx, hcb]
    split_ifs <;> rfl

theorem check_map (xid xidRep : ℕ) (l : List (ReplyT β)) :
    checkDuplicateAndUpdate xid xidRep (l.map (ReplyT.map f)) =
      (checkDuplicateAndUpdate xid xidRep l).map fun r => (r.1.map (ReplyT.map f), r.2.map f) := by
  unfold checkDuplicateAndUpdate
  rw [front_map, trimmed_map, back_map, looked_map]
  simp only [List.map_eq_nil_iff]
  split_ifs
  · rfl
  · rfl
  · rfl
  · rw [Option.map_some, List.map_append]
    rfl
  · rfl

theorem addReply_map (xid : ℕ) (b : β) (sz : ℤ) (l : List (ReplyT β)) :
    addReply xid (f b sz) sz (l.map (ReplyT.map f)) =
      (addReply xid b sz l).map (List.map (ReplyT.map f)) := by
  induction l with
  | nil => rfl
  | cons r l ih =>
    have hx : (r.map f).xid = r.xid := rfl
    have hcb : (r.map f).cbPresent = r.cbPresent := rfl
    simp only [List.map_cons, addReply, ih, hx, hcb]
    split_ifs
    · rfl
    · rfl
    · cases addReply xid b sz l <;> rfl

/-- Reading differently what no entry points to changes nothing. -/
theorem reading_congr {f g : β → ℤ → γ} (h : ∀ r ∈ l, ∀ b, r.buf = some b → f b = g b) :
    l.map (ReplyT.map f) = l.map (ReplyT.map g) := by
  apply List.map_congr_left
  intro r hr
  cases hb : r.buf with
  | none => simp [ReplyT.map, hb]
  | some b => simp [ReplyT.map, hb, h r hr b hb]

end Reading

/-! ## Any sequence of requests and replies -/

inductive Event (β : Type) where
  | check (xid xidRep : ℕ) (st : RpcState β)
  | reply (xid : ℕ) (b : β) (sz : ℤ)
  deriving DecidableEq, Repr

/-- A request arrives, with an acknowledgement below its xid; or a reply is recorded without
failing an assertion. -/
inductive Step : List (ReplyT β) → Event β → List (ReplyT β) → Prop where
  | check {l l' : List (ReplyT β)} {xid xidRep : ℕ} {st : RpcState β} (hrep : xidRep < xid)
      (h : checkDuplicateAndUpdate xid xidRep l = some (l', st)) : Step l (.check xid xidRep st) l'
  | reply {l l' : List (ReplyT β)} {xid : ℕ} {b : β} {sz : ℤ} (h : addReply xid b sz l = some l') :
      Step l (.reply xid b sz) l'

def isNew (xid : ℕ) : Event β → Bool
  | .check x _ .new => x = xid
  | _ => false

/-- What the list says about the past. -/
structure Remembers (tr : List (Event β)) (l : List (ReplyT β)) : Prop where
  increasing : Increasing l
  seen : ∀ x ∈ tr, ∀ xid, isNew xid x = true → l ≠ [] ∧ (xid < front l ∨ ∃ r ∈ l, r.xid = xid)
  once : ∀ xid, tr.countP (isNew xid) ≤ 1
  recorded : ∀ xid b sz, .reply xid b sz ∈ tr → l ≠ [] ∧ (xid < front l ∨
    ∃ r ∈ l, r.xid = xid ∧ r.cbPresent = true ∧ r.buf = some b ∧ r.sz = sz)
  genuine : ∀ r ∈ l, r.cbPresent = true → ∃ b, r.buf = some b ∧ .reply r.xid b r.sz ∈ tr

variable {tr : List (Event β)} {e : Event β} {st : RpcState β}

/-- An entry stays in the list or falls below its front. -/
theorem Checks.forget (hc : Checks xid xidRep l l' st) {φ : ReplyT β → Prop} {x : ℕ}
    (h : l ≠ [] ∧ (x < front l ∨ ∃ r ∈ l, r.xid = x ∧ φ r)) :
    l' ≠ [] ∧ (x < front l' ∨ ∃ r ∈ l', r.xid = x ∧ φ r) := by
  refine ⟨hc.nonempty, ?_⟩
  have hle := hc.front_le h.1
  rcases h.2 with hlt | ⟨r, hr, hrx, hφ⟩
  · exact .inl (by omega)
  · by_cases hlt : x < front l'
    · exact .inl hlt
    · exact .inr ⟨r, hc.kept r hr (by omega), hrx, hφ⟩

theorem Remembers.check (h : Remembers tr l) (hc : Checks xid xidRep l l' st) :
    Remembers (tr ++ [.check xid xidRep st]) l' := by
  refine ⟨hc.increasing, ?_, ?_, ?_, ?_⟩
  · intro e he x hx
    rcases List.mem_append.1 he with he | he
    · have hseen : l ≠ [] ∧ (x < front l ∨ ∃ r ∈ l, r.xid = x ∧ True) := by
        simpa using h.seen e he x hx
      simpa using hc.forget hseen
    · obtain rfl := List.mem_singleton.1 he
      refine ⟨hc.nonempty, .inr ?_⟩
      rcases hc.told with ⟨-, -, rfl⟩ | ⟨-, r, -, -, rfl⟩ | ⟨-, -, hmem, rfl⟩
      · cases hx
      · unfold repeated at hx
        split_ifs at hx <;> cases hx
      · obtain rfl : xid = x := by simpa [isNew] using hx
        exact ⟨_, hmem, rfl⟩
  · intro x
    rw [List.countP_append, List.countP_singleton]
    split_ifs with hx
    · -- a request that is new now was never new before
      have hzero : tr.countP (isNew x) = 0 := by
        rw [List.countP_eq_zero]
        intro e he hnew
        have hseen := h.seen e he x hnew
        rcases hc.told with ⟨-, -, rfl⟩ | ⟨-, r, -, -, rfl⟩ | ⟨hno, hlt, -, rfl⟩
        · cases hx
        · unfold repeated at hx
          split_ifs at hx <;> cases hx
        · obtain rfl : xid = x := by simpa [isNew] using hx
          rcases hseen.2 with hlow | ⟨r, hr, hrx⟩
          · have := hlt hseen.1
            omega
          · exact hno r hr hrx
      omega
    · exact h.once x
  · intro x b sz hx
    rcases List.mem_append.1 hx with hx | hx
    · exact hc.forget (h.recorded x b sz hx)
    · simp at hx
  · intro r hr hcb
    rcases hc.old r hr with hr | ⟨rfl, -⟩ | ⟨rfl, -⟩
    · obtain ⟨b, hb, hm⟩ := h.genuine r hr hcb
      exact ⟨b, hb, List.mem_append_left _ hm⟩
    · cases hcb
    · cases hcb

theorem Remembers.reply (h : Remembers tr l) (ha : addReply xid b sz l = some l') :
    Remembers (tr ++ [.reply xid b sz]) l' := by
  obtain ⟨hmap, ⟨r₀, hr₀, hx₀, hcb₀⟩, ⟨r₁, hr₁, hx₁, hd₁⟩, hmem⟩ := addReply_spec ha
  have hne : l' ≠ [] := List.ne_nil_of_mem hr₁
  have hfront := front_addReply ha
  have hinc := h.increasing.addReply ha
  refine ⟨hinc, ?_, ?_, ?_, ?_⟩
  · intro e he x hx
    rcases List.mem_append.1 he with he | he
    · refine ⟨hne, ?_⟩
      rw [hfront]
      rcases (h.seen e he x hx).2 with hlt | ⟨r, hr, hrx⟩
      · exact .inl hlt
      · by_cases hxx : r.xid = xid
        · exact .inr ⟨r₁, hr₁, by omega⟩
        · exact .inr ⟨r, (hmem r hxx).2 hr, hrx⟩
    · obtain rfl := List.mem_singleton.1 he
      cases hx
  · intro x
    rw [List.countP_append]
    exact h.once x
  · intro x b' sz' hx
    rcases List.mem_append.1 hx with hx | hx
    · refine ⟨hne, ?_⟩
      rw [hfront]
      rcases (h.recorded x b' sz' hx).2 with hlt | ⟨r, hr, hrx, hd⟩
      · exact .inl hlt
      · by_cases hxx : r.xid = xid
        · -- a second reply would have failed the assertion
          obtain rfl := h.increasing.unique hr hr₀ (hxx.trans hx₀.symm)
          rw [hcb₀] at hd
          cases hd.1
        · exact .inr ⟨r, (hmem r hxx).2 hr, hrx, hd⟩
    · obtain ⟨rfl, rfl, rfl⟩ : x = xid ∧ b' = b ∧ sz' = sz := by simpa using hx
      exact ⟨hne, .inr ⟨r₁, hr₁, hx₁, hd₁⟩⟩
  · intro r hr hcb
    by_cases hxx : r.xid = xid
    · obtain rfl := hinc.unique hr hr₁ (hxx.trans hx₁.symm)
      refine ⟨b, hd₁.2.1, ?_⟩
      rw [hxx, hd₁.2.2]
      exact List.mem_append_right _ List.mem_cons_self
    · obtain ⟨b', hb, hm⟩ := h.genuine r ((hmem r hxx).1 hr) hcb
      exact ⟨b', hb, List.mem_append_left _ hm⟩

theorem Remembers.step (h : Remembers tr l) (hs : Step l e l') : Remembers (tr ++ [e]) l' := by
  cases hs with
  | check hrep hc => exact h.check (checks_of_eq h.increasing hrep hc)
  | reply ha => exact h.reply ha

theorem run_remembers (hr : Run Step [] tr l) : Remembers tr l := by
  apply hr.history_invariant (I := Remembers)
  · exact ⟨List.Pairwise.nil, by simp, by simp, by simp, by simp⟩
  · intro tr b e c _ ih hs
    exact ih.step hs

theorem front_le_step (hl : Increasing l) (hne : l ≠ []) (hs : Step l e l') :
    l' ≠ [] ∧ front l ≤ front l' := by
  cases hs with
  | check hrep hc =>
    have h := checks_of_eq hl hrep hc
    exact ⟨h.nonempty, h.front_le hne⟩
  | reply ha =>
    obtain ⟨-, -, ⟨r, hr, -⟩, -⟩ := addReply_spec ha
    exact ⟨List.ne_nil_of_mem hr, (front_addReply ha).ge⟩

theorem front_le_run {l₁ : List (ReplyT β)} {tr₁ : List (Event β)} (h₁ : Run Step [] tr₁ l₁)
    (hne : l₁ ≠ []) (hr : Run Step l₁ tr l) : l ≠ [] ∧ front l₁ ≤ front l := by
  have hinv : ∀ a : List (ReplyT β), Increasing a ∧ a ≠ [] ∧ front l₁ ≤ front a →
      ∀ e b, Step a e b → Increasing b ∧ b ≠ [] ∧ front l₁ ≤ front b := by
    intro a ha e b hs
    obtain ⟨hb, hle⟩ := front_le_step ha.1 ha.2.1 hs
    refine ⟨?_, hb, ha.2.2.trans hle⟩
    cases hs with
    | check hrep hc => exact (checks_of_eq ha.1 hrep hc).increasing
    | reply hb => exact ha.1.addReply hb
  exact (hr.invariant (I := fun a => Increasing a ∧ a ≠ [] ∧ front l₁ ≤ front a)
    ⟨(run_remembers h₁).increasing, hne, le_refl _⟩ fun a e b ha hs => hinv a ha e b hs).2

/-- Duplicate detection for a client that sends whatever it likes: the list stays sorted and
its front never decreases; no xid is new twice; a repeated request is told whether its reply
was recorded, and gets that reply; and what is at or below the front is forgotten. A reply to
a request that is still in the list can be recorded once. -/
theorem duplicate_detection (hr : Run Step [] tr l) :
    Increasing l ∧
    (∀ tr₁ tr₂ l₁, Run Step [] tr₁ l₁ → Run Step l₁ tr₂ l → l₁ ≠ [] →
      l ≠ [] ∧ front l₁ ≤ front l) ∧
    (∀ xid, tr.countP (isNew xid) ≤ 1) ∧
    (∀ r ∈ l, r.xid ≠ front l → ∀ xidRep, xidRep < r.xid →
      ∃ l' st, checkDuplicateAndUpdate r.xid xidRep l = some (l', st) ∧
        ((∀ b sz, .reply r.xid b sz ∉ tr) → st = .inProgress) ∧
        ∀ b sz, .reply r.xid b sz ∈ tr → st = .done (some b) sz) ∧
    (∀ xid, l ≠ [] → xid ≤ front l → ∀ xidRep, xidRep < xid →
      checkDuplicateAndUpdate xid xidRep l = some (l, .forgotten)) ∧
    (∀ r ∈ l, (∃ xidRep, .check r.xid xidRep .new ∈ tr) → (∀ b sz, .reply r.xid b sz ∉ tr) →
      ∀ b sz, (addReply r.xid b sz l).isSome) := by
  have h := run_remembers hr
  refine ⟨h.increasing, fun tr₁ tr₂ l₁ h₁ h₂ hne => front_le_run h₁ hne h₂, h.once, ?_, ?_, ?_⟩
  · intro r hrl hfront xidRep hrep
    obtain ⟨l', st, he, hc⟩ := check_spec h.increasing hrep
    have hlt : front l < r.xid := by
      have := h.increasing.front_le hrl
      omega
    have hst : st = repeated r := by
      rcases hc.told with ⟨-, hle, -⟩ | ⟨-, r', hr', hrx, rfl⟩ | ⟨hno, -⟩
      · omega
      · rw [h.increasing.unique hr' hrl hrx]
      · exact absurd rfl (hno r hrl)
    refine ⟨l', st, he, ?_, ?_⟩
    · intro hno
      rw [hst, repeated, if_neg]
      intro hcb
      obtain ⟨b, -, hm⟩ := h.genuine r hrl hcb
      exact hno _ _ hm
    · intro b sz hx
      rcases (h.recorded r.xid b sz hx).2 with hlow | ⟨r', hr', hrx, hcb, hb, rfl⟩
      · omega
      · obtain rfl := h.increasing.unique hr' hrl hrx
        rw [hst, repeated, if_pos hcb, hb]
  · intro xid hne hle xidRep hrep
    unfold checkDuplicateAndUpdate
    rw [if_neg (by omega), if_neg hne, if_pos hle]
  · intro r hrl _ hno b sz
    apply addReply_isSome h.increasing hrl rfl
    by_contra hcb
    obtain ⟨b, -, hm⟩ := h.genuine r hrl (by simpa using hcb)
    exact hno _ _ hm

/-- The list after two requests that arrived in the wrong order, and a reply to the second. -/
def reordered : List (ReplyT ℕ) := [{ xid := 0 }, { xid := 1 }, ⟨2, true, some 7, 1⟩]

/-- A repetition gets the reply, and the request without one is in progress. -/
theorem duplicate_detection_reordered :
    Run Step [] [.check 2 0 .new, .check 1 0 .new, .reply 2 7 1, .check 2 0 (.done (some 7) 1)]
        reordered ∧
      ∃ l', checkDuplicateAndUpdate 1 0 reordered = some (l', .inProgress) := by
  have hr : Run Step [] [.check 2 0 .new, .check 1 0 .new, .reply 2 7 1,
      .check 2 0 (.done (some 7) 1)] reordered :=
    .snoc (.snoc (.snoc (.snoc .nil (.check (by decide) rfl)) (.check (by decide) rfl)) (.reply rfl))
      (.check (by decide) rfl)
  obtain ⟨-, -, -, hrep, -⟩ := duplicate_detection hr
  obtain ⟨l', st, he, hst, -⟩ := hrep { xid := 1 } (by simp [reordered]) (by decide) 0 (by decide)
  obtain rfl := hst (by simp)
  exact ⟨hr, l', he⟩

end Yfs.ReplyWindow
