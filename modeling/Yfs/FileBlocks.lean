import Yfs.InodeTable
import Mathlib.Data.Set.Function
import Mathlib.Order.Interval.Finset.Nat

/-!
# The blocks of one file while they change

`write_file` and `remove_file` work on copies of the inode and of the indirect block. The blocks
that a copy refers to are numbered by keys: `k < 160` for the data, and 160 for the indirect block
itself. A draft says which keys are in use at the moment; each loop is a rule for drafts.
-/

namespace Yfs.FileBlocks
open CallTrees MemoryBlocks BlockManager InodeManager InodeTable
open LockProtocol (Str)

/-! ## Programs that may fail -/

section
variable {α β : Type}

/-- What the program returns satisfies `Q`; it does return when there is room. -/
def Meets (room : Prop) (p : DiskProg α) (d : Disk) (Q : α → Disk → Prop) : Prop :=
  match exec p d with
  | .ok (a, d') => Q a d'
  | .error _ => ¬room

variable {room : Prop} {p : DiskProg α} {f : α → DiskProg β} {d d' : Disk} {a : α}
  {Q Q' : α → Disk → Prop} {R : β → Disk → Prop}

theorem Meets.of_exec (h : exec p d = .ok (a, d')) (hQ : Q a d') : Meets room p d Q := by
  unfold Meets
  rwa [h]

theorem Meets.ok (h : Meets room p d Q) (he : exec p d = .ok (a, d')) : Q a d' := by
  unfold Meets at h
  rwa [he] at h

theorem Meets.returns (h : Meets room p d Q) (hroom : room) :
    ∃ a d', exec p d = .ok (a, d') ∧ Q a d' := by
  unfold Meets at h
  cases he : exec p d with
  | error e =>
    rw [he] at h
    exact absurd hroom h
  | ok r =>
    rw [he] at h
    exact ⟨r.1, r.2, rfl, h⟩

theorem Meets.mono (h : Meets room p d Q) (hQ : ∀ a d', Q a d' → Q' a d') : Meets room p d Q' := by
  unfold Meets at h ⊢
  cases he : exec p d with
  | error e =>
    rw [he] at h
    exact h
  | ok r =>
    rw [he] at h
    exact hQ _ _ h

theorem Meets.bind (hp : Meets room p d Q) (hf : ∀ a d', Q a d' → Meets room (f a) d' R) :
    Meets room (p >>= f) d R := by
  unfold Meets at hp
  cases he : exec p d with
  | error e =>
    rw [he] at hp
    unfold Meets
    rwa [exec_fails he]
  | ok r =>
    rw [he] at hp
    have h := hf r.1 r.2 hp
    unfold Meets at h ⊢
    rwa [exec_then he]

theorem Meets.after (h : exec p d = .ok (a, d')) (hf : Meets room (f a) d' R) :
    Meets room (p >>= f) d R := by
  unfold Meets at hf ⊢
  rwa [exec_then h]

/-- A program that fails where there is no room. -/
theorem Meets.of_fails {e : Fault} (h : exec p d = .error e) (hroom : ¬room) :
    Meets room p d Q := by
  unfold Meets
  rwa [h]

theorem Meets.of_not_ok (h : ∀ r, exec p d ≠ .ok r) (hroom : ¬room) : Meets room p d Q := by
  cases he : exec p d with
  | error e => exact .of_fails he hroom
  | ok r => exact absurd he (h r)

end

/-! ## References -/

/-- `MAXFILE`, and the key of the indirect block. -/
def maxFile : ℕ := 160

/-- The block with a given key. -/
def ref (ino : Inode) (ind : Block) (k : ℕ) : ℕ :=
  if k < ndirect then inoBlock ino k
  else if k < maxFile then load 4 ind (4 * (k - ndirect))
  else inoBlock ino ndirect

def setRef (ino : Inode) (ind : Block) (k x : ℕ) : Inode × Block :=
  if k < ndirect then (setBlock ino k x, ind)
  else if k < maxFile then (ino, store 4 ind (4 * (k - ndirect)) x)
  else (setBlock ino ndirect x, ind)

variable {d d' d₀ : Disk} {env : Env} {ino ino' : Inode} {ind ind' junk blk' : Block} {buf : Str}
  {i j k l b n x : ℕ} {Other : ℕ → Prop} {ks : Set ℕ} {room : Prop}

/-- The references behind the direct ones have a place in the indirect block. -/
theorem indirect_lt (h : k < maxFile) (hk : ¬k < ndirect) : k - ndirect < nindirect := by
  simp only [ndirect, nindirect, maxFile] at *
  omega

theorem indirect_outside (h : maxFile ≤ k) : ¬k < ndirect ∧ ¬k - ndirect < nindirect := by
  simp only [ndirect, nindirect, maxFile] at *
  omega

theorem exec_blk (h : k < maxFile) : exec (blk ino ind k) d = .ok (ref ino ind k, d) := by
  unfold blk ref
  by_cases hk : k < ndirect
  · rw [if_pos hk, if_pos hk]
    rfl
  · rw [if_neg hk, if_neg hk, if_pos h, exec_then (exec_check (indirect_lt h hk))]
    rfl

theorem exec_blk_outside (h : maxFile ≤ k) : exec (blk ino ind k) d = .error .outside := by
  obtain ⟨hk, hout⟩ := indirect_outside h
  rw [blk, if_neg hk, exec_fails (exec_check_fails hout)]

theorem exec_setBlk (h : k < maxFile) : exec (setBlk ino ind k x) d = .ok (setRef ino ind k x, d) := by
  unfold setBlk setRef
  by_cases hk : k < ndirect
  · rw [if_pos hk, if_pos hk]
    rfl
  · rw [if_neg hk, if_neg hk, if_pos h, exec_then (exec_check (indirect_lt h hk))]
    rfl

theorem exec_setBlk_outside (h : maxFile ≤ k) :
    exec (setBlk ino ind k x) d = .error .outside := by
  obtain ⟨hk, hout⟩ := indirect_outside h
  rw [setBlk, if_neg hk, exec_fails (exec_check_fails hout)]

theorem ref_direct (h : k < ndirect) : ref ino ind k = inoBlock ino k := if_pos h

theorem ref_maxFile : ref ino ind maxFile = inoBlock ino ndirect := rfl

/-- A reference depends on the inode's blocks and on a part of the indirect block. -/
theorem ref_congr (hino : ∀ j ≤ 32, inoBlock ino' j = inoBlock ino j)
    (hind : ndirect ≤ k → k < maxFile → ind' = ind) : ref ino' ind' k = ref ino ind k := by
  unfold ref
  by_cases hk : k < ndirect
  · rw [if_pos hk, if_pos hk, hino k (by simp only [ndirect] at hk; omega)]
  rw [if_neg hk, if_neg hk]
  by_cases hk' : k < maxFile
  · rw [if_pos hk', if_pos hk', hind (by omega) hk']
  · rw [if_neg hk', if_neg hk', hino ndirect (by decide)]

theorem ref_setRef (hk : k ≤ maxFile) (hl : l ≤ maxFile) (hx : x < 2 ^ 32) :
    ref (setRef ino ind k x).1 (setRef ino ind k x).2 l = if l = k then x else ref ino ind l := by
  have hnd : ndirect = 32 := rfl
  have hmf : maxFile = 160 := rfl
  unfold ref setRef
  by_cases hk₁ : k < ndirect
  · rw [if_pos hk₁]
    by_cases hl₁ : l < ndirect
    · rw [if_pos hl₁, if_pos hl₁, inoBlock_setBlock (by omega) (by omega) hx]
    · rw [if_neg hl₁, if_neg hl₁, if_neg (by omega : l ≠ k),
        inoBlock_setBlock (by omega) (by omega) hx, if_neg (by omega : ndirect ≠ k)]
  rw [if_neg hk₁]
  by_cases hk₂ : k < maxFile
  · rw [if_pos hk₂]
    by_cases hl₁ : l < ndirect
    · rw [if_pos hl₁, if_pos hl₁, if_neg (by omega)]
    rw [if_neg hl₁, if_neg hl₁]
    by_cases hl₂ : l < maxFile
    · rw [if_pos hl₂, if_pos hl₂]
      by_cases hlk : l = k
      · subst hlk
        rw [if_pos rfl, load_store_same _ _ (by simp only [blockSize]; omega)]
        exact Nat.mod_eq_of_lt hx
      · rw [if_neg hlk, load_store_other _ _ (by omega) (by simp only [blockSize]; omega)]
    · rw [if_neg hl₂, if_neg hl₂, if_neg (by omega)]
  · rw [if_neg hk₂]
    by_cases hl₁ : l < ndirect
    · rw [if_pos hl₁, if_pos hl₁, inoBlock_setBlock (by omega) (by omega) hx,
        if_neg (by omega), if_neg (by omega)]
    rw [if_neg hl₁, if_neg hl₁]
    by_cases hl₂ : l < maxFile
    · rw [if_pos hl₂, if_pos hl₂, if_neg (by omega)]
    · rw [if_neg hl₂, if_neg hl₂, inoBlock_setBlock (by omega) (by omega) hx, if_pos rfl,
        if_pos (by omega)]

theorem inoType_setRef : inoType (setRef ino ind k x).1 = inoType ino := by
  unfold setRef
  by_cases hk₁ : k < ndirect
  · rw [if_pos hk₁, inoType_setBlock]
  rw [if_neg hk₁]
  by_cases hk₂ : k < maxFile
  · rw [if_pos hk₂]
  · rw [if_neg hk₂, inoType_setBlock]

/-! ## Drafts -/

/-- The blocks of other files, with their contents as on `d₀`, and the blocks with the keys `ks`
are exactly those in use, and no block is used twice. -/
structure Draft (d₀ : Disk) (Other : ℕ → Prop) (ino : Inode) (ind : Block) (ks : Set ℕ)
    (d : Disk) : Prop where
  le : ∀ k ∈ ks, k ≤ maxFile
  inj : Set.InjOn (ref ino ind) ks
  mapped : ∀ k ∈ ks, Mapped (ref ino ind k)
  mine : ∀ k ∈ ks, ¬Other (ref ino ind k)
  bits : ∀ b, Mapped b → (bitOf d b = true ↔ Other b ∨ ∃ k ∈ ks, ref ino ind k = b)
  kept : ∀ b, Mapped b → Other b → d b = d₀ b
  inodes : ∀ j, ¬Mapped (iblock j) → inodeOf d j = inodeOf d₀ j

/-- The other files leave room for one more file of any size. -/
def Room (Other : ℕ → Prop) : Prop := ∃ s : Finset ℕ, s.card ≤ 1000 ∧ ∀ b, Other b → b ∈ s

theorem Draft.congr (h : Draft d₀ Other ino ind ks d)
    (href : ∀ k ∈ ks, ref ino' ind' k = ref ino ind k) : Draft d₀ Other ino' ind' ks d where
  le := h.le
  inj := fun k hk l hl heq => h.inj hk hl (by rwa [href k hk, href l hl] at heq)
  mapped := fun k hk => by rw [href k hk]; exact h.mapped k hk
  mine := fun k hk => by rw [href k hk]; exact h.mine k hk
  bits := by
    intro b hb
    rw [h.bits b hb]
    constructor
    · rintro (ho | ⟨k, hk, rfl⟩)
      · exact .inl ho
      · exact .inr ⟨k, hk, href k hk⟩
    · rintro (ho | ⟨k, hk, rfl⟩)
      · exact .inl ho
      · exact .inr ⟨k, hk, (href k hk).symm⟩
  kept := h.kept
  inodes := h.inodes

theorem Draft.write (h : Draft d₀ Other ino ind ks d) (hk : k ∈ ks) (blk' : Block) :
    Draft d₀ Other ino ind ks (Function.update d (ref ino ind k) blk') where
  le := h.le
  inj := h.inj
  mapped := h.mapped
  mine := h.mine
  bits := fun b hb => by rw [bitOf_update (h.mapped k hk).1 hb, h.bits b hb]
  kept := by
    intro b hb ho
    rw [Function.update_of_ne (by rintro rfl; exact h.mine k hk ho), h.kept b hb ho]
  inodes := fun j hj => by rw [inodeOf_update (h.mapped k hk) hj, h.inodes j hj]

theorem Draft.free (h : Draft d₀ Other ino ind ks d) (hk : k ∈ ks) :
    Draft d₀ Other ino ind (ks \ {k}) (mark d (ref ino ind k) false) where
  le := fun l hl => h.le l hl.1
  inj := h.inj.mono Set.sdiff_subset
  mapped := fun l hl => h.mapped l hl.1
  mine := fun l hl => h.mine l hl.1
  bits := by
    intro b hb
    rw [bitOf_mark (h.mapped k hk) hb]
    by_cases hbk : b = ref ino ind k
    · subst hbk
      simp only [if_true, Bool.false_eq_true, false_iff, not_or]
      refine ⟨h.mine k hk, ?_⟩
      rintro ⟨l, hl, heq⟩
      exact hl.2 (h.inj hl.1 hk heq)
    · rw [if_neg hbk, h.bits b hb]
      constructor
      · rintro (ho | ⟨l, hl, rfl⟩)
        · exact .inl ho
        · exact .inr ⟨l, ⟨hl, by rintro rfl; exact hbk rfl⟩, rfl⟩
      · rintro (ho | ⟨l, hl, rfl⟩)
        · exact .inl ho
        · exact .inr ⟨l, hl.1, rfl⟩
  kept := by
    intro b hb ho
    rw [mark_data (h.mapped k hk) false hb.1, h.kept b hb ho]
  inodes := fun j hj => by rw [inodeOf_mark (h.mapped k hk) false, h.inodes j hj]

/-- A block that was free gets a key. -/
theorem Draft.claim (h : Draft d₀ Other ino ind ks d) (hb : Mapped b) (hfree : bitOf d b = false)
    (hk : k ∉ ks) (hle : k ≤ maxFile) (hnew : ref ino' ind' k = b)
    (href : ∀ l ∈ ks, ref ino' ind' l = ref ino ind l) :
    Draft d₀ Other ino' ind' (insert k ks) (mark d b true) := by
  have h' := h.congr href
  have hno : ¬Other b ∧ ∀ l ∈ ks, ref ino' ind' l ≠ b := by
    have hbits := h'.bits b hb
    rw [hfree] at hbits
    simp only [Bool.false_eq_true, false_iff, not_or, not_exists, not_and] at hbits
    exact hbits
  constructor
  · rintro l (rfl | hl)
    · exact hle
    · exact h.le l hl
  · rintro l (rfl | hl) m (rfl | hm) heq
    · rfl
    · exact absurd (heq.symm.trans hnew) (hno.2 m hm)
    · exact absurd (heq.trans hnew) (hno.2 l hl)
    · exact h'.inj hl hm heq
  · rintro l (rfl | hl)
    · rwa [hnew]
    · exact h'.mapped l hl
  · rintro l (rfl | hl)
    · rw [hnew]
      exact hno.1
    · exact h'.mine l hl
  · intro c hc
    rw [bitOf_mark hb hc]
    by_cases hcb : c = b
    · subst hcb
      simp only [if_true, true_iff]
      exact .inr ⟨k, .inl rfl, hnew⟩
    · rw [if_neg hcb, h'.bits c hc]
      constructor
      · rintro (ho | ⟨l, hl, rfl⟩)
        · exact .inl ho
        · exact .inr ⟨l, .inr hl, rfl⟩
      · rintro (ho | ⟨l, rfl | hl, rfl⟩)
        · exact .inl ho
        · exact absurd hnew hcb
        · exact .inr ⟨l, hl, rfl⟩
  · intro c hc ho
    rw [mark_data hb true hc.1, h.kept c hc ho]
  · intro j hj
    rw [inodeOf_mark hb true, h.inodes j hj]

/-- While there is room, some mapped block is free. -/
theorem Draft.exists_free (h : Draft d₀ Other ino ind ks d) (hroom : Room Other) :
    ∃ b, Mapped b ∧ bitOf d b = false := by
  classical
  obtain ⟨s, hcard, hs⟩ := hroom
  by_contra hno
  have hall : Finset.Icc firstData lastMapped ⊆ s ∪ (Finset.range 161).image (ref ino ind) := by
    intro b hb
    have hmap : Mapped b := Finset.mem_Icc.1 hb
    have hbit : bitOf d b = true := by
      by_contra hbit
      exact hno ⟨b, hmap, by simpa using hbit⟩
    rcases (h.bits b hmap).1 hbit with ho | ⟨k, hk, rfl⟩
    · exact Finset.mem_union_left _ (hs b ho)
    · refine Finset.mem_union_right _ (Finset.mem_image_of_mem _ (Finset.mem_range.2 ?_))
      have := h.le k hk
      simp only [maxFile] at this
      omega
  have hle := (Finset.card_le_card hall).trans (Finset.card_union_le _ _)
  have himage := Finset.card_image_le (s := Finset.range 161) (f := ref ino ind)
  rw [Nat.card_Icc, firstData_eq] at hle
  rw [Finset.card_range] at himage
  simp only [lastMapped] at hle
  omega

theorem Draft.alloc (h : Draft d₀ Other ino ind ks d) (hroom : room → Room Other) :
    Meets room (allocBlock junk) d fun b d' => Mapped b ∧ bitOf d b = false ∧ d' = mark d b true := by
  by_cases hfree : ∃ b, Mapped b ∧ bitOf d b = false
  · obtain ⟨b, hb, hbit, hused⟩ := exists_first_free hfree
    exact .of_exec (exec_allocBlock hb hused hbit) ⟨hb, hbit, rfl⟩
  · have hused : ∀ k, Mapped k → bitOf d k = true := by
      intro k hk
      by_contra hbit
      exact hfree ⟨k, hk, by simpa using hbit⟩
    refine .of_fails (exec_allocBlock_full hused) ?_
    intro hr
    exact hfree (h.exists_free (hroom hr))

/-! ## Loops -/

theorem Ico_succ_subset : Set.Ico (i + 1) (i + 1 + n) ⊆ Set.Ico i (i + (n + 1)) := by
  rintro k ⟨h₁, h₂⟩
  exact ⟨by omega, by omega⟩

theorem insert_Ico_succ (i n : ℕ) :
    insert i (Set.Ico (i + 1) (i + 1 + n)) = Set.Ico i (i + (n + 1)) := by
  ext k
  simp only [Set.mem_insert_iff, Set.mem_Ico]
  omega

theorem Ico_succ_subset_sdiff (hks : Set.Ico i (i + (n + 1)) ⊆ ks) :
    Set.Ico (i + 1) (i + 1 + n) ⊆ ks \ {i} := by
  rintro k ⟨h₁, h₂⟩
  refine ⟨hks ⟨by omega, by omega⟩, ?_⟩
  rintro rfl
  omega

theorem sdiff_singleton_Ico :
    (ks \ {i}) \ Set.Ico (i + 1) (i + 1 + n) = ks \ Set.Ico i (i + (n + 1)) := by
  rw [sdiff_sdiff, ← insert_Ico_succ]
  rfl

theorem insert_union_Ico :
    insert i ks ∪ Set.Ico (i + 1) (i + 1 + n) = ks ∪ Set.Ico i (i + (n + 1)) := by
  rw [← insert_Ico_succ, Set.insert_union, Set.union_insert]

/-- Overwriting blocks. -/
theorem Draft.writeLoop (h : Draft d₀ Other ino ind ks d) (hks : Set.Ico i (i + n) ⊆ ks)
    (hmax : i + n ≤ maxFile) :
    Meets room (InodeManager.writeLoop env buf ino ind n i) d fun _ d' =>
      Draft d₀ Other ino ind ks d' ∧
      (∀ k ∈ Set.Ico i (i + n), d' (ref ino ind k) = blockAt env buf k) ∧
      ∀ k ∈ ks, k ∉ Set.Ico i (i + n) → d' (ref ino ind k) = d (ref ino ind k) := by
  induction n generalizing i d with
  | zero =>
    refine .of_exec rfl ⟨h, ?_, fun _ _ _ => rfl⟩
    rintro k ⟨h₁, h₂⟩
    omega
  | succ n ih =>
    have hi : i ∈ ks := hks ⟨le_refl i, by omega⟩
    have hsub : Set.Ico (i + 1) (i + 1 + n) ⊆ ks := by
      rintro k ⟨h₁, h₂⟩
      exact hks ⟨by omega, by omega⟩
    refine .after (exec_blk (by omega)) (.after (exec_writeBlock (h.mapped i hi).lt) ?_)
    refine (ih (h.write hi _) hsub (by omega)).mono ?_
    rintro _ d' ⟨h', hin, hout⟩
    refine ⟨h', ?_, ?_⟩
    · rintro k ⟨h₁, h₂⟩
      by_cases hk : k = i
      · subst hk
        rw [hout k hi (by rintro ⟨h₃, -⟩; omega), Function.update_self]
      · exact hin k ⟨by omega, by omega⟩
    · intro k hk hno
      have hki : k ≠ i := by
        rintro rfl
        exact hno ⟨le_refl k, by omega⟩
      rw [hout k hk fun hmem => hno ⟨by have := hmem.1; omega, by have := hmem.2; omega⟩,
        Function.update_of_ne fun heq => hki (h.inj hk hi heq)]

/-- Freeing blocks one after the other, as `remove_file` does. -/
theorem Draft.removeLoop (h : Draft d₀ Other ino ind ks d) (hks : Set.Ico i (i + n) ⊆ ks)
    (hmax : i + n ≤ maxFile) :
    Meets room (InodeManager.removeLoop env ino ind n i) d fun _ d' =>
      Draft d₀ Other ino ind (ks \ Set.Ico i (i + n)) d' := by
  induction n generalizing i ks d with
  | zero => exact .of_exec rfl (by simpa using h)
  | succ n ih =>
    have hi : i ∈ ks := hks ⟨le_refl i, by omega⟩
    have hsub : Set.Ico (i + 1) (i + 1 + n) ⊆ ks \ {i} := Ico_succ_subset_sdiff hks
    refine .after (exec_blk (by omega)) (.after (exec_freeBlock (h.mapped i hi)) ?_)
    refine (ih (h.free hi) hsub (by omega)).mono ?_
    intro _ d' h'
    rwa [sdiff_singleton_Ico] at h'

/-- Freeing blocks and clearing the references to them, as `write_file` does. -/
theorem Draft.freeLoop (h : Draft d₀ Other ino ind ks d) (hks : Set.Ico i (i + n) ⊆ ks)
    (hmax : i + n ≤ maxFile) :
    Meets room (InodeManager.freeLoop env n i ino ind) d fun r d' =>
      Draft d₀ Other r.1 r.2 (ks \ Set.Ico i (i + n)) d' ∧ inoType r.1 = inoType ino ∧
      (∀ k ≤ maxFile, k ∉ Set.Ico i (i + n) → ref r.1 r.2 k = ref ino ind k) ∧
      ∀ b, firstData ≤ b → d' b = d b := by
  induction n generalizing i ks d ino ind with
  | zero => exact .of_exec rfl ⟨by simpa using h, rfl, fun _ _ _ => rfl, fun _ _ => rfl⟩
  | succ n ih =>
    have hi : i ∈ ks := hks ⟨le_refl i, by omega⟩
    have hsub : Set.Ico (i + 1) (i + 1 + n) ⊆ ks \ {i} := Ico_succ_subset_sdiff hks
    have href : ∀ k ≤ maxFile, k ≠ i →
        ref (setRef ino ind i 0).1 (setRef ino ind i 0).2 k = ref ino ind k := by
      intro k hk hki
      rw [ref_setRef (by omega) hk (by decide), if_neg hki]
    refine .after (exec_blk (by omega)) (.after (exec_freeBlock (h.mapped i hi))
      (.after (exec_setBlk (by omega)) ?_))
    refine (ih ((h.free hi).congr fun k hk => href k (h.le k hk.1) hk.2) hsub (by omega)).mono ?_
    rintro r d' ⟨h', htype, hrest, hdata⟩
    rw [sdiff_singleton_Ico] at h'
    refine ⟨h', htype.trans inoType_setRef, ?_, ?_⟩
    · intro k hk hno
      have hki : k ≠ i := by
        rintro rfl
        exact hno ⟨le_refl k, by omega⟩
      rw [hrest k hk fun hmem => hno (Ico_succ_subset hmem), href k hk hki]
    · intro b hb
      rw [hdata b hb, mark_data (h.mapped i hi) false hb]

/-- Allocating and filling blocks. -/
theorem Draft.growLoop (h : Draft d₀ Other ino ind ks d) (hroom : room → Room Other)
    (hks : ∀ k ∈ Set.Ico i (i + n), k ∉ ks) (hmax : i + n ≤ maxFile) :
    Meets room (InodeManager.growLoop env buf n i ino ind) d fun r d' =>
      Draft d₀ Other r.1 r.2 (ks ∪ Set.Ico i (i + n)) d' ∧ inoType r.1 = inoType ino ∧
      (∀ k ≤ maxFile, k ∉ Set.Ico i (i + n) → ref r.1 r.2 k = ref ino ind k) ∧
      (∀ k ∈ Set.Ico i (i + n), d' (ref r.1 r.2 k) = blockAt env buf k) ∧
      ∀ k ∈ ks, d' (ref ino ind k) = d (ref ino ind k) := by
  induction n generalizing i ks d ino ind with
  | zero =>
    refine .of_exec rfl ⟨by simpa using h, rfl, fun _ _ _ => rfl, ?_, fun _ _ => rfl⟩
    rintro k ⟨h₁, h₂⟩
    omega
  | succ n ih =>
    have hi : i ∉ ks := hks i ⟨le_refl i, by omega⟩
    refine (h.alloc hroom).bind ?_
    rintro b _ ⟨hb, hbit, rfl⟩
    have hlt : b < 2 ^ 32 := hb.lt.trans (by decide)
    have hnew : ref (setRef ino ind i b).1 (setRef ino ind i b).2 i = b := by
      rw [ref_setRef (by omega) (by omega) hlt, if_pos rfl]
    have href : ∀ k ≤ maxFile, k ≠ i →
        ref (setRef ino ind i b).1 (setRef ino ind i b).2 k = ref ino ind k := by
      intro k hk hki
      rw [ref_setRef (by omega) hk hlt, if_neg hki]
    have hks' : ∀ k ∈ ks, ref (setRef ino ind i b).1 (setRef ino ind i b).2 k = ref ino ind k :=
      fun k hk => href k (h.le k hk) (by rintro rfl; exact hi hk)
    have h₁ := h.claim hb hbit hi (by omega) hnew hks'
    have hset : exec (setBlk ino ind i b) (mark d b true) = .ok (setRef ino ind i b, mark d b true) :=
      exec_setBlk (by omega)
    have htype₁ : inoType (setRef ino ind i b).1 = inoType ino := inoType_setRef
    generalize setRef ino ind i b = s at *
    obtain ⟨ino₁, ind₁⟩ := s
    refine .after hset (.after (exec_blk (by omega))
      (.after (exec_writeBlock (by rw [hnew]; exact hb.lt)) ?_))
    have hdisj : ∀ k ∈ Set.Ico (i + 1) (i + 1 + n), k ∉ insert i ks := by
      rintro k hk (rfl | hmem)
      · have := hk.1
        omega
      · exact hks k (Ico_succ_subset hk) hmem
    refine (ih (h₁.write (.inl rfl) (blockAt env buf i)) hdisj (by omega)).mono ?_
    rintro r d' ⟨h', htype, hrest, hin, hold⟩
    rw [insert_union_Ico] at h'
    refine ⟨h', htype.trans htype₁, ?_, ?_, ?_⟩
    · intro k hk hno
      have hki : k ≠ i := by
        rintro rfl
        exact hno ⟨le_refl k, by omega⟩
      rw [hrest k hk fun hmem => hno (Ico_succ_subset hmem), href k hk hki]
    · rintro k ⟨hik, hkn⟩
      by_cases hki : k = i
      · subst hki
        rw [hrest k (by omega) (by rintro ⟨h₃, -⟩; omega), hold k (.inl rfl),
          Function.update_self]
      · exact hin k ⟨by omega, by omega⟩
    · intro k hk
      have hki : k ≠ i := by
        rintro rfl
        exact hi hk
      have hne : ref ino ind k ≠ b := by
        intro heq
        exact hki (h₁.inj (.inr hk) (.inl rfl) (by rw [hks' k hk, hnew, heq]))
      have h₂ := hold k (.inr hk)
      rwa [hks' k hk, hnew, Function.update_of_ne hne, mark_data hb true (h.mapped k hk).1] at h₂

/-! ## Loops that leave the indirect block -/

theorem exec_ok_bind {α β : Type} {p : DiskProg α} {f : α → DiskProg β} {r : β × Disk}
    (h : exec (p >>= f) d = .ok r) : ∃ a d', exec p d = .ok (a, d') ∧ exec (f a) d' = .ok r := by
  cases he : exec p d with
  | error e =>
    rw [exec_fails he] at h
    cases h
  | ok s => exact ⟨s.1, s.2, rfl, by rwa [exec_then he] at h⟩

theorem removeLoop_bound {r : Unit × Disk}
    (h : exec (InodeManager.removeLoop env ino ind n i) d = .ok r) : n = 0 ∨ i + n ≤ maxFile := by
  induction n generalizing i d with
  | zero => exact .inl rfl
  | succ n ih =>
    by_cases hi : i < maxFile
    · obtain ⟨_, _, -, h⟩ := exec_ok_bind h
      obtain ⟨_, _, -, h⟩ := exec_ok_bind h
      have := ih h
      omega
    · rw [InodeManager.removeLoop, exec_fails (exec_blk_outside (by omega))] at h
      cases h

theorem freeLoop_bound {r : (Inode × Block) × Disk}
    (h : exec (InodeManager.freeLoop env n i ino ind) d = .ok r) : n = 0 ∨ i + n ≤ maxFile := by
  induction n generalizing i d ino ind with
  | zero => exact .inl rfl
  | succ n ih =>
    by_cases hi : i < maxFile
    · obtain ⟨_, _, -, h⟩ := exec_ok_bind h
      obtain ⟨_, _, -, h⟩ := exec_ok_bind h
      obtain ⟨_, _, -, h⟩ := exec_ok_bind h
      have := ih h
      omega
    · rw [InodeManager.freeLoop, exec_fails (exec_blk_outside (by omega))] at h
      cases h

theorem growLoop_bound {r : (Inode × Block) × Disk}
    (h : exec (InodeManager.growLoop env buf n i ino ind) d = .ok r) :
    n = 0 ∨ i + n ≤ maxFile := by
  induction n generalizing i d ino ind with
  | zero => exact .inl rfl
  | succ n ih =>
    obtain ⟨_, _, -, h⟩ := exec_ok_bind h
    by_cases hi : i < maxFile
    · obtain ⟨_, _, -, h⟩ := exec_ok_bind h
      obtain ⟨_, _, -, h⟩ := exec_ok_bind h
      obtain ⟨_, _, -, h⟩ := exec_ok_bind h
      have := ih h
      omega
    · rw [exec_fails (exec_setBlk_outside (by omega))] at h
      cases h

end Yfs.FileBlocks
