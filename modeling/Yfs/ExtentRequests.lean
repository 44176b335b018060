import Yfs.BlockAllocation
import Yfs.FileContents

/-!
# Sequential runs of the extent server

What each request does to a disk that satisfies the invariant, and the invariant along runs. As
long as no `put` is too long, the sizes of all files are the lengths of their contents.
-/

namespace Yfs.ExtentRequests
open CallTrees LabelledRuns MemoryBlocks BlockManager InodeManager InodeTable FileBlocks
open BlockOwnership FileWrites FileContents
open BlockAllocation (DataBlock dataBlock_of_mapped bitOf_of_not_mapped)
open LockProtocol (Str)
open ExtentClient (Attr Reply ExtentId typeDir)

/-- One request, handled without leaving an array. -/
def Step (d : Disk) (l : Request × Reply) (d' : Disk) : Prop :=
  ∃ env, exec (handle env l.1) d = .ok (l.2, d')

/-- The disk of a new server. -/
def Fresh (d : Disk) : Prop := ∃ env, newServer env = .ok (1, d)

/-- A `put` of at most `MAXFILE * BLOCK_SIZE` bytes. -/
def PutFits : Request → Prop
  | .put _ buf => buf.length ≤ maxFile * blockSize
  | _ => True

variable {d d' d₀ : Disk} {env : Env} {buf : Str} {i j b : ℕ} {id : ExtentId} {type : UInt32}
  {req : Request} {rep : Reply} {l : Request × Reply} {tr : List (Request × Reply)}

theorem inumOf_ofNat {m : ℕ} (h : m < 2 ^ 31) : inumOf (UInt64.ofNat m) = m := by
  have hm : (UInt64.ofNat m).toNat = m := UInt64.toNat_ofNat_of_lt' (h.trans (by decide))
  unfold inumOf
  rw [UInt64.toNat_and, hm]
  exact (Nat.and_two_pow_sub_one_eq_mod m 31).trans (Nat.mod_eq_of_lt h)

/-! ## What each request does -/

/-- The changes that a request makes, and its answer. -/
def Effect (d : Disk) (env : Env) (rep : Reply) (d' : Disk) : Request → Prop
  | .create type =>
    (∃ m, 0 < m ∧ m < inodeNum ∧ ¬Live d m ∧ (∀ k, 0 < k → k < m → Live d k) ∧
      rep = { id := UInt64.ofNat m } ∧
      d' = setInode d m (newInode env type.toNat (inodeOf d m))) ∨
    (∀ k, 0 < k → k < inodeNum → Live d k) ∧ rep = { id := 0 } ∧ d' = d
  | .put id buf => rep = {} ∧
    ((Live d (inumOf id) ∧ Written d d' (inumOf id) env buf (toInt buf.length)) ∨
      ¬Live d (inumOf id) ∧ d' = d)
  | .get id =>
    (Live d (inumOf id) ∧ rep = { buf := content d (inumOf id) } ∧ Small d (inumOf id) ∧
      Touched d d' (inumOf id)) ∨
    ¬Live d (inumOf id) ∧ rep = {} ∧ d' = d
  | .getattr id => d' = d ∧ ∃ a, rep = { attr := a } ∧ (Live d (inumOf id) →
      a.type = .ofNat (shortToUInt (inoType (inodeOf d (inumOf id)))) ∧
        a.size = .ofNat (inoSize (inodeOf d (inumOf id))))
  | .remove id => rep = {} ∧
    ((Live d (inumOf id) ∧ Rewrites d d' (inumOf id) ∧ ¬Live d' (inumOf id)) ∨
      ¬Live d (inumOf id) ∧ d' = d)

theorem exec_put_not (hi : ¬Live d (inumOf id)) : exec (put env id buf) d = .ok ({}, d) := by
  have hw : exec (writeFile env (inumOf id) buf (toInt buf.length)) d = .ok ((), d) := by
    rw [writeFile, exec_then (exec_getInode_not hi)]
    rfl
  exact exec_then hw

theorem exec_get_not (hi : ¬Live d (inumOf id)) :
    exec (InodeManager.get env id) d = .ok ({}, d) := by
  have hr : exec (readFile env (inumOf id)) d = .ok (([], 0), d) := by
    rw [readFile, exec_then (exec_getInode_not hi)]
    rfl
  exact exec_then hr

theorem exec_remove_not (hi : ¬Live d (inumOf id)) :
    exec (remove env id) d = .ok ({}, d) := by
  have hr : exec (removeFile env (inumOf id)) d = .ok ((), d) := by
    rw [removeFile, exec_then (exec_getInode_not hi)]
    rfl
  exact exec_then hr

/-- `getattr` reads one block at most. -/
theorem exec_attrOf (env : Env) (id : ExtentId) (d : Disk) :
    ∃ a, exec (attrOf env id) d = .ok ({ attr := a }, d) ∧ (inumOf id < inodeNum →
      a.type = .ofNat (shortToUInt (inoType (inodeOf d (inumOf id)))) ∧
        a.size = .ofNat (inoSize (inodeOf d (inumOf id)))) := by
  have hg : ∃ a, exec (getattr env (inumOf id)) d = .ok (a, d) ∧ (inumOf id < inodeNum →
      a.type = .ofNat (shortToUInt (inoType (inodeOf d (inumOf id)))) ∧
        a.size = .ofNat (inoSize (inodeOf d (inumOf id)))) := by
    by_cases hb : iblock (inumOf id) < blockNum
    · rw [getattr, exec_then (exec_readBlock hb)]
      exact ⟨_, rfl, fun _ => ⟨rfl, rfl⟩⟩
    · rw [getattr, readBlock, if_neg hb]
      exact ⟨_, rfl, fun hi => absurd (iblock_lt_num hi) hb⟩
  obtain ⟨a, ha, hfields⟩ := hg
  exact ⟨a, exec_then ha, hfields⟩

theorem create_effect (h : exec (create env type) d = .ok (rep, d')) :
    Effect d env rep d' (.create type) := by
  rcases exec_allocInode env type.toNat d with ⟨m, h₁, h₂, h₃, h₄, he⟩ | ⟨hall, he⟩
  · rw [create, exec_then he] at h
    cases h
    exact .inl ⟨m, h₁, h₂, h₃, h₄, rfl, rfl⟩
  · rw [create, exec_then he] at h
    cases h
    exact .inr ⟨hall, rfl, rfl⟩

theorem put_effect (hinv : Inv d) (h : exec (put env id buf) d = .ok (rep, d')) :
    Effect d env rep d' (.put id buf) := by
  by_cases hi : Live d (inumOf id)
  · obtain ⟨_, d₁, hw, h⟩ := exec_ok_bind h
    cases h
    have hsmall := small_of_writeFile hi (hinv.sound _ hi).size (isInt_toInt _) hw
    exact ⟨rfl, .inl ⟨hi, (Inv.writeFile hinv hi hsmall (isInt_toInt _)).ok hw⟩⟩
  · rw [exec_put_not hi] at h
    cases h
    exact ⟨rfl, .inr ⟨hi, rfl⟩⟩

/-- A `get` of a live inode returns only when the size is not negative. -/
theorem small_of_get (hi : Live d (inumOf id)) (hs : SizeOk (inoSize (inodeOf d (inumOf id))))
    (h : exec (get env id) d = .ok (rep, d')) : Small d (inumOf id) := by
  obtain ⟨⟨bytes, size⟩, d₁, hr, h⟩ := exec_ok_bind h
  have hsize : size = toInt (inoSize (inodeOf d (inumOf id))) := readFile_size hi hr
  obtain ⟨_, _, h, -⟩ := exec_ok_bind h
  rcases hs with hs | hs
  · exact hs
  · exfalso
    have hlt : inoSize (inodeOf d (inumOf id)) < 2 ^ 32 := load_lt _ _
    have hneg : size < 0 := by
      rw [hsize]
      unfold toInt
      omega
    rw [assign, if_pos hneg] at h
    cases h

theorem get_effect (hinv : Inv d) (h : exec (get env id) d = .ok (rep, d')) :
    Effect d env rep d' (.get id) := by
  by_cases hi : Live d (inumOf id)
  · have hsmall := small_of_get hi (hinv.sound _ hi).size h
    obtain ⟨⟨bytes, size⟩, d₁, hr, h⟩ := exec_ok_bind h
    have hmeets : Meets True (readFile env (inumOf id)) d _ := Inv.readFile hinv hi hsmall
    obtain ⟨heq, ht⟩ := hmeets.ok hr
    cases heq
    dsimp only at h
    rw [assign, if_neg (by omega)] at h
    cases h
    exact .inl ⟨hi, rfl, hsmall, ht⟩
  · rw [exec_get_not hi] at h
    cases h
    exact .inr ⟨hi, rfl, rfl⟩

theorem getattr_effect (h : exec (attrOf env id) d = .ok (rep, d')) :
    Effect d env rep d' (.getattr id) := by
  obtain ⟨a, ha, hfields⟩ := exec_attrOf env id d
  rw [ha] at h
  cases h
  exact ⟨rfl, a, rfl, fun hi => hfields hi.1⟩

theorem remove_effect (hinv : Inv d) (h : exec (remove env id) d = .ok (rep, d')) :
    Effect d env rep d' (.remove id) := by
  by_cases hi : Live d (inumOf id)
  · obtain ⟨_, d₁, hw, h⟩ := exec_ok_bind h
    cases h
    have hsmall := small_of_removeFile hi (hinv.sound _ hi).size hw
    have hmeets : Meets True (removeFile env (inumOf id)) d _ := Inv.removeFile hinv hi hsmall
    exact ⟨rfl, .inl ⟨hi, hmeets.ok hw⟩⟩
  · rw [exec_remove_not hi] at h
    cases h
    exact ⟨rfl, .inr ⟨hi, rfl⟩⟩

theorem handle_effect (hinv : Inv d) (h : exec (handle env req) d = .ok (rep, d')) :
    Effect d env rep d' req := by
  cases req with
  | create type => exact create_effect h
  | put id buf => exact put_effect hinv h
  | get id => exact get_effect hinv h
  | getattr id => exact getattr_effect h
  | remove id => exact remove_effect hinv h

/-! ## The invariant along runs -/

/-- Every request rewrites at most one file. -/
theorem Effect.rewrites (h : Effect d env rep d' req) : d' = d ∨ ∃ i, Rewrites d d' i := by
  cases req with
  | create type =>
    rcases h with ⟨m, h₁, h₂, h₃, -, -, rfl⟩ | ⟨-, -, rfl⟩
    · exact .inr ⟨m, rewrites_newInode h₃ h₂ (by omega)⟩
    · exact .inl rfl
  | put id buf =>
    rcases h.2 with ⟨-, hw⟩ | ⟨-, rfl⟩
    · exact .inr ⟨_, hw.rewrites⟩
    · exact .inl rfl
  | get id =>
    rcases h with ⟨-, -, -, ht⟩ | ⟨-, -, rfl⟩
    · exact .inr ⟨_, ht.rewrites⟩
    · exact .inl rfl
  | getattr id => exact .inl h.1
  | remove id =>
    rcases h.2 with ⟨-, hw, -⟩ | ⟨-, rfl⟩
    · exact .inr ⟨_, hw⟩
    · exact .inl rfl

theorem Inv.step (hinv : Inv d) (h : Step d l d') : Inv d' := by
  obtain ⟨env, he⟩ := h
  rcases Effect.rewrites (handle_effect hinv he) with rfl | ⟨i, hr⟩
  · exact hinv
  · exact hinv.rewrites hr

/-- The disk before the constructor has run. -/
def zeroDisk : Disk := fun _ => Vector.replicate _ 0

theorem inoType_zeroDisk (i : ℕ) : inoType (inodeOf zeroDisk i) = 0 := by
  rw [inoType, inodeOf, inodeIn, zeroDisk, slice_replicate, load_replicate]

theorem not_live_zeroDisk : ¬Live zeroDisk i := fun hi => hi.2 (inoType_zeroDisk i)

theorem inv_zeroDisk : Inv zeroDisk := by
  refine ⟨not_live_zeroDisk, fun i hi => absurd hi not_live_zeroDisk,
    fun i j b hi => absurd hi.1 not_live_zeroDisk, ?_⟩
  intro b _
  have hbit : bitOf zeroDisk b = false := by
    rw [bitOf, bitAt, zeroDisk, byteAt_replicate, UInt8.zero_and]
    rfl
  rw [hbit]
  simp only [Bool.false_eq_true, false_iff, not_exists]
  exact fun i ho => not_live_zeroDisk ho.1

/-- The constructor allocates inode 1. -/
theorem newServer_eq (env : Env) : newServer env =
    .ok (1, setInode zeroDisk 1 (newInode env typeDir.toNat (inodeOf zeroDisk 1))) := by
  rcases exec_allocInode env typeDir.toNat zeroDisk with ⟨m, h₁, -, -, h₄, he⟩ | ⟨hall, -⟩
  · have hm : m = 1 := by
      by_contra hne
      exact not_live_zeroDisk (h₄ 1 (by decide) (by omega))
    subst hm
    exact he
  · exact absurd (hall 1 (by decide) (by decide)) not_live_zeroDisk

theorem Fresh.eq (h : Fresh d) : ∃ env,
    d = setInode zeroDisk 1 (newInode env typeDir.toNat (inodeOf zeroDisk 1)) := by
  obtain ⟨env, he⟩ := h
  rw [newServer_eq] at he
  cases he
  exact ⟨env, rfl⟩

theorem Fresh.inv (h : Fresh d) : Inv d := by
  obtain ⟨env, rfl⟩ := h.eq
  exact inv_zeroDisk.rewrites (rewrites_newInode not_live_zeroDisk (by decide) (by decide))

theorem Fresh.live_iff (h : Fresh d) : Live d i ↔ i = 1 := by
  obtain ⟨env, rfl⟩ := h.eq
  constructor
  · intro hi
    by_contra hne
    exact not_live_zeroDisk ((Rewrites.live_iff (rewrites_newInode not_live_zeroDisk
      (by decide) (by decide)) hne).1 hi)
  · rintro rfl
    refine ⟨by decide, ?_⟩
    rw [inodeOf_setInode, if_pos rfl, inoType_newInode]
    decide

theorem run_inv (hf : Fresh d₀) (hr : Run Step d₀ tr d) : Inv d :=
  hr.invariant hf.inv fun _ _ _ h hs => Inv.step h hs

/-- Every size is one that a file can have. -/
def AllSmall (d : Disk) : Prop := ∀ i, Live d i → Small d i

theorem Rewrites.allSmall (h : Rewrites d d' i) (hall : AllSmall d)
    (hi : Live d' i → Small d' i) : AllSmall d' := by
  intro j hj
  by_cases hne : j = i
  · subst hne
    exact hi hj
  · have hj' := (h.live_iff hne).1 hj
    rw [FileContents.Small, h.others j (not_mapped_iblock hj.1) hne]
    exact hall j hj'

theorem Effect.allSmall (h : Effect d env rep d' req) (hall : AllSmall d) (hfit : PutFits req) :
    AllSmall d' := by
  cases req with
  | create type =>
    rcases h with ⟨m, h₁, h₂, h₃, -, -, rfl⟩ | ⟨-, -, rfl⟩
    · refine Rewrites.allSmall (rewrites_newInode h₃ h₂ (by omega)) hall fun _ => ?_
      rw [FileContents.Small, inodeOf_setInode, if_pos rfl, inoSize_newInode]
      exact Nat.zero_le _
    · exact hall
  | put id buf =>
    rcases h.2 with ⟨-, hw⟩ | ⟨-, rfl⟩
    · refine Rewrites.allSmall hw.rewrites hall fun _ => ?_
      rw [FileContents.Small, (Written.content hw hfit).1]
      exact hfit
    · exact hall
  | get id =>
    rcases h with ⟨-, -, hsmall, ht⟩ | ⟨-, -, rfl⟩
    · refine Rewrites.allSmall ht.rewrites hall fun _ => ?_
      rw [FileContents.Small, ht.sized]
      exact hsmall
    · exact hall
  | getattr id =>
    rw [h.1]
    exact hall
  | remove id =>
    rcases h.2 with ⟨-, hw, hno⟩ | ⟨-, rfl⟩
    · exact Rewrites.allSmall hw hall fun hlive => absurd hlive hno
    · exact hall

theorem Fresh.allSmall (h : Fresh d) : AllSmall d := by
  obtain ⟨env, rfl⟩ := h.eq
  refine Rewrites.allSmall (rewrites_newInode not_live_zeroDisk (by decide) (by decide))
    (fun i hi => absurd hi not_live_zeroDisk) fun _ => ?_
  rw [FileContents.Small, inodeOf_setInode, if_pos rfl, inoSize_newInode]
  exact Nat.zero_le _

theorem run_allSmall (hf : Fresh d₀) (hr : Run Step d₀ tr d) (hput : ∀ l ∈ tr, PutFits l.1) :
    AllSmall d := by
  refine hr.history_invariant (I := fun tr d => (∀ l ∈ tr, PutFits l.1) → AllSmall d)
    (fun _ => hf.allSmall) ?_ hput
  intro tr b l c hr ih hs hput
  obtain ⟨env, he⟩ := hs
  exact Effect.allSmall (handle_effect (run_inv hf hr) he) (ih fun l hl => hput l (by simp [hl]))
    (hput l (by simp))

/-! ## Requests that return -/

/-- The data blocks that are marked as used. -/
def allocated (d : Disk) : Finset ℕ :=
  (Finset.Ico firstData blockNum).filter fun b => bitOf d b = true

theorem room_of_allocated (h : (allocated d).card ≤ 1000) (i : ℕ) : Room (Other d i) :=
  ⟨allocated d, h, fun _ hb =>
    Finset.mem_filter.2 ⟨Finset.mem_Ico.2 ⟨hb.1.1, hb.1.lt⟩, hb.2.1⟩⟩

theorem allocated_of_empty (hinv : Inv d) (h : ∀ i, Live d i → inoSize (inodeOf d i) = 0) :
    allocated d = ∅ := by
  refine Finset.filter_eq_empty_iff.2 fun b hb hbit => ?_
  have hmap : Mapped b := by
    by_contra hno
    rw [bitOf_of_not_mapped d (Finset.mem_Ico.1 hb) hno] at hbit
    cases hbit
  obtain ⟨j, hj, k, hk, -⟩ := (hinv.bits b hmap).1 hbit
  have hheld : held (inodeOf d j) = 0 := by
    rw [held, h j hj]
    rfl
  rw [hheld, keys_zero] at hk
  exact hk

theorem put_returns (hinv : Inv d) (hi : Live d (inumOf id)) (hsmall : Small d (inumOf id))
    (hcount : (allocated d).card ≤ 1000) (hfit : buf.length ≤ maxFile * blockSize) (env : Env) :
    ∃ d', exec (put env id buf) d = .ok ({}, d') ∧
      Written d d' (inumOf id) env buf (toInt buf.length) := by
  have hint : toInt buf.length = buf.length := toInt_eq (lt_of_le_of_lt hfit (by decide))
  have hceil : (ceilInt (toInt buf.length)).toNat ≤ maxFile := by
    rw [hint, ceilInt_natCast, Int.toNat_natCast, ceil_le]
    exact hfit
  have hpos : 0 ≤ ceilInt (toInt buf.length) := by
    rw [hint, ceilInt_natCast]
    omega
  have hmeets : Meets _ (writeFile env (inumOf id) buf (toInt buf.length)) d _ :=
    Inv.writeFile hinv hi hsmall (isInt_toInt _)
  obtain ⟨_, d', hw, hwritten⟩ := hmeets.returns ⟨room_of_allocated hcount _, hpos, hceil⟩
  exact ⟨d', exec_then hw, hwritten⟩

theorem get_returns (hinv : Inv d) (hi : Live d (inumOf id)) (hsmall : Small d (inumOf id))
    (env : Env) : ∃ d', exec (get env id) d = .ok ({ buf := content d (inumOf id) }, d') := by
  have hmeets : Meets True (readFile env (inumOf id)) d _ := Inv.readFile hinv hi hsmall
  obtain ⟨_, d', hr, rfl, -⟩ := hmeets.returns trivial
  refine ⟨d', ?_⟩
  rw [InodeManager.get, exec_then hr]
  dsimp only
  rw [assign, if_neg (by omega)]
  rfl

/-- Only a `put` can fail, and only where the bitmap may be used up. -/
theorem handle_returns (hinv : Inv d) (hall : AllSmall d) (hfit : PutFits req)
    (hroom : ∀ id buf, req = .put id buf → (allocated d).card ≤ 1000) (env : Env) :
    ∃ rep d', exec (handle env req) d = .ok (rep, d') := by
  cases req with
  | create type =>
    rcases exec_allocInode env type.toNat d with ⟨m, -, -, -, -, he⟩ | ⟨-, he⟩
    · exact ⟨_, _, exec_then he⟩
    · exact ⟨_, _, exec_then he⟩
  | put id buf =>
    by_cases hi : Live d (inumOf id)
    · obtain ⟨d', hp, -⟩ := put_returns hinv hi (hall _ hi) (hroom id buf rfl) hfit env
      exact ⟨_, d', hp⟩
    · exact ⟨_, _, exec_put_not hi⟩
  | get id =>
    by_cases hi : Live d (inumOf id)
    · obtain ⟨d', hg⟩ := get_returns hinv hi (hall _ hi) env
      exact ⟨_, d', hg⟩
    · exact ⟨_, _, exec_get_not hi⟩
  | getattr id =>
    obtain ⟨a, ha, -⟩ := exec_attrOf env id d
    exact ⟨_, _, ha⟩
  | remove id =>
    by_cases hi : Live d (inumOf id)
    · have hmeets : Meets True (removeFile env (inumOf id)) d _ :=
        Inv.removeFile hinv hi (hall _ hi)
      obtain ⟨_, d', hr, -⟩ := hmeets.returns trivial
      exact ⟨_, d', exec_then hr⟩
    · exact ⟨_, _, exec_remove_not hi⟩

/-! ## A first file -/

/-- A new file on a new server. -/
theorem Fresh.create (hf : Fresh d₀) (env : Env) : ∃ d,
    exec (create env 2) d₀ = .ok ({ id := 2 }, d) ∧ Live d 2 ∧
      ∀ i, Live d i → inoSize (inodeOf d i) = 0 := by
  rcases exec_allocInode env (2 : UInt32).toNat d₀ with ⟨m, h₁, -, h₃, h₄, he⟩ | ⟨hall, -⟩
  · have hm : m = 2 := by
      rw [hf.live_iff] at h₃
      by_contra hne
      have := hf.live_iff.1 (h₄ 2 (by decide) (by omega))
      omega
    subst hm
    have hrw : Rewrites d₀ (setInode d₀ 2 (newInode env (2 : UInt32).toNat (inodeOf d₀ 2))) 2 :=
      rewrites_newInode h₃ (by decide) (by decide)
    refine ⟨_, by rw [InodeManager.create, exec_then he]; rfl, ⟨by decide, ?_⟩, ?_⟩
    · rw [inodeOf_setInode, if_pos rfl, inoType_newInode]
      decide
    · intro i hi
      rw [inodeOf_setInode]
      by_cases hi2 : i = 2
      · rw [if_pos hi2, inoSize_newInode]
      · rw [if_neg hi2]
        have hone := hf.live_iff.1 ((Rewrites.live_iff hrw hi2).1 hi)
        subst hone
        obtain ⟨env', rfl⟩ := hf.eq
        rw [inodeOf_setInode, if_pos rfl, inoSize_newInode]
  · exact absurd (hf.live_iff.1 (hall 2 (by decide) (by decide))) (by decide)

theorem Fresh.run_create (hf : Fresh d₀) : ∃ d, Run Step d₀ [(.create 2, { id := 2 })] d ∧
    (allocated d).card ≤ 1000 ∧ Live d (inumOf 2) ∧ ∀ i, Live d i → inoSize (inodeOf d i) = 0 := by
  obtain ⟨d, hc, hlive, hempty⟩ := hf.create ⟨0, Vector.replicate _ 0, fun _ => 0⟩
  have hstep : Step d₀ (.create 2, { id := 2 }) d := ⟨_, hc⟩
  have hid : inumOf 2 = 2 := by decide
  refine ⟨d, .single hstep, ?_, by rwa [hid], hempty⟩
  rw [allocated_of_empty (Inv.step hf.inv hstep) hempty]
  exact Nat.zero_le _

/-- A file is created and filled. -/
theorem Fresh.run_put (hf : Fresh d₀) (hfit : buf.length ≤ maxFile * blockSize) :
    ∃ d, Run Step d₀ [(.create 2, { id := 2 }), (.put 2 buf, {})] d := by
  obtain ⟨d₁, hr, hcount, hlive, hempty⟩ := hf.run_create
  have hsmall : Small d₁ (inumOf 2) := by
    rw [FileContents.Small, hempty _ hlive]
    exact Nat.zero_le _
  obtain ⟨d₂, hp, -⟩ := put_returns (run_inv hf hr) hlive hsmall hcount hfit
    ⟨0, Vector.replicate _ 0, fun _ => 0⟩
  exact ⟨d₂, hr.snoc ⟨_, hp⟩⟩

end Yfs.ExtentRequests
