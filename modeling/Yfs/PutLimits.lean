import Yfs.ExtentRequests

/-!
# How long a `put` may be

A buffer of more than 160 blocks is not rejected: its last references are written behind the
indirect block, or only a part of it is kept.
-/

namespace Yfs.PutLimits
open CallTrees LabelledRuns MemoryBlocks BlockManager InodeManager InodeTable FileBlocks
open BlockOwnership FileWrites FileContents ExtentRequests
open LockProtocol (Str statusOk)
open ExtentClient (Reply ExtentId)

variable {d d' d₀ : Disk} {env : Env} {buf : Str} {id : ExtentId} {rep : Reply}
  {tr : List (Request × Reply)}

/-- What a request answers. -/
def answer (p : DiskProg Reply) (d : Disk) : Except Fault Reply := (exec p d).map Prod.fst

/-- The contents and the attributes of all ids. -/
def Unchanged (d d' : Disk) : Prop := ∀ env id,
  answer (get env id) d' = answer (get env id) d ∧
    answer (attrOf env id) d' = answer (attrOf env id) d

/-- `put` stays within its arrays, and either `get` returns the buffer afterwards, or `put` was
rejected and nothing has changed. -/
def AllOrNothing (d : Disk) (id : ExtentId) (buf : Str) : Prop :=
  ∀ env, ∃ rep d', exec (put env id buf) d = .ok (rep, d') ∧
    ((∀ env, ∃ d'', exec (get env id) d' = .ok ({ buf := buf }, d'')) ∨
      rep.ret ≠ statusOk ∧ Unchanged d d')

theorem allOrNothing_of_fits (hinv : Inv d) (hcount : (allocated d).card ≤ 1000)
    (hi : Live d (inumOf id)) (hsmall : Small d (inumOf id))
    (hfit : buf.length ≤ maxFile * blockSize) : AllOrNothing d id buf := by
  intro env
  obtain ⟨d', hp, hw⟩ := put_returns hinv hi hsmall hcount hfit env
  refine ⟨{}, d', hp, .inl fun env' => ?_⟩
  obtain ⟨hsize, hcontent⟩ := Written.content hw hfit
  have hsmall' : Small d' (inumOf id) := by
    rw [FileContents.Small, hsize]
    exact hfit
  have hget := get_returns (hinv.rewrites hw.rewrites) hw.live hsmall' env'
  rwa [hcontent] at hget

/-- What `get` returns is never longer than a file. -/
theorem get_length (hinv : Inv d) (hi : Live d (inumOf id))
    (h : exec (get env id) d = .ok (rep, d')) : rep.buf.length ≤ maxFile * blockSize := by
  rcases get_effect hinv h with ⟨-, rfl, hsmall, -⟩ | ⟨hno, -⟩
  · exact (List.length_take_le _ _).trans hsmall
  · exact absurd hi hno

theorem fits_of_allOrNothing (hinv : Inv d) (hi : Live d (inumOf id)) (h : AllOrNothing d id buf) :
    buf.length ≤ maxFile * blockSize ∧ Small d (inumOf id) := by
  let env : Env := ⟨0, Vector.replicate _ 0, fun _ => 0⟩
  obtain ⟨rep, d', hp, hor⟩ := h env
  obtain ⟨rfl, ⟨-, hw⟩ | ⟨hno, -⟩⟩ := put_effect hinv hp
  · rcases hor with hget | ⟨hrej, -⟩
    · obtain ⟨d'', hg⟩ := hget env
      obtain ⟨_, _, hwrite, -⟩ := exec_ok_bind hp
      exact ⟨get_length (hinv.rewrites hw.rewrites) hw.live hg,
        small_of_writeFile hi (hinv.sound _ hi).size (isInt_toInt _) hwrite⟩
    · exact absurd rfl hrej
  · exact absurd hi hno

/-- A `put` that returns has needed at most 160 blocks. -/
theorem put_blocks {r : Reply × Disk} (hinv : Inv d) (hi : Live d (inumOf id))
    (h : exec (put env id buf) d = .ok r) : (ceilInt (toInt buf.length)).toNat ≤ maxFile := by
  obtain ⟨-, ⟨-, hw⟩ | ⟨hno, -⟩⟩ := put_effect hinv h
  · rw [← Written.held_eq hw (isInt_toInt _)]
    exact (hw.rewrites.sound hw.live).few
  · exact absurd hi hno

/-- In every reachable state with room left, `put` on a live id is all or nothing exactly when the
buffer is not longer than 160 blocks, and the size of the file was not spoilt by a longer one. -/
theorem put_all_or_nothing_iff (hf : Fresh d₀) (hr : Run Step d₀ tr d)
    (hcount : (allocated d).card ≤ 1000) (hi : Live d (inumOf id)) :
    AllOrNothing d id buf ↔
      buf.length ≤ maxFile * blockSize ∧ inoSize (inodeOf d (inumOf id)) ≤ maxFile * blockSize := by
  have hinv := run_inv hf hr
  constructor
  · exact fits_of_allOrNothing hinv hi
  · rintro ⟨hfit, hsmall⟩
    exact allOrNothing_of_fits hinv hcount hi hsmall hfit

theorem put_all_or_nothing_full : ∃ d₀ tr d, (Fresh d₀ ∧ Run Step d₀ tr d ∧
    (allocated d).card ≤ 1000 ∧ Live d (inumOf 2)) ∧
    AllOrNothing d 2 (List.replicate (160 * 512) 7) := by
  have hf : Fresh _ := ⟨⟨0, Vector.replicate _ 0, fun _ => 0⟩, newServer_eq _⟩
  obtain ⟨d, hr, hcount, hi, hempty⟩ := hf.run_create
  refine ⟨_, _, d, ⟨hf, hr, hcount, hi⟩, (put_all_or_nothing_iff hf hr hcount hi).2 ⟨?_, ?_⟩⟩
  · rw [List.length_replicate]
    decide
  · rw [hempty (inumOf 2) hi]
    exact Nat.zero_le _

/-- One byte more than 160 blocks for a new file, on a disk with nothing else on it. -/
theorem put_leaves_indirect : ∃ d₀ tr d, (Fresh d₀ ∧ Run Step d₀ tr d ∧
    (allocated d).card ≤ 1000 ∧ Live d (inumOf 2)) ∧
    (∀ env, ∃ e, exec (put env 2 (List.replicate (160 * 512 + 1) 7)) d = .error e) ∧
    ¬AllOrNothing d 2 (List.replicate (160 * 512 + 1) 7) := by
  have hf : Fresh _ := ⟨⟨0, Vector.replicate _ 0, fun _ => 0⟩, newServer_eq _⟩
  obtain ⟨d, hr, hcount, hi, -⟩ := hf.run_create
  have hfails : ∀ env, ∃ e, exec (put env 2 (List.replicate (160 * 512 + 1) 7)) d = .error e := by
    intro env
    cases he : exec (put env 2 (List.replicate (160 * 512 + 1) 7)) d with
    | error e => exact ⟨e, rfl⟩
    | ok r =>
      have hle := put_blocks (run_inv hf hr) hi he
      rw [List.length_replicate, toInt_eq (by decide), ceilInt_natCast, Int.toNat_natCast,
        ceil_le] at hle
      exact absurd hle (by decide)
  refine ⟨_, _, d, ⟨hf, hr, hcount, hi⟩, hfails, fun h => ?_⟩
  obtain ⟨rep, d', hp, -⟩ := h ⟨0, Vector.replicate _ 0, fun _ => 0⟩
  obtain ⟨e, he⟩ := hfails ⟨0, Vector.replicate _ 0, fun _ => 0⟩
  rw [hp] at he
  cases he

end Yfs.PutLimits
