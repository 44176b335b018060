import Yfs.ExtentRequests

/-!
# The extent server as a map

What the extent server is for: a map from inode numbers to a type and a string of bytes. The disk
of the server, seen as such a map, takes the steps of the map.
-/

namespace Yfs.ExtentRefinement
open LabelledRuns MemoryBlocks BlockManager InodeManager InodeTable FileBlocks
open BlockOwnership FileWrites FileContents ExtentRequests
open LockProtocol (Str)
open ExtentClient (Attr Reply ExtentId typeDir)

/-! ## The map -/

/-- The type and the content of each live inode number. -/
abbrev Files := ℕ → Option (UInt32 × Str)

/-- A new file. A type is kept in a `short`, and type 0 is no file at all. -/
def newFile (type : UInt32) : Option (UInt32 × Str) :=
  let short := type.toNat % 2 ^ 16
  if short = 0 then none else some (.ofNat (shortToUInt short), [])

/-- The requests on the map; the times are left open. -/
inductive FilesStep : Files → Request × Reply → Files → Prop where
  | create {f : Files} {type : UInt32} {m : ℕ} (hpos : 0 < m) (hlt : m < inodeNum)
      (hfree : f m = none) (hleast : ∀ k, 0 < k → k < m → f k ≠ none) :
      FilesStep f (.create type, { id := UInt64.ofNat m }) (Function.update f m (newFile type))
  | createFull {f : Files} {type : UInt32} (hall : ∀ k, 0 < k → k < inodeNum → f k ≠ none) :
      FilesStep f (.create type, { id := 0 }) f
  | put {f : Files} {id : ExtentId} {buf old : Str} {type : UInt32}
      (h : f (inumOf id) = some (type, old)) :
      FilesStep f (.put id buf, {}) (Function.update f (inumOf id) (some (type, buf)))
  | putNone {f : Files} {id : ExtentId} {buf : Str} (h : f (inumOf id) = none) :
      FilesStep f (.put id buf, {}) f
  | get {f : Files} {id : ExtentId} {buf : Str} {type : UInt32}
      (h : f (inumOf id) = some (type, buf)) : FilesStep f (.get id, { buf := buf }) f
  | getNone {f : Files} {id : ExtentId} (h : f (inumOf id) = none) :
      FilesStep f (.get id, { buf := [] }) f
  | getattr {f : Files} {id : ExtentId} {buf : Str} {type : UInt32} {a : Attr}
      (h : f (inumOf id) = some (type, buf)) (htype : a.type = type)
      (hsize : a.size.toNat = buf.length) : FilesStep f (.getattr id, { attr := a }) f
  | getattrNone {f : Files} {id : ExtentId} {a : Attr} (h : f (inumOf id) = none) :
      FilesStep f (.getattr id, { attr := a }) f
  | remove {f : Files} {id : ExtentId} :
      FilesStep f (.remove id, {}) (Function.update f (inumOf id) none)

/-- The root directory and nothing else. -/
def rootOnly : Files := Function.update (fun _ => none) 1 (some (typeDir, []))

example : newFile typeDir = some (typeDir, []) := by decide

example : newFile ExtentClient.typeFile = some (ExtentClient.typeFile, []) := by decide

/-! ## The disk as a map -/

def reported (ino : Inode) : UInt32 := .ofNat (shortToUInt (inoType ino))

def files (d : Disk) : Files := fun i =>
  if Live d i then some (reported (inodeOf d i), content d i) else none

variable {d d' d₀ : Disk} {env : Env} {i : ℕ} {req : Request} {rep : Reply}
  {tr : List (Request × Reply)}

theorem files_live (h : Live d i) : files d i = some (reported (inodeOf d i), content d i) :=
  if_pos h

theorem files_not_live (h : ¬Live d i) : files d i = none := if_neg h

theorem files_ne_none : files d i ≠ none ↔ Live d i := by
  by_cases h : Live d i
  · simp [files_live h, h]
  · simp [files_not_live h, h]

/-- Rewriting one file changes one entry of the map. -/
theorem files_rewrites (hinv : Inv d) (h : Rewrites d d' i) :
    files d' = Function.update (files d) i (files d' i) := by
  funext j
  by_cases hne : j = i
  · subst hne
    rw [Function.update_self]
  · rw [Function.update_of_ne hne]
    by_cases hj : Live d j
    · rw [files_live hj, files_live ((h.live_iff hne).2 hj), h.others j (not_mapped_iblock hj.1) hne,
        Rewrites.content_eq h hinv hj hne]
    · rw [files_not_live hj, files_not_live (mt (h.live_iff hne).1 hj)]

theorem files_newInode (type : UInt32) (hi : i < inodeNum) :
    files (setInode d i (newInode env type.toNat (inodeOf d i))) i = newFile type := by
  have hino : inodeOf (setInode d i (newInode env type.toNat (inodeOf d i))) i =
      newInode env type.toNat (inodeOf d i) := by rw [inodeOf_setInode, if_pos rfl]
  generalize setInode d i (newInode env type.toNat (inodeOf d i)) = d' at *
  have htype : inoType (inodeOf d' i) = type.toNat % 2 ^ 16 := by rw [hino, inoType_newInode]
  have hcontent : content d' i = [] := by rw [content, hino, inoSize_newInode, List.take_zero]
  unfold newFile
  generalize type.toNat % 2 ^ 16 = short at *
  by_cases h : short = 0
  · rw [files_not_live fun hlive => hlive.2 (htype.trans h), if_pos h]
  · rw [files_live ⟨hi, by rwa [htype]⟩, reported, htype, hcontent, if_neg h]

/-- Reading a file does not change the map. -/
theorem files_touched (hinv : Inv d) (hi : Live d i) (h : Touched d d' i) : files d' = files d := by
  rw [files_rewrites hinv h.rewrites, files_live h.live, reported, h.type, h.same, ← reported,
    ← files_live hi, Function.update_eq_self]

/-- A size is the length of the content. -/
theorem length_content (hsmall : Small d i) :
    (content d i).length = inoSize (inodeOf d i) := by
  rw [content, List.length_take, length_blocks fun k => d (diskRef d i k), held_eq hsmall]
  exact min_eq_left ceil_mul

/-- Each request takes a step of the map. -/
theorem files_step (hinv : Inv d) (hall : AllSmall d) (hfit : PutFits req)
    (h : Effect d env rep d' req) : FilesStep (files d) (req, rep) (files d') := by
  cases req with
  | create type =>
    rcases h with ⟨m, h₁, h₂, h₃, h₄, rfl, rfl⟩ | ⟨hfull, rfl, rfl⟩
    · rw [files_rewrites hinv (rewrites_newInode h₃ h₂ (by omega)), files_newInode type h₂]
      exact .create h₁ h₂ (files_not_live h₃) fun k hk hlt => files_ne_none.2 (h₄ k hk hlt)
    · exact .createFull fun k hk hlt => files_ne_none.2 (hfull k hk hlt)
  | put id buf =>
    obtain ⟨rfl, ⟨hi, hw⟩ | ⟨hi, rfl⟩⟩ := h
    · rw [files_rewrites hinv hw.rewrites, files_live hw.live, reported, hw.type,
        (Written.content hw hfit).2]
      exact .put (files_live hi)
    · exact .putNone (files_not_live hi)
  | get id =>
    rcases h with ⟨hi, rfl, -, ht⟩ | ⟨hi, rfl, rfl⟩
    · rw [files_touched hinv hi ht]
      exact .get (files_live hi)
    · exact .getNone (files_not_live hi)
  | getattr id =>
    obtain ⟨rfl, a, rfl, ha⟩ := h
    by_cases hi : Live d' (inumOf id)
    · obtain ⟨htype, hsize⟩ := ha hi
      refine .getattr (files_live hi) htype ?_
      have hlt : inoSize (inodeOf d' (inumOf id)) < 2 ^ 32 := load_lt _ _
      rw [hsize, length_content (hall _ hi), UInt32.toNat_ofNat_of_lt' hlt]
    · exact .getattrNone (files_not_live hi)
  | remove id =>
    obtain ⟨rfl, ⟨-, hw, hno⟩ | ⟨hi, rfl⟩⟩ := h
    · rw [files_rewrites hinv hw, files_not_live hno]
      exact .remove
    · have h := @FilesStep.remove (files d') id
      rwa [← files_not_live hi, Function.update_eq_self] at h

theorem files_fresh (hf : Fresh d) : files d = rootOnly := by
  obtain ⟨env, rfl⟩ := hf.eq
  rw [files_rewrites inv_zeroDisk (rewrites_newInode not_live_zeroDisk (by decide) (by decide)),
    files_newInode typeDir (by decide)]
  have hzero : files zeroDisk = fun _ => none := funext fun _ => files_not_live not_live_zeroDisk
  rw [hzero]
  rfl

theorem run_files (hf : Fresh d₀) (hr : Run Step d₀ tr d)
    (hput : ∀ l ∈ tr, PutFits l.1) : Run FilesStep rootOnly tr (files d) := by
  refine hr.history_invariant
    (I := fun tr d => (∀ l ∈ tr, PutFits l.1) → Run FilesStep rootOnly tr (files d)) ?_ ?_ hput
  · intro _
    rw [files_fresh hf]
    exact .nil
  · intro tr b l c hr ih hs hput
    have hput' : ∀ l ∈ tr, PutFits l.1 := fun l hl => hput l (by simp [hl])
    obtain ⟨env, he⟩ := hs
    have heffect := handle_effect (run_inv hf hr) he
    exact (ih hput').snoc (files_step (run_inv hf hr) (run_allSmall hf hr hput')
      (hput l (by simp)) heffect)

/-- Every sequential run of the extent server, seen as a map, is a run of the map. The next request
returns; a `put` does so at least while few blocks are in use. -/
theorem server_refines_map (hf : Fresh d₀) (hr : Run Step d₀ tr d)
    (hput : ∀ l ∈ tr, PutFits l.1) :
    Run FilesStep rootOnly tr (files d) ∧ ∀ env req, PutFits req →
      (∀ id buf, req = .put id buf → (allocated d).card ≤ 1000) →
        ∃ rep d', exec (handle env req) d = .ok (rep, d') :=
  ⟨run_files hf hr hput, fun env _ hfit hroom =>
    handle_returns (run_inv hf hr) (run_allSmall hf hr hput) hfit hroom env⟩

theorem server_refines_map_first : ∃ d₀ tr d, (Fresh d₀ ∧ Run Step d₀ tr d ∧
    (.put 2 [1, 2, 3], {}) ∈ tr) ∧ Run FilesStep rootOnly tr (files d) := by
  have hf : Fresh _ := ⟨⟨0, Vector.replicate _ 0, fun _ => 0⟩, newServer_eq _⟩
  have hfit : ([1, 2, 3] : Str).length ≤ maxFile * blockSize := by decide
  obtain ⟨d, hr⟩ := hf.run_put hfit
  refine ⟨_, _, d, ⟨hf, hr, .tail _ (.head _)⟩, (server_refines_map hf hr ?_).1⟩
  simp [PutFits, maxFile, blockSize]

end Yfs.ExtentRefinement
