import Yfs.LockScopes

/-!
# Locks taken and locks given back

Every operation of the file-system layer gives back the locks it takes and no others, on
every path and whatever its calls are answered, except that `unlink` keeps the lock of the
directory when the lookup fails or does not find the name.
-/

namespace Yfs.LockBalance
open CallTrees LockProtocol ExtentClient DirectoryFormat YfsClient LockScopes

/-- `held_lock` is the same set after as before, and every lock was released as often as it
was acquired. -/
def Balanced (h h' : Held) (calls : List Step) : Prop :=
  (∀ i, i ∈ h' ↔ i ∈ h) ∧
    ∀ i, calls.countP (fun x => x.2 = .acquire i) = calls.countP (fun x => x.2 = .release i)

/-- `unlink` takes the lock of the directory, and its lookup, which is answered `got`, does
not lead to an entry. -/
def LeavesLocked : FsOp → Held → List Reply → Prop
  | .unlink parent name, h, _ :: got :: _ => parent ∉ h ∧ foundIn name got = none
  | _, _, _ => False

/-- Every call is allowed. -/
abbrev anyCall : Log Step Reply → Step → Prop := fun _ _ => True

theorem permits_anyCall : Permits anyCall := fun _ _ _ => trivial

/-- The program of an operation that gives back what it takes. -/
theorem moves_program {o : FsOp} (L : Locks)
    (h : ∀ parent name, o = .unlink parent name → parent ∈ L.held) :
    Moves anyCall L o.program L := by
  cases o with
  | create parent name type =>
    exact logTriple_discard (moves_create permits_anyCall L parent name fun _ _ _ _ => trivial)
  | unlink parent name =>
    exact logTriple_discard (moves_unlink_held permits_anyCall name (h parent name rfl))
  | _ => exact moves_plain permits_anyCall L trivial

/-- `unlink` gives back the lock of the directory just if the lookup finds the name. -/
theorem unlink_locks {L : Locks} {parent : Inum} (name : Str) (hp : parent ∉ L.held) :
    LogTriple anyCall (Seen L []) (unlink parent name) (fun _ s h => ∃ acq got,
      [acq, got] <+: s.answers ∧
        (At L s h ∧ foundIn name got ≠ none ∨
          At (L.locked false parent) s h ∧ foundIn name got = none)) := by
  refine seen_unlink permits_anyCall name hp (fun acq got s hn hs _ => ?_)
    fun acq got ino hf => ?_
  · exact ⟨acq, got, by simp [hs.2], .inr ⟨hs.1, hn⟩⟩
  · have hmoves : Moves anyCall (L.locked false parent) (unlinkFound parent name ino false) L :=
      moves_unlinkFound permits_anyCall name (by simpa using hp) fun _ _ _ _ => trivial
    have hgrow : ∀ s q a s', Log.next (Q := Step) s q a s' → [acq, got] <+: s.answers →
        [acq, got] <+: s'.answers := by
      rintro s q a s' rfl h
      exact h.trans (List.prefix_append _ _)
    exact (logTriple_keeps hmoves hgrow).weaken (fun s h hs => ⟨hs.1, by simp [hs.2]⟩)
      fun _ s h hs => ⟨acq, got, hs.2, .inl ⟨hs.1, by simp [hf]⟩⟩

/-- The locks before an operation. -/
def entryLocks (h : Held) : Locks := ⟨h, fun _ => 0⟩

theorem seen_entry (h : Held) : Seen (entryLocks h) [] ⟨[], []⟩ h := ⟨⟨rfl, rfl⟩, rfl⟩

theorem balanced_of_at {h h' : Held} {s : Log Step Reply} (hs : At (entryLocks h) s h') :
    Balanced h h' s.calls := by
  obtain ⟨rfl, hb⟩ := hs
  refine ⟨fun _ => Iff.rfl, fun i => ?_⟩
  have hi := congrFun hb i
  simp only [surplus, entryLocks] at hi
  omega

theorem not_balanced_of_at {h h' : Held} {parent : Inum} {s : Log Step Reply} (hp : parent ∉ h)
    (hs : At ((entryLocks h).locked false parent) s h') : ¬Balanced h h' s.calls := by
  obtain ⟨rfl, -⟩ := hs
  exact fun hb => hp ((hb.1 parent).1 List.mem_cons_self)

/-- An operation that returns has given back exactly the locks it took, unless it is an
`unlink` that took the lock of the directory and whose lookup failed or found nothing. -/
theorem locks_balanced_iff (o : FsOp) (h h' : Held) (answers : List Reply)
    (hret : (feed (o.program.run h) answers).2 = some (.ok ((), h'))) :
    Balanced h h' (feed (o.program.run h) answers).1 ↔ ¬LeavesLocked o h answers := by
  by_cases hu : ∀ parent name, o = .unlink parent name → parent ∈ h
  · -- the locks come back, and the condition cannot hold
    obtain ⟨used, -, hs⟩ := (moves_program (entryLocks h) hu _ h (seen_entry h).1).feed_result hret
    refine iff_of_true (balanced_of_at hs) fun hl => ?_
    match o, answers, hl with
    | .unlink parent name, _ :: got :: _, hl => exact hl.1 (hu parent name rfl)
  · push Not at hu
    obtain ⟨parent, name, rfl, hp⟩ := hu
    obtain ⟨used, hused, acq, got, hpre, hs⟩ :=
      (logTriple_discard (unlink_locks name hp) _ h (seen_entry h)).feed_result hret
    obtain ⟨rest, rfl⟩ := hpre.trans hused
    rcases hs with ⟨hs, hf⟩ | ⟨hs, hf⟩
    · exact iff_of_true (balanced_of_at hs) fun hl => hf hl.2
    · exact iff_of_false (not_balanced_of_at hp hs) (not_not.2 ⟨hp, hf⟩)

/-- An `unlink` that finds the file and removes it. -/
theorem locks_balanced_unlink :
    (feed ((FsOp.unlink 1 [97]).program.run [])
        [{}, { buf := chain [dummy, ⟨2, [97], []⟩] }, {}, { attr := { type := typeFile } },
          { buf := chain [dummy, ⟨2, [97], []⟩] }, { buf := chain [dummy, ⟨2, [97], []⟩] },
          {}, {}, {}, {}]).2 = some (.ok ((), [])) ∧
      Balanced [] [] (feed ((FsOp.unlink 1 [97]).program.run [])
        [{}, { buf := chain [dummy, ⟨2, [97], []⟩] }, {}, { attr := { type := typeFile } },
          { buf := chain [dummy, ⟨2, [97], []⟩] }, { buf := chain [dummy, ⟨2, [97], []⟩] },
          {}, {}, {}, {}]).1 :=
  have hret := by decide +kernel
  ⟨hret, (locks_balanced_iff (.unlink 1 [97]) [] [] _ hret).2 fun h => absurd h.2 (by decide +kernel)⟩

/-- The lock of an empty directory stays taken after an `unlink` in it. -/
theorem unlink_missing_leaves_lock :
    (feed ((FsOp.unlink 1 [97]).program.run []) [{}, { buf := newdir }]).2 = some (.ok ((), [1])) ∧
      ¬Balanced [] [1] (feed ((FsOp.unlink 1 [97]).program.run []) [{}, { buf := newdir }]).1 :=
  ⟨by decide +kernel, fun h => absurd ((h.1 1).1 List.mem_cons_self) List.not_mem_nil⟩

end Yfs.LockBalance
