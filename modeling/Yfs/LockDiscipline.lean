import Yfs.LockScopes

/-!
# Extents are used under their locks

Every operation works on extents whose locks it holds, on every path and whatever its calls
are answered, with two exceptions: `create` stores the content of a new directory without
its lock, and `unlink` removes a file that is its own parent after it has given back the
lock of the parent.
-/

namespace Yfs.LockDiscipline
open CallTrees LockProtocol ExtentClient DirectoryFormat YfsClient LockScopes

/-- `create` gets as far as storing the content of the new directory, whose lock is not
among the held ones. The first reply answers the `get` of the lookup. -/
def MakesUnlocked (parent : Inum) (name : Str) (h : Held) : List Reply → Prop
  | got :: made :: _ => got.ret = OK ∧ foundIn name got = none ∧ made.ret = OK ∧
      made.id ≠ parent ∧ made.id ∉ h
  | _ => False

/-- `unlink` finds the directory itself under the name, is told that it is a file and gets
as far as removing it. -/
def RemovesUnlocked (parent : Inum) (name : Str) : List Reply → Prop
  | _ :: got :: attr :: entries :: _ => foundIn name got = some parent ∧
      (attr.ret = OK ∧ attr.attr.type = typeFile) ∧ entries.ret = OK
  | _ => False

/-- The operations and answers that lead to a call without the lock. -/
def Strays : FsOp → Held → List Reply → Prop
  | .create parent name type, h, as => type = typeDir ∧
      MakesUnlocked parent name h (as.drop (if parent ∈ h then 0 else 1))
  | .unlink parent name, h, as => parent ∉ h ∧ RemovesUnlocked parent name as
  | _, _, _ => False

/-- Only an operation that strays makes a call without the lock. -/
def Allowed (o : FsOp) (h : Held) (s : Log Step Reply) (x : Step) : Prop :=
  Orderly x ∨ Strays o h s.answers

theorem permits_allowed (o : FsOp) (h : Held) : Permits (Allowed o h) := fun _ _ => .inl

/-- It is known whether the operation strays: it has done so, or it cannot any more. -/
def Settled (o : FsOp) (h : Held) (s : Log Step Reply) : Prop :=
  (∃ x ∈ s.calls, ¬Orderly x) ∨ ∀ more, ¬Strays o h (s.answers ++ more)

section
variable {α : Type} {o : FsOp} {h : Held} {L L' : Locks} {as : List Reply}
  {pre : Log Step Reply → Step → Prop}

theorem settled_next {s : Log Step Reply} {q : Step} {a : Reply} {s' : Log Step Reply}
    (hn : Log.next s q a s') (hs : Settled o h s) : Settled o h s' := by
  obtain rfl := hn
  rcases hs with ⟨x, hx, hbad⟩ | hno
  · exact .inl ⟨x, List.mem_append_left _ hx, hbad⟩
  · exact .inr fun more => by simpa using hno (a :: more)

theorem settled_after {p : Op α} (hp : Moves pre L p L') :
    LogTriple pre (fun s r => At L s r ∧ Settled o h s) p (fun _ s _ => Settled o h s) :=
  (logTriple_keeps hp fun _ _ _ _ => settled_next).weaken (fun _ _ hs => hs) fun _ _ _ hs => hs.2

/-- The rest of an operation that cannot stray any more. -/
theorem settled_of_seen {p : Op α} (hno : ∀ more, ¬Strays o h (as ++ more)) (hp : Moves pre L p L') :
    LogTriple pre (Seen L as) p (fun _ s _ => Settled o h s) :=
  (settled_after hp).weaken (fun _ _ hs => ⟨hs.1, .inr (hs.2 ▸ hno)⟩) fun _ _ _ hs => hs

theorem strays_create {parent : Inum} {name : Str} {r as : List Reply}
    (hr : r.length = if parent ∈ h then 0 else 1) :
    Strays (.create parent name typeDir) h (r ++ as) ↔ MakesUnlocked parent name h as := by
  simp only [Strays, true_and, List.drop_left' hr]

end

/-- `create` of a directory. -/
theorem settled_create (L : Locks) (parent : Inum) (name : Str) :
    LogTriple (Allowed (.create parent name typeDir) L.held) (Seen L [])
      (create parent name typeDir)
      (fun _ s _ => Settled (.create parent name typeDir) L.held s) := by
  have hpre := permits_allowed (.create parent name typeDir) L.held
  unfold create
  refine logTriple_bind (seen_lock hpre parent) fun lr => Triple.assume fun hlr =>
    Triple.exists fun r => Triple.assume fun hr => ?_
  replace hr : r.length = if parent ∈ L.held then 0 else 1 := by simpa [← hlr] using hr
  rw [List.nil_append]
  refine logTriple_bind (seen_lookup hpre name (Locks.mem_locked hlr)) fun x =>
    Triple.exists fun got => Triple.assume fun hx => ?_
  obtain rfl := hx
  have hleave : ∀ (as : List Reply) (y : Status × Option Inum),
      (∀ more, ¬MakesUnlocked parent name L.held (as ++ more)) →
      LogTriple (Allowed (.create parent name typeDir) L.held) (Seen (L.locked lr parent) (r ++ as))
        (do unlockUnless lr parent; pure y)
        (fun _ s _ => Settled (.create parent name typeDir) L.held s) := fun as y hno =>
    settled_of_seen (fun more => by rw [List.append_assoc, strays_create hr]; exact hno more)
      (moves_leave hpre L lr parent y)
  dsimp only
  split
  next hne => exact hleave [got] _ fun | _ :: _, hm => hne hm.1
  next hok =>
  split
  next hsome => exact hleave [got] _ fun | _ :: _, hm => by simp [hm.2.1] at hsome
  next hnone =>
  refine logTriple_bind (seen_emit (by simp) fun s => hpre s _ (by simp [Orderly, extentOf]))
    fun made => ?_
  rw [List.append_assoc, List.singleton_append]
  split
  next hne => exact hleave [got, made] _ fun more hm => hne hm.2.2.1
  next hmade =>
  -- the content of the new directory is stored: the operation strays here or not at all
  have hmakes : ∀ more, Strays (.create parent name typeDir) L.held (r ++ [got, made] ++ more) ↔
      made.id ∉ (L.locked lr parent).held := by
    intro more
    have hheld : made.id ∉ (L.locked lr parent).held ↔ made.id ≠ parent ∧ made.id ∉ L.held := by
      cases lr with
      | true => simpa using fun hm heq => hm (heq ▸ hlr.1 rfl)
      | false => simp [Locks.locked]
    rw [List.append_assoc, strays_create hr, hheld]
    simp only [ne_eq, not_not] at hok hmade
    simp [MakesUnlocked, hok, hmade, Option.not_isSome_iff_eq_none.1 hnone]
  have hstore : LogTriple (Allowed (.create parent name typeDir) L.held)
      (Seen (L.locked lr parent) (r ++ [got, made])) (emit (.put made.id newdir))
      (fun _ s h => At (L.locked lr parent) s h ∧
        Settled (.create parent name typeDir) L.held s) := by
    refine (at_emit (G := fun s => s.answers = r ++ [got, made]) (by simp) ?_).weaken
      (fun _ _ h => h) ?_
    · rintro s hs
      by_cases hm : made.id ∈ (L.locked lr parent).held
      · exact .inl (by simpa [Orderly, extentOf] using hm)
      · exact .inr (by simpa [hs] using (hmakes []).2 hm)
    · rintro a s' h ⟨hat, s, hs, rfl⟩
      refine ⟨hat, ?_⟩
      by_cases hm : made.id ∈ (L.locked lr parent).held
      · refine .inr fun more hstray => ?_
        rw [hs, List.append_assoc] at hstray
        exact (hmakes _).1 hstray hm
      · exact .inl ⟨_, List.mem_append_right _ List.mem_cons_self,
          by simpa [Orderly, extentOf] using hm⟩
  rw [if_pos rfl]
  refine logTriple_bind hstore fun stored => ?_
  split
  · exact settled_after (moves_leave hpre L lr parent _)
  · exact settled_after (moves_bind (moves_link hpre L name made.id hlr) fun _ => moves_pure L _)

theorem foundIn_of_removes {parent : Inum} {name : Str} {acq got : Reply} {more : List Reply}
    (h : RemovesUnlocked parent name (acq :: got :: more)) : foundIn name got = some parent :=
  match more, h with
  | _ :: _ :: _, h => h.1

/-- `unlink` of a name under which the directory itself is found. -/
theorem settled_unlinkSelf {L : Locks} {parent : Inum} {name : Str} {acq got : Reply}
    (hp : parent ∉ L.held) (hf : foundIn name got = some parent) :
    LogTriple (Allowed (.unlink parent name) L.held) (Seen (L.locked false parent) [acq, got])
      (unlinkFound parent name parent false)
      (fun _ s _ => Settled (.unlink parent name) L.held s) := by
  have hpre := permits_allowed (.unlink parent name) L.held
  have hin : parent ∈ (L.locked false parent).held := List.mem_cons_self
  have hleave : ∀ r : Status, Moves (Allowed (.unlink parent name) L.held) (L.locked false parent)
      (do unlockUnless true parent; unlockUnless false parent; pure r) L := fun r =>
    moves_bind (moves_unlockUnless hpre (L.locked false parent) true parent) fun _ =>
      moves_leave hpre L false parent r
  unfold unlinkFound
  refine logTriple_bind (seen_lock hpre parent) fun lr2 => Triple.assume fun hlr2 =>
    Triple.exists fun r => Triple.assume fun hr => ?_
  obtain rfl : lr2 = true := hlr2.2 hin
  obtain rfl : r = [] := by simpa using hr
  rw [List.append_nil, Locks.locked_true]
  refine logTriple_bind (seen_isdir hpre hin) fun b => Triple.exists fun attr =>
    Triple.assume fun hfile => Triple.assume fun hdir => ?_
  cases b with
  | true => exact settled_of_seen (fun | _ :: _, hs => hdir rfl hs.2.2.1) (hleave ENOTEMPTY)
  | false =>
    refine logTriple_bind (seen_emit (by simp) fun s => hpre s _ ?_) fun entries => ?_
    · simpa [Orderly, extentOf] using hin
    split
    next hne => exact settled_of_seen (fun _ hs => hne hs.2.2.2) (hleave entries.ret)
    next hok =>
      refine (seen_unlinkEntry (G := fun s => [acq, got, attr, entries] <+: s.answers) hpre name
        entries.buf ?_ ?_ hlr2).weaken (fun s h hs => ⟨hs.1, by simp [hs.2]⟩) ?_
      · rintro s q a s' rfl h
        exact h.trans (List.prefix_append _ _)
      · rintro s ⟨rest, hs⟩
        exact .inr (hs ▸ ⟨hp, hf, hfile rfl, not_not.1 hok⟩)
      · rintro _ s h ⟨-, hmem⟩
        exact .inl ⟨_, hmem, by simpa [Orderly, extentOf] using hp⟩

theorem settled_unlink {L : Locks} {parent : Inum} (name : Str) (hp : parent ∉ L.held) :
    LogTriple (Allowed (.unlink parent name) L.held) (Seen L []) (unlink parent name)
      (fun _ s _ => Settled (.unlink parent name) L.held s) := by
  have hpre := permits_allowed (.unlink parent name) L.held
  refine seen_unlink hpre name hp (fun acq got s hn hs _ => .inr ?_) fun acq got ino hf => ?_
  · rw [hs.2]
    exact fun more hstray => absurd (foundIn_of_removes hstray.2) (by simp [hn])
  by_cases hself : ino = parent
  · obtain rfl := hself
    exact settled_unlinkSelf hp hf
  · refine settled_of_seen ?_ (moves_unlinkFound hpre name (by simpa using hp)
      fun h => absurd h hself)
    exact fun more hstray => hself (Option.some.inj (hf ▸ foundIn_of_removes hstray.2))

theorem settled_program (o : FsOp) (L : Locks) :
    LogTriple (Allowed o L.held) (Seen L []) o.program (fun _ s _ => Settled o L.held s) := by
  have hpre := permits_allowed o L.held
  cases o with
  | create parent name type =>
    by_cases ht : type = typeDir
    · obtain rfl := ht
      exact logTriple_discard (settled_create L parent name)
    · exact settled_of_seen (fun _ hs => ht hs.1)
        (logTriple_discard (moves_create hpre L parent name fun h => absurd h ht))
  | unlink parent name =>
    by_cases hp : parent ∈ L.held
    · exact settled_of_seen (fun _ hs => hs.1 hp)
        (logTriple_discard (moves_unlink_held hpre name hp))
    · exact logTriple_discard (settled_unlink name hp)
  | _ => exact settled_of_seen (fun _ hs => hs) (moves_plain hpre L trivial)

theorem MakesUnlocked.append {parent : Inum} {name : Str} {h : Held} {as : List Reply}
    (hs : MakesUnlocked parent name h as) (more : List Reply) :
    MakesUnlocked parent name h (as ++ more) :=
  match as, hs with
  | _ :: _ :: _, hs => hs

/-- Straying shows in the first few answers. -/
theorem Strays.mono {o : FsOp} {h : Held} {as bs : List Reply} (hs : Strays o h as)
    (hp : as <+: bs) : Strays o h bs := by
  obtain ⟨more, rfl⟩ := hp
  match o, as, hs with
  | .create parent name type, as, hs =>
    refine ⟨hs.1, ?_⟩
    rw [List.drop_append]
    exact hs.2.append _
  | .unlink parent name, _ :: _ :: _ :: _ :: _, hs => exact hs

/-- An operation makes every call under the lock of its extent, unless it strays; and one
that strays and returns has made a call without the lock. -/
theorem extent_calls_orderly (o : FsOp) (h : Held) (answers : List Reply) :
    (¬Strays o h answers → ∀ x ∈ (feed (o.program.run h) answers).1, Orderly x) ∧
      ∀ h', (feed (o.program.run h) answers).2 = some (.ok ((), h')) →
        ((∀ x ∈ (feed (o.program.run h) answers).1, Orderly x) ↔ ¬Strays o h answers) := by
  have hsafe := settled_program o ⟨h, fun _ => 0⟩ ⟨[], []⟩ h ⟨⟨rfl, rfl⟩, rfl⟩
  have horderly : ¬Strays o h answers → ∀ x ∈ (feed (o.program.run h) answers).1, Orderly x := by
    intro hno x hx
    obtain ⟨s, hs, hallowed⟩ := hsafe.feed_calls answers x hx
    exact hallowed.resolve_right fun hstray => hno (hstray.mono (by simpa using hs))
  refine ⟨horderly, fun h' hret => ⟨fun hall hstray => ?_, horderly⟩⟩
  obtain ⟨used, ⟨more, rfl⟩, hsettled⟩ := hsafe.feed_result hret
  rcases hsettled with ⟨x, hx, hbad⟩ | hno
  · exact hbad (hall x (by simpa using hx))
  · exact hno more (by simpa using hstray)

/-- Creating a file, every call is made under the lock of the directory. -/
theorem extent_calls_orderly_create :
    (feed ((FsOp.create 1 [97] typeFile).program.run [])
        [{}, { buf := newdir }, { id := 2 }, { buf := newdir }, { buf := newdir }, {}, {}]).2 =
      some (.ok ((), [])) ∧
    ∀ x ∈ (feed ((FsOp.create 1 [97] typeFile).program.run [])
        [{}, { buf := newdir }, { id := 2 }, { buf := newdir }, { buf := newdir }, {}, {}]).1,
      Orderly x :=
  have hret := by decide +kernel
  ⟨hret, (((extent_calls_orderly (.create 1 [97] typeFile) [] _).2 [] hret).2
    fun h => absurd h.1 (by decide))⟩

/-- Creating a directory, its content is stored without its lock. -/
theorem create_directory_strays :
    ([1], Call.put 2 newdir) ∈ (feed ((FsOp.create 1 [97] typeDir).program.run [])
        [{}, { buf := newdir }, { id := 2 }, {}, { buf := newdir }, { buf := newdir }, {}, {}]).1 ∧
      ¬Orderly ([1], Call.put 2 newdir) := by
  decide +kernel

end Yfs.LockDiscipline
