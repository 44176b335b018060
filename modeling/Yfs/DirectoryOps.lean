import Yfs.YfsClient

/-!
# What the operations do to a well-formed directory

First the loops of `readdir`, `create` and `unlink` over the content of a well-formed
directory, then the operations themselves in any setting where the directory's lock is held
and its content is known.
-/

namespace Yfs.DirectoryOps
open ByteLayout CallTrees LockProtocol ExtentClient DirectoryFormat YfsClient

/-- What `readdir` lists. -/
def listing (slots : List Slot) : List Dirent := dirents (slots.map Slot.entry)

@[simp] theorem listing_nil : listing [] = [] := rfl

theorem listing_cons (s : Slot) (slots : List Slot) :
    listing (s :: slots) =
      if s.inum = 0 then listing slots else ⟨s.name, s.inum.toUInt64⟩ :: listing slots := by
  unfold listing dirents
  by_cases h : s.inum = 0 <;> simp [Slot.entry, h]

@[simp] theorem listing_append (xs ys : List Slot) :
    listing (xs ++ ys) = listing xs ++ listing ys := by
  unfold listing dirents
  simp

theorem toUInt64_toUInt32 {ino : Inum} (h : IsUInt ino.toNat) :
    ino.toUInt32.toUInt64 = ino := by
  apply UInt64.toNat_inj.1
  rw [UInt32.toNat_toUInt64, UInt64.toNat_toUInt32]
  omega

/-- The record that `create` appends. -/
theorem listing_new {ino : Inum} (h0 : ino ≠ 0) (h : IsUInt ino.toNat) (name : Str) :
    listing [⟨ino.toUInt32, name, []⟩] = [⟨name, ino⟩] := by
  have hne : ino.toUInt32 ≠ 0 := by
    intro hz
    apply h0
    rw [← toUInt64_toUInt32 h, hz]
    rfl
  rw [listing_cons, if_neg hne, listing_nil, toUInt64_toUInt32 h]

theorem listDir_of_lt {buf : Str} (h : IsInt (buf.length + 1)) :
    listDir buf = listed (scan (fun _ => false) buf) := by
  unfold listDir
  rw [copied_of_lt h, ok_bind]

theorem listDir_chain {slots : List Slot} (h : IsInt ((chain slots).length + 1)) :
    listDir (chain slots) = .ok (listing slots) := by
  rw [listDir_of_lt h, scan_chain_finished (by omega) fun _ _ => rfl]
  rfl

theorem findName_eq_none {name : Str} {ds : List Dirent} :
    findName name ds = none ↔ name ∉ ds.map Dirent.name := by
  simp [findName]

theorem nodup_names_snoc {ds : List Dirent} {name : Str} (ino : Inum)
    (h : (ds.map Dirent.name).Nodup) (hn : findName name ds = none) :
    ((ds ++ [Dirent.mk name ino]).map Dirent.name).Nodup := by
  rw [List.map_append, List.nodup_append]
  refine ⟨h, by simp, ?_⟩
  intro x hx y hy hxy
  have hy : y = name := by simpa using hy
  rw [hxy, hy] at hx
  exact findName_eq_none.1 hn hx

/-! ## Appending -/

theorem placeEntry_append {slots : List Slot} {name : Str} (ino : Inum)
    (hroom : ∀ s ∈ slots, hasRoom name s.entry = false) (h : IsInt ((chain slots).length + 1))
    (hname : IsInt (name.length + 12)) :
    placeEntry (chain slots) name ino =
      .ok ((chain slots).length, Slot.bytes ⟨ino.toUInt32, name, []⟩) := by
  unfold placeEntry
  rw [copied_of_lt h, ok_bind, scan_chain_finished (by omega) hroom, placed,
    filldir_append ino.toUInt32 name hname]

theorem sizeT_of_lt {n : ℕ} (h : n < 18446744073709551616) : sizeT n = n := by
  unfold sizeT
  omega

theorem grown_of_le (buf : Str) {n : ℕ} (h : n ≤ maxSize) :
    grown buf n = .ok (buf ++ List.replicate (n - buf.length) 0) := by
  unfold grown
  split
  · unfold resize
    rw [if_neg (by omega), List.take_of_length_le (by omega)]
  · have h0 : n - buf.length = 0 := by omega
    rw [h0, List.replicate_zero, List.append_nil]

/-- The string is filled up with NUL before a part of it is overwritten. -/
theorem writeAt_patch (buf : Str) {data : Str} {p : ℕ} (h : p + data.length ≤ maxSize) :
    writeAt buf p data =
      .ok (patch (buf ++ List.replicate (p + data.length - buf.length) 0) p data,
        if int32 buf.length ≤ p then sizeT ((p : ℤ) + data.length - int32 buf.length)
        else data.length) := by
  have hmax : p + data.length < 2 ^ 64 := lt_of_le_of_lt h (by decide)
  have hend : sizeT ((p : ℤ) + data.length) = p + data.length := by
    have hs := sizeT_of_lt (n := p + data.length) (by omega)
    rwa [Nat.cast_add] at hs
  have hstart : sizeT (p : ℤ) = p := sizeT_of_lt (by omega)
  have hgrown := grown_of_le buf h
  unfold writeAt
  dsimp only
  rw [hend, hstart, hgrown]
  refine if_neg ?_
  simp only [List.length_append, List.length_replicate]
  omega

theorem writeAt_end {buf data : Str} (h : IsUInt (buf.length + data.length)) :
    ∃ n, writeAt buf buf.length data = .ok (buf ++ data, n) := by
  have hp : buf.length + data.length - buf.length = data.length := by omega
  have hpatch := patch_append buf (List.replicate data.length 0) [] data (by simp)
  rw [List.append_nil, List.append_nil] at hpatch
  rw [writeAt_patch buf (by unfold maxSize; omega), hp, hpatch]
  exact ⟨_, rfl⟩

/-- `create` adds a record without slack at the end. -/
theorem create_content {slots : List Slot} {name : Str} (ino : Inum)
    (hroom : ∀ s ∈ slots, hasRoom name s.entry = false) (h : IsInt ((chain slots).length + 1))
    (hname : IsInt (name.length + 12)) :
    ∃ off ncstr n, placeEntry (chain slots) name ino = .ok (off, ncstr) ∧
      writeAt (chain slots) off ncstr = .ok (chain (slots ++ [⟨ino.toUInt32, name, []⟩]), n) := by
  have hsize : (Slot.bytes ⟨ino.toUInt32, name, []⟩).length = 12 + name.length :=
    Slot.length_bytes _
  have hfits : IsUInt ((chain slots).length + (Slot.bytes ⟨ino.toUInt32, name, []⟩).length) := by
    omega
  obtain ⟨n, hn⟩ := writeAt_end hfits
  refine ⟨_, _, n, placeEntry_append ino hroom h hname, hn.trans ?_⟩
  rw [chain_append, chain_cons, chain_nil, List.append_nil]

/-! ## Clearing -/

/-- The records that `unlink` looks for. -/
def Slot.IsNamed (name : Str) (s : Slot) : Prop := s.inum ≠ 0 ∧ s.name = name

/-- The record that `lookup` found. -/
theorem findName_some {name : Str} {ino : Inum} {slots : List Slot}
    (h : findName name (listing slots) = some ino) :
    ∃ pre s post, slots = pre ++ s :: post ∧ (∀ x ∈ pre, ¬Slot.IsNamed name x) ∧
      Slot.IsNamed name s ∧ s.inum.toUInt64 = ino := by
  induction slots with
  | nil => simp [findName] at h
  | cons x slots ih =>
    by_cases hx : Slot.IsNamed name x
    · refine ⟨[], x, slots, rfl, by simp, hx, ?_⟩
      simpa [findName, listing_cons, hx.1, hx.2] using h
    · have hrest : findName name (listing slots) = some ino := by
        rw [listing_cons] at h
        split at h
        next => exact h
        next hne =>
          have hname : x.name ≠ name := fun he => hx ⟨hne, he⟩
          simpa [findName, hname] using h
      obtain ⟨pre, s, post, rfl, hpre, hs⟩ := ih hrest
      exact ⟨x :: pre, s, post, rfl, by simpa [hx] using hpre, hs⟩

/-- `unlink` clears the first record of that name in place. -/
theorem unlink_content {pre post : List Slot} {s : Slot} {name : Str}
    (h : IsInt ((chain (pre ++ s :: post)).length + 1))
    (hpre : ∀ x ∈ pre, ¬Slot.IsNamed name x) (hs : Slot.IsNamed name s) :
    ∃ off ncstr n, clearEntry (chain (pre ++ s :: post)) name s.inum.toUInt64 =
        .ok (some (off, ncstr)) ∧
      writeAt (chain (pre ++ s :: post)) off ncstr = .ok (chain (pre ++ s.cleared :: post), n) := by
  have hsize : 12 ≤ s.size := by
    unfold Slot.size
    omega
  have hbytes : (wordBytes 0 ++ wordBytes 0 ++ wordBytes (.ofNat s.size)).length = 12 := rfl
  have hlen : (chain (pre ++ s :: post)).length =
      (chain pre).length + (s.size + (chain post).length) := by simp
  have hscan : scan (fun e => e.inum ≠ 0 ∧ e.name = name) (chain (pre ++ s :: post)) =
      (pre.map Slot.entry, .stopped (chain pre).length s.entry) :=
    scan_chain_stopped (by omega) (fun x hx => decide_eq_false (hpre x hx)) (decide_eq_true hs)
  have hentry : s.entry.inum.toUInt64 = s.inum.toUInt64 := rfl
  have hend : (chain pre).length +
      (wordBytes 0 ++ wordBytes 0 ++ wordBytes (.ofNat s.size)).length ≤ maxSize := by
    unfold maxSize
    omega
  have hwrite := writeAt_patch (chain (pre ++ s :: post)) hend
  have h0 : (chain pre).length + 12 - (chain (pre ++ s :: post)).length = 0 := by omega
  rw [hbytes, h0, List.replicate_zero, List.append_nil, patch_clear] at hwrite
  refine ⟨(chain pre).length, _, _, ?_, hwrite⟩
  unfold clearEntry
  rw [copied_of_lt h, ok_bind, hscan, cleared, if_pos hentry, filldir_clear]

/-! ## The operations under the lock

The world is left open: `Has buf` says that the lock of the directory is held and that its
content is `buf`, which nobody else can change then. -/

section
variable {σ : Type} {rely : σ → σ → Prop} {pre : σ → Step → Prop}
  {post : σ → Step → Reply → σ → Prop} {crash : Fault → Prop}

/-- The world satisfies `P` and the held locks are `h₀`. -/
def Under (P : σ → Prop) (h₀ : Held) (s : σ) (h : Held) : Prop := P s ∧ h = h₀

/-- What others cannot invalidate. -/
def Stable (rely : σ → σ → Prop) (P : σ → Prop) : Prop := ∀ s s', P s → rely s s' → P s'

theorem triple_pure {α : Type} {a : α} {P : σ → Prop} {R : α → σ → Held → Prop} {h₀ : Held}
    (hP : Stable rely P) (hR : ∀ s, P s → R a s h₀) :
    Triple rely pre post crash (Under P h₀) (pure a) R := by
  apply Triple.pure
  intro s s' h hs hr
  obtain ⟨hs, rfl⟩ := hs
  exact hR s' (hP s s' hs hr)

theorem triple_lift {α : Type} {a : α} {x : Except Fault α} {P : σ → Prop} {h₀ : Held}
    (hP : Stable rely P) (hx : x = .ok a) :
    Triple rely pre post crash (Under P h₀) (lift x) (fun y s h => y = a ∧ Under P h₀ s h) := by
  subst hx
  exact triple_pure hP fun s hs => ⟨rfl, hs, rfl⟩

theorem triple_emit {P : σ → Prop} {R : Reply → σ → Prop} {h₀ : Held} {c : Call}
    (hP : Stable rely P) (hR : ∀ a, Stable rely (R a))
    (h : ∀ s, P s → pre s (h₀, c) ∧ ∀ a s', post s (h₀, c) a s' → R a s') :
    Triple rely pre post crash (Under P h₀) (emit c) (fun a => Under (R a) h₀) := by
  intro s h' hs s' hr
  obtain ⟨hs, rfl⟩ := hs
  obtain ⟨hpre, hpost⟩ := h s' (hP s s' hs hr)
  refine ⟨hpre, fun a t ha t' hr' => ?_⟩
  exact ⟨hR a t t' (hpost a t ha) hr', rfl⟩

/-- The calls of `lock` and `unlock`, whose answer is verified. -/
theorem safe_checked {α : Type} {a : α} {Φ : σ → α → Prop} {P R : σ → Prop} {x : Step} {s : σ}
    (hP : Stable rely P) (hR : Stable rely R) (hs : P s)
    (h : ∀ s, P s → pre s x ∧ ∀ r s', post s x r s' → r.ret = 0 ∧ R s')
    (hΦ : ∀ s, R s → Φ s a) :
    Safe rely pre post crash Φ
      (.call x fun r : Reply => if r.ret = 0 then .ret a else .fault .assertion) s := by
  intro s' hr
  obtain ⟨hpre, hpost⟩ := h s' (hP s s' hs hr)
  refine ⟨hpre, fun r t ha => ?_⟩
  obtain ⟨hret, hRt⟩ := hpost r t ha
  dsimp only
  rw [if_pos hret]
  exact fun t' hr' => hΦ t' (hR t t' hRt hr')

theorem triple_lock_held {P : σ → Prop} {h₀ : Held} {i : Inum} (hP : Stable rely P) (hi : i ∈ h₀) :
    Triple rely pre post crash (Under P h₀) (lock i)
      (fun lr s h => lr = true ∧ Under P h₀ s h) := by
  intro s h hs
  obtain ⟨hs, rfl⟩ := hs
  rw [run_lock, if_pos hi]
  exact fun s' hr => ⟨rfl, hP s s' hs hr, rfl⟩

theorem triple_lock {P R : σ → Prop} {h₀ : Held} {i : Inum} (hP : Stable rely P)
    (hR : Stable rely R) (hi : i ∉ h₀)
    (h : ∀ s, P s → pre s (h₀, .acquire i) ∧
      ∀ r s', post s (h₀, .acquire i) r s' → r.ret = 0 ∧ R s') :
    Triple rely pre post crash (Under P h₀) (lock i)
      (fun lr s h => lr = false ∧ Under R (i :: h₀) s h) := by
  intro s h' hs
  obtain ⟨hs, rfl⟩ := hs
  rw [run_lock, if_neg hi]
  exact safe_checked hP hR hs h fun s' hs' => ⟨rfl, hs', rfl⟩

theorem triple_unlock {P R : σ → Prop} {h₀ : Held} {i : Inum} (hP : Stable rely P)
    (hR : Stable rely R) (hi : i ∈ h₀)
    (h : ∀ s, P s → pre s (h₀.erase i, .release i) ∧
      ∀ r s', post s (h₀.erase i, .release i) r s' → r.ret = 0 ∧ R s') :
    Triple rely pre post crash (Under P h₀) (unlock i) (fun _ => Under R (h₀.erase i)) := by
  intro s h' hs
  obtain ⟨hs, rfl⟩ := hs
  rw [run_unlock, if_pos hi]
  exact safe_checked hP hR hs h fun s' hs' => ⟨hs', rfl⟩

/-- Under the lock, the records of the directory are known, nobody else changes them, and
`get` returns them. -/
structure Serves (rely : σ → σ → Prop) (pre : σ → Step → Prop)
    (post : σ → Step → Reply → σ → Prop) (dir : Inum) (Has : List Slot → σ → Prop) : Prop where
  stable : ∀ slots, Stable rely (Has slots)
  small : ∀ slots s, Has slots s → IsInt ((chain slots).length + 1)
  get : ∀ slots s h, dir ∈ h → Has slots s → pre s (h, .get dir) ∧
    ∀ a s', post s (h, .get dir) a s' → (a.ret = OK ∧ a.buf = chain slots) ∧ Has slots s'

variable {dir : Inum} {Has : List Slot → σ → Prop} {slots : List Slot} {h₀ h₁ h₂ : Held} {b : Bool}

theorem triple_get (hS : Serves rely pre post dir Has) (hdir : dir ∈ h₁) :
    Triple rely pre post crash (Under (Has slots) h₁) (emit (.get dir)) (fun a s h =>
      (a.ret = OK ∧ a.buf = chain slots ∧ IsInt ((chain slots).length + 1)) ∧
        Under (Has slots) h₁ s h) := by
  have hget : Triple rely pre post crash (Under (Has slots) h₁) (emit (.get dir))
      (fun a => Under (fun s => (a.ret = OK ∧ a.buf = chain slots) ∧ Has slots s) h₁) :=
    triple_emit (hS.stable slots) (fun a s s' hs hr => ⟨hs.1, hS.stable slots s s' hs.2 hr⟩)
      fun s hs => hS.get slots s h₁ hdir hs
  apply Triple.weaken hget (fun _ _ h => h)
  intro a s h hs
  obtain ⟨⟨⟨hret, hbuf⟩, hs⟩, hh⟩ := hs
  exact ⟨⟨hret, hbuf, hS.small slots s hs⟩, hs, hh⟩

/-- `readdir`, from the state in which it takes the lock to the one after it gave it back. -/
theorem triple_readdir {P : σ → Held → Prop} {G : List Slot → Prop} {Q : List Slot → σ → Prop}
    (hrefl : ∀ s, rely s s) (hS : Serves rely pre post dir Has) (hdir : dir ∈ h₁)
    (hQ : ∀ slots, Stable rely (Q slots))
    (hlock : Triple rely pre post crash P (lock dir)
      (fun lr s h => lr = b ∧ ∃ slots, G slots ∧ Under (Has slots) h₁ s h))
    (hleave : ∀ slots, G slots → Triple rely pre post crash (Under (Has slots) h₁)
      (unlockUnless b dir) (fun _ => Under (Q slots) h₂)) :
    Triple rely pre post crash P (readdir dir) (fun x s h =>
      ∃ slots, G slots ∧ x = (OK, listing slots) ∧ Under (Q slots) h₂ s h) := by
  unfold readdir
  apply Triple.bind hrefl hlock
  intro lr
  apply Triple.assume
  intro hlr
  apply Triple.exists
  intro slots
  apply Triple.assume
  intro hG
  rw [hlr]
  apply Triple.bind hrefl (triple_get hS hdir)
  intro got
  apply Triple.assume
  intro hgot
  obtain ⟨hret, hbuf, hsmall⟩ := hgot
  rw [if_neg (not_not.2 hret)]
  apply Triple.bind hrefl (hleave slots hG)
  intro _
  have hlist : listDir got.buf = .ok (listing slots) := by rw [hbuf, listDir_chain hsmall]
  apply Triple.bind hrefl (triple_lift (hQ slots) hlist)
  intro list
  apply Triple.assume
  intro hl
  exact triple_pure (hQ slots) fun s hs => ⟨slots, hG, by rw [hret, hl], hs, rfl⟩

theorem triple_lookup {P : σ → Held → Prop} {G : List Slot → Prop} {Q : List Slot → σ → Prop}
    (hrefl : ∀ s, rely s s) (hQ : ∀ slots, Stable rely (Q slots)) (name : Str)
    (hread : Triple rely pre post crash P (readdir dir) (fun x s h =>
      ∃ slots, G slots ∧ x = (OK, listing slots) ∧ Under (Q slots) h₂ s h)) :
    Triple rely pre post crash P (lookup dir name) (fun x s h =>
      ∃ slots, G slots ∧ x = (OK, findName name (listing slots)) ∧ Under (Q slots) h₂ s h) := by
  unfold lookup
  apply Triple.bind hrefl hread
  intro x
  apply Triple.exists
  intro slots
  apply Triple.assume
  intro hG
  apply Triple.assume
  intro hx
  rw [hx]
  dsimp only
  rw [if_neg (not_not.2 rfl)]
  exact triple_pure (hQ slots) fun s hs => ⟨slots, hG, rfl, hs, rfl⟩

/-- `lookup` in the middle of an operation that holds the lock. -/
theorem triple_lookup_held (hrefl : ∀ s, rely s s) (hS : Serves rely pre post dir Has) (name : Str)
    (hdir : dir ∈ h₁) :
    Triple rely pre post crash (Under (Has slots) h₁) (lookup dir name) (fun x s h =>
      x = (OK, findName name (listing slots)) ∧ Under (Has slots) h₁ s h) := by
  have hlock : Triple rely pre post crash (Under (Has slots) h₁) (lock dir) (fun lr s h =>
      lr = true ∧ ∃ slots', slots' = slots ∧ Under (Has slots') h₁ s h) :=
    (triple_lock_held (hS.stable slots) hdir).weaken (fun _ _ h => h)
      fun lr s h hs => ⟨hs.1, slots, rfl, hs.2⟩
  have hread := triple_readdir hrefl hS hdir hS.stable hlock
    fun slots' _ => triple_pure (hS.stable slots') fun s hs => ⟨hs, rfl⟩
  apply (triple_lookup hrefl hS.stable name hread).weaken (fun _ _ h => h)
  intro x s h hs
  obtain ⟨slots', rfl, hx, hs⟩ := hs
  exact ⟨hx, hs⟩

/-- `write` in the middle of an operation that holds the lock. -/
theorem triple_write_held {R : σ → Prop} {off : ℤ} {data buf : Str} {n : ℕ}
    (hrefl : ∀ s, rely s s) (hS : Serves rely pre post dir Has) (hdir : dir ∈ h₁)
    (hR : Stable rely R) (hw : writeAt (chain slots) off data = .ok (buf, n))
    (hput : ∀ s, Has slots s → pre s (h₁, .put dir buf) ∧
      ∀ a s', post s (h₁, .put dir buf) a s' → a.ret = OK ∧ R s') :
    Triple rely pre post crash (Under (Has slots) h₁) (write dir off data) (fun x s h =>
      x.1 = OK ∧ Under R h₁ s h) := by
  unfold YfsClient.write
  apply Triple.bind hrefl (triple_lock_held (hS.stable slots) hdir)
  intro lr
  apply Triple.assume
  intro hlr
  rw [hlr]
  apply Triple.bind hrefl (triple_get hS hdir)
  intro got
  apply Triple.assume
  intro hgot
  obtain ⟨hret, hbuf, -⟩ := hgot
  rw [if_neg (not_not.2 hret), hbuf]
  apply Triple.bind hrefl (triple_lift (hS.stable slots) hw)
  intro x
  apply Triple.assume
  intro hx
  rw [hx]
  dsimp only
  have hstore : Triple rely pre post crash (Under (Has slots) h₁) (emit (.put dir buf))
      (fun a => Under (fun s => a.ret = OK ∧ R s) h₁) :=
    triple_emit (hS.stable slots) (fun a s s' hs hr => ⟨hs.1, hR s s' hs.2 hr⟩) hput
  apply Triple.bind hrefl hstore
  intro a
  have hstable : Stable rely fun s => a.ret = OK ∧ R s := fun s s' hs hr => ⟨hs.1, hR s s' hs.2 hr⟩
  apply Triple.bind hrefl (triple_pure (R := fun _ => Under (fun s => a.ret = OK ∧ R s) h₁) hstable
    fun s hs => ⟨hs, rfl⟩)
  intro _
  exact triple_pure hstable fun s hs => ⟨hs.1, hs.2, rfl⟩

/-- The second half of `create`, which appends the entry and gives back the lock. -/
theorem triple_link {R Q : σ → Prop} (name : Str) (ino : Inum) (hrefl : ∀ s, rely s s)
    (hS : Serves rely pre post dir Has) (hdir : dir ∈ h₁) (hR : Stable rely R) (hQ : Stable rely Q)
    (hroom : ∀ s ∈ slots, hasRoom name s.entry = false) (hname : IsInt (name.length + 12))
    (hput : ∀ s, Has slots s → pre s (h₁, .put dir (chain (slots ++ [⟨ino.toUInt32, name, []⟩]))) ∧
      ∀ a s', post s (h₁, .put dir (chain (slots ++ [⟨ino.toUInt32, name, []⟩]))) a s' →
        a.ret = OK ∧ R s')
    (hleave : Triple rely pre post crash (Under R h₁) (unlockUnless b dir) (fun _ => Under Q h₂)) :
    Triple rely pre post crash (Under (Has slots) h₁) (link dir name ino b) (fun r s h =>
      r = OK ∧ Under Q h₂ s h) := by
  unfold link
  apply Triple.bind hrefl (triple_get hS hdir)
  intro got
  apply Triple.assume
  intro hgot
  obtain ⟨hret, hbuf, hsmall⟩ := hgot
  obtain ⟨off, ncstr, n, hplace, hw⟩ := create_content ino hroom hsmall hname
  rw [if_neg (not_not.2 hret), hbuf]
  apply Triple.bind hrefl (triple_lift (hS.stable slots) hplace)
  intro x
  apply Triple.assume
  intro hx
  rw [hx]
  apply Triple.bind hrefl (triple_write_held hrefl hS hdir hR hw hput)
  intro y
  apply Triple.assume
  intro hy
  obtain ⟨r, written⟩ := y
  apply Triple.bind hrefl hleave
  intro _
  exact triple_pure hQ fun s hs => ⟨hy, hs, rfl⟩

/-- `create` of a regular file. `Made ino` is the state of the world between the creation of
inode `ino` and its entry into the directory, `After` the one after that, and `Ends` what is
left to say about the result when the lock has been given back. -/
theorem triple_create {P : σ → Held → Prop} {G : List Slot → Prop} {name : Str}
    {Made : Inum → List Slot → σ → Prop} {Ends : Status × Option Inum → σ → Prop}
    (After : List Slot → Inum → σ → Prop) (hrefl : ∀ s, rely s s)
    (hS : Serves rely pre post dir Has) (hMade : ∀ ino, Serves rely pre post dir (Made ino))
    (hAfter : ∀ slots ino, Stable rely (After slots ino)) (hEnds : ∀ x, Stable rely (Ends x))
    (hdir : dir ∈ h₁)
    (hlock : Triple rely pre post crash P (lock dir)
      (fun lr s h => lr = b ∧ ∃ slots, G slots ∧ Under (Has slots) h₁ s h))
    (hexist : ∀ slots, G slots → findName name (listing slots) ≠ none →
      Triple rely pre post crash (Under (Has slots) h₁) (unlockUnless b dir)
        (fun _ => Under (Ends (EXIST, none)) h₂))
    (hfits : ∀ slots, G slots → findName name (listing slots) = none →
      (∀ s ∈ slots, hasRoom name s.entry = false) ∧ IsInt (name.length + 12))
    (hmake : ∀ slots s, G slots → findName name (listing slots) = none → Has slots s →
      pre s (h₁, .create typeFile) ∧
        ∀ a s', post s (h₁, .create typeFile) a s' → a.ret = OK ∧ Made a.id slots s')
    (hput : ∀ slots ino s, G slots → findName name (listing slots) = none → Made ino slots s →
      pre s (h₁, .put dir (chain (slots ++ [⟨ino.toUInt32, name, []⟩]))) ∧
        ∀ a s', post s (h₁, .put dir (chain (slots ++ [⟨ino.toUInt32, name, []⟩]))) a s' →
          a.ret = OK ∧ After slots ino s')
    (hleave : ∀ slots ino, Triple rely pre post crash (Under (After slots ino) h₁)
      (unlockUnless b dir) (fun _ => Under (Ends (OK, some ino)) h₂)) :
    Triple rely pre post crash P (create dir name typeFile) (fun x => Under (Ends x) h₂) := by
  unfold YfsClient.create
  apply Triple.bind hrefl hlock
  intro lr
  apply Triple.assume
  intro hlr
  apply Triple.exists
  intro slots
  apply Triple.assume
  intro hG
  rw [hlr]
  apply Triple.bind hrefl (triple_lookup_held hrefl hS name hdir)
  intro x
  apply Triple.assume
  intro hx
  rw [hx]
  dsimp only
  rw [if_neg (not_not.2 rfl)]
  by_cases hfound : findName name (listing slots) = none
  · rw [if_neg (by simp [hfound])]
    obtain ⟨hroom, hname⟩ := hfits slots hG hfound
    have hnew : Triple rely pre post crash (Under (Has slots) h₁) (emit (.create typeFile))
        (fun a => Under (fun s => a.ret = OK ∧ Made a.id slots s) h₁) :=
      triple_emit (hS.stable slots) (fun a s s' hs hr => ⟨hs.1, (hMade a.id).stable slots s s' hs.2 hr⟩)
        fun s hs => hmake slots s hG hfound hs
    apply Triple.bind hrefl hnew
    intro made s h hs
    obtain ⟨⟨hret, hs⟩, rfl⟩ := hs
    rw [if_neg (not_not.2 hret), if_neg (by decide)]
    have hlink := triple_link name made.id hrefl (hMade made.id) hdir (hAfter slots made.id)
      (hEnds _) hroom hname (fun s hs => hput slots made.id s hG hfound hs) (hleave slots made.id)
    have hrest : Triple rely pre post crash (Under (Made made.id slots) h)
        (do let r ← link dir name made.id b; pure (r, some made.id)) (fun x => Under (Ends x) h₂) := by
      apply Triple.bind hrefl hlink
      intro r
      apply Triple.assume
      intro hr
      rw [hr]
      exact triple_pure (hEnds _) fun s hs => ⟨hs, rfl⟩
    exact hrest s h ⟨hs, rfl⟩
  · rw [if_pos (by simpa [Option.isSome_iff_ne_none] using hfound)]
    apply Triple.bind hrefl (hexist slots hG hfound)
    intro _
    exact triple_pure (hEnds _) fun s hs => ⟨hs, rfl⟩

end

end Yfs.DirectoryOps
