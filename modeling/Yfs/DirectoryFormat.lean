import Yfs.ByteLayout
import Yfs.ExtentClient

/-!
# The format of directories

A directory is a chain of records: inode number, length of the name, name, length of the
whole record, and slack that was left by an entry removed earlier. All numbers are 32-bit
words. `parsedir` walks the chain; the records are written by `newdir` and `filldir`.

A `char *` into the copy of the content is the string of the bytes from there on.
-/

namespace Yfs.DirectoryFormat
open ByteLayout LockProtocol ExtentClient

/-- The number is an `int`. -/
abbrev IsInt (n : ℕ) : Prop := n < 2 ^ 31

/-- The number is a `uint32_t`. -/
abbrev IsUInt (n : ℕ) : Prop := n < 2 ^ 32

/-- Conversion to `int`. -/
@[irreducible] def int32 (x : ℤ) : ℤ := (x + 2 ^ 31) % 2 ^ 32 - 2 ^ 31

/-- `*((uint32_t *) p)`, unless it lies outside of the string. -/
def readWord (p : Str) : Option UInt32 :=
  if 4 ≤ p.length then some (UInt32.ofNat (leValue (p.take 4))) else none

def wordBytes (w : UInt32) : Str := leBytes 4 w.toNat

/-- The out-parameters of `parsedir`. -/
structure Entry where
  inum : UInt32
  filelen : UInt32
  entrylen : UInt32
  name : Str
  deriving DecidableEq, Repr

inductive Parsed where
  /-- `NULL`: the end of the directory. -/
  | finished
  | entry (e : Entry) (next : Str) (remain : ℤ)
  /-- An assertion has failed. -/
  | failed
  /-- A read outside of the string. -/
  | outside
  deriving DecidableEq, Repr

def parsedir (p : Str) (remain : ℤ) : Parsed :=
  if remain < 8 then
    if remain = 0 then .finished else .failed
  else
    match readWord p, readWord (p.drop 4) with
    | some inum, some filelen =>
      if remain < int32 (filelen + 12).toNat then .failed
      else if p.length < 8 + filelen.toNat then .outside
      else match readWord (p.drop (8 + filelen.toNat)) with
        | none => .outside
        | some entrylen =>
          .entry { inum, filelen, entrylen, name := (p.drop 8).take filelen.toNat }
            (p.drop entrylen.toNat) (int32 (remain - entrylen.toNat))
    | _, _ => .outside

/-- How one of the `while` loops over `parsedir` ends. -/
inductive ScanEnd where
  | finished (pos : ℕ)
  | stopped (pos : ℕ) (e : Entry)
  | failed
  | outside
  /-- The loop never ends: a record of length zero follows itself. -/
  | hangs
  deriving DecidableEq, Repr

/-- The loop over the records from `p` on, where `pos` is `pbuf - cstr`. It breaks at the
first record with property `stop`. The fuel bounds the number of records. -/
def scanFrom (stop : Entry → Bool) : ℕ → Str → ℤ → ℕ → List Entry × ScanEnd
  | 0, _, _, _ => ([], .hangs)
  | fuel + 1, p, remain, pos =>
    match parsedir p remain with
    | .finished => ([], .finished pos)
    | .failed => ([], .failed)
    | .outside => ([], .outside)
    | .entry e next remain' =>
      if stop e then ([], .stopped pos e)
      else if e.entrylen = 0 then ([e], .hangs)
      else
        let (es, fin) := scanFrom stop fuel next remain' (pos + e.entrylen.toNat)
        (e :: es, fin)

/-- A loop over all of a directory's content. Every record but an empty one takes at least
one byte, so this fuel is never used up. -/
def scan (stop : Entry → Bool) (buf : Str) : List Entry × ScanEnd :=
  scanFrom stop (buf.length + 1) buf (int32 buf.length) 0

def newdir : Str := wordBytes 0 ++ wordBytes 0 ++ wordBytes 12

/-- `filldir`; `none` when the size of the record is not an `int`. -/
def filldir (inum newnamelen entrylen : UInt32) (name : Str) (preventrylen : UInt32) : Option Str :=
  let offset := if preventrylen = 0 then 0 else 4
  if IsInt (12 + newnamelen.toNat + offset) then
    some ((if preventrylen = 0 then [] else wordBytes preventrylen) ++ wordBytes inum ++
      wordBytes newnamelen ++ name.take newnamelen.toNat ++ wordBytes entrylen)
  else none

/-! ## Words -/

theorem int32_of_lt {x : ℤ} (h0 : 0 ≤ x) (h : x < 2 ^ 31) : int32 x = x := by
  unfold int32
  omega

@[simp] theorem length_wordBytes (w : UInt32) : (wordBytes w).length = 4 := length_leBytes 4 _

theorem toNat_ofNat_small {n : ℕ} (h : IsInt n) : (UInt32.ofNat n).toNat = n :=
  UInt32.toNat_ofNat_of_lt' (h.trans (by decide))

theorem readWord_wordBytes (w : UInt32) (rest : Str) : readWord (wordBytes w ++ rest) = some w := by
  have htake : (wordBytes w ++ rest).take 4 = wordBytes w := List.take_left' (length_wordBytes w)
  have hval : leValue (wordBytes w) = w.toNat := leValue_leBytes_of_lt w.toNat_lt
  simp [readWord, htake, hval]

/-! ## Well-formed directories -/

/-- One record of a well-formed directory. -/
structure Slot where
  inum : UInt32
  name : Str
  slack : Str
  deriving DecidableEq, Repr

namespace Slot

def size (s : Slot) : ℕ := 12 + s.name.length + s.slack.length

def bytes (s : Slot) : Str :=
  wordBytes s.inum ++ wordBytes (.ofNat s.name.length) ++ s.name ++ wordBytes (.ofNat s.size) ++ s.slack

/-- What `parsedir` makes of the record. -/
def entry (s : Slot) : Entry := ⟨s.inum, .ofNat s.name.length, .ofNat s.size, s.name⟩

@[simp] theorem length_bytes (s : Slot) : s.bytes.length = s.size := by
  simp [bytes, size]
  omega

theorem toNat_entrylen {s : Slot} (h : IsInt s.size) : s.entry.entrylen.toNat = s.size :=
  toNat_ofNat_small h

theorem toNat_filelen {s : Slot} (h : IsInt s.size) :
    s.entry.filelen.toNat = s.name.length :=
  toNat_ofNat_small (by unfold size at h; omega)

end Slot

/-- The content of the directory with the given records. -/
def chain (slots : List Slot) : Str := slots.flatMap Slot.bytes

@[simp] theorem chain_nil : chain [] = [] := rfl

@[simp] theorem chain_cons (s : Slot) (slots : List Slot) :
    chain (s :: slots) = s.bytes ++ chain slots := List.flatMap_cons

@[simp] theorem chain_append (xs ys : List Slot) : chain (xs ++ ys) = chain xs ++ chain ys :=
  List.flatMap_append

theorem parsedir_slot (s : Slot) (rest : Str) (h : IsInt (s.size + rest.length)) :
    parsedir (s.bytes ++ rest) (s.size + rest.length) = .entry s.entry rest rest.length := by
  have hsize : s.size = 12 + s.name.length + s.slack.length := rfl
  have hlen := Slot.toNat_filelen (s := s) (by omega)
  have hent := Slot.toNat_entrylen (s := s) (by omega)
  have hfull : s.bytes ++ rest = wordBytes s.inum ++ (wordBytes s.entry.filelen ++
      (s.name ++ (wordBytes s.entry.entrylen ++ (s.slack ++ rest)))) := by
    simp [Slot.bytes, Slot.entry]
  have hinum : readWord (s.bytes ++ rest) = some s.inum := by rw [hfull, readWord_wordBytes]
  have hdrop4 : (s.bytes ++ rest).drop 4 = wordBytes s.entry.filelen ++
      (s.name ++ (wordBytes s.entry.entrylen ++ (s.slack ++ rest))) := by
    rw [hfull, List.drop_left' (length_wordBytes _)]
  have hdrop8 : (s.bytes ++ rest).drop 8 =
      s.name ++ (wordBytes s.entry.entrylen ++ (s.slack ++ rest)) := by
    rw [show 8 = 4 + 4 from rfl, ← List.drop_drop, hdrop4, List.drop_left' (length_wordBytes _)]
  have hfile : readWord ((s.bytes ++ rest).drop 4) = some s.entry.filelen := by
    rw [hdrop4, readWord_wordBytes]
  have hentry : readWord ((s.bytes ++ rest).drop (8 + s.entry.filelen.toNat)) =
      some s.entry.entrylen := by
    rw [← List.drop_drop, hdrop8, hlen, List.drop_left' rfl, readWord_wordBytes]
  have hcheck : int32 (s.entry.filelen + 12).toNat = s.name.length + 12 := by
    rw [UInt32.toNat_add, hlen]
    have h12 : (12 : UInt32).toNat = 12 := rfl
    rw [h12, Nat.mod_eq_of_lt (by omega), int32_of_lt (by omega) (by omega)]
    push_cast
    rfl
  unfold parsedir
  rw [if_neg (by omega), hinum, hfile]
  dsimp only
  rw [hcheck, if_neg (by omega), hlen, if_neg (by simp; omega)]
  rw [hlen] at hentry
  rw [hentry]
  dsimp only
  have hrest : ((s.size + rest.length : ℤ) - s.size) = rest.length := by omega
  rw [hdrop8, hent, List.take_left' rfl, List.drop_left' (Slot.length_bytes s), hrest,
    int32_of_lt (by omega) (by omega)]
  rfl

theorem parsedir_end : parsedir [] 0 = .finished := rfl

theorem size_le_chain {s : Slot} {slots : List Slot} (hs : s ∈ slots) :
    s.size ≤ (chain slots).length := by
  obtain ⟨pre, post, rfl⟩ := List.append_of_mem hs
  simp only [chain_append, chain_cons, List.length_append, Slot.length_bytes]
  omega

theorem length_le_chain (slots : List Slot) : slots.length ≤ (chain slots).length := by
  induction slots with
  | nil => simp
  | cons s slots ih =>
    have hs : 12 ≤ s.size := by unfold Slot.size; omega
    simp
    omega

/-- A loop over a well-formed directory either breaks at its first matching record, at the
offset where that record starts, or sees all records. -/
theorem scanFrom_chain (stop : Entry → Bool) (slots : List Slot) (fuel pos : ℕ)
    (hf : slots.length < fuel) (h : IsInt (chain slots).length) :
    (∀ pre s post, slots = pre ++ s :: post → (∀ x ∈ pre, stop x.entry = false) →
        stop s.entry = true → scanFrom stop fuel (chain slots) (chain slots).length pos =
          (pre.map Slot.entry, .stopped (pos + (chain pre).length) s.entry)) ∧
      ((∀ x ∈ slots, stop x.entry = false) →
        scanFrom stop fuel (chain slots) (chain slots).length pos =
          (slots.map Slot.entry, .finished (pos + (chain slots).length))) := by
  induction slots generalizing fuel pos with
  | nil =>
    obtain ⟨fuel, rfl⟩ : ∃ n, fuel = n + 1 := ⟨fuel - 1, by simp at hf; omega⟩
    refine ⟨fun pre s post hsplit => by simp at hsplit, fun _ => ?_⟩
    simp [scanFrom, parsedir_end]
  | cons x slots ih =>
    obtain ⟨fuel, rfl⟩ : ∃ n, fuel = n + 1 := ⟨fuel - 1, by simp at hf; omega⟩
    simp only [chain_cons, List.length_append, Slot.length_bytes] at h
    have hparse := parsedir_slot x (chain slots) h
    have hx : 12 ≤ x.size := by unfold Slot.size; omega
    have hent := Slot.toNat_entrylen (s := x) (by omega)
    have hne : x.entry.entrylen ≠ 0 := fun h0 => by
      rw [h0] at hent
      simp at hent
      omega
    have hstep : ∀ es fin, scanFrom stop fuel (chain slots) (chain slots).length (pos + x.size) =
        (es, fin) → stop x.entry = false →
        scanFrom stop (fuel + 1) (chain (x :: slots)) (chain (x :: slots)).length pos =
          (x.entry :: es, fin) := by
      intro es fin hrec hs
      simp only [chain_cons, List.length_append, Slot.length_bytes, Nat.cast_add]
      rw [scanFrom, hparse]
      simp [hs, hne, hent, hrec]
    obtain ⟨ih1, ih2⟩ := ih fuel (pos + x.size) (by simp at hf; omega) (by omega)
    refine ⟨fun pre s post hsplit hpre hs => ?_, fun hall => ?_⟩
    · cases pre with
      | nil =>
        obtain ⟨rfl, rfl⟩ := List.cons.inj hsplit
        simp only [chain_cons, List.length_append, Slot.length_bytes, Nat.cast_add]
        rw [scanFrom, hparse]
        simp [hs]
      | cons y pre =>
        obtain ⟨rfl, rfl⟩ := List.cons.inj hsplit
        rw [hstep _ _ (ih1 pre s post rfl (fun z hz => hpre z (by simp [hz])) hs)
          (hpre x (by simp))]
        simp [Nat.add_assoc]
    · rw [hstep _ _ (ih2 fun z hz => hall z (by simp [hz])) (hall x (by simp))]
      simp [Nat.add_assoc]

theorem scan_chain_finished {stop : Entry → Bool} {slots : List Slot}
    (h : IsInt (chain slots).length) (hall : ∀ x ∈ slots, stop x.entry = false) :
    scan stop (chain slots) = (slots.map Slot.entry, .finished (chain slots).length) := by
  unfold scan
  rw [int32_of_lt (by omega) (by omega)]
  have hs := (scanFrom_chain stop slots _ 0 (Nat.lt_succ_of_le (length_le_chain slots)) h).2 hall
  simpa using hs

theorem scan_chain_stopped {stop : Entry → Bool} {pre post : List Slot} {s : Slot}
    (h : IsInt (chain (pre ++ s :: post)).length) (hpre : ∀ x ∈ pre, stop x.entry = false)
    (hs : stop s.entry = true) :
    scan stop (chain (pre ++ s :: post)) =
      (pre.map Slot.entry, .stopped (chain pre).length s.entry) := by
  unfold scan
  rw [int32_of_lt (by omega) (by omega)]
  have hsc := (scanFrom_chain stop (pre ++ s :: post) _ 0
    (Nat.lt_succ_of_le (length_le_chain _)) h).1 pre s post rfl hpre hs
  simpa using hsc

/-! ## Writing records -/

/-- The record that `newdir` leaves. -/
def dummy : Slot := ⟨0, [], []⟩

theorem newdir_eq : newdir = chain [dummy] := rfl

/-- The words and the name of a record, with the length that includes its slack. -/
theorem filldir_slot {s : Slot} (h : IsInt s.size) :
    (filldir s.inum (.ofNat s.name.length)
        (.ofNat s.name.length + 12 + .ofNat s.slack.length) s.name 0).map (· ++ s.slack) =
      some s.bytes := by
  have hsize : s.size = 12 + s.name.length + s.slack.length := rfl
  have hn : (UInt32.ofNat s.name.length).toNat = s.name.length := toNat_ofNat_small (by omega)
  have he : UInt32.ofNat s.name.length + 12 + UInt32.ofNat s.slack.length = UInt32.ofNat s.size := by
    rw [hsize, Nat.add_comm 12, UInt32.ofNat_add, UInt32.ofNat_add]
    rfl
  unfold filldir
  rw [hn, if_pos (by simp; omega), he]
  simp [Slot.bytes]

/-- A record without slack, as `create` appends it. -/
theorem filldir_append (inum : UInt32) (name : Str) (h : IsInt (name.length + 12)) :
    filldir inum (.ofNat name.length) (.ofNat name.length + 12) name 0 =
      some (Slot.bytes ⟨inum, name, []⟩) := by
  have hs : IsInt (Slot.size ⟨inum, name, []⟩) := by
    simp only [Slot.size, List.length_nil]
    omega
  simpa using filldir_slot hs

/-- The record that takes the place of a removed entry keeps its length. -/
def Slot.cleared (s : Slot) : Slot := ⟨0, [], s.bytes.drop 12⟩

theorem Slot.size_cleared (s : Slot) : s.cleared.size = s.size := by
  have hs : 12 ≤ s.size := by unfold Slot.size; omega
  simp only [cleared, size, List.length_nil, List.length_drop, length_bytes] at hs ⊢
  omega

theorem filldir_clear (s : Slot) :
    filldir 0 0 s.entry.entrylen [] 0 = some (wordBytes 0 ++ wordBytes 0 ++ wordBytes (.ofNat s.size)) := by
  simp [filldir, Slot.entry]

theorem patch_clear (pre post : List Slot) (s : Slot) :
    patch (chain (pre ++ s :: post)) (chain pre).length
        (wordBytes 0 ++ wordBytes 0 ++ wordBytes (.ofNat s.size)) =
      chain (pre ++ s.cleared :: post) := by
  have hs : 12 ≤ s.size := by unfold Slot.size; omega
  have hsplit : chain (pre ++ s :: post) =
      chain pre ++ s.bytes.take 12 ++ (s.bytes.drop 12 ++ chain post) := by
    rw [chain_append, chain_cons, List.append_assoc, ← List.append_assoc (s.bytes.take 12),
      List.take_append_drop]
  rw [hsplit, patch_append _ _ _ _ (by simp; omega), chain_append, chain_cons]
  have hc : s.cleared.bytes =
      wordBytes 0 ++ wordBytes 0 ++ wordBytes (.ofNat s.size) ++ s.bytes.drop 12 := by
    rw [Slot.bytes, Slot.size_cleared]
    simp [Slot.cleared]
  rw [hc]
  simp

/-! ## Round trip -/

/-- The entries one after the other, each as `filldir` writes it and followed by its slack. -/
def fillAll : List Slot → Option Str
  | [] => some []
  | s :: slots => do
    let cstr ← filldir s.inum (.ofNat s.name.length)
      (.ofNat s.name.length + 12 + .ofNat s.slack.length) s.name 0
    let rest ← fillAll slots
    some (cstr ++ s.slack ++ rest)

/-- Calls of `parsedir` that return entries, each starting where the one before has stopped. -/
inductive Parses : Str → ℤ → List Entry → Str → ℤ → Prop where
  | nil (p : Str) (remain : ℤ) : Parses p remain [] p remain
  | cons {p next q : Str} {remain remain' rest : ℤ} {e : Entry} {es : List Entry}
      (h : parsedir p remain = .entry e next remain') (hs : Parses next remain' es q rest) :
      Parses p remain (e :: es) q rest

theorem fillAll_eq {slots : List Slot} (h : IsInt (chain slots).length) :
    fillAll slots = some (chain slots) := by
  induction slots with
  | nil => rfl
  | cons s slots ih =>
    simp only [chain_cons, List.length_append, Slot.length_bytes] at h
    obtain ⟨cstr, hfill, hbytes⟩ := Option.map_eq_some_iff.1 (filldir_slot (s := s) (by omega))
    rw [fillAll, hfill, ih (by omega), chain_cons, ← hbytes]
    rfl

theorem parses_chain {slots : List Slot} (h : IsInt (chain slots).length) :
    Parses (chain slots) (chain slots).length (slots.map Slot.entry) [] 0 := by
  induction slots with
  | nil => exact .nil [] 0
  | cons s slots ih =>
    simp only [chain_cons, List.length_append, Slot.length_bytes] at h ⊢
    have hparse := parsedir_slot s (chain slots) h
    rw [← Nat.cast_add] at hparse
    exact .cons hparse (ih (by omega))

theorem length_chain (slots : List Slot) : (chain slots).length = (slots.map Slot.size).sum := by
  induction slots with
  | nil => rfl
  | cons s slots ih => simp [ih]

/-- What was written entry by entry is read back entry by entry: by calls of `parsedir`, of which
the last one returns `NULL` with nothing remaining, and so by the loop over them. -/
theorem entries_round_trip {slots : List Slot} (h : IsInt (slots.map Slot.size).sum) :
    ∃ buf es, fillAll slots = some buf ∧ buf.length = (slots.map Slot.size).sum ∧
      es.map (fun e => (e.inum, e.name, e.entrylen.toNat)) =
        slots.map (fun s => (s.inum, s.name, s.name.length + 12 + s.slack.length)) ∧
      (Parses buf buf.length es [] 0 ∧ parsedir [] 0 = .finished) ∧
      scan (fun _ => false) buf = (es, .finished buf.length) := by
  have hlen := length_chain slots
  rw [← hlen] at h ⊢
  refine ⟨_, slots.map Slot.entry, fillAll_eq h, rfl, ?_, ⟨parses_chain h, parsedir_end⟩,
    scan_chain_finished h fun _ _ => rfl⟩
  rw [List.map_map]
  refine List.map_congr_left ?_
  intro s hs
  have hle := size_le_chain hs
  have hsize : s.size = 12 + s.name.length + s.slack.length := rfl
  have hent : s.entry.entrylen.toNat = s.size := Slot.toNat_entrylen (by omega)
  rw [Function.comp_apply, hent, hsize, Nat.add_comm 12]
  rfl

theorem entries_round_trip_tombstone : ∃ buf es,
    fillAll [⟨5, [97], []⟩, ⟨0, [], [1, 2, 3]⟩] = some buf ∧
      es.map (fun e => (e.inum, e.name, e.entrylen.toNat)) = [(5, [97], 13), (0, [], 15)] ∧
      scan (fun _ => false) buf = (es, .finished buf.length) := by
  have hsum : IsInt (List.map Slot.size [⟨5, [97], []⟩, ⟨0, [], [1, 2, 3]⟩]).sum := by decide
  obtain ⟨buf, es, hfill, -, hes, -, hscan⟩ := entries_round_trip hsum
  exact ⟨buf, es, hfill, hes, hscan⟩

end Yfs.DirectoryFormat
