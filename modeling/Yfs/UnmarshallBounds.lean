import Yfs.Marshalling
import Mathlib.Data.List.Infix

/-!
# Unmarshalling stays inside of the buffer

A reader is described by the condition under which all it reads lies inside of the buffer. Single
bytes are checked one by one and need no condition. The check in front of a string adds position
and length in unsigned 32-bit arithmetic, and is right as long as that sum does not wrap around.
-/

namespace Yfs.UnmarshallBounds
open Marshalling
open LockProtocol (Str)

variable {α β : Type} {u u' u'' : Unmarshall}

/-! ## Readers -/

/-- All that was read so far lies inside of the buffer. -/
def Inside (u : Unmarshall) : Prop := ∀ r ∈ u.touched, r.1 + r.2 ≤ u.sz

/-- What every reader does: it leaves the buffer alone, forgets nothing that was read, and does not
recover from an error. -/
structure Later (u u' : Unmarshall) : Prop where
  buf : u'.buf = u.buf
  sz : u'.sz = u.sz
  ok : u'.ok = true → u.ok = true
  touched : u.touched <+: u'.touched

theorem Later.refl (u : Unmarshall) : Later u u := ⟨rfl, rfl, id, List.prefix_rfl⟩

theorem Later.trans (h : Later u u') (h' : Later u' u'') : Later u u'' :=
  ⟨h'.buf.trans h.buf, h'.sz.trans h.sz, fun hok => h.ok (h'.ok hok), h.touched.trans h'.touched⟩

theorem Later.inside (h : Later u u') (hi : Inside u') : Inside u := by
  intro r hr
  rw [← h.sz]
  exact hi r (h.touched.subset hr)

/-- The reader stays inside of the buffer exactly when `M` holds before it. -/
structure Stays (p : Reader α) (M : Unmarshall → Prop) : Prop where
  later : ∀ u, Later u (p u).2
  inside : ∀ u, u.sz < 2 ^ 31 → Inside u → (Inside (p u).2 ↔ M u)

/-- The reader always stays inside. -/
abbrev Plain (p : Reader α) : Prop := Stays p fun _ => True

theorem Stays.bind {p : Reader α} {f : α → Reader β} {M : Unmarshall → Prop}
    {N : α → Unmarshall → Prop} (hp : Stays p M) (hf : ∀ a, Stays (f a) (N a)) :
    Stays (p >>= f) fun u => M u ∧ N (p u).1 (p u).2 where
  later u := (hp.later u).trans ((hf (p u).1).later (p u).2)
  inside u hsz hi := by
    rw [run_bind]
    have hmid := hp.inside u hsz hi
    have hsz' : (p u).2.sz < 2 ^ 31 := by rwa [(hp.later u).sz]
    constructor
    · intro hend
      have hin := ((hf (p u).1).later (p u).2).inside hend
      exact ⟨hmid.1 hin, ((hf (p u).1).inside _ hsz' hin).1 hend⟩
    · rintro ⟨hM, hN⟩
      exact ((hf (p u).1).inside _ hsz' (hmid.2 hM)).2 hN

theorem Stays.congr {p : Reader α} {M M' : Unmarshall → Prop} (hp : Stays p M)
    (h : ∀ u, M u ↔ M' u) : Stays p M' :=
  ⟨hp.later, fun u hsz hi => (hp.inside u hsz hi).trans (h u)⟩

theorem Plain.bind {p : Reader α} {f : α → Reader β} (hp : Plain p) (hf : ∀ a, Plain (f a)) :
    Plain (p >>= f) :=
  (Stays.bind hp hf).congr fun _ => and_self_iff

theorem plain_pure (a : α) : Plain (pure a) :=
  ⟨fun u => Later.refl u, fun _ _ hi => iff_of_true hi trivial⟩

theorem plain_seek (n : ℕ) : Plain (seek n) :=
  ⟨fun _ => ⟨rfl, rfl, id, List.prefix_rfl⟩, fun _ _ hi => iff_of_true hi trivial⟩

/-- Another part is read, and the position moves on. -/
theorem inside_touch (i n ind : ℕ) (hi : Inside u) :
    Inside { u with ind := ind, touched := u.touched ++ [(i, n)] } ↔ i + n ≤ u.sz := by
  constructor
  · intro hi'
    exact hi' (i, n) (by simp)
  · intro hr x hx
    rcases List.mem_append.1 hx with hx | hx
    · exact hi x hx
    · rw [List.mem_singleton.1 hx]
      exact hr

theorem plain_rawbyte : Plain rawbyte := by
  constructor
  · intro u
    unfold rawbyte
    split
    · exact ⟨rfl, rfl, fun h => (by cases h), List.prefix_rfl⟩
    · exact ⟨rfl, rfl, id, List.prefix_append _ _⟩
  · intro u _ hi
    refine iff_of_true ?_ trivial
    unfold rawbyte
    split
    · exact hi
    · next h => exact (inside_touch u.ind 1 (u.ind + 1) hi).2 (Nat.lt_of_not_le h)

theorem plain_getUInt : Plain getUInt :=
  plain_rawbyte.bind fun _ => plain_rawbyte.bind fun _ => plain_rawbyte.bind fun _ =>
    plain_rawbyte.bind fun _ => plain_pure _

theorem plain_getUShort : Plain getUShort :=
  plain_rawbyte.bind fun _ => plain_rawbyte.bind fun _ => plain_pure _

theorem plain_getAttr : Plain getAttr :=
  plain_getUInt.bind fun _ => plain_getUInt.bind fun _ => plain_getUInt.bind fun _ =>
    plain_getUInt.bind fun _ => plain_getUInt.bind fun _ => plain_pure _

/-! ## Strings -/

/-- A byte that was read without an error lay ahead. -/
theorem rawbyte_ok (h : (rawbyte u).2.ok = true) :
    (rawbyte u).2.ind = u.ind + 1 ∧ u.ind < u.sz ∧ (rawbyte u).2.sz = u.sz := by
  unfold rawbyte at h ⊢
  split at h
  · cases h
  · next hlt => exact ⟨by simp [hlt], Nat.lt_of_not_le hlt, by simp [hlt]⟩

theorem getUInt_state (u : Unmarshall) :
    (getUInt u).2 = (rawbyte (rawbyte (rawbyte (rawbyte u).2).2).2).2 := by
  unfold getUInt
  rw [run_bind, run_bind, run_bind, run_bind]
  generalize rawbyte (rawbyte (rawbyte (rawbyte u).2).2).2 = x
  rfl

theorem getUInt_ok (h₄ : (getUInt u).2.ok = true) :
    (getUInt u).2.ind = u.ind + 4 ∧ u.ind + 4 ≤ u.sz ∧ (getUInt u).2.sz = u.sz := by
  rw [getUInt_state] at h₄ ⊢
  have h₃ := (plain_rawbyte.later _).ok h₄
  have h₂ := (plain_rawbyte.later _).ok h₃
  have h₁ := (plain_rawbyte.later _).ok h₂
  obtain ⟨hi₁, hl₁, hs₁⟩ := rawbyte_ok h₁
  obtain ⟨hi₂, hl₂, hs₂⟩ := rawbyte_ok h₂
  obtain ⟨hi₃, hl₃, hs₃⟩ := rawbyte_ok h₃
  obtain ⟨hi₄, hl₄, hs₄⟩ := rawbyte_ok h₄
  omega

/-- The length that stands in front of the string does not reach 2^32 when the position behind it
is added. -/
def Modest (u : Unmarshall) : Prop :=
  (getUInt u).2.ok = true → (getUInt u).2.ind + (getUInt u).1.toNat < 2 ^ 32

/-- If the string was read without an error, the position has moved behind it and is still inside. -/
def Exact (u : Unmarshall) : Prop :=
  (getString u).2.ok = true →
    (getString u).2.ind = u.ind + 4 + (getString u).1.length ∧ (getString u).2.ind ≤ u.sz

theorem getString_eq (u : Unmarshall) : getString u =
    if (getUInt u).2.ok = true then rawbytes (getUInt u).1 (getUInt u).2 else ([], (getUInt u).2) := by
  unfold getString
  rw [run_bind, run_bind]
  generalize getUInt u = x
  unfold isOk
  dsimp only
  split <;> rfl

theorem later_rawbytes (n : UInt32) (u : Unmarshall) : Later u (rawbytes n u).2 := by
  unfold rawbytes
  split
  · exact ⟨rfl, rfl, fun h => (by cases h), List.prefix_rfl⟩
  · exact ⟨rfl, rfl, id, List.prefix_append _ _⟩

/-- The check in `rawbytes` is right if and only if its sum does not wrap around. -/
theorem inside_rawbytes {n : UInt32} (hind : u.ind ≤ u.sz) (hsz : u.sz < 2 ^ 31) (hi : Inside u) :
    Inside (rawbytes n u).2 ↔ u.ind + n.toNat < 2 ^ 32 := by
  have hn := n.toNat_lt
  unfold rawbytes
  split
  · next hout => exact iff_of_true hi (by omega)
  · next hin =>
    dsimp only
    rw [inside_touch u.ind n.toNat _ hi]
    omega

theorem stays_getString : Stays getString Modest := by
  constructor
  · intro u
    rw [getString_eq]
    split
    · exact (plain_getUInt.later u).trans (later_rawbytes _ _)
    · dsimp only
      exact plain_getUInt.later u
  · intro u hsz hi
    have hword := (plain_getUInt.inside u hsz hi).2 trivial
    rw [getString_eq]
    unfold Modest
    by_cases hok : (getUInt u).2.ok = true
    · obtain ⟨hind, hle, hs⟩ := getUInt_ok hok
      rw [if_pos hok, inside_rawbytes (by omega) (by omega) hword]
      exact ⟨fun h _ => h, fun h => h hok⟩
    · rw [if_neg hok]
      dsimp only
      exact iff_of_true hword fun h => absurd h hok

theorem exact_of_modest (hbuf : u.buf.length = u.sz) (hsz : u.sz < 2 ^ 31) (h : Modest u) :
    Exact u := by
  intro hok
  have hlater := plain_getUInt.later u
  rw [getString_eq] at hok ⊢
  by_cases hword : (getUInt u).2.ok = true
  · obtain ⟨hind, hle, hs⟩ := getUInt_ok hword
    have hmod := h hword
    have hlen : (getUInt u).2.buf.length = u.sz := by rw [hlater.buf, hbuf]
    rw [if_pos hword] at hok ⊢
    unfold rawbytes at hok ⊢
    split at hok
    · cases hok
    · next hin =>
      rw [if_neg hin]
      simp only [List.length_take, List.length_drop, hlen]
      omega
  · rw [if_neg hword] at hok
    exact absurd hok hword

/-! ## Every type -/

/-- `M` holds before each of `n` turns of a loop. -/
def Along (get : Reader α) (M : Unmarshall → Prop) : ℕ → Unmarshall → Prop
  | 0, _ => True
  | n + 1, u => M u ∧ Along get M n (get u).2

/-- `S` holds before every extraction of a string in the course of an extraction. -/
def Strings (S : Unmarshall → Prop) : Ty → Unmarshall → Prop
  | .string, u => S u
  | .vector t, u => Along (readValue t) (Strings S t) (getUInt u).1.toNat (getUInt u).2
  | .map k v, u =>
    Along (readValue k >>= fun _ => readValue v)
      (fun u => Strings S k u ∧ Strings S v (readValue k u).2) (getUInt u).1.toNat (getUInt u).2
  | _, _ => True

theorem stays_pushBack {get : Reader α} {M : Unmarshall → Prop} (h : Stays get M) (n : ℕ)
    (v : List α) : Stays (pushBack get n v) (Along get M n) := by
  induction n generalizing v with
  | zero => exact plain_pure v
  | succ n ih => exact h.bind fun z => ih (v ++ [z])

theorem stays_assignAll {less : α → α → Bool} {get : Reader α} {get' : Reader β}
    {M N : Unmarshall → Prop} (h : Stays get M) (h' : Stays get' N) (n : ℕ) (d : List (α × β)) :
    Stays (assignAll less get get' n d)
      (Along (get >>= fun _ => get') (fun u => M u ∧ N (get u).2) n) := by
  induction n generalizing d with
  | zero => exact plain_pure d
  | succ n ih =>
    refine (h.bind fun a => h'.bind fun b => ih (assign less a b d)).congr fun u => ?_
    exact and_assoc.symm

/-- A type without strings. -/
theorem Plain.strings {p : Reader α} {t : Ty} (hp : Plain p) (h : ∀ u, Strings Modest t u ↔ True) :
    Stays p (Strings Modest t) :=
  hp.congr fun u => (h u).symm

theorem stays_readValue (t : Ty) : Stays (readValue t) (Strings Modest t) := by
  induction t with
  | bool | char | uchar =>
    unfold readValue
    exact Plain.strings (plain_rawbyte.bind fun _ => plain_pure _) fun u => by simp only [Strings]
  | short =>
    unfold readValue
    exact Plain.strings (plain_getUShort.bind fun _ => plain_pure _) fun u => by simp only [Strings]
  | ushort =>
    unfold readValue
    exact plain_getUShort.strings fun u => by simp only [Strings]
  | int =>
    unfold readValue
    exact Plain.strings (plain_getUInt.bind fun _ => plain_pure _) fun u => by simp only [Strings]
  | uint =>
    unfold readValue
    exact plain_getUInt.strings fun u => by simp only [Strings]
  | ulonglong =>
    unfold readValue
    exact Plain.strings (plain_getUInt.bind fun _ => plain_getUInt.bind fun _ => plain_pure _)
      fun u => by simp only [Strings]
  | string =>
    unfold readValue
    exact stays_getString.congr fun u => by simp only [Strings]
  | attr =>
    unfold readValue
    exact plain_getAttr.strings fun u => by simp only [Strings]
  | vector t ih =>
    unfold readValue
    refine (Stays.bind plain_getUInt fun n => stays_pushBack ih n.toNat []).congr fun u => ?_
    rw [Strings, true_and]
  | map k v ihk ihv =>
    unfold readValue
    refine (Stays.bind plain_getUInt fun n => stays_assignAll ihk ihv n.toNat []).congr fun u => ?_
    rw [Strings, true_and]

/-! ## Sequences of extractions -/

inductive Extraction where
  | reqHeader
  | replyHeader
  | value (t : Ty)

def Extraction.run : Extraction → Unmarshall → Unmarshall
  | .reqHeader, u => (unpackReqHeader u).2
  | .replyHeader, u => (unpackReplyHeader u).2
  | .value t, u => (readValue t u).2

/-- `S` holds before every extraction of a string. -/
def Extraction.Strings (S : Unmarshall → Prop) : Extraction → Unmarshall → Prop
  | .value t, u => UnmarshallBounds.Strings S t u
  | _, _ => True

def extractAll (ops : List Extraction) (u : Unmarshall) : Unmarshall :=
  ops.foldl (fun u o => o.run u) u

def AllStrings (S : Unmarshall → Prop) : List Extraction → Unmarshall → Prop
  | [], _ => True
  | o :: ops, u => o.Strings S u ∧ AllStrings S ops (o.run u)

/-- `unmarshall(b, sz)` -/
def fresh (buf : Str) : Unmarshall := { buf := buf, sz := buf.length }

theorem plain_unpack : Plain unpack := plain_getUInt.bind fun _ => plain_pure _

theorem plain_unpackReqHeader : Plain unpackReqHeader :=
  (plain_seek 4).bind fun _ => Plain.bind (plain_unpack.bind fun _ => plain_unpack.bind fun _ =>
    plain_unpack.bind fun _ => plain_unpack.bind fun _ => plain_unpack.bind fun _ => plain_pure _)
    fun _ => (plain_seek rpcHeaderSz).bind fun _ => plain_pure _

theorem plain_unpackReplyHeader : Plain unpackReplyHeader :=
  (plain_seek 4).bind fun _ => Plain.bind (plain_unpack.bind fun _ => plain_unpack.bind fun _ =>
    plain_pure _) fun _ => (plain_seek rpcHeaderSz).bind fun _ => plain_pure _

theorem Extraction.later (o : Extraction) (u : Unmarshall) : Later u (o.run u) := by
  cases o with
  | reqHeader => exact plain_unpackReqHeader.later u
  | replyHeader => exact plain_unpackReplyHeader.later u
  | value t => exact (stays_readValue t).later u

theorem Extraction.inside (o : Extraction) (hsz : u.sz < 2 ^ 31) (hi : Inside u) :
    Inside (o.run u) ↔ o.Strings Modest u := by
  cases o with
  | reqHeader => exact plain_unpackReqHeader.inside u hsz hi
  | replyHeader => exact plain_unpackReplyHeader.inside u hsz hi
  | value t => exact (stays_readValue t).inside u hsz hi

theorem later_extractAll (ops : List Extraction) (u : Unmarshall) : Later u (extractAll ops u) := by
  induction ops generalizing u with
  | nil => exact Later.refl u
  | cons o ops ih => exact (o.later u).trans (ih (o.run u))

theorem inside_extractAll (ops : List Extraction) (hsz : u.sz < 2 ^ 31) (hi : Inside u) :
    Inside (extractAll ops u) ↔ AllStrings Modest ops u := by
  induction ops generalizing u with
  | nil => exact iff_of_true hi trivial
  | cons o ops ih =>
    have hlater := o.later u
    have hsz' : (o.run u).sz < 2 ^ 31 := by rwa [hlater.sz]
    change Inside (extractAll ops (o.run u)) ↔ _
    constructor
    · intro hend
      have hmid := (later_extractAll ops (o.run u)).inside hend
      exact ⟨(o.inside hsz hi).1 hmid, (ih hsz' hmid).1 hend⟩
    · rintro ⟨ho, hops⟩
      exact (ih hsz' ((o.inside hsz hi).2 ho)).2 hops

/-! ## Positions after strings -/

/-- The buffer has its full size, and the size is an `int`. -/
def Whole (u : Unmarshall) : Prop := u.buf.length = u.sz ∧ u.sz < 2 ^ 31

theorem Later.whole (h : Later u u') (hu : Whole u) : Whole u' := by
  unfold Whole
  rw [h.buf, h.sz]
  exact hu

theorem Along.imp {get : Reader α} {M M' : Unmarshall → Prop} (hget : ∀ u, Later u (get u).2)
    (h : ∀ u, Whole u → M u → M' u) (n : ℕ) (hu : Whole u) (hM : Along get M n u) :
    Along get M' n u := by
  induction n generalizing u with
  | zero => trivial
  | succ n ih => exact ⟨h u hu hM.1, ih ((hget u).whole hu) hM.2⟩

theorem Strings.imp {S S' : Unmarshall → Prop} (h : ∀ u, Whole u → S u → S' u) (t : Ty)
    (hu : Whole u) (hS : Strings S t u) : Strings S' t u := by
  induction t generalizing u with
  | string => exact h u hu hS
  | vector t ih =>
    unfold Strings at hS ⊢
    exact hS.imp (stays_readValue t).later (fun u hu => ih hu) _ ((plain_getUInt.later u).whole hu)
  | map k v ihk ihv =>
    unfold Strings at hS ⊢
    refine hS.imp ?_ ?_ _ ((plain_getUInt.later u).whole hu)
    · exact (Stays.bind (stays_readValue k) fun _ => stays_readValue v).later
    · rintro u hu ⟨hk, hv⟩
      exact ⟨ihk hu hk, ihv (((stays_readValue k).later u).whole hu) hv⟩
  | _ => trivial

theorem AllStrings.imp {S S' : Unmarshall → Prop} (h : ∀ u, Whole u → S u → S' u)
    (ops : List Extraction) (hu : Whole u) (hS : AllStrings S ops u) : AllStrings S' ops u := by
  induction ops generalizing u with
  | nil => trivial
  | cons o ops ih =>
    refine ⟨?_, ih ((o.later u).whole hu) hS.2⟩
    cases o with
    | value t => exact hS.1.imp h t hu
    | _ => trivial

/-- Everything that a sequence of extractions reads lies inside of the buffer, and every string
moves the position to its end, exactly when no string's length wraps around with its position. An
error is never forgotten. -/
theorem extractions_inside_iff (buf : Str) (hb : buf.length < 2 ^ 31) (ops : List Extraction) :
    ((Inside (extractAll ops (fresh buf)) ∧ AllStrings Exact ops (fresh buf)) ↔
        AllStrings Modest ops (fresh buf)) ∧
      ∀ pre post, ops = pre ++ post → (extractAll pre (fresh buf)).ok = false →
        (extractAll ops (fresh buf)).ok = false ∧ (extractAll ops (fresh buf)).okdone = false := by
  have hinside : Inside (extractAll ops (fresh buf)) ↔ AllStrings Modest ops (fresh buf) :=
    inside_extractAll ops hb (by simp [Inside, fresh])
  refine ⟨⟨fun h => hinside.1 h.1, fun h => ⟨hinside.2 h, ?_⟩⟩, ?_⟩
  · exact h.imp (fun u hu => exact_of_modest hu.1 hu.2) ops ⟨rfl, hb⟩
  · rintro pre post rfl hbad
    have hlater := later_extractAll post (extractAll pre (fresh buf))
    have heq : extractAll (pre ++ post) (fresh buf) = extractAll post (extractAll pre (fresh buf)) :=
      List.foldl_append
    have hok : (extractAll (pre ++ post) (fresh buf)).ok = false := by
      rw [heq]
      by_contra hne
      rw [hlater.ok (eq_true_of_ne_false hne)] at hbad
      cases hbad
    exact ⟨hok, by rw [Unmarshall.okdone, hok, Bool.false_and]⟩

/-- A string of two bytes. -/
theorem extractions_inside_string :
    Inside (extractAll [.value .string] (fresh [0, 0, 0, 2, 104, 105])) ∧
      AllStrings Exact [.value .string] (fresh [0, 0, 0, 2, 104, 105]) :=
  (extractions_inside_iff [0, 0, 0, 2, 104, 105] (by decide) [.value .string]).1.2
    ⟨fun _ => by decide, trivial⟩

instance (u : Unmarshall) : Decidable (Inside u) :=
  inferInstanceAs (Decidable (∀ r ∈ u.touched, r.1 + r.2 ≤ u.sz))

/-- A header followed by nothing but the length of a string: with 2^32 - 1 in its place, the check
passes and all of that is read behind the buffer. -/
theorem hostile_length_outside :
    ¬Inside (extractAll [.reqHeader, .value .string]
      (fresh (List.replicate 24 0 ++ List.replicate 4 255))) := by
  decide +kernel

end Yfs.UnmarshallBounds
