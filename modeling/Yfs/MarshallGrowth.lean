import Yfs.Marshalling

/-!
# The buffer that grows

Every `operator<<` is a sequence of single bytes and strings. What the buffer holds afterwards,
and how far it had to grow, depends on that sequence only.
-/

namespace Yfs.MarshallGrowth
open ByteLayout NetworkOrder Marshalling
open LockProtocol (Str)
open ExtentClient (Attr)

/-! ## Raw writes -/

/-- A call of `rawbyte` or of `rawbytes`. -/
inductive Piece where
  | byte (x : UInt8)
  | bytes (s : Str)
  deriving DecidableEq, Repr

def Piece.data : Piece → Str
  | .byte x => [x]
  | .bytes s => s

def write (junk : Junk) (m : Marshall) : Piece → Option Marshall
  | .byte x => m.rawbyte junk x
  | .bytes s => m.rawbytes junk s

def writeAll (junk : Junk) (ps : List Piece) (m : Marshall) : Option Marshall :=
  ps.foldlM (write junk) m

/-- The capacity that a piece makes of another one. -/
def grown (ind capa : ℕ) : Piece → ℕ
  | .byte _ => if capa ≤ ind then 2 * capa else capa
  | .bytes s =>
    if capa < ind + s.length then if s.length < capa then 2 * capa else capa + s.length else capa

/-- The position and the capacity after a sequence of pieces, in unbounded numbers. -/
def extent (e : ℕ × ℕ) (ps : List Piece) : ℕ × ℕ :=
  ps.foldl (fun e p => (e.1 + p.data.length, grown e.1 e.2 p)) e

/-- A buffer between two writes. -/
structure Sized (m : Marshall) : Prop where
  length_eq : m.buf.length = m.capa
  ind_le : m.ind ≤ m.capa
  pos : 0 < m.capa
  small : m.capa < 2 ^ 31

/-- What a write of `s` that ends in `m'` has done. -/
structure Wrote (m : Marshall) (s : Str) (m' : Marshall) : Prop where
  sized : Sized m'
  grows : m.capa ≤ m'.capa
  ind_eq : m'.ind = m.ind + s.length
  content : m'.buf.take m'.ind = m.buf.take m.ind ++ s
  kept : m'.capa = m.capa → m'.buf.drop m'.ind = m.buf.drop m'.ind

variable {junk : Junk} {m m' m'' : Marshall} {s s' : Str} {p : Piece} {ps : List Piece}

theorem put_spec (hlen : m.buf.length = m.capa) (hsmall : m.capa < 2 ^ 31)
    (h : m.ind + s.length ≤ m.capa) (hpos : 0 < m.capa) :
    ∃ m', m.put s = some m' ∧ m'.capa = m.capa ∧ Wrote m s m' := by
  have htake : (m.buf.take m.ind).length = m.ind := by
    rw [List.length_take]
    omega
  refine ⟨_, if_pos (by omega), rfl, ⟨?_, ?_, hpos, hsmall⟩, le_refl _, rfl, ?_, ?_⟩
  · simp only [patch, List.length_append, List.length_drop, htake]
    omega
  · exact h
  · simp only [patch]
    rw [List.take_append_of_le_length (by rw [List.length_append, htake])]
    rw [List.take_of_length_le (by rw [List.length_append, htake])]
  · intro _
    simp only [patch]
    rw [List.drop_append_of_le_length (by rw [List.length_append, htake]),
      List.drop_of_length_le (by rw [List.length_append, htake]), List.nil_append]

/-- Growing keeps what was written. -/
theorem realloc_spec (junk : Junk) {capa : ℕ} (h : Sized m) (hle : m.capa ≤ capa) (hsmall : capa < 2 ^ 31) :
    ∃ m', m.realloc junk capa = some m' ∧ m'.capa = capa ∧ m'.ind = m.ind ∧
      m'.buf.length = capa ∧ m'.buf.take m.ind = m.buf.take m.ind := by
  refine ⟨_, if_pos hsmall, rfl, rfl, ?_, ?_⟩
  · simp only [List.length_append, List.length_map, List.length_drop, List.length_range, h.length_eq]
    omega
  · exact List.take_append_of_le_length (by rw [h.length_eq]; exact h.ind_le)

/-- Growing when it is necessary, then writing. -/
theorem reserve_put_spec (junk : Junk) (full : Bool) (capa : ℕ) (h : Sized m)
    (hle : m.capa ≤ capa) (hsmall : (if full then capa else m.capa) < 2 ^ 31)
    (hroom : m.ind + s.length ≤ if full then capa else m.capa) :
    ∃ m', ((m.reserve junk full capa).bind fun m => m.put s) = some m' ∧
      m'.capa = (if full then capa else m.capa) ∧ Wrote m s m' := by
  cases full with
  | true =>
    simp only [if_true] at hsmall hroom ⊢
    obtain ⟨m₁, h₁, hcapa, hind, hlen, htake⟩ := realloc_spec junk h hle hsmall
    obtain ⟨m₂, h₂, hcapa₂, hw⟩ := put_spec (m := m₁) (s := s) (by omega) (by omega) (by omega)
      (by have := h.pos; omega)
    refine ⟨m₂, ?_, by omega, hw.sized, by omega, by rw [hw.ind_eq, hind], ?_, ?_⟩
    · rw [Marshall.reserve, if_pos rfl, h₁]
      exact h₂
    · rw [hw.content, hind, htake]
    · intro hsame
      have hcap : capa = m.capa := by omega
      have hbuf : m₁.buf = m.buf := by
        rw [Marshall.realloc, if_pos hsmall, Option.some.injEq] at h₁
        rw [← h₁, hcap]
        simp [h.length_eq]
      rw [hw.kept hcapa₂, hbuf]
  | false =>
    simp only [Bool.false_eq_true, if_false] at hsmall hroom ⊢
    exact put_spec h.length_eq hsmall hroom h.pos

theorem le_grown (ind capa : ℕ) (p : Piece) : capa ≤ grown ind capa p := by
  cases p with
  | byte x => simp only [grown]; split_ifs <;> omega
  | bytes s => simp only [grown]; split_ifs <;> omega

theorem room_grown (h : Sized m) (p : Piece) :
    m.ind + p.data.length ≤ grown m.ind m.capa p := by
  have hle := h.ind_le
  have hpos := h.pos
  cases p with
  | byte x => simp only [grown, Piece.data, List.length_singleton]; split_ifs <;> omega
  | bytes s => simp only [grown, Piece.data]; split_ifs <;> omega

/-- A write succeeds exactly when the new capacity is an `int`. -/
theorem write_spec (junk : Junk) (h : Sized m) (hsmall : grown m.ind m.capa p < 2 ^ 31) :
    ∃ m', write junk m p = some m' ∧ m'.capa = grown m.ind m.capa p ∧ Wrote m p.data m' := by
  have hroom := room_grown h p
  cases p with
  | byte x =>
    have hspec := reserve_put_spec (s := [x]) junk (decide (m.capa ≤ m.ind)) (2 * m.capa) h
      (by omega)
    simp only [decide_eq_true_eq] at hspec
    exact hspec hsmall hroom
  | bytes s =>
    have hlt : ¬2 ^ 31 ≤ m.ind + s.length := by
      have : (Piece.bytes s).data.length = s.length := rfl
      omega
    have hspec := reserve_put_spec (s := s) junk (decide (m.capa < m.ind + s.length))
      (if s.length < m.capa then 2 * m.capa else m.capa + s.length) h (by split_ifs <;> omega)
    simp only [decide_eq_true_eq] at hspec
    simp only [write, Marshall.rawbytes, if_neg hlt]
    exact hspec hsmall hroom

theorem write_none (h : 2 ^ 31 ≤ grown m.ind m.capa p) (hsmall : m.capa < 2 ^ 31) :
    write junk m p = none := by
  cases p with
  | byte x =>
    simp only [grown] at h
    split_ifs at h with hc
    · simp only [write, Marshall.rawbyte, Marshall.reserve, hc, decide_true, if_true, Marshall.realloc]
      rw [if_neg (by omega)]
      rfl
    · omega
  | bytes s =>
    simp only [grown] at h
    simp only [write, Marshall.rawbytes]
    by_cases hs : 2 ^ 31 ≤ m.ind + s.length
    · rw [if_pos hs]
    · rw [if_neg hs]
      by_cases hc : m.capa < m.ind + s.length
      · rw [if_pos hc] at h
        simp only [Marshall.reserve, hc, decide_true, if_true, Marshall.realloc]
        rw [if_neg (by omega)]
        rfl
      · rw [if_neg hc] at h
        omega

theorem Wrote.trans (h : Wrote m s m') (h' : Wrote m' s' m'') : Wrote m (s ++ s') m'' := by
  have hind := h.ind_eq
  have hind' := h'.ind_eq
  refine ⟨h'.sized, h.grows.trans h'.grows, by simp; omega, ?_, ?_⟩
  · rw [h'.content, h.content, List.append_assoc]
  · intro hcapa
    have hg := h.grows
    have hg' := h'.grows
    have hsplit : m''.ind = m'.ind + s'.length := hind'
    rw [h'.kept (by omega), hsplit, ← List.drop_drop, h.kept (by omega), List.drop_drop]

theorem le_extent (ps : List Piece) (e : ℕ × ℕ) : e.2 ≤ (extent e ps).2 := by
  induction ps generalizing e with
  | nil => exact le_refl _
  | cons p ps ih => exact (le_grown e.1 e.2 p).trans (ih (e.1 + p.data.length, grown e.1 e.2 p))

theorem writeAll_append (ps qs : List Piece) (m : Marshall) :
    writeAll junk (ps ++ qs) m = (writeAll junk ps m).bind (writeAll junk qs) := by
  simp only [writeAll, List.foldlM_append]
  rfl

theorem writeAll_spec (junk : Junk) (h : Sized m)
    (hsmall : (extent (m.ind, m.capa) ps).2 < 2 ^ 31) :
    ∃ m', writeAll junk ps m = some m' ∧ m'.capa = (extent (m.ind, m.capa) ps).2 ∧
      Wrote m (ps.flatMap Piece.data) m' := by
  induction ps generalizing m with
  | nil =>
    refine ⟨m, rfl, rfl, h, le_refl _, rfl, ?_, fun _ => rfl⟩
    rw [List.flatMap_nil, List.append_nil]
  | cons p ps ih =>
    have hp : grown m.ind m.capa p < 2 ^ 31 := lt_of_le_of_lt (le_extent ps (_, grown m.ind m.capa p)) hsmall
    obtain ⟨m₁, h₁, hcapa₁, hw₁⟩ := write_spec junk h hp
    have hext : extent (m₁.ind, m₁.capa) ps = extent (m.ind, m.capa) (p :: ps) := by
      rw [hw₁.ind_eq, hcapa₁]
      rfl
    obtain ⟨m₂, h₂, hcapa₂, hw₂⟩ := ih hw₁.sized (by rw [hext]; exact hsmall)
    refine ⟨m₂, ?_, by rw [hcapa₂, hext], ?_⟩
    · rw [writeAll, List.foldlM_cons, h₁]
      exact h₂
    · rw [List.flatMap_cons]
      exact hw₁.trans hw₂

theorem writeAll_none (h : Sized m) (hbig : 2 ^ 31 ≤ (extent (m.ind, m.capa) ps).2) :
    writeAll junk ps m = none := by
  induction ps generalizing m with
  | nil =>
    have := h.small
    exact absurd hbig (by simpa [extent] using this)
  | cons p ps ih =>
    rw [writeAll, List.foldlM_cons]
    by_cases hp : grown m.ind m.capa p < 2 ^ 31
    · obtain ⟨m₁, h₁, hcapa₁, hw₁⟩ := write_spec junk h hp
      rw [h₁]
      refine ih hw₁.sized ?_
      rw [hw₁.ind_eq, hcapa₁]
      exact hbig
    · rw [write_none (by omega) h.small]
      rfl

/-! ## The pieces of a value -/

def word (x : UInt32) : List Piece := (wordBytes x).map .byte

/-- The calls that `operator<<` makes. -/
def pieces : (t : Ty) → t.Raw → List Piece
  | .bool, (x : Bool) => [.byte (if x then 1 else 0)]
  | .char, (x : Int8) => [.byte x.toUInt8]
  | .uchar, (x : UInt8) => [.byte x]
  | .short, (x : Int16) => (shortBytes x.toUInt16).map .byte
  | .ushort, (x : UInt16) => (shortBytes x).map .byte
  | .int, (x : Int32) => word x.toUInt32
  | .uint, (x : UInt32) => word x
  | .ulonglong, (x : UInt64) => word (x >>> 32).toUInt32 ++ word x.toUInt32
  | .string, (s : Str) => word (UInt32.ofNat s.length) ++ [.bytes s]
  | .attr, (a : Attr) => word a.type ++ word a.atime ++ word a.mtime ++ word a.ctime ++ word a.size
  | .vector t, (v : List t.Raw) => word (UInt32.ofNat v.length) ++ v.flatMap (pieces t)
  | .map k v, (d : List (k.Raw × v.Raw)) =>
    word (UInt32.ofNat d.length) ++ d.flatMap fun z => pieces k z.1 ++ pieces v z.2

theorem putUInt_eq (x : UInt32) (m : Marshall) : m.putUInt junk x = writeAll junk (word x) m := by
  simp [Marshall.putUInt, writeAll, word, wordBytes, write]

theorem putUShort_eq (x : UInt16) (m : Marshall) :
    m.putUShort junk x = writeAll junk ((shortBytes x).map .byte) m := by
  simp [Marshall.putUShort, writeAll, shortBytes, write]

theorem writeAll_single (p : Piece) (m : Marshall) : writeAll junk [p] m = write junk m p := by
  simp [writeAll]

theorem foldlM_eq {α : Type} {f : Marshall → α → Option Marshall} {g : α → List Piece}
    (h : ∀ z m, f m z = writeAll junk (g z) m) (v : List α) (m : Marshall) :
    v.foldlM f m = writeAll junk (v.flatMap g) m := by
  induction v generalizing m with
  | nil => rfl
  | cons z v ih =>
    rw [List.foldlM_cons, List.flatMap_cons, writeAll_append, h]
    exact Option.bind_congr fun m _ => ih m

/-- Every `operator<<` writes its pieces. -/
theorem writeValue_eq (t : Ty) (v : t.Raw) (m : Marshall) :
    writeValue junk t v m = writeAll junk (pieces t v) m := by
  induction t generalizing m with
  | bool => exact (writeAll_single (.byte _) m).symm
  | char => exact (writeAll_single (.byte _) m).symm
  | uchar => exact (writeAll_single (.byte _) m).symm
  | short => exact putUShort_eq _ m
  | ushort => exact putUShort_eq _ m
  | int => exact putUInt_eq _ m
  | uint => exact putUInt_eq _ m
  | ulonglong =>
    simp only [writeValue, pieces, writeAll_append, putUInt_eq]
    rfl
  | string =>
    simp only [writeValue, Marshall.putString, pieces, writeAll_append, putUInt_eq]
    exact Option.bind_congr fun m _ => (writeAll_single (.bytes v) m).symm
  | attr =>
    simp only [writeValue, Marshall.putAttr, pieces, writeAll_append, putUInt_eq, Option.bind_assoc]
    rfl
  | vector t ih =>
    simp only [writeValue, pieces, writeAll_append, putUInt_eq]
    exact Option.bind_congr fun m _ => foldlM_eq (fun z m => ih z m) v m
  | map k t ihk iht =>
    simp only [writeValue, pieces, writeAll_append, putUInt_eq]
    refine Option.bind_congr fun m _ => foldlM_eq (fun z m => ?_) v m
    rw [writeAll_append, ← ihk]
    exact Option.bind_congr fun m _ => iht z.2 m

end Yfs.MarshallGrowth
