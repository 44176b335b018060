import Yfs.MarshallGrowth

/-!
# Unmarshalling undoes marshalling

A reader takes a value off the front of what is left to read. The values come back when the
buffer could be written at all, that is, when its capacity never reaches 2^31.
-/

namespace Yfs.MarshallRoundTrip
open ByteLayout NetworkOrder Marshalling MarshallGrowth
open LockProtocol (Str)
open ExtentClient (Attr)

/-! ## What is left to read -/

structure Rest (u : Unmarshall) (s : Str) : Prop where
  ok : u.ok = true
  inside : u.sz ≤ u.buf.length
  small : u.sz < 2 ^ 31
  ind_le : u.ind ≤ u.sz
  rest : (u.buf.take u.sz).drop u.ind = s

/-- The next `n` bytes have been read, in the parts `l`. -/
def advance (u : Unmarshall) (n : ℕ) (l : List (ℕ × ℕ)) : Unmarshall :=
  { u with ind := u.ind + n, touched := u.touched ++ l }

variable {u : Unmarshall} {e e' s : Str} {α β : Type} {x : α} {y : β}

theorem Rest.length_eq (h : Rest u s) : u.ind + s.length = u.sz := by
  have := h.ind_le
  have := h.inside
  rw [← h.rest, List.length_drop, List.length_take]
  omega

theorem Rest.advance (h : Rest u (e ++ s)) (l : List (ℕ × ℕ)) : Rest (advance u e.length l) s := by
  have hlen := h.length_eq
  rw [List.length_append] at hlen
  refine ⟨h.ok, h.inside, h.small, ?_, ?_⟩
  · change u.ind + e.length ≤ u.sz
    omega
  · change (u.buf.take u.sz).drop (u.ind + e.length) = s
    rw [← List.drop_drop, h.rest, List.drop_left]

theorem Rest.touched (h : Rest u s) (l : List (ℕ × ℕ)) : Rest { u with touched := l } s :=
  ⟨h.ok, h.inside, h.small, h.ind_le, h.rest⟩

/-- `f` takes `x` off the front, where it stands as `e`. -/
def Reads (f : Reader α) (e : Str) (x : α) : Prop :=
  ∀ u s, Rest u (e ++ s) → ∃ l, f u = (x, MarshallRoundTrip.advance u e.length l)

theorem advance_nothing (u : Unmarshall) : MarshallRoundTrip.advance u 0 [] = u := by
  simp [MarshallRoundTrip.advance]

theorem reads_pure (x : α) : Reads (pure x) [] x := by
  intro u s _
  refine ⟨[], ?_⟩
  rw [List.length_nil, advance_nothing]
  rfl

theorem Reads.bind {f : Reader α} {g : α → Reader β} (hf : Reads f e x) (hg : Reads (g x) e' y) :
    Reads (f >>= g) (e ++ e') y := by
  intro u s h
  rw [List.append_assoc] at h
  obtain ⟨l, hl⟩ := hf u _ h
  obtain ⟨l', hl'⟩ := hg _ s (h.advance l)
  refine ⟨l ++ l', ?_⟩
  rw [run_bind, hl, hl']
  simp only [MarshallRoundTrip.advance, List.length_append, Nat.add_assoc, List.append_assoc]

theorem Reads.map {f : Reader α} (g : α → β) (hf : Reads f e x) :
    Reads (f >>= fun a => pure (g a)) e (g x) := by
  have h := Reads.bind (g := fun a => pure (g a)) hf (reads_pure (g x))
  rwa [List.append_nil] at h

/-- What is read is short, since the whole buffer is. -/
theorem Reads.of_short {f : Reader α} (h : e.length < 2 ^ 31 → Reads f e x) : Reads f e x := by
  intro u s hu
  refine h ?_ u s hu
  have hlen := hu.length_eq
  have := hu.small
  rw [List.length_append] at hlen
  omega

theorem reads_rawbyte (b : UInt8) : Reads rawbyte [b] (signExtend b) := by
  intro u s h
  have hlen := h.length_eq
  rw [List.length_append, List.length_singleton] at hlen
  have hget : u.buf[u.ind]? = some b := by
    have hrest := congrArg (fun l => l[0]?) h.rest
    simp only [List.getElem?_drop, Nat.add_zero] at hrest
    rw [List.getElem?_take_of_lt (by omega)] at hrest
    simpa using hrest
  refine ⟨[(u.ind, 1)], ?_⟩
  simp only [rawbyte]
  rw [if_neg (by omega), hget]
  rfl

theorem reads_isOk : Reads isOk [] true := by
  intro u s h
  refine ⟨[], ?_⟩
  change (u.ok, u) = _
  rw [h.ok, List.length_nil, advance_nothing]

theorem reads_rawbytes {n : UInt32} (hn : n.toNat = e.length) : Reads (rawbytes n) e e := by
  intro u s h
  have hlen := h.length_eq
  have hsmall := h.small
  have hin := h.inside
  rw [List.length_append] at hlen
  have htake : (u.buf.drop u.ind).take e.length = e := by
    have hrest := congrArg (fun l => l.take e.length) h.rest
    simp only [List.take_left] at hrest
    rw [List.drop_take, List.take_take] at hrest
    rwa [show min e.length (u.sz - u.ind) = e.length by omega] at hrest
  have hsum : (u.ind + e.length) % 2 ^ 32 = u.ind + e.length := Nat.mod_eq_of_lt (by omega)
  refine ⟨[(u.ind, e.length)], ?_⟩
  simp only [rawbytes]
  rw [hn, hsum, if_neg (by omega), htake]
  rfl

theorem reads_getUInt (x : UInt32) : Reads getUInt (wordBytes x) x := by
  change Reads _ ([_] ++ ([_] ++ ([_] ++ ([_] ++ [])))) x
  refine (reads_rawbyte _).bind ((reads_rawbyte _).bind ((reads_rawbyte _).bind
    ((reads_rawbyte _).bind ?_)))
  simp only [mask_signExtend, word_of_bytes]
  exact reads_pure x

theorem reads_getUShort (x : UInt16) : Reads getUShort (shortBytes x) x := by
  change Reads _ ([_] ++ ([_] ++ [])) x
  refine (reads_rawbyte _).bind ((reads_rawbyte _).bind ?_)
  simp only [mask_signExtend, short_of_bytes]
  exact reads_pure x

theorem toNat_ofNat_length {l : List α} (h : l.length < 2 ^ 31) :
    (UInt32.ofNat l.length).toNat = l.length := by
  rw [UInt32.toNat_ofNat']
  omega

theorem reads_getString (t : Str) :
    Reads getString (wordBytes (UInt32.ofNat t.length) ++ t) t := by
  apply Reads.of_short
  intro hshort
  rw [List.length_append] at hshort
  refine (reads_getUInt _).bind ?_
  have hbytes := reads_rawbytes (toNat_ofNat_length (l := t) (by omega))
  exact Reads.bind (e := []) reads_isOk hbytes

theorem reads_getAttr (a : Attr) : Reads getAttr (wordBytes a.type ++ (wordBytes a.atime ++
    (wordBytes a.mtime ++ (wordBytes a.ctime ++ (wordBytes a.size ++ []))))) a :=
  (reads_getUInt _).bind ((reads_getUInt _).bind ((reads_getUInt _).bind
    ((reads_getUInt _).bind ((reads_getUInt _).bind (reads_pure a)))))

/-! ## Vectors and maps -/

theorem reads_pushBack {get : Reader α} {enc : α → Str} (v acc : List α)
    (h : ∀ z ∈ v, Reads get (enc z) z) :
    Reads (pushBack get v.length acc) (v.flatMap enc) (acc ++ v) := by
  induction v generalizing acc with
  | nil =>
    rw [List.append_nil]
    exact reads_pure acc
  | cons z v ih =>
    rw [List.flatMap_cons, List.append_cons]
    exact (h z List.mem_cons_self).bind (ih _ fun z hz => h z (List.mem_cons_of_mem _ hz))

theorem lexLess_asymm {less : α → α → Bool} (h : ∀ a b, less a b = true → less b a = false)
    (l l' : List α) (hl : lexLess less l l' = true) : lexLess less l' l = false := by
  induction l generalizing l' with
  | nil => cases l' <;> rfl
  | cons a l ih =>
    cases l' with
    | nil => cases hl
    | cons b l' =>
      simp only [lexLess, Bool.or_eq_true, Bool.and_eq_true, Bool.not_eq_true'] at hl
      simp only [lexLess, Bool.or_eq_false_iff, Bool.and_eq_false_iff, Bool.not_eq_false']
      rcases hl with hab | ⟨hba, hl⟩
      · exact ⟨h a b hab, .inl hab⟩
      · exact ⟨hba, .inr (ih l' hl)⟩

theorem pairLess_asymm {less : α → α → Bool} {less' : β → β → Bool}
    (h : ∀ a b, less a b = true → less b a = false)
    (h' : ∀ a b, less' a b = true → less' b a = false) (z z' : α × β)
    (hz : pairLess less less' z z' = true) : pairLess less less' z' z = false := by
  simp only [pairLess, Bool.or_eq_true, Bool.and_eq_true, Bool.not_eq_true'] at hz
  simp only [pairLess, Bool.or_eq_false_iff, Bool.and_eq_false_iff, Bool.not_eq_false']
  rcases hz with hlt | ⟨hge, hlt⟩
  · exact ⟨h _ _ hlt, .inl hlt⟩
  · exact ⟨hge, .inr (h' _ _ hlt)⟩

theorem decide_asymm {r : α → α → Prop} [DecidableRel r] (h : ∀ {a b : α}, r a b → ¬r b a)
    (a b : α)
    (hab : decide (r a b) = true) : decide (r b a) = false :=
  decide_eq_false (h (of_decide_eq_true hab))

theorem less_asymm (t : Ty) (a b : t.Raw) (h : t.less a b = true) : t.less b a = false := by
  induction t with
  | bool => exact (by decide : ∀ a b : Bool, (!a && b) = true → (!b && a) = false) a b h
  | char => exact decide_asymm (r := fun x y : Int8 => x < y) Int8.lt_asymm a b h
  | uchar => exact decide_asymm (r := fun x y : UInt8 => x < y) UInt8.lt_asymm a b h
  | short => exact decide_asymm (r := fun x y : Int16 => x < y) Int16.lt_asymm a b h
  | ushort => exact decide_asymm (r := fun x y : UInt16 => x < y) UInt16.lt_asymm a b h
  | int => exact decide_asymm (r := fun x y : Int32 => x < y) Int32.lt_asymm a b h
  | uint => exact decide_asymm (r := fun x y : UInt32 => x < y) UInt32.lt_asymm a b h
  | ulonglong => exact decide_asymm (r := fun x y : UInt64 => x < y) UInt64.lt_asymm a b h
  | string => exact lexLess_asymm (decide_asymm UInt8.lt_asymm) a b h
  | attr => rfl
  | vector t ih => exact lexLess_asymm ih a b h
  | map k v ihk ihv => exact lexLess_asymm (pairLess_asymm ihk ihv) a b h

theorem assign_last {less : α → α → Bool} (h : ∀ a b, less a b = true → less b a = false) {a : α}
    {b : β} {d : List (α × β)} (hd : ∀ z ∈ d, less z.1 a = true) :
    assign less a b d = d ++ [(a, b)] := by
  induction d with
  | nil => rfl
  | cons z d ih =>
    have hz := hd z List.mem_cons_self
    have hz' := h _ _ hz
    simp only [assign, hz, hz', Bool.false_eq_true, if_false, if_true]
    rw [ih fun z' hz' => hd z' (List.mem_cons_of_mem _ hz')]
    rfl

theorem reads_assignAll {less : α → α → Bool} (hless : ∀ a b, less a b = true → less b a = false)
    {get : Reader α} {get' : Reader β} {enc : α × β → Str} {enc₁ : α → Str} {enc₂ : β → Str}
    (henc : ∀ z, enc z = enc₁ z.1 ++ enc₂ z.2) (d acc : List (α × β))
    (hsorted : SortedBy less (acc ++ d))
    (h : ∀ z ∈ d, Reads get (enc₁ z.1) z.1 ∧ Reads get' (enc₂ z.2) z.2) :
    Reads (assignAll less get get' d.length acc) (d.flatMap enc) (acc ++ d) := by
  induction d generalizing acc with
  | nil =>
    rw [List.append_nil]
    exact reads_pure acc
  | cons z d ih =>
    obtain ⟨h₁, h₂⟩ := h z List.mem_cons_self
    have hlast : assign less z.1 z.2 acc = acc ++ [z] := by
      apply assign_last hless
      intro z' hz'
      exact (List.pairwise_append.1 hsorted).2.2 z' hz' z List.mem_cons_self
    rw [List.append_cons] at hsorted
    rw [List.flatMap_cons, List.append_cons, henc, List.append_assoc]
    refine h₁.bind (h₂.bind ?_)
    rw [hlast]
    exact ih _ hsorted fun z hz => h z (List.mem_cons_of_mem _ hz)

/-! ## Every type -/

/-- The bytes of a value. -/
def bytes (t : Ty) (v : t.Raw) : Str := (pieces t v).flatMap Piece.data

theorem data_byte (l : Str) : (l.map Piece.byte).flatMap Piece.data = l := by
  induction l with
  | nil => rfl
  | cons b l ih => rw [List.map_cons, List.flatMap_cons, ih]; rfl

theorem data_word (x : UInt32) : (word x).flatMap Piece.data = wordBytes x := data_byte _

theorem bytes_vector {t : Ty} (v : List t.Raw) :
    bytes (.vector t) v = wordBytes (UInt32.ofNat v.length) ++ v.flatMap (bytes t) := by
  simp only [bytes, pieces, List.flatMap_append, data_word, List.flatMap_assoc]
  rfl

theorem bytes_map {k t : Ty} (d : List (k.Raw × t.Raw)) : bytes (.map k t) d =
    wordBytes (UInt32.ofNat d.length) ++ d.flatMap fun z => bytes k z.1 ++ bytes t z.2 := by
  simp only [bytes, pieces, List.flatMap_append, data_word, List.flatMap_assoc]

theorem bytes_pos (t : Ty) (v : t.Raw) : 0 < (bytes t v).length := by
  cases t with
  | uchar => exact Nat.one_pos
  | _ => simp [bytes, pieces, word, wordBytes, shortBytes, Piece.data]

theorem length_le_flatMap {f : α → Str} (h : ∀ z, 0 < (f z).length) (v : List α) :
    v.length ≤ (v.flatMap f).length := by
  induction v with
  | nil => exact Nat.zero_le _
  | cons z v ih =>
    have := h z
    rw [List.flatMap_cons, List.length_append, List.length_cons]
    omega

theorem reads_bool (x : Bool) : Reads (readValue .bool) (bytes .bool x) x := by
  cases x
  · exact (reads_rawbyte 0).map fun r => (r != 0 : Bool)
  · exact (reads_rawbyte 1).map fun r => (r != 0 : Bool)

theorem reads_uchar (x : UInt8) : Reads (readValue .uchar) (bytes .uchar x) x := by
  have h := (reads_rawbyte x).map fun r => r.toUInt8
  rwa [toUInt8_signExtend] at h

theorem reads_char (x : Int8) : Reads (readValue .char) (bytes .char x) x := by
  have h := (reads_rawbyte x.toUInt8).map fun r => r.toUInt8.toInt8
  rwa [toUInt8_signExtend] at h

theorem reads_ulonglong (x : UInt64) : Reads (readValue .ulonglong) (bytes .ulonglong x) x := by
  have hb : bytes .ulonglong x =
      wordBytes (x >>> 32).toUInt32 ++ (wordBytes x.toUInt32 ++ []) := rfl
  rw [hb]
  refine (reads_getUInt _).bind ((reads_getUInt _).bind ?_)
  rw [long_of_words]
  exact reads_pure x

theorem reads_string (x : Str) : Reads (readValue .string) (bytes .string x) x := by
  have hb : bytes .string x = wordBytes (UInt32.ofNat x.length) ++ x := by
    simp only [bytes, pieces, List.flatMap_append, data_word, List.flatMap_singleton, Piece.data]
  rw [hb]
  exact reads_getString x

theorem reads_attr (a : Attr) : Reads (readValue .attr) (bytes .attr a) a := by
  have hb : bytes .attr a = wordBytes a.type ++ (wordBytes a.atime ++ (wordBytes a.mtime ++
      (wordBytes a.ctime ++ (wordBytes a.size ++ [])))) := by
    simp only [bytes, pieces, List.flatMap_append, data_word, List.append_assoc, List.append_nil]
  rw [hb]
  exact reads_getAttr a

theorem reads_vector {t : Ty} {v : List t.Raw} (h : ∀ z ∈ v, Reads (readValue t) (bytes t z) z) :
    Reads (readValue (.vector t)) (bytes (.vector t) v) v := by
  rw [bytes_vector]
  apply Reads.of_short
  intro hshort
  have hle := length_le_flatMap (bytes_pos t) v
  rw [List.length_append] at hshort
  refine (reads_getUInt _).bind ?_
  rw [toNat_ofNat_length (by omega)]
  exact reads_pushBack v [] h

theorem reads_map {k t : Ty} {d : List (k.Raw × t.Raw)} (hsorted : SortedBy k.less d)
    (h : ∀ z ∈ d, Reads (readValue k) (bytes k z.1) z.1 ∧ Reads (readValue t) (bytes t z.2) z.2) :
    Reads (readValue (.map k t)) (bytes (.map k t) d) d := by
  rw [bytes_map]
  apply Reads.of_short
  intro hshort
  have hle : d.length ≤ (d.flatMap fun z => bytes k z.1 ++ bytes t z.2).length := by
    apply length_le_flatMap
    intro z
    have := bytes_pos k z.1
    rw [List.length_append]
    omega
  rw [List.length_append] at hshort
  refine (reads_getUInt _).bind ?_
  rw [toNat_ofNat_length (by omega)]
  exact reads_assignAll (less_asymm k) (fun _ => rfl) d [] hsorted h

/-- Reading undoes writing, for every type. -/
theorem reads_readValue (t : Ty) (v : t.Raw) (hv : t.Valid v) :
    Reads (readValue t) (bytes t v) v := by
  induction t with
  | bool => exact reads_bool v
  | char => exact reads_char v
  | uchar => exact reads_uchar v
  | short => exact (reads_getUShort (Int16.toUInt16 v)).map UInt16.toInt16
  | ushort => exact reads_getUShort v
  | int => exact (reads_getUInt (Int32.toUInt32 v)).map UInt32.toInt32
  | uint => exact reads_getUInt v
  | ulonglong => exact reads_ulonglong v
  | string => exact reads_string v
  | attr => exact reads_attr v
  | vector t ih => exact reads_vector fun z hz => ih z (hv z hz)
  | map k t ihk iht =>
    exact reads_map hv.1 fun z hz => ⟨ihk z.1 (hv.2 z hz).1, iht z.2 (hv.2 z hz).2⟩

/-! ## Headers -/

inductive Header where
  | req (h : ReqHeader)
  | reply (h : ReplyHeader)
  deriving DecidableEq, Repr

def Header.pack (junk : Junk) : Header → Marshall → Option Marshall
  | .req h => Marshall.packReqHeader junk h
  | .reply h => Marshall.packReplyHeader junk h

/-- Unpack a header of the same kind. -/
def Header.unpack : Header → Reader Header
  | .req _ => do return .req (← unpackReqHeader)
  | .reply _ => do return .reply (← unpackReplyHeader)

/-- The words of a header, as they are packed. -/
def Header.words : Header → List UInt32
  | .req h => [h.xid.toUInt32, h.proc.toUInt32, h.cltNonce, h.srvNonce, h.xidRep.toUInt32]
  | .reply h => [h.xid.toUInt32, h.ret.toUInt32]

def Header.bytes (h : Header) : Str := h.words.flatMap wordBytes

theorem Header.length_bytes (h : Header) : h.bytes.length ≤ 20 := by
  cases h <;> simp [Header.bytes, Header.words, wordBytes]

variable {junk : Junk} {m m' : Marshall} {h : Header}

theorem pack_eq (x : Int32) (m : Marshall) :
    m.pack junk x = writeAll junk (word x.toUInt32) m := by
  rw [Marshall.pack, intBytes_eq, writeAll, word, List.foldlM_map]
  rfl

theorem header_pack_eq (h : Header) (m : Marshall) : h.pack junk m =
    (writeAll junk (h.words.flatMap word) { m with ind := 4 }).map
      fun m' => { m' with ind := m.ind } := by
  rw [Option.map_eq_bind]
  cases h with
  | req h =>
    simp only [Header.pack, Marshall.packReqHeader, pack_eq, Header.words, List.flatMap_cons,
      List.flatMap_nil, List.append_nil, writeAll_append, Option.bind_assoc]
    rfl
  | reply h =>
    simp only [Header.pack, Marshall.packReplyHeader, pack_eq, Header.words, List.flatMap_cons,
      List.flatMap_nil, List.append_nil, writeAll_append, Option.bind_assoc]
    rfl

theorem data_words (ws : List UInt32) :
    (ws.flatMap word).flatMap Piece.data = ws.flatMap wordBytes := by
  rw [List.flatMap_assoc]
  exact List.flatMap_congr fun x _ => data_word x

/-- Single bytes that fit do not make the buffer grow. -/
theorem extent_fits (l : Str) {ind capa : ℕ} (hfit : ind + l.length ≤ capa) :
    (extent (ind, capa) (l.map .byte)).2 = capa := by
  induction l generalizing ind with
  | nil => rfl
  | cons b l ih =>
    rw [List.length_cons] at hfit
    have hg : grown ind capa (.byte b) = capa := if_neg (by omega)
    change (extent (ind + 1, grown ind capa (.byte b)) (l.map .byte)).2 = capa
    rw [hg]
    exact ih (by omega)

theorem words_eq_bytes (ws : List UInt32) :
    ws.flatMap word = (ws.flatMap wordBytes).map .byte := by
  rw [List.map_flatMap]
  rfl

/-- Packing a header over the front of a body. -/
theorem header_pack_spec (junk : Junk) (h : Header) (hm : Sized m) (hcapa : 24 ≤ m.capa) :
    ∃ m', h.pack junk m = some m' ∧
    m'.ind = m.ind ∧ m'.buf.length = m.buf.length ∧
    m'.buf = m.buf.take 4 ++ h.bytes ++ m.buf.drop (4 + h.bytes.length) := by
  have hlen := h.length_bytes
  have hsized : Sized { m with ind := 4 } := by
    refine ⟨hm.length_eq, ?_, hm.pos, hm.small⟩
    change 4 ≤ m.capa
    omega
  have hext : (extent (4, m.capa) (h.words.flatMap word)).2 = m.capa := by
    rw [words_eq_bytes]
    exact extent_fits _ (show 4 + h.bytes.length ≤ m.capa by omega)
  have hsmall : (extent (4, m.capa) (h.words.flatMap word)).2 < 2 ^ 31 := by
    rw [hext]
    exact hm.small
  obtain ⟨m₁, h₁, hcapa₁, hw⟩ := writeAll_spec junk hsized hsmall
  rw [hext] at hcapa₁
  rw [data_words] at hw
  have hind : m₁.ind = 4 + h.bytes.length := hw.ind_eq
  refine ⟨{ m₁ with ind := m.ind }, by rw [header_pack_eq, h₁]; rfl, rfl, ?_, ?_⟩
  · change m₁.buf.length = _
    rw [hw.sized.length_eq, hcapa₁, hm.length_eq]
  · change m₁.buf = _
    rw [← List.take_append_drop m₁.ind m₁.buf, hw.content, hw.kept hcapa₁, hind]
    rfl

theorem reads_unpack (x : Int32) : Reads unpack (wordBytes x.toUInt32) x :=
  (reads_getUInt x.toUInt32).map UInt32.toInt32

theorem reads_unpackReqFields (h : ReqHeader) :
    Reads unpackReqFields (Header.req h).bytes h := by
  have hb : (Header.req h).bytes = wordBytes h.xid.toUInt32 ++ (wordBytes h.proc.toUInt32 ++
      (wordBytes h.cltNonce ++ (wordBytes h.srvNonce ++ wordBytes h.xidRep.toUInt32))) := by
    simp only [Header.bytes, Header.words, List.flatMap_cons, List.flatMap_nil, List.append_nil]
  rw [hb]
  exact (reads_unpack _).bind ((reads_unpack _).bind ((reads_unpack h.cltNonce.toInt32).bind
    ((reads_unpack h.srvNonce.toInt32).bind ((reads_unpack h.xidRep).map _))))

theorem reads_unpackReplyFields (h : ReplyHeader) :
    Reads unpackReplyFields (Header.reply h).bytes h := by
  have hb : (Header.reply h).bytes = wordBytes h.xid.toUInt32 ++ wordBytes h.ret.toUInt32 := by
    simp only [Header.bytes, Header.words, List.flatMap_cons, List.flatMap_nil, List.append_nil]
  rw [hb]
  exact (reads_unpack _).bind ((reads_unpack h.ret).map _)

theorem seek_then (n : ℕ) (g : Unit → Reader α) (u : Unmarshall) :
    (seek n >>= g) u = g () { u with ind := n } := rfl

theorem header_unpack (hu : Rest { u with ind := 4 } (h.bytes ++ s)) :
    ∃ l, h.unpack u = (h, { u with ind := rpcHeaderSz, touched := l }) := by
  cases h with
  | req h =>
    simp only [Header.unpack, unpackReqHeader, bind_assoc, pure_bind]
    obtain ⟨l, hl⟩ := reads_unpackReqFields h _ _ hu
    refine ⟨u.touched ++ l, ?_⟩
    rw [seek_then, run_bind, hl, seek_then]
    rfl
  | reply h =>
    simp only [Header.unpack, unpackReplyHeader, bind_assoc, pure_bind]
    obtain ⟨l, hl⟩ := reads_unpackReplyFields h _ _ hu
    refine ⟨u.touched ++ l, ?_⟩
    rw [seek_then, run_bind, hl, seek_then]
    rfl

/-! ## A whole message -/

def Value.pieces (v : Value) : List Piece := MarshallGrowth.pieces v.type v.raw

def Value.bytes (v : Value) : Str := MarshallRoundTrip.bytes v.type v.raw

/-- Write the values in order, then the header. -/
def marshal (junk : Junk) (h : Header) (vs : List Value) : Option Marshall :=
  (vs.foldlM (fun m v => writeValue junk v.type v.raw m) (Marshall.new junk)).bind (h.pack junk)

/-- Extract values of the given types, one after the other. -/
def readAll : List Ty → Reader (List ((t : Ty) × t.Raw))
  | [] => pure []
  | t :: ts => do
    let x ← readValue t
    let xs ← readAll ts
    return ⟨t, x⟩ :: xs

/-- The whole of the message comes back: at every write there is room; and from the buffer that
was taken, the header and then any number of the values are read without an error, which leaves
nothing to read exactly after the last value. -/
def RoundTrips (junk : Junk) (h : Header) (vs : List Value) : Prop :=
  (∀ ps, ps <+: vs.flatMap Value.pieces → ∃ m, writeAll junk ps (Marshall.new junk) = some m ∧
    m.ind ≤ m.capa ∧ m.buf.length = m.capa) ∧
  ∃ m, marshal junk h vs = some m ∧ (h.unpack { buf := m.buf, sz := m.ind }).1 = h ∧
    ∀ front back, vs = front ++ back →
      let r := readAll (front.map Value.type) (h.unpack { buf := m.buf, sz := m.ind }).2
      r.1 = front.map (fun v => ⟨v.type, v.raw⟩) ∧ r.2.ok = true ∧ (r.2.okdone = true ↔ back = [])

/-- The capacity that the values need, in unbounded numbers. -/
def capacity (vs : List Value) : ℕ := (extent (rpcHeaderSz, defaultRpcSz) (vs.flatMap Value.pieces)).2

theorem reads_readAll (vs : List Value) :
    Reads (readAll (vs.map Value.type)) (vs.flatMap Value.bytes)
      (vs.map fun v => (⟨v.type, v.raw⟩ : (t : Ty) × t.Raw)) := by
  induction vs with
  | nil => exact reads_pure _
  | cons v vs ih =>
    rw [List.flatMap_cons]
    exact (reads_readValue v.type v.raw v.valid).bind (ih.map _)

theorem sized_new (junk : Junk) : Sized (Marshall.new junk) := by
  refine ⟨?_, ?_, ?_, ?_⟩
  · simp [Marshall.new]
  all_goals
    simp only [Marshall.new]
    decide

theorem marshal_eq (vs : List Value) : marshal junk h vs =
    (writeAll junk (vs.flatMap Value.pieces) (Marshall.new junk)).bind (h.pack junk) := by
  rw [marshal, foldlM_eq fun v m => writeValue_eq v.type v.raw m]
  rfl

theorem data_values (vs : List Value) :
    (vs.flatMap Value.pieces).flatMap Piece.data = vs.flatMap Value.bytes := by
  rw [List.flatMap_assoc]
  rfl

/-- What the header leaves of the body. -/
theorem rest_of_pack {body : Str} (hw : Wrote (Marshall.new junk) body m)
    (hlen : m'.buf.length = m.buf.length) (hind : m'.ind = m.ind)
    (hbuf : m'.buf = m.buf.take 4 ++ h.bytes ++ m.buf.drop (4 + h.bytes.length)) :
    (∃ s, Rest { buf := m'.buf, sz := m'.ind, ind := 4 } (h.bytes ++ s)) ∧
      Rest { buf := m'.buf, sz := m'.ind, ind := rpcHeaderSz } body := by
  have hsized := hw.sized
  have hle := hsized.ind_le
  have hcap := hsized.length_eq
  have hsmall := hsized.small
  have hhdr := h.length_bytes
  have hm : m.ind = rpcHeaderSz + body.length := hw.ind_eq
  have h24 : rpcHeaderSz = 24 := rfl
  have hfour : (m.buf.take 4).length = 4 := by
    rw [List.length_take]
    omega
  constructor
  · refine ⟨(m.buf.drop (4 + h.bytes.length)).take (m'.ind - 4 - h.bytes.length), rfl, ?_, ?_, ?_, ?_⟩
    · change m'.ind ≤ m'.buf.length
      omega
    · change m'.ind < 2 ^ 31
      omega
    · change 4 ≤ m'.ind
      omega
    · change (m'.buf.take m'.ind).drop 4 = _
      rw [List.drop_take, hbuf, List.append_assoc, List.drop_left' hfour, List.take_append,
        List.take_of_length_le (by omega)]
  · refine ⟨rfl, ?_, ?_, ?_, ?_⟩
    · change m'.ind ≤ m'.buf.length
      omega
    · change m'.ind < 2 ^ 31
      omega
    · change rpcHeaderSz ≤ m'.ind
      omega
    · change (m'.buf.take m'.ind).drop rpcHeaderSz = _
      have hfront : (m.buf.take 4 ++ h.bytes).length = 4 + h.bytes.length := by
        rw [List.length_append, hfour]
      have hdrop : m'.buf.drop rpcHeaderSz = m.buf.drop rpcHeaderSz := by
        rw [hbuf, List.drop_append, List.drop_of_length_le (by omega), List.nil_append, List.drop_drop,
          hfront, show 4 + h.bytes.length + (rpcHeaderSz - (4 + h.bytes.length)) = rpcHeaderSz by omega]
      have hnew : ((Marshall.new junk).buf.take rpcHeaderSz).length = rpcHeaderSz := by
        rw [List.length_take, (sized_new junk).length_eq]
        rfl
      rw [List.drop_take, hdrop, ← List.drop_take, hind, hw.content]
      exact List.drop_left' hnew

theorem extent_append (e : ℕ × ℕ) (ps qs : List Piece) :
    extent e (ps ++ qs) = extent (extent e ps) qs := List.foldl_append

/-- Up to 2^30 bytes the capacity stays below 2^31. -/
theorem extent_lt (ps : List Piece) {e : ℕ × ℕ} (he : e.2 < 2 ^ 31)
    (htotal : e.1 + (ps.flatMap Piece.data).length ≤ 2 ^ 30) : (extent e ps).2 < 2 ^ 31 := by
  induction ps generalizing e with
  | nil => exact he
  | cons p ps ih =>
    rw [List.flatMap_cons, List.length_append] at htotal
    apply ih
    · cases p with
      | byte x =>
        have : (Piece.byte x).data.length = 1 := rfl
        simp only [grown]
        split_ifs <;> omega
      | bytes s =>
        have : (Piece.bytes s).data.length = s.length := rfl
        simp only [grown]
        split_ifs <;> omega
    · change e.1 + p.data.length + _ ≤ _
      omega

variable {vs : List Value}

theorem roundTrips_of_capacity (hcap : capacity vs < 2 ^ 31) : RoundTrips junk h vs := by
  constructor
  · rintro ps ⟨qs, hqs⟩
    have hps : (extent (rpcHeaderSz, defaultRpcSz) ps).2 < 2 ^ 31 := by
      refine lt_of_le_of_lt (le_extent qs _) ?_
      rw [← extent_append, hqs]
      exact hcap
    obtain ⟨m, hm, -, hw⟩ := writeAll_spec junk (sized_new junk) hps
    exact ⟨m, hm, hw.sized.ind_le, hw.sized.length_eq⟩
  · obtain ⟨m, hm, hcapa, hw⟩ := writeAll_spec junk (sized_new junk) hcap
    rw [data_values] at hw
    have hgrows : defaultRpcSz ≤ m.capa := hw.grows
    obtain ⟨m', hm', hind, hlen, hbuf⟩ := header_pack_spec junk h hw.sized
      (le_trans (by decide) hgrows)
    obtain ⟨⟨s, hs⟩, hbody⟩ := rest_of_pack hw hlen hind hbuf
    obtain ⟨l, hun⟩ := header_unpack (u := { buf := m'.buf, sz := m'.ind }) hs
    refine ⟨m', by rw [marshal_eq, hm]; exact hm', by rw [hun], ?_⟩
    rintro front back rfl
    rw [List.flatMap_append] at hbody
    obtain ⟨l', hread⟩ := reads_readAll front _ _ (hbody.touched l)
    rw [hun]
    dsimp only
    rw [hread]
    refine ⟨rfl, rfl, ?_⟩
    have hsz := hbody.length_eq
    have hback := length_le_flatMap (f := Value.bytes) (fun v => bytes_pos v.type v.raw) back
    rw [List.length_append] at hsz
    dsimp only at hsz
    simp only [Unmarshall.okdone, advance, Bool.true_and, beq_iff_eq]
    constructor
    · intro hdone
      apply List.eq_nil_of_length_eq_zero
      omega
    · rintro rfl
      simpa using hsz

/-- A message comes back exactly when the capacity that its values need is below 2^31; up to 2^30
bytes it always is. -/
theorem round_trip_iff :
    (RoundTrips junk h vs ↔ capacity vs < 2 ^ 31) ∧
      (rpcHeaderSz + (vs.flatMap Value.bytes).length ≤ 2 ^ 30 → RoundTrips junk h vs) := by
  have hiff : RoundTrips junk h vs ↔ capacity vs < 2 ^ 31 := by
    refine ⟨?_, roundTrips_of_capacity⟩
    rintro ⟨-, m, hm, -⟩
    by_contra hbig
    rw [marshal_eq, writeAll_none (sized_new junk) (not_lt.1 hbig)] at hm
    cases hm
  refine ⟨hiff, fun htotal => hiff.2 ?_⟩
  apply extent_lt
  · decide
  · rw [data_values]
    exact htotal

/-! ## A message of half the limit -/

def stringValue (s : Str) : Value := ⟨.string, s, trivial⟩

theorem extent_word (x : UInt32) {ind capa : ℕ} (hfit : ind + 4 ≤ capa) :
    extent (ind, capa) (word x) = (ind + 4, capa) := by
  have hcapa : (extent (ind, capa) (word x)).2 = capa := extent_fits (wordBytes x) hfit
  exact Prod.ext rfl hcapa

theorem extent_bytes (s : Str) (e : ℕ × ℕ) :
    extent e [.bytes s] = (e.1 + s.length, grown e.1 e.2 (.bytes s)) := rfl

/-- A string of 2^30 bytes makes the buffer 1024 bytes larger than that; the next string that does
not fit doubles it. -/
theorem capacity_two_strings {s₁ s₂ : Str} (h₁ : s₁.length = 2 ^ 30) (h₂ : s₂.length = 2000) :
    capacity [stringValue s₁, stringValue s₂] = 2 ^ 31 + 2048 := by
  have hp : [stringValue s₁, stringValue s₂].flatMap Value.pieces =
      word (UInt32.ofNat s₁.length) ++ ([.bytes s₁] ++
        (word (UInt32.ofNat s₂.length) ++ [.bytes s₂])) := rfl
  have hfirst : extent (rpcHeaderSz + 4, defaultRpcSz) [.bytes s₁] = (2 ^ 30 + 28, 2 ^ 30 + 1024) := by
    rw [extent_bytes]
    simp [grown, h₁, rpcHeaderSz, defaultRpcSz]
  have hsecond : extent (2 ^ 30 + 32, 2 ^ 30 + 1024) [.bytes s₂] = (2 ^ 30 + 2032, 2 ^ 31 + 2048) := by
    rw [extent_bytes]
    simp [grown, h₂]
  rw [capacity, hp, extent_append, extent_append, extent_append,
    extent_word _ (by decide : rpcHeaderSz + 4 ≤ defaultRpcSz), hfirst, extent_word _ (by decide),
    hsecond]

theorem length_bytes_string (s : Str) : (Value.bytes (stringValue s)).length = 4 + s.length := by
  have hb : Value.bytes (stringValue s) = wordBytes (UInt32.ofNat s.length) ++ s := by
    change MarshallRoundTrip.bytes .string s = _
    simp only [bytes, pieces, List.flatMap_append, data_word, List.flatMap_singleton, Piece.data]
  rw [hb, List.length_append]
  rfl

/-- Two strings, half of 2^31 bytes together, cannot be marshalled. -/
theorem long_message_fails : ∃ vs : List Value,
    rpcHeaderSz + (vs.flatMap Value.bytes).length < 2 ^ 31 ∧
      ∀ junk h, marshal junk h vs = none ∧ ¬RoundTrips junk h vs := by
  obtain ⟨s₁, h₁⟩ : ∃ s : Str, s.length = 2 ^ 30 := ⟨_, List.length_replicate (a := 0)⟩
  obtain ⟨s₂, h₂⟩ : ∃ s : Str, s.length = 2000 := ⟨_, List.length_replicate (a := 0)⟩
  refine ⟨[stringValue s₁, stringValue s₂], ?_, ?_⟩
  · rw [List.flatMap_cons, List.flatMap_cons, List.flatMap_nil, List.append_nil, List.length_append,
      length_bytes_string, length_bytes_string, h₁, h₂]
    decide
  · intro junk h
    have hnone : marshal junk h [stringValue s₁, stringValue s₂] = none := by
      rw [marshal_eq, writeAll_none (sized_new junk)]
      · rfl
      · have hcap := capacity_two_strings h₁ h₂
        exact le_trans (by decide) hcap.ge
    refine ⟨hnone, ?_⟩
    rintro ⟨-, m, hm, -⟩
    rw [hnone] at hm
    cases hm

end Yfs.MarshallRoundTrip
