import Yfs.ByteLayout
import Yfs.ExtentClient
import Yfs.NetworkOrder

/-!
# Marshalling

The buffer a call's arguments are written to, and the one its results are read from. The types
that can be written are the basic ones and vectors and maps over them, to any depth.
-/

namespace Yfs.Marshalling
open ByteLayout NetworkOrder
open LockProtocol (Str)
open ExtentClient (Attr)

/-! ## The growing buffer -/

def defaultRpcSz : ℕ := 1024

/-- The five words of a `req_header`, and the size that the channel fills in. -/
def rpcHeaderSz : ℕ := 24

/-- `marshall`: the memory at `_buf`, and the two integers beside it. -/
structure Marshall where
  buf : Str
  capa : ℕ
  ind : ℕ
  deriving DecidableEq, Repr

/-- What fresh memory holds at each position. -/
abbrev Junk := ℕ → UInt8

/-- The constructor of `marshall`. -/
def Marshall.new (junk : Junk) : Marshall :=
  ⟨(List.range defaultRpcSz).map junk, defaultRpcSz, rpcHeaderSz⟩

/-- `realloc` to a new `_capa`. A capacity from 2^31 on is a negative `int`, for which there is no
memory, and the assertion after `realloc` fails. -/
def Marshall.realloc (junk : Junk) (capa : ℕ) (m : Marshall) : Option Marshall :=
  if capa < 2 ^ 31 then
    some { m with buf := m.buf ++ ((List.range capa).drop m.buf.length).map junk, capa := capa }
  else none

/-- The `if` in front of every write. -/
def Marshall.reserve (junk : Junk) (full : Bool) (capa : ℕ) (m : Marshall) : Option Marshall :=
  if full then m.realloc junk capa else some m

/-- Write at `_ind`; `none` is a write past the buffer. -/
def Marshall.put (s : Str) (m : Marshall) : Option Marshall :=
  if m.ind + s.length ≤ m.buf.length then
    some { m with buf := patch m.buf m.ind s, ind := m.ind + s.length }
  else none

/-- `marshall::rawbyte`. -/
def Marshall.rawbyte (junk : Junk) (x : UInt8) (m : Marshall) : Option Marshall := do
  let m ← m.reserve junk (m.capa ≤ m.ind) (2 * m.capa)
  m.put [x]

/-- `marshall::rawbytes`; the sum `_ind + n` must be an `int` as well. -/
def Marshall.rawbytes (junk : Junk) (p : Str) (m : Marshall) : Option Marshall :=
  if 2 ^ 31 ≤ m.ind + p.length then none
  else do
    let m ← m.reserve junk (m.capa < m.ind + p.length)
      (if p.length < m.capa then 2 * m.capa else m.capa + p.length)
    m.put p

/-! ## The types that can be sent -/

inductive Ty where
  | bool
  | char
  | uchar
  | short
  | ushort
  | int
  | uint
  | ulonglong
  | string
  | attr
  | vector (t : Ty)
  | map (k v : Ty)
  deriving DecidableEq, Repr

/-- The values of a type; those of a map are its entries in the order of the iterator. -/
def Ty.Raw : Ty → Type
  | .bool => Bool
  | .char => Int8
  | .uchar => UInt8
  | .short => Int16
  | .ushort => UInt16
  | .int => Int32
  | .uint => UInt32
  | .ulonglong => UInt64
  | .string => Str
  | .attr => Attr
  | .vector t => List t.Raw
  | .map k v => List (k.Raw × v.Raw)

/-- `std::lexicographical_compare`. -/
def lexLess {α : Type} (less : α → α → Bool) : List α → List α → Bool
  | _, [] => false
  | [], _ :: _ => true
  | a :: as, b :: bs => less a b || (!less b a && lexLess less as bs)

/-- `operator<` of `std::pair`. -/
def pairLess {α β : Type} (less : α → α → Bool) (less' : β → β → Bool) (a b : α × β) : Bool :=
  less a.1 b.1 || (!less b.1 a.1 && less' a.2 b.2)

/-- `operator<` of the types; there is none for `attr`, which is never the key of a map. -/
def Ty.less : (t : Ty) → t.Raw → t.Raw → Bool
  | .bool, (a : Bool), (b : Bool) => !a && b
  | .char, (a : Int8), (b : Int8) => a < b
  | .uchar, (a : UInt8), (b : UInt8) => a < b
  | .short, (a : Int16), (b : Int16) => a < b
  | .ushort, (a : UInt16), (b : UInt16) => a < b
  | .int, (a : Int32), (b : Int32) => a < b
  | .uint, (a : UInt32), (b : UInt32) => a < b
  | .ulonglong, (a : UInt64), (b : UInt64) => a < b
  | .string, (a : Str), (b : Str) => lexLess (fun x y : UInt8 => x < y) a b
  | .attr, _, _ => false
  | .vector t, a, b => lexLess t.less a b
  | .map k v, a, b => lexLess (pairLess k.less v.less) a b

def AllOf {α : Type} (P : α → Prop) (l : List α) : Prop := ∀ z ∈ l, P z

def SortedBy {α β : Type} (less : α → α → Bool) (d : List (α × β)) : Prop :=
  d.Pairwise fun a b => less a.1 b.1 = true

/-- The keys of every map in a value are in strictly increasing order. -/
def Ty.Valid : (t : Ty) → t.Raw → Prop
  | .vector t, v => AllOf t.Valid v
  | .map k v, d => SortedBy k.less d ∧ AllOf (fun z => k.Valid z.1 ∧ v.Valid z.2) d
  | _, _ => True

/-- A value that a program can hold. -/
structure Value where
  type : Ty
  raw : type.Raw
  valid : type.Valid raw

/-! ## Writing values and headers -/

def Marshall.putUShort (junk : Junk) (x : UInt16) (m : Marshall) : Option Marshall := do
  let m ← m.rawbyte junk ((x >>> 8) &&& 0xff).toUInt8
  m.rawbyte junk (x &&& 0xff).toUInt8

def Marshall.putUInt (junk : Junk) (x : UInt32) (m : Marshall) : Option Marshall := do
  let m ← m.rawbyte junk ((x >>> 24) &&& 0xff).toUInt8
  let m ← m.rawbyte junk ((x >>> 16) &&& 0xff).toUInt8
  let m ← m.rawbyte junk ((x >>> 8) &&& 0xff).toUInt8
  m.rawbyte junk (x &&& 0xff).toUInt8

def Marshall.putString (junk : Junk) (s : Str) (m : Marshall) : Option Marshall := do
  let m ← m.putUInt junk (UInt32.ofNat s.length)
  m.rawbytes junk s

def Marshall.putAttr (junk : Junk) (a : Attr) (m : Marshall) : Option Marshall := do
  let m ← m.putUInt junk a.type
  let m ← m.putUInt junk a.atime
  let m ← m.putUInt junk a.mtime
  let m ← m.putUInt junk a.ctime
  m.putUInt junk a.size

/-- `operator<<` of every type. -/
def writeValue (junk : Junk) : (t : Ty) → t.Raw → Marshall → Option Marshall
  | .bool, (x : Bool), m => m.rawbyte junk (if x then 1 else 0)
  | .char, (x : Int8), m => m.rawbyte junk x.toUInt8
  | .uchar, (x : UInt8), m => m.rawbyte junk x
  | .short, (x : Int16), m => m.putUShort junk x.toUInt16
  | .ushort, (x : UInt16), m => m.putUShort junk x
  | .int, (x : Int32), m => m.putUInt junk x.toUInt32
  | .uint, (x : UInt32), m => m.putUInt junk x
  | .ulonglong, (x : UInt64), m => do
    let m ← m.putUInt junk (x >>> 32).toUInt32
    m.putUInt junk x.toUInt32
  | .string, (s : Str), m => m.putString junk s
  | .attr, (a : Attr), m => m.putAttr junk a
  | .vector t, (v : List t.Raw), m => do
    let m ← m.putUInt junk (UInt32.ofNat v.length)
    v.foldlM (fun m z => writeValue junk t z m) m
  | .map k v, (d : List (k.Raw × v.Raw)), m => do
    let m ← m.putUInt junk (UInt32.ofNat d.length)
    d.foldlM (fun m z => do writeValue junk v z.2 (← writeValue junk k z.1 m)) m

/-- `marshall::pack`. -/
def Marshall.pack (junk : Junk) (x : Int32) (m : Marshall) : Option Marshall :=
  (intBytes x).foldlM (fun m b => m.rawbyte junk b) m

structure ReqHeader where
  xid : Int32
  proc : Int32
  cltNonce : UInt32
  srvNonce : UInt32
  xidRep : Int32
  deriving DecidableEq, Repr

structure ReplyHeader where
  xid : Int32
  ret : Int32
  deriving DecidableEq, Repr

/-- `marshall::pack_req_header`. -/
def Marshall.packReqHeader (junk : Junk) (h : ReqHeader) (m : Marshall) : Option Marshall := do
  let savedSz := m.ind
  let m ← { m with ind := 4 }.pack junk h.xid
  let m ← m.pack junk h.proc
  let m ← m.pack junk h.cltNonce.toInt32
  let m ← m.pack junk h.srvNonce.toInt32
  let m ← m.pack junk h.xidRep
  some { m with ind := savedSz }

/-- `marshall::pack_reply_header`. -/
def Marshall.packReplyHeader (junk : Junk) (h : ReplyHeader) (m : Marshall) : Option Marshall := do
  let savedSz := m.ind
  let m ← { m with ind := 4 }.pack junk h.xid
  let m ← m.pack junk h.ret
  some { m with ind := savedSz }

/-! ## Reading -/

/-- `unmarshall`. Beside the members of the class, the state remembers which parts of `_buf` were
read, as positions and lengths. -/
structure Unmarshall where
  buf : Str
  sz : ℕ
  ind : ℕ := 0
  ok : Bool := true
  touched : List (ℕ × ℕ) := []
  deriving DecidableEq, Repr

abbrev Reader (α : Type) := StateM Unmarshall α

theorem run_bind {α β : Type} (f : Reader α) (g : α → Reader β) (u : Unmarshall) :
    (f >>= g) u = g (f u).1 (f u).2 := rfl

def Unmarshall.okdone (u : Unmarshall) : Bool := u.ok && u.ind == u.sz

/-- `unmarshall::rawbyte`; the byte goes through a plain `char`. -/
def rawbyte : Reader UInt32 := fun u =>
  if u.sz ≤ u.ind then (signExtend 0, { u with ok := false })
  else (signExtend ((u.buf[u.ind]?).getD 0),
    { u with ind := u.ind + 1, touched := u.touched ++ [(u.ind, 1)] })

/-- `unmarshall::rawbytes` into an empty string; both sums are taken in unsigned integers. -/
def rawbytes (n : UInt32) : Reader Str := fun u =>
  if u.sz < (u.ind + n.toNat) % 2 ^ 32 then ([], { u with ok := false })
  else ((u.buf.drop u.ind).take n.toNat,
    { u with ind := (u.ind + n.toNat) % 2 ^ 32, touched := u.touched ++ [(u.ind, n.toNat)] })

def isOk : Reader Bool := fun u => (u.ok, u)

def getUShort : Reader UInt16 := do
  let x := (((← rawbyte) &&& 0xff) <<< 8).toUInt16
  let y := ((← rawbyte) &&& 0xff).toUInt16
  return x ||| y

def getUInt : Reader UInt32 := do
  let a := ((← rawbyte) &&& 0xff) <<< 24
  let b := ((← rawbyte) &&& 0xff) <<< 16
  let c := ((← rawbyte) &&& 0xff) <<< 8
  let d := (← rawbyte) &&& 0xff
  return a ||| b ||| c ||| d

def getString : Reader Str := do
  let sz ← getUInt
  if ← isOk then rawbytes sz else return []

def getAttr : Reader Attr := do
  let type ← getUInt
  let atime ← getUInt
  let mtime ← getUInt
  let ctime ← getUInt
  let size ← getUInt
  return { type, atime, mtime, ctime, size }

/-- The loop of `operator>>` for vectors. -/
def pushBack {α : Type} (get : Reader α) : ℕ → List α → Reader (List α)
  | 0, v => pure v
  | n + 1, v => do
    let z ← get
    pushBack get n (v ++ [z])

/-- `d[a] = b`, on the entries in order. -/
def assign {α β : Type} (less : α → α → Bool) (a : α) (b : β) : List (α × β) → List (α × β)
  | [] => [(a, b)]
  | z :: d =>
    if less a z.1 then (a, b) :: z :: d
    else if less z.1 a then z :: assign less a b d
    else (z.1, b) :: d

/-- The loop of `operator>>` for maps. -/
def assignAll {α β : Type} (less : α → α → Bool) (get : Reader α) (get' : Reader β) :
    ℕ → List (α × β) → Reader (List (α × β))
  | 0, d => pure d
  | n + 1, d => do
    let a ← get
    let b ← get'
    assignAll less get get' n (assign less a b d)

/-- `operator>>` of every type, into a fresh variable. -/
def readValue : (t : Ty) → Reader t.Raw
  | .bool => do return ((← rawbyte) != 0 : Bool)
  | .char => do return (← rawbyte).toUInt8.toInt8
  | .uchar => do return (← rawbyte).toUInt8
  | .short => do return (← getUShort).toInt16
  | .ushort => getUShort
  | .int => do return (← getUInt).toInt32
  | .uint => getUInt
  | .ulonglong => do
    let h ← getUInt
    let l ← getUInt
    return (l.toUInt64 ||| (h.toUInt64 <<< 32) : UInt64)
  | .string => getString
  | .attr => getAttr
  | .vector t => do
    let n ← getUInt
    pushBack (readValue t) n.toNat []
  | .map k v => do
    let n ← getUInt
    assignAll k.less (readValue k) (readValue v) n.toNat []

/-- `unmarshall::unpack`. -/
def unpack : Reader Int32 := do return (← getUInt).toInt32

def seek (ind : ℕ) : Reader Unit := fun u => ((), { u with ind := ind })

def unpackReqFields : Reader ReqHeader := do
  let xid ← unpack
  let proc ← unpack
  let cltNonce ← unpack
  let srvNonce ← unpack
  let xidRep ← unpack
  return ⟨xid, proc, cltNonce.toUInt32, srvNonce.toUInt32, xidRep⟩

def unpackReplyFields : Reader ReplyHeader := do
  let xid ← unpack
  let ret ← unpack
  return ⟨xid, ret⟩

/-- `unmarshall::unpack_req_header`. -/
def unpackReqHeader : Reader ReqHeader := do
  seek 4
  let h ← unpackReqFields
  seek rpcHeaderSz
  return h

/-- `unmarshall::unpack_reply_header`. -/
def unpackReplyHeader : Reader ReplyHeader := do
  seek 4
  let h ← unpackReplyFields
  seek rpcHeaderSz
  return h

end Yfs.Marshalling
