import Yfs.ByteLayout
import Yfs.LockProtocol
import Yfs.NetworkOrder

/-!
# Framing on a stream connection

Both directions of `connection`: a PDU is preceded by its size in its own first four bytes, and is
written to and read from a stream in any number of pieces. What the operating system answers to a
`read` or `write` is a choice; a choice that is not possible is `none`.
-/

namespace Yfs.Connection
open ByteLayout NetworkOrder
open LockProtocol (Str)

/-- `MAX_PDU` -/
def maxPdu : ℤ := 10485760

/-- `charbuf`, with the memory that `buf` points to. -/
structure Charbuf where
  buf : Option Str := none
  sz : ℤ := 0
  solong : ℤ := 0
  deriving DecidableEq, Repr

/-- The word that four bytes in network order stand for. -/
def wordOf : Str → UInt32
  | [a, b, c, d] =>
    a.toUInt32 <<< 24 ||| b.toUInt32 <<< 16 ||| c.toUInt32 <<< 8 ||| d.toUInt32
  | _ => 0

/-- The first four bytes as an `int`. -/
def lengthWord (s : Str) : ℤ := (wordOf (s.take 4)).toInt32.toInt

/-! ## Receiving -/

/-- How the process can die while it reads. -/
inductive Fault where
  /-- `VERIFY(errno!=EAGAIN)` -/
  | again
  /-- `VERIFY(rpdu_.buf == NULL)` -/
  | leftover
  /-- `VERIFY(rpdu_.buf)` after `malloc` -/
  | memory
  /-- a write outside of the allocated memory -/
  | outside
  deriving DecidableEq, Repr

/-- What a `read` comes to: some bytes, or none with `errno` being `EAGAIN` or not. At the end of
the file, `errno` is left over from some earlier call. -/
inductive Choice where
  | take (n : ℕ)
  | eof (again : Bool)
  | error (again : Bool)
  deriving DecidableEq, Repr

inductive Got where
  | bytes (bs : Str)
  | eof (again : Bool)
  | error (again : Bool)
  deriving DecidableEq, Repr

/-- `read` of at most `count` bytes of what is on the wire. -/
def sysRead (count : ℕ) (wire : Str) : Choice → Option (Got × Str)
  | .take n =>
    if 0 < n ∧ n ≤ count ∧ n ≤ wire.length then some (.bytes (wire.take n), wire.drop n) else none
  | .eof again => some (.eof again, wire)
  | .error again => some (.error again, wire)

/-- What is worth noting about a callback. -/
inductive Entry where
  | rejected (sz : ℤ)
  | allocated (solong sz : ℤ)
  | read (count space : ℤ)
  | offered (bytes : Str) (sz solong : ℤ) (accepted : Bool)
  | aborted (e : Fault)
  deriving DecidableEq, Repr

/-- The receiving side, and the bytes that it has not read yet. -/
structure Receiver where
  dead : Bool := false
  aborted : Bool := false
  rpdu : Charbuf := {}
  wire : Str
  deriving DecidableEq, Repr

/-- What a part of `readpdu` returns or dies of. -/
abbrev Reading := Except Fault Bool × Receiver × List Entry

/-- The second half of `readpdu`. -/
def readRest (body : Choice) (r : Receiver) : Option Reading := do
  let p := r.rpdu
  let mem := p.buf.getD []
  let log := [Entry.read (p.sz - p.solong) (mem.length - p.solong)]
  let (got, wire) ← sysRead (sizeT (p.sz - p.solong)) r.wire body
  match got with
  | .bytes bs =>
    if mem.length < p.solong + bs.length then some (.error .outside, r, log)
    else
      let p := { p with buf := some (patch mem p.solong.toNat bs), solong := p.solong + bs.length }
      some (.ok true, { r with rpdu := p, wire := wire }, log)
  | .eof again | .error again =>
    if again then some (.ok true, r, log) else some (.ok false, { r with rpdu := {} }, log)

/-- `malloc(sz + 4)` and the copy of the size into it; `junk` is what fresh memory holds. -/
def allocate (junk : ℕ → UInt8) (sz : ℤ) (bs : Str) : Except Fault Str :=
  if sz < -4 then .error .memory
  else if sz < 0 then .error .outside
  else .ok (bs ++ (List.range sz.toNat).map junk)

def readpdu (junk : ℕ → UInt8) (header body : Choice) (r : Receiver) : Option Reading :=
  if r.rpdu.sz = 0 then do
    let (got, wire) ← sysRead 4 r.wire header
    let r := { r with wire := wire }
    match got with
    | .eof _ => some (.ok false, r, [])
    | .error again => some (if again then .error .again else .ok false, r, [])
    | .bytes bs =>
      if bs.length ≠ 4 then some (.ok false, r, [])
      else if maxPdu < lengthWord bs then some (.ok false, r, [.rejected (lengthWord bs)])
      else if r.rpdu.buf ≠ none then some (.error .leftover, r, [])
      else match allocate junk (lengthWord bs) bs with
        | .error e => some (.error e, r, [])
        | .ok mem => do
          let (res, r, log) ← readRest body { r with rpdu := ⟨some mem, lengthWord bs, 4⟩ }
          some (res, r, .allocated 4 (lengthWord bs) :: log)
  else readRest body r

/-- The end of `read_cb`: a complete PDU is offered to `got_pdu`. -/
def offer (accept : Bool) (r : Receiver) : Receiver × List Entry :=
  match r.rpdu.buf with
  | some mem =>
    if r.rpdu.sz = r.rpdu.solong then
      (if accept then { r with rpdu := {} } else r,
        [.offered (mem.take r.rpdu.sz.toNat) r.rpdu.sz r.rpdu.solong accept])
    else (r, [])
  | none => (r, [])

/-- The first half of `read_cb`: a PDU that was complete before is not read again. -/
def readMore (junk : ℕ → UInt8) (header body : Choice) (r : Receiver) : Option Reading :=
  if r.rpdu.buf = none ∨ r.rpdu.solong < r.rpdu.sz then readpdu junk header body r
  else some (.ok true, r, [])

/-- `read_cb`; `accept` is the answer of `got_pdu`, if it is called. -/
def readCb (junk : ℕ → UInt8) (header body : Choice) (accept : Bool) (r : Receiver) :
    Option (Receiver × List Entry) :=
  if r.dead then some (r, [])
  else do
    let (res, r, log) ← readMore junk header body r
    match res with
    | .error e => some ({ r with aborted := true }, log ++ [.aborted e])
    | .ok succ =>
      let (r, log') := offer accept (if succ then r else { r with dead := true })
      some (r, log ++ log')

/-! ## Sending -/

/-- What a `write` comes to. -/
inductive Wrote where
  | bytes (n : ℕ)
  | again
  | failed
  deriving DecidableEq, Repr

/-- The sending side. -/
structure Sender where
  dead : Bool := false
  wpdu : Charbuf := {}
  deriving DecidableEq, Repr

/-- The size goes into the first four bytes. -/
def stamp (b : Str) : Str := wordBytes (UInt32.ofNat b.length) ++ b.drop 4

/-- `writepdu`: its result, what becomes of the PDU, and the bytes that went out. -/
def writepdu (w : Wrote) (p : Charbuf) : Option (Bool × Charbuf × Str) :=
  if p.solong < 0 then none
  else if p.solong = p.sz then some (true, p, [])
  else
    let mem := if p.solong = 0 then patch (p.buf.getD []) 0 (wordBytes (UInt32.ofNat p.sz.toNat))
      else p.buf.getD []
    let p := { p with buf := some mem }
    match w with
    | .bytes n =>
      if p.solong + (n : ℤ) ≤ p.sz then
        some (true, { p with solong := p.solong + n }, (mem.drop p.solong.toNat).take n)
      else none
    | .again => some (true, p, [])
    | .failed => some (false, { p with solong := -1, sz := 0 }, [])

/-- `writepdu` on the PDU of a connection, which is dead when it fails. -/
def Sender.write (w : Wrote) (s : Sender) : Option (Bool × Sender × Str) :=
  (writepdu w s.wpdu).map fun (succ, p, out) => (succ, ⟨s.dead || !succ, p⟩, out)

/-- `send` from the point where the connection is free up to the result of `writepdu`. -/
def Sender.take (w : Wrote) (b : Str) (s : Sender) : Option (Bool × Sender × Str) :=
  Sender.write w { s with wpdu := ⟨some b, b.length, 0⟩ }

/-- `send` from there up to its return or its wait for the rest to be written. -/
def send (w : Wrote) (b : Str) (s : Sender) : Option (Sender × Str) :=
  (s.take w b).map fun (succ, s, out) =>
    if succ = false ∨ s.wpdu.solong = s.wpdu.sz then ({ s with wpdu := {} }, out) else (s, out)

/-- `write_cb`; on a dead connection it fails an assertion. -/
def writeCb (w : Wrote) (s : Sender) : Option (Sender × Str) :=
  if s.dead then none
  else if s.wpdu.sz = 0 then some (s, [])
  else (s.write w).map Prod.snd

/-- What `write_cb` does to a live connection. -/
theorem writeCb_cases {w : Wrote} {s s' : Sender} {out : Str}
    (h : writeCb w s = some (s', out)) : s.dead = false ∧
      ((s.wpdu.sz = 0 ∧ s' = s ∧ out = []) ∨
        (s.wpdu.sz ≠ 0 ∧ ∃ succ p, writepdu w s.wpdu = some (succ, p, out) ∧ s' = ⟨!succ, p⟩)) := by
  unfold writeCb at h
  split_ifs at h with hdead hsz
  · cases h
    exact ⟨by simpa using hdead, .inl ⟨hsz, rfl, rfl⟩⟩
  · have hlive : s.dead = false := by simpa using hdead
    simp only [Sender.write, Option.map_map, Option.map_eq_some_iff] at h
    obtain ⟨⟨succ, p, out'⟩, hw, he⟩ := h
    cases he
    exact ⟨hlive, .inr ⟨hsz, succ, p, hw, by rw [hlive, Bool.false_or]⟩⟩

/-- The condition under which a waiting `send` goes on. -/
def Sender.Done (s : Sender) : Prop :=
  s.dead = true ∨ s.wpdu.solong < 0 ∨ s.wpdu.sz ≤ s.wpdu.solong

end Yfs.Connection
