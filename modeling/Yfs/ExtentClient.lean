import Yfs.LockProtocol
import Mathlib.Logic.Function.Basic

/-!
# The write-back cache of `extent_client`, and the store behind it

Each definition is the code between two points where `extent_client` lets go of its mutex.
The store is the extent server seen from its clients: every handler is atomic and keeps
contents faithfully. It hands out the extent numbers of `supply` in order.
-/

namespace Yfs.ExtentClient
open LockProtocol

abbrev ExtentId := UInt64

/-- `extent_protocol::attr`. -/
structure Attr where
  type : UInt32 := 0
  atime : UInt32 := 0
  mtime : UInt32 := 0
  ctime : UInt32 := 0
  size : UInt32 := 0
  deriving DecidableEq, Repr

/-- `extent_protocol::types`. -/
def typeDir : UInt32 := 1
def typeFile : UInt32 := 2

/-- What a call returns: its status and whichever out-parameters it fills. -/
structure Reply where
  ret : Status := statusOk
  buf : Str := []
  attr : Attr := {}
  id : ExtentId := 0
  deriving DecidableEq, Repr

structure BufferCacheEntry where
  dirty : Bool := false
  deleted : Bool := false
  buf : Str := []
  deriving DecidableEq, Repr

/-- The two maps of `extent_client`. -/
structure Caches where
  acache : ExtentId → Option Attr := fun _ => none
  bcache : ExtentId → Option BufferCacheEntry := fun _ => none

namespace Caches

/-- `std::map::operator[]` inserts a default entry where there is none. -/
def entry (c : Caches) (eid : ExtentId) : BufferCacheEntry := (c.bcache eid).getD {}

def setEntry (c : Caches) (eid : ExtentId) (e : BufferCacheEntry) : Caches :=
  { c with bcache := Function.update c.bcache eid (some e) }

def setAttr (c : Caches) (eid : ExtentId) (a : Attr) : Caches :=
  { c with acache := Function.update c.acache eid (some a) }

/-- `extent_client::getattr` after the server has answered. -/
def getattrAnswered (c : Caches) (eid : ExtentId) (r : Reply) : Caches :=
  if r.ret = statusOk then c.setAttr eid r.attr else c

/-- `extent_client::get` after the server has answered. -/
def getAnswered (c : Caches) (eid : ExtentId) (r : Reply) : Caches :=
  if r.ret = statusOk then c.setEntry eid { c.entry eid with buf := r.buf, dirty := false } else c

def put (c : Caches) (eid : ExtentId) (buf : Str) : Caches :=
  (c.setAttr eid { (c.acache eid).getD {} with size := UInt32.ofNat buf.length }).setEntry eid
    { c.entry eid with buf := buf, dirty := true }

def remove (c : Caches) (eid : ExtentId) : Caches :=
  c.setEntry eid { c.entry eid with deleted := true }

/-- The critical section of `flush`: a cached buffer is evicted together with the cached
attributes; when no buffer is cached, nothing is touched. -/
def flush (c : Caches) (eid : ExtentId) : Caches :=
  match c.bcache eid with
  | none => c
  | some _ => { acache := Function.update c.acache eid none,
                bcache := Function.update c.bcache eid none }

end Caches

/-! ## The extent server as its clients see it -/

structure Store where
  attr : ExtentId → Attr
  content : ExtentId → Str
  supply : ℕ → ExtentId
  next : ℕ := 0

namespace Store

def get (s : Store) (eid : ExtentId) : Reply := { buf := s.content eid }

def getattr (s : Store) (eid : ExtentId) : Reply := { attr := s.attr eid }

def put (s : Store) (eid : ExtentId) (buf : Str) : Store :=
  { s with
    content := Function.update s.content eid buf
    attr := Function.update s.attr eid { s.attr eid with size := UInt32.ofNat buf.length } }

def remove (s : Store) (eid : ExtentId) : Store :=
  { s with
    content := Function.update s.content eid []
    attr := Function.update s.attr eid {} }

/-- A fresh extent is empty already; creating it fixes its type. -/
def create (s : Store) (type : UInt32) : Store × Reply :=
  ({ s with
     next := s.next + 1
     attr := Function.update s.attr (s.supply s.next) { s.attr (s.supply s.next) with type := type } },
   { id := s.supply s.next })

end Store

end Yfs.ExtentClient
