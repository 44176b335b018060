import Yfs.Monitors
import Yfs.StreamFraming

/-!
# Many threads on one connection

The threads that answer requests, and those that make calls, share a connection. `send` gives it to
one of them at a time; whoever comes meanwhile sleeps on `send_wait_`, and a sender whose PDU did
not fit into the socket sleeps on `send_complete_` until `write_cb` has written the rest.
-/

namespace Yfs.ConnectionSenders
open LabelledRuns Monitors Connection HostileLengths StreamFraming
open LockProtocol (Str)
open Marshalling (rpcHeaderSz)

/-- The sending side of a `connection`: whether the poll manager watches its descriptor for writing,
and all the bytes that were written. -/
structure Conn where
  dead : Bool := false
  wpdu : Charbuf := {}
  waiters : ℤ := 0
  watched : Bool := false
  wire : Str := []
  deriving DecidableEq, Repr

def Conn.sender (c : Conn) : Sender := ⟨c.dead, c.wpdu⟩

/-- The connection after something was written. -/
def Conn.put (c : Conn) (s : Sender) (out : Str) : Conn :=
  { c with dead := s.dead, wpdu := s.wpdu, wire := c.wire ++ out }

inductive Cond where
  | sendWait
  | sendComplete
  deriving DecidableEq, Repr

/-- The calls, what is left of `send` after each of its waits and around the call of
`block_remove_fd` it makes without the mutex, and that call in `closeconn`. The argument of `readCb`
is the result of `readpdu`. -/
inductive Op where
  | send (b : Str)
  | sendWaited (b : Str)
  | sendCompleted (b : Str)
  | removing (b : Str)
  | failed (b : Str)
  | writeCb
  | readCb (succ : Bool)
  | closeconn
  | closing
  deriving DecidableEq, Repr

inductive Result where
  | sent (ok : Bool)
  | done
  deriving DecidableEq, Repr

abbrev Section := Conn × List (Notice Cond) × Ended Op Result Cond

/-- The end of `send` -/
def finish (c : Conn) : Section :=
  ({ c with wpdu := {} }, if 0 < c.waiters then [.broadcast .sendWait] else [],
    .ret (.sent (!c.dead && c.wpdu.solong == c.wpdu.sz)))

/-- The loop of `send` around its wait for the rest of the PDU -/
def complete (b : Str) (c : Conn) : Section :=
  if c.dead = false ∧ 0 ≤ c.wpdu.solong ∧ c.wpdu.solong < c.wpdu.sz then
    (c, [], .wait .sendComplete (.sendCompleted b))
  else finish c

/-- `send` from its wait for the connection on; `w` is what a `write` comes to. A connection that
loses on purpose is one whose `write` fails. -/
def acquire (w : Wrote) (b : Str) (c : Conn) : Option Section :=
  if c.dead = false ∧ c.wpdu.buf ≠ none then some (c, [], .wait .sendWait (.sendWaited b))
  else
    let c := { c with waiters := c.waiters - 1 }
    if c.dead then some (c, [], .ret (.sent false))
    else (c.sender.take w b).map fun (succ, s, out) =>
      let c := c.put s out
      if succ = false then (c, [], .yield (.removing b))
      else if s.wpdu.solong = s.wpdu.sz then finish c
      else complete b { c with watched := true }

/-- `write_cb`, with what it tells the poll manager and the sender -/
def writeCb (w : Wrote) (c : Conn) : Option Section :=
  (Connection.writeCb w c.sender).map fun (s, out) =>
    let c' := c.put s out
    if c.wpdu.sz = 0 then ({ c' with watched := false }, [], .ret .done)
    else if s.dead then ({ c' with watched := false }, [.signal .sendComplete], .ret .done)
    else if s.wpdu.solong < s.wpdu.sz then (c', [], .ret .done)
    else (c', [.signal .sendComplete], .ret .done)

/-- `read_cb`, as far as the sending side is concerned -/
def readCb (succ : Bool) (c : Conn) : Section :=
  if c.dead ∨ succ then (c, [], .ret .done)
  else ({ c with dead := true, watched := false }, [.signal .sendComplete], .ret .done)

def exec (w : Wrote) (c : Conn) : Op → Option Section
  | .send b => acquire w b { c with waiters := c.waiters + 1 }
  | .sendWaited b => acquire w b c
  | .sendCompleted b => some (complete b c)
  | .removing b => some ({ c with watched := false }, [], .yield (.failed b))
  | .failed _ => some (finish c)
  | .writeCb => writeCb w c
  | .readCb succ => some (readCb succ c)
  | .closeconn =>
    if c.dead then some (c, [], .ret .done) else some ({ c with dead := true }, [], .yield .closing)
  | .closing => some ({ c with watched := false }, [], .ret .done)

def connection : Object Conn Wrote Op Result Cond := ⟨fun w o c => exec w c o⟩

/-- The PDUs that may be sent. -/
def Sized (b : Str) : Prop := rpcHeaderSz ≤ b.length ∧ (b.length : ℤ) ≤ maxPdu

/-- The calls that a thread can make. -/
inductive Begins : Op → Prop where
  | send (b : Str) (hb : Sized b) : Begins (.send b)
  | writeCb : Begins .writeCb
  | readCb (succ : Bool) : Begins (.readCb succ)
  | closeconn : Begins .closeconn

/-- Threads that call whatever they like. -/
def anyone : Users Unit Op Result Cond where
  begins _ _ := Begins
  back u _ := u
  moves _ _ _ := False

abbrev State := Config Conn Unit Op Cond

abbrev Label := ℕ × Act Wrote Unit Op Result Cond

def start (n : ℕ) : State := ⟨{}, List.replicate n (.out ())⟩

/-! ## The sections -/

variable {w : Wrote} {b out : Str} {c c' : Conn} {ns : List (Notice Cond)} {e : Ended Op Result Cond}
  {op : Op} {sent : List Str}

/-- `send` gets the connection and calls `writepdu`. -/
structure Takes (w : Wrote) (b : Str) (c : Conn) (succ : Bool) (p : Charbuf) (out : Str) : Prop where
  live : c.dead = false
  free : c.wpdu.buf = none
  writes : writepdu w ⟨some b, b.length, 0⟩ = some (succ, p, out)

/-- What `send` comes to from its wait for the connection on. -/
inductive Acquired (w : Wrote) (b : Str) (c : Conn) :
    Conn → List (Notice Cond) → Ended Op Result Cond → Prop where
  | sleeps (live : c.dead = false) (busy : c.wpdu.buf ≠ none) :
      Acquired w b c c [] (.wait .sendWait (.sendWaited b))
  | refused (dead : c.dead = true) :
      Acquired w b c ⟨true, c.wpdu, c.waiters - 1, c.watched, c.wire⟩ [] (.ret (.sent false))
  | fails {p : Charbuf} {out : Str} (takes : Takes w b c false p out) :
      Acquired w b c ⟨true, p, c.waiters - 1, c.watched, c.wire ++ out⟩ [] (.yield (.removing b))
  | whole {p : Charbuf} {out : Str} (takes : Takes w b c true p out) (all : p.solong = p.sz) :
      Acquired w b c ⟨false, {}, c.waiters - 1, c.watched, c.wire ++ out⟩
        (if 0 < c.waiters - 1 then [.broadcast .sendWait] else []) (.ret (.sent true))
  | part {p : Charbuf} {out : Str} (takes : Takes w b c true p out) (nonneg : 0 ≤ p.solong)
      (lt : p.solong < p.sz) :
      Acquired w b c ⟨false, p, c.waiters - 1, true, c.wire ++ out⟩ []
        (.wait .sendComplete (.sendCompleted b))

theorem acquire_effect (h : acquire w b c = some (c', ns, e)) : Acquired w b c c' ns e := by
  unfold acquire at h
  by_cases hbusy : c.dead = false ∧ c.wpdu.buf ≠ none
  · rw [if_pos hbusy] at h
    cases h
    exact .sleeps hbusy.1 hbusy.2
  rw [if_neg hbusy] at h
  by_cases hdead : c.dead = true
  · simp only [hdead, if_true] at h
    cases h
    exact .refused hdead
  have hlive : c.dead = false := by simpa using hdead
  have hfree : c.wpdu.buf = none := by simpa [hlive] using hbusy
  simp only [hlive, Bool.false_eq_true, if_false] at h
  simp only [Sender.take, Sender.write, Option.map_map, Option.map_eq_some_iff] at h
  obtain ⟨⟨succ, p, out⟩, hw, h⟩ := h
  have htakes : Takes w b c succ p out := ⟨hlive, hfree, hw⟩
  obtain ⟨rfl, mem', k', rfl, le, -⟩ | ⟨rfl, -⟩ :=
    writepdu_outcome hw (Nat.zero_le _) (stamped_self b)
  · simp only [Function.comp_apply, Conn.put, Conn.sender, Bool.true_eq_false, if_false, complete,
      finish, Bool.not_true, Bool.or_false] at h
    by_cases hk : (k' : ℤ) = b.length
    · simp only [hk, if_true, Bool.not_false, Bool.true_and, beq_self_eq_true] at h
      cases h
      exact .whole htakes hk
    · have hlt : (k' : ℤ) < b.length := by omega
      simp only [hk, if_false, hlt, Int.natCast_nonneg, and_self, if_true] at h
      cases h
      exact .part htakes (Int.natCast_nonneg k') hlt
  · simp only [Function.comp_apply, Conn.put, Conn.sender, if_true, Bool.not_false,
      Bool.or_true] at h
    cases h
    exact .fails htakes

/-- What a section can do. -/
inductive Effect (w : Wrote) (c : Conn) :
    Op → Conn → List (Notice Cond) → Ended Op Result Cond → Prop where
  | send {b : Str} {c' : Conn} {ns : List (Notice Cond)} {e : Ended Op Result Cond}
      (h : Acquired w b { c with waiters := c.waiters + 1 } c' ns e) : Effect w c (.send b) c' ns e
  | sendWaited {b : Str} {c' : Conn} {ns : List (Notice Cond)} {e : Ended Op Result Cond}
      (h : Acquired w b c c' ns e) : Effect w c (.sendWaited b) c' ns e
  | sleeps (b : Str) (live : c.dead = false) (nonneg : 0 ≤ c.wpdu.solong)
      (lt : c.wpdu.solong < c.wpdu.sz) :
      Effect w c (.sendCompleted b) c [] (.wait .sendComplete (.sendCompleted b))
  | completes (b : Str) (done : c.sender.Done) :
      Effect w c (.sendCompleted b) (finish c).1 (finish c).2.1 (finish c).2.2
  | removes (b : Str) : Effect w c (.removing b) { c with watched := false } [] (.yield (.failed b))
  | failed (b : Str) : Effect w c (.failed b) (finish c).1 (finish c).2.1 (finish c).2.2
  | idle (live : c.dead = false) (sz : c.wpdu.sz = 0) :
      Effect w c .writeCb { c with watched := false } [] (.ret .done)
  | writeFails {p : Charbuf} {out : Str} (live : c.dead = false) (sz : c.wpdu.sz ≠ 0)
      (hw : writepdu w c.wpdu = some (false, p, out)) :
      Effect w c .writeCb ⟨true, p, c.waiters, false, c.wire ++ out⟩ [.signal .sendComplete]
        (.ret .done)
  | writesPart {p : Charbuf} {out : Str} (live : c.dead = false) (sz : c.wpdu.sz ≠ 0)
      (hw : writepdu w c.wpdu = some (true, p, out)) (lt : p.solong < p.sz) :
      Effect w c .writeCb { c with wpdu := p, wire := c.wire ++ out } [] (.ret .done)
  | writesAll {p : Charbuf} {out : Str} (live : c.dead = false) (sz : c.wpdu.sz ≠ 0)
      (hw : writepdu w c.wpdu = some (true, p, out)) (le : p.sz ≤ p.solong) :
      Effect w c .writeCb { c with wpdu := p, wire := c.wire ++ out } [.signal .sendComplete]
        (.ret .done)
  | reads (succ : Bool) (fine : c.dead = true ∨ succ = true) :
      Effect w c (.readCb succ) c [] (.ret .done)
  | readFails (live : c.dead = false) :
      Effect w c (.readCb false) { c with dead := true, watched := false } [.signal .sendComplete]
        (.ret .done)
  | isClosed (dead : c.dead = true) : Effect w c .closeconn c [] (.ret .done)
  | closes (live : c.dead = false) :
      Effect w c .closeconn { c with dead := true } [] (.yield .closing)
  | closing : Effect w c .closing { c with watched := false } [] (.ret .done)

theorem exec_effect (h : connection.exec w op c = some (c', ns, e)) : Effect w c op c' ns e := by
  change exec w c op = _ at h
  cases op with
  | send b => exact .send (acquire_effect h)
  | sendWaited b => exact .sendWaited (acquire_effect h)
  | sendCompleted b =>
    have h : complete b c = (c', ns, e) := Option.some.inj h
    unfold complete at h
    by_cases hwait : c.dead = false ∧ 0 ≤ c.wpdu.solong ∧ c.wpdu.solong < c.wpdu.sz
    · rw [if_pos hwait] at h
      cases h
      exact .sleeps b hwait.1 hwait.2.1 hwait.2.2
    · rw [if_neg hwait] at h
      have hdone : c.sender.Done := by
        by_cases hd : c.dead = true
        · exact .inl hd
        · rw [not_and, not_and] at hwait
          by_cases hn : 0 ≤ c.wpdu.solong
          · exact .inr (.inr (Int.not_lt.mp (hwait (by simpa using hd) hn)))
          · exact .inr (.inl (Int.not_le.mp hn))
      cases h
      exact .completes b hdone
  | removing b =>
    cases h
    exact .removes b
  | failed b =>
    cases h
    exact .failed b
  | writeCb =>
    obtain ⟨⟨s, out⟩, hcb, h⟩ := Option.map_eq_some_iff.mp h
    dsimp only [Conn.put] at h
    obtain ⟨hlive, ⟨hsz, rfl, rfl⟩ | ⟨hsz, succ, p, hw, rfl⟩⟩ := writeCb_cases hcb
    · change c.wpdu.sz = 0 at hsz
      rw [if_pos hsz, List.append_nil] at h
      cases h
      exact .idle hlive hsz
    change c.wpdu.sz ≠ 0 at hsz
    change c.dead = false at hlive
    rw [if_neg hsz] at h
    cases succ with
    | false =>
      cases h
      exact .writeFails hlive hsz hw
    | true =>
      simp only [Bool.not_true, Bool.false_eq_true, if_false] at h
      split_ifs at h with hlt
      · cases h
        rw [← hlive]
        exact .writesPart hlive hsz hw hlt
      · cases h
        rw [← hlive]
        exact .writesAll hlive hsz hw (Int.not_lt.mp hlt)
  | readCb succ =>
    have h : readCb succ c = (c', ns, e) := Option.some.inj h
    unfold readCb at h
    split_ifs at h with hfine
    · cases h
      exact .reads succ hfine
    · cases h
      rw [not_or] at hfine
      obtain ⟨hd, hs⟩ := hfine
      obtain rfl : succ = false := by simpa using hs
      exact .readFails (by simpa using hd)
  | closeconn =>
    simp only [exec] at h
    split_ifs at h with hdead
    · cases h
      exact .isClosed hdead
    · cases h
      exact .closes (by simpa using hdead)
  | closing =>
    cases h
    exact .closing

/-! ## Who has the connection -/

/-- The PDU of a thread that has the connection. -/
def Op.owned : Op → Option Str
  | .sendCompleted b | .removing b | .failed b => some b
  | _ => none

/-- The PDU of a thread that is in `send`. -/
def Op.pdu : Op → Option Str
  | .send b | .sendWaited b => some b
  | o => o.owned

abbrev View := Unit × Option Op

def owns : View → Bool
  | (_, some o) => o.owned.isSome
  | _ => false

def queues : View → Bool
  | (_, some (.sendWaited _)) => true
  | _ => false

/-- What comes after the connection was marked dead. -/
def Op.isLate : Op → Bool
  | .removing _ | .failed _ | .closing => true
  | _ => false

/-- Whether `send` has got the connection, from how its section ends. -/
def gets (b : Str) : Ended Op Result Cond → Option Str
  | .ret (.sent true) | .wait .sendComplete _ | .yield _ => some b
  | _ => none

/-- The PDU for which a step gets the connection. -/
def grant : Label → Option Str
  | (_, .ran _ (.send b) e) | (_, .ran _ (.sendWaited b) e) => gets b e
  | _ => none

def granted (tr : List Label) : List Str := tr.filterMap grant

/-- What is known after the PDUs of `sent` got the connection. -/
structure Inv (sent : List Str) (c : Conn) (vs : List View) : Prop where
  bounds : ∀ b ∈ sent, Sized b
  fits : ∀ v ∈ vs, ∀ o b, v.2 = some o → o.pdu = some b → Sized b
  sender : SenderOk sent c.wire c.sender
  owned : vs.countP owns = c.wpdu.buf.isSome.toNat
  last : ∀ v ∈ vs, ∀ o b, v.2 = some o → o.owned = some b → sent.getLast? = some b
  late : ∀ v ∈ vs, ∀ o, v.2 = some o → o.isLate = true → c.dead = true
  waiting : c.waiters = vs.countP queues

theorem Sized.four_le (h : Sized b) : 4 ≤ b.length := Nat.le_trans (by decide) h.1

theorem writepdu_buf {p p' : Charbuf} {succ : Bool} (h : writepdu w p = some (succ, p', out))
    (hp : p.buf ≠ none) : p'.buf ≠ none := by
  unfold writepdu at h
  split_ifs at h
  · cases h
    exact hp
  all_goals
    cases w with
    | bytes n =>
      simp only at h
      split_ifs at h
      cases h
      exact Option.some_ne_none _
    | _ =>
      cases h
      exact Option.some_ne_none _

theorem Takes.buf {succ : Bool} {p : Charbuf} (h : Takes w b c succ p out) : p.buf ≠ none :=
  writepdu_buf h.writes (Option.some_ne_none b)

/-- The sending side when `send` has called `writepdu`. -/
theorem Takes.sender {succ : Bool} {p : Charbuf} (h : Takes w b c succ p out)
    (hs : SenderOk sent c.wire c.sender) :
    SenderOk (sent ++ [b]) (c.wire ++ out) ⟨!succ, p⟩ := by
  have htake : c.sender.take w b = some (succ, ⟨!succ, p⟩, out) := by
    simp only [Sender.take, Sender.write, Conn.sender, h.writes, h.live, Option.map_some,
      Bool.false_or]
  exact (hs.take h.live h.free htake).1

section Steps
variable {i : ℕ} {u : Unit} {v : View} {vs : List View}

/-- One thread goes on, and the connection may go to the PDU it has in `new`. -/
theorem Inv.set (new : List Str) (c' : Conn) (v' : View) (h : Inv sent c vs)
    (hi : vs[i]? = some v) (hnew : ∀ b ∈ new, Sized b)
    (hfits : ∀ o b, v'.2 = some o → o.pdu = some b → Sized b)
    (hsender : SenderOk (sent ++ new) c'.wire c'.sender)
    (howned : c'.wpdu.buf.isSome.toNat + (owns v).toNat =
      c.wpdu.buf.isSome.toNat + (owns v').toNat)
    (hfree : new = [] ∨ c.wpdu.buf = none)
    (hlast : ∀ o b, v'.2 = some o → o.owned = some b → (sent ++ new).getLast? = some b)
    (hdead : c.dead = true → c'.dead = true)
    (hlate : ∀ o, v'.2 = some o → o.isLate = true → c'.dead = true)
    (hwaiting : c'.waiters + (queues v).toNat = c.waiters + (queues v').toNat) :
    Inv (sent ++ new) c' (vs.set i v') := by
  refine ⟨List.forall_mem_append.mpr ⟨h.bounds, hnew⟩, forall_mem_set h.fits hfits, hsender, ?_,
    forall_mem_set ?_ hlast, forall_mem_set ?_ hlate, ?_⟩
  · have := countP_set_toNat owns (b := v') hi
    have := h.owned
    omega
  · intro x hx o b ho hb
    rcases hfree with rfl | hfree
    · rw [List.append_nil]
      exact h.last x hx o b ho hb
    · have hzero := h.owned
      rw [hfree, Option.isSome_none, Bool.toNat_false, List.countP_eq_zero] at hzero
      obtain ⟨u, o'⟩ := x
      cases ho
      exact absurd (by simp [owns, hb]) (hzero _ hx)
  · exact fun x hx o ho hf => hdead (h.late x hx o ho hf)
  · have := countP_set_toNat queues (b := v') hi
    have := h.waiting
    omega

/-- A thread that has the connection has its buffer in it. -/
theorem Inv.buf_of_owned (h : Inv sent c vs) (hi : vs[i]? = some (u, some op))
    (ho : op.owned = some b) : c.wpdu.buf ≠ none := by
  intro hnone
  have hzero := h.owned
  rw [hnone, Option.isSome_none, Bool.toNat_false, List.countP_eq_zero] at hzero
  exact absurd (by simp [owns, ho]) (hzero _ (List.mem_of_getElem? hi))

theorem Inv.acquired {c₀ : Conn} (h : Inv sent c vs) (hi : vs[i]? = some (u, some op))
    (hb : Sized b) (hop : op.owned = none)
    (hw : c₀.waiters + (queues (u, some op)).toNat = c.waiters + 1)
    (hc : c₀ = { c with waiters := c₀.waiters }) (ha : Acquired w b c₀ c' ns e) :
    Inv (sent ++ (gets b e).toList) c' (vs.set i (landedView anyone u e)) := by
  have howns : owns (u, some op) = false := by simp [owns, hop]
  have hsender : SenderOk sent c₀.wire c₀.sender := by
    rw [hc]
    exact h.sender
  have hdead : c₀.dead = c.dead := by rw [hc]
  have hbuf : c₀.wpdu.buf = c.wpdu.buf := by rw [hc]
  have hsized : ∀ b' ∈ [b], Sized b' := List.forall_mem_singleton.mpr hb
  have hleft : c₀.waiters - 1 + ((queues (u, some op)).toNat : ℤ) = c.waiters + (0 : ℕ) := by omega
  cases ha with
  | sleeps live busy =>
    refine Inv.set [] _ _ h hi nofun ?_ ?_ ?_ (.inl rfl) nofun (fun hd => hdead.trans hd) nofun hw
    · rintro _ _ ⟨⟩ ⟨⟩
      exact hb
    · rw [List.append_nil]
      exact hsender
    · rw [howns, hbuf]
      rfl
  | refused dead =>
    refine Inv.set [] _ _ h hi nofun nofun ?_ ?_ (.inl rfl) nofun (fun _ => rfl) nofun hleft
    · rw [List.append_nil]
      exact .dead rfl hsender.isPrefix
    · rw [howns, ← hbuf]
      rfl
  | fails takes =>
    refine Inv.set [b] _ _ h hi hsized ?_ (takes.sender hsender) ?_ (.inr (hbuf ▸ takes.free))
      ?_ (fun _ => rfl) (fun _ _ _ => rfl) hleft
    · rintro _ _ ⟨⟩ ⟨⟩
      exact hb
    · rw [howns, ← hbuf, takes.free, Option.isSome_iff_ne_none.mpr takes.buf]
      rfl
    · rintro _ _ ⟨⟩ ⟨⟩
      exact List.getLast?_concat
  | whole takes all =>
    refine Inv.set [b] _ _ h hi hsized nofun ?_ ?_ (.inr (hbuf ▸ takes.free)) nofun ?_ nofun hleft
    · refine (takes.sender hsender).finish ?_ (.inr (.inr (Int.le_of_eq all.symm)))
      intro b' hb'
      rw [List.getLast?_concat, Option.mem_some_iff] at hb'
      rw [← hb']
      exact hb.four_le
    · rw [howns, ← hbuf, takes.free]
      rfl
    · rw [← hdead, takes.live]
      exact nofun
  | part takes nonneg lt =>
    refine Inv.set [b] _ _ h hi hsized ?_ (takes.sender hsender) ?_ (.inr (hbuf ▸ takes.free))
      ?_ ?_ nofun hleft
    · rintro _ _ ⟨⟩ ⟨⟩
      exact hb
    · rw [howns, ← hbuf, takes.free, Option.isSome_iff_ne_none.mpr takes.buf]
      rfl
    · rintro _ _ ⟨⟩ ⟨⟩
      exact List.getLast?_concat
    · rw [← hdead, takes.live]
      exact nofun

/-- The end of `send` gives the connection back. -/
theorem Inv.finished (h : Inv sent c vs) (hi : vs[i]? = some (u, some op))
    (ho : op.owned = some b) (hdone : c.sender.Done) :
    Inv sent (finish c).1 (vs.set i (landedView anyone u (finish c).2.2)) := by
  have howns : owns (u, some op) = true := by simp [owns, ho]
  have hqueues : queues (u, some op) = false := by
    cases op with
    | sendWaited => cases ho
    | _ => rfl
  have hset := Inv.set [] (finish c).1 (u, none) h hi nofun nofun ?_ ?_ (.inl rfl) nofun id nofun ?_
  · rwa [List.append_nil] at hset
  · rw [List.append_nil]
    exact h.sender.finish (fun b hb => (h.bounds b (List.mem_of_getLast? hb)).four_le) hdone
  · rw [howns, Option.isSome_iff_ne_none.mpr (h.buf_of_owned hi ho)]
    rfl
  · rw [hqueues]
    rfl

theorem pdu_none {o : Op} (h : o.pdu = none) :
    o.owned = none ∧ queues (u, some o) = false := by
  cases o with
  | writeCb => exact ⟨rfl, rfl⟩
  | readCb => exact ⟨rfl, rfl⟩
  | closeconn => exact ⟨rfl, rfl⟩
  | closing => exact ⟨rfl, rfl⟩
  | _ => cases h

/-- A section that is not one of `send` leaves the connection to whoever has it. -/
theorem Inv.kept {o : Option Op} (h : Inv sent c vs) (hi : vs[i]? = some (u, some op))
    (hop : op.pdu = none) (ho : ∀ o', o = some o' → o'.pdu = none ∧ c'.dead = true)
    (hsender : SenderOk sent c'.wire c'.sender) (hbuf : c'.wpdu.buf.isSome = c.wpdu.buf.isSome)
    (hdead : c.dead = true → c'.dead = true) (hwaiters : c'.waiters = c.waiters) :
    Inv sent c' (vs.set i (u, o)) := by
  obtain ⟨howned, hqueues⟩ := pdu_none (u := u) hop
  have hquiet : owns (u, o) = false ∧ queues (u, o) = false := by
    cases o with
    | none => exact ⟨rfl, rfl⟩
    | some o' =>
      have := pdu_none (u := u) (ho o' rfl).1
      exact ⟨by simp [owns, this.1], this.2⟩
  have hset := Inv.set [] c' (u, o) h hi nofun ?_ ?_ ?_ (.inl rfl) ?_ hdead ?_ ?_
  · rwa [List.append_nil] at hset
  · intro o' b ho' hb
    rw [(ho o' ho').1] at hb
    cases hb
  · rwa [List.append_nil]
  · rw [hquiet.1, hbuf, owns, howned]
    rfl
  · intro o' b ho' hb
    rw [(pdu_none (u := u) (ho o' ho').1).1] at hb
    cases hb
  · exact fun o' ho' _ => (ho o' ho').2
  · rw [hquiet.2, hqueues, hwaiters]

/-- A thread that has the connection goes on with it. -/
theorem Inv.holds {o : Op} (h : Inv sent c vs) (hi : vs[i]? = some (u, some op))
    (hop : op.owned = some b) (ho : o.owned = some b) (hf : o.isLate = true → c.dead = true)
    (hwire : c'.wire = c.wire) (hsame : c'.sender = c.sender) (hwaiters : c'.waiters = c.waiters) :
    Inv sent c' (vs.set i (u, some o)) := by
  have hmem := List.mem_of_getElem? hi
  have hpdu : ∀ {o : Op}, o.owned = some b → o.pdu = some b ∧ queues (u, some o) = false := by
    intro o ho
    cases o with
    | sendCompleted => exact ⟨ho, rfl⟩
    | removing => exact ⟨ho, rfl⟩
    | failed => exact ⟨ho, rfl⟩
    | _ => cases ho
  have hdead : c'.dead = c.dead := congrArg Sender.dead hsame
  have hwpdu : c'.wpdu = c.wpdu := congrArg Sender.wpdu hsame
  have hset := Inv.set [] c' (u, some o) h hi nofun ?_ ?_ ?_ (.inl rfl) ?_ (hdead ▸ id) ?_ ?_
  · rwa [List.append_nil] at hset
  · rintro _ b' ⟨⟩ hb
    rw [(hpdu ho).1] at hb
    cases hb
    exact h.fits _ hmem op b rfl (hpdu hop).1
  · rw [List.append_nil, hwire, hsame]
    exact h.sender
  · rw [hwpdu, owns, owns, hop, ho]
  · rintro _ b' ⟨⟩ hb
    rw [ho] at hb
    cases hb
    rw [List.append_nil]
    exact h.last _ hmem op b rfl hop
  · rintro _ ⟨⟩ hfail
    exact hdead.trans (hf hfail)
  · rw [(hpdu hop).2, (hpdu ho).2, hwaiters]

/-- `write_cb` goes on with the PDU of whoever has the connection. -/
theorem writes_sender {succ : Bool} {p : Charbuf} (h : SenderOk sent c.wire c.sender)
    (live : c.dead = false) (sz : c.wpdu.sz ≠ 0) (hw : writepdu w c.wpdu = some (succ, p, out)) :
    SenderOk sent (c.wire ++ out) ⟨!succ, p⟩ ∧ p.buf.isSome = c.wpdu.buf.isSome := by
  have hbuf : c.wpdu.buf ≠ none := by
    cases h with
    | free idle => exact absurd (congrArg Charbuf.sz idle) sz
    | busy last wpdu =>
      have hsome := congrArg Charbuf.buf wpdu
      exact fun hnone => Option.some_ne_none _ (hsome.symm.trans hnone)
    | dead dead => exact absurd (live.symm.trans dead) Bool.false_ne_true
  have hcb : Connection.writeCb w c.sender = some (⟨!succ, p⟩, out) := by
    unfold Connection.writeCb Conn.sender
    rw [if_neg (by simp [live]), if_neg sz]
    simp [Sender.write, hw, live]
  refine ⟨h.writeCb hcb, ?_⟩
  rw [Option.isSome_iff_ne_none.mpr hbuf, Option.isSome_iff_ne_none.mpr (writepdu_buf hw hbuf)]

theorem Effect.inv (he : Effect w c op c' ns e) (h : Inv sent c vs)
    (hi : vs[i]? = some (u, some op)) :
    Inv (sent ++ (grant (i, .ran w op e)).toList) c' (vs.set i (landedView anyone u e)) := by
  have hmem := List.mem_of_getElem? hi
  have hquiet : ∀ {c'' : Conn} {v : View}, Inv sent c'' (vs.set i v) →
      Inv (sent ++ []) c'' (vs.set i v) := fun h => by rwa [List.append_nil]
  cases he with
  | @send b _ _ _ ha =>
    refine h.acquired hi (h.fits _ hmem _ b rfl rfl) rfl ?_ rfl ha
    exact Int.add_zero _
  | @sendWaited b _ _ _ ha =>
    exact h.acquired hi (h.fits _ hmem _ b rfl rfl) rfl rfl rfl ha
  | sleeps b => exact hquiet (h.holds hi rfl rfl nofun rfl rfl rfl)
  | completes b done => exact hquiet (h.finished hi rfl done)
  | removes b =>
    exact hquiet (h.holds hi rfl rfl (fun _ => h.late _ hmem _ rfl rfl) rfl rfl rfl)
  | failed b => exact hquiet (h.finished hi rfl (.inl (h.late _ hmem _ rfl rfl)))
  | idle => exact hquiet (h.kept hi rfl nofun h.sender rfl id rfl)
  | writeFails live sz hw =>
    obtain ⟨hs, hb⟩ := writes_sender h.sender live sz hw
    exact hquiet (h.kept hi rfl nofun hs hb (fun _ => rfl) rfl)
  | writesPart live sz hw =>
    obtain ⟨hs, hb⟩ := writes_sender h.sender live sz hw
    rw [Bool.not_true, ← live] at hs
    exact hquiet (h.kept hi rfl nofun hs hb id rfl)
  | writesAll live sz hw =>
    obtain ⟨hs, hb⟩ := writes_sender h.sender live sz hw
    rw [Bool.not_true, ← live] at hs
    exact hquiet (h.kept hi rfl nofun hs hb id rfl)
  | reads => exact hquiet (h.kept hi rfl nofun h.sender rfl id rfl)
  | readFails =>
    exact hquiet (h.kept hi rfl nofun (.dead rfl h.sender.isPrefix) rfl (fun _ => rfl) rfl)
  | isClosed => exact hquiet (h.kept hi rfl nofun h.sender rfl id rfl)
  | closes =>
    refine hquiet (h.kept hi rfl ?_ (.dead rfl h.sender.isPrefix) rfl (fun _ => rfl) rfl)
    rintro _ ⟨⟩
    exact ⟨rfl, rfl⟩
  | closing => exact hquiet (h.kept hi rfl nofun h.sender rfl id rfl)

end Steps

/-! ## What is on the wire -/

variable {g g' : State} {l : Label} {tr : List Label} {n : ℕ}

theorem Inv.step (h : Inv sent g.shared g.views) (hs : Step connection anyone g l g') :
    Inv (sent ++ (grant l).toList) g'.shared g'.views := by
  have hseen := hs.seen
  generalize g'.shared = c', g'.views = vs' at hseen
  cases hseen with
  | @began i u o hi hb =>
    have hset := Inv.set [] g.shared (u, some o) h hi nofun ?_ ?_ ?_ (.inl rfl) ?_ id ?_ ?_
    · exact hset
    · rintro _ b ⟨⟩ hpdu
      cases hb with
      | send b hb =>
        cases hpdu
        exact hb
      | _ => cases hpdu
    · rw [List.append_nil]
      exact h.sender
    · cases hb <;> rfl
    · rintro _ b ⟨⟩ hown
      cases hb <;> cases hown
    · rintro _ ⟨⟩ hfail
      cases hb <;> cases hfail
    · cases hb <;> rfl
  | ran hi hx => exact (exec_effect hx).inv h hi
  | moved hi hm => cases hm
  | stirred => rwa [show grant (_, .stirred) = none from rfl, Option.toList_none, List.append_nil]

theorem inv_start (n : ℕ) : Inv [] (start n).shared (start n).views := by
  have hviews : (start n).views = List.replicate n ((), none) := by
    simp [start, Config.views, Thread.view]
  have hnone : ∀ v ∈ (start n).views, v.2 = none := by
    rw [hviews]
    exact fun v hv => congrArg Prod.snd (List.eq_of_mem_replicate hv)
  have hsome : ∀ {v : View} {o : Op}, v ∈ (start n).views → v.2 ≠ some o := by
    intro v o hv ho
    rw [hnone v hv] at ho
    cases ho
  refine ⟨fun b hb => absurd hb List.not_mem_nil, fun v hv o b ho => absurd ho (hsome hv),
    .free rfl rfl, ?_,
    fun v hv o b ho => absurd ho (hsome hv), fun v hv o ho => absurd ho (hsome hv), ?_⟩
  · rw [hviews]
    simp [List.countP_replicate, owns, start]
  · rw [hviews]
    simp [List.countP_replicate, queues, start]

theorem inv_run (hr : Run (Step connection anyone) (start n) tr g) :
    Inv (granted tr) g.shared g.views := by
  refine hr.history_invariant (I := fun (tr : List Label) (g : State) =>
    Inv (granted tr) g.shared g.views) (inv_start n) ?_
  intro tr g l g' _ h hs
  rw [granted, filterMap_concat]
  exact h.step hs

/-- When `send` reports success, it has given a connection back that is alive. -/
theorem Effect.success (he : Effect w c op c' ns (.ret (.sent true))) :
    c'.dead = false ∧ c'.wpdu = {} ∧ op.pdu ≠ none := by
  generalize hres : Ended.ret (Result.sent true) = e at he
  have hfin : Ended.ret (Result.sent true) = (finish c).2.2 → (finish c).1.dead = false := by
    intro h
    have h : true = (!c.dead && c.wpdu.solong == c.wpdu.sz) := by
      simpa [finish] using h
    simp only [Bool.true_eq, Bool.and_eq_true, Bool.not_eq_true'] at h
    exact h.1
  cases he with
  | send ha =>
    cases ha with
    | whole => exact ⟨rfl, rfl, nofun⟩
    | _ => cases hres
  | sendWaited ha =>
    cases ha with
    | whole => exact ⟨rfl, rfl, nofun⟩
    | _ => cases hres
  | completes b done => exact ⟨hfin hres, rfl, nofun⟩
  | failed b => exact ⟨hfin hres, rfl, nofun⟩
  | _ => cases hres

theorem grant_success {i : ℕ} (h : op.pdu = some b) :
    grant (i, .ran w op (.ret (.sent true))) = some b ∨
      grant (i, .ran w op (.ret (.sent true))) = none ∧ op.owned = some b := by
  cases op with
  | send => exact .inl h
  | sendWaited => exact .inl h
  | sendCompleted => exact .inr ⟨rfl, h⟩
  | removing => exact .inr ⟨rfl, h⟩
  | failed => exact .inr ⟨rfl, h⟩
  | _ => cases h

/-- Whenever a `send` reports success, what is on the wire is a sequence of whole PDUs with their
sizes, in the order in which they got the connection, and the PDU of that `send` is the last. -/
theorem success_is_whole {i : ℕ} (hr : Run (Step connection anyone) (start n) tr g)
    (hs : Step connection anyone g (i, .ran w op (.ret (.sent true))) g') :
    ∃ b, op.pdu = some b ∧ (granted (tr ++ [(i, .ran w op (.ret (.sent true)))])).getLast? = some b ∧
      g'.shared.wire =
        ((granted (tr ++ [(i, .ran w op (.ret (.sent true)))])).map stamp).flatten := by
  have hinv := inv_run hr
  have hinv' := inv_run (hr.snoc hs)
  have hseen := hs.seen
  generalize g'.shared = c', g'.views = vs' at hseen hinv'
  cases hseen with
  | @ran _ _ u _ _ ns _ hi hx =>
    have he := exec_effect hx
    obtain ⟨hdead, hwpdu, hpdu⟩ := he.success
    obtain ⟨b, hb⟩ := Option.ne_none_iff_exists'.mp hpdu
    refine ⟨b, hb, ?_, ?_⟩
    · rw [granted, filterMap_concat]
      rcases grant_success (w := w) (i := i) hb with hg | ⟨hg, hown⟩
      · rw [hg]
        exact List.getLast?_concat
      · rw [hg, Option.toList_none, List.append_nil]
        exact hinv.last _ (List.mem_of_getElem? hi) op b rfl hown
    · cases hinv'.sender with
      | free idle whole => exact whole
      | busy last wpdu =>
        rw [Conn.sender, hwpdu] at wpdu
        cases wpdu
      | dead dead =>
        rw [Conn.sender, hdead] at dead
        cases dead

def pdu : Str := List.replicate 24 9

theorem sized_pdu : Sized pdu := ⟨by decide, by decide⟩

/-- The socket has taken ten bytes of a PDU. -/
def halfway : State :=
  ⟨⟨false, ⟨some (stamp pdu), 24, 10⟩, 0, true, (stamp pdu).take 10⟩,
    [.asleep () .sendComplete (.sendCompleted pdu), .out ()]⟩

theorem run_halfway : Run (Step connection anyone) (start 2)
    [(0, .began (.send pdu)),
      (0, .ran (.bytes 10) (.send pdu) (.wait .sendComplete (.sendCompleted pdu)))] halfway := by
  have hx : connection.exec (.bytes 10) (.send pdu) {} =
      some (halfway.shared, [], .wait .sendComplete (.sendCompleted pdu)) := by decide +kernel
  exact (Run.single (.begin rfl (.send pdu sized_pdu))).snoc (.run rfl rfl hx (.nil _))

/-- The rest has been written, and its sender has been woken. -/
def written : State :=
  ⟨⟨false, ⟨some (stamp pdu), 24, 24⟩, 0, true, stamp pdu⟩,
    [.woken () .sendComplete (.sendCompleted pdu), .out ()]⟩

theorem run_written : Run (Step connection anyone) halfway
    [(1, .began .writeCb), (1, .ran (.bytes 14) .writeCb (.ret .done))] written := by
  have hx : connection.exec (.bytes 14) .writeCb halfway.shared =
      some (written.shared, [.signal .sendComplete], .ret .done) := by decide +kernel
  have hb : Step connection anyone halfway (1, .began .writeCb) _ := .begin rfl .writeCb
  exact (Run.single hb).snoc (.run (g := ⟨_, [_, .ready () .writeCb]⟩) (u := ()) rfl rfl hx
    (notifyAll_rouseAll _ _))

theorem success_is_whole_written : ∃ g', Step connection anyone written
    (0, .ran (.bytes 0) (.sendCompleted pdu) (.ret (.sent true))) g' ∧ g'.shared.wire = stamp pdu := by
  have hx : connection.exec (.bytes 0) (.sendCompleted pdu) written.shared =
      some ((finish written.shared).1, [], .ret (.sent true)) := by decide +kernel
  have hs : Step connection anyone written
      (0, .ran (.bytes 0) (.sendCompleted pdu) (.ret (.sent true))) _ := .run rfl rfl hx (.nil _)
  obtain ⟨b, -, -, hw⟩ := success_is_whole (run_halfway.append run_written) hs
  exact ⟨_, hs, hw.trans (List.append_nil _)⟩

/-! ## The other end -/

/-- The connection and the receiving side at its other end. -/
structure Net where
  near : State
  far : Receiver

abbrev NetLabel := Label ⊕ List Entry

/-- A thread goes on, and what it writes is on its way; the other end reads or gives up. -/
inductive NetStep (junk : ℕ → UInt8) : Net → NetLabel → Net → Prop where
  | near {s : Net} {l : Label} {g : State} (hs : Step connection anyone s.near l g) :
      NetStep junk s (.inl l)
        ⟨g, { s.far with
          wire := s.far.wire ++ g.shared.wire.drop s.near.shared.wire.length }⟩
  | far {s : Net} {log : List Entry} {r : Receiver} (hx : ReadStep junk s.far log r) :
      NetStep junk s (.inr log) ⟨s.near, r⟩
  | close {s : Net} : NetStep junk s (.inr []) ⟨s.near, { s.far with dead := true }⟩

def NetLabel.grant : NetLabel → Option Str
  | .inl l => ConnectionSenders.grant l
  | .inr _ => none

/-- The PDUs that `got_pdu` accepts at the other end. -/
def NetLabel.accepts : NetLabel → List Str
  | .inl _ => []
  | .inr log => accepted log

theorem Acquired.wire (h : Acquired w b c c' ns e) : c.wire <+: c'.wire := by
  cases h with
  | sleeps => exact List.prefix_rfl
  | refused => exact List.prefix_rfl
  | _ => exact List.prefix_append _ _

theorem wire_step (hs : Step connection anyone g l g') : g.shared.wire <+: g'.shared.wire := by
  cases hs with
  | run _ _ hx =>
    cases exec_effect hx with
    | send ha => exact ha.wire
    | sendWaited ha => exact ha.wire
    | writeFails => exact List.prefix_append _ _
    | writesPart => exact List.prefix_append _ _
    | writesAll => exact List.prefix_append _ _
    | _ => exact List.prefix_rfl
  | _ => exact List.prefix_rfl

theorem netStep_ok {junk : ℕ → UInt8} {s s' : Net} {l : NetLabel} {acc : List Str}
    (hs : NetStep junk s l s') (h : Inv sent s.near.shared s.near.views)
    (hr : ReceiverOk (sent.map stamp) s.near.shared.wire acc s.far) :
    Inv (sent ++ l.grant.toList) s'.near.shared s'.near.views ∧
      ReceiverOk ((sent ++ l.grant.toList).map stamp) s'.near.shared.wire (acc ++ l.accepts) s'.far := by
  cases hs with
  | @near l g hs =>
    refine ⟨h.step hs, ?_⟩
    have hout := List.prefix_iff_eq_append.mp (wire_step hs)
    have hmore : ReceiverOk ((sent ++ (grant l).toList).map stamp) s.near.shared.wire acc s.far := by
      rw [List.map_append]
      exact ⟨hr.isPrefix.trans (List.prefix_append _ _), hr.stream⟩
    have hwrote : ReceiverOk ((sent ++ (grant l).toList).map stamp)
        (s.near.shared.wire ++ g.shared.wire.drop s.near.shared.wire.length) acc _ := hmore.wrote
    rw [hout] at hwrote
    rw [NetLabel.accepts, List.append_nil]
    exact hwrote
  | @far log r hx =>
    simp only [NetLabel.grant, Option.toList_none, List.append_nil]
    refine ⟨h, hr.readCb ?_ h.sender.isPrefix hx⟩
    intro x hx
    obtain ⟨b, hb, rfl⟩ := List.mem_map.mp hx
    exact frame_stamp (h.bounds b hb).four_le (h.bounds b hb).2
  | close =>
    simp only [NetLabel.grant, NetLabel.accepts, accepted, List.filterMap_nil, Option.toList_none,
      List.append_nil]
    exact ⟨h, hr.isPrefix, fun hdead => absurd hdead.symm Bool.false_ne_true⟩

/-- However many threads send, and however the bytes are cut into pieces, the other end gets whole
PDUs, in the order in which they got the connection. -/
theorem handed_over_in_order {junk : ℕ → UInt8} {tr : List NetLabel} {s : Net}
    (hr : Run (NetStep junk) ⟨start n, { wire := [] }⟩ tr s) :
    tr.flatMap NetLabel.accepts <+: (tr.filterMap NetLabel.grant).map stamp := by
  have hok : Inv (tr.filterMap NetLabel.grant) s.near.shared s.near.views ∧
      ReceiverOk ((tr.filterMap NetLabel.grant).map stamp) s.near.shared.wire
        (tr.flatMap NetLabel.accepts) s.far := by
    refine hr.history_invariant (I := fun (tr : List NetLabel) (s : Net) =>
      Inv (tr.filterMap NetLabel.grant) s.near.shared s.near.views ∧
        ReceiverOk ((tr.filterMap NetLabel.grant).map stamp) s.near.shared.wire
          (tr.flatMap NetLabel.accepts) s.far) ?_ ?_
    · exact ⟨inv_start n, List.prefix_rfl, fun _ _ => ⟨[], .idle, rfl⟩⟩
    · intro tr s l s' _ h hs
      rw [filterMap_concat, List.flatMap_append, List.flatMap_singleton]
      exact netStep_ok hs h.1 h.2
  exact hok.2.isPrefix

/-- One thread sends, and the other end reads. -/
theorem handed_over_in_order_pieces : ∃ tr s,
    Run (NetStep fun _ => 7) ⟨start 1, { wire := [] }⟩ tr s ∧
      tr.flatMap NetLabel.accepts = [stamp pdu] ∧
      tr.flatMap NetLabel.accepts <+: (tr.filterMap NetLabel.grant).map stamp := by
  have hx : connection.exec (.bytes 24) (.send pdu) {} =
      some (⟨false, {}, 0, false, stamp pdu⟩, [], .ret (.sent true)) := by decide +kernel
  have hr : Run (NetStep fun _ => 7) ⟨start 1, { wire := [] }⟩ _ _ :=
    ((Run.single (.near (.begin (i := 0) rfl (.send pdu sized_pdu)))).snoc
      (.near (.run (i := 0) rfl rfl hx (.nil _)))).snoc
      (.far (.callback (.take 4) (.take 20) true rfl rfl))
  exact ⟨_, _, hr, by decide +kernel, handed_over_in_order hr⟩

end Yfs.ConnectionSenders
