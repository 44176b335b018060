import Yfs.AtMostOnce

/-!
# The buffers that replies are sent from

The reply list holds pointers. A thread of `dispatch` sends a recorded reply after it has let go
of `reply_window_m_`, and a request that acknowledges the reply frees its buffer, which the next
`marshall` may be given. As long as no buffer is freed while a thread sends it, the server sends
what `RpcSystem` says it does.
-/

namespace Yfs.ReplyBuffers
open LabelledRuns RpcSystem AtMostOnce
open LockProtocol (Str)
open ReplyWindow hiding Step
open RpcSystem hiding System Step

/-! ## Memory -/

/-- A buffer: the words of the reply header, and the bytes behind it. -/
structure Cell where
  xid : ℕ := 0
  ret : ℤ := 0
  body : ℕ → UInt8 := fun _ => 0

/-- A reply is packed into a buffer. What lies behind the reply stays. -/
def Cell.write (c : Cell) (pdu : ReplyPdu) : Cell :=
  ⟨pdu.xid, pdu.ret, fun i => pdu.rep.getD i (c.body i)⟩

/-- The first `sz` bytes of a buffer, taken for a reply. -/
def Cell.read (c : Cell) (sz : ℤ) : ReplyPdu :=
  ⟨c.xid, c.ret, (List.range (sz.toNat - 24)).map c.body⟩

theorem Cell.read_write (c : Cell) (pdu : ReplyPdu) : (c.write pdu).read pdu.size = pdu := by
  have hlen : pdu.size.toNat - 24 = pdu.rep.length := by
    simp only [ReplyPdu.size, Int.toNat_natCast]
    omega
  have hbody : (List.range pdu.rep.length).map (fun i => pdu.rep.getD i (c.body i)) = pdu.rep := by
    apply List.ext_getElem
    · simp
    · intro i _ hi
      simp [hi]
  simp only [Cell.read, Cell.write, hlen, hbody]

/-- What a pointer and a size stand for. -/
def contents (memory : ℕ → Cell) (a : ℕ) (sz : ℤ) : ReplyPdu := (memory a).read sz

/-! ## The server -/

/-- A thread in `c->send(buf, sz)`; it frees the buffer afterwards when that is its own. -/
structure Sending where
  cltNonce : ℕ
  buf : ℕ
  sz : ℤ
  own : Bool
  deriving DecidableEq

/-- `rpcs` with its memory: the handlers at work with the buffers of their `rep`, and the threads
that send. -/
structure Server where
  nonce : ℕ
  procs : List ℕ
  replyWindow : ℕ → List (ReplyT ℕ) := fun _ => []
  memory : ℕ → Cell := fun _ => {}
  handling : List (Request × ℕ) := []
  sending : List Sending := []

namespace Server

/-- The reply list points to the buffer. -/
def Recorded (srv : Server) (a : ℕ) : Prop := ∃ n, ∃ r ∈ srv.replyWindow n, r.buf = some a

/-- A handler marshalls into the buffer. -/
def Handled (srv : Server) (a : ℕ) : Prop := ∃ req, (req, a) ∈ srv.handling

/-- A thread sends the buffer and is to free it. -/
def Answered (srv : Server) (a : ℕ) : Prop := ∃ x ∈ srv.sending, x.own = true ∧ x.buf = a

/-- What `malloc` does not hand out. A thread that only sends the buffer does not hold it. -/
def InUse (srv : Server) (a : ℕ) : Prop := srv.Recorded a ∨ srv.Handled a ∨ srv.Answered a

def setWindow (srv : Server) (n : ℕ) (l : List (ReplyT ℕ)) : Server :=
  { srv with replyWindow := Function.update srv.replyWindow n l }

def store (srv : Server) (a : ℕ) (c : Cell) : Server :=
  { srv with memory := Function.update srv.memory a c }

def enter (srv : Server) (req : Request) (a : ℕ) : Server :=
  { srv with handling := srv.handling ++ [(req, a)] }

def exit (srv : Server) (req : Request) (a : ℕ) : Server :=
  { srv with handling := srv.handling.erase (req, a) }

def push (srv : Server) (x : List Sending) : Server := { srv with sending := srv.sending ++ x }

/-- A failure is packed into `rep` and sent from there. -/
def answer (srv : Server) (req : Request) (a : ℕ) (ret : ℤ) : Server :=
  (srv.store a ((srv.memory a).write ⟨req.xid, ret, []⟩)).push [⟨req.cltNonce, a, 24, true⟩]

/-- The `switch` of `dispatch`, up to the handler or the sending. -/
def switch (srv : Server) (req : Request) (a : ℕ) : RpcState ℕ → Server
  | .new => srv.enter req a
  | .inProgress => srv
  | .done b sz => srv.push (b.toList.map (⟨req.cltNonce, ·, sz, false⟩))
  | .forgotten => srv.answer req a atmostonceFailure

/-- `rpcs::dispatch` with `a` as the buffer of `rep`; `none` when an assertion fails. -/
def dispatch (srv : Server) (req : Request) (a : ℕ) :
    Option (Server × Option (RpcState ReplyPdu)) :=
  if req.srvNonce ≠ 0 ∧ req.srvNonce ≠ srv.nonce then
    some (srv.answer req a oldsrvFailure, none)
  else if req.proc ∉ srv.procs then none
  else if req.cltNonce = 0 then some (srv.switch req a .new, some .new)
  else
    (checkDuplicateAndUpdate req.xid req.xidRep (srv.replyWindow req.cltNonce)).map fun r =>
      ((srv.setWindow req.cltNonce r.1).switch req a r.2, some (r.2.map (contents srv.memory)))

/-- The rest of `dispatch`, up to the sending, when a handler has returned: `take_buf` and
`add_reply`. -/
def finish (srv : Server) (req : Request) (a : ℕ) (pdu : ReplyPdu) : Option Server :=
  let srv := (srv.exit req a).store a ((srv.memory a).write pdu)
  if pdu.ret < 0 then none
  else if req.cltNonce = 0 then some (srv.push [⟨req.cltNonce, a, pdu.size, true⟩])
  else (addReply req.xid a pdu.size (srv.replyWindow req.cltNonce)).map fun l =>
    (srv.setWindow req.cltNonce l).push [⟨req.cltNonce, a, pdu.size, false⟩]

/-- The buffers that a request frees when it is taken up. -/
def frees (srv : Server) (req : Request) : List ℕ :=
  if (req.srvNonce ≠ 0 ∧ req.srvNonce ≠ srv.nonce) ∨ req.cltNonce = 0 then []
  else freed req.xid req.xidRep (srv.replyWindow req.cltNonce)

end Server

/-! ## The whole system -/

structure System where
  clients : ℕ → Rpcc := fun _ => {}
  server : Server
  requests : List Request := []
  replies : List (ℕ × ReplyPdu) := []

def System.setClient (s : System) (n : ℕ) (c : Rpcc) : System :=
  { s with clients := Function.update s.clients n c }

def System.start (nonce : ℕ) (procs : List ℕ) : System := { server := { nonce, procs } }

/-- The steps of `RpcSystem`, where a reply enters the network only when a thread comes to send
what its buffer holds by then. The steps without a label are this sending and those of memory: a
handler writes to its buffer or gets a larger one, and memory that is not in use changes. -/
inductive Step : System → Option Label → System → Prop where
  | call {s : System} (n proc srvNonce : ℕ) (args : Str) (hn : n ≠ 0) :
      Step s (some (.called n (s.clients n).xid))
        { s.setClient n ((s.clients n).call1 n proc srvNonce args).1 with
          requests := s.requests ++ [((s.clients n).call1 n proc srvNonce args).2] }
  | leave {s : System} (n xid : ℕ) (ca : Caller) (h : (s.clients n).calls xid = some ca) :
      Step s (some (.returned n xid ca.result ca.un)) (s.setClient n ((s.clients n).leave xid))
  | dispatch {s : System} (req : Request) (hm : req ∈ s.requests) (a : ℕ)
      (ha : ¬s.server.InUse a) {srv : Server} {st : Option (RpcState ReplyPdu)}
      (h : s.server.dispatch req a = some (srv, st)) :
      Step s (some (.dispatched req st)) { s with server := srv }
  | write {s : System} (req : Request) (a : ℕ) (hm : (req, a) ∈ s.server.handling) (c : Cell) :
      Step s none { s with server := s.server.store a c }
  | move {s : System} (req : Request) (a b : ℕ) (hm : (req, a) ∈ s.server.handling)
      (hb : ¬s.server.InUse b) :
      Step s none { s with server := (s.server.exit req a).enter req b }
  | finish {s : System} (req : Request) (a : ℕ) (hm : (req, a) ∈ s.server.handling) (ret : ℤ)
      (rep : Str) {srv : Server} (h : s.server.finish req a ⟨req.xid, ret, rep⟩ = some srv) :
      Step s (some (.finished req ⟨req.xid, ret, rep⟩)) { s with server := srv }
  | send {s : System} (x : Sending) (hx : x ∈ s.server.sending) :
      Step s none { s with
        server := { s.server with sending := s.server.sending.erase x }
        replies := s.replies ++ [(x.cltNonce, contents s.server.memory x.buf x.sz)] }
  | reuse {s : System} (a : ℕ) (ha : ¬s.server.InUse a) (c : Cell) :
      Step s none { s with server := s.server.store a c }
  | receive {s : System} (n : ℕ) (pdu : ReplyPdu) (hm : (n, pdu) ∈ s.replies) :
      Step s (some (.received n pdu)) (s.setClient n ((s.clients n).gotPdu pdu))

/-- Taking up a request frees no buffer that a thread is sending. -/
def Calm (s : System) : Option Label → Prop
  | some (.dispatched req _) => ∀ x ∈ s.server.sending, x.buf ∉ s.server.frees req
  | _ => True

instance : (s : System) → (l : Option Label) → Decidable (Calm s l)
  | s, some (.dispatched req _) =>
    inferInstanceAs (Decidable (∀ x ∈ s.server.sending, x.buf ∉ s.server.frees req))
  | _, some (.called ..) => isTrue trivial
  | _, some (.finished ..) => isTrue trivial
  | _, some (.received ..) => isTrue trivial
  | _, some (.returned ..) => isTrue trivial
  | _, none => isTrue trivial

/-- A step that frees nothing that is being sent. -/
def CalmStep (s : System) (l : Option Label) (s' : System) : Prop := Step s l s' ∧ Calm s l

/-! ## Who holds a buffer -/

/-- No two hold one buffer, and what a thread sends is its own or recorded. -/
structure Kept (srv : Server) : Prop where
  present : ∀ n, ∀ r ∈ srv.replyWindow n, r.buf ≠ none → r.cbPresent = true
  handlers : (srv.handling.map Prod.snd).Nodup
  recorded : ∀ a, srv.Recorded a → ¬srv.Handled a ∧ ¬srv.Answered a
  handled : ∀ a, srv.Handled a → ¬srv.Answered a
  sending : ∀ x ∈ srv.sending, x.own = false → srv.Recorded x.buf

variable {srv srv' : Server} {req : Request} {a n : ℕ} {c : Cell} {pdu : ReplyPdu}
  {l : List (ReplyT ℕ)} {st : RpcState ℕ} {x : Sending}

theorem Kept.store (h : Kept srv) : Kept (srv.store a c) :=
  ⟨h.present, h.handlers, h.recorded, h.handled, h.sending⟩

theorem Kept.enter (h : Kept srv) (ha : ¬srv.InUse a) : Kept (srv.enter req a) := by
  have hin : ∀ b, (srv.enter req a).Handled b → srv.Handled b ∨ b = a := by
    rintro b ⟨req', hm⟩
    rcases List.mem_append.1 hm with hm | hm
    · exact .inl ⟨req', hm⟩
    · cases List.mem_singleton.1 hm
      exact .inr rfl
  refine ⟨h.present, ?_, ?_, ?_, h.sending⟩
  · change ((srv.handling ++ [(req, a)]).map Prod.snd).Nodup
    rw [List.map_append, List.nodup_append]
    refine ⟨h.handlers, List.nodup_singleton _, ?_⟩
    rintro b hb c hc rfl
    obtain ⟨⟨req', b⟩, hm, rfl⟩ := List.mem_map.1 hb
    obtain rfl : b = a := by simpa using hc
    exact ha (.inr (.inl ⟨req', hm⟩))
  · intro b hb
    refine ⟨?_, (h.recorded b hb).2⟩
    intro hh
    rcases hin b hh with hh | rfl
    · exact (h.recorded b hb).1 hh
    · exact ha (.inl hb)
  · intro b hb hans
    rcases hin b hb with hb | rfl
    · exact h.handled b hb hans
    · exact ha (.inr (.inr hans))

/-- A handler that returns lets go of its buffer, and nobody else has it. -/
theorem Kept.exit (h : Kept srv) (hm : (req, a) ∈ srv.handling) :
    Kept (srv.exit req a) ∧ ¬(srv.exit req a).InUse a := by
  have hout : ∀ b, (srv.exit req a).Handled b → srv.Handled b := by
    rintro b ⟨req', hm'⟩
    exact ⟨req', List.mem_of_mem_erase hm'⟩
  refine ⟨⟨h.present, h.handlers.sublist (List.erase_sublist.map _), ?_, ?_, h.sending⟩, ?_⟩
  · intro b hb
    exact ⟨fun hh => (h.recorded b hb).1 (hout b hh), (h.recorded b hb).2⟩
  · intro b hb
    exact h.handled b (hout b hb)
  · rintro (hr | ⟨req', hm'⟩ | hans)
    · exact (h.recorded a hr).1 ⟨req, hm⟩
    · have hperm := (List.perm_cons_erase hm).map Prod.snd
      have hnd := hperm.nodup_iff.1 h.handlers
      exact (List.nodup_cons.1 hnd).1 (List.mem_map.2 ⟨_, hm', rfl⟩)
    · exact h.handled a ⟨req, hm⟩ hans

theorem not_inUse_exit {b : ℕ} (hb : ¬srv.InUse b) : ¬(srv.exit req a).InUse b := by
  rintro (hr | ⟨req', hm⟩ | hans)
  · exact hb (.inl hr)
  · exact hb (.inr (.inl ⟨req', List.mem_of_mem_erase hm⟩))
  · exact hb (.inr (.inr hans))

theorem Kept.pushOwn (h : Kept srv) (ha : ¬srv.InUse a) {sz : ℤ} :
    Kept (srv.push [⟨n, a, sz, true⟩]) := by
  have hin : ∀ b, (srv.push [⟨n, a, sz, true⟩]).Answered b → srv.Answered b ∨ b = a := by
    rintro b ⟨x, hx, hown, rfl⟩
    rcases List.mem_append.1 hx with hx | hx
    · exact .inl ⟨x, hx, hown, rfl⟩
    · cases List.mem_singleton.1 hx
      exact .inr rfl
  refine ⟨h.present, h.handlers, ?_, ?_, ?_⟩
  · intro b hb
    refine ⟨(h.recorded b hb).1, ?_⟩
    intro hans
    rcases hin b hans with hans | rfl
    · exact (h.recorded b hb).2 hans
    · exact ha (.inl hb)
  · intro b hb hans
    rcases hin b hans with hans | rfl
    · exact h.handled b hb hans
    · exact ha (.inr (.inl hb))
  · intro x hx hown
    rcases List.mem_append.1 hx with hx | hx
    · exact h.sending x hx hown
    · cases List.mem_singleton.1 hx
      cases hown

theorem Kept.pushRecorded (h : Kept srv) {xs : List Sending}
    (hxs : ∀ x ∈ xs, x.own = false ∧ srv.Recorded x.buf) : Kept (srv.push xs) := by
  have hin : ∀ b, (srv.push xs).Answered b → srv.Answered b := by
    rintro b ⟨x, hx, hown, rfl⟩
    rcases List.mem_append.1 hx with hx | hx
    · exact ⟨x, hx, hown, rfl⟩
    · rw [(hxs x hx).1] at hown
      cases hown
  refine ⟨h.present, h.handlers, ?_, ?_, ?_⟩
  · intro b hb
    exact ⟨(h.recorded b hb).1, fun hans => (h.recorded b hb).2 (hin b hans)⟩
  · intro b hb hans
    exact h.handled b hb (hin b hans)
  · intro x hx hown
    rcases List.mem_append.1 hx with hx | hx
    · exact h.sending x hx hown
    · exact (hxs x hx).2

theorem Kept.sent (h : Kept srv) :
    Kept { srv with sending := srv.sending.erase x } := by
  have hin : ∀ b, Server.Answered { srv with sending := srv.sending.erase x } b →
      srv.Answered b := by
    rintro b ⟨y, hy, hown, rfl⟩
    exact ⟨y, List.mem_of_mem_erase hy, hown, rfl⟩
  refine ⟨h.present, h.handlers, ?_, ?_, ?_⟩
  · intro b hb
    exact ⟨(h.recorded b hb).1, fun hans => (h.recorded b hb).2 (hin b hans)⟩
  · intro b hb hans
    exact h.handled b hb (hin b hans)
  · intro y hy hown
    exact h.sending y (List.mem_of_mem_erase hy) hown

theorem setWindow_self : (srv.setWindow n l).replyWindow n = l := Function.update_self ..

theorem setWindow_of_ne {m : ℕ} (hm : m ≠ n) :
    (srv.setWindow n l).replyWindow m = srv.replyWindow m := Function.update_of_ne hm ..

theorem mem_setWindow {m : ℕ} {r : ReplyT ℕ} (hr : r ∈ (srv.setWindow n l).replyWindow m) :
    (m = n ∧ r ∈ l) ∨ (m ≠ n ∧ r ∈ srv.replyWindow m) := by
  by_cases hm : m = n
  · subst hm
    rw [setWindow_self] at hr
    exact .inl ⟨rfl, hr⟩
  · rw [setWindow_of_ne hm] at hr
    exact .inr ⟨hm, hr⟩

theorem recorded_setWindow {r : ReplyT ℕ} (hr : r ∈ l) (hb : r.buf = some a) :
    (srv.setWindow n l).Recorded a :=
  ⟨n, r, by rwa [setWindow_self], hb⟩

/-- A list in which every buffer that is being sent stays. -/
theorem Kept.setWindow (h : Kept srv)
    (hold : ∀ r ∈ l, r.buf ≠ none → r ∈ srv.replyWindow n)
    (hsend : ∀ x ∈ srv.sending, ∀ r ∈ srv.replyWindow n, r.buf = some x.buf → r ∈ l) :
    Kept (srv.setWindow n l) := by
  have hin : ∀ b, (srv.setWindow n l).Recorded b → srv.Recorded b := by
    rintro b ⟨m, r, hr, hb⟩
    rcases mem_setWindow hr with ⟨-, hr⟩ | ⟨-, hr⟩
    · exact ⟨n, r, hold r hr (by simp [hb]), hb⟩
    · exact ⟨m, r, hr, hb⟩
  refine ⟨?_, h.handlers, fun b hb => h.recorded b (hin b hb), h.handled, ?_⟩
  · intro m r hr hb
    rcases mem_setWindow hr with ⟨-, hr⟩ | ⟨-, hr⟩
    · exact h.present n r (hold r hr hb) hb
    · exact h.present m r hr hb
  · intro x hx hown
    obtain ⟨m, r, hr, hb⟩ := h.sending x hx hown
    by_cases hm : m = n
    · subst hm
      exact recorded_setWindow (hsend x hx r hr hb) hb
    · exact ⟨m, r, by rwa [setWindow_of_ne hm], hb⟩

theorem not_inUse_setWindow (hold : ∀ r ∈ l, r.buf ≠ none → r ∈ srv.replyWindow n)
    (ha : ¬srv.InUse a) : ¬(srv.setWindow n l).InUse a := by
  rintro (⟨m, r, hr, hb⟩ | hh | hans)
  · rcases mem_setWindow hr with ⟨-, hr⟩ | ⟨-, hr⟩
    · exact ha (.inl ⟨n, r, hold r hr (by simp [hb]), hb⟩)
    · exact ha (.inl ⟨m, r, hr, hb⟩)
  · exact ha (.inr (.inl hh))
  · exact ha (.inr (.inr hans))

/-- A reply is recorded in a buffer that nobody else has. -/
theorem Kept.record (h : Kept srv) (ha : ¬srv.InUse a) {xid : ℕ} {sz : ℤ}
    (hadd : addReply xid a sz (srv.replyWindow n) = some l) : Kept (srv.setWindow n l) := by
  have hin : ∀ b, (srv.setWindow n l).Recorded b → srv.Recorded b ∨ b = a := by
    rintro b ⟨m, r, hr, hb⟩
    rcases mem_setWindow hr with ⟨-, hr⟩ | ⟨-, hr⟩
    · rcases mem_of_addReply hadd hr with hr | ⟨hr, -⟩
      · exact .inl ⟨n, r, hr, hb⟩
      · exact .inr (Option.some.inj (hb.symm.trans hr))
    · exact .inl ⟨m, r, hr, hb⟩
  refine ⟨?_, h.handlers, ?_, h.handled, ?_⟩
  · intro m r hr hb
    rcases mem_setWindow hr with ⟨-, hr⟩ | ⟨-, hr⟩
    · rcases mem_of_addReply hadd hr with hr | ⟨-, hcb⟩
      · exact h.present n r hr hb
      · exact hcb
    · exact h.present m r hr hb
  · intro b hb
    rcases hin b hb with hb | rfl
    · exact h.recorded b hb
    · exact ⟨fun hh => ha (.inr (.inl hh)), fun hans => ha (.inr (.inr hans))⟩
  · intro x hx hown
    obtain ⟨m, r, hr, hb⟩ := h.sending x hx hown
    by_cases hm : m = n
    · subst hm
      exact recorded_setWindow (mem_addReply hadd hr (h.present m r hr (by simp [hb]))) hb
    · exact ⟨m, r, by rwa [setWindow_of_ne hm], hb⟩

theorem Kept.answer (h : Kept srv) (ha : ¬srv.InUse a) (ret : ℤ) :
    Kept (srv.answer req a ret) :=
  h.store.pushOwn ha

theorem Kept.switch (h : Kept srv) (ha : ¬srv.InUse a)
    (hdone : ∀ b sz, st = .done b sz → ∃ n, ∃ r ∈ srv.replyWindow n, r.buf = b) :
    Kept (srv.switch req a st) := by
  cases st with
  | new => exact h.enter ha
  | inProgress => exact h
  | done b sz =>
    obtain ⟨n, r, hr, hb⟩ := hdone b sz rfl
    apply h.pushRecorded
    intro x hx
    obtain ⟨b', hb', rfl⟩ := List.mem_map.1 hx
    exact ⟨rfl, n, r, hr, hb.trans (Option.mem_toList.1 hb')⟩
  | forgotten => exact h.answer ha _

theorem Kept.dispatch (h : Kept srv) (ha : ¬srv.InUse a) {st : Option (RpcState ReplyPdu)}
    (hcalm : ∀ x ∈ srv.sending, x.buf ∉ srv.frees req)
    (hd : srv.dispatch req a = some (srv', st)) : Kept srv' := by
  unfold Server.dispatch at hd
  unfold Server.frees at hcalm
  split_ifs at hd with hold hproc hzero
  · cases hd
    exact h.answer ha _
  · cases hd
    exact h.enter ha
  · obtain ⟨⟨l, st'⟩, hc, he⟩ := Option.map_eq_some_iff.1 hd
    cases he
    rw [if_neg (by tauto)] at hcalm
    have hentries : ∀ r ∈ l, r.buf ≠ none → r ∈ srv.replyWindow req.cltNonce :=
      fun r hr hb => mem_of_check hc hr hb
    refine Kept.switch (h.setWindow hentries ?_) (not_inUse_setWindow hentries ha) ?_
    · intro x hx r hr hb
      exact mem_check hc hr hb (hcalm x hx)
    · rintro b sz rfl
      obtain ⟨r, hr, hb, -⟩ := check_done hc
      exact ⟨req.cltNonce, r, by rwa [setWindow_self], hb⟩

theorem Kept.finish (h : Kept srv) (hm : (req, a) ∈ srv.handling)
    (hf : srv.finish req a pdu = some srv') : Kept srv' := by
  obtain ⟨hexit, hfree⟩ := h.exit hm
  simp only [Server.finish] at hf
  split_ifs at hf
  · cases hf
    exact hexit.store.pushOwn hfree
  · obtain ⟨l, hadd, rfl⟩ := Option.map_eq_some_iff.1 hf
    refine (hexit.store.record hfree hadd).pushRecorded ?_
    intro x hx
    cases List.mem_singleton.1 hx
    obtain ⟨-, -, ⟨r, hr, -, -, hb, -⟩, -⟩ := addReply_spec hadd
    exact ⟨rfl, recorded_setWindow hr hb⟩

theorem Kept.step {s s' : System} {l : Option Label} (h : Kept s.server) (hs : CalmStep s l s') :
    Kept s'.server := by
  obtain ⟨hs, hcalm⟩ := hs
  cases hs with
  | call => exact h
  | leave => exact h
  | receive => exact h
  | dispatch req hm a ha hd => exact h.dispatch ha hcalm hd
  | write => exact h.store
  | move req a b hm hb => exact (h.exit hm).1.enter (not_inUse_exit hb)
  | finish req a hm ret rep hf => exact h.finish hm hf
  | send => exact h.sent
  | reuse => exact h.store

theorem kept_start (nonce : ℕ) (procs : List ℕ) : Kept (System.start nonce procs).server := by
  refine ⟨?_, List.nodup_nil, ?_, ?_, ?_⟩
  · intro n r hr
    cases hr
  · rintro a ⟨n, r, hr, -⟩
    cases hr
  · rintro a ⟨req, hm⟩
    cases hm
  · intro x hx
    cases hx

/-! ## The server without buffers -/

/-- The server of `RpcSystem` that has recorded what the buffers hold, and has sent `out`. -/
structure Mirrors (srv : Server) (t : Rpcs) (out : List (ℕ × ReplyPdu)) : Prop where
  nonce : t.nonce = srv.nonce
  procs : t.procs = srv.procs
  window : ∀ n, t.replyWindow n =
    (srv.replyWindow n).map (ReplyT.map (contents srv.memory))
  running : t.running.Perm (srv.handling.map Prod.fst)
  sending : ∀ x ∈ srv.sending, (x.cltNonce, contents srv.memory x.buf x.sz) ∈ out

variable {t t' : Rpcs} {out out' : List (ℕ × ReplyPdu)}

theorem Mirrors.mono (h : Mirrors srv t out) (hsub : out ⊆ out') : Mirrors srv t out' :=
  ⟨h.nonce, h.procs, h.window, h.running, fun x hx => hsub (h.sending x hx)⟩

theorem contents_store {b : ℕ} (hb : b ≠ a) :
    contents (srv.store a c).memory b = contents srv.memory b := by
  funext sz
  simp only [contents, Server.store, Function.update_of_ne hb]

/-- What is written where nothing is recorded or answered is not seen. -/
theorem Mirrors.store (h : Mirrors srv t out) (hk : Kept srv) (hr : ¬srv.Recorded a)
    (hans : ¬srv.Answered a) : Mirrors (srv.store a c) t out := by
  refine ⟨h.nonce, h.procs, ?_, h.running, ?_⟩
  · intro n
    rw [h.window n]
    apply reading_congr
    intro r hm b hb
    refine (contents_store ?_).symm
    rintro rfl
    exact hr ⟨n, r, hm, hb⟩
  · intro x hx
    have hne : x.buf ≠ a := by
      rintro rfl
      cases hown : x.own with
      | false => exact hr (hk.sending x hx hown)
      | true => exact hans ⟨x, hx, hown, rfl⟩
    rw [contents_store hne]
    exact h.sending x hx

theorem Mirrors.enter (h : Mirrors srv t out) :
    Mirrors (srv.enter req a) { t with running := t.running ++ [req] } out := by
  refine ⟨h.nonce, h.procs, h.window, ?_, h.sending⟩
  have hmap : (srv.enter req a).handling.map Prod.fst = srv.handling.map Prod.fst ++ [req] := by
    simp [Server.enter]
  rw [hmap]
  exact h.running.append_right [req]

theorem Mirrors.exit (h : Mirrors srv t out) (hm : (req, a) ∈ srv.handling) :
    Mirrors (srv.exit req a) { t with running := t.running.erase req } out := by
  refine ⟨h.nonce, h.procs, h.window, ?_, h.sending⟩
  have hperm := (h.running.trans ((List.perm_cons_erase hm).map Prod.fst)).erase req
  rwa [List.map_cons, List.erase_cons_head] at hperm

theorem Mirrors.push {xs : List Sending} (h : Mirrors srv t out)
    (hxs : ∀ x ∈ xs, (x.cltNonce, contents srv.memory x.buf x.sz) ∈ out) :
    Mirrors (srv.push xs) t out := by
  refine ⟨h.nonce, h.procs, h.window, h.running, ?_⟩
  intro x hx
  rcases List.mem_append.1 hx with hx | hx
  · exact h.sending x hx
  · exact hxs x hx

theorem Mirrors.setWindow (h : Mirrors srv t out) (n : ℕ) (l : List (ReplyT ℕ)) :
    Mirrors (srv.setWindow n l)
      (t.setWindow n (l.map (ReplyT.map (contents srv.memory)))) out := by
  refine ⟨h.nonce, h.procs, ?_, h.running, h.sending⟩
  intro m
  by_cases hm : m = n
  · subst hm
    simp only [Server.setWindow, Rpcs.setWindow, Function.update_self]
  · simp only [Server.setWindow, Rpcs.setWindow, Function.update_of_ne hm]
    exact h.window m

theorem contents_write (srv : Server) (a : ℕ) (c : Cell) (pdu : ReplyPdu) :
    contents (srv.store a (c.write pdu)).memory a pdu.size = pdu := by
  simp only [contents, Server.store, Function.update_self]
  exact c.read_write pdu

theorem Mirrors.answer (h : Mirrors srv t out) (hk : Kept srv) (ha : ¬srv.InUse a) {ret : ℤ}
    (hout : (req.cltNonce, ⟨req.xid, ret, []⟩) ∈ out) : Mirrors (srv.answer req a ret) t out := by
  apply (h.store hk (fun hr => ha (.inl hr)) fun hans => ha (.inr (.inr hans))).push
  intro x hx
  cases List.mem_singleton.1 hx
  have hread := contents_write srv a (srv.memory a) ⟨req.xid, ret, []⟩
  rwa [← hread] at hout

theorem Mirrors.switch (st : RpcState ℕ) (h : Mirrors srv t out) (hk : Kept srv) (ha : ¬srv.InUse a) :
    Mirrors (srv.switch req a st) (t.switch req (st.map (contents srv.memory))).1
      (out ++ (t.switch req (st.map (contents srv.memory))).2.map (req.cltNonce, ·)) := by
  cases st with
  | new => exact h.enter.mono (List.subset_append_left _ _)
  | inProgress => exact h.mono (List.subset_append_left _ _)
  | done b sz =>
    apply (h.mono (List.subset_append_left _ _)).push
    intro x hx
    obtain ⟨b', hb, rfl⟩ := List.mem_map.1 hx
    obtain rfl : b = some b' := Option.mem_toList.1 hb
    exact List.mem_append_right _ List.mem_cons_self
  | forgotten =>
    exact (h.mono (List.subset_append_left _ _)).answer hk ha
      (List.mem_append_right _ List.mem_cons_self)

/-- A request is taken up as by the server without buffers. -/
theorem Mirrors.dispatch (h : Mirrors srv t out) (hk : Kept srv) (ha : ¬srv.InUse a)
    {st : Option (RpcState ReplyPdu)} (hcalm : ∀ x ∈ srv.sending, x.buf ∉ srv.frees req)
    (hd : srv.dispatch req a = some (srv', st)) :
    ∃ t' sent, t.dispatch req = some (t', st, sent) ∧
      Mirrors srv' t' (out ++ sent.map (req.cltNonce, ·)) := by
  unfold Server.dispatch at hd
  unfold Server.frees at hcalm
  unfold Rpcs.dispatch
  rw [h.nonce, h.procs]
  split_ifs at hd ⊢ with hold hproc hzero
  · cases hd
    exact ⟨_, _, rfl, (h.mono (List.subset_append_left _ _)).answer hk ha
      (List.mem_append_right _ List.mem_cons_self)⟩
  · cases hd
    exact ⟨_, _, rfl, h.switch .new hk ha⟩
  · obtain ⟨⟨l, st'⟩, hc, he⟩ := Option.map_eq_some_iff.1 hd
    cases he
    rw [if_neg (by tauto)] at hcalm
    have hentries : ∀ r ∈ l, r.buf ≠ none → r ∈ srv.replyWindow req.cltNonce :=
      fun r hr hb => mem_of_check hc hr hb
    have hset : Kept (srv.setWindow req.cltNonce l) :=
      hk.setWindow hentries fun x hx r hr hb => mem_check hc hr hb (hcalm x hx)
    rw [h.window, check_map, hc]
    exact ⟨_, _, rfl,
      (h.setWindow req.cltNonce l).switch st' hset (not_inUse_setWindow hentries ha)⟩

/-- A reply is recorded as by the server without buffers. -/
theorem Mirrors.finish (h : Mirrors srv t out) (hk : Kept srv) (hm : (req, a) ∈ srv.handling)
    (hf : srv.finish req a pdu = some srv') :
    ∃ t', t.finish req pdu = some t' ∧ Mirrors srv' t' (out ++ [(req.cltNonce, pdu)]) := by
  obtain ⟨hexit, hfree⟩ := hk.exit hm
  have hstored : Mirrors ((srv.exit req a).store a ((srv.memory a).write pdu))
      { t with running := t.running.erase req } (out ++ [(req.cltNonce, pdu)]) :=
    ((h.exit hm).store hexit (fun hr => hfree (.inl hr))
      fun hans => hfree (.inr (.inr hans))).mono (List.subset_append_left _ _)
  have hread : contents ((srv.exit req a).store a ((srv.memory a).write pdu)).memory a pdu.size =
      pdu := contents_write ..
  simp only [Server.finish] at hf
  simp only [Rpcs.finish]
  split_ifs at hf ⊢
  · cases hf
    refine ⟨_, rfl, hstored.push ?_⟩
    intro x hx
    cases List.mem_singleton.1 hx
    rw [hread]
    exact List.mem_append_right _ List.mem_cons_self
  · obtain ⟨l, hadd, rfl⟩ := Option.map_eq_some_iff.1 hf
    have hwin := hstored.window req.cltNonce
    have hrec := addReply_map
      (contents ((srv.exit req a).store a ((srv.memory a).write pdu)).memory) req.xid a pdu.size
      (((srv.exit req a).store a ((srv.memory a).write pdu)).replyWindow req.cltNonce)
    rw [hread, ← hwin, hadd] at hrec
    refine ⟨_, by rw [hrec]; rfl, (hstored.setWindow req.cltNonce l).push ?_⟩
    intro x hx
    cases List.mem_singleton.1 hx
    change (req.cltNonce, contents ((srv.exit req a).store a
      ((srv.memory a).write pdu)).memory a pdu.size) ∈ _
    rw [hread]
    exact List.mem_append_right _ List.mem_cons_self

theorem Mirrors.sent (h : Mirrors srv t out) :
    Mirrors { srv with sending := srv.sending.erase x } t out :=
  ⟨h.nonce, h.procs, h.window, h.running, fun y hy => h.sending y (List.mem_of_mem_erase hy)⟩

/-- A buffer gets larger. -/
theorem Mirrors.move (h : Mirrors srv t out) {b : ℕ} (hm : (req, a) ∈ srv.handling) :
    Mirrors ((srv.exit req a).enter req b) t out := by
  refine ⟨h.nonce, h.procs, h.window, ?_, h.sending⟩
  have hmap : ((srv.exit req a).enter req b).handling.map Prod.fst =
      (srv.handling.erase (req, a)).map Prod.fst ++ [req] := by
    simp [Server.enter, Server.exit]
  rw [hmap]
  exact (h.running.trans ((List.perm_cons_erase hm).map Prod.fst)).trans
    (List.perm_append_singleton _ _).symm

/-- What a request is taken for does not depend on the buffers. -/
theorem Mirrors.taken (h : Mirrors srv t out) {st : Option (RpcState ReplyPdu)}
    (hd : srv.dispatch req a = some (srv', st)) :
    ∃ t' sent, t.dispatch req = some (t', st, sent) := by
  unfold Server.dispatch at hd
  unfold Rpcs.dispatch
  rw [h.nonce, h.procs]
  split_ifs at hd ⊢
  · cases hd
    exact ⟨_, _, rfl⟩
  · cases hd
    exact ⟨_, _, rfl⟩
  · obtain ⟨⟨l, st'⟩, hc, he⟩ := Option.map_eq_some_iff.1 hd
    cases he
    rw [h.window, check_map, hc]
    exact ⟨_, _, rfl⟩

/-! ## Runs -/

/-- The system without buffers in which what is being sent has been sent. -/
structure Shows (s : System) (t : RpcSystem.System) : Prop where
  clients : t.clients = s.clients
  requests : t.requests = s.requests
  server : Mirrors s.server t.server t.replies
  replies : s.replies ⊆ t.replies

variable {s s' : System} {lab : Option Label} {tr : List (Option Label)} {nonce : ℕ}
  {procs : List ℕ}

theorem Shows.step {t : RpcSystem.System} (h : Shows s t) (hk : Kept s.server)
    (hs : CalmStep s lab s') :
    ∃ t', Run RpcSystem.Step t lab.toList t' ∧ Shows s' t' := by
  obtain ⟨hs, hcalm⟩ := hs
  obtain ⟨clients, server, requests, replies⟩ := t
  obtain ⟨hclients, hrequests, hsrv, hrep⟩ := h
  dsimp only at hclients hrequests hsrv hrep
  subst hclients hrequests
  cases hs with
  | call n proc srvNonce args hn =>
    exact ⟨_, .single (.call n proc srvNonce args hn), rfl, rfl, hsrv, hrep⟩
  | leave n xid ca hca => exact ⟨_, .single (.leave n xid ca hca), rfl, rfl, hsrv, hrep⟩
  | receive n pdu hm =>
    exact ⟨_, .single (.receive n pdu (hrep hm)), rfl, rfl, hsrv, hrep⟩
  | dispatch req hm a ha hd =>
    obtain ⟨t', sent, ht, hm'⟩ := hsrv.dispatch hk ha hcalm hd
    exact ⟨_, .single (.dispatch req hm ht), rfl, rfl, hm',
      fun p hp => List.mem_append_left _ (hrep hp)⟩
  | finish req a hm ret rep hf =>
    obtain ⟨t', ht, hm'⟩ := hsrv.finish hk hm hf
    have hrun : req ∈ server.running :=
      hsrv.running.mem_iff.2 (List.mem_map.2 ⟨(req, a), hm, rfl⟩)
    exact ⟨_, .single (.finish req hrun ret rep ht), rfl, rfl, hm',
      fun p hp => List.mem_append_left _ (hrep hp)⟩
  | write req a hm c =>
    refine ⟨_, .nil, rfl, rfl, hsrv.store hk ?_ (hk.handled a ⟨req, hm⟩), hrep⟩
    exact fun hr => (hk.recorded a hr).1 ⟨req, hm⟩
  | move req a b hm hb => exact ⟨_, .nil, rfl, rfl, hsrv.move hm, hrep⟩
  | send x hx =>
    refine ⟨_, .nil, rfl, rfl, hsrv.sent, ?_⟩
    intro p hp
    rcases List.mem_append.1 hp with hp | hp
    · exact hrep hp
    · rw [List.mem_singleton.1 hp]
      exact hsrv.sending x hx
  | reuse a ha c =>
    exact ⟨_, .nil, rfl, rfl, hsrv.store hk (fun hr => ha (.inl hr))
      fun hans => ha (.inr (.inr hans)), hrep⟩

/-- A run that frees nothing that is being sent shows a run of the system without buffers, with
the same labels. -/
theorem run_shows (hr : Run CalmStep (System.start nonce procs) tr s) : Kept s.server ∧
    ∃ t, Run RpcSystem.Step (RpcSystem.System.start nonce procs) tr.reduceOption t ∧
      Shows s t := by
  refine hr.history_invariant (I := fun tr s => Kept s.server ∧
    ∃ t, Run RpcSystem.Step (RpcSystem.System.start nonce procs) tr.reduceOption t ∧ Shows s t)
    ⟨kept_start nonce procs, _, .nil, rfl, rfl, ?_, List.Subset.refl _⟩ ?_
  · refine ⟨rfl, rfl, fun _ => rfl, List.Perm.refl _, ?_⟩
    intro x hx
    cases hx
  · rintro tr b l c - ⟨hk, t, ht, hsh⟩ hs
    obtain ⟨t', ht', hsh'⟩ := hsh.step hk hs
    refine ⟨hk.step hs, t', ?_, hsh'⟩
    have hlabels : (tr ++ [l]).reduceOption = tr.reduceOption ++ l.toList :=
      filterMap_concat id tr l
    rw [hlabels]
    exact ht.append ht'

/-- In every run in which no client runs out of xids and no reply is freed while it is sent: a
handler is run at most once for a nonce and xid; a call that returns a number that is not negative
has had its handler run exactly once, and holds the reply of that run; and no request whose call
is waiting is forgotten. -/
theorem calls_at_most_once (hr : Run CalmStep (System.start nonce procs) tr s)
    (hcalls : ∀ n, tr.reduceOption.countP (isCall n) < 2 ^ 32 - 1) :
    (∀ n xid, n ≠ 0 → tr.reduceOption.countP (isStart n xid) ≤ 1) ∧
    (∀ n xid ret rep, .returned n xid ret rep ∈ tr.reduceOption → 0 ≤ ret →
      tr.reduceOption.countP (isStart n xid) = 1 ∧ tr.reduceOption.countP (isEnd n xid) = 1 ∧
        ∃ req pdu, .finished req pdu ∈ tr.reduceOption ∧ req.cltNonce = n ∧ req.xid = xid ∧
          rep = some pdu ∧ ret = pdu.ret) ∧
    (∀ req ∈ s.requests, ∀ ca, (s.clients req.cltNonce).calls req.xid = some ca → ca.done = false →
      ∀ a srv, s.server.dispatch req a ≠ some (srv, some .forgotten)) := by
  obtain ⟨-, t, ht, hshow⟩ := run_shows hr
  obtain ⟨honce, hreturned, hforgotten⟩ := at_most_once ht hcalls
  refine ⟨honce, hreturned, ?_⟩
  intro req hm ca hca hwait a srv hd
  obtain ⟨t', sent, hd'⟩ := hshow.server.taken hd
  rw [← hshow.requests] at hm
  rw [← hshow.clients] at hca
  exact hforgotten req hm ca hca hwait t' sent hd'

theorem isStart_of_ne {m xid : ℕ} {st : Option (RpcState ReplyPdu)} (hm : req.cltNonce ≠ m) :
    isStart m xid (.dispatched req st) = false := by
  rcases st with _ | (_ | _ | _ | _)
  · rfl
  · simp [isStart, isFor, hm]
  · rfl
  · rfl
  · rfl

theorem switch_window : (srv.switch req a st).replyWindow = srv.replyWindow := by
  cases st <;> rfl

theorem dispatch_others {m : ℕ} {st : Option (RpcState ReplyPdu)}
    (hd : srv.dispatch req a = some (srv', st)) (hm : m ≠ req.cltNonce) :
    srv'.replyWindow m = srv.replyWindow m := by
  unfold Server.dispatch at hd
  split_ifs at hd
  · cases hd
    rfl
  · cases hd
    rfl
  · obtain ⟨⟨l, st'⟩, -, he⟩ := Option.map_eq_some_iff.1 hd
    cases he
    rw [switch_window, setWindow_of_ne hm]

/-- A handler that has returned without a failed assertion changed at most the list of its client,
in which its request stands. -/
theorem finish_window (hf : srv.finish req a pdu = some srv') :
    (∀ m, m ≠ req.cltNonce → srv'.replyWindow m = srv.replyWindow m) ∧
      (req.cltNonce ≠ 0 → addReply req.xid a pdu.size (srv.replyWindow req.cltNonce) =
        some (srv'.replyWindow req.cltNonce)) := by
  simp only [Server.finish] at hf
  split_ifs at hf with hneg hzero
  · cases hf
    exact ⟨fun _ _ => rfl, fun hne => absurd hzero hne⟩
  · obtain ⟨l, hadd, rfl⟩ := Option.map_eq_some_iff.1 hf
    refine ⟨fun m hm => setWindow_of_ne hm, fun _ => ?_⟩
    dsimp only [Server.push]
    rw [setWindow_self]
    exact hadd

/-- What a step, calm or not, means for the reply list of one client. -/
theorem list_step (hn : n ≠ 0) (hs : Step s lab s') :
    ∃ evs, Run ReplyWindow.Step (s.server.replyWindow n) evs (s'.server.replyWindow n) ∧
      ∀ xid, evs.countP (isNew xid) = lab.toList.countP (isStart n xid) := by
  cases hs with
  | call => exact ⟨[], .nil, fun _ => rfl⟩
  | leave => exact ⟨[], .nil, fun _ => rfl⟩
  | receive => exact ⟨[], .nil, fun _ => rfl⟩
  | write => exact ⟨[], .nil, fun _ => rfl⟩
  | move => exact ⟨[], .nil, fun _ => rfl⟩
  | send => exact ⟨[], .nil, fun _ => rfl⟩
  | reuse => exact ⟨[], .nil, fun _ => rfl⟩
  | @dispatch req hm a ha srv st hd =>
    by_cases hreq : req.cltNonce = n
    · subst hreq
      unfold Server.dispatch at hd
      split_ifs at hd
      · cases hd
        exact ⟨[], .nil, fun _ => rfl⟩
      · obtain ⟨⟨l, st'⟩, hc, he⟩ := Option.map_eq_some_iff.1 hd
        cases he
        rw [switch_window, setWindow_self]
        refine ⟨_, .single (.check (lt_of_check hc) hc), ?_⟩
        intro xid
        cases st' with
        | new => simp [isNew, isStart, isFor, RpcState.map]
        | _ => rfl
    · rw [dispatch_others hd (Ne.symm hreq)]
      refine ⟨[], .nil, ?_⟩
      intro xid
      rw [Option.toList_some, List.countP_singleton, isStart_of_ne hreq]
      rfl
  | finish req a hm ret rep hf =>
    obtain ⟨hothers, hadd⟩ := finish_window hf
    by_cases hreq : req.cltNonce = n
    · subst hreq
      exact ⟨_, .single (.reply (hadd hn)), fun _ => rfl⟩
    · rw [hothers n (Ne.symm hreq)]
      exact ⟨[], .nil, fun _ => rfl⟩

/-- Whatever is freed when, a handler is run at most once for a nonce and xid. -/
theorem started_once (hr : Run Step (System.start nonce procs) tr s) (hn : n ≠ 0) (xid : ℕ) :
    tr.reduceOption.countP (isStart n xid) ≤ 1 := by
  obtain ⟨evs, hrun, hcount⟩ : ∃ evs, Run ReplyWindow.Step [] evs (s.server.replyWindow n) ∧
      ∀ xid, evs.countP (isNew xid) = tr.reduceOption.countP (isStart n xid) := by
    refine hr.history_invariant (I := fun tr s => ∃ evs,
      Run ReplyWindow.Step [] evs (s.server.replyWindow n) ∧
        ∀ xid, evs.countP (isNew xid) = tr.reduceOption.countP (isStart n xid))
      ⟨[], .nil, fun _ => rfl⟩ ?_
    rintro tr b l c - ⟨evs, hrun, hcount⟩ hs
    obtain ⟨evs', hrun', hcount'⟩ := list_step hn hs
    refine ⟨evs ++ evs', hrun.append hrun', ?_⟩
    intro xid
    have hlabels : (tr ++ [l]).reduceOption = tr.reduceOption ++ l.toList :=
      filterMap_concat id tr l
    rw [hlabels, List.countP_append, List.countP_append, hcount, hcount']
  rw [← hcount xid]
  exact (run_remembers hrun).once xid

/-- The server keeps no list of a client that has not asked for anything. -/
theorem window_of_unasked (hr : Run Step (System.start nonce procs) tr s) :
    ∀ n, (∀ req ∈ s.requests, req.cltNonce ≠ n) → s.server.replyWindow n = [] := by
  refine hr.invariant (I := fun s => ∀ n, (∀ req ∈ s.requests, req.cltNonce ≠ n) →
    s.server.replyWindow n = []) (fun _ _ => rfl) ?_
  intro s l s' ih hs n hn
  cases hs with
  | call => exact ih n fun req hm => hn req (List.mem_append_left _ hm)
  | dispatch req hm a ha hd => exact (dispatch_others hd (hn req hm).symm).trans (ih n hn)
  | finish req a hm ret rep hf =>
    obtain ⟨hothers, hadd⟩ := finish_window hf
    by_cases hreq : req.cltNonce = n
    · -- nothing can be recorded in an empty list
      subst hreq
      by_cases hzero : req.cltNonce = 0
      · simp only [Server.finish, hzero, if_true] at hf
        split_ifs at hf
        cases hf
        exact ih _ hn
      · have hsome := hadd hzero
        rw [ih _ hn] at hsome
        cases hsome
    · rw [hothers n (Ne.symm hreq)]
      exact ih n hn
  | _ => exact ih n hn

/-- Whether a buffer is in use shows in the lists of the clients that have asked. -/
theorem not_inUse_of_run (hr : Run Step (System.start nonce procs) tr s)
    (hwindow : ∀ req ∈ s.requests, ∀ r ∈ s.server.replyWindow req.cltNonce, r.buf ≠ some a)
    (hhandling : ∀ p ∈ s.server.handling, p.2 ≠ a)
    (hsending : ∀ x ∈ s.server.sending, x.own = true → x.buf ≠ a) : ¬s.server.InUse a := by
  rintro (⟨n, r, hr', hb⟩ | ⟨req, hm⟩ | ⟨x, hx, hown, hb⟩)
  · by_cases hn : ∃ req ∈ s.requests, req.cltNonce = n
    · obtain ⟨req, hm, rfl⟩ := hn
      exact hwindow req hm r hr' hb
    · have hall : ∀ req ∈ s.requests, req.cltNonce ≠ n := fun req hm he => hn ⟨req, hm, he⟩
      rw [window_of_unasked hr n hall] at hr'
      cases hr'
  · exact hhandling (req, a) hm rfl
  · exact hsending x hx hown hb

theorem run_of_calm (hr : Run CalmStep (System.start nonce procs) tr s) :
    Run Step (System.start nonce procs) tr s :=
  hr.mono fun _ _ _ h => h.1

/-- The request of call `xid` to procedure 7 of server 9, by client 1. -/
def asking (xid xidRep : ℕ) : Request := ⟨xid, 7, 1, 9, xidRep, [5]⟩

/-- The first request arrives twice before the third frees its reply. -/
theorem calls_at_most_once_repeated : ∃ tr s, Run CalmStep (System.start 9 [7]) tr s ∧
    .dispatched (asking 1 0) (some (.done (some ⟨1, 0, [6]⟩) 25)) ∈ tr.reduceOption ∧
    ¬s.server.InUse 1 ∧
    ∃ req pdu, .finished req pdu ∈ tr.reduceOption ∧ req.cltNonce = 1 ∧ req.xid = 1 ∧
      some ⟨1, 0, [6]⟩ = some pdu ∧ 0 = pdu.ret := by
  have h₁ : Run CalmStep (System.start 9 [7]) _ _ :=
    .snoc .nil ⟨.call 1 7 9 [5] (by decide), trivial⟩
  have h₂ := h₁.snoc ⟨.dispatch (asking 1 0) (by decide) 1
    (not_inUse_of_run (run_of_calm h₁) (by decide) (by decide) (by decide)) rfl, by decide⟩
  have h₃ := h₂.snoc ⟨.finish (asking 1 0) 1 (by decide) 0 [6] rfl, trivial⟩
  have h₄ := h₃.snoc ⟨.dispatch (asking 1 0) (by decide) 2
    (not_inUse_of_run (run_of_calm h₃) (by decide) (by decide) (by decide)) rfl, by decide⟩
  have h₅ := h₄.snoc ⟨.send ⟨1, 1, 25, false⟩ (by decide), trivial⟩
  have h₆ := h₅.snoc ⟨.send ⟨1, 1, 25, false⟩ (by decide), trivial⟩
  have h₇ := h₆.snoc ⟨.receive 1 ⟨1, 0, [6]⟩ (by decide), trivial⟩
  have h₈ := h₇.snoc ⟨.leave 1 1 ⟨some ⟨1, 0, [6]⟩, 0, true⟩ rfl, trivial⟩
  have h₉ := h₈.snoc ⟨.call 1 7 9 [5] (by decide), trivial⟩
  have h₁₀ := h₉.snoc ⟨.leave 1 2 ⟨none, 0, false⟩ rfl, trivial⟩
  have h₁₁ := h₁₀.snoc ⟨.call 1 7 9 [5] (by decide), trivial⟩
  have h₁₂ := h₁₁.snoc ⟨.dispatch (asking 3 2) (by decide) 2
    (not_inUse_of_run (run_of_calm h₁₁) (by decide) (by decide) (by decide)) rfl, by decide⟩
  have h := calls_at_most_once h₁₂ fun n => lt_of_le_of_lt List.countP_le_length (by decide)
  exact ⟨_, _, h₁₂, by decide,
    not_inUse_of_run (run_of_calm h₁₂) (by decide) (by decide) (by decide),
    (h.2.1 1 1 0 (some ⟨1, 0, [6]⟩) (by decide) (le_refl _)).2.2⟩

theorem ends_of_forall {tr : List Label} (req : Request) {pdu : ReplyPdu} {xid : ℕ}
    (h : ∀ l ∈ tr, isEnd n xid l = true → l = .finished req pdu) :
    ∀ req' pdu', .finished req' pdu' ∈ tr → req'.cltNonce = n → req'.xid = xid → pdu' = pdu := by
  intro req' pdu' hm hn hx
  cases h _ hm (isFor_iff.2 ⟨hn, hx⟩)
  rfl

/-- A thread that is to send the reply of the first call is held up until that reply is freed and
the buffer holds the reply of the fourth: the fourth call returns with a part of its reply. -/
theorem reply_freed_while_sent : ∃ tr s, Run Step (System.start 9 [7]) tr s ∧
    .returned 1 4 0 (some ⟨4, 0, [8]⟩) ∈ tr.reduceOption ∧
    ∀ req pdu, .finished req pdu ∈ tr.reduceOption → req.cltNonce = 1 → req.xid = 4 →
      pdu = ⟨4, 0, [8, 9]⟩ := by
  have h₁ : Run Step (System.start 9 [7]) _ _ := .snoc .nil (.call 1 7 9 [5] (by decide))
  have h₂ := h₁.snoc (.dispatch (asking 1 0) (by decide) 1
    (not_inUse_of_run h₁ (by decide) (by decide) (by decide)) rfl)
  have h₃ := h₂.snoc (.finish (asking 1 0) 1 (by decide) 0 [6] rfl)
  have h₄ := h₃.snoc (.send ⟨1, 1, 25, false⟩ (by decide))
  have h₅ := h₄.snoc (.receive 1 ⟨1, 0, [6]⟩ (by decide))
  have h₆ := h₅.snoc (.leave 1 1 ⟨some ⟨1, 0, [6]⟩, 0, true⟩ rfl)
  -- the request arrives again, and the thread that is to send the recorded reply is held up
  have h₇ := h₆.snoc (.dispatch (asking 1 0) (by decide) 2
    (not_inUse_of_run h₆ (by decide) (by decide) (by decide)) rfl)
  have h₈ := h₇.snoc (.call 1 7 9 [5] (by decide))
  have h₉ := h₈.snoc (.dispatch (asking 2 1) (by decide) 3
    (not_inUse_of_run h₈ (by decide) (by decide) (by decide)) rfl)
  have h₁₀ := h₉.snoc (.finish (asking 2 1) 3 (by decide) 0 [6] rfl)
  have h₁₁ := h₁₀.snoc (.send ⟨1, 3, 25, false⟩ (by decide))
  have h₁₂ := h₁₁.snoc (.receive 1 ⟨2, 0, [6]⟩ (by decide))
  have h₁₃ := h₁₂.snoc (.leave 1 2 ⟨some ⟨2, 0, [6]⟩, 0, true⟩ rfl)
  -- the third call acknowledges the second, and the first reply is freed
  have h₁₄ := h₁₃.snoc (.call 1 7 9 [5] (by decide))
  have h₁₅ := h₁₄.snoc (.dispatch (asking 3 2) (by decide) 4
    (not_inUse_of_run h₁₄ (by decide) (by decide) (by decide)) rfl)
  -- the fourth is given its buffer
  have h₁₆ := h₁₅.snoc (.call 1 7 9 [5] (by decide))
  have h₁₇ := h₁₆.snoc (.dispatch (asking 4 2) (by decide) 1
    (not_inUse_of_run h₁₆ (by decide) (by decide) (by decide)) rfl)
  have h₁₈ := h₁₇.snoc (.finish (asking 4 2) 1 (by decide) 0 [8, 9] rfl)
  have h₁₉ := h₁₈.snoc (.send ⟨1, 1, 25, false⟩ (by decide))
  have h₂₀ := h₁₉.snoc (.receive 1 ⟨4, 0, [8]⟩ (by decide))
  have h₂₁ := h₂₀.snoc (.leave 1 4 ⟨some ⟨4, 0, [8]⟩, 0, true⟩ rfl)
  exact ⟨_, _, h₂₁, by decide, ends_of_forall (asking 4 2) (by decide)⟩

end Yfs.ReplyBuffers
