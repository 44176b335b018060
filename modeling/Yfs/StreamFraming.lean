import Yfs.HostileLengths
import Yfs.Marshalling

/-!
# Framing is exact

A sender and a receiver on the two ends of a stream that keeps its order. However the bytes are cut
into pieces and whichever side gives up, the PDUs that are handed over at one end are the first of
those that were sent at the other.
-/

namespace Yfs.StreamFraming
open LabelledRuns ByteLayout NetworkOrder Connection HostileLengths
open LockProtocol (Str)
open Marshalling (rpcHeaderSz)

/-! ## Lists of frames -/

theorem length_stamp {b : Str} (h : 4 ≤ b.length) : (stamp b).length = b.length := by
  simp only [stamp, wordBytes, List.length_append, List.length_cons, List.length_nil,
    List.length_drop]
  omega

theorem wordOf_wordBytes (x : UInt32) : wordOf (wordBytes x) = x := word_of_bytes x

theorem frame_stamp {b : Str} (h : 4 ≤ b.length) (hmax : (b.length : ℤ) ≤ maxPdu) :
    Frame (stamp b) := by
  rw [← length_stamp h] at hmax
  refine ⟨by rwa [length_stamp h], hmax, ?_⟩
  have htake : (stamp b).take 4 = wordBytes (UInt32.ofNat b.length) := List.take_left' rfl
  rw [length_stamp h] at hmax ⊢
  have hlt : b.length < 2 ^ 31 := by
    unfold maxPdu at hmax
    omega
  unfold lengthWord
  rw [htake, wordOf_wordBytes]
  have hn : (UInt32.ofNat b.length).toNat = b.length := by
    rw [UInt32.toNat_ofNat']
    exact Nat.mod_eq_of_lt (by omega)
  change (UInt32.ofNat b.length).toBitVec.toInt = b.length
  rw [BitVec.toInt_eq_toNat_of_lt (by rw [UInt32.toNat_toBitVec, hn]; omega), UInt32.toNat_toBitVec, hn]

/-- A frame says where it ends. -/
theorem frame_eq_of_append {x y s t : Str} (hx : Frame x) (hy : Frame y) (h : x ++ s = y ++ t) :
    x = y := by
  have h4 : x.take 4 = y.take 4 := by
    have hxs : (x ++ s).take 4 = x.take 4 := List.take_append_of_le_length hx.four_le
    rw [← hxs, h, List.take_append_of_le_length hy.four_le]
  have hlen : x.length = y.length := by
    have := lengthWord_congr h4
    rw [hx.word, hy.word] at this
    exact_mod_cast this
  exact List.append_inj_left h hlen

theorem frames_prefix {xs ys : List Str} (hxs : ∀ x ∈ xs, Frame x) (hys : ∀ y ∈ ys, Frame y)
    (h : xs.flatten <+: ys.flatten) : xs <+: ys := by
  induction xs generalizing ys with
  | nil => exact List.nil_prefix
  | cons x xs ih =>
    have hx := hxs x List.mem_cons_self
    cases ys with
    | nil =>
      have hlen := h.length_le
      have := hx.four_le
      rw [List.flatten_cons, List.length_append, List.flatten_nil, List.length_nil] at hlen
      omega
    | cons y ys =>
      have hy := hys y List.mem_cons_self
      obtain ⟨u, hu⟩ := id h
      rw [List.flatten_cons, List.flatten_cons, List.append_assoc] at hu
      obtain rfl := frame_eq_of_append hx hy hu
      rw [List.flatten_cons, List.flatten_cons, List.prefix_append_right_inj] at h
      rw [List.prefix_cons_inj]
      exact ih (fun z hz => hxs z (List.mem_cons_of_mem _ hz))
        (fun z hz => hys z (List.mem_cons_of_mem _ hz)) h

/-- What is left of a stream of frames starts with a good size. -/
theorem not_badHere {ys : List Str} {s : Str} (hys : ∀ y ∈ ys, Frame y)
    (h : s <+: ys.flatten) : ¬BadHere s := by
  rintro ⟨hlen, hlt⟩
  cases ys with
  | nil =>
    rw [List.flatten_nil, List.prefix_nil] at h
    subst h
    simp at hlen
  | cons y ys =>
    have hy := hys y List.mem_cons_self
    have h4 : s.take 4 = y.take 4 := by
      obtain ⟨u, hu⟩ := h
      have hsu : (s ++ u).take 4 = s.take 4 := List.take_append_of_le_length hlen
      rw [← hsu, hu, List.flatten_cons, List.take_append_of_le_length hy.four_le]
    have hword := lengthWord_congr h4
    have := hy.four_le
    rw [hy.word] at hword
    omega

/-! ## The two ends of a stream -/

structure Link where
  sender : Sender := {}
  receiver : Receiver := { wire := [] }

inductive Event where
  | sent (b : Str)
  | received (log : List Entry)
  | quiet

/-- The PDUs for which `send` got the connection. -/
def sentPdus (tr : List Event) : List Str :=
  tr.filterMap fun
    | .sent b => some b
    | _ => none

/-- The PDUs that `got_pdu` has accepted. -/
def handedOver (tr : List Event) : List Str :=
  tr.flatMap fun
    | .received log => accepted log
    | _ => []

/-- The bytes that were written are on their way. -/
def Link.wrote (l : Link) (s : Sender) (out : Str) : Link :=
  ⟨s, { l.receiver with wire := l.receiver.wire ++ out }⟩

/-- What can happen on a connection. Either side can be marked dead at any time, be it by the other
direction of the same connection or from outside. -/
inductive LinkStep (junk : ℕ → UInt8) : Link → Event → Link → Prop where
  | send {l : Link} {w : Wrote} {b out : Str} {s : Sender} (lower : rpcHeaderSz ≤ b.length)
      (upper : (b.length : ℤ) ≤ maxPdu) (live : l.sender.dead = false)
      (free : l.sender.wpdu.buf = none) (hx : Connection.send w b l.sender = some (s, out)) :
      LinkStep junk l (.sent b) (l.wrote s out)
  | writeCb {l : Link} {w : Wrote} {out : Str} {s : Sender}
      (hx : Connection.writeCb w l.sender = some (s, out)) : LinkStep junk l .quiet (l.wrote s out)
  | finish {l : Link} (waits : l.sender.wpdu.buf ≠ none) (done : l.sender.Done) :
      LinkStep junk l .quiet { l with sender := { l.sender with wpdu := {} } }
  | readCb {l : Link} {log : List Entry} {r : Receiver} (hx : ReadStep junk l.receiver log r) :
      LinkStep junk l (.received log) { l with receiver := r }
  | closeSender {l : Link} :
      LinkStep junk l .quiet { l with sender := { l.sender with dead := true } }
  | closeReceiver {l : Link} :
      LinkStep junk l .quiet { l with receiver := { l.receiver with dead := true } }

variable {junk : ℕ → UInt8} {l l' : Link} {sent acc : List Str} {out : Str}

/-! ## The sender -/

/-- The buffer holds the PDU with its size, or will when the first byte is written. -/
def Stamped (b mem : Str) (k : ℕ) : Prop :=
  (if k = 0 then patch mem 0 (wordBytes (UInt32.ofNat b.length)) else mem) = stamp b

theorem stamped_self (b : Str) : Stamped b b 0 := rfl

theorem stamped_stamp (b : Str) (k : ℕ) : Stamped b (stamp b) k := by
  unfold Stamped
  split
  · rfl
  · rfl

/-- What has gone out of the PDUs sent so far. -/
inductive SenderOk (sent : List Str) (out : Str) (s : Sender) : Prop where
  | free (idle : s.wpdu = {}) (whole : out = (sent.map stamp).flatten)
  | busy {front : List Str} {b mem : Str} {k : ℕ} (last : sent = front ++ [b])
      (wpdu : s.wpdu = ⟨some mem, b.length, k⟩) (le : k ≤ b.length) (stamped : Stamped b mem k)
      (part : out = (front.map stamp).flatten ++ (stamp b).take k)
  | dead (dead : s.dead = true) (part : out <+: (sent.map stamp).flatten)

theorem SenderOk.isPrefix {s : Sender} (h : SenderOk sent out s) :
    out <+: (sent.map stamp).flatten := by
  cases h with
  | free idle whole => rw [whole]
  | busy last wpdu le stamped part =>
    rw [part, last, List.map_append, List.flatten_append, List.prefix_append_right_inj]
    simpa using List.take_prefix _ _
  | dead dead part => exact part

theorem writepdu_outcome {w : Wrote} {b mem new : Str} {k : ℕ} {succ : Bool} {p : Charbuf}
    (hx : writepdu w ⟨some mem, b.length, k⟩ = some (succ, p, new)) (le : k ≤ b.length)
    (stamped : Stamped b mem k) :
    (succ = true ∧ ∃ mem' k', p = ⟨some mem', b.length, (k' : ℕ)⟩ ∧ k' ≤ b.length ∧
        Stamped b mem' k' ∧ (stamp b).take k ++ new = (stamp b).take k') ∨
      succ = false ∧ new = [] := by
  have hneg : ¬(k : ℤ) < 0 := by omega
  have hmem : (if (k : ℤ) = 0 then
      patch ((some mem).getD []) 0 (wordBytes (UInt32.ofNat (b.length : ℤ).toNat))
      else (some mem).getD []) = stamp b := by
    unfold Stamped at stamped
    simpa only [Nat.cast_eq_zero, Option.getD_some, Int.toNat_natCast] using stamped
  unfold writepdu at hx
  simp only [hneg, if_false, hmem] at hx
  by_cases hk : (k : ℤ) = b.length
  · rw [if_pos hk] at hx
    cases hx
    exact .inl ⟨rfl, mem, k, rfl, le, stamped, List.append_nil _⟩
  · rw [if_neg hk] at hx
    cases w with
    | bytes n =>
      by_cases hn : (k : ℤ) + n ≤ b.length
      · simp only [hn, if_true, Option.some.injEq, Prod.mk.injEq, Int.toNat_natCast] at hx
        obtain ⟨rfl, rfl, rfl⟩ := hx
        refine .inl ⟨rfl, stamp b, k + n, by push_cast; rfl, by omega, stamped_stamp b _, ?_⟩
        exact (List.take_add ..).symm
      · simp only [hn, if_false, reduceCtorEq] at hx
    | again =>
      cases hx
      exact .inl ⟨rfl, stamp b, k, rfl, le, stamped_stamp b k, List.append_nil _⟩
    | failed =>
      cases hx
      exact .inr ⟨rfl, rfl⟩

theorem flatten_whole {front : List Str} {b : Str} {k : ℕ} (hb : 4 ≤ b.length)
    (hk : b.length ≤ k) :
    (front.map stamp).flatten ++ (stamp b).take k = ((front ++ [b]).map stamp).flatten := by
  rw [List.take_of_length_le (by rwa [length_stamp hb]), List.map_append, List.flatten_append]
  simp

/-- `send` takes a free connection for one more PDU. -/
theorem SenderOk.take {s s' : Sender} {w : Wrote} {b new : Str} {succ : Bool}
    (h : SenderOk sent out s) (live : s.dead = false) (free : s.wpdu.buf = none)
    (hx : s.take w b = some (succ, s', new)) :
    SenderOk (sent ++ [b]) (out ++ new) s' ∧ s'.dead = !succ := by
  have hout : out = (sent.map stamp).flatten := by
    cases h with
    | free idle whole => exact whole
    | busy last wpdu =>
      rw [wpdu] at free
      cases free
    | dead dead =>
      rw [dead] at live
      cases live
  obtain ⟨⟨succ', p, new'⟩, hw, he⟩ := Option.map_eq_some_iff.1 hx
  cases he
  refine ⟨?_, by rw [live, Bool.false_or]⟩
  obtain ⟨rfl, mem', k', rfl, le, stamped, grown⟩ | ⟨rfl, rfl⟩ :=
    writepdu_outcome hw (Nat.zero_le _) (stamped_self b)
  · rw [List.take_zero, List.nil_append] at grown
    subst grown
    exact .busy rfl rfl le stamped (by rw [hout])
  · refine .dead (by rw [Bool.not_false, Bool.or_true]) ?_
    rw [hout, List.append_nil, List.map_append, List.flatten_append]
    exact List.prefix_append _ _

theorem SenderOk.finish {s : Sender} (h : SenderOk sent out s) (hlen : ∀ b ∈ sent.getLast?, 4 ≤ b.length)
    (done : s.Done) : SenderOk sent out { s with wpdu := {} } := by
  cases h with
  | free idle whole => exact .free rfl whole
  | dead dead part => exact .dead dead part
  | @busy front b mem k last wpdu le stamped part =>
    rcases done with dead | neg | whole
    · exact .dead dead (SenderOk.busy last wpdu le stamped part).isPrefix
    · rw [wpdu] at neg
      dsimp only at neg
      omega
    · rw [wpdu] at whole
      dsimp only at whole
      have hb : 4 ≤ b.length := hlen b (by rw [last, List.getLast?_concat]; rfl)
      exact .free rfl (by rw [part, last, flatten_whole hb (by omega)])

theorem SenderOk.send {s s' : Sender} {w : Wrote} {b new : Str} (h : SenderOk sent out s)
    (lower : 4 ≤ b.length) (live : s.dead = false) (free : s.wpdu.buf = none)
    (hx : Connection.send w b s = some (s', new)) : SenderOk (sent ++ [b]) (out ++ new) s' := by
  obtain ⟨⟨succ, s₁, new₁⟩, ht, he⟩ := Option.map_eq_some_iff.1 hx
  obtain ⟨hok, hdead⟩ := h.take live free ht
  dsimp only at he
  split_ifs at he with hdone
  · cases he
    refine hok.finish ?_ ?_
    · intro b' hb'
      rw [List.getLast?_concat, Option.mem_some_iff] at hb'
      rwa [← hb']
    · rcases hdone with rfl | hall
      · exact .inl hdead
      · exact .inr (.inr hall.ge)
  · cases he
    exact hok

theorem SenderOk.writeCb {s s' : Sender} {w : Wrote} {new : Str} (h : SenderOk sent out s)
    (hx : Connection.writeCb w s = some (s', new)) : SenderOk sent (out ++ new) s' := by
  obtain ⟨hlive, ⟨-, rfl, rfl⟩ | ⟨hsz, succ, p, hw, rfl⟩⟩ := writeCb_cases hx
  · rwa [List.append_nil]
  cases h with
  | free idle whole =>
    rw [idle] at hsz
    exact absurd rfl hsz
  | dead dead => exact absurd (hlive.symm.trans dead) Bool.false_ne_true
  | @busy front b mem k last wpdu le stamped part =>
    rw [wpdu] at hw
    subst last part
    obtain ⟨rfl, mem', k', rfl, le', stamped', grown⟩ | ⟨rfl, rfl⟩ := writepdu_outcome hw le stamped
    · exact .busy rfl rfl le' stamped' (by rw [List.append_assoc, grown])
    · refine .dead rfl ?_
      rw [List.append_nil]
      exact (SenderOk.busy rfl wpdu le stamped rfl).isPrefix

/-! ## The receiver -/

/-- What has been made of the bytes that went out. -/
structure ReceiverOk (frames : List Str) (out : Str) (acc : List Str) (r : Receiver) : Prop where
  isPrefix : acc <+: frames
  stream : r.dead = false → r.aborted = false →
    ∃ cur, Shape r.rpdu cur ∧ acc.flatten ++ (cur ++ r.wire) = out

theorem ReceiverOk.wrote {frames : List Str} {r : Receiver} {new : Str}
    (h : ReceiverOk frames out acc r) :
    ReceiverOk frames (out ++ new) acc { r with wire := r.wire ++ new } where
  isPrefix := h.isPrefix
  stream := by
    intro hdead habort
    obtain ⟨cur, hs, hout⟩ := h.stream hdead habort
    exact ⟨cur, hs, by rw [← hout]; simp only [List.append_assoc]⟩

theorem ReceiverOk.readCb {frames : List Str} {r r' : Receiver} {log : List Entry}
    (h : ReceiverOk frames out acc r) (hframes : ∀ x ∈ frames, Frame x)
    (hout : out <+: frames.flatten) (hstep : ReadStep junk r log r') :
    ReceiverOk frames out (acc ++ accepted log) r' := by
  cases hstep with
  | callback header body accept running hx =>
    by_cases hdead : r.dead = true
    · unfold Connection.readCb at hx
      rw [if_pos hdead] at hx
      cases hx
      simpa [accepted] using h
    obtain ⟨cur, hs, hcur⟩ := h.stream (by simpa using hdead) running
    obtain ⟨rest, rfl⟩ := h.isPrefix
    have hrest : ∀ x ∈ rest, Frame x := fun x hx => hframes x (List.mem_append_right _ hx)
    have hleft : cur ++ r.wire <+: rest.flatten := by
      rw [← hcur, List.flatten_append, List.prefix_append_right_inj] at hout
      exact hout
    have hgood : cur = [] → ¬BadHere r.wire := by
      rintro rfl
      exact not_badHere hrest hleft
    obtain ⟨-, -, ⟨hgone, hnone⟩ | ⟨hlive, habort, hnew, cur', hs', hcur'⟩⟩ :=
      readCb_outcome hx (by simpa using hdead) hs hgood
    · rw [hnone, List.append_nil]
      refine ⟨List.prefix_append _ _, fun hd ha => ?_⟩
      rw [hd, ha] at hgone
      simp at hgone
    · refine ⟨?_, fun _ _ => ⟨cur', hs', ?_⟩⟩
      · rw [List.prefix_append_right_inj]
        refine frames_prefix hnew hrest ?_
        rw [← hcur'] at hleft
        exact (List.prefix_append _ _).trans hleft
      · rw [List.flatten_append, List.append_assoc, hcur', hcur]

theorem ReceiverOk.push {frames : List Str} {r : Receiver} (h : ReceiverOk frames out acc r)
    (x : Str) : ReceiverOk (frames ++ [x]) out acc r :=
  ⟨h.isPrefix.trans (List.prefix_append _ _), h.stream⟩

/-! ## Every run -/

/-- Both ends agree on what has gone out. -/
structure LinkOk (sent acc : List Str) (l : Link) : Prop where
  bounds : ∀ b ∈ sent, 4 ≤ b.length ∧ (b.length : ℤ) ≤ maxPdu
  ends : ∃ out, SenderOk sent out l.sender ∧ ReceiverOk (sent.map stamp) out acc l.receiver

theorem linkOk_start : LinkOk [] [] {} :=
  ⟨by simp, [], .free rfl rfl, List.prefix_rfl, fun _ _ => ⟨[], .idle, rfl⟩⟩

theorem LinkOk.step {e : Event} (h : LinkOk sent acc l) (hstep : LinkStep junk l e l') :
    LinkOk (sent ++ sentPdus [e]) (acc ++ handedOver [e]) l' := by
  obtain ⟨bounds, out, hs, hr⟩ := h
  have hquiet : sent ++ sentPdus [.quiet] = sent ∧ acc ++ handedOver [.quiet] = acc := by
    simp [sentPdus, handedOver]
  cases hstep with
  | send lower upper live free hx =>
    rename_i w b new s
    have hlen : 4 ≤ b.length := le_trans (by decide) lower
    simp only [sentPdus, handedOver, List.filterMap_cons, List.filterMap_nil, List.flatMap_cons,
      List.flatMap_nil, List.append_nil]
    refine ⟨?_, out ++ new, hs.send hlen live free hx, ?_⟩
    · intro b' hb
      rcases List.mem_append.1 hb with hb | hb
      · exact bounds b' hb
      · rw [List.mem_singleton.1 hb]
        exact ⟨hlen, upper⟩
    · rw [List.map_append]
      exact (hr.push (stamp b)).wrote
  | writeCb hx =>
    rw [hquiet.1, hquiet.2]
    exact ⟨bounds, _, hs.writeCb hx, hr.wrote⟩
  | finish waits done =>
    rw [hquiet.1, hquiet.2]
    exact ⟨bounds, out, hs.finish (fun b hb => (bounds b (List.mem_of_getLast? hb)).1) done, hr⟩
  | readCb hx =>
    rename_i log r
    simp only [sentPdus, handedOver, List.filterMap_cons, List.filterMap_nil, List.flatMap_cons,
      List.flatMap_nil, List.append_nil]
    refine ⟨bounds, out, hs, hr.readCb ?_ hs.isPrefix hx⟩
    intro x hx
    obtain ⟨b, hb, rfl⟩ := List.mem_map.1 hx
    exact frame_stamp (bounds b hb).1 (bounds b hb).2
  | closeSender =>
    rw [hquiet.1, hquiet.2]
    exact ⟨bounds, out, .dead rfl hs.isPrefix, hr⟩
  | closeReceiver =>
    rw [hquiet.1, hquiet.2]
    refine ⟨bounds, out, hs, hr.isPrefix, ?_⟩
    rintro ⟨⟩

/-- However the bytes are cut into pieces, whatever is refused and whoever gives up, the PDUs that
are handed over are the first of those that were sent, with their sizes in front. -/
theorem framing_exact (junk : ℕ → UInt8) {tr : List Event} {l : Link}
    (h : Run (LinkStep junk) {} tr l) : handedOver tr <+: (sentPdus tr).map stamp := by
  have hok : LinkOk (sentPdus tr) (handedOver tr) l := by
    refine h.history_invariant (I := fun tr l => LinkOk (sentPdus tr) (handedOver tr) l)
      linkOk_start ?_
    intro tr l e l' _ hl hstep
    have := hl.step hstep
    simpa only [sentPdus, handedOver, List.filterMap_append, List.flatMap_append] using this
  obtain ⟨_, _, _, hr⟩ := hok
  exact hr.isPrefix

/-- A PDU written in two pieces and read in three. -/
theorem framing_exact_pieces :
    ∃ tr l, Run (LinkStep fun _ => 7) {} tr l ∧
      handedOver tr = [stamp (List.replicate 24 9)] ∧
      handedOver tr <+: (sentPdus tr).map stamp := by
  have hr : Run (LinkStep fun _ => 7) {} _ _ :=
    ((((Run.single
      (.send (w := .bytes 10) (b := .replicate 24 9) (by decide) (by decide) rfl rfl rfl)).snoc
      (.readCb (.callback (.take 4) (.take 6) true rfl rfl))).snoc
      (.writeCb (w := .bytes 14) rfl)).snoc
      (.readCb (.callback (.take 4) (.take 9) false rfl rfl))).snoc
      (.readCb (.callback (.take 4) (.take 5) true rfl rfl))
  exact ⟨_, _, hr, by decide +kernel, framing_exact _ hr⟩

end Yfs.StreamFraming
