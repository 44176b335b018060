import Yfs.Connection
import Yfs.LabelledRuns

/-!
# Receiving from any peer

The receiver takes any size up to `MAX_PDU`, also one that is negative or too small for the four
bytes that hold it. As long as no such size stands where a size is expected, it keeps within its
buffers, whatever the stream and however it is cut into pieces.
-/

namespace Yfs.HostileLengths
open LabelledRuns ByteLayout Connection
open LockProtocol (Str)

/-! ## One callback -/

/-- What may be noted about a callback. -/
def Sound : Entry → Prop
  | .rejected sz => maxPdu < sz
  | .allocated solong sz => 4 ≤ solong ∧ solong ≤ sz
  | .read count space => 0 ≤ count ∧ count ≤ space
  | .offered bytes sz solong _ => sz ≤ solong ∧ bytes.length = sz
  | .aborted e => e = .again

/-- The PDUs that `got_pdu` has accepted. -/
def accepted (log : List Entry) : List Str :=
  log.filterMap fun
    | .offered bytes _ _ true => some bytes
    | _ => none

/-- Nothing, or a part of a PDU, has been received. -/
inductive Shape : Charbuf → Str → Prop where
  | idle : Shape {} []
  | partly {mem : Str} {sz k : ℕ} (four_le : 4 ≤ k) (le : k ≤ sz) (max : (sz : ℤ) ≤ maxPdu)
      (length : mem.length = sz + 4) (word : lengthWord mem = sz) :
      Shape ⟨some mem, sz, k⟩ (mem.take k)

variable {junk : ℕ → UInt8} {r r' : Receiver} {header body : Choice} {accept : Bool} {cur : Str}
  {res : Except Fault Bool} {log : List Entry} {p : Charbuf}

theorem lengthWord_congr {s t : Str} (h : s.take 4 = t.take 4) : lengthWord s = lengthWord t := by
  unfold lengthWord
  rw [h]

/-- More of the PDU arrives. -/
theorem Shape.extend {mem bs : Str} {sz k : ℕ} (four_le : 4 ≤ k) (le : k + bs.length ≤ sz)
    (max : (sz : ℤ) ≤ maxPdu) (length : mem.length = sz + 4) (word : lengthWord mem = sz) :
    Shape ⟨some (patch mem k bs), sz, (k : ℤ) + bs.length⟩ (mem.take k ++ bs) := by
  have hle : k + bs.length ≤ mem.length := by omega
  rw [← take_patch hle, ← Nat.cast_add]
  refine .partly (by omega) le max (by rw [length_patch hle, length]) ?_
  rw [← word]
  apply lengthWord_congr
  have hk : (mem.take k).length = k := List.length_take_of_le (by omega)
  unfold patch
  rw [List.append_assoc, List.take_append_of_le_length (by omega), List.take_take,
    Nat.min_eq_left four_le]

theorem sizeT_sub {sz k : ℕ} (h : k ≤ sz) (hmax : sz < 2 ^ 32) : sizeT ((sz : ℤ) - k) = sz - k := by
  unfold sizeT
  omega

/-- What `readpdu` comes to where no bad size is met. -/
inductive ReadOutcome (r : Receiver) (cur : Str) : Except Fault Bool → Receiver → Prop where
  | more {r' : Receiver} {cur' : Str} (live : r'.dead = r.dead ∧ r'.aborted = r.aborted)
      (shape : Shape r'.rpdu cur') (stream : cur' ++ r'.wire = cur ++ r.wire) :
      ReadOutcome r cur (.ok true) r'
  | stop {r' : Receiver} (live : r'.aborted = r.aborted) (idle : r'.rpdu = {}) :
      ReadOutcome r cur (.ok false) r'
  | again {r' : Receiver} : ReadOutcome r cur (.error .again) r'

theorem readRest_outcome {mem : Str} {sz k : ℕ} (hx : readRest body r = some (res, r', log))
    (hp : r.rpdu = ⟨some mem, sz, k⟩) (four_le : 4 ≤ k) (le : k ≤ sz) (max : (sz : ℤ) ≤ maxPdu)
    (length : mem.length = sz + 4) (word : lengthWord mem = sz) :
    ReadOutcome r (mem.take k) res r' ∧ log = [.read (sz - k) (sz + 4 - k)] := by
  have hsmall : sz < 2 ^ 32 := by
    unfold maxPdu at max
    omega
  unfold readRest at hx
  simp only [hp, Option.getD_some, length, sizeT_sub le hsmall, Option.bind_eq_bind,
    Option.bind_eq_some_iff, Nat.cast_add, Nat.cast_ofNat] at hx
  obtain ⟨⟨got, wire⟩, hread, hx⟩ := hx
  cases body with
  | take n =>
    simp only [sysRead] at hread
    split at hread
    next hn =>
      cases hread
      have hlen : (r.wire.take n).length = n := List.length_take_of_le hn.2.2
      have hfit : ¬(sz : ℤ) + 4 < k + (r.wire.take n).length := by omega
      simp only [hfit, if_false, Option.some.injEq, Prod.mk.injEq, Int.toNat_natCast] at hx
      obtain ⟨rfl, rfl, rfl⟩ := hx
      refine ⟨.more ⟨rfl, rfl⟩ (Shape.extend four_le (by omega) max length word) ?_, rfl⟩
      rw [List.append_assoc, List.take_append_drop]
    next => cases hread
  | eof again | error again =>
    cases hread
    cases again with
    | true =>
      cases hx
      refine ⟨.more ⟨rfl, rfl⟩ ?_ rfl, rfl⟩
      rw [hp]
      exact .partly four_le le max length word
    | false =>
      cases hx
      exact ⟨.stop rfl rfl, rfl⟩

/-- A size that the receiver takes although it cannot hold the four bytes that were read. -/
def BadHere (s : Str) : Prop := 4 ≤ s.length ∧ lengthWord s < 4

theorem readpdu_outcome (hx : readpdu junk header body r = some (res, r', log)) (hp : r.rpdu = {})
    (hgood : ¬BadHere r.wire) :
    ReadOutcome r [] res r' ∧ (∀ e ∈ log, Sound e) ∧ accepted log = [] ∧
      ((∃ sz, .rejected sz ∈ log) → res = .ok false) := by
  unfold readpdu at hx
  simp only [hp, if_true, Option.bind_eq_bind, Option.bind_eq_some_iff, ne_eq, not_true,
    if_false] at hx
  obtain ⟨⟨got, wire⟩, hread, hx⟩ := hx
  cases header with
  | eof again =>
    cases hread
    cases hx
    exact ⟨.stop rfl rfl, by simp, rfl, by simp⟩
  | error again =>
    cases hread
    cases again with
    | true =>
      cases hx
      exact ⟨.again, by simp, rfl, by simp⟩
    | false =>
      cases hx
      exact ⟨.stop rfl rfl, by simp, rfl, by simp⟩
  | take n =>
    simp only [sysRead] at hread
    split at hread
    next hn =>
      cases hread
      have hlen : (r.wire.take n).length = n := List.length_take_of_le hn.2.2
      by_cases h4 : n = 4
      · subst h4
        have hword : lengthWord (r.wire.take 4) = lengthWord r.wire :=
          lengthWord_congr (by rw [List.take_take, Nat.min_self])
        have hge : 4 ≤ lengthWord r.wire := by
          by_contra hlt
          exact hgood ⟨hn.2.2, by omega⟩
        simp only [hlen, not_true, if_false, hword] at hx
        by_cases hmax : maxPdu < lengthWord r.wire
        · rw [if_pos hmax] at hx
          cases hx
          exact ⟨.stop rfl rfl, by simpa [Sound] using hmax, rfl, fun _ => rfl⟩
        · rw [if_neg hmax] at hx
          obtain ⟨sz, hsz⟩ := Int.eq_ofNat_of_zero_le (a := lengthWord r.wire) (by omega)
          rw [hsz] at hx hge hmax
          have hneg : ¬(sz : ℤ) < -4 := by omega
          have hneg' : ¬(sz : ℤ) < 0 := by omega
          simp only [allocate, hneg, hneg', if_false, Int.toNat_natCast,
            Option.bind_eq_some_iff] at hx
          obtain ⟨⟨res', r₁, log'⟩, hrest, hx⟩ := hx
          cases hx
          have hmem : (r.wire.take 4 ++ (List.range sz).map junk).length = sz + 4 := by
            simp [hlen, Nat.add_comm]
          have htake : (r.wire.take 4 ++ (List.range sz).map junk).take 4 = r.wire.take 4 :=
            List.take_left' hlen
          have hlw : lengthWord (r.wire.take 4 ++ (List.range sz).map junk) = sz := by
            rw [← hsz]
            exact lengthWord_congr htake
          have hfour : 4 ≤ sz := by omega
          obtain ⟨hout, rfl⟩ := readRest_outcome (k := 4) hrest rfl le_rfl hfour (by omega) hmem hlw
          rw [htake] at hout
          refine ⟨?_, ?_, rfl, by simp⟩
          · cases hout with
            | more live shape stream =>
              refine .more live shape (stream.trans ?_)
              exact List.take_append_drop 4 r.wire
            | stop live idle => exact .stop live idle
            | again => exact .again
          · simp only [List.mem_cons, List.not_mem_nil, or_false, forall_eq_or_imp, forall_eq, Sound]
            omega
      · simp only [hlen, h4, not_false_iff, if_true] at hx
        cases hx
        exact ⟨.stop rfl rfl, by simp, rfl, by simp⟩
    next => cases hread

/-- A whole PDU, with its size in front. -/
structure Frame (x : Str) : Prop where
  four_le : 4 ≤ x.length
  max : (x.length : ℤ) ≤ maxPdu
  word : lengthWord x = x.length

/-- Nothing is lost when a complete PDU is offered. -/
theorem offer_outcome (hs : Shape r.rpdu cur) (hx : offer accept r = (r', log)) :
    (∀ e ∈ log, Sound e) ∧ (∀ sz, .rejected sz ∉ log) ∧
      (r'.dead = r.dead ∧ r'.aborted = r.aborted ∧ r'.wire = r.wire) ∧
      (∀ x ∈ accepted log, Frame x) ∧
      ∃ cur', Shape r'.rpdu cur' ∧ (accepted log).flatten ++ cur' = cur := by
  unfold offer at hx
  generalize hp : r.rpdu = p at hs
  cases hs with
  | idle =>
    simp only [hp, Prod.mk.injEq] at hx
    obtain ⟨rfl, rfl⟩ := hx
    exact ⟨by simp, by simp, ⟨rfl, rfl, rfl⟩, by simp [accepted], [], hp ▸ .idle, rfl⟩
  | @partly mem sz k four_le le max length word =>
    simp only [hp, Int.toNat_natCast] at hx
    by_cases hfull : (sz : ℤ) = k
    · obtain rfl : sz = k := by omega
      rw [if_pos rfl] at hx
      have hlen : (mem.take sz).length = sz := List.length_take_of_le (by omega)
      have hword : Frame (mem.take sz) := by
        refine ⟨by omega, by omega, ?_⟩
        rw [hlen, ← word]
        exact lengthWord_congr (by rw [List.take_take, Nat.min_eq_left four_le])
      have hsound : ∀ e ∈ [Entry.offered (mem.take sz) sz sz accept], Sound e := by
        simp [Sound]
        omega
      cases accept with
      | true =>
        cases hx
        exact ⟨hsound, by simp, ⟨rfl, rfl, rfl⟩, by simpa [accepted] using hword, [], .idle,
          by simp [accepted]⟩
      | false =>
        cases hx
        exact ⟨hsound, by simp, ⟨rfl, rfl, rfl⟩, by simp [accepted], _,
          hp ▸ .partly four_le le max length word, rfl⟩
    · rw [if_neg hfull] at hx
      cases hx
      exact ⟨by simp, by simp, ⟨rfl, rfl, rfl⟩, by simp [accepted], _,
        hp ▸ .partly four_le le max length word, rfl⟩

theorem readMore_outcome (hs : Shape r.rpdu cur) (hgood : cur = [] → ¬BadHere r.wire)
    (hx : readMore junk header body r = some (res, r', log)) :
    ReadOutcome r cur res r' ∧ (∀ e ∈ log, Sound e) ∧ accepted log = [] ∧
      ((∃ sz, .rejected sz ∈ log) → res = .ok false) := by
  unfold readMore at hx
  generalize hp : r.rpdu = p at hs
  cases hs with
  | idle =>
    rw [hp, if_pos (.inl rfl)] at hx
    exact readpdu_outcome hx hp (hgood rfl)
  | @partly mem sz k four_le le max length word =>
    by_cases hlt : k < sz
    · have hne : ¬(sz : ℤ) = 0 := by omega
      rw [hp, if_pos (.inr (by dsimp only; omega)), readpdu, hp, if_neg hne] at hx
      obtain ⟨hout, rfl⟩ := readRest_outcome hx hp four_le le max length word
      refine ⟨hout, ?_, rfl, by simp⟩
      simp only [List.mem_cons, List.not_mem_nil, or_false, forall_eq, Sound]
      omega
    · have hcond : ¬((some mem : Option Str) = none ∨ (k : ℤ) < sz) := by simp; omega
      rw [hp, if_neg hcond] at hx
      cases hx
      exact ⟨.more ⟨rfl, rfl⟩ (hp ▸ .partly four_le le max length word) rfl, by simp, rfl, by simp⟩

/-- A callback either ends the connection or keeps all that has arrived, where no bad size is met. -/
theorem readCb_outcome (hx : readCb junk header body accept r = some (r', log))
    (hlive : r.dead = false) (hs : Shape r.rpdu cur) (hgood : cur = [] → ¬BadHere r.wire) :
    (∀ e ∈ log, Sound e) ∧ ((∃ sz, .rejected sz ∈ log) → r'.dead = true) ∧
      (((r'.dead = true ∨ r'.aborted = true) ∧ accepted log = []) ∨
        (r'.dead = false ∧ r'.aborted = r.aborted ∧ (∀ x ∈ accepted log, Frame x) ∧
          ∃ cur', Shape r'.rpdu cur' ∧
            (accepted log).flatten ++ (cur' ++ r'.wire) = cur ++ r.wire)) := by
  unfold readCb at hx
  rw [if_neg (by simp [hlive])] at hx
  simp only [Option.bind_eq_bind, Option.bind_eq_some_iff] at hx
  obtain ⟨⟨res, r₁, log₁⟩, hread, hx⟩ := hx
  obtain ⟨hout, hsound, hnone, hrej⟩ := readMore_outcome hs hgood hread
  cases hout with
  | again =>
    cases hx
    refine ⟨?_, ?_, .inl ⟨.inr rfl, ?_⟩⟩
    · intro e he
      rcases List.mem_append.1 he with he | he
      · exact hsound e he
      · rw [List.mem_singleton.1 he]
        rfl
    · rintro ⟨sz, hsz⟩
      have hmem : Entry.rejected sz ∈ log₁ := by simpa using hsz
      cases hrej ⟨sz, hmem⟩
    · simpa [accepted] using hnone
  | stop live idle =>
    have hoff : offer accept { r₁ with dead := true } = ({ r₁ with dead := true }, []) := by
      simp [offer, idle]
    simp only [Bool.false_eq_true, if_false, hoff, List.append_nil] at hx
    cases hx
    exact ⟨hsound, fun _ => rfl, .inl ⟨.inl rfl, hnone⟩⟩
  | more live shape stream =>
    rcases hoff : offer accept r₁ with ⟨r₂, log₂⟩
    simp only [if_true, hoff] at hx
    cases hx
    obtain ⟨hsound₂, hrej₂, ⟨hdead, habort, hwire⟩, hframes, cur₂, hshape, hcur⟩ :=
      offer_outcome shape hoff
    have hacc : accepted (log₁ ++ log₂) = accepted log₂ := by
      rw [accepted, List.filterMap_append]
      exact (congrArg (· ++ accepted log₂) hnone).trans (List.nil_append _)
    refine ⟨?_, ?_, .inr ⟨hdead.trans (live.1.trans hlive), habort.trans live.2, ?_, cur₂, hshape, ?_⟩⟩
    · intro e he
      exact (List.mem_append.1 he).elim (hsound e) (hsound₂ e)
    · rintro ⟨sz, hsz⟩
      rcases List.mem_append.1 hsz with hsz | hsz
      · cases hrej ⟨sz, hsz⟩
      · exact absurd hsz (hrej₂ sz)
    · rw [hacc]
      exact hframes
    · rw [hacc, hwire, ← stream, ← hcur, List.append_assoc]

/-! ## Every stream -/

/-- A bad size stands where a size is expected, when the PDUs in front of it are complete. -/
inductive Bad : Str → Prop where
  | here {s : Str} (h : BadHere s) : Bad s
  | later {x s : Str} (hx : Frame x) (h : Bad s) : Bad (x ++ s)

theorem not_bad_of_frames {xs : List Str} {s : Str} (hxs : ∀ x ∈ xs, Frame x)
    (h : ¬Bad (xs.flatten ++ s)) : ¬Bad s := by
  induction xs with
  | nil => exact h
  | cons x xs ih =>
    refine ih (fun y hy => hxs y (List.mem_cons_of_mem _ hy)) fun hbad => h ?_
    rw [List.flatten_cons, List.append_assoc]
    exact .later (hxs x List.mem_cons_self) hbad

inductive ReadStep (junk : ℕ → UInt8) : Receiver → List Entry → Receiver → Prop where
  | callback {r r' : Receiver} {log : List Entry} (header body : Choice) (accept : Bool)
      (running : r.aborted = false) (hx : readCb junk header body accept r = some (r', log)) :
      ReadStep junk r log r'

/-- A receiver that still works has met no bad size. -/
def Unharmed (r : Receiver) : Prop :=
  r.dead = false → r.aborted = false → ∃ cur, Shape r.rpdu cur ∧ ¬Bad (cur ++ r.wire)

theorem Unharmed.step (h : Unharmed r) (hstep : ReadStep junk r log r') :
    Unharmed r' ∧ (∀ e ∈ log, Sound e) ∧
      (r.dead = true ∨ (∃ sz, .rejected sz ∈ log) → r'.dead = true) := by
  cases hstep with
  | callback header body accept running hx =>
    cases hdead : r.dead with
    | true =>
      simp only [readCb, hdead, if_true] at hx
      cases hx
      exact ⟨h, by simp, fun _ => hdead⟩
    | false =>
      obtain ⟨cur, hs, hbad⟩ := h hdead running
      have hgood : cur = [] → ¬BadHere r.wire := by
        rintro rfl hb
        exact hbad (.here hb)
      obtain ⟨hsound, hrej, hout⟩ := readCb_outcome hx hdead hs hgood
      refine ⟨?_, hsound, ?_⟩
      · intro hd ha
        rcases hout with ⟨hgone | hgone, -⟩ | ⟨-, -, hframes, cur', hs', hcur⟩
        · rw [hd] at hgone
          cases hgone
        · rw [ha] at hgone
          cases hgone
        · exact ⟨cur', hs', not_bad_of_frames hframes (by rwa [hcur])⟩
      · rintro (hd | hsz)
        · cases hd
        · exact hrej hsz

theorem run_sound {stream : Str} (hbad : ¬Bad stream) {tr : List (List Entry)}
    (hr : Run (ReadStep junk) { wire := stream } tr r) :
    (∀ e ∈ tr.flatten, Sound e) ∧ ((∃ sz, .rejected sz ∈ tr.flatten) → r.dead = true) := by
  have hinv := hr.history_invariant (I := fun tr r => Unharmed r ∧ (∀ e ∈ tr.flatten, Sound e) ∧
    ((∃ sz, .rejected sz ∈ tr.flatten) → r.dead = true)) ?_ ?_
  · exact hinv.2
  · exact ⟨fun _ _ => ⟨[], .idle, hbad⟩, by simp, by simp⟩
  · rintro tr r log r' - ⟨hu, hsound, hdead⟩ hstep
    obtain ⟨hu', hsound', hdead'⟩ := hu.step hstep
    simp only [List.flatten_append, List.flatten_cons, List.flatten_nil, List.append_nil,
      List.mem_append]
    refine ⟨hu', fun e he => he.elim (hsound e) (hsound' e), ?_⟩
    rintro ⟨sz, hsz | hsz⟩
    · exact hdead' (.inl (hdead ⟨sz, hsz⟩))
    · exact hdead' (.inr ⟨sz, hsz⟩)

/-! ## A bad size does harm -/

theorem sysRead_four {s : Str} (h : 4 ≤ s.length) :
    sysRead 4 s (.take 4) = some (.bytes (s.take 4), s.drop 4) :=
  if_pos ⟨by decide, le_rfl, h⟩

theorem lengthWord_take (s : Str) : lengthWord (s.take 4) = lengthWord s :=
  lengthWord_congr (by rw [List.take_take, Nat.min_self])

/-- `readpdu` when the four bytes of a size arrive at once and there is no memory for it. -/
theorem readpdu_fault {s : Str} {e : Fault} (h : 4 ≤ s.length) (hmax : ¬maxPdu < lengthWord s)
    (halloc : allocate junk (lengthWord s) (s.take 4) = .error e) :
    readpdu junk (.take 4) body { wire := s } = some (.error e, { wire := s.drop 4 }, []) := by
  have hlen : (s.take 4).length = 4 := List.length_take_of_le h
  simp only [readpdu, if_true, sysRead_four h, Option.bind_eq_bind, Option.bind_some, hlen, ne_eq,
    not_true, if_false, lengthWord_take, hmax, halloc]

theorem readpdu_allocated {s mem : Str} (h : 4 ≤ s.length) (hmax : ¬maxPdu < lengthWord s)
    (halloc : allocate junk (lengthWord s) (s.take 4) = .ok mem) :
    readpdu junk (.take 4) body { wire := s } =
      (readRest body { rpdu := ⟨some mem, lengthWord s, 4⟩, wire := s.drop 4 }).bind fun x =>
        some (x.1, x.2.1, .allocated 4 (lengthWord s) :: x.2.2) := by
  have hlen : (s.take 4).length = 4 := List.length_take_of_le h
  simp only [readpdu, if_true, sysRead_four h, Option.bind_eq_bind, Option.bind_some, hlen, ne_eq,
    not_true, if_false, lengthWord_take, hmax, halloc]

theorem readMore_idle (s : Str) :
    readMore junk header body { wire := s } = readpdu junk header body { wire := s } :=
  if_pos (.inl rfl)

theorem step_bad {s : Str} (h : BadHere s) :
    ∃ log r', ReadStep junk { wire := s } log r' ∧ ∃ e ∈ log, ¬Sound e := by
  obtain ⟨hlen, hlt⟩ := h
  have hmax : ¬maxPdu < lengthWord s := by
    unfold maxPdu
    omega
  by_cases hneg : lengthWord s < 0
  · -- there is no memory, or not enough for the four bytes
    obtain ⟨e, he, halloc⟩ : ∃ e, e ≠ Fault.again ∧
        allocate junk (lengthWord s) (s.take 4) = .error e := by
      unfold allocate
      by_cases h4 : lengthWord s < -4
      · exact ⟨.memory, by decide, if_pos h4⟩
      · exact ⟨.outside, by decide, by rw [if_neg h4, if_pos hneg]⟩
    have hx : readCb junk (.take 4) (.eof true) false { wire := s } =
        some ({ aborted := true, wire := s.drop 4 }, [.aborted e]) := by
      simp only [readCb, Bool.false_eq_true, if_false, readMore_idle, readpdu_fault hlen hmax halloc,
        Option.bind_eq_bind, Option.bind_some, List.nil_append]
    exact ⟨_, _, .callback _ _ _ rfl hx, .aborted e, by simp, he⟩
  · obtain ⟨mem, halloc⟩ : ∃ mem, allocate junk (lengthWord s) (s.take 4) = .ok mem := by
      unfold allocate
      exact ⟨_, by rw [if_neg (by omega), if_neg hneg]⟩
    have hx : ∃ r' log, readCb junk (.take 4) (.eof true) false { wire := s } =
        some (r', .allocated 4 (lengthWord s) :: log) := by
      simp only [readCb, Bool.false_eq_true, if_false, readMore_idle,
        readpdu_allocated hlen hmax halloc]
      exact ⟨_, _, rfl⟩
    obtain ⟨r', log, hx⟩ := hx
    refine ⟨_, r', .callback _ _ _ rfl hx, .allocated 4 (lengthWord s), by simp, ?_⟩
    simp only [Sound]
    omega

/-- The rest of a PDU comes at once; if there is none, the read comes to nothing. -/
theorem readRest_whole {rest mem : Str} {n : ℕ} (hn : n = 4 + rest.length) (hmem : n ≤ mem.length)
    (hmax : (n : ℤ) ≤ maxPdu) (s : Str) :
    ∃ body mem' log, readRest body { rpdu := ⟨some mem, n, 4⟩, wire := rest ++ s } =
      some (.ok true, { rpdu := ⟨some mem', n, n⟩, wire := s }, log) := by
  subst hn
  by_cases hz : rest = []
  · subst hz
    exact ⟨.eof true, mem, _, rfl⟩
  · have hpos := List.length_pos_iff.2 hz
    have hcount : sizeT (((4 + rest.length : ℕ) : ℤ) - 4) = rest.length := by
      have hsub : sizeT (((4 + rest.length : ℕ) : ℤ) - (4 : ℕ)) = 4 + rest.length - 4 :=
        sizeT_sub (by omega) (by unfold maxPdu at hmax; omega)
      rwa [Nat.add_sub_cancel_left] at hsub
    have hread : sysRead rest.length (rest ++ s) (.take rest.length) = some (.bytes rest, s) := by
      simp [sysRead, hpos]
    have hroom : ¬(mem.length : ℤ) < 4 + rest.length := by omega
    refine ⟨.take rest.length, patch mem 4 rest, ?_⟩
    simp only [readRest, Option.getD_some, hcount, hread, Option.bind_eq_bind, Option.bind_some,
      hroom, if_false]
    push_cast
    exact ⟨_, rfl⟩

/-- A callback that reads a whole PDU, which is accepted. -/
theorem step_frame {x : Str} (hx : Frame x) (s : Str) :
    ∃ log, ReadStep junk { wire := x ++ s } log { wire := s } := by
  have hfour := hx.four_le
  have hword : lengthWord (x ++ s) = x.length := by
    rw [← hx.word]
    exact lengthWord_congr (List.take_append_of_le_length hfour)
  have hlen : 4 ≤ (x ++ s).length := by
    rw [List.length_append]
    omega
  have hmax : ¬maxPdu < lengthWord (x ++ s) := by
    rw [hword]
    exact not_lt.2 hx.max
  have hdrop : (x ++ s).drop 4 = x.drop 4 ++ s := List.drop_append_of_le_length hfour
  obtain ⟨mem, hmem, halloc⟩ : ∃ mem : Str, x.length ≤ mem.length ∧
      allocate junk (lengthWord (x ++ s)) ((x ++ s).take 4) = .ok mem := by
    refine ⟨_, ?_, by unfold allocate; rw [hword, if_neg (by omega), if_neg (by omega)]⟩
    simp
  have hsplit : x.length = 4 + (x.drop 4).length := by
    rw [List.length_drop]
    omega
  obtain ⟨body, mem', log, hrest⟩ := readRest_whole hsplit hmem hx.max s
  have hcb : ∃ log, readCb junk (.take 4) body true { wire := x ++ s } = some ({ wire := s }, log) := by
    simp only [readCb, Bool.false_eq_true, if_false, readMore_idle,
      readpdu_allocated hlen hmax halloc, hword, hdrop, hrest, Option.bind_some,
      Option.bind_eq_bind, offer, if_true]
    exact ⟨_, rfl⟩
  obtain ⟨log, hcb⟩ := hcb
  exact ⟨log, .callback _ _ _ rfl hcb⟩

theorem bad_harms (junk : ℕ → UInt8) {s : Str} (h : Bad s) :
    ∃ tr r, Run (ReadStep junk) { wire := s } tr r ∧ ∃ e ∈ tr.flatten, ¬Sound e := by
  induction h with
  | here h =>
    obtain ⟨log, r', hstep, e, he, hs⟩ := step_bad h
    exact ⟨_, _, .single hstep, e, by simpa using he, hs⟩
  | later hx _ ih =>
    obtain ⟨tr, r, hr, e, he, hs⟩ := ih
    obtain ⟨log, hstep⟩ := step_frame hx _
    refine ⟨_, _, (Run.single hstep).append hr, e, ?_, hs⟩
    rw [List.flatten_append]
    exact List.mem_append_right _ he

/-- Whatever a peer sends and in whatever pieces it arrives, every size is rejected or gets a buffer
that holds it, no `read` is given more room than is left, and only complete PDUs are handed over,
exactly when no size below four stands where a size is expected. -/
theorem hostile_length_iff (junk : ℕ → UInt8) (stream : Str) :
    (∀ tr r, Run (ReadStep junk) { wire := stream } tr r →
      (∀ e ∈ tr.flatten, Sound e) ∧ ((∃ sz, .rejected sz ∈ tr.flatten) → r.dead = true)) ↔
      ¬Bad stream := by
  constructor
  · intro h hbad
    obtain ⟨tr, r, hr, e, he, hs⟩ := bad_harms junk hbad
    exact hs ((h tr r hr).1 e he)
  · exact fun h tr r hr => run_sound h hr

/-- A size of zero gets a buffer with room for nothing and four bytes in it already. The system
refuses the `read` of `-4` bytes with an error that is not `EAGAIN`. -/
theorem zero_size_overruns :
    ∃ r, Run (ReadStep fun _ => 0) { wire := [0, 0, 0, 0] }
      [[.allocated 4 0, .read (-4) 0]] r ∧ ¬Sound (.allocated 4 0) :=
  ⟨{ dead := true, wire := [] },
    .single (.callback (.take 4) (.error false) false rfl (by decide +kernel)), by simp [Sound]⟩

end Yfs.HostileLengths
