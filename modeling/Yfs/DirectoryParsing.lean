import Yfs.YfsClient

/-!
# Parsing any content as a directory

The loop of `readdir` on content of any form. It trusts two of the numbers that are stored in a
record: the length of the name, which it checks only after a conversion to `int`, and the length of
the record, which it does not check at all.
-/

namespace Yfs.DirectoryParsing
open ByteLayout DirectoryFormat YfsClient
open LockProtocol (Str)

inductive LoopEnd where
  | finished
  | failed
  | outside
  deriving DecidableEq, Repr

/-- The loop of `readdir`, if it ends within so many iterations. -/
def loop : ℕ → Str → ℤ → Option LoopEnd
  | 0, _, _ => none
  | n + 1, p, remain =>
    match parsedir p remain with
    | .finished => some .finished
    | .failed => some .failed
    | .outside => some .outside
    | .entry _ next remain' => loop n next remain'

/-- The copy of the content is made, and the loop ends, at the end of the directory or at an
assertion, and has not left the copy. -/
def ParsesInBounds (buf : Str) : Prop :=
  ∃ cstr, copied buf = .ok cstr ∧
    ∃ n e, e ≠ .outside ∧ loop n cstr (int32 buf.length) = some e

/-! ## One record -/

/-- The number in the four bytes at an offset. -/
def wordAt (p : Str) (i : ℕ) : ℕ := leValue ((p.drop i).take 4)

def namelen (p : Str) : ℕ := wordAt p 4

def entrylen (p : Str) : ℕ := wordAt p (8 + namelen p)

theorem leValue_lt (bs : Str) : leValue bs < 256 ^ bs.length := by
  induction bs with
  | nil => simp [leValue]
  | cons b bs ih =>
    have hb := b.toNat_lt
    simp only [leValue, List.length_cons, pow_succ']
    omega

theorem readWord_drop {p : Str} {i : ℕ} (h : i + 4 ≤ p.length) :
    ∃ w, readWord (p.drop i) = some w ∧ w.toNat = wordAt p i := by
  have hlen : ((p.drop i).take 4).length = 4 := by
    rw [List.length_take, List.length_drop]
    omega
  have hlt : wordAt p i < 256 ^ 4 := by
    rw [← hlen]
    exact leValue_lt _
  refine ⟨_, if_pos (by rw [List.length_drop]; omega), ?_⟩
  exact UInt32.toNat_ofNat_of_lt' hlt

/-- The name is so long that its length passes the check although the name does not fit. -/
def HugeName (p : Str) : Prop :=
  2 ^ 31 ≤ namelen p + 12 ∧ namelen p + 12 ≤ p.length + 2 ^ 32

/-- What `parsedir` does where the rest of the content starts. -/
inductive ParseCases (p : Str) : Parsed → Prop where
  | finished (h : p.length = 0) : ParseCases p .finished
  | short (h : p.length < 8) : ParseCases p .failed
  | huge (h : 8 ≤ p.length) (name : HugeName p) : ParseCases p .outside
  | long (h : 8 ≤ p.length) (name : ¬HugeName p) (long : p.length < namelen p + 12) :
      ParseCases p .failed
  | entry {e : Entry} (h : 8 ≤ p.length) (fits : namelen p + 12 ≤ p.length)
      (name : e.filelen.toNat = namelen p) (size : e.entrylen.toNat = entrylen p) :
      ParseCases p (.entry e (p.drop (entrylen p)) (int32 (p.length - entrylen p)))

theorem int32_add_twelve {w : UInt32} :
    int32 (w + 12).toNat = if IsInt (w.toNat + 12) then (w.toNat : ℤ) + 12
      else w.toNat + 12 - 2 ^ 32 := by
  have h12 : (12 : UInt32).toNat = 12 := rfl
  have hlt := w.toNat_lt
  rw [UInt32.toNat_add, h12]
  unfold int32
  split <;> omega

theorem parsedir_cases {p : Str} (hp : IsInt p.length) :
    ParseCases p (parsedir p p.length) := by
  unfold parsedir
  by_cases h8 : p.length < 8
  · rw [if_pos (by omega)]
    by_cases h0 : p.length = 0
    · rw [if_pos (by omega)]
      exact .finished h0
    · rw [if_neg (by omega)]
      exact .short h8
  rw [if_neg (by omega)]
  have h8' : 8 ≤ p.length := by omega
  obtain ⟨inum, hinum, -⟩ := readWord_drop (p := p) (i := 0) (by omega)
  obtain ⟨filelen, hfile, hval⟩ := readWord_drop (p := p) (i := 4) (by omega)
  change filelen.toNat = namelen p at hval
  rw [List.drop_zero] at hinum
  simp only [hinum, hfile, int32_add_twelve, hval]
  by_cases hname : IsInt (namelen p + 12)
  · -- the check is exact
    rw [if_pos hname]
    have hnot : ¬HugeName p := fun h => absurd h.1 (by omega)
    by_cases hlong : p.length < namelen p + 12
    · rw [if_pos (by omega)]
      exact .long h8' hnot hlong
    · rw [if_neg (by omega), if_neg (by omega)]
      obtain ⟨w, hw, hwval⟩ := readWord_drop (p := p) (i := 8 + namelen p) (by omega)
      change w.toNat = entrylen p at hwval
      simp only [hw, hwval]
      exact .entry h8' (by omega) hval hwval
  · rw [if_neg hname]
    by_cases hlong : (p.length : ℤ) < namelen p + 12 - 2 ^ 32
    · rw [if_pos hlong]
      exact .long h8' (fun h => absurd h.2 (by omega)) (by omega)
    · rw [if_neg hlong]
      have houtside : readWord (p.drop (8 + namelen p)) = none :=
        if_neg (by rw [List.length_drop]; omega)
      simp only [houtside, ite_self]
      exact .huge h8' ⟨by omega, by omega⟩

/-! ## The loop -/

/-- A record that the loop does not survive. -/
def BadRecord (p : Str) : Prop :=
  8 ≤ p.length ∧ (HugeName p ∨
    namelen p + 12 ≤ p.length ∧ (entrylen p = 0 ∨ p.length + 2 ^ 31 < entrylen p))

/-- Such a record is found by following the lengths of the records in front of it. -/
inductive Harmful : Str → Prop where
  | here {p : Str} (h : BadRecord p) : Harmful p
  | later {p : Str} (name : namelen p + 12 ≤ p.length) (entry : entrylen p ≤ p.length)
      (h : Harmful (p.drop (entrylen p))) : Harmful p

variable {p : Str}

/-- One iteration over a record that fits. -/
theorem loop_fits (hp : IsInt p.length) (name : namelen p + 12 ≤ p.length) (n : ℕ) :
    loop (n + 1) p p.length = loop n (p.drop (entrylen p)) (int32 (p.length - entrylen p)) := by
  have hcases := parsedir_cases hp
  rw [loop]
  generalize parsedir p p.length = x at hcases
  cases hcases with
  | finished h | short h => omega
  | huge h huge =>
    unfold HugeName at huge
    omega
  | long h _ long => omega
  | entry h fits => rfl

/-- The same where the record ends inside of the content. -/
theorem loop_next (hp : IsInt p.length) (name : namelen p + 12 ≤ p.length)
    (entry : entrylen p ≤ p.length) (n : ℕ) :
    loop (n + 1) p p.length = loop n (p.drop (entrylen p)) (p.drop (entrylen p)).length := by
  rw [loop_fits hp name, List.length_drop, Nat.cast_sub entry, int32_of_lt (by omega) (by omega)]

theorem loop_ends (hp : IsInt p.length) (hgood : ¬Harmful p) :
    ∃ n e, e ≠ .outside ∧ loop n p p.length = some e := by
  induction hlen : p.length using Nat.strong_induction_on generalizing p with
  | _ len ih =>
  subst hlen
  by_cases hname : 8 ≤ p.length ∧ namelen p + 12 ≤ p.length
  · have hbad : ¬BadRecord p := fun h => hgood (.here h)
    have hentry : 0 < entrylen p ∧ entrylen p ≤ p.length + 2 ^ 31 := by
      unfold BadRecord at hbad
      omega
    by_cases hin : entrylen p ≤ p.length
    · have hrest := fun h => hgood (.later hname.2 hin h)
      have hdrop : (p.drop (entrylen p)).length = p.length - entrylen p := List.length_drop
      obtain ⟨n, e, he, hloop⟩ := ih _ (by omega) (by omega) hrest rfl
      exact ⟨n + 1, e, he, by rw [loop_next hp hname.2 hin, hloop]⟩
    · -- the rest is negative, and the next call fails its assertion
      refine ⟨2, .failed, by decide, ?_⟩
      rw [loop_fits hp hname.2, loop]
      have hneg : int32 (p.length - entrylen p) = p.length - entrylen p := by
        unfold int32
        omega
      rw [hneg, parsedir, if_pos (by omega), if_neg (by omega)]
  · have hcases := parsedir_cases hp
    have hloop : loop 1 p p.length = match parsedir p p.length with
      | .finished => some .finished
      | .failed => some .failed
      | .outside => some .outside
      | .entry _ next remain' => loop 0 next remain' := rfl
    generalize parsedir p p.length = x at hcases hloop
    cases hcases with
    | finished h => exact ⟨1, _, by decide, hloop⟩
    | short h | long h => exact ⟨1, _, by decide, hloop⟩
    | huge h huge => exact absurd (.here ⟨h, .inl huge⟩) hgood
    | entry h fits => exact absurd ⟨h, fits⟩ hname

theorem loop_bad {n : ℕ} {e : LoopEnd} (hp : IsInt p.length) (hbad : BadRecord p)
    (hloop : loop n p p.length = some e) : e = .outside := by
  obtain ⟨h8, huge | ⟨hname, hzero | hwrap⟩⟩ := hbad
  · cases n with
    | zero => cases hloop
    | succ n =>
      have hcases := parsedir_cases hp
      rw [loop] at hloop
      generalize parsedir p p.length = x at hcases hloop
      unfold HugeName at huge
      cases hcases with
      | finished h | short h => omega
      | huge =>
        cases hloop
        rfl
      | long _ name => exact absurd huge name
      | entry h fits => omega
  · -- the record follows itself
    induction n with
    | zero => cases hloop
    | succ n ih =>
      rw [loop_next hp hname (by omega), hzero, List.drop_zero] at hloop
      exact ih hloop
  · -- the rest wraps around to a positive number
    have hlt : entrylen p < 256 ^ 4 := by
      refine (leValue_lt _).trans_le (Nat.pow_le_pow_right (by decide) ?_)
      exact List.length_take_le _ _
    have hdrop : p.drop (entrylen p) = [] := List.drop_eq_nil_of_le (by omega)
    rcases n with - | - | n
    · cases hloop
    · rw [loop_fits hp hname] at hloop
      cases hloop
    · rw [loop_fits hp hname, loop, hdrop, parsedir, if_neg (by unfold int32; omega)] at hloop
      cases hloop
      rfl

theorem loop_harmful {n : ℕ} {e : LoopEnd} (hbad : Harmful p) (hp : IsInt p.length)
    (hloop : loop n p p.length = some e) : e = .outside := by
  induction hbad generalizing n with
  | here h => exact loop_bad hp h hloop
  | later name entry h ih =>
    cases n with
    | zero => cases hloop
    | succ n =>
      rw [loop_next hp name entry] at hloop
      exact ih (by rw [List.length_drop]; omega) hloop

/-- The loop stays inside of the content and ends, exactly when the content can be copied and no record
is met that the loop does not survive. -/
theorem parses_in_bounds_iff (buf : Str) :
    ParsesInBounds buf ↔ IsInt (buf.length % 2 ^ 32 + 1) ∧
      ¬Harmful (buf.take (buf.length % 2 ^ 32)) := by
  have hmake : ParsesInBounds buf ↔ IsInt (buf.length % 2 ^ 32 + 1) ∧ ∃ n e, e ≠ .outside ∧
      loop n (buf.take (buf.length % 2 ^ 32)) (int32 buf.length) = some e := by
    simp only [ParsesInBounds, copied_eq_ok, and_assoc, exists_and_left, exists_eq_left']
  rw [hmake]
  refine and_congr_right fun hlen => ?_
  have htake : (buf.take (buf.length % 2 ^ 32)).length = buf.length % 2 ^ 32 :=
    List.length_take_of_le (Nat.mod_le _ _)
  have hval : int32 buf.length = ((buf.take (buf.length % 2 ^ 32)).length : ℤ) := by
    rw [htake]
    unfold int32
    omega
  have hint : IsInt (buf.take (buf.length % 2 ^ 32)).length := by
    rw [htake]
    omega
  rw [hval]
  constructor
  · rintro ⟨n, e, he, hloop⟩ hbad
    exact he (loop_harmful hbad hint hloop)
  · exact loop_ends hint

/-- A record of length zero keeps the loop where it is. -/
theorem zero_entrylen_loops : ¬ParsesInBounds (List.replicate 12 0) := by
  rintro ⟨cstr, hcopy, n, e, he, hloop⟩
  have h12 : int32 (List.replicate 12 (0 : UInt8)).length = (List.replicate 12 (0 : UInt8)).length := by
    decide +kernel
  rw [copied_of_lt (by decide), Except.ok.injEq] at hcopy
  rw [h12, ← hcopy] at hloop
  exact he (loop_bad (by decide) ⟨by decide, .inr ⟨by decide, .inl (by decide)⟩⟩ hloop)

/-! ## Loops that stop early

The loops of `create` and `unlink` see the records that `readdir` sees, up to the one they stop at. -/

/-- Where a loop ends that passes over the given records. -/
def firstStop (stop : Entry → Bool) : ℕ → List Entry → ScanEnd
  | pos, [] => .finished pos
  | pos, e :: es => if stop e then .stopped pos e else firstStop stop (pos + e.entrylen.toNat) es

/-- An end inside of the content. -/
def EndsBy (limit : ℕ) : ScanEnd → Prop
  | .finished pos => pos = limit
  | .stopped pos e => pos + (e.filelen.toNat + 12) ≤ limit
  | .failed | .outside | .hangs => False

/-- Nothing is read beyond the end. -/
theorem parsedir_beyond {remain : ℤ} (h : remain ≠ 0) :
    parsedir [] remain = .failed ∨ parsedir [] remain = .outside := by
  unfold parsedir
  by_cases h8 : remain < 8
  · rw [if_pos h8, if_neg h]
    exact .inl rfl
  · rw [if_neg h8]
    exact .inr rfl

theorem scanFrom_beyond {stop : Entry → Bool} {fuel pos q : ℕ} {remain : ℤ} (h : remain ≠ 0) :
    (scanFrom stop fuel [] remain pos).2 ≠ .finished q := by
  cases fuel with
  | zero => simp [scanFrom]
  | succ fuel =>
    rw [scanFrom]
    rcases parsedir_beyond h with hp | hp
    · simp [hp]
    · simp [hp]

theorem scanFrom_firstStop (stop : Entry → Bool) {fuel pos q : ℕ} {es : List Entry}
    (hp : IsInt p.length)
    (h : scanFrom (fun _ => false) fuel p p.length pos = (es, .finished q)) :
    (scanFrom stop fuel p p.length pos).2 = firstStop stop pos es ∧
      EndsBy (pos + p.length) (firstStop stop pos es) := by
  induction fuel generalizing p pos es with
  | zero => simp [scanFrom] at h
  | succ fuel ih =>
    have hcases := parsedir_cases hp
    rw [scanFrom] at h ⊢
    generalize parsedir p p.length = x at hcases h
    cases hcases with
    | finished h0 =>
      simp only [Prod.mk.injEq] at h
      obtain ⟨rfl, -⟩ := h
      exact ⟨rfl, by simp [EndsBy, firstStop, h0]⟩
    | short | huge | long => simp at h
    | @entry e h8 fits name size =>
      simp only [Bool.false_eq_true, if_false] at h ⊢
      by_cases hzero : e.entrylen = 0
      · simp [hzero] at h
      simp only [hzero, if_false, Prod.mk.injEq] at h ⊢
      obtain ⟨rfl, hfin⟩ := h
      rw [firstStop]
      by_cases hstop : stop e = true
      · simp only [hstop, if_true, EndsBy, true_and]
        omega
      -- the next record starts inside of the content, or the loop would not have finished
      have hin : entrylen p ≤ p.length := by
        by_contra hout
        have hlt := e.entrylen.toNat_lt
        rw [List.drop_eq_nil_of_le (by omega)] at hfin
        exact scanFrom_beyond (by unfold int32; omega) hfin
      have hrest : int32 (p.length - entrylen p) = (p.drop (entrylen p)).length := by
        rw [List.length_drop, Nat.cast_sub hin, int32_of_lt (by omega) (by omega)]
      rw [hrest] at hfin ⊢
      simp only [hstop, if_false, Bool.false_eq_true]
      have hnext : scanFrom (fun _ => false) fuel (p.drop (entrylen p)) (p.drop (entrylen p)).length
        (pos + e.entrylen.toNat) = (_, .finished q) := Prod.ext rfl hfin
      obtain ⟨hend, hby⟩ := ih (by rw [List.length_drop]; omega) hnext
      refine ⟨hend, ?_⟩
      have hlen : pos + e.entrylen.toNat + (p.drop (entrylen p)).length = pos + p.length := by
        rw [List.length_drop]
        omega
      rwa [hlen] at hby

end Yfs.DirectoryParsing
