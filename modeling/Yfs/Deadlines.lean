import Mathlib.Data.Int.Init
import Mathlib.Algebra.Order.Ring.Int

/-!
# Deadlines

`call1` computes its deadlines with three functions on `struct timespec`. They are exact, except
that a sum of just one second of nanoseconds is not carried.
-/

namespace Yfs.Deadlines

structure Timespec where
  tvSec : ℤ
  tvNsec : ℤ
  deriving DecidableEq, Repr

/-- The result of an operation on `long`s; an overflow is undefined. -/
def long (x : ℤ) : Option ℤ := if -2 ^ 63 ≤ x ∧ x < 2 ^ 63 then some x else none

/-- Conversion to `int`. -/
def toInt (x : ℤ) : ℤ := x.bmod (2 ^ 32)

def cmpTimespec (a b : Timespec) : ℤ :=
  if b.tvSec < a.tvSec then 1
  else if a.tvSec < b.tvSec then -1
  else if b.tvNsec < a.tvNsec then 1
  else if a.tvNsec < b.tvNsec then -1
  else 0

/-- The loop of `add_timespec`. -/
def carry (sec nsec : ℤ) : Option Timespec :=
  if 1000000000 < nsec then (long (sec + 1)).bind fun sec => carry sec (nsec - 1000000000)
  else some ⟨sec, nsec⟩
termination_by nsec.toNat

/-- `add_timespec`, unless an assertion fails. -/
def addTimespec (a : Timespec) (b : ℤ) : Option Timespec := do
  let sec ← long (a.tvSec + b.tdiv 1000)
  let nsec ← long (a.tvNsec + b.tmod 1000 * 1000000)
  if nsec < 0 then none
  else carry sec nsec

/-- `(end.tv_sec > start.tv_sec)?(end.tv_sec-start.tv_sec)*1000:0` -/
def diffSec (fin start : Timespec) : Option ℤ :=
  if start.tvSec < fin.tvSec then do
    let secs ← long (fin.tvSec - start.tvSec)
    let ms ← long (secs * 1000)
    some (toInt ms)
  else some 0

/-- `diff_timespec`, unless an assertion fails. -/
def diffTimespec (fin start : Timespec) : Option ℤ := do
  let diff ← diffSec fin start
  if diff = 0 ∧ fin.tvSec ≠ start.tvSec then none
  else if start.tvNsec < fin.tvNsec then do
    let nsec ← long (fin.tvNsec - start.tvNsec)
    some (toInt (diff + nsec.tdiv 1000000))
  else do
    let nsec ← long (start.tvNsec - fin.tvNsec)
    some (toInt (diff - nsec.tdiv 1000000))

/-! ## Instants -/

/-- The instant that a `timespec` denotes, in nanoseconds. -/
def instant (t : Timespec) : ℤ := t.tvSec * 1000000000 + t.tvNsec

def Normal (t : Timespec) : Prop := 0 ≤ t.tvNsec ∧ t.tvNsec < 1000000000

/-- A time of the clock and a number of milliseconds after which a `time_t` still has room for the
seconds. -/
structure Input (a : Timespec) (b : ℤ) : Prop where
  normal : Normal a
  sec : -2 ^ 63 ≤ a.tvSec ∧ a.tvSec < 2 ^ 63
  ms : 0 ≤ b ∧ b < 2 ^ 31
  room : instant a + b * 1000000 < 2 ^ 63 * 1000000000

/-- The nanoseconds do not add up to one second exactly. -/
def Uneven (a : Timespec) (b : ℤ) : Prop := a.tvNsec + b % 1000 * 1000000 ≠ 1000000000

/-- What a deadline `r` that lies `b` milliseconds after `a` should be. -/
structure Exact (a : Timespec) (b : ℤ) (r : Timespec) : Prop where
  normal : Normal r
  later : instant r = instant a + b * 1000000
  compared : cmpTimespec r a = if b = 0 then 0 else 1
  diff : diffTimespec r a = some b

variable {a a' r r' t u : Timespec} {b b' x sec nsec : ℤ}

theorem long_of_mem (h₁ : -2 ^ 63 ≤ x) (h₂ : x < 2 ^ 63) : long x = some x := if_pos ⟨h₁, h₂⟩

theorem toInt_of_mem (h₁ : -2 ^ 31 ≤ x) (h₂ : x < 2 ^ 31) : toInt x = x := by
  unfold toInt
  exact Int.bmod_eq_of_le (by omega) (by omega)

theorem toInt_ne_zero (h₁ : 0 < x) (h₂ : x < 2 ^ 32) : toInt x ≠ 0 := by
  intro h
  have hle := Int.le_of_dvd h₁ (Int.dvd_of_bmod_eq_zero h)
  omega

/-- Normalised times are ordered as the instants that they denote. -/
theorem cmpTimespec_normal (ht : Normal t) (hu : Normal u) :
    cmpTimespec t u = (instant t - instant u).sign := by
  obtain ⟨ht₀, ht₁⟩ := ht
  obtain ⟨hu₀, hu₁⟩ := hu
  unfold cmpTimespec instant
  split_ifs
  · rw [Int.sign_eq_one_of_pos]
    omega
  · rw [Int.sign_eq_neg_one_of_neg]
    omega
  · rw [Int.sign_eq_one_of_pos]
    omega
  · rw [Int.sign_eq_neg_one_of_neg]
    omega
  · rw [show t.tvSec * 1000000000 + t.tvNsec - (u.tvSec * 1000000000 + u.tvNsec) = 0 by omega]
    rfl

theorem carry_stop (h : nsec ≤ 1000000000) : carry sec nsec = some ⟨sec, nsec⟩ := by
  rw [carry, if_neg (by omega)]

theorem carry_once (h : 1000000000 < nsec) (h' : nsec ≤ 2000000000) (hs₀ : -2 ^ 63 ≤ sec)
    (hs : sec + 1 < 2 ^ 63) : carry sec nsec = some ⟨sec + 1, nsec - 1000000000⟩ := by
  rw [carry, if_pos h, long_of_mem (by omega) hs, Option.bind_some, carry_stop (by omega)]

/-- What `add_timespec` returns: the loop runs at most once, and not at all for a sum of just one
second. -/
theorem addTimespec_eq (h : Input a b) : addTimespec a b = some
    (if a.tvNsec + b % 1000 * 1000000 ≤ 1000000000
      then ⟨a.tvSec + b / 1000, a.tvNsec + b % 1000 * 1000000⟩
      else ⟨a.tvSec + b / 1000 + 1, a.tvNsec + b % 1000 * 1000000 - 1000000000⟩) := by
  obtain ⟨⟨hn₀, hn₁⟩, ⟨hs₀, hs₁⟩, ⟨hb₀, hb₁⟩, hroom⟩ := h
  unfold instant at hroom
  have hdiv : b.tdiv 1000 = b / 1000 := Int.tdiv_eq_ediv_of_nonneg hb₀
  have hmod : b.tmod 1000 = b % 1000 := Int.tmod_eq_emod_of_nonneg hb₀
  have hsec : long (a.tvSec + b / 1000) = some (a.tvSec + b / 1000) :=
    long_of_mem (by omega) (by omega)
  have hnsec : long (a.tvNsec + b % 1000 * 1000000) = some (a.tvNsec + b % 1000 * 1000000) :=
    long_of_mem (by omega) (by omega)
  simp only [addTimespec, hdiv, hmod, hsec, hnsec, Option.bind_eq_bind, Option.bind_some]
  rw [if_neg (by omega)]
  split_ifs with hle
  · exact carry_stop hle
  · exact carry_once (by omega) (by omega) (by omega) (by omega)

theorem toInt_add_toInt (x y : ℤ) : toInt (toInt x + y) = toInt (x + y) := Int.bmod_add_bmod

theorem diffSec_eq (h₀ : u.tvSec ≤ t.tvSec) (h : t.tvSec - u.tvSec < 2 ^ 32) :
    diffSec t u = some (toInt ((t.tvSec - u.tvSec) * 1000)) := by
  unfold diffSec
  split_ifs with hlt
  · simp only [long_of_mem (x := t.tvSec - u.tvSec) (by omega) (by omega),
      long_of_mem (x := (t.tvSec - u.tvSec) * 1000) (by omega) (by omega), Option.bind_eq_bind,
      Option.bind_some]
  · rw [show t.tvSec - u.tvSec = 0 by omega]
    rfl

/-- The difference of a normalised time and an earlier one, as far as it is an `int`. The seconds
alone may be too large for an `int`. -/
theorem diffTimespec_normal (ht : Normal t) (hu : Normal u) (hb₀ : 0 ≤ b) (hb : b < 2 ^ 31)
    (h : instant t = instant u + b * 1000000) : diffTimespec t u = some b := by
  obtain ⟨ht₀, ht₁⟩ := ht
  obtain ⟨hu₀, hu₁⟩ := hu
  unfold instant at h
  have hsec := diffSec_eq (t := t) (u := u) (by omega) (by omega)
  have hzero : ¬(toInt ((t.tvSec - u.tvSec) * 1000) = 0 ∧ t.tvSec ≠ u.tvSec) := by
    rintro ⟨h0, hne⟩
    exact toInt_ne_zero (by omega) (by omega) h0
  simp only [diffTimespec, hsec, Option.bind_eq_bind, Option.bind_some, if_neg hzero]
  split_ifs with hlt
  · have hdiv : (t.tvNsec - u.tvNsec).tdiv 1000000 = b - (t.tvSec - u.tvSec) * 1000 := by
      rw [Int.tdiv_eq_ediv_of_nonneg (by omega)]
      omega
    rw [long_of_mem (by omega) (by omega), Option.bind_some, hdiv, toInt_add_toInt,
      add_sub_cancel, toInt_of_mem (by omega) hb]
  · have hdiv : (u.tvNsec - t.tvNsec).tdiv 1000000 = (t.tvSec - u.tvSec) * 1000 - b := by
      rw [Int.tdiv_eq_ediv_of_nonneg (by omega)]
      omega
    rw [long_of_mem (by omega) (by omega), Option.bind_some, hdiv, sub_eq_add_neg,
      toInt_add_toInt, neg_sub, add_sub_cancel, toInt_of_mem (by omega) hb]

theorem addTimespec_normal (h : Input a b) (hu : Uneven a b) :
    ∃ r, addTimespec a b = some r ∧ Normal r ∧ instant r = instant a + b * 1000000 := by
  refine ⟨_, addTimespec_eq h, ?_⟩
  obtain ⟨⟨hn₀, hn₁⟩, -, ⟨hb₀, hb₁⟩, -⟩ := h
  unfold Uneven at hu
  split_ifs with hle
  · refine ⟨⟨?_, ?_⟩, ?_⟩ <;> dsimp only [instant] <;> omega
  · refine ⟨⟨?_, ?_⟩, ?_⟩ <;> dsimp only [instant] <;> omega

theorem addTimespec_exact (h : Input a b) (hu : Uneven a b) :
    ∃ r, addTimespec a b = some r ∧ Exact a b r := by
  obtain ⟨r, hr, hnormal, hlater⟩ := addTimespec_normal h hu
  refine ⟨r, hr, hnormal, hlater, ?_, diffTimespec_normal hnormal h.normal h.ms.1 h.ms.2 hlater⟩
  rw [cmpTimespec_normal hnormal h.normal, hlater, add_sub_cancel_left]
  have hb₀ := h.ms.1
  split_ifs with hb
  · rw [hb]
    rfl
  · exact Int.sign_eq_one_of_pos (by omega)

/-- `add_timespec` is exact and `cmp_timespec` orders its results as the instants they denote, for
all sums of nanoseconds but the one that `while (result->tv_nsec > 1000000000)` leaves alone. -/
theorem deadlines_exact_iff (h : Input a b) : Uneven a b ↔
    ∃ r, addTimespec a b = some r ∧ Exact a b r ∧
      ∀ a' b' r', Input a' b' → Uneven a' b' → addTimespec a' b' = some r' →
        cmpTimespec r r' = (instant r - instant r').sign := by
  constructor
  · intro hu
    obtain ⟨r, hr, hexact⟩ := addTimespec_exact h hu
    refine ⟨r, hr, hexact, ?_⟩
    intro a' b' r' h' hu' hr'
    obtain ⟨r₁, hr₁, hnormal, -⟩ := addTimespec_normal h' hu'
    obtain rfl : r₁ = r' := Option.some.inj (hr₁.symm.trans hr')
    exact cmpTimespec_normal hexact.normal hnormal
  · rintro ⟨r, hr, hexact, -⟩ heven
    rw [addTimespec_eq h, if_pos heven.le] at hr
    obtain rfl := Option.some.inj hr
    exact absurd hexact.normal.2 (by dsimp only; omega)

theorem deadlines_exact_carry : Input ⟨7, 999999999⟩ 1 ∧ Uneven ⟨7, 999999999⟩ 1 ∧
    ∃ r, addTimespec ⟨7, 999999999⟩ 1 = some r ∧ Exact ⟨7, 999999999⟩ 1 r := by
  have h : Input ⟨7, 999999999⟩ 1 := by
    refine ⟨⟨?_, ?_⟩, ⟨?_, ?_⟩, ⟨?_, ?_⟩, ?_⟩ <;> decide
  have hu : Uneven ⟨7, 999999999⟩ 1 := by
    unfold Uneven
    decide
  obtain ⟨r, hr, hexact, -⟩ := (deadlines_exact_iff h).1 hu
  exact ⟨h, hu, r, hr, hexact⟩

/-- Half a second and 500 ms: the result is not normalised, and compares as earlier than the same
instant written as one second. -/
theorem full_second_not_carried :
    Input ⟨0, 500000000⟩ 500 ∧ Input ⟨1, 0⟩ 0 ∧ ∃ r r',
      addTimespec ⟨0, 500000000⟩ 500 = some r ∧ addTimespec ⟨1, 0⟩ 0 = some r' ∧
        ¬Normal r ∧ instant r = instant r' ∧ cmpTimespec r r' = -1 := by
  have h : Input ⟨0, 500000000⟩ 500 := by
    refine ⟨⟨?_, ?_⟩, ⟨?_, ?_⟩, ⟨?_, ?_⟩, ?_⟩ <;> decide
  have h' : Input ⟨1, 0⟩ 0 := by
    refine ⟨⟨?_, ?_⟩, ⟨?_, ?_⟩, ⟨?_, ?_⟩, ?_⟩ <;> decide
  refine ⟨h, h', _, _, addTimespec_eq h, addTimespec_eq h', ?_⟩
  simp [Normal, instant, cmpTimespec]

end Yfs.Deadlines
