import Mathlib.Algebra.GroupWithZero.Nat
import Mathlib.Data.List.Basic

/-!
# Runs of labelled transition systems

A run records its labels oldest first. The rules below are the only way the later files
reason about runs: an invariant of states, an invariant that also reads the labels seen so
far, and one that rests on what the labels are.
-/

namespace Yfs.LabelledRuns

variable {S S' L L' : Type*}

/-- A finite run from `a` to the last state, with the labels of its steps. -/
inductive Run (step : S → L → S → Prop) (a : S) : List L → S → Prop where
  | nil : Run step a [] a
  | snoc {tr : List L} {b c : S} {l : L} (run : Run step a tr b) (last : step b l c) :
      Run step a (tr ++ [l]) c

theorem Run.single {step : S → L → S → Prop} {a b : S} {l : L} (h : step a l b) :
    Run step a [l] b := .snoc .nil h

theorem Run.append {step : S → L → S → Prop} {a b c : S} {tr tr' : List L}
    (h : Run step a tr b) (h' : Run step b tr' c) : Run step a (tr ++ tr') c := by
  induction h' with
  | nil => simpa using h
  | snoc _ last ih => simpa [List.append_assoc] using ih.snoc last

/-- A run passes through the states before and after each of its labels. -/
theorem Run.split {step : S → L → S → Prop} {a b : S} {tr tr' : List L} {l : L}
    (h : Run step a (tr ++ l :: tr') b) :
    ∃ c d, Run step a tr c ∧ step c l d ∧ Run step d tr' b := by
  generalize he : tr ++ l :: tr' = all at h
  induction h generalizing tr' with
  | nil => simp at he
  | @snoc all₀ b c l₀ run last ih =>
    rcases List.eq_nil_or_concat tr' with rfl | ⟨tr₀, l₁, rfl⟩
    · obtain ⟨rfl, hl⟩ := List.append_inj' he rfl
      obtain rfl := List.singleton_inj.mp hl
      exact ⟨b, c, run, last, .nil⟩
    · rw [List.concat_eq_append, ← List.cons_append, ← List.append_assoc] at he
      obtain ⟨rfl, hl⟩ := List.append_inj' he rfl
      obtain rfl := List.singleton_inj.mp hl
      obtain ⟨c₀, d, h1, h2, h3⟩ := ih rfl
      exact ⟨c₀, d, h1, h2, by simpa using h3.snoc last⟩

/-- What holds at the start and survives every step holds at the end of every run. -/
theorem Run.invariant {step : S → L → S → Prop} {a b : S} {tr : List L} {I : S → Prop}
    (h : Run step a tr b) (start : I a) (keep : ∀ b l c, I b → step b l c → I c) : I b := by
  induction h with
  | nil => exact start
  | snoc _ last ih => exact keep _ _ _ ih last

/-- The same rule for a property of the labels seen so far and the state. -/
theorem Run.history_invariant {step : S → L → S → Prop} {a b : S} {tr : List L}
    {I : List L → S → Prop} (h : Run step a tr b) (start : I [] a)
    (keep : ∀ tr b l c, Run step a tr b → I tr b → step b l c → I (tr ++ [l]) c) : I tr b := by
  induction h with
  | nil => exact start
  | snoc run last ih => exact keep _ _ _ _ run ih last

/-- What survives every step with a label in `P` survives a run with such labels. -/
theorem Run.invariant_on {step : S → L → S → Prop} {a b : S} {tr : List L} {I : S → Prop}
    {P : L → Prop} (h : Run step a tr b) (labels : ∀ l ∈ tr, P l) (start : I a)
    (keep : ∀ b l c, P l → I b → step b l c → I c) : I b := by
  induction h with
  | nil => exact start
  | snoc _ last ih =>
    rw [List.forall_mem_append, List.forall_mem_singleton] at labels
    exact keep _ _ _ labels.2 (ih labels.1) last

/-- A run of a stricter step relation is a run. -/
theorem Run.mono {step step' : S → L → S → Prop} {a b : S} {tr : List L} (h : Run step a tr b)
    (sub : ∀ b l c, step b l c → step' b l c) : Run step' a tr b := by
  induction h with
  | nil => exact .nil
  | snoc _ last ih => exact ih.snoc (sub _ _ _ last)

/-- What a list sums up to when one of its entries changes. -/
theorem sum_set {α : Type*} (w : α → ℕ) (b : α) {l : List α} {a : α} {i : ℕ}
    (hi : l[i]? = some a) : ((l.set i b).map w).sum + w a = (l.map w).sum + w b := by
  obtain ⟨hlt, rfl⟩ := List.getElem?_eq_some_iff.mp hi
  have hl : l = l.take i ++ l[i] :: l.drop (i + 1) := by simp
  have hset : l.set i b = l.take i ++ b :: l.drop (i + 1) :=
    List.set_eq_take_append_cons_drop.trans (if_pos hlt)
  rw [hset]
  conv_rhs => rw [hl]
  simp only [List.map_append, List.map_cons, List.sum_append, List.sum_cons]
  omega

/-- What one more label adds to what is read off a trace. -/
theorem filterMap_concat {α β : Type*} (f : α → Option β) (l : List α) (a : α) :
    (l ++ [a]).filterMap f = l.filterMap f ++ (f a).toList := by
  rw [List.filterMap_append]
  cases h : f a <;> simp [h]

end Yfs.LabelledRuns
