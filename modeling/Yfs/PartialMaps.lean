import Mathlib.Logic.Function.Basic

/-!
# Changing one entry of a partial map

Who is found in a map after one of its entries was replaced or taken out.
-/

namespace Yfs.PartialMaps

variable {α β : Type*} [DecidableEq α] {f : α → Option β} {a b : α} {x y : β}

theorem update_some_iff :
    Function.update f a (some x) b = some y ↔ b = a ∧ y = x ∨ b ≠ a ∧ f b = some y := by
  by_cases h : b = a
  · subst h
    simp [eq_comm]
  · simp [h]

theorem update_none_iff : Function.update f a none b = some y ↔ b ≠ a ∧ f b = some y := by
  by_cases h : b = a
  · simp [h]
  · simp [h]

/-- An entry that is there stays there when it or another one is replaced. -/
theorem update_some_ne_none (h : f b ≠ none) : Function.update f a (some x) b ≠ none := by
  by_cases hb : b = a
  · simp [hb]
  · simpa [hb] using h

end Yfs.PartialMaps
