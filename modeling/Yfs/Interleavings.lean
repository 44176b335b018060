import Yfs.CallTrees
import Yfs.LabelledRuns
import Mathlib.Logic.Function.Basic

/-!
# Interleaved programs

Programs that share a world and make their calls in any order. Programs that do not notice each
other's calls, or go on in the same way whatever they notice, behave as if they had run one after the
other, in whatever order.
-/

namespace Yfs.Interleavings
open CallTrees LabelledRuns

variable {Q A ε α σ ι : Type} [DecidableEq ι]

/-- What is left of each program, and the world. -/
structure State (Q A ε α σ ι : Type) where
  progs : ι → Prog Q A ε α
  world : σ

variable (serve : Q → σ → σ × A)

/-- One program makes one call. -/
inductive Step : State Q A ε α σ ι → ι → State Q A ε α σ ι → Prop where
  | call {s : State Q A ε α σ ι} {i : ι} {q : Q} {k : A → Prog Q A ε α}
      (h : s.progs i = .call q k) :
      Step s i ⟨Function.update s.progs i (k (serve q s.world).2), (serve q s.world).1⟩

/-- Every call that the program makes, run alone, is allowed, and the program goes on in the same way
after an answer that looks alike. -/
def Makes (allowed : Q → Prop) (alike : Q → A → A → Prop) : Prog Q A ε α → σ → Prop
  | .ret _, _ => True
  | .fault _, _ => True
  | .call q k, s => allowed q ∧ (∀ a, alike q a (serve q s).2 → k a = k (serve q s).2) ∧
      Makes allowed alike (k (serve q s).2) (serve q s).1

variable {serve} {allowed : ι → Q → Prop} {alike : ι → Q → A → A → Prop}
  {agree : ι → σ → σ → Prop} {rest : σ → Prop} {p : ι → Prog Q A ε α} {a : ι → α} {s s₀ : σ} {i : ι}

/-- Along an interleaving, each program is where it would be alone in a world that looks the same. -/
structure Follows (serve : Q → σ → σ × A) (allowed : ι → Q → Prop) (alike : ι → Q → A → A → Prop)
    (agree : ι → σ → σ → Prop) (p : ι → Prog Q A ε α) (s₀ : σ) (st : State Q A ε α σ ι) (i : ι)
    (t : σ) : Prop where
  alone : run serve (st.progs i) t = run serve (p i) s₀
  makes : Makes serve (allowed i) (alike i) (st.progs i) t
  agree : agree i st.world t

end Yfs.Interleavings
