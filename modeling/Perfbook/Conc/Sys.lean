/-
# Systems that run in steps

A concurrent program is a system: its initial states, and what each action
does to a state if it can be taken there. An action names the thread that
moves and whatever the environment chooses (the argument of a call, the
address `malloc` returns). A run is any order of actions, so a fact about
every reachable state is a fact about every interleaving.

`Reach ok` are the states of the runs whose every step meets `ok`; `Reach
always` are those of all runs. `Reach.inv` is the invariant rule, and
`run_reach` makes a schedule that evaluates into a run.

Key definitions: `Sys`, `Sys.Reach`, `Sys.run`.
Key theorems: `Sys.Reach.inv`, `Sys.run_reach`.
-/
import Mathlib.Data.Nat.Notation
import Mathlib.Logic.Function.Basic

namespace Perfbook
namespace Conc

universe u v

/-! The threads of a run on fixed inputs are numbered. -/

instance neZero_one : @NeZero ℕ Zero.ofOfNat0 1 := ⟨Nat.succ_ne_zero 0⟩
instance neZero_two : @NeZero ℕ Zero.ofOfNat0 2 := ⟨Nat.succ_ne_zero 1⟩
instance neZero_three : @NeZero ℕ Zero.ofOfNat0 3 := ⟨Nat.succ_ne_zero 2⟩

/-- A system: where it starts, and what an action does in a state (`none`
if it cannot be taken there). -/
structure Sys (σ : Type u) (α : Type v) where
  init : σ → Prop
  next : α → σ → Option σ

namespace Sys

variable {σ : Type u} {α : Type v} (S : Sys σ α)

/-- No condition on the steps. -/
def always (_ : α) (_ : σ) : Prop := True

/-- The states that runs reach whose every step `a`, taken in `s`, has `ok a s`. -/
inductive Reach (ok : α → σ → Prop) : σ → Prop
  | init {s : σ} : S.init s → Reach ok s
  | step {s s' : σ} (a : α) : Reach ok s → ok a s → S.next a s = some s' → Reach ok s'

variable {S}

/-- **The invariant rule.** What holds at the start and is kept by every
step that a run may take holds in every state the run reaches. -/
theorem Reach.inv {ok : α → σ → Prop} {I : σ → Prop} (h0 : ∀ s, S.init s → I s)
    (hstep : ∀ a s s', I s → ok a s → S.next a s = some s' → I s') {s : σ} (h : S.Reach ok s) :
    I s := by
  induction h with
  | init h => exact h0 _ h
  | step a _ hok hn ih => exact hstep a _ _ ih hok hn

variable (S)

instance (a : α) (s : σ) : Decidable (always a s) := .isTrue trivial

/-- The state a schedule ends in, if all its steps can be taken and meet `ok`. -/
def run (ok : α → σ → Prop) [∀ a s, Decidable (ok a s)] : List α → σ → Option σ
  | [], s => some s
  | a :: as, s => if ok a s then (S.next a s).bind (run ok as) else none

variable {S}

theorem run_reach {ok : α → σ → Prop} [∀ a s, Decidable (ok a s)] {as : List α} {s s' : σ}
    (hs : S.Reach ok s) (h : S.run ok as s = some s') : S.Reach ok s' := by
  induction as generalizing s with
  | nil =>
    rw [run, Option.some.injEq] at h
    exact h ▸ hs
  | cons a as ih =>
    rw [run] at h
    split at h
    · rename_i hok
      obtain ⟨t, ht, htr⟩ := Option.bind_eq_some_iff.mp h
      exact ih (.step a hs hok ht) htr
    · cases h

end Sys
end Conc
end Perfbook
