/-
# The calls of a limit counter

What the threads of a limit counter called, what the calls returned, and as
history what they did: `moves` are the changes that the steps of a thread
made to the number counted since its last call began, and `atTest` is that
number at the final test of the call.

A call is `Pending` until it makes its change, `Moved` after that, and
`Settled` with what it may return: 1 if it made its change once, 0 if it made
none and the change was not possible at its final test.

Key definitions: `Job`, `Calls`, `Calls.Pending`, `Calls.Moved`, `Calls.Settled`.
Key theorems: `Calls.record_zero`, `Calls.record_once`, `Calls.Answers.of_settled`.
-/
import Mathlib.Logic.Function.Basic
import Perfbook.Count.Config

namespace Perfbook
namespace Count

/-- What the mutex of a limit counter is taken for. -/
inductive Job
  | update (k : Kind) (delta : ℕ)
  | register
  | unregister
deriving DecidableEq

structure Calls (n : ℕ) where
  /-- `counterp[t] != NULL`: the thread is registered -/
  counterp : Fin n → Bool
  /-- the last `add_count` or `sub_count` of a thread -/
  call : Fin n → Option (Kind × ℕ)
  /-- what it returned, if it has -/
  ret : Fin n → Option ℕ
  moves : Fin n → List ℤ
  atTest : Fin n → Option ℤ

namespace Calls

variable {n : ℕ} {s s' : Calls n} {t u : Fin n} {k : Kind} {delta r : ℕ} {cfg : Config}

/-- A call of `t` begins. -/
def begin (s : Calls n) (k : Kind) (t : Fin n) (delta : ℕ) : Calls n :=
  { s with
    call := Function.update s.call t (some (k, delta))
    ret := Function.update s.ret t none
    moves := Function.update s.moves t []
    atTest := Function.update s.atTest t none }

/-- The call of `t` returns. -/
def answer (s : Calls n) (t : Fin n) (r : ℕ) : Calls n :=
  { s with ret := Function.update s.ret t (some r) }

/-- The final test of a call of `t`, at which the number counted is `x`. -/
def note (s : Calls n) (t : Fin n) (x : ℤ) : Calls n :=
  { s with atTest := Function.update s.atTest t (some x) }

/-- A step of `t` has changed the number counted by `d`. -/
def record (s : Calls n) (t : Fin n) (d : ℤ) : Calls n :=
  { s with moves := Function.update s.moves t (s.moves t ++ if d = 0 then [] else [d]) }

/-- The call of `t` has changed nothing yet. -/
def Pending (s : Calls n) (t : Fin n) (k : Kind) (delta : ℕ) : Prop :=
  s.call t = some (k, delta) ∧ s.moves t = [] ∧ s.ret t = none ∧ s.counterp t = true

/-- The call of `t` has made its change. -/
def Moved (s : Calls n) (t : Fin n) : Prop :=
  ∃ k delta, s.call t = some (k, delta) ∧ s.moves t = once k delta ∧ s.ret t = none ∧
    s.counterp t = true

/-- The call of `t` made its change, or failed at its final test. -/
def Settled (cfg : Config) (s : Calls n) (t : Fin n) (r : ℕ) : Prop :=
  ∃ k delta, s.call t = some (k, delta) ∧ (r = 1 ∧ s.moves t = once k delta ∨
    r = 0 ∧ s.moves t = [] ∧ ∃ x, s.atTest t = some x ∧ k.exceeds cfg.globalcountmax delta x)

def JobInv (s : Calls n) (t : Fin n) : Job → Prop
  | .update k delta => s.Pending t k delta
  | _ => True

/-- What the calls return is what they did. -/
structure Answers (cfg : Config) (s : Calls n) : Prop where
  /-- a call that returned 1 changed the number counted once, by `delta` -/
  granted : ∀ t k delta, s.call t = some (k, delta) → s.ret t = some 1 → s.moves t = once k delta
  /-- one that returned 0 did not change it, and could not be granted at its final test -/
  failed : ∀ t k delta, s.call t = some (k, delta) → s.ret t = some 0 → s.moves t = [] ∧
    ∃ x, s.atTest t = some x ∧ k.exceeds cfg.globalcountmax delta x
  returns : ∀ t r, s.ret t = some r → r = 0 ∨ r = 1

theorem Answers.of_settled (h : ∀ t r, s.ret t = some r → Settled cfg s t r) : Answers cfg s where
  granted t k delta hcall hr := by
    obtain ⟨k', delta', hcall', hm | hm⟩ := h t 1 hr
    · obtain ⟨rfl, rfl⟩ := Prod.mk.inj (Option.some.inj (hcall.symm.trans hcall'))
      exact hm.2
    · exact absurd hm.1 (by omega)
  failed t k delta hcall hr := by
    obtain ⟨k', delta', hcall', hm | hm⟩ := h t 0 hr
    · exact absurd hm.1 (by omega)
    · obtain ⟨rfl, rfl⟩ := Prod.mk.inj (Option.some.inj (hcall.symm.trans hcall'))
      exact hm.2
  returns t r hr := by
    obtain ⟨k', delta', -, hm | hm⟩ := h t r hr
    · exact .inr hm.1
    · exact .inl hm.1

/-- Threads that are not registered have no part. -/
theorem sum_registered (f : Fin n → ℕ) (h : ∀ t, s.counterp t = false → f t = 0) :
    ∑ t with s.counterp t, f t = ∑ t, f t :=
  Finset.sum_filter_of_ne fun t _ ht => by
    by_contra hc
    exact ht (h t (Bool.eq_false_iff.mpr hc))

/-! ### What is recorded -/

theorem record_zero : s.record t 0 = s := by
  rw [record, if_pos rfl, List.append_nil, Function.update_eq_self]

/-- The step that makes the change of a call is the only one that is recorded. -/
theorem record_once (hm : s.moves t = []) :
    (s.record t (k.change delta)).moves t = once k delta := by
  rw [record, once]
  dsimp only
  rw [Function.update_self, hm, List.nil_append]

/-! ### What the steps of others leave as it is -/

/-- The calls of `u`, and what it registered, are the same. -/
structure Own (u : Fin n) (s s' : Calls n) : Prop where
  call : s'.call u = s.call u
  moves : s'.moves u = s.moves u
  ret : s'.ret u = s.ret u
  atTest : s'.atTest u = s.atTest u
  counterp : s'.counterp u = s.counterp u

theorem Own.refl : Own u s s := ⟨rfl, rfl, rfl, rfl, rfl⟩

theorem Own.record {d : ℤ} (ho : Own u s s') (hu : u ≠ t) : Own u s (s'.record t d) :=
  ⟨ho.call, (Function.update_of_ne hu _ _).trans ho.moves, ho.ret, ho.atTest, ho.counterp⟩

theorem Own.answer (hu : u ≠ t) : Own u s (s.answer t r) :=
  ⟨rfl, rfl, Function.update_of_ne hu _ _, rfl, rfl⟩

theorem Own.note {x : ℤ} (hu : u ≠ t) : Own u s (s.note t x) :=
  ⟨rfl, rfl, rfl, Function.update_of_ne hu _ _, rfl⟩

theorem Own.begin (hu : u ≠ t) : Own u s (s.begin k t delta) :=
  ⟨Function.update_of_ne hu _ _, Function.update_of_ne hu _ _, Function.update_of_ne hu _ _,
    Function.update_of_ne hu _ _, rfl⟩

theorem Moved.settled (h : s.Moved t) : Settled cfg s t 1 :=
  let ⟨k, delta, hcall, hmoves, _⟩ := h
  ⟨k, delta, hcall, .inl ⟨rfl, hmoves⟩⟩

/-- The answer of a call is what it settled to. -/
theorem Settled.answer {r' : ℕ} (h : Settled cfg s t r) (hr : (s.answer t r).ret t = some r') :
    Settled cfg (s.answer t r) t r' := by
  have hr' : Function.update s.ret t (some r) t = some r' := hr
  rw [Function.update_self] at hr'
  exact Option.some.inj hr' ▸ h

theorem Pending.begin (hc : s.counterp t = true) : (s.begin k t delta).Pending t k delta :=
  ⟨Function.update_self .., Function.update_self .., Function.update_self .., hc⟩

theorem Pending.frame (h : s.Pending u k delta) (ho : Own u s s') : s'.Pending u k delta := by
  rw [Pending, ho.call, ho.moves, ho.ret, ho.counterp]
  exact h

theorem Moved.frame (h : s.Moved u) (ho : Own u s s') : s'.Moved u := by
  rw [Moved, ho.call, ho.moves, ho.ret, ho.counterp]
  exact h

theorem Settled.frame (h : Settled cfg s u r) (ho : Own u s s') : Settled cfg s' u r := by
  rw [Settled, ho.call, ho.moves, ho.atTest]
  exact h

theorem JobInv.frame {j : Job} (h : s.JobInv u j) (ho : Own u s s') : s'.JobInv u j := by
  cases j with
  | update k delta => exact Pending.frame h ho
  | _ => trivial

end Calls
end Count
end Perfbook
