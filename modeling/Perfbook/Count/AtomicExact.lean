/-
# `count_lim_atomic` is an exact bounded counter

Whenever the mutex is free, the allowances of the registered threads are
what is reserved, each thread's part is within its allowance, and the global
part with the reserve is within the limit; no `unsigned long` has wrapped.
The steps of a call that returns 1 change the number counted by exactly
`delta`, once; those of a call that returns 0 leave it as it is, and the
number was over the limit with `delta` (or below `delta`) at the call's
final test.

Key definition: `Exact`.
Key theorems: `reach_inv`, `exact_counter`.
-/
import Perfbook.Count.AtomicInv

namespace Perfbook
namespace Count
namespace Atomic

open Conc

variable {n : ℕ} {cfg : Config} {s : St n}

structure Exact (cfg : Config) (s : St n) : Prop where
  /-- with the mutex free, the number counted is in `globalcount` and the counters -/
  total : s.mutex = none → s.total = s.globalcount + ∑ t with s.counterp t, (s.c t : ℤ)
  reserve : s.mutex = none → ∑ t with s.counterp t, s.cm t = s.globalreserve
  counter : ∀ t, s.c t ≤ s.cm t ∧ s.cm t ≤ maxCountermax
  limit : s.mutex = none → s.globalcount + s.globalreserve ≤ cfg.globalcountmax
  noWrap : s.wrapped = false
  answers : s.Answers cfg

theorem reach_inv (h : (sys n cfg).Reach Sys.always s) : Inv cfg s := by
  refine h.inv (fun _ => inv_init) fun a s s' hi _ hn => ?_
  have hn' : next cfg a s = some s' := hn
  exact inv_next hi hn'

theorem exact_counter (h : (sys n cfg).Reach Sys.always s) : Exact cfg s := by
  have hi := reach_inv h
  have hfree : s.mutex = none → s.books.count = s.globalcount ∧ s.books.reserve = s.globalreserve :=
    fun hm => by simp [St.books, flight_of_free hm]
  have hc0 : ∀ t, s.counterp t = false → s.c t = 0 := fun t ht =>
    hi.c_eq_zero (hi.unregistered t ht)
  refine ⟨fun hm => ?_, fun hm => ?_, fun t => ⟨hi.c_le_cm t, (split_le _).2⟩, fun hm => ?_,
    hi.noWrap, Calls.Answers.of_settled hi.returned⟩
  · have hsum := congrArg (Nat.cast : ℕ → ℤ) (Calls.sum_registered s.c hc0)
    push_cast at hsum
    rw [St.total, Books.total, (hfree hm).1, hsum]
    rfl
  · have hsum : ∑ t, (s.cm t : ℤ) = s.globalreserve := (hfree hm).2 ▸ hi.balanced.reserve
    rw [Calls.sum_registered s.cm hi.unregistered]
    exact_mod_cast hsum
  · have := hi.balanced.limit
    rw [(hfree hm).1, (hfree hm).2] at this
    exact_mod_cast this

/-! ### A run -/

/-- 64-bit words and a limit of 10. -/
def config : Config := ⟨64, 10, Config.wide_64, Config.ten_fits⟩

/-- Nothing counted, no thread registered. -/
def start : St 2 where
  counterandmax _ := 0
  globalcount := 0
  globalreserve := 0
  counterp _ := false
  mutex := none
  loc _ := .idle
  ret _ := none
  wrapped := false
  call _ := none
  moves _ := []
  atTest _ := none

theorem start_init : Init start :=
  ⟨fun _ => rfl, rfl, rfl, fun _ => rfl, rfl, fun _ => rfl, fun _ => rfl, rfl⟩

/-- `m` steps of thread `t` in a row, two threads being online. -/
def steps (m : ℕ) (t : Fin 2) : List (Act 2) := List.replicate m (.step t 2)

/-- Thread 0 counts 3, and gets an allowance of 3 from what is left; thread 1
then cannot count 8. -/
def refused : List (Act 2) :=
  [.register 0] ++ steps 3 0 ++ [.register 1] ++ steps 3 1 ++ [.call .add 0 3] ++ steps 14 0 ++
    [.call .add 1 8] ++ steps 19 1

theorem exact_counter_run : ∃ s, (sys 2 config).Reach Sys.always s ∧
    (s.ret 0, s.ret 1, s.atTest 1) = (some 1, some 0, some 3) ∧ Exact config s := by
  have hrun : ((sys 2 config).run Sys.always refused start).map
      (fun s => (s.ret 0, s.ret 1, s.atTest 1)) = some (some 1, some 0, some 3) := by
    decide
  obtain ⟨s, hs, hd⟩ := Option.map_eq_some_iff.mp hrun
  have hr := Sys.run_reach (.init start_init) hs
  exact ⟨s, hr, hd, exact_counter hr⟩

end Atomic
end Count
end Perfbook
