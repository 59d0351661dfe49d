/-
# `count_lim_sig` steals safely, and is an exact bounded counter

`flush_local_count` reads and zeroes the numbers of a thread that is between
a check of `theft` that admitted its fast path and the store only when the
thread has none, and what it then stores is what was there. So nothing is
lost or counted twice: the steps of a call that returns 1 change the number
counted by exactly `delta`, once, and those of a call that returns 0 leave it
as it is, with the number over the limit with `delta` (or below `delta`) at
the final test. Whenever the mutex is free, the allowances are what is
reserved, and all is within the limit.

Key definition: `Exact`.
Key theorems: `reach_inv`, `steals_safely`.
-/
import Perfbook.Count.SigStep

namespace Perfbook
namespace Count
namespace Sig

open Conc

variable {n : ℕ} {cfg : Config} {s : St n}

structure Exact (cfg : Config) (s : St n) : Prop where
  /-- numbers are stolen under an admitted fast path only if there are none -/
  steal : ∀ h i, s.mutex = some h → (s.loc h).steals = some i → (s.loc i).inFast = true →
    s.counter i = 0 ∧ s.countermax i = 0
  /-- a store whose check came before the steal leaves the counter as it is -/
  stored : ∀ t k delta c, s.loc t = .store k delta c → s.stolen t = true →
    changed cfg c k delta = s.counter t
  /-- with the mutex free, the number counted is in `globalcount` and the counters -/
  total : s.mutex = none → s.total = s.globalcount + ∑ t with s.counterp t, (s.counter t : ℤ)
  reserve : s.mutex = none → ∑ t with s.counterp t, s.countermax t = s.globalreserve
  counter : s.mutex = none → ∀ t, s.counter t ≤ s.countermax t
  limit : s.mutex = none → s.globalcount + s.globalreserve ≤ cfg.globalcountmax
  answers : s.Answers cfg

theorem reach_inv (h : (sys n cfg).Reach Sys.always s) : Inv cfg s := by
  refine h.inv (fun _ => inv_init) fun a s s' hi _ hn => ?_
  have hn' : next cfg a s = some s' := hn
  exact inv_next hi hn'

/-- Only what is ready is stolen. -/
theorem Inv.ready_of_steals {h i : Fin n} (hi : Inv cfg s) (hs : (s.loc h).steals = some i) :
    s.theft i = .ready := by
  have hp := hi.loc h
  cases hl : s.loc h <;> rw [hl] at hs hp <;>
    simp only [Loc.steals, reduceCtorEq, Option.some.injEq] at hs <;> subst hs
  · exact hp.2.2.2
  · exact hp.2.2.2
  · exact hp.2.2.2.1
  · exact hp.2.2.2.1

theorem steals_safely (h : (sys n cfg).Reach Sys.always s) : Exact cfg s := by
  have hi := reach_inv h
  refine ⟨fun h i _ hs hf => hi.stolen i (.inl (hi.ready_of_steals hs)) hf,
    fun t k delta c hl hst => ?_, fun hm => ?_, fun hm => ?_, fun hm => hi.high (moving_of_free hm),
    fun hm => ?_, Calls.Answers.of_settled hi.returned⟩
  · have hp := hi.loc t
    rw [hl] at hp
    have hz := hi.stolen t (.inr hst) (by rw [hl]; rfl)
    have hv : (changed cfg c k delta : ℤ) = s.counter t + k.change delta :=
      changed_eq hp.2.1 hp.2.2 (hz.2 ▸ Nat.two_pow_pos cfg.w)
    have hk := hp.2.1.of_zero hz
    omega
  · have hsum := congrArg (Nat.cast : ℕ → ℤ)
      (Calls.sum_registered s.counter fun t ht => (hi.unregistered t ht).1)
    have hmov := moving_of_free hm
    push_cast at hsum
    rw [hsum, St.total, Books.total]
    simp only [St.books, (c_of_none hmov).1]
  · have hmov := moving_of_free hm
    have hsum : ∑ t, (s.cm t : ℤ) = s.globalreserve - s.owed := hi.balanced.reserve
    simp only [(c_of_none hmov).2, owed_of_none hmov] at hsum
    rw [Calls.sum_registered s.countermax fun t ht => (hi.unregistered t ht).2]
    have hsum' : ∑ t, (s.countermax t : ℤ) = s.globalreserve := by omega
    exact_mod_cast hsum'
  · have h1 := hi.bounds.2.1
    rwa [owed_of_none (moving_of_free hm)] at h1

/-! ### A run -/

/-- 64-bit words and a limit of 10. -/
def config : Config := ⟨64, 10, Config.wide_64, Config.ten_fits⟩

/-- Nothing counted, no thread registered. -/
def start : St 2 where
  counter _ := 0
  countermax _ := 0
  theft _ := .idle
  counting _ := false
  globalcount := 0
  globalreserve := 0
  counterp _ := false
  mutex := none
  pending _ := 0
  loc _ := .idle
  handler _ := none
  stolen _ := false
  call _ := none
  ret _ := none
  moves _ := []
  atTest _ := none

theorem start_init : Init start :=
  ⟨fun _ => rfl, fun _ => rfl, fun _ => rfl, fun _ => rfl, rfl, rfl, fun _ => rfl, rfl,
    fun _ => rfl, fun _ => rfl, fun _ => rfl, fun _ => rfl, fun _ => rfl⟩

/-- `m` steps of thread `t` in a row, two threads being online. -/
def steps (m : ℕ) (t : Fin 2) : List (Act 2) := List.replicate m (.step t 2)

/-- Thread 0 counts 3 and is taking 1 back in its fast path when thread 1, which
cannot count 9, asks for its numbers. The handler acknowledges, the fast path
says ready at its end, and a second signal comes late. -/
def asked : List (Act 2) :=
  [.register 0] ++ steps 3 0 ++ [.register 1] ++ steps 3 1 ++ [.call .add 0 3] ++ steps 21 0 ++
    [.call .sub 0 1] ++ steps 2 0 ++ [.call .add 1 9] ++ steps 23 1 ++
    [.deliver 0, .handle 0, .handle 0, .handle 0] ++ steps 6 0 ++ steps 1 1 ++
    [.deliver 0, .handle 0] ++ steps 16 1

theorem steals_safely_run : ∃ s, (sys 2 config).Reach Sys.always s ∧
    (s.ret 0, s.ret 1, s.atTest 1, s.moves 0) = (some 1, some 0, some 2, [-1]) ∧
    Exact config s := by
  have hrun : ((sys 2 config).run Sys.always asked start).map
      (fun s => (s.ret 0, s.ret 1, s.atTest 1, s.moves 0)) =
        some (some 1, some 0, some 2, [-1]) := by
    decide
  obtain ⟨s, hs, hd⟩ := Option.map_eq_some_iff.mp hrun
  have hr := Sys.run_reach (.init start_init) hs
  exact ⟨s, hr, hd, steals_safely hr⟩

end Sig
end Count
end Perfbook
