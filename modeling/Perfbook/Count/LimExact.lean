/-
# What `count_lim` and `count_lim_app` promise

Both are bounded counters: whenever the mutex is free, the allowances of the
registered threads are what is reserved, each part is within its allowance, and
the global part with the reserve is within the limit; no `unsigned long` has
wrapped, and the number counted and what `read_count` returned are within the
limit. A call that returns 1 changes the number counted by `delta`, once, and
one that returns 0 leaves it as it is.

A call can fail though its change would fit, but no more is missing than the
other threads have reserved; with `MAX_COUNTERMAX` that is at most so much for
each of them that has an allowance. `countermax` itself is over that bound
while `balance_count` computes it.

Key definitions: `Bounded`, `Approximate`, `holders`.
Key theorems: `reach_inv`, `bounded_counter`, `approximate_counter`.
-/
import Perfbook.Count.LimStep

namespace Perfbook
namespace Count
namespace Lim

open Conc

variable {n : ℕ} {file : File} {cfg : Config} {s : St n} {t : Fin n} {k : Kind} {delta : ℕ}

theorem reach_inv (h : (sys n file cfg).Reach Sys.always s) : Inv file cfg s := by
  refine h.inv (fun _ => inv_init) fun a s s' hi _ hn => ?_
  have hn' : next file cfg a s = some s' := hn
  exact inv_next hi hn'

/-! ### A bounded counter -/

structure Bounded (cfg : Config) (s : St n) : Prop where
  /-- with the mutex free, the number counted is in `globalcount` and the counters -/
  total : s.mutex = none → s.total = s.globalcount + ∑ t with s.counterp t, (s.counter t : ℤ)
  reserve : s.mutex = none → ∑ t with s.counterp t, s.countermax t = s.globalreserve
  counter : s.mutex = none → ∀ t, s.counter t ≤ s.countermax t
  limit : s.mutex = none → s.globalcount + s.globalreserve ≤ cfg.globalcountmax
  noWrap : s.wrapped = false
  returns : ∀ t r, s.ret t = some r → r = 0 ∨ r = 1
  /-- a call that returned 1 changed the number counted once, by `delta` -/
  granted : ∀ t k delta, s.call t = some (k, delta) → s.ret t = some 1 → s.moves t = once k delta
  /-- one that returned 0 did not change it -/
  failed : ∀ t, s.ret t = some 0 → s.moves t = []
  range : 0 ≤ s.total ∧ s.total ≤ cfg.globalcountmax
  /-- what `read_count` returned -/
  value : ∀ t v, s.value t = some v → v ≤ cfg.globalcountmax

/-- With the mutex free, nobody has anything on its way. -/
theorem Inv.free (hi : Inv file cfg s) (hm : s.mutex = none) : s.books =
    ⟨s.globalcount, s.globalreserve, fun u => s.counter u, fun u => s.countermax u⟩ := by
  have hplain : ∀ u, (s.loc u).Plain := fun u => Loc.plain_of_not_holds (Bool.eq_false_iff.mpr
    fun h => absurd (hm.symm.trans (hi.mutex_eq h)) nofun)
  rw [St.books, owed_of_free hm, Nat.cast_zero, sub_zero]
  congr 1
  · funext u
    rw [(hplain u).part, id]
  · funext u
    rw [(hplain u).allowance, id]

/-- Balanced books count a number within the limit. -/
theorem Inv.range (hi : Inv file cfg s) : 0 ≤ s.total ∧ s.total ≤ cfg.globalcountmax := by
  have h0 : 0 ≤ ∑ u, s.books.c u := Finset.sum_nonneg fun u _ => hi.balanced.low u
  have h1 : ∑ u, s.books.c u ≤ ∑ u, s.books.cm u :=
    Finset.sum_le_sum fun u _ => hi.balanced.high u
  have h2 := hi.balanced.reserve
  have h3 := hi.balanced.count
  have h4 := hi.balanced.limit
  rw [St.total, Books.total]
  omega

theorem bounded_of_inv (hi : Inv file cfg s) : Bounded cfg s := by
  refine ⟨fun hm => ?_, fun hm => ?_, fun hm t => ?_, fun hm => ?_, hi.noWrap, fun t r hr => ?_,
    fun t k delta hcall hr => ?_, fun t hr => ?_, hi.range, hi.value⟩
  · have hsum := congrArg (Nat.cast : ℕ → ℤ) (Calls.sum_registered s.counter fun u hu =>
      (hi.unregistered u hu).1)
    push_cast at hsum
    rw [St.total, Books.total, hi.free hm, hsum]
  · have hsum := hi.balanced.reserve
    rw [hi.free hm] at hsum
    rw [Calls.sum_registered s.countermax fun u hu => (hi.unregistered u hu).2]
    exact_mod_cast (show ∑ u, (s.countermax u : ℤ) = s.globalreserve from hsum)
  · have hle := hi.balanced.high t
    rw [hi.free hm] at hle
    exact Int.ofNat_le.mp hle
  · have hlimit := hi.balanced.limit
    rw [hi.free hm] at hlimit
    exact_mod_cast (show (s.globalcount : ℤ) + s.globalreserve ≤ cfg.globalcountmax from hlimit)
  · obtain ⟨k, delta, -, h | h⟩ := hi.returned t r hr
    · exact .inr h.1
    · exact .inl h.1
  · obtain ⟨k', delta', hcall', h | h⟩ := hi.returned t 1 hr
    · obtain ⟨rfl, rfl⟩ := Prod.mk.inj (Option.some.inj (hcall.symm.trans hcall'))
      exact h.2
    · exact absurd h.1 (by omega)
  · obtain ⟨k', delta', -, h | h⟩ := hi.returned t 0 hr
    · exact absurd h.1 (by omega)
    · exact h.2.1

theorem bounded_counter (h : (sys n .lim cfg).Reach Sys.always s) : Bounded cfg s :=
  bounded_of_inv (reach_inv h)

/-- 64-bit words, and the limit of the source. -/
def config : Config := ⟨64, 10000, Config.wide_64, by decide⟩

/-- Nothing counted, no thread registered. -/
def start : St 2 where
  counter _ := 0
  countermax _ := 0
  globalcount := 0
  globalreserve := 0
  counterp _ := false
  mutex := none
  loc _ := .idle
  ret _ := none
  value _ := none
  reserves _ _ := 0
  wrapped := false
  call _ := none
  moves _ := []
  atTest _ := none

theorem start_init : Init start :=
  ⟨fun _ => rfl, fun _ => rfl, rfl, rfl, fun _ => rfl, rfl, fun _ => rfl, fun _ => rfl,
    fun _ => rfl, rfl⟩

/-- `m` steps of thread `t` in a row, two threads being online. -/
def steps (m : ℕ) (t : Fin 2) : List (Act 2) := .replicate m (.step t 2)

/-- Thread 0 counts 100 and gets an allowance of 4950; thread 1 can then not
count 6000 more. While it adds up the parts, thread 0 counts 5. -/
def refused : List (Act 2) :=
  [[.register 0], steps 3 0, [.register 1], steps 3 1, [.call .add 0 100], steps 15 0,
    [.call .add 1 6000], steps 8 1, [.read 1], steps 3 1, [.call .add 0 5], steps 2 0,
    steps 5 1].flatten

theorem bounded_counter_run : ∃ s, (sys 2 .lim config).Reach Sys.always s ∧
    (s.ret 0, s.ret 1, s.atTest 1, s.value 1) = (some 1, some 0, some 100, some 105) ∧
    Bounded config s := by
  have hrun : ((sys 2 .lim config).run Sys.always refused start).map
      (fun s => (s.ret 0, s.ret 1, s.atTest 1, s.value 1)) =
        some (some 1, some 0, some 100, some 105) := by
    decide
  obtain ⟨s, hs, hd⟩ := Option.map_eq_some_iff.mp hrun
  have hr := Sys.run_reach (.init start_init) hs
  exact ⟨s, hr, hd, bounded_counter hr⟩

/-! ### An approximate one -/

/-- How many other threads had an allowance at the test of `t`. -/
def holders (s : St n) (t : Fin n) : ℕ := (Finset.univ.filter fun u => u ≠ t ∧ s.reserves t u ≠ 0).card

structure Approximate (cfg : Config) (s : St n) : Prop where
  /-- an `add_count` that returned 0 -/
  add_failed : ∀ t delta, s.call t = some (.add, delta) → s.ret t = some 0 → ∃ x, s.atTest t = some x ∧
    (cfg.globalcountmax : ℤ) - maxCountermax * holders s t < x + delta
  /-- a `sub_count` that returned 0 -/
  sub_failed : ∀ t delta, s.call t = some (.sub, delta) → s.ret t = some 0 → ∃ x, s.atTest t = some x ∧
    x < (delta : ℤ) + maxCountermax * holders s t
  /-- an allowance that `balance_count` is not just computing -/
  capped : ∀ t, (s.loc t).computes = false → s.countermax t ≤ maxCountermax
  noWrap : s.wrapped = false
  range : 0 ≤ s.total ∧ s.total ≤ cfg.globalcountmax

/-- Each of the others has at most the bound. -/
theorem others_le (h : ∀ u, s.reserves t u ≤ maxCountermax) :
    s.others t ≤ maxCountermax * holders s t := by
  have hne : s.others t = ∑ u with u ≠ t ∧ s.reserves t u ≠ 0, s.reserves t u := by
    rw [St.others, ← Finset.filter_filter, Finset.sum_filter_ne_zero]
  rw [hne, holders, mul_comm]
  exact Finset.sum_le_card_nsmul _ _ _ fun u _ => h u

/-- What a call that returned 0 could not get. -/
theorem exceeds_of_failed (hi : Inv .limApp cfg s) (hcall : s.call t = some (k, delta))
    (hr : s.ret t = some 0) : ∃ x, s.atTest t = some x ∧
      k.exceeds cfg.globalcountmax (delta + s.others t) x ∧
        s.others t ≤ maxCountermax * holders s t := by
  obtain ⟨k', delta', hcall', h | ⟨-, -, x, hx, hex, hle⟩⟩ := hi.returned t 0 hr
  · exact absurd h.1 (by omega)
  · obtain ⟨rfl, rfl⟩ := Prod.mk.inj (Option.some.inj (hcall.symm.trans hcall'))
    exact ⟨x, hx, hex, others_le hle⟩

theorem approximate_counter (h : (sys n .limApp cfg).Reach Sys.always s) : Approximate cfg s := by
  have hi := reach_inv h
  refine ⟨fun t delta hcall hr => ?_, fun t delta hcall hr => ?_, hi.capped, hi.noWrap, hi.range⟩
  · obtain ⟨x, hx, hex, hle⟩ := exceeds_of_failed hi hcall hr
    refine ⟨x, hx, ?_⟩
    rw [Kind.exceeds] at hex
    push_cast at hex
    have hle' : (s.others t : ℤ) ≤ maxCountermax * holders s t := by exact_mod_cast hle
    omega
  · obtain ⟨x, hx, hex, hle⟩ := exceeds_of_failed hi hcall hr
    refine ⟨x, hx, ?_⟩
    rw [Kind.exceeds] at hex
    push_cast at hex
    have hle' : (s.others t : ℤ) ≤ maxCountermax * holders s t := by exact_mod_cast hle
    omega

/-- Thread 0 gets an allowance of 100; thread 1 then cannot count all that is left. -/
def near : List (Act 2) :=
  [[.register 0], steps 3 0, [.register 1], steps 3 1, [.call .add 0 100], steps 16 0,
    [.call .add 1 9900], steps 8 1].flatten

theorem approximate_counter_run : ∃ s, (sys 2 .limApp config).Reach Sys.always s ∧
    (s.ret 1, s.atTest 1, holders s 1) = (some 0, some 100, 1) ∧ Approximate config s := by
  have hrun : ((sys 2 .limApp config).run Sys.always near start).map
      (fun s => (s.ret 1, s.atTest 1, holders s 1)) = some (some 0, some 100, 1) := by
    decide
  obtain ⟨s, hs, hd⟩ := Option.map_eq_some_iff.mp hrun
  have hr := Sys.run_reach (.init start_init) hs
  exact ⟨s, hr, hd, approximate_counter hr⟩

/-- Before `balance_count` enforces `MAX_COUNTERMAX`, `countermax` is all that is left. -/
theorem countermax_uncut : ∃ s, (sys 2 .limApp config).Reach Sys.always s ∧
    maxCountermax < s.countermax 0 := by
  have hrun : ((sys 2 .limApp config).run Sys.always
      [[.register 0], steps 3 0, [.call .add 0 5], steps 9 0].flatten start).map
        (fun s => s.countermax 0) = some 9995 := by
    decide
  obtain ⟨s, hs, hd⟩ := Option.map_eq_some_iff.mp hrun
  refine ⟨s, Sys.run_reach (.init start_init) hs, ?_⟩
  rw [hd, maxCountermax]
  omega

end Lim
end Count
end Perfbook
