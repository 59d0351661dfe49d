/-
# Multiplication modulo `m` without a product larger than `m`

Let `a * a < m`, and `q` and `r` the quotient and the remainder of `m` by `a`. Then
`a * x = m * (x / q) + (a * (x % q) - r * (x / q))`, and both products on the right
are below `m` for every `x` below `m`. So one correction by `m` gives `a * x` modulo
`m` (`schrage_eq_emod`), and where `a` and `m` are coprime the result is never `0`
(`schrage_mem`) and differs for different `x` (`schrage_injOn`).

Key definitions: `schrageDiff`, `schrage`.
Key theorems: `schrage_eq_emod`, `schrage_mem`, `schrage_injOn`, `schrage_iterate`.
-/
import Mathlib.Algebra.Order.Group.Unbundled.Int
import Mathlib.Data.Int.ConditionallyCompleteOrder
import Mathlib.Data.Int.GCD
import Mathlib.Data.Int.ModEq
import Mathlib.Data.Set.Function
import Mathlib.Order.Interval.Set.Defs
import Mathlib.RingTheory.Coprime.Lemmas
import Mathlib.Tactic.Linarith
import Mathlib.Tactic.Ring

namespace Perfbook
namespace Arith

variable {m a x : ℤ}

/-- The difference of the two small products. -/
def schrageDiff (m a x : ℤ) : ℤ := a * (x % (m / a)) - m % a * (x / (m / a))

/-- `a * x` modulo `m`, from the difference. -/
def schrage (m a x : ℤ) : ℤ :=
  if schrageDiff m a x ≤ 0 then schrageDiff m a x + m else schrageDiff m a x

theorem schrageDiff_eq (m a x : ℤ) : schrageDiff m a x = a * x - m * (x / (m / a)) := by
  have hm : m = a * (m / a) + m % a := (Int.mul_ediv_add_emod m a).symm
  have hx : x % (m / a) = x - m / a * (x / (m / a)) := Int.emod_def x (m / a)
  calc
    schrageDiff m a x = a * x - (a * (m / a) + m % a) * (x / (m / a)) := by
      rw [schrageDiff, hx]
      ring
    _ = a * x - m * (x / (m / a)) := by rw [← hm]

theorem schrage_modEq (m a x : ℤ) : schrage m a x ≡ a * x [ZMOD m] := by
  have hdiff : schrageDiff m a x ≡ a * x [ZMOD m] := by
    rw [schrageDiff_eq, Int.modEq_iff_dvd]
    exact ⟨x / (m / a), by ring⟩
  rw [schrage]
  split
  · exact (Int.add_modulus_modEq_iff).mpr hdiff
  · exact hdiff

section

variable (ha : 0 < a) (ham : a * a < m)
include ha ham

theorem quot_pos : a ≤ m / a :=
  (Int.le_ediv_iff_mul_le ha).mpr ham.le

/-- The first product is below the modulus. -/
theorem mul_rem_mem (x : ℤ) : 0 ≤ a * (x % (m / a)) ∧ a * (x % (m / a)) < m := by
  have hq : 0 < m / a := ha.trans_le (quot_pos ha ham)
  have h0 : 0 ≤ x % (m / a) := Int.emod_nonneg x hq.ne'
  have h1 : x % (m / a) < m / a := Int.emod_lt_of_pos x hq
  refine ⟨mul_nonneg ha.le h0, ?_⟩
  calc
    a * (x % (m / a)) < a * (m / a) := mul_lt_mul_of_pos_left h1 ha
    _ ≤ m := Int.mul_ediv_self_le ha.ne'

/-- The second product is below the modulus. -/
theorem rem_mul_mem (hx : 0 ≤ x) (hxm : x < m) :
    0 ≤ m % a * (x / (m / a)) ∧ m % a * (x / (m / a)) < m := by
  have haq := quot_pos ha ham
  have hq : 0 < m / a := ha.trans_le haq
  have hr0 : 0 ≤ m % a := Int.emod_nonneg m ha.ne'
  have hr : m % a ≤ m / a := (Int.emod_lt_of_pos m ha).le.trans haq
  have hh : 0 ≤ x / (m / a) := Int.ediv_nonneg hx hq.le
  refine ⟨mul_nonneg hr0 hh, ?_⟩
  calc
    m % a * (x / (m / a)) ≤ m / a * (x / (m / a)) := mul_le_mul_of_nonneg_right hr hh
    _ ≤ x := Int.mul_ediv_self_le hq.ne'
    _ < m := hxm

/-- The correction brings the result to the residues from `1` to `m`. -/
theorem schrage_mem_Ioc (hx : 0 ≤ x) (hxm : x < m) : 0 < schrage m a x ∧ schrage m a x ≤ m := by
  have h1 := mul_rem_mem ha ham x
  have h2 := rem_mul_mem ha ham hx hxm
  rw [schrage, schrageDiff]
  split <;> omega

variable (hcop : IsCoprime a m)
include hcop

/-- `0` is not reached from a nonzero residue, nor is `m`. -/
theorem schrage_mem (hx : x ∈ Set.Icc 1 (m - 1)) : schrage m a x ∈ Set.Icc 1 (m - 1) := by
  obtain ⟨h1, hm⟩ := hx
  obtain ⟨hpos, hle⟩ := schrage_mem_Ioc ha ham (x := x) (by omega) (by omega)
  have hne : schrage m a x ≠ m := fun he => by
    -- else `m` divides `a * x`, so `x`, which is smaller
    have hdvd : m ∣ a * x := by
      have := (schrage_modEq m a x).dvd
      rw [he] at this
      exact (dvd_sub_self_right).mp this
    have := Int.le_of_dvd (by omega) (hcop.symm.dvd_of_dvd_mul_left hdvd)
    omega
  exact ⟨by omega, by omega⟩

/-- **The split multiplication is exact.** -/
theorem schrage_eq_emod (hx : x ∈ Set.Icc 1 (m - 1)) : schrage m a x = a * x % m := by
  obtain ⟨h1, hm⟩ := schrage_mem ha ham hcop hx
  rw [← Int.emod_eq_of_lt (by omega) (by omega : schrage m a x < m)]
  exact schrage_modEq m a x

omit ha ham in
/-- **Different residues go to different residues.** -/
theorem schrage_injOn : Set.InjOn (schrage m a) (Set.Icc 1 (m - 1)) := fun x hx y hy he => by
  have hmod : a * x ≡ a * y [ZMOD m] :=
    (schrage_modEq m a x).symm.trans (he ▸ schrage_modEq m a y)
  have hdvd : m ∣ a * (y - x) := by
    rw [mul_sub]
    exact hmod.dvd
  obtain ⟨k, hk⟩ := hcop.symm.dvd_of_dvd_mul_left hdvd
  obtain ⟨hx1, hxm⟩ := hx
  obtain ⟨hy1, hym⟩ := hy
  -- the two are less than `m` apart
  have hk0 : k = 0 := by
    rcases lt_trichotomy k 0 with h | h | h
    · nlinarith
    · exact h
    · nlinarith
  rw [hk0] at hk
  omega

theorem schrage_iterate_mem (hx : x ∈ Set.Icc 1 (m - 1)) :
    ∀ n : ℕ, (schrage m a)^[n] x ∈ Set.Icc 1 (m - 1)
  | 0 => hx
  | n + 1 => by
    rw [Function.iterate_succ_apply']
    exact schrage_mem ha ham hcop (schrage_iterate_mem hx n)

/-- `n` steps multiply by the `n`-th power. -/
theorem schrage_iterate (hx : x ∈ Set.Icc 1 (m - 1)) :
    ∀ n : ℕ, (schrage m a)^[n] x = a ^ n * x % m
  | 0 => by
    obtain ⟨h1, hm⟩ := hx
    rw [Function.iterate_zero_apply, pow_zero, one_mul, Int.emod_eq_of_lt (by omega) (by omega)]
  | n + 1 => by
    rw [Function.iterate_succ_apply', schrage_eq_emod ha ham hcop (schrage_iterate_mem ha ham hcop hx n),
      schrage_iterate hx n, pow_succ', mul_assoc]
    exact (Int.mod_modEq _ m).mul_left a

theorem schrage_iterate_injOn (n : ℕ) : Set.InjOn (schrage m a)^[n] (Set.Icc 1 (m - 1)) :=
  (schrage_injOn hcop).iterate (fun _ => schrage_mem ha ham hcop) n

end

end Arith
end Perfbook
