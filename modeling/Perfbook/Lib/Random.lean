/-
# The per-thread random number generator (CodeSamples/lib/random.c)

`randseed` is a `u_long` of each thread, zero until the thread seeds itself. `setrandom`
maps a seed to a state from 1 to 2^31 - 2, and `myrandom` steps from one such state to
another: 16807 times the state modulo 2^31 - 1, by the split multiplication of
`Arith.schrage`. It aborts on any other state. The arithmetic is on `long`; here it is
on integers, and `FitsInt32` says that the values fit the 32 bits a `long` has at least.

Key definitions: `setrandom`, `setrandomThread`, `myrandom`, `draws`, `Valid`.
Key theorems: `myrandom_valid`, `draws_eq_iterate`, `setrandom_exact`.
-/
import Mathlib.Data.Set.Basic
import Mathlib.Tactic.NormNum.GCD
import Perfbook.Arith.Schrage

namespace Perfbook
namespace Random

/-- Set the seed for the current thread. -/
def setrandom (seed : UInt32) : ℕ :=
  let randseed := seed.toNat % 0x7fffffff
  if randseed = 0 then 1 else randseed

/-- Seed the current thread from a thread ID. -/
def setrandomThread (id : UInt32) : ℕ := setrandom (2654435761 * (id + 1))

/-- `x / 127773`. -/
def hi (x : ℤ) : ℤ := x / 127773

/-- `x % 127773`. -/
def lo (x : ℤ) : ℤ := x % 127773

/-- The result of a call and the new `randseed`; `none` is the abort. -/
def myrandom (randseed : ℕ) : Option (ℕ × ℕ) :=
  if randseed = 0 ∨ randseed > 0x7ffffffe then none
  else
    let x : ℤ := randseed
    let t := 16807 * lo x - 2836 * hi x
    let t := if t ≤ 0 then t + 0x7fffffff else t
    some (t.toNat, t.toNat)

/-- `n` calls in a row: their results and the `randseed` they leave. -/
def draws : ℕ → ℕ → Option (List ℕ × ℕ)
  | 0, randseed => some ([], randseed)
  | n + 1, randseed => do
    let (t, randseed) ← myrandom randseed
    let (ts, randseed) ← draws n randseed
    return (t :: ts, randseed)

/-- The state space of the recurrence. -/
def Valid (randseed : ℕ) : Prop := 1 ≤ randseed ∧ randseed ≤ 0x7ffffffe

instance (randseed : ℕ) : Decidable (Valid randseed) := inferInstanceAs (Decidable (_ ∧ _))

/-- `z` fits a signed 32-bit integer. -/
def FitsInt32 (z : ℤ) : Prop := -2 ^ 31 ≤ z ∧ z < 2 ^ 31

/-- The seeds that `setrandom` takes for one and the same: congruent modulo 2^31 - 1, where 0 counts as 1. -/
def SameSeed (seed seed' : UInt32) : Prop :=
  let residue (s : UInt32) : ℕ := if 0x7fffffff ∣ s.toNat then 1 else s.toNat
  residue seed ≡ residue seed' [MOD 0x7fffffff]

/-- The step on integers. -/
abbrev next : ℤ → ℤ := Arith.schrage 0x7fffffff 16807

variable {randseed : ℕ}

/-! ### The constants -/

theorem mult_pos : (0 : ℤ) < 16807 := by norm_num

theorem mult_sq_lt : (16807 : ℤ) * 16807 < 0x7fffffff := by norm_num

theorem mult_coprime : IsCoprime (16807 : ℤ) 0x7fffffff :=
  Int.isCoprime_iff_gcd_eq_one.mpr (by norm_num)

theorem Valid.mem (h : Valid randseed) : (randseed : ℤ) ∈ Set.Icc (1 : ℤ) (0x7fffffff - 1) :=
  ⟨by exact_mod_cast h.1, by
    have := h.2
    omega⟩

theorem setrandom_valid (seed : UInt32) : Valid (setrandom seed) := by
  have hlt : seed.toNat % 0x7fffffff < 0x7fffffff := Nat.mod_lt _ (by norm_num)
  simp only [setrandom, Valid]
  split <;> omega

/-- Two seeds give one state only where they count as the same. -/
theorem setrandom_eq_iff (seed seed' : UInt32) : setrandom seed = setrandom seed' ↔ SameSeed seed seed' := by
  have hres : ∀ s : UInt32, setrandom s = (if 0x7fffffff ∣ s.toNat then 1 else s.toNat) % 0x7fffffff := fun s => by
    simp only [setrandom, Nat.dvd_iff_mod_eq_zero]
    split <;> rfl
  rw [hres, hres]
  rfl

/-! ### One call -/

/-- **A call is exact.** It returns 16807 times the state modulo 2^31 - 1. -/
theorem myrandom_valid (h : Valid randseed) :
    myrandom randseed = some ((next randseed).toNat, (next randseed).toNat) := by
  have hno : ¬ (randseed = 0 ∨ randseed > 0x7ffffffe) := by
    have := h.1
    have := h.2
    omega
  rw [myrandom, if_neg hno]
  rfl

theorem next_bounds (h : Valid randseed) (n : ℕ) : 1 ≤ next^[n] randseed ∧ next^[n] randseed ≤ 0x7fffffff - 1 :=
  Arith.schrage_iterate_mem mult_pos mult_sq_lt mult_coprime h.mem n

theorem toNat_next (h : Valid randseed) : ((next randseed).toNat : ℤ) = next randseed := by
  have : 1 ≤ next randseed := (next_bounds h 1).1
  exact Int.toNat_of_nonneg (by omega)

theorem next_valid (h : Valid randseed) : Valid (next randseed).toNat := by
  have : 1 ≤ next randseed ∧ next randseed ≤ 0x7fffffff - 1 := next_bounds h 1
  exact ⟨by omega, by omega⟩

theorem next_eq_mod (h : Valid randseed) : (next randseed).toNat = 16807 * randseed % 0x7fffffff := by
  have := Arith.schrage_eq_emod mult_pos mult_sq_lt mult_coprime h.mem
  zify
  rw [toNat_next h]
  exact this

/-- The products and their difference fit 32 bits. -/
theorem fits (h : Valid randseed) : FitsInt32 (16807 * lo randseed) ∧ FitsInt32 (2836 * hi randseed) ∧
    FitsInt32 (16807 * lo randseed - 2836 * hi randseed) := by
  have h1 : 0 ≤ 16807 * lo randseed ∧ 16807 * lo randseed < 0x7fffffff :=
    Arith.mul_rem_mem mult_pos mult_sq_lt randseed
  have h2 : 0 ≤ 2836 * hi randseed ∧ 2836 * hi randseed < 0x7fffffff :=
    Arith.rem_mul_mem mult_pos mult_sq_lt (by omega) (by have := h.2; omega)
  simp only [FitsInt32]
  omega

/-! ### Many calls -/

/-- **The state after `n` calls**, none of which aborts. -/
theorem draws_eq_iterate : ∀ (n : ℕ) {randseed : ℕ}, Valid randseed →
    ∃ ts, draws n randseed = some (ts, (next^[n] randseed).toNat) ∧ ts.length = n ∧ ∀ t ∈ ts, Valid t
  | 0, randseed, _ => ⟨[], by simp [draws], rfl, fun _ ht => nomatch ht⟩
  | n + 1, randseed, h => by
    obtain ⟨ts, hts, hlen, hmem⟩ := draws_eq_iterate n (next_valid h)
    rw [toNat_next h, ← Function.iterate_succ_apply] at hts
    refine ⟨(next randseed).toNat :: ts, ?_, by rw [List.length_cons, hlen], fun t ht => ?_⟩
    · simp only [draws, myrandom_valid h, Option.bind_eq_bind, Option.bind_some, hts, Option.pure_def]
    · rcases List.mem_cons.mp ht with rfl | ht
      · exact next_valid h
      · exact hmem t ht

theorem iterate_valid (h : Valid randseed) (n : ℕ) : ((next^[n] randseed).toNat : ℤ) = next^[n] randseed ∧
    Valid (next^[n] randseed).toNat := by
  have hm := next_bounds h n
  exact ⟨Int.toNat_of_nonneg (by omega), by omega, by omega⟩

theorem iterate_eq_mod (h : Valid randseed) (n : ℕ) :
    (next^[n] randseed).toNat = 16807 ^ n * randseed % 0x7fffffff := by
  zify
  rw [(iterate_valid h n).1]
  exact Arith.schrage_iterate mult_pos mult_sq_lt mult_coprime h.mem n

/-- Threads that start apart stay apart. -/
theorem iterate_ne {randseed' : ℕ} (h : Valid randseed) (h' : Valid randseed') (hne : randseed ≠ randseed') (n : ℕ) :
    (next^[n] randseed).toNat ≠ (next^[n] randseed').toNat := fun he => by
  refine hne ?_
  have heq : next^[n] (randseed : ℤ) = next^[n] (randseed' : ℤ) := by
    rw [← (iterate_valid h n).1, ← (iterate_valid h' n).1, he]
  exact_mod_cast Arith.schrage_iterate_injOn mult_pos mult_sq_lt mult_coprime n h.mem h'.mem heq

/-- **The generator is exact and a permutation.** -/
theorem setrandom_exact :
    (∀ (seed : UInt32) (n : ℕ), ∃ ts x, draws n (setrandom seed) = some (ts, x) ∧ ts.length = n ∧ Valid x ∧
      (∀ t ∈ ts, Valid t) ∧ x = 16807 ^ n * setrandom seed % 0x7fffffff) ∧
    (∀ x, Valid x → myrandom x = some (16807 * x % 0x7fffffff, 16807 * x % 0x7fffffff) ∧
      FitsInt32 (16807 * lo x) ∧ FitsInt32 (2836 * hi x) ∧ FitsInt32 (16807 * lo x - 2836 * hi x)) ∧
    Set.InjOn myrandom {x | Valid x} ∧
    ∀ (seed seed' : UInt32), ¬ SameSeed seed seed' → ∀ n ts x ts' x', draws n (setrandom seed) = some (ts, x) →
      draws n (setrandom seed') = some (ts', x') → x ≠ x' := by
  refine ⟨fun seed n => ?_, fun x hx => ⟨?_, fits hx⟩, fun x hx y hy he => ?_,
    fun seed seed' hne n ts x ts' x' hx hx' => ?_⟩
  · have hv := setrandom_valid seed
    obtain ⟨ts, hts, hlen, hmem⟩ := draws_eq_iterate n hv
    exact ⟨ts, _, hts, hlen, (iterate_valid hv n).2, hmem, iterate_eq_mod hv n⟩
  · rw [myrandom_valid hx, next_eq_mod hx]
  · by_contra hne
    have he' : (next x).toNat = (next y).toNat := by
      rw [myrandom_valid hx, myrandom_valid hy] at he
      exact congrArg Prod.fst (Option.some.inj he)
    exact iterate_ne hx hy hne 1 he'
  · obtain ⟨us, hus, -, -⟩ := draws_eq_iterate n (setrandom_valid seed)
    obtain ⟨us', hus', -, -⟩ := draws_eq_iterate n (setrandom_valid seed')
    obtain ⟨-, rfl⟩ := Prod.mk.inj (Option.some.inj (hus.symm.trans hx))
    obtain ⟨-, rfl⟩ := Prod.mk.inj (Option.some.inj (hus'.symm.trans hx'))
    exact iterate_ne (setrandom_valid seed) (setrandom_valid seed')
      (fun he => hne ((setrandom_eq_iff seed seed').mp he)) n

example : draws 3 (setrandom 0) = some ([16807, 282475249, 1622650073], 1622650073) := by decide

end Random
end Perfbook
