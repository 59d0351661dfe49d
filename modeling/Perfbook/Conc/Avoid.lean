/-
# A search that avoids what it has been to

`Avoid r s` are the steps of `r` that do not lead into `s`. A search that goes deeper from `a` never comes back
to `a`, and nothing is lost: if the goal is reached from `a` at all, it is reached from one of the next places
without coming back (`reach_cut`). So `a` is a dead end when all next places are (`dead_of_next`).

A search that tries the places in order and keeps the path to where it is counts up: read as the digits of a
number, the path grows with each step, whether a digit is added or the last one is dropped and the one before
increased (`digits_deeper`, `digits_back`), and it has a bound (`digits_lt`).

Key definitions: `Avoid`, `digits`.
Key theorems: `reach_cut`, `dead_of_next`, `digits_deeper`, `digits_back`, `digits_lt`.
-/
import Mathlib.Algebra.Group.Nat.Defs
import Mathlib.Data.Set.Insert
import Mathlib.Logic.Relation
import Mathlib.Tactic.Common

namespace Perfbook
namespace Conc

section

variable {A : Type*} {r : A → A → Prop} {s : Set A} {a x : A}

def Avoid (r : A → A → Prop) (s : Set A) (a b : A) : Prop := r a b ∧ b ∉ s

theorem reach_cut (h : Relation.ReflTransGen (Avoid r s) a x) :
    x = a ∨ ∃ b, r a b ∧ b ∉ s ∧ b ≠ a ∧ Relation.ReflTransGen (Avoid r (insert a s)) b x := by
  induction h with
  | refl => exact .inl rfl
  | @tail x y _ hxy ih =>
    by_cases hy : y = a
    · exact .inl hy
    · refine .inr ?_
      obtain rfl | ⟨b, hab, hb, hba, hbx⟩ := ih
      · exact ⟨y, hxy.1, hxy.2, hy, .refl⟩
      · refine ⟨b, hab, hb, hba, hbx.tail ⟨hxy.1, ?_⟩⟩
        rintro (hya | hys)
        · exact hy hya
        · exact hxy.2 hys

/-- **A dead end.** -/
theorem dead_of_next (hx : x ≠ a)
    (h : ∀ b, r a b → b ∉ s → b ≠ a → ¬ Relation.ReflTransGen (Avoid r (insert a s)) b x) :
    ¬ Relation.ReflTransGen (Avoid r s) a x := by
  intro hreach
  obtain hxa | ⟨b, hab, hb, hba, hbx⟩ := reach_cut hreach
  · exact hx hxa
  · exact h b hab hb hba hbx

theorem reach_avoid_empty (h : Relation.ReflTransGen r a x) : Relation.ReflTransGen (Avoid r ∅) a x :=
  Relation.ReflTransGen.mono (fun _ _ hab => ⟨hab, Set.notMem_empty _⟩) _ _ h

end

variable {n : ℕ} {p q : ℕ → ℕ} {k : ℕ}

/-- The number with the digits `p 1`, …, `p k` and then zeros. -/
def digits (n : ℕ) (p : ℕ → ℕ) : ℕ → ℕ
  | 0 => 0
  | k + 1 => digits n p k + p (k + 1) * (n + 1) ^ (n - k)

theorem digits_congr (h : ∀ i ≤ k, q i = p i) : digits n q k = digits n p k := by
  induction k with
  | zero => rfl
  | succ k ih => rw [digits, digits, ih fun i hi => h i (by omega), h (k + 1) le_rfl]

theorem digits_mono (h : ∀ i ≤ k, p i ≤ q i) : digits n p k ≤ digits n q k := by
  induction k with
  | zero => exact le_rfl
  | succ k ih =>
    exact Nat.add_le_add (ih fun i hi => h i (by omega)) (Nat.mul_le_mul_right _ (h (k + 1) le_rfl))

theorem digits_deeper (h : 1 ≤ p (k + 1)) : digits n p k < digits n p (k + 1) := by
  have hpos : 0 < (n + 1) ^ (n - k) := Nat.pow_pos (Nat.succ_pos n)
  have := Nat.mul_le_mul_right ((n + 1) ^ (n - k)) h
  rw [digits]
  omega

theorem pow_sub_succ (hk : k < n) : (n + 1) ^ (n - k) = (n + 1) * (n + 1) ^ (n - (k + 1)) := by
  rw [← Nat.pow_succ', show (n - (k + 1)).succ = n - k by omega]

/-- The last digit is dropped and the one before increased. -/
theorem digits_back (hk : k + 1 ≤ n) (hle : p (k + 2) ≤ n) (hq : ∀ i ≤ k, q i = p i)
    (hinc : q (k + 1) = p (k + 1) + 1) : digits n p (k + 2) < digits n q (k + 1) := by
  have hpos : 0 < (n + 1) ^ (n - (k + 1)) := Nat.pow_pos (Nat.succ_pos n)
  have hlast : p (k + 1 + 1) * _ ≤ n * _ := Nat.mul_le_mul_right ((n + 1) ^ (n - (k + 1))) hle
  have hpow := pow_sub_succ (n := n) (k := k) (by omega)
  simp only [digits, digits_congr hq, hinc, Nat.add_mul, Nat.one_mul]
  rw [hpow, Nat.add_mul, Nat.one_mul]
  omega

theorem digits_lt (hk : k ≤ n) (hle : ∀ i ≤ k, p i ≤ n) : digits n p k < (n + 1) ^ (n + 1) := by
  have h : ∀ j ≤ k, digits n p j + (n + 1) * (n + 1) ^ (n - j) ≤ (n + 1) ^ (n + 1) := by
    intro j hj
    induction j with
    | zero =>
      rw [digits, Nat.zero_add, Nat.sub_zero, ← Nat.pow_succ']
    | succ j ih =>
      have hlast := Nat.mul_le_mul_right ((n + 1) ^ (n - j)) (hle (j + 1) hj)
      have hj' := ih (by omega)
      rw [digits, ← pow_sub_succ (by omega)]
      rw [Nat.add_mul, Nat.one_mul] at hj'
      omega
  have hpos : 0 < (n + 1) * (n + 1) ^ (n - k) := Nat.mul_pos (Nat.succ_pos n) (Nat.pow_pos (Nat.succ_pos n))
  have := h k le_rfl
  omega

end Conc
end Perfbook
