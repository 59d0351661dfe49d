/-
# The locks of an update

A search locks the nodes that it notes from the top level down, each one once
(`lock_holding`), and they are unlocked from level 0 up. On the way a node is
noted for levels next to each other only, so looking at the node before is
enough to unlock each of them once (`unlockUpdate_holding`).

Key definitions: `Mem.holding`, `noted`.
Key theorems: `lock_holding`, `unlockUpdate_holding`, `unlockUpdate_none`.
-/
import Mathlib.Data.List.Range
import Perfbook.Skip.Walk

namespace Perfbook
namespace Skip

variable {ν K : Type}

/-- The nodes that are noted for the levels from `n` on and below `c`. -/
def noted (b : ℕ → ν) (c n : ℕ) : List ν := (List.range' n (c - n)).map b

variable {s : Mem ν K} {l l' : List ν} {p : ν} {b : ℕ → ν} {c t n i j : ℕ} {update : ℕ → Option ν}

theorem mem_noted : p ∈ noted b c n ↔ ∃ j, n ≤ j ∧ j < c ∧ b j = p := by
  simp only [noted, List.mem_map, List.mem_range'_1]
  constructor
  · rintro ⟨j, ⟨h1, h2⟩, rfl⟩
    exact ⟨j, h1, by omega, rfl⟩
  · rintro ⟨j, h1, h2, rfl⟩
    exact ⟨j, ⟨h1, by omega⟩, rfl⟩

theorem noted_of_le (h : c ≤ n) : noted b c n = [] := by
  rw [noted, Nat.sub_eq_zero_of_le h]
  rfl

theorem noted_cons (h : n < c) : noted b c n = b n :: noted b c (n + 1) := by
  rw [noted, noted, show c - n = c - (n + 1) + 1 by omega, List.range'_succ, List.map_cons]

variable [DecidableEq ν]

/-- The locks of the nodes `l` are held too. -/
def Mem.holding (s : Mem ν K) (l : List ν) : Mem ν K :=
  { s with locked := fun p => s.locked p || decide (p ∈ l) }

@[simp] theorem holding_nil : s.holding [] = s := by
  simp [Mem.holding]

theorem holding_congr (h : ∀ p, p ∈ l ↔ p ∈ l') : s.holding l = s.holding l' := by
  simp [Mem.holding, h]

theorem lock_free (hp : s.locked p = false) : s.lock p = some (s.holding [p]) := by
  rw [Mem.lock, if_neg (by rw [hp]; exact Bool.false_ne_true), Option.some.injEq, Mem.holding]
  congr 1
  funext q
  by_cases hq : q = p
  · simp [hq]
  · simp [hq]

theorem lock_holding (hp : s.locked p = false) (hl : p ∉ l) :
    (s.holding l).lock p = some (s.holding (p :: l)) := by
  rw [lock_free (by simp [Mem.holding, hp, hl]), Option.some.injEq]
  simp only [Mem.holding, List.mem_cons, List.not_mem_nil, or_false]
  congr 1
  funext q
  rw [Bool.or_assoc, Bool.or_comm (decide (q ∈ l)), Bool.decide_or]

theorem holding_cons : s.holding (p :: l) = (s.holding [p]).holding l := by
  simp only [Mem.holding, List.mem_cons, List.not_mem_nil, or_false, Bool.or_assoc, Bool.decide_or]

theorem unlock_holding (hp : s.locked p = false) (hl : p ∈ l) :
    (s.holding l).unlock p = some (s.holding (l.filter (· ≠ p))) := by
  rw [Mem.unlock, if_pos (by simp [Mem.holding, hl]), Option.some.injEq, Mem.holding, Mem.holding]
  congr 1
  funext q
  by_cases hq : q = p
  · simp [hq, hp]
  · simp [hq]

theorem unlock_single (hp : s.locked p = false) : (s.holding [p]).unlock p = some s := by
  rw [unlock_holding hp List.mem_cons_self]
  simp

/-! ### Unlocking -/

theorem unlockUpdate_none (h : ∀ j ≤ t, update j = none) : s.unlockUpdate update t = some s := by
  have : ∀ ls : List ℕ, (∀ j ∈ ls, update j = none) → ∀ last, s.unlockLevels update ls last = some s := by
    intro ls hls last
    induction ls with
    | nil => rfl
    | cons level ls ih =>
      rw [Mem.unlockLevels, hls level List.mem_cons_self]
      exact ih fun j hj => hls j (List.mem_cons_of_mem _ hj)
  exact this _ (fun j hj => h j (Nat.lt_succ_iff.mp (List.mem_range.mp hj))) none

/-- The levels from `n` on, when those below are done with. -/
theorem unlockLevels_holding (hb : ∀ i m j, i ≤ m → m ≤ j → j ≤ t → b i = b j → b m = b i)
    (hu : ∀ j ≤ t, update j = some (b j)) (hfree : ∀ j ≤ t, s.locked (b j) = false) :
    ∀ k n, n + k = t + 1 → ∀ last, (∀ p, last = some p ↔ 0 < n ∧ b (n - 1) = p) →
      (s.holding ((noted b (t + 1) n).filter fun p => decide (∀ j < n, b j ≠ p))).unlockLevels update
        (List.range' n k) last = some s := by
  intro k
  induction k with
  | zero =>
    intro n hn last _
    rw [noted_of_le (by omega)]
    simp [Mem.unlockLevels]
  | succ k ih =>
    intro n hn last hlast
    have hnt : n ≤ t := by omega
    have hcons := noted_cons (b := b) (Nat.lt_succ_of_le hnt)
    rw [List.range'_succ, Mem.unlockLevels, hu n hnt]
    dsimp only
    have hstep := ih (n + 1) (by omega) (some (b n)) fun p => by simp
    -- a node that was noted below was noted just below
    have hbelow : ∀ j < n, b j = b n → b (n - 1) = b n := fun j hj he => by
      rw [hb j (n - 1) n (by omega) (by omega) hnt he, he]
    by_cases hsame : some (b n) = last
    · have hprev := ((hlast (b n)).mp hsame.symm).2
      have hpos := ((hlast (b n)).mp hsame.symm).1
      rw [if_neg (not_not.mpr hsame)]
      rw [hsame] at hstep
      refine (congrArg (fun s' : Mem ν K => s'.unlockLevels update _ last) (holding_congr fun p => ?_)).trans hstep
      rw [hcons]
      simp only [List.mem_filter, List.mem_cons, decide_eq_true_eq]
      constructor
      · rintro ⟨rfl | hp, hnot⟩
        · exact absurd hprev (hnot _ (by omega))
        · refine ⟨hp, fun j hj he => ?_⟩
          rcases Nat.lt_succ_iff_lt_or_eq.mp hj with hj | hj
          · exact hnot j hj he
          · exact hnot (n - 1) (by omega) (hprev.trans (hj ▸ he))
      · exact fun ⟨hp, hnot⟩ => ⟨.inr hp, fun j hj => hnot j (by omega)⟩
    · have hnew : ∀ j < n, b j ≠ b n := fun j hj he =>
        hsame ((hlast (b n)).mpr ⟨by omega, hbelow j hj he⟩).symm
      rw [if_pos hsame, unlock_holding (hfree n hnt)
        (List.mem_filter.mpr ⟨hcons ▸ List.mem_cons_self, decide_eq_true hnew⟩)]
      refine (congrArg (fun s' : Mem ν K => s'.unlockLevels update _ _) (holding_congr fun p => ?_)).trans hstep
      rw [hcons]
      simp only [List.mem_filter, List.mem_cons, decide_eq_true_eq]
      constructor
      · rintro ⟨⟨rfl | hp, hnot⟩, hne⟩
        · exact absurd rfl hne
        · refine ⟨hp, fun j hj he => ?_⟩
          rcases Nat.lt_succ_iff_lt_or_eq.mp hj with hj | hj
          · exact hnot j hj he
          · exact hne (hj ▸ he).symm
      · exact fun ⟨hp, hnot⟩ => ⟨⟨.inr hp, fun j hj => hnot j (by omega)⟩, fun he =>
          hnot n (Nat.lt_succ_self _) he.symm⟩

/-- **Each lock that is held is released once.** -/
theorem unlockUpdate_holding (hb : ∀ i m j, i ≤ m → m ≤ j → j ≤ t → b i = b j → b m = b i)
    (hu : ∀ j ≤ t, update j = some (b j)) (hfree : ∀ j ≤ t, s.locked (b j) = false) :
    (s.holding (noted b (t + 1) 0)).unlockUpdate update t = some s := by
  have h := unlockLevels_holding hb hu hfree (t + 1) 0 (Nat.zero_add _) none (by simp)
  rwa [List.filter_eq_self.mpr (by simp), ← List.range_eq_range'] at h

end Skip
end Perfbook
