/-
# `skiplist_fsck` finds nothing

From each node on, the next one of a level is found again behind the next one of
the level below (`fsckLevels_eq`), so the checks of `skiplist_fsck` pass on each
skiplist (`Levels.fsck`).

Key theorem: `Levels.fsck`.
-/
import Perfbook.Skip.Walk

namespace Perfbook
namespace Skip

open Conc

variable {ν K : Type} [DecidableEq ν] {s : Mem ν K} {head first p q : ν} {l l' ns : List ν}
  {i n fuel : ℕ}

/-- The walk on level 0 over nodes that are not on level `i`. -/
theorem fsckWalk_eq (h : Linked (s.next · 0) p l) (hf : l.length < fuel) :
    fsckWalk s (onLevel s i l).head? fuel l.head? = some () := by
  induction l generalizing p fuel with
  | nil =>
    obtain ⟨fuel, rfl⟩ := Nat.exists_eq_succ_of_ne_zero (Nat.ne_of_gt hf)
    rfl
  | cons q l ih =>
    obtain ⟨fuel, rfl⟩ := Nat.exists_eq_succ_of_ne_zero (Nat.ne_zero_of_lt hf)
    by_cases hq : i ≤ s.toplevel q
    · simp [fsckWalk, onLevel, hq]
    · have hoff : onLevel s i (q :: l) = onLevel s i l := by simp [onLevel, hq]
      have hne : some q ≠ (onLevel s i l).head? := fun he =>
        hq (mem_onLevel.mp (List.mem_of_mem_head? he.symm)).2
      rw [fsckWalk, hoff, List.head?_cons, if_neg hne]
      have := ih h.2 (Nat.lt_of_succ_lt_succ hf)
      rwa [← h.2.head] at this

omit [DecidableEq ν] in
/-- Where the list of a level starts in that of level 0. -/
theorem exists_suffix (s : Mem ν K) (i : ℕ) (l : List ν) :
    ∃ l₁ l₂, l = l₁ ++ l₂ ∧ l₂.head? = (onLevel s i l).head? ∧ ∀ p ∈ l₁, s.toplevel p < i := by
  induction l with
  | nil => exact ⟨[], [], rfl, rfl, nofun⟩
  | cons p l ih =>
    by_cases hp : i ≤ s.toplevel p
    · exact ⟨[], p :: l, rfl, by simp [onLevel, hp], nofun⟩
    · obtain ⟨l₁, l₂, rfl, hhead, hlow⟩ := ih
      refine ⟨p :: l₁, l₂, rfl, ?_, List.forall_mem_cons.mpr ⟨not_le.mp hp, hlow⟩⟩
      rw [hhead]
      simp [onLevel, hp]

/-- The levels from `i` on. -/
theorem fsckLevels_eq (h : Linked (s.next · 0) first l)
    (hnext : ∀ i ≤ s.toplevel first, s.next first i = (onLevel s i l).head?) (hf : l.length < fuel)
    (hi : i + n = s.toplevel first) :
    fsckLevels fuel s first (List.range' (i + 1) n) (onLevel s i l).head? = some () := by
  induction n generalizing i with
  | zero => rfl
  | succ n ih =>
    obtain ⟨l₁, l₂, rfl, hhead, hlow⟩ := exists_suffix s i l
    have hnil : onLevel s (i + 1) l₁ = [] := List.filter_eq_nil_iff.mpr fun p hp => by
      have := hlow p hp
      simpa using Nat.lt_succ_of_lt this
    have hoff : onLevel s (i + 1) (l₁ ++ l₂) = onLevel s (i + 1) l₂ := by
      rw [onLevel_append, hnil, List.nil_append]
    have hn := hnext (i + 1) (by omega)
    have hw : fsckWalk s (onLevel s (i + 1) l₂).head? fuel l₂.head? = some () :=
      fsckWalk_eq h.mid (by simp at hf; omega)
    have hhigh : ((onLevel s (i + 1) (l₁ ++ l₂)).head?.any fun slp => s.toplevel slp < i + 1) = false := by
      cases hq : (onLevel s (i + 1) (l₁ ++ l₂)).head? with
      | none => rfl
      | some q => exact decide_eq_false (not_lt.mpr (mem_onLevel.mp (List.mem_of_mem_head? hq)).2)
    rw [← hoff, hhead] at hw
    rw [List.range'_succ, fsckLevels, hn, hw]
    simp only [Option.bind_eq_bind, Option.bind_some, hhigh, Bool.false_eq_true, if_false]
    exact ih (by omega)

variable [LinearOrder K]

/-- The checks of one node. -/
theorem Levels.fsckOne (h : Levels s head (l ++ l')) (hf : l'.length < fuel) :
    fsckOne fuel s (pred s head l 0) = some () := by
  have hnext : ∀ i ≤ s.toplevel (pred s head l 0), s.next (pred s head l 0) i = (onLevel s i l').head? :=
    fun i hi => by
      rw [← pred_of_le (Nat.zero_le i) hi]
      exact h.next_pred (hi.trans_lt h.top_pred_lt)
  have hlink : Linked (s.next · 0) (pred s head l 0) l' := by
    have hzero : onLevel s 0 l' = l' := onLevel_zero
    have := h.linked 0 (by decide)
    rw [onLevel_append, hzero] at this
    exact this.mid
  have hlevels := fsckLevels_eq hlink hnext hf (Nat.zero_add _)
  rw [← hnext 0 (Nat.zero_le _)] at hlevels
  rw [Skip.fsckOne, hlevels]
  refine if_pos (List.all_eq_true.mpr fun i hi => decide_eq_true ?_)
  obtain ⟨h1, h2⟩ := List.mem_range'_1.mp hi
  have htop : s.toplevel (pred s head l 0) < maxLevels := h.top_pred_lt
  rcases pred_mem s head l 0 with he | ⟨hm, -⟩
  · rw [he, h.top_head] at h1 h2
    unfold maxLevels at h1 h2
    omega
  · exact h.above _ (List.mem_append_left _ hm) i (by omega) h1

theorem Levels.fsckFrom (h : Levels s head (l ++ l')) (hf : l'.length < fuel) (hn : l'.length < n) :
    fsckFrom fuel s head n (some (pred s head l 0)) = some () := by
  induction l' generalizing l n with
  | nil =>
    obtain ⟨n, rfl⟩ := Nat.exists_eq_succ_of_ne_zero (Nat.ne_of_gt hn)
    have howner := h.owner _ (List.mem_append_left [] (a := pred s head l 0) pred_mem_cons)
    have hnext : s.next (pred s head l 0) 0 = none := h.next_pred (by decide)
    simp only [Skip.fsckFrom, h.fsckOne hf, howner, hnext, Option.bind_eq_bind, Option.bind_some, ne_eq,
      not_true_eq_false, if_false]
  | cons q l' ih =>
    obtain ⟨n, rfl⟩ := Nat.exists_eq_succ_of_ne_zero (Nat.ne_zero_of_lt hn)
    have howner := h.owner _ (List.mem_append_left (q :: l') (a := pred s head l 0) pred_mem_cons)
    have hnext : s.next (pred s head l 0) 0 = some q := by
      rw [h.next_pred (by decide), onLevel_zero, List.head?_cons]
    have h' : Levels s head ((l ++ [q]) ++ l') := by rwa [List.append_assoc]
    have hq : pred s head (l ++ [q]) 0 = q := by rw [pred, onLevel_zero, before_append]; rfl
    have hrest := ih h' (Nat.lt_of_succ_lt hf) (Nat.lt_of_succ_lt_succ hn)
    rw [hq] at hrest
    simp only [Skip.fsckFrom, h.fsckOne hf, howner, hnext, Option.bind_eq_bind, Option.bind_some, ne_eq,
      not_true_eq_false, if_false, hrest]

/-- **`skiplist_fsck` finds nothing.** -/
theorem Levels.fsck (h : Levels s head ns) (hf : ns.length < fuel) : fsck fuel s head = some () :=
  Levels.fsckFrom (l := []) h hf hf

end Skip
end Perfbook
