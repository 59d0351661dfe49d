/-
# The search in a skiplist

With the nodes `lo` before a key and `hi` from it on, the search ends on each
level at the last node of `lo` that is on it (`pred`), or at the head
(`Levels.walk_spec`). A node that is high enough for a level above is noted there
too (`pred_of_le`), so one that is noted for two levels is noted for those in
between (`Levels.pred_between`).

Key definitions: `Levels`, `pred`.
Key theorems: `exists_split`, `pred_of_le`, `Levels.walk_spec`, `Levels.pred_between`.
-/
import Mathlib.Data.List.Sort
import Perfbook.Conc.Linked
import Perfbook.Skip.Skip

namespace Perfbook
namespace Skip

open Conc

variable {ν K : Type}

/-- The nodes of `l` on a level. -/
def onLevel (s : Mem ν K) (level : ℕ) (l : List ν) : List ν := l.filter (level ≤ s.toplevel ·)

/-- The node that the search ends with on a level. -/
def pred (s : Mem ν K) (head : ν) (lo : List ν) (level : ℕ) : ν := before head (onLevel s level lo)

/-- The skiplist has the nodes `ns`: what `skiplist_fsck` checks, and that the nodes are sorted by
key and none is marked. -/
structure Levels [LinearOrder K] (s : Mem ν K) (head : ν) (ns : List ν) : Prop where
  top_head : s.toplevel head = maxLevels - 1
  top_lt : ∀ p ∈ ns, s.toplevel p < maxLevels
  sorted : ns.Pairwise fun p q => s.key p < s.key q
  head_notMem : head ∉ ns
  linked : ∀ level < maxLevels, Linked (s.next · level) head (onLevel s level ns)
  above : ∀ p ∈ ns, ∀ level < maxLevels, s.toplevel p < level → s.next p level = none
  live : ∀ p ∈ head :: ns, s.deleted p = false
  owner : ∀ p ∈ head :: ns, s.head p = some head

variable {s s' : Mem ν K} {head p q : ν} {ns lo hi : List ν} {key : K} {level i j m fuel : ℕ}

theorem mem_onLevel : p ∈ onLevel s level ns ↔ p ∈ ns ∧ level ≤ s.toplevel p := by
  simp [onLevel]

@[simp] theorem onLevel_append : onLevel s level (lo ++ hi) = onLevel s level lo ++ onLevel s level hi := by
  simp [onLevel]

theorem onLevel_zero : onLevel s 0 ns = ns := by
  simp [onLevel]

theorem onLevel_onLevel (h : i ≤ j) : onLevel s j (onLevel s i ns) = onLevel s j ns := by
  unfold onLevel
  rw [List.filter_filter]
  refine List.filter_congr fun p _ => ?_
  rw [Bool.and_eq_left_iff_imp, decide_eq_true_iff, decide_eq_true_iff]
  exact h.trans

theorem pred_mem (s : Mem ν K) (head : ν) (lo : List ν) (level : ℕ) : pred s head lo level = head ∨
    pred s head lo level ∈ lo ∧ level ≤ s.toplevel (pred s head lo level) := by
  rcases List.mem_cons.mp (before_mem (p := head) (l := onLevel s level lo)) with he | hm
  · exact .inl he
  · exact .inr (mem_onLevel.mp hm)

theorem pred_mem_cons : pred s head lo level ∈ head :: lo := by
  rcases pred_mem s head lo level with he | ⟨hm, -⟩
  · rw [he]
    exact List.mem_cons_self
  · exact List.mem_cons_of_mem _ hm

/-- Where a search stands after a level, it can go on below. -/
theorem pred_down : pred s head lo (level + 1) = head ∨
    pred s head lo (level + 1) ∈ lo ∧ level ≤ s.toplevel (pred s head lo (level + 1)) :=
  (pred_mem s head lo _).imp_right (·.imp_right (Nat.le_of_succ_le))

/-- A node that is high enough for a level above was noted there. -/
theorem pred_of_le (hij : i ≤ j) (hp : j ≤ s.toplevel (pred s head lo i)) :
    pred s head lo j = pred s head lo i := by
  have hjj : onLevel s j lo = onLevel s j (onLevel s i lo) := (onLevel_onLevel hij).symm
  rcases List.eq_nil_or_concat (onLevel s i lo) with hnil | ⟨l, p, hl⟩
  · rw [pred, pred, hjj, hnil]
    rfl
  · have hpi : pred s head lo i = p := by simp [pred, hl]
    rw [hpi] at hp ⊢
    rw [pred, hjj, hl, List.concat_eq_append, onLevel_append, before_append,
      show onLevel s j [p] = [p] by simp [onLevel, hp]]
    rfl

/-- What is on a level from one of its nodes on. -/
theorem onLevel_split (hp : p = head ∨ p ∈ lo ∧ level ≤ s.toplevel p) :
    ∃ l l', onLevel s level lo = l ++ l' ∧ before head l = p := by
  rcases hp with rfl | hp
  · exact ⟨[], _, rfl, rfl⟩
  · obtain ⟨l, l', hl⟩ := List.append_of_mem (mem_onLevel.mpr hp)
    exact ⟨l ++ [p], l', by rw [hl, List.append_assoc]; rfl, by simp⟩

variable [LinearOrder K]

/-- A sorted list is cut at a key. -/
theorem exists_split (hs : ns.Pairwise fun p q => s.key p < s.key q) (key : K) :
    ∃ lo hi, ns = lo ++ hi ∧ (∀ p ∈ lo, s.key p < key) ∧ ∀ p ∈ hi, key ≤ s.key p := by
  induction ns with
  | nil => exact ⟨[], [], rfl, nofun, nofun⟩
  | cons p ns ih =>
    obtain ⟨hp, hs⟩ := List.pairwise_cons.mp hs
    by_cases hk : s.key p < key
    · obtain ⟨lo, hi, rfl, hlo, hhi⟩ := ih hs
      exact ⟨p :: lo, hi, rfl, List.forall_mem_cons.mpr ⟨hk, hlo⟩, hhi⟩
    · have hle := not_lt.mp hk
      exact ⟨[], p :: ns, rfl, nofun, List.forall_mem_cons.mpr ⟨hle, fun q hq => hle.trans (hp q hq).le⟩⟩

/-! ### One level -/

/-- The search from `p` on a level, when the cells `l` come before the key and `l'` do not. -/
theorem walk_linked {l l' : List ν} (h : Linked (s.next · level) p (l ++ l')) (hl : ∀ q ∈ l, s.key q < key)
    (hl' : ∀ q ∈ l', key ≤ s.key q) (hf : l.length < fuel) (result : Ordering) :
    ∃ result', walk s key level fuel p result = some (before p l, l'.head?, result') ∧
      ∀ q ∈ l'.head?, result' = s.slCmp q key := by
  induction l generalizing p fuel result with
  | nil =>
    obtain ⟨fuel, rfl⟩ := Nat.exists_eq_succ_of_ne_zero (Nat.ne_of_gt hf)
    cases l' with
    | nil => exact ⟨result, by simp [walk, show s.next p level = none from h], nofun⟩
    | cons q l' =>
      have hq : s.slCmp q key ≠ .lt := fun hc =>
        absurd (compare_lt_iff_lt.mp hc) (not_lt.mpr (hl' q List.mem_cons_self))
      refine ⟨s.slCmp q key, by simp [walk, show s.next p level = some q from h.1, hq], fun r hr => ?_⟩
      cases hr
      rfl
  | cons q l ih =>
    obtain ⟨fuel, rfl⟩ := Nat.exists_eq_succ_of_ne_zero (Nat.ne_zero_of_lt hf)
    have hq : s.slCmp q key = .lt := compare_lt_iff_lt.mpr (hl q List.mem_cons_self)
    obtain ⟨result', hw, hr⟩ := ih h.2 (fun r hr => hl r (List.mem_cons_of_mem _ hr))
      (by simpa using hf) .lt
    refine ⟨result', ?_, hr⟩
    rw [walk, show s.next p level = some q from h.1, before_cons]
    simpa [hq] using hw

namespace Levels

variable (h : Levels s head (lo ++ hi)) (hlo : ∀ p ∈ lo, s.key p < key) (hhi : ∀ p ∈ hi, key ≤ s.key p)

include h hlo hhi in
/-- **The search on a level**, from a node on it. -/
theorem walk_spec (hlevel : level < maxLevels) (hp : p = head ∨ p ∈ lo ∧ level ≤ s.toplevel p)
    (hf : lo.length < fuel) (result : Ordering) :
    ∃ result', walk s key level fuel p result =
        some (pred s head lo level, (onLevel s level hi).head?, result') ∧
      ∀ q ∈ (onLevel s level hi).head?, result' = s.slCmp q key := by
  obtain ⟨l, l', hl, rfl⟩ := onLevel_split hp
  have hlink := h.linked level hlevel
  rw [onLevel_append, hl, List.append_assoc] at hlink
  have hmem : ∀ q ∈ l', q ∈ lo := fun q hq =>
    (mem_onLevel.mp (hl ▸ List.mem_append_right l hq)).1
  have hlen : l'.length ≤ lo.length := by
    have hle : (onLevel s level lo).length ≤ lo.length := List.length_filter_le ..
    rw [hl, List.length_append] at hle
    omega
  obtain ⟨result', hw, hr⟩ := walk_linked hlink.mid (fun q hq => hlo q (hmem q hq))
    (fun q hq => hhi q (mem_onLevel.mp hq).1) (hlen.trans_lt hf) result
  refine ⟨result', ?_, hr⟩
  rw [hw, pred, hl, before_append]

include h in
/-- The link at the end of the search. -/
theorem next_pred (hlevel : level < maxLevels) :
    s.next (pred s head lo level) level = (onLevel s level hi).head? := by
  have hlink := h.linked level hlevel
  rw [onLevel_append] at hlink
  exact hlink.mid.head

include h in
theorem pred_top : pred s head lo maxLevels = head := by
  have hnil : onLevel s maxLevels lo = [] := List.filter_eq_nil_iff.mpr fun p hp => by
    have := h.top_lt p (List.mem_append_left _ hp)
    simpa using this
  rw [pred, hnil, before_nil]

include h in
theorem pred_between (him : i ≤ m) (hmj : m ≤ j) (hj : j < maxLevels)
    (he : pred s head lo i = pred s head lo j) : pred s head lo m = pred s head lo i := by
  refine pred_of_le him ?_
  rw [he]
  rcases pred_mem s head lo j with hh | ⟨-, hle⟩
  · rw [hh, h.top_head]
    unfold maxLevels at *
    omega
  · exact hmj.trans hle

include h in
theorem top_pred_lt : s.toplevel (pred s head lo level) < maxLevels := by
  rcases pred_mem s head lo level with he | ⟨hm, -⟩
  · rw [he, h.top_head]
    exact (by decide : maxLevels - 1 < maxLevels)
  · exact h.top_lt _ (List.mem_append_left _ hm)

end Levels
end Skip
end Perfbook
