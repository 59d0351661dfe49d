/-
# The links of a node

The stores of an insertion and of a deletion give what `linked` and `unlinked`
say, level by level, and a skiplist gets one node more (`Levels.inserted`) or one
less (`Levels.erased`).

Key definitions: `linked`, `unlinked`.
Key theorems: `linkLevels_eq`, `Fine.unlink_eq`, `Global.unlink_eq`, `Levels.inserted`,
`Levels.erased`.
-/
import Mathlib.Data.Nat.SuccPred
import Perfbook.Skip.Search

namespace Perfbook
namespace Skip

open Conc

variable {ν K : Type} [DecidableEq ν] {s : Mem ν K} {head new x p q : ν}
  {ns lo hi : List ν} {key : K} {n t level l : ℕ} {b : ℕ → ν} {update : ℕ → Option ν}

/-- `new` is behind `b level` on the levels `ls`. -/
def linked (s : Mem ν K) (b : ℕ → ν) (new : ν) (ls : List ℕ) : Mem ν K :=
  { s with next := fun p level =>
      if level ∈ ls then
        if p = new then s.next (b level) level
        else if p = b level then some new else s.next p level
      else s.next p level }

/-- What was behind `x` is behind `b level` on the levels below `n`. -/
def unlinked (s : Mem ν K) (b : ℕ → ν) (x : ν) (n : ℕ) : Mem ν K :=
  { s with next := fun p level =>
      if level < n ∧ p = b level then s.next x level else s.next p level }

theorem next_setNext (o : Option ν) :
    (s.setNext p n o).next q level = if q = p ∧ level = n then o else s.next q level := by
  unfold Mem.setNext
  by_cases hq : q = p
  · subst hq
    by_cases hl : level = n
    · subst hl
      simp
    · simp [hl]
  · simp [hq]

theorem linkLevels_eq {ls : List ℕ} (hls : ls.Nodup) (hu : ∀ j ∈ ls, update j = some (b j))
    (htop : ∀ j ∈ ls, j ≤ s.toplevel (b j)) (hb : ∀ j ∈ ls, b j ≠ new) :
    linkLevels new update ls s = some (linked s b new ls) := by
  induction ls generalizing s with
  | nil => simp [linkLevels, linked]
  | cons n ls ih =>
    obtain ⟨hn, hls⟩ := List.nodup_cons.mp hls
    simp only [linkLevels, hu n List.mem_cons_self, Option.bind_eq_bind, Option.bind_some]
    have htn : ¬ (s.setNext new n (s.next (b n) n)).toplevel (b n) < n :=
      not_lt.mpr (htop n List.mem_cons_self)
    have hrest := ih (s := (s.setNext new n (s.next (b n) n)).setNext (b n) n (some new)) hls
      (fun j hj => hu j (List.mem_cons_of_mem _ hj)) (fun j hj => htop j (List.mem_cons_of_mem _ hj))
      fun j hj => hb j (List.mem_cons_of_mem _ hj)
    rw [if_neg htn, hrest]
    have hbn := hb n List.mem_cons_self
    simp only [linked, Option.some.injEq, Mem.mk.injEq]
    refine ⟨rfl, rfl, rfl, rfl, ?_, rfl, rfl, rfl⟩
    funext p level
    simp only [next_setNext, List.mem_cons]
    by_cases hl : level = n
    · subst hl
      simp only [hn, if_false, true_or, if_true, and_true]
      by_cases hp : p = new
      · subst hp
        simp [Ne.symm hbn]
      · simp [hp]
    · simp [hl]

theorem setNext_unlinked (hx : x ≠ b n) :
    unlinked (s.setNext (b n) n (s.next x n)) b x n = unlinked s b x (n + 1) := by
  simp only [unlinked, Mem.mk.injEq]
  refine ⟨rfl, rfl, rfl, rfl, ?_, rfl, rfl, rfl⟩
  funext p level
  simp only [next_setNext]
  by_cases hl : level = n
  · subst hl
    simp
  · have : level < n + 1 ↔ level < n := by omega
    simp [hl, this]

theorem Fine.unlink_eq (hu : ∀ j < n, update j = some (b j)) (hx : ∀ j < n, x ≠ b j) :
    unlink update x n s = unlinked s b x n := by
  induction n generalizing s with
  | zero => simp [unlink, unlinked]
  | succ n ih =>
    rw [unlink, hu n (Nat.lt_succ_self n)]
    dsimp only
    rw [ih (fun j hj => hu j (Nat.lt_succ_of_lt hj))
      fun j hj => hx j (Nat.lt_succ_of_lt hj)]
    exact setNext_unlinked (hx n (Nat.lt_succ_self n))

theorem Global.unlink_eq (hu : ∀ j < n, update j = some (b j)) (hx : ∀ j < n, x ≠ b j) :
    unlink update x n s = some (unlinked s b x n) := by
  induction n generalizing s with
  | zero => simp [unlink, unlinked]
  | succ n ih =>
    rw [unlink, hu n (Nat.lt_succ_self n)]
    dsimp only
    rw [ih (fun j hj => hu j (Nat.lt_succ_of_lt hj)) fun j hj => hx j (Nat.lt_succ_of_lt hj)]
    rw [setNext_unlinked (hx n (Nat.lt_succ_self n))]

/-! ### One node more, one node less -/

/-- The memory after an insertion. -/
def inserted (s : Mem ν K) (head : ν) (lo : List ν) (new : ν) (t : ℕ) : Mem ν K :=
  linked (clearAbove (initNode s new head t) new t) (pred s head lo) new (List.range (t + 1))

/-- The memory after a deletion. -/
def erased (s : Mem ν K) (head : ν) (lo : List ν) (x : ν) : Mem ν K :=
  { unlinked s (pred s head lo) x (s.toplevel x + 1) with
    deleted := Function.update s.deleted x true }

theorem onLevel_inserted (hp : new ∉ ns) : onLevel (inserted s head lo new t) level ns = onLevel s level ns :=
  List.filter_congr fun p hm => by
    have hne : p ≠ new := fun he => hp (he ▸ hm)
    simp [inserted, linked, clearAbove, initNode, hne]

theorem next_inserted (hq : q ≠ new) :
    (inserted s head lo new t).next q level =
      if level ≤ t ∧ q = pred s head lo level then some new else s.next q level := by
  by_cases hl : level ≤ t
  · by_cases he : q = pred s head lo level
    · simp [inserted, linked, hl, ← he, hq]
    · simp [inserted, linked, clearAbove, initNode, hl, he, hq]
  · simp [inserted, linked, clearAbove, initNode, hl, hq]

theorem next_inserted_new (hl : level ≤ t) (hb : pred s head lo level ≠ new) :
    (inserted s head lo new t).next new level = s.next (pred s head lo level) level := by
  simp [inserted, linked, clearAbove, initNode, hl, hb]

theorem next_inserted_above (hl : t < level) (hm : level < maxLevels) :
    (inserted s head lo new t).next new level = none := by
  simp [inserted, linked, clearAbove, initNode, hl, hm]

variable [LinearOrder K]

omit [DecidableEq ν] in
theorem Levels.nodup (h : Levels s head ns) : (head :: ns).Nodup :=
  List.nodup_cons.mpr ⟨h.head_notMem, h.sorted.imp fun hlt he => by
    rw [he] at hlt
    exact lt_irrefl _ hlt⟩

omit [DecidableEq ν] in
theorem Levels.nodup_onLevel (h : Levels s head ns) : (head :: onLevel s level ns).Nodup :=
  h.nodup.sublist (List.filter_sublist.cons_cons _)

omit [DecidableEq ν] in
theorem Levels.pred_ne (h : Levels s head (lo ++ x :: hi)) : x ≠ pred s head lo level := fun he => by
  have hm : x ∈ head :: lo := he ▸ pred_mem_cons
  have hn := h.nodup
  rw [← List.cons_append] at hn
  exact List.disjoint_of_nodup_append hn hm List.mem_cons_self

section

variable (h : Levels s head (lo ++ hi)) (hlo : ∀ p ∈ lo, s.key p < s.key new)
  (hhi : ∀ p ∈ hi, s.key new < s.key p) (hnew : new ∉ head :: (lo ++ hi)) (ht : t < maxLevels)

include h hlo hhi hnew ht in
/-- **An insertion adds the node**, on the levels up to its own. -/
theorem Levels.inserted : Levels (inserted s head lo new t) head (lo ++ new :: hi) := by
  have hlo' : new ∉ lo := fun hm => hnew (List.mem_cons_of_mem _ (List.mem_append_left _ hm))
  have hhi' : new ∉ hi := fun hm => hnew (List.mem_cons_of_mem _ (List.mem_append_right _ hm))
  have hhead : new ≠ head := fun he => hnew (he ▸ List.mem_cons_self)
  have hb : ∀ level, pred s head lo level ≠ new := fun level he => by
    rcases List.mem_cons.mp (he ▸ pred_mem_cons : new ∈ head :: lo) with hm | hm
    · exact hhead hm
    · exact hlo' hm
  have hold : ∀ p ∈ head :: (lo ++ hi), p ≠ new := fun p hp he => hnew (he ▸ hp)
  have htop : ∀ p, p ≠ new → (Skip.inserted s head lo new t).toplevel p = s.toplevel p :=
    fun p hp => Function.update_of_ne hp ..
  have htopNew : (Skip.inserted s head lo new t).toplevel new = t := Function.update_self ..
  have hnew' : ∀ p ∈ lo ++ new :: hi, p = new ∨ p ≠ new ∧ p ∈ lo ++ hi := fun p hp => by
    by_cases hpn : p = new
    · exact .inl hpn
    · refine .inr ⟨hpn, ?_⟩
      simpa [hpn] using hp
  refine ⟨(htop head hhead.symm).trans h.top_head, fun p hp => ?_, ?_, fun hm => ?_, fun level hl => ?_,
    fun p hp level hl htl => ?_, fun p hp => ?_, fun p hp => ?_⟩
  · rcases hnew' p hp with hpn | ⟨hpn, hp⟩
    · exact hpn ▸ htopNew.trans_lt ht
    · exact htop p hpn ▸ h.top_lt p hp
  · have hs := List.pairwise_append.mp h.sorted
    refine List.pairwise_append.mpr ⟨hs.1, List.pairwise_cons.mpr ⟨hhi, hs.2.1⟩, fun p hp q hq => ?_⟩
    rcases List.mem_cons.mp hq with rfl | hq
    · exact hlo p hp
    · exact hs.2.2 p hp q hq
  · rcases hnew' head hm with he | ⟨-, hm⟩
    · exact hhead he.symm
    · exact h.head_notMem hm
  · have hlink := h.linked level hl
    have hnd : (head :: onLevel s level (lo ++ hi)).Nodup := h.nodup_onLevel
    have hsub : ∀ q ∈ head :: (onLevel s level lo ++ onLevel s level hi), q ∈ head :: (lo ++ hi) := by
      rw [← onLevel_append]
      exact fun q hq => List.Sublist.subset (List.filter_sublist.cons_cons _) hq
    rw [onLevel_append] at hlink hnd
    rw [onLevel_append, onLevel_inserted hlo', ← List.singleton_append, onLevel_append, onLevel_inserted hhi']
    by_cases hlt : level ≤ t
    · rw [show onLevel (Skip.inserted s head lo new t) level [new] = [new] by simp [onLevel, htopNew, hlt]]
      refine hlink.insert (next_inserted_new hlt (hb level)) ?_ (fun q hq hne => ?_) hnd
      · exact (next_inserted (hb level)).trans (if_pos ⟨hlt, rfl⟩)
      · exact (next_inserted (hold q (hsub q hq))).trans (if_neg fun hc => hne hc.2)
    · rw [show onLevel (Skip.inserted s head lo new t) level [new] = [] by simp [onLevel, htopNew, hlt]]
      exact hlink.congr fun q hq =>
        (next_inserted (hold q (hsub q hq))).trans (if_neg fun hc => hlt hc.1)
  · rcases hnew' p hp with hpn | ⟨hpn, hp⟩
    · rw [hpn, htopNew] at htl
      exact hpn ▸ next_inserted_above htl hl
    · rw [htop p hpn] at htl
      rw [next_inserted hpn, if_neg fun hc => ?_]
      · exact h.above p hp level hl htl
      · rcases pred_mem s head lo level with he | ⟨-, hle⟩
        · exact h.head_notMem (he ▸ hc.2 ▸ hp)
        · rw [← hc.2] at hle
          omega
  · by_cases hpn : p = new
    · exact hpn ▸ Function.update_self ..
    · refine (Function.update_of_ne hpn ..).trans (h.live p ?_)
      simpa [hpn] using hp
  · by_cases hpn : p = new
    · exact hpn ▸ Function.update_self ..
    · refine (Function.update_of_ne hpn ..).trans (h.owner p ?_)
      simpa [hpn] using hp

end

/-- **A deletion takes the node out** of all its levels. -/
theorem Levels.erased (h : Levels s head (lo ++ x :: hi)) : Levels (erased s head lo x) head (lo ++ hi) := by
  have hsub : ∀ p ∈ lo ++ hi, p ∈ lo ++ x :: hi := fun p hp => by
    simp only [List.mem_append, List.mem_cons] at hp ⊢
    exact hp.imp_right .inr
  have hnd := h.nodup
  have hx : x ∉ head :: (lo ++ hi) := by
    rw [← List.cons_append] at hnd ⊢
    exact (List.nodup_middle.mp hnd).notMem
  have hnext : ∀ p level, (Skip.erased s head lo x).next p level =
      if level < s.toplevel x + 1 ∧ p = pred s head lo level then s.next x level else s.next p level :=
    fun _ _ => rfl
  refine ⟨h.top_head, fun p hp => h.top_lt p (hsub p hp), ?_, fun hm => h.head_notMem (hsub head hm),
    fun level hl => ?_, fun p hp level hl htl => ?_, fun p hp => ?_, fun p hp => ?_⟩
  · exact h.sorted.sublist (List.Sublist.append_left (List.sublist_cons_self ..) _)
  · have hlink := h.linked level hl
    have hnl : (head :: onLevel s level (lo ++ x :: hi)).Nodup := h.nodup_onLevel
    have hcons : onLevel s level ([x] ++ hi) = onLevel s level [x] ++ onLevel s level hi := onLevel_append
    rw [List.singleton_append] at hcons
    rw [onLevel_append, hcons] at hlink hnl
    change Linked ((Skip.erased s head lo x).next · level) head (onLevel s level (lo ++ hi))
    rw [onLevel_append]
    by_cases hlt : level ≤ s.toplevel x
    · rw [show onLevel s level [x] = [x] by simp [onLevel, hlt]] at hlink hnl
      refine hlink.erase ?_ (fun q hq hne => ?_) hnl
      · exact (hnext _ _).trans (if_pos ⟨Nat.lt_succ_of_le hlt, rfl⟩)
      · exact (hnext _ _).trans (if_neg fun hc => hne hc.2)
    · rw [show onLevel s level [x] = [] by simp [onLevel, hlt]] at hlink
      exact hlink.congr fun q _ => (hnext _ _).trans (if_neg fun hc => hlt (Nat.le_of_lt_succ hc.1))
  · refine (hnext _ _).trans ((if_neg fun hc => ?_).trans (h.above p (hsub p hp) level hl htl))
    rcases pred_mem s head lo level with he | ⟨-, hle⟩
    · exact h.head_notMem (he ▸ hc.2 ▸ hsub p hp)
    · rw [← hc.2] at hle
      exact absurd htl (not_lt.mpr hle)
  · have hpx : p ≠ x := fun he => hx (he ▸ hp)
    refine (Function.update_of_ne hpx ..).trans (h.live p ?_)
    rcases List.mem_cons.mp hp with rfl | hp
    · exact List.mem_cons_self
    · exact List.mem_cons_of_mem _ (hsub p hp)
  · refine h.owner p ?_
    rcases List.mem_cons.mp hp with rfl | hp
    · exact List.mem_cons_self
    · exact List.mem_cons_of_mem _ (hsub p hp)

end Skip
end Perfbook
