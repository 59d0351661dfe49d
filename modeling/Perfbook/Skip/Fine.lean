/-
# The calls of `skiplist.c`

One pass of `skiplist_insert` or of `skiplist_delete` finds nothing that has
changed, so there is no other. The locks that the search has taken, and that of
the node itself, are released in the end.

Key theorems: `Fine.insertLock_eq`, `Fine.insert_new`, `Fine.insert_found`, `Fine.delete_found`,
`Fine.delete_missing`.
-/
import Perfbook.Skip.Ok

namespace Perfbook
namespace Skip

variable {ν K : Type} [DecidableEq ν] [LinearOrder K] {s s' : Mem ν K} {head new x p : ν} {ns lo hi : List ν}
  {m : K → Option ν} {key : K} {t fuel level : ℕ}

namespace Fine

variable {update : ℕ → Option ν}

omit [DecidableEq ν] [LinearOrder K] in
theorem again_of {pass : Mem ν K → Option (Mem ν K × Option (Ret ν))} {r : Ret ν} (hf : 0 < fuel)
    (hp : pass s = some (s', some r)) : again pass fuel s = some (s', r) := by
  obtain ⟨fuel, rfl⟩ := Nat.exists_eq_succ_of_ne_zero hf.ne'
  rw [again, hp]
  rfl

section

variable (h : Levels s head (lo ++ hi)) (hlo : ∀ p ∈ lo, s.key p < key) (hhi : ∀ p ∈ hi, key ≤ s.key p)
  (hf : lo.length < fuel) (ht : t < maxLevels) (hfree : ∀ p ∈ head :: lo, s.locked p = false)

include h ht in
/-- The locks of the nodes that were noted are released. -/
theorem unlock_noted (hu : ∀ j ≤ t, update j = some (pred s head lo j))
    (hfree : ∀ p ∈ head :: lo, s'.locked p = false) :
    (s'.holding (noted (pred s head lo) (t + 1) 0)).unlockUpdate update t = some s' :=
  unlockUpdate_holding (fun _ _ _ him hmj hj he => h.pred_between him hmj (hj.trans_lt ht) he) hu
    fun _ _ => hfree _ pred_mem_cons

include h hhi ht in
/-- Nothing has changed since the nodes were noted. -/
theorem insertStale_eq (hu : ∀ j ≤ t, update j = some (pred s head lo j)) (l : List ν) {ls : List ℕ}
    (hls : ∀ j ∈ ls, j ≤ t) : insertStale (s.holding l) key update ls = some false := by
  induction ls with
  | nil => rfl
  | cons j ls ih =>
    have hj := hls j List.mem_cons_self
    have hlive : s.deleted (pred s head lo j) = false :=
      h.live _ (List.mem_append_left hi (a := pred s head lo j) (pred_mem_cons))
    have hnext : s.next (pred s head lo j) j = (onLevel s j hi).head? := h.next_pred (hj.trans_lt ht)
    have hno : ¬ ((s.holding l).deleted (pred s head lo j) = true ∨
        (((s.holding l).next (pred s head lo j) j).any fun q => (s.holding l).slCmp q key = .lt) = true) := by
      rintro (hd | hq)
      · exact absurd hd (by rw [show (s.holding l).deleted _ = false from hlive]; exact Bool.false_ne_true)
      · rw [show (s.holding l).next _ j = _ from hnext, Option.any_eq_true] at hq
        obtain ⟨q, hq, hlt⟩ := hq
        have hm := List.mem_of_mem_head? hq
        exact absurd (compare_lt_iff_lt.mp (of_decide_eq_true hlt)) (not_lt.mpr (hhi q (mem_onLevel.mp hm).1))
    simp only [insertStale, hu j hj, Option.bind_eq_bind, Option.bind_some]
    rw [if_neg hno]
    exact ih fun i hi => hls i (List.mem_cons_of_mem _ hi)

include h hlo hhi hf ht hfree in
/-- `skiplist_insert_lock` keeps the locks unless it has found the key. -/
theorem insertLock_eq : ∃ update, (∀ j ≤ t, update j = some (pred s head lo j)) ∧
    insertLock fuel s head key t = match hi.head? with
      | none => some (s.holding (noted (pred s head lo) (t + 1) 0), some (some update))
      | some q => if s.slCmp q key = .gt then
          some (s.holding (noted (pred s head lo) (t + 1) 0), some (some update))
        else some (s, some none) := by
  have hnone : ∀ j, maxLevels ≤ j → j ≤ t → (none : Option ν) = some (pred s head lo j) :=
    fun j hj hjt => absurd (ht.trans_le hj) (not_lt.mpr hjt)
  obtain ⟨update, hs, hu⟩ := insertSearch_spec h hlo hhi hf ht hfree (Nat.le_refl maxLevels) h.pred_top.symm hnone
  rw [noted_of_le ht, holding_nil] at hs
  refine ⟨update, hu, ?_⟩
  have htop : s.toplevel head + 1 = maxLevels := by rw [h.top_head]; rfl
  have hstale : insertStale (s.holding (noted (pred s head lo) (t + 1) 0)) key update (List.range (t + 1)) =
      some false := insertStale_eq h hhi ht hu _ fun j hj => Nat.lt_succ_iff.mp (List.mem_range.mp hj)
  have hnext : (s.holding (noted (pred s head lo) (t + 1) 0)).next (pred s head lo 0) 0 = hi.head? := by
    have hzero : onLevel s 0 hi = hi := onLevel_zero
    rw [← hzero]
    exact h.next_pred (Nat.zero_lt_of_lt ht)
  simp only [insertLock, htop, hs, Option.bind_eq_bind, Option.bind_some, Bool.false_eq_true, if_false,
    hstale, hu 0 (Nat.zero_le t), hnext]
  cases hhead : hi.head? with
  | none => rfl
  | some q =>
    dsimp only
    by_cases hgt : s.slCmp q key = .gt
    · rw [if_pos hgt, if_pos (by exact hgt)]
    · rw [if_neg hgt, if_neg (by exact hgt), unlock_noted h ht hu hfree]
      rfl

end

theorem insert_new (h : Ok s head (lo ++ hi) m) (hlo : ∀ p ∈ lo, s.key p < s.key new)
    (hhi : ∀ p ∈ hi, s.key new < s.key p) (hf : lo.length < fuel) (ht : t < maxLevels)
    (hnew : new ∉ head :: (lo ++ hi)) :
    insert fuel s new head (s.key new) t = some (inserted s head lo new t, .ok) := by
  have hfree : ∀ p ∈ head :: lo, s.locked p = false := fun p hp => h.free p (List.mem_append_left hi hp)
  obtain ⟨update, hu, hl⟩ := insertLock_eq h.toLevels hlo (fun p hp => (hhi p hp).le) hf ht hfree
  have hpred : ∀ j, pred s head lo j ≠ new := fun j he =>
    hnew (List.mem_append_left hi (a := new) (he ▸ pred_mem_cons))
  have hkeep : insertLock fuel s head (s.key new) t =
      some (s.holding (noted (pred s head lo) (t + 1) 0), some (some update)) := by
    rw [hl]
    cases hhead : hi.head? with
    | none => rfl
    | some q =>
      exact if_pos (compare_gt_iff_gt.mpr (hhi q (List.mem_of_mem_head? hhead)))
  set l := noted (pred s head lo) (t + 1) 0 with hldef
  have hnl : new ∉ l := fun hm => by
    obtain ⟨j, -, -, he⟩ := mem_noted.mp hm
    exact hpred j he
  have hinit : initNode (s.holding l) new head t = (initNode s new head t).holding l := initNode_holding hnl
  have hfreeNew : (initNode s new head t).locked new = false := Function.update_self ..
  have hlink := linkLevels_inserted h.toLevels hpred ht hu (new :: l)
  have hunlock : (((inserted s head lo new t).holding [new]).holding (noted (pred s head lo) (t + 1) 0)).unlockUpdate
      update t = some ((inserted s head lo new t).holding [new]) := unlock_noted h.toLevels ht hu fun p hp => by
    have hpn : p ≠ new := fun he => hnew (he ▸ List.mem_append_left hi hp)
    simpa [Mem.holding, inserted, linked, clearAbove, initNode, hpn] using hfree p hp
  rw [← hldef, ← holding_cons] at hunlock
  refine again_of (Nat.zero_lt_of_lt hf) ?_
  simp only [insertPass, hkeep, Option.bind_eq_bind, Option.bind_some, hinit, lock_holding hfreeNew hnl,
    hlink, hunlock, unlock_single (show (inserted s head lo new t).locked new = false from hfreeNew)]

theorem insert_found (h : Ok s head (lo ++ x :: hi) m) (hlo : ∀ p ∈ lo, s.key p < key)
    (hhi : ∀ p ∈ x :: hi, key ≤ s.key p) (hx : s.key x = key) (hf : lo.length < fuel) (ht : t < maxLevels) :
    insert fuel s new head key t = some (s, .eexist) := by
  have hfree : ∀ p ∈ head :: lo, s.locked p = false := fun p hp => h.free p (List.mem_append_left _ hp)
  obtain ⟨update, -, hl⟩ := insertLock_eq h.toLevels hlo hhi hf ht hfree
  have hne : s.slCmp x key ≠ .gt := fun hc => absurd (compare_gt_iff_gt.mp hc) (by rw [hx]; exact lt_irrefl _)
  rw [List.head?_cons] at hl
  refine again_of (Nat.zero_lt_of_lt hf) ?_
  simp only [insertPass, hl, Option.bind_eq_bind, if_neg hne, Option.bind_some]

theorem delete_found (h : Ok s head (lo ++ x :: hi) m) (hlo : ∀ p ∈ lo, s.key p < key) (hx : s.key x = key)
    (hhi : ∀ p ∈ hi, key < s.key p) (hf : lo.length < fuel) :
    delete fuel s head key = some (erased s head lo x, .ptr (some x)) := by
  have hfree : ∀ p ∈ head :: lo, s.locked p = false := fun p hp => h.free p (List.mem_append_left _ hp)
  have hfreex : s.locked x = false := h.free x (by simp)
  have htx : s.toplevel x < maxLevels := h.top_lt x (by simp)
  have htop : s.toplevel head + 1 = maxLevels := by rw [h.top_head]; rfl
  have hle : ∀ p ∈ x :: hi, key ≤ s.key p :=
    List.forall_mem_cons.mpr ⟨hx.ge, fun p hp => (hhi p hp).le⟩
  have hits := hits_found h.toLevels hx hhi
  obtain ⟨v, hs, hv⟩ := deleteSearch_spec (v := ⟨head, none, none, .eq, fun _ => none⟩) h.toLevels hlo hle hf
    hits hfree (Nat.le_refl maxLevels)
    ⟨h.pred_top.symm, fun j hj hjm => absurd (hjm.trans_le hj) (lt_irrefl _), (if_neg (not_lt.mpr hits.le)).symm,
      fun hc => absurd (hc.trans_le hits.le) (lt_irrefl _), fun _ => nofun⟩
  rw [noted_of_le hits.le, holding_nil] at hs
  have hu : ∀ j ≤ s.toplevel x, v.update j = some (pred s head lo j) := fun j hj => by
    rw [hv.update j (Nat.zero_le j) (hj.trans_lt htx), if_pos (Nat.lt_succ_of_le hj)]
  obtain ⟨hcur, hres⟩ := hv.hit (Nat.succ_pos _)
  set l := noted (pred s head lo) (s.toplevel x + 1) 0 with hldef
  have hxl : x ∉ l := fun hm => by
    obtain ⟨j, -, -, he⟩ := mem_noted.mp hm
    exact h.pred_ne he.symm
  have hstale : ((List.range (s.toplevel x + 1)).any fun level => (v.update level).any fun slp =>
      (s.holding l).deleted slp || (s.holding l).next slp level ≠ some x) = false := by
    refine List.any_eq_false.mpr fun level hlevel => ?_
    have hlt : level ≤ s.toplevel x := Nat.lt_succ_iff.mp (List.mem_range.mp hlevel)
    have hlive : (s.holding l).deleted (pred s head lo level) = false :=
      h.live _ (List.mem_append_left (x :: hi) (a := pred s head lo level) pred_mem_cons)
    have hnext : (s.holding l).next (pred s head lo level) level = some x :=
      (h.next_pred (hlt.trans_lt htx)).trans (hits.hit level (Nat.lt_succ_of_le hlt)).1
    rw [hu level hlt, Option.any_some, hlive, hnext]
    simp
  have hunlink : unlink v.update x (s.toplevel x + 1) (s.holding (x :: l)) =
      unlinked (s.holding (x :: l)) (pred s head lo) x (s.toplevel x + 1) :=
    unlink_eq (fun j hj => hu j (Nat.lt_succ_iff.mp hj)) fun j _ => h.pred_ne
  have hunlock : (((erased s head lo x).holding [x]).holding (noted (pred s head lo) (s.toplevel x + 1) 0)).unlockUpdate
      v.update (s.toplevel x) = some ((erased s head lo x).holding [x]) := unlock_noted h.toLevels htx hu fun p hp => by
    have hpx : p ≠ x := fun he => by
      have hnd := h.nodup
      rw [← List.cons_append] at hnd
      exact List.disjoint_of_nodup_append hnd hp (he ▸ List.mem_cons_self)
    simpa [Mem.holding, erased, unlinked, hpx] using hfree p hp
  rw [← hldef, ← holding_cons] at hunlock
  refine again_of (Nat.zero_lt_of_lt hf) ?_
  simp only [deletePass, htop, hs, Option.bind_eq_bind, Option.bind_some, Bool.false_eq_true, if_false, hcur,
    hres, ne_eq, not_true_eq_false]
  rw [if_neg (Bool.eq_false_iff.mp (by exact hstale)), lock_holding hfreex hxl, Option.bind_some,
    show (s.holding (x :: l)).toplevel x = s.toplevel x from rfl, hunlink]
  change (((erased s head lo x).holding (x :: l)).unlockUpdate v.update (s.toplevel x)).bind _ = _
  rw [hunlock, Option.bind_some, unlock_single (show (erased s head lo x).locked x = false from hfreex)]
  rfl

theorem delete_missing (h : Ok s head (lo ++ hi) m) (hlo : ∀ p ∈ lo, s.key p < key)
    (hhi : ∀ p ∈ hi, key < s.key p) (hf : lo.length < fuel) :
    delete fuel s head key = some (s, .ptr none) := by
  have hfree : ∀ p ∈ head :: lo, s.locked p = false := fun p hp => h.free p (List.mem_append_left _ hp)
  have htop : s.toplevel head + 1 = maxLevels := by rw [h.top_head]; rfl
  obtain ⟨v, hs, hv⟩ := deleteSearch_spec (v := ⟨head, none, none, .eq, fun _ => none⟩) h.toLevels hlo
    (fun p hp => (hhi p hp).le) hf (hits_missing (x := head) hhi) hfree (Nat.le_refl maxLevels)
    ⟨h.pred_top.symm, fun j hj hjm => absurd (hjm.trans_le hj) (lt_irrefl _), rfl, nofun, fun _ => nofun⟩
  rw [noted_of_le (Nat.zero_le _), noted_of_le le_rfl, holding_nil] at hs
  have hunlock : s.unlockUpdate v.update (s.toplevel head) = some s := unlockUpdate_none fun j hj => by
    rw [hv.update j (Nat.zero_le j) (by rw [← htop]; exact Nat.lt_succ_of_le hj), if_neg (Nat.not_lt_zero j)]
  refine again_of (Nat.zero_lt_of_lt hf) ?_
  simp only [deletePass, htop, hs, Option.bind_eq_bind, Option.bind_some, Bool.false_eq_true, if_false]
  cases hcur : v.cur with
  | none => simp only [hunlock, Option.bind_some]
  | some q => simp only [hv.miss le_rfl q hcur, ne_eq, not_false_eq_true, if_true, hunlock, Option.bind_some]

end Fine

end Skip
end Perfbook
