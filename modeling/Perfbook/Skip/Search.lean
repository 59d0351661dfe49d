/-
# What the four searches note

In the search of `skiplist_delete` a level is noted where the node with the key
is on it (the `c` levels from 0 on), and in that of `skiplist_insert` up to the
level of the new node. In `skiplist.c` the nodes that are noted are locked, each
one once, and the looks at what has changed find nothing, so no search goes to
`retry`.

Key definitions: `Noted`.
Key theorems: `Fine.deleteSearch_spec`, `Fine.insertSearch_spec`, `Global.deleteSearch_spec`,
`Global.insertSearch_spec`.
-/
import Perfbook.Skip.Locks

namespace Perfbook
namespace Skip

variable {ν K : Type} [DecidableEq ν] [LinearOrder K] {s : Mem ν K} {head x : ν} {lo hi : List ν}
  {key : K} {c t n fuel : ℕ} {update : ℕ → Option ν}

/-- The node `x` with the key is on the levels below `c`. -/
structure Hits (s : Mem ν K) (hi : List ν) (key : K) (x : ν) (c : ℕ) : Prop where
  le : c ≤ maxLevels
  hit : ∀ level < c, (onLevel s level hi).head? = some x ∧ s.slCmp x key = .eq
  miss : ∀ level, c ≤ level → level < maxLevels → ∀ q ∈ (onLevel s level hi).head?, s.slCmp q key ≠ .eq

/-- What `skiplist_delete` knows when the levels from `n` on are done. -/
structure Noted (s : Mem ν K) (head : ν) (lo : List ν) (x : ν) (c n : ℕ) (v : Fine.Locals ν) : Prop where
  prev : v.prev = pred s head lo n
  update : ∀ j, n ≤ j → j < maxLevels → v.update j = if j < c then some (pred s head lo j) else none
  last : v.last = if n < c then some (pred s head lo n) else none
  hit : n < c → v.cur = some x ∧ v.result = .eq
  miss : c ≤ n → ∀ q ∈ v.cur, v.result ≠ .eq

/-! ### One level of `skiplist_delete` in `skiplist.c` -/

namespace Fine

variable {v : Locals ν} {p q : ν} {s' : Mem ν K} {result : Ordering}

theorem deleteSearch_none (hw : walk s key n fuel v.prev v.result = some (p, none, result)) :
    deleteSearch fuel key (n + 1) s v = deleteSearch fuel key n s
      ⟨p, v.last, none, result, Function.update v.update n none⟩ := by
  rw [deleteSearch, hw]
  rfl

theorem deleteSearch_ne (hw : walk s key n fuel v.prev v.result = some (p, some q, result))
    (hr : result ≠ .eq) : deleteSearch fuel key (n + 1) s v = deleteSearch fuel key n s
      ⟨p, v.last, some q, result, Function.update v.update n none⟩ := by
  simp [deleteSearch, hw, hr]

theorem deleteSearch_same (hw : walk s key n fuel v.prev v.result = some (p, some q, .eq))
    (hl : some p = v.last) : deleteSearch fuel key (n + 1) s v = deleteSearch fuel key n s
      ⟨p, v.last, some q, .eq, Function.update v.update n (some p)⟩ := by
  simp [deleteSearch, hw, hl]

theorem deleteSearch_lock (hw : walk s key n fuel v.prev v.result = some (p, some q, .eq))
    (hl : some p ≠ v.last) (hs : s.lock p = some s') (hq : s'.next p n = some q)
    (hup : n < s'.toplevel p → s'.next p n ≠ s'.next p (n + 1)) :
    deleteSearch fuel key (n + 1) s v = deleteSearch fuel key n s'
      ⟨p, some p, some q, .eq, Function.update v.update n (some p)⟩ := by
  have hno : ¬ (some q ≠ s'.next p n ∨ n < s'.toplevel p ∧ s'.next p n = s'.next p (n + 1)) := by
    rintro (hne | ⟨hlt, he⟩)
    · exact hne hq.symm
    · exact hup hlt he
  simp only [deleteSearch, hw, Option.bind_eq_bind, Option.bind_some, ne_eq, not_true_eq_false,
    if_false, hl, not_false_eq_true, if_true, hs]
  exact if_neg hno

/-! ### One level of `skiplist_insert` in `skiplist.c` -/

variable {slp : ν} {o : Option ν}

theorem insertSearch_above (hw : walk s key n fuel slp .lt = some (p, o, result)) (hn : t < n) :
    insertSearch fuel key t (n + 1) s slp update =
      insertSearch fuel key t n s p (Function.update update n none) := by
  simp [insertSearch, hw, hn]

theorem insertSearch_same (hw : walk s key n fuel slp .lt = some (p, o, result)) (hn : n < t)
    (hu : update (n + 1) = some p) : insertSearch fuel key t (n + 1) s slp update =
      insertSearch fuel key t n s p (Function.update update n (some p)) := by
  simp [insertSearch, hw, hu, hn.ne, hn.le]

theorem insertSearch_lock (hw : walk s key n fuel slp .lt = some (p, o, result)) (hn : n ≤ t)
    (hu : n = t ∨ update (n + 1) ≠ some p) (hs : s.lock p = some s') (ho : s'.next p n = o)
    (hup : n < s'.toplevel p → ¬ n < t) : insertSearch fuel key t (n + 1) s slp update =
      insertSearch fuel key t n s' p (Function.update update n (some p)) := by
  have hno : ¬ (o ≠ s'.next p n ∨ n < s'.toplevel p ∧ n < t ∧ s'.next p n = s'.next p (n + 1)) := by
    rintro (hne | ⟨hlt, hlt', -⟩)
    · exact hne ho.symm
    · exact hup hlt hlt'
  have hu' : n = t ∨ some p ≠ update (n + 1) := hu.imp_right Ne.symm
  simp only [insertSearch, hw, Option.bind_eq_bind, Option.bind_some, if_neg (not_lt.mpr hn), gt_iff_lt,
    Function.update_self, Function.update_of_ne (Nat.succ_ne_self n), if_pos hu', hs]
  exact if_neg hno

end Fine

section

variable (h : Levels s head (lo ++ hi)) (hlo : ∀ p ∈ lo, s.key p < key) (hhi : ∀ p ∈ hi, key ≤ s.key p)
  (hf : lo.length < fuel)

include h in
theorem Levels.holding (l : List ν) : Levels (s.holding l) head (lo ++ hi) :=
  ⟨h.top_head, h.top_lt, h.sorted, h.head_notMem, h.linked, h.above, h.live, h.owner⟩

omit [DecidableEq ν] in
include h in
/-- Where the search goes on to another node, that node was not noted before. -/
theorem Levels.pred_notMem (hc : c ≤ maxLevels) (hne : n + 1 < c → pred s head lo (n + 1) ≠ pred s head lo n) :
    pred s head lo n ∉ noted (pred s head lo) c (n + 1) := fun hm => by
  obtain ⟨j, hnj, hj, he⟩ := mem_noted.mp hm
  exact hne (by omega) (h.pred_between (Nat.le_succ n) hnj (hj.trans_le hc) he.symm)

include h hlo hhi hf in
/-- **The search of `skiplist_delete`** locks what it notes, and does not go to `retry`. -/
theorem Fine.deleteSearch_spec (hits : Hits s hi key x c)
    (hfree : ∀ p ∈ head :: lo, s.locked p = false) (hn : n ≤ maxLevels) {v : Fine.Locals ν}
    (hv : Noted s head lo x c n v) :
    ∃ v', deleteSearch fuel key n (s.holding (noted (pred s head lo) c n)) v =
        some (s.holding (noted (pred s head lo) c 0), v', false) ∧ Noted s head lo x c 0 v' := by
  induction n generalizing v with
  | zero => exact ⟨v, rfl, hv⟩
  | succ n ih =>
    have hlow : n < maxLevels := hn
    set b := pred s head lo with hb
    obtain ⟨result, hw, hr⟩ : ∃ result, walk (s.holding (noted b c (n + 1))) key n fuel v.prev v.result =
        some (b n, (onLevel s n hi).head?, result) ∧ ∀ q ∈ (onLevel s n hi).head?, result = s.slCmp q key :=
      hv.prev ▸ (h.holding (noted b c (n + 1))).walk_spec hlo hhi hlow (pred_down (s := s)) hf v.result
    have hnext : s.next (b n) n = (onLevel s n hi).head? := h.next_pred hlow
    have hupdate : ∀ {o}, o = (if n < c then some (b n) else none) → ∀ j, n ≤ j → j < maxLevels →
        Function.update v.update n o j = if j < c then some (b j) else none := fun ho j hj hjm => by
      rcases hj.eq_or_lt with rfl | hj
      · rw [Function.update_self, ho]
      · rw [Function.update_of_ne (Nat.ne_of_gt hj), hv.update j hj hjm]
    by_cases hnc : n < c
    · obtain ⟨hhead, heq⟩ := hits.hit n hnc
      have hres : result = .eq := (hr x hhead).trans heq
      rw [hhead, hres] at hw
      rw [hhead] at hnext
      by_cases hlast : some (b n) = v.last
      · -- the node was noted for the level above too
        have hup : n + 1 < c ∧ b n = b (n + 1) := by
          rw [hv.last] at hlast
          split at hlast
          · exact ⟨‹_›, Option.some.inj hlast⟩
          · cases hlast
        rw [Fine.deleteSearch_same hw hlast]
        have hsame : s.holding (noted b c (n + 1)) = s.holding (noted b c n) := holding_congr fun p => by
          rw [noted_cons hnc, noted_cons hup.1, hup.2]
          simp
        rw [hsame]
        exact ih hlow.le ⟨rfl, hupdate (if_pos hnc).symm, by rw [if_pos hnc, ← hlast], fun _ => ⟨rfl, rfl⟩,
          fun hcn => absurd hnc (not_lt.mpr hcn)⟩
      · have hne : n + 1 < c → b (n + 1) ≠ b n := fun hlt he =>
          hlast (by rw [hv.last, if_pos hlt]; exact congrArg some he.symm)
        have hlock : (s.holding (noted b c (n + 1))).lock (b n) = some (s.holding (noted b c n)) := by
          rw [noted_cons hnc]
          exact lock_holding (hfree _ pred_mem_cons) (h.pred_notMem hits.le hne)
        rw [Fine.deleteSearch_lock hw hlast hlock hnext fun hlt he => ?_]
        · exact ih hlow.le ⟨rfl, hupdate (if_pos hnc).symm, (if_pos hnc).symm, fun _ => ⟨rfl, rfl⟩,
            fun hcn => absurd hnc (not_lt.mpr hcn)⟩
        · -- a node that is on the level above was noted there
          have hpred : b (n + 1) = b n := pred_of_le (Nat.le_succ n) hlt
          have htop : n + 1 < maxLevels := lt_of_le_of_lt hlt h.top_pred_lt
          have hcn : c ≤ n + 1 := not_lt.mp fun hlt => hne hlt hpred
          have habove : s.next (b n) (n + 1) = (onLevel s (n + 1) hi).head? := hpred ▸ h.next_pred htop
          exact hits.miss (n + 1) hcn htop x (habove.symm.trans (he.symm.trans hnext)) heq
    · have hcn := not_lt.mp hnc
      have hsame : noted b c (n + 1) = noted b c n := by
        rw [noted_of_le hcn, noted_of_le (hcn.trans (Nat.le_succ n))]
      have hlast : v.last = if n < c then some (b n) else none := by
        rw [if_neg hnc, hv.last, if_neg (by omega)]
      rw [hsame] at hw ⊢
      cases hhead : (onLevel s n hi).head? with
      | none =>
        rw [hhead] at hw
        rw [Fine.deleteSearch_none hw]
        exact ih hlow.le ⟨rfl, hupdate (if_neg hnc).symm, hlast, fun hlt => absurd hlt hnc, fun _ _ => nofun⟩
      | some q =>
        have hmiss : result ≠ .eq := hr q hhead ▸ hits.miss n hcn hlow q hhead
        rw [hhead] at hw
        rw [Fine.deleteSearch_ne hw hmiss]
        exact ih hlow.le ⟨rfl, hupdate (if_neg hnc).symm, hlast, fun hlt => absurd hlt hnc, fun _ _ _ => hmiss⟩

omit [DecidableEq ν] in
include h hlo hhi hf in
/-- The search of `skiplist_delete` in `skiplist_glock.c`. -/
theorem Global.deleteSearch_spec (hits : Hits s hi key x c) (hn : n ≤ maxLevels) {p : ν}
    (hp : p = pred s head lo n) (result : Ordering)
    (hu : ∀ j, n ≤ j → j < c → update j = some (pred s head lo j)) :
    ∃ update', deleteSearch fuel key s n p result update = some (pred s head lo 0, update') ∧
      ∀ j < c, update' j = some (pred s head lo j) := by
  induction n generalizing p result update with
  | zero => exact ⟨update, by rw [deleteSearch, hp], fun j => hu j (Nat.zero_le j)⟩
  | succ n ih =>
    subst hp
    obtain ⟨result', hw, hr⟩ := h.walk_spec hlo hhi hn pred_down hf result
    simp only [deleteSearch, hw, Option.bind_eq_bind, Option.bind_some]
    refine ih (Nat.le_of_succ_le hn) rfl result' fun j hj hjc => ?_
    rcases hj.eq_or_lt with rfl | hj
    · obtain ⟨hhead, heq⟩ := hits.hit n hjc
      rw [Function.update_self, (hr x hhead).trans heq, if_neg (not_not.mpr rfl)]
    · rw [Function.update_of_ne (Nat.ne_of_gt hj), hu j hj hjc]

omit [DecidableEq ν] in
include h hlo hhi hf in
/-- The search of `skiplist_insert` in `skiplist_glock.c`. -/
theorem Global.insertSearch_spec (hn : n ≤ maxLevels) {p : ν} (hp : p = pred s head lo n)
    (hu : ∀ j, n ≤ j → j ≤ t → update j = some (pred s head lo j)) :
    ∃ update', insertSearch fuel key t s n p update = some (pred s head lo 0, update') ∧
      ∀ j ≤ t, update' j = some (pred s head lo j) := by
  induction n generalizing p update with
  | zero => exact ⟨update, by rw [insertSearch, hp], fun j => hu j (Nat.zero_le j)⟩
  | succ n ih =>
    subst hp
    obtain ⟨result', hw, -⟩ := h.walk_spec hlo hhi hn pred_down hf .lt
    simp only [insertSearch, hw, Option.bind_eq_bind, Option.bind_some]
    refine ih (Nat.le_of_succ_le hn) rfl fun j hj hjt => ?_
    rcases hj.eq_or_lt with rfl | hj
    · rw [Function.update_self, if_neg (not_lt.mpr hjt)]
    · rw [Function.update_of_ne (Nat.ne_of_gt hj), hu j hj hjt]

include h hlo hhi hf in
/-- **The search of `skiplist_insert`** locks what it notes, and does not go to `retry`. -/
theorem Fine.insertSearch_spec (ht : t < maxLevels) (hfree : ∀ p ∈ head :: lo, s.locked p = false)
    (hn : n ≤ maxLevels) {p : ν} (hp : p = pred s head lo n)
    (hu : ∀ j, n ≤ j → j ≤ t → update j = some (pred s head lo j)) :
    ∃ update', insertSearch fuel key t n (s.holding (noted (pred s head lo) (t + 1) n)) p update =
        some (s.holding (noted (pred s head lo) (t + 1) 0), update', false) ∧
      ∀ j ≤ t, update' j = some (pred s head lo j) := by
  induction n generalizing p update with
  | zero => exact ⟨update, rfl, fun j => hu j (Nat.zero_le j)⟩
  | succ n ih =>
    subst hp
    have hlow : n < maxLevels := hn
    set b := pred s head lo with hb
    obtain ⟨result, hw, -⟩ : ∃ result, walk (s.holding (noted b (t + 1) (n + 1))) key n fuel (b (n + 1)) .lt =
        some (b n, (onLevel s n hi).head?, result) ∧ ∀ q ∈ (onLevel s n hi).head?, result = s.slCmp q key :=
      (h.holding (noted b (t + 1) (n + 1))).walk_spec hlo hhi hlow (pred_down (s := s)) hf .lt
    have hnext : s.next (b n) n = (onLevel s n hi).head? := h.next_pred hlow
    have hupdate : ∀ {o}, (n ≤ t → o = some (b n)) → ∀ j, n ≤ j → j ≤ t →
        Function.update update n o j = some (b j) := fun ho j hj hjt => by
      rcases hj.eq_or_lt with rfl | hj
      · rw [Function.update_self, ho hjt]
      · rw [Function.update_of_ne (Nat.ne_of_gt hj), hu j hj hjt]
    by_cases hnt : t < n
    · rw [noted_of_le (by omega)] at hw ⊢
      rw [insertSearch_above hw hnt]
      have hrest := ih hlow.le rfl (hupdate fun hle => absurd hnt (not_lt.mpr hle) : ∀ j, n ≤ j → j ≤ t →
        Function.update update n none j = some (b j))
      rwa [noted_of_le hnt] at hrest
    · have hle := not_lt.mp hnt
      have hcons := noted_cons (b := b) (Nat.lt_succ_of_le hle)
      have hrest := ih hlow.le rfl (hupdate fun _ => rfl : ∀ j, n ≤ j → j ≤ t →
        Function.update update n (some (b n)) j = some (b j))
      by_cases hsame : n < t ∧ b (n + 1) = b n
      · have habove : update (n + 1) = some (b n) := by
          rw [hu (n + 1) le_rfl hsame.1]
          exact congrArg some hsame.2
        have hhold : s.holding (noted b (t + 1) (n + 1)) = s.holding (noted b (t + 1) n) :=
          holding_congr fun p => by
            rw [hcons, noted_cons (by omega : n + 1 < t + 1), hsame.2]
            simp
        rw [insertSearch_same hw hsame.1 habove, hhold]
        exact hrest
      · have hne : n + 1 < t + 1 → b (n + 1) ≠ b n := fun hlt he => hsame ⟨Nat.lt_of_succ_lt_succ hlt, he⟩
        have hlock : (s.holding (noted b (t + 1) (n + 1))).lock (b n) = some (s.holding (noted b (t + 1) n)) := by
          rw [hcons]
          exact lock_holding (hfree _ pred_mem_cons) (h.pred_notMem ht hne)
        have habove : n = t ∨ update (n + 1) ≠ some (b n) := by
          rcases hle.eq_or_lt with he | hlt
          · exact .inl he
          · refine .inr fun he => hne (Nat.succ_lt_succ hlt) ?_
            rw [hu (n + 1) le_rfl hlt] at he
            exact Option.some.inj he
        rw [insertSearch_lock hw hle habove hlock hnext fun hlt hnt => ?_]
        · exact hrest
        · exact hne (Nat.succ_lt_succ hnt) (pred_of_le (Nat.le_succ n) hlt)

end

end Skip
end Perfbook
