/-
# `skiplist_balance_node`

Both files search for the key and note the node before it on every level; they differ
in what they lock. A node whose level is raised is linked on the levels that it gets
(`Levels.raised`). The loop for balancing down starts at the new level and goes on
while that is above the old one, so it never runs, and the node stays linked on the
levels that it should leave (`balance_exact_iff`).

Key definitions: `balanceDown`, `balanceUp`, `rebalance`, `Fine.balanceNode`, `Global.balanceNode`,
`Balanced`.
Key theorems: `Levels.raised`, `Fine.balances`, `Global.balances`, `balance_exact_iff`.
-/
import Perfbook.Skip.Descend
import Perfbook.Skip.Map

namespace Perfbook
namespace Skip

open Conc

variable {ν K : Type} [DecidableEq ν] [LinearOrder K]

/-- What `skiplist_balance_node` returns: 0 or `-ENOENT`. -/
inductive Bal
  | ok
  | enoent
deriving DecidableEq

/-- The loop for balancing down, from `level` on. -/
def balanceDown (slp : ν) (update : ℕ → Option ν) : ℕ → ℕ → Mem ν K → Option (Mem ν K)
  | 0, _, _ => none
  | fuel + 1, level, s =>
    if level > s.toplevel slp then do
      let p ← update level
      balanceDown slp update fuel (level + 1) (s.setNext p level (s.next slp level))
    else some s

/-- The loop for balancing up, on the levels that are left. -/
def balanceUp (slp : ν) (update : ℕ → Option ν) : List ℕ → Mem ν K → Option (Mem ν K)
  | [], s => some s
  | level :: ls, s => do
    let p ← update level
    let s := s.setNext slp level (s.next p level)
    balanceUp slp update ls (s.setNext p level (some slp))

/-- `skiplist_balance_node`, from the search to the end without the locks. -/
def rebalance (fuel : ℕ) (slp : ν) (update : ℕ → Option ν) (newlevel : ℕ) (s : Mem ν K) : Option (Mem ν K) :=
  if s.toplevel slp = newlevel then some s
  else do
    let s ←
      if s.toplevel slp > newlevel then balanceDown slp update fuel newlevel s
      else balanceUp slp update (List.range' (s.toplevel slp + 1) (newlevel - s.toplevel slp)) s
    return { s with toplevel := Function.update s.toplevel slp newlevel }

namespace Fine

/-- The loop of `skiplist_balance_node_lock`, for the levels below `level`. -/
def balanceSearch (fuel : ℕ) (key : K) (toplevel : ℕ) :
    ℕ → Mem ν K → ν → (ℕ → Option ν) → Option (Mem ν K × ν × (ℕ → Option ν))
  | 0, s, slp, update => some (s, slp, update)
  | level + 1, s, slp, update => do
    let (slp, _, _) ← walk s key level fuel slp .lt
    let update := Function.update update level (some slp)
    if level = toplevel ∨ some slp ≠ update (level + 1) then do
      let s ← s.lock slp
      balanceSearch fuel key toplevel level s slp update
    else balanceSearch fuel key toplevel level s slp update

def balanceNode (fuel : ℕ) (s : Mem ν K) (headSlp : ν) (key : K) (newlevel : ℕ) : Option (Mem ν K × Bal) := do
  let (s, slp, update) ←
    balanceSearch fuel key (s.toplevel headSlp) (s.toplevel headSlp + 1) s headSlp fun _ => none
  match (s.next slp 0).filter fun slp => s.slCmp slp key = .eq with
  | none => do
    let s ← s.unlockUpdate update (s.toplevel headSlp)
    return (s, .enoent)
  | some slp => do
    let s ← rebalance fuel slp update newlevel s
    let s ← s.unlockUpdate update (s.toplevel headSlp)
    return (s, .ok)

end Fine

namespace Global

/-- The loop of `skiplist_balance_node_lock`, for the levels below `level`. -/
def balanceSearch (fuel : ℕ) (key : K) (s : Mem ν K) :
    ℕ → ν → (ℕ → Option ν) → Option (ν × (ℕ → Option ν))
  | 0, slp, update => some (slp, update)
  | level + 1, slp, update => do
    let (slp, _, _) ← walk s key level fuel slp .lt
    balanceSearch fuel key s level slp (Function.update update level (some slp))

def balanceNode (fuel : ℕ) (s : Mem ν K) (headSlp : ν) (key : K) (newlevel : ℕ) : Option (Mem ν K × Bal) := do
  let s ← s.lock headSlp
  let (slp, update) ← balanceSearch fuel key s (s.toplevel headSlp + 1) headSlp fun _ => none
  match (s.next slp 0).filter fun slp => s.slCmp slp key = .eq with
  | none => do
    let s ← s.unlock headSlp
    return (s, .enoent)
  | some slp => do
    let s ← rebalance fuel slp update newlevel s
    let s ← s.unlock headSlp
    return (s, .ok)

end Global

variable {s s' : Mem ν K} {head x p : ν} {ns lo hi : List ν} {m : K → Option ν} {key : K}
  {t n fuel level newlevel : ℕ} {update : ℕ → Option ν} {b : ℕ → ν}

/-! ### The searches -/

section

variable (h : Levels s head (lo ++ hi)) (hlo : ∀ p ∈ lo, s.key p < key) (hhi : ∀ p ∈ hi, key ≤ s.key p)
  (hf : lo.length < fuel)

omit [DecidableEq ν] in
include h hlo hhi hf in
theorem Global.balanceSearch_spec (hn : n ≤ maxLevels) {p : ν} (hp : p = pred s head lo n)
    (hu : ∀ j, n ≤ j → j < maxLevels → update j = some (pred s head lo j)) :
    ∃ update', balanceSearch fuel key s n p update = some (pred s head lo 0, update') ∧
      ∀ j < maxLevels, update' j = some (pred s head lo j) := by
  induction n generalizing p update with
  | zero => exact ⟨update, by rw [balanceSearch, hp], fun j => hu j (Nat.zero_le j)⟩
  | succ n ih =>
    subst hp
    obtain ⟨result', hw, -⟩ := h.walk_spec hlo hhi hn pred_down hf .lt
    simp only [balanceSearch, hw, Option.bind_eq_bind, Option.bind_some]
    refine ih (Nat.le_of_succ_le hn) rfl fun j hj hjm => ?_
    rcases hj.eq_or_lt with rfl | hj
    · rw [Function.update_self]
    · rw [Function.update_of_ne (Nat.ne_of_gt hj), hu j hj hjm]

include h hlo hhi hf in
/-- **The search of `skiplist_balance_node` in `skiplist.c`** locks each node that it notes once. -/
theorem Fine.balanceSearch_spec (hfree : ∀ p ∈ head :: lo, s.locked p = false) (hn : n ≤ maxLevels) {p : ν}
    (hp : p = pred s head lo n) (hu : ∀ j, n ≤ j → j < maxLevels → update j = some (pred s head lo j)) :
    ∃ update', balanceSearch fuel key (maxLevels - 1) n (s.holding (noted (pred s head lo) maxLevels n)) p update =
        some (s.holding (noted (pred s head lo) maxLevels 0), pred s head lo 0, update') ∧
      ∀ j < maxLevels, update' j = some (pred s head lo j) := by
  induction n generalizing p update with
  | zero => exact ⟨update, by rw [balanceSearch, hp], fun j => hu j (Nat.zero_le j)⟩
  | succ n ih =>
    subst hp
    have hlow : n < maxLevels := hn
    obtain ⟨result, hw, -⟩ := (h.holding (noted (pred s head lo) maxLevels (n + 1))).walk_spec hlo hhi hlow
      (pred_down (s := s)) hf .lt
    have hw' : walk (s.holding (noted (pred s head lo) maxLevels (n + 1))) key n fuel (pred s head lo (n + 1)) .lt =
      some (pred s head lo n, (onLevel s n hi).head?, result) := hw
    have hupdate : ∀ j, n ≤ j → j < maxLevels →
        Function.update update n (some (pred s head lo n)) j = some (pred s head lo j) := fun j hj hjm => by
      rcases hj.eq_or_lt with rfl | hj
      · rw [Function.update_self]
      · rw [Function.update_of_ne (Nat.ne_of_gt hj), hu j hj hjm]
    have hcons := noted_cons (b := pred s head lo) hlow
    have hrest := ih hlow.le rfl hupdate
    simp only [balanceSearch, hw', Option.bind_eq_bind, Option.bind_some]
    by_cases hsame : n + 1 < maxLevels ∧ pred s head lo (n + 1) = pred s head lo n
    · -- the node was noted for the level above too
      have hno : ¬ (n = maxLevels - 1 ∨ some (pred s head lo n) ≠
          Function.update update n (some (pred s head lo n)) (n + 1)) := by
        rw [hupdate (n + 1) (Nat.le_succ n) hsame.1, hsame.2]
        have := hsame.1
        unfold maxLevels at *
        simp
        omega
      have hhold : s.holding (noted (pred s head lo) maxLevels (n + 1)) =
          s.holding (noted (pred s head lo) maxLevels n) := holding_congr fun p => by
        rw [hcons, noted_cons hsame.1, hsame.2]
        simp
      rw [if_neg hno, hhold]
      exact hrest
    · have hne : n + 1 < maxLevels → pred s head lo (n + 1) ≠ pred s head lo n := fun hlt he => hsame ⟨hlt, he⟩
      have hyes : n = maxLevels - 1 ∨ some (pred s head lo n) ≠
          Function.update update n (some (pred s head lo n)) (n + 1) := by
        by_cases hlt : n + 1 < maxLevels
        · refine .inr fun he => hne hlt ?_
          rw [hupdate (n + 1) (Nat.le_succ n) hlt] at he
          exact (Option.some.inj he).symm
        · exact .inl (by omega)
      have hlock : (s.holding (noted (pred s head lo) maxLevels (n + 1))).lock (pred s head lo n) =
          some (s.holding (noted (pred s head lo) maxLevels n)) := by
        rw [hcons]
        exact lock_holding (hfree _ pred_mem_cons) (h.pred_notMem (Nat.le_refl _) hne)
      rw [if_pos hyes, hlock, Option.bind_some]
      exact hrest

end

section

variable (h : Ok s head (lo ++ hi) m) (hlo : ∀ p ∈ lo, s.key p < key) (hhi : ∀ p ∈ hi, key ≤ s.key p)
  (hf : lo.length < fuel)
include h hlo hhi hf

theorem Global.balanceSearch_head : ∃ update, balanceSearch fuel key (s.holding [head])
    ((s.holding [head]).toplevel head + 1) head (fun _ => none) = some (pred s head lo 0, update) ∧
      ∀ j < maxLevels, update j = some (pred s head lo j) := by
  rw [show (s.holding [head]).toplevel head + 1 = maxLevels from congrArg (· + 1) h.top_head]
  exact balanceSearch_spec (h.toLevels.holding [head]) hlo hhi hf (Nat.le_refl maxLevels) h.pred_top.symm
    fun j hj hj' => absurd hj' (not_lt.mpr hj)

theorem Fine.balanceSearch_head : ∃ update, balanceSearch fuel key (maxLevels - 1) maxLevels s head (fun _ => none) =
    some (s.holding (noted (pred s head lo) maxLevels 0), pred s head lo 0, update) ∧
      ∀ j < maxLevels, update j = some (pred s head lo j) := by
  have hfree : ∀ p ∈ head :: lo, s.locked p = false := fun p hp => h.free p (List.mem_append_left _ hp)
  have hnone : ∀ j, maxLevels ≤ j → j < maxLevels → (none : Option ν) = some (pred s head lo j) :=
    fun j hj hj' => absurd hj' (not_lt.mpr hj)
  have hs := balanceSearch_spec h.toLevels hlo hhi hf hfree (Nat.le_refl maxLevels) h.pred_top.symm hnone
  rwa [noted_of_le (Nat.le_refl _), holding_nil] at hs

omit hlo hhi hf in
/-- The locks that the search has taken are released. -/
theorem Fine.unlock_balanced {update : ℕ → Option ν} (hl : s'.locked = s.locked)
    (hu : ∀ j < maxLevels, update j = some (pred s head lo j)) :
    (s'.holding (noted (pred s head lo) maxLevels 0)).unlockUpdate update (maxLevels - 1) = some s' := by
  have hfree : ∀ p ∈ head :: lo, s'.locked p = false := fun p hp => hl ▸ h.free p (List.mem_append_left _ hp)
  exact unlockUpdate_holding (t := maxLevels - 1) (fun _ _ _ him hmj hj he => h.pred_between him hmj
    (Nat.lt_of_le_pred (by decide) hj) he) (fun j hj => hu j (Nat.lt_of_le_pred (by decide) hj))
    fun _ _ => hfree _ pred_mem_cons

end

/-! ### A node on more levels -/

/-- The memory after a node was raised to `newlevel`. -/
def raised (s : Mem ν K) (head : ν) (lo : List ν) (x : ν) (newlevel : ℕ) : Mem ν K :=
  { linked s (pred s head lo) x (List.range' (s.toplevel x + 1) (newlevel - s.toplevel x)) with
    toplevel := Function.update s.toplevel x newlevel }

/-- The memory after `sl_toplevel` of a node was lowered, and nothing else changed. -/
def lowered (s : Mem ν K) (x : ν) (newlevel : ℕ) : Mem ν K :=
  { s with toplevel := Function.update s.toplevel x newlevel }

omit [LinearOrder K] in
theorem balanceUp_of_linkLevels {new : ν} {ls : List ℕ} (h : linkLevels new update ls s = some s') :
    balanceUp new update ls s = some s' := by
  induction ls generalizing s with
  | nil => exact h
  | cons level ls ih =>
    simp only [linkLevels, Option.bind_eq_bind, Option.bind_eq_some_iff] at h
    obtain ⟨p, hp, h⟩ := h
    split at h
    · cases h
    · rw [balanceUp, hp]
      exact ih h

omit [LinearOrder K] in
theorem next_raised_of (h1 : s.toplevel x < level) (h2 : level ≤ newlevel) :
    (raised s head lo x newlevel).next p level = if p = x then s.next (pred s head lo level) level
      else if p = pred s head lo level then some x else s.next p level := by
  have hm : level ∈ List.range' (s.toplevel x + 1) (newlevel - s.toplevel x) := by
    rw [List.mem_range'_1]
    omega
  exact if_pos hm

omit [LinearOrder K] in
theorem next_raised_same (h : level ≤ s.toplevel x ∨ newlevel < level) :
    (raised s head lo x newlevel).next p level = s.next p level := by
  have hm : level ∉ List.range' (s.toplevel x + 1) (newlevel - s.toplevel x) := by
    rw [List.mem_range'_1]
    omega
  exact if_neg hm

omit [LinearOrder K] in
theorem onLevel_raised (hx : x ∉ ns) : onLevel (raised s head lo x newlevel) level ns = onLevel s level ns :=
  List.filter_congr fun p hp => by
    have hne : p ≠ x := fun he => hx (he ▸ hp)
    simp [raised, hne]

section

variable (h : Levels s head (lo ++ x :: hi)) (hle : s.toplevel x ≤ newlevel) (hnl : newlevel < maxLevels)
include h

omit [DecidableEq ν] in
theorem Levels.notMem_parts : x ∉ lo ∧ x ∉ hi ∧ x ≠ head := by
  have hnd := h.nodup
  rw [← List.cons_append] at hnd
  have hx := (List.nodup_middle.mp hnd).notMem
  simp only [List.cons_append, List.mem_cons, List.mem_append, not_or] at hx
  exact ⟨hx.2.1, hx.2.2, hx.1⟩

include hle hnl

/-- **A node on more levels** leaves the skiplist as it was otherwise. -/
theorem Levels.raised : Levels (raised s head lo x newlevel) head (lo ++ x :: hi) := by
  obtain ⟨hlo, hhi, hhead⟩ := h.notMem_parts
  have htop : ∀ p, p ≠ x → (Skip.raised s head lo x newlevel).toplevel p = s.toplevel p :=
    fun p hp => Function.update_of_ne hp ..
  have htopx : (Skip.raised s head lo x newlevel).toplevel x = newlevel := Function.update_self ..
  have hparts : ∀ level, onLevel (Skip.raised s head lo x newlevel) level (lo ++ x :: hi) =
      onLevel s level lo ++ (if level ≤ newlevel then [x] else []) ++ onLevel s level hi := fun level => by
    rw [← List.singleton_append, onLevel_append, onLevel_append, onLevel_raised hlo, onLevel_raised hhi,
      List.append_assoc]
    congr 2
    by_cases hc : level ≤ newlevel
    · simp [onLevel, htopx, hc]
    · simp [onLevel, htopx, hc]
  have hold : ∀ level, onLevel s level (lo ++ x :: hi) =
      onLevel s level lo ++ (if level ≤ s.toplevel x then [x] else []) ++ onLevel s level hi := fun level => by
    rw [← List.singleton_append, onLevel_append, onLevel_append, List.append_assoc]
    congr 2
    by_cases hc : level ≤ s.toplevel x
    · simp [onLevel, hc]
    · simp [onLevel, hc]
  refine ⟨(htop head hhead.symm).trans h.top_head, fun p hp => ?_, h.sorted, h.head_notMem, fun level hl => ?_,
    fun p hp level hl htl => ?_, h.live, h.owner⟩
  · by_cases hpx : p = x
    · rw [hpx, htopx]
      exact hnl
    · rw [htop p hpx]
      exact h.top_lt p hp
  · have hlink := h.linked level hl
    rw [hparts]
    rw [hold] at hlink
    by_cases hin : s.toplevel x < level ∧ level ≤ newlevel
    · rw [if_neg (not_le.mpr hin.1), List.append_nil] at hlink
      have hnd : (head :: onLevel s level (lo ++ x :: hi)).Nodup := h.nodup_onLevel
      rw [hold, if_neg (not_le.mpr hin.1), List.append_nil] at hnd
      rw [if_pos hin.2, List.append_assoc, List.singleton_append]
      have hne : ∀ q ∈ head :: (onLevel s level lo ++ onLevel s level hi), q ≠ x := fun q hq he => by
        rw [he] at hq
        rcases List.mem_cons.mp hq with he | hq
        · exact hhead he
        · rcases List.mem_append.mp hq with hq | hq
          · exact hlo (mem_onLevel.mp hq).1
          · exact hhi (mem_onLevel.mp hq).1
      refine hlink.insert ((next_raised_of hin.1 hin.2).trans (if_pos rfl)) ?_ (fun q hq hb => ?_) hnd
      · exact (next_raised_of hin.1 hin.2).trans ((if_neg h.pred_ne.symm).trans (if_pos rfl))
      · exact (next_raised_of hin.1 hin.2).trans ((if_neg (hne q hq)).trans (if_neg hb))
    · have hout : level ≤ s.toplevel x ∨ newlevel < level := by omega
      have hsame : (if level ≤ newlevel then [x] else []) = if level ≤ s.toplevel x then [x] else [] :=
        if_congr (by omega) rfl rfl
      rw [hsame]
      exact hlink.congr fun q _ => next_raised_same hout
  · by_cases hpx : p = x
    · subst hpx
      rw [htopx] at htl
      rw [next_raised_same (.inr htl)]
      exact h.above p hp level hl (by omega)
    · rw [htop p hpx] at htl
      by_cases hin : s.toplevel x < level ∧ level ≤ newlevel
      · have hpred : p ≠ pred s head lo level := fun he => by
          rcases pred_mem s head lo level with hh | ⟨-, hlev⟩
          · exact h.head_notMem (hh ▸ he ▸ hp)
          · rw [← he] at hlev
            omega
        rw [next_raised_of hin.1 hin.2, if_neg hpx, if_neg hpred]
        exact h.above p hp level hl htl
      · rw [next_raised_same (by omega)]
        exact h.above p hp level hl htl

/-- Balancing up raises the node. -/
theorem rebalance_up (hu : ∀ j < maxLevels, update j = some (pred s head lo j)) (l : List ν) :
    rebalance fuel x update newlevel (s.holding l) = some ((Skip.raised s head lo x newlevel).holding l) := by
  rw [rebalance]
  by_cases he : s.toplevel x = newlevel
  · have hsame : Skip.raised s head lo x newlevel = s := by
      have hnil : List.range' (s.toplevel x + 1) (newlevel - s.toplevel x) = [] := by simp [he]
      have hself : Function.update s.toplevel x newlevel = s.toplevel := by rw [← he, Function.update_eq_self]
      simp [Skip.raised, hnil, hself, linked]
    rw [if_pos (show (s.holding l).toplevel x = newlevel from he), hsame]
  · have hlev : ∀ j ∈ List.range' (s.toplevel x + 1) (newlevel - s.toplevel x), j < maxLevels := fun j hj => by
      have := List.mem_range'_1.mp hj
      omega
    have hup : balanceUp x update (List.range' (s.toplevel x + 1) (newlevel - s.toplevel x)) (s.holding l) =
        some (linked (s.holding l) (pred s head lo) x
          (List.range' (s.toplevel x + 1) (newlevel - s.toplevel x))) := by
      refine balanceUp_of_linkLevels (linkLevels_eq List.nodup_range' (fun j hj => hu j (hlev j hj)) (fun j hj => ?_)
        fun j _ => h.pred_ne.symm)
      rcases pred_mem s head lo j with hh | ⟨-, htop⟩
      · rw [hh, show (s.holding l).toplevel head = maxLevels - 1 from h.top_head]
        have := hlev j hj
        omega
      · exact htop
    rw [if_neg (show (s.holding l).toplevel x ≠ newlevel from he),
      if_neg (show ¬ (s.holding l).toplevel x > newlevel from by
        change ¬ s.toplevel x > newlevel
        omega),
      show (s.holding l).toplevel x = s.toplevel x from rfl, hup]
    rfl

end

omit [LinearOrder K] in
/-- **Balancing down changes no link**: its loop does not run. -/
theorem rebalance_down (hlt : newlevel < s.toplevel x) (hf : 0 < fuel) (l : List ν) :
    rebalance fuel x update newlevel (s.holding l) = some ((lowered s x newlevel).holding l) := by
  obtain ⟨fuel, rfl⟩ := Nat.exists_eq_succ_of_ne_zero hf.ne'
  have htop : (s.holding l).toplevel x = s.toplevel x := rfl
  have hno : ¬ newlevel > s.toplevel x := by omega
  rw [rebalance, htop, if_neg (by omega), if_pos (by omega), balanceDown, htop, if_neg hno]
  rfl

/-! ### The calls -/

/-- What `rebalance` does to a skiplist whose locks it does not touch. -/
def Rebalances (fuel : ℕ) (s : Mem ν K) (head : ν) (lo : List ν) (x : ν) (newlevel : ℕ) (s' : Mem ν K) : Prop :=
  ∀ update, (∀ j < maxLevels, update j = some (pred s head lo j)) → ∀ l,
    rebalance fuel x update newlevel (s.holding l) = some (s'.holding l)

/-- What both functions do; `balanceNode` is one of them. -/
structure Balances (balanceNode : ℕ → Mem ν K → ν → K → ℕ → Option (Mem ν K × Bal)) : Prop where
  found : ∀ {s s' : Mem ν K} {head lo x hi m key newlevel fuel}, Ok s head (lo ++ x :: hi) m →
    (∀ p ∈ lo, s.key p < key) → s.key x = key → (∀ p ∈ hi, key < s.key p) → lo.length < fuel →
    s'.locked = s.locked → s'.toplevel head = s.toplevel head → Rebalances fuel s head lo x newlevel s' →
    balanceNode fuel s head key newlevel = some (s', .ok)
  missing : ∀ {s : Mem ν K} {head lo hi m key newlevel fuel}, Ok s head (lo ++ hi) m →
    (∀ p ∈ lo, s.key p < key) → (∀ p ∈ hi, key < s.key p) → lo.length < fuel →
    balanceNode fuel s head key newlevel = some (s, .enoent)

/-- The node that the search stops before. -/
theorem filter_next (h : Levels s head (lo ++ hi)) (l : List ν) :
    ((s.holding l).next (pred s head lo 0) 0).filter (fun slp => (s.holding l).slCmp slp key = .eq) =
      hi.head?.filter fun slp => s.slCmp slp key = .eq := by
  have hnext := h.next_pred (by decide : 0 < maxLevels)
  rw [onLevel_zero] at hnext
  rw [show (s.holding l).next (pred s head lo 0) 0 = hi.head? from hnext]
  rfl

omit [DecidableEq ν] in
theorem filter_missing (hhi : ∀ p ∈ hi, key < s.key p) : (hi.head?.filter fun slp => s.slCmp slp key = .eq) = none := by
  rw [Option.filter_eq_none_iff]
  intro q hq
  rw [decide_eq_true_iff]
  exact fun he => (hhi q (List.mem_of_mem_head? hq)).ne' (compare_eq_iff_eq.mp he)

omit [DecidableEq ν] in
theorem filter_found (hx : s.key x = key) :
    ((x :: hi).head?.filter fun slp => s.slCmp slp key = .eq) = some x := by
  have : s.slCmp x key = .eq := compare_eq_iff_eq.mpr hx
  simp [Option.filter, this]

theorem Global.balances : Balances (Global.balanceNode : ℕ → Mem ν K → ν → K → ℕ → Option (Mem ν K × Bal)) where
  found {s s' head lo x hi m key newlevel fuel} h hlo hx hhi hf hl _ hr := by
    have hhead : s.locked head = false := h.free head List.mem_cons_self
    have hle : ∀ p ∈ x :: hi, key ≤ s.key p := List.forall_mem_cons.mpr ⟨hx.ge, fun p hp => (hhi p hp).le⟩
    obtain ⟨update, hs, hu⟩ := balanceSearch_head h hlo hle hf
    simp only [balanceNode, lock_free hhead, Option.bind_eq_bind, Option.bind_some, hs, filter_next h.toLevels,
      filter_found hx, hr update hu [head], unlock_single (s := s') (hl ▸ hhead), Option.pure_def]
  missing {s head lo hi m key newlevel fuel} h hlo hhi hf := by
    have hhead : s.locked head = false := h.free head List.mem_cons_self
    obtain ⟨update, hs, hu⟩ := balanceSearch_head h hlo (fun p hp => (hhi p hp).le) hf
    simp only [balanceNode, lock_free hhead, Option.bind_eq_bind, Option.bind_some, hs, filter_next h.toLevels,
      filter_missing hhi, unlock_single hhead, Option.pure_def]

theorem Fine.balances : Balances (Fine.balanceNode : ℕ → Mem ν K → ν → K → ℕ → Option (Mem ν K × Bal)) where
  found {s s' head lo x hi m key newlevel fuel} h hlo hx hhi hf hl ht hr := by
    have hle : ∀ p ∈ x :: hi, key ≤ s.key p := List.forall_mem_cons.mpr ⟨hx.ge, fun p hp => (hhi p hp).le⟩
    obtain ⟨update, hs, hu⟩ := balanceSearch_head h hlo hle hf
    have htop : s.toplevel head = maxLevels - 1 := h.top_head
    simp only [balanceNode, htop, show maxLevels - 1 + 1 = maxLevels from rfl, hs, Option.bind_eq_bind,
      Option.bind_some, filter_next h.toLevels, filter_found hx, hr update hu,
      show (s'.holding (noted (pred s head lo) maxLevels 0)).toplevel head = maxLevels - 1 from ht.trans htop,
      unlock_balanced h hl hu, Option.pure_def]
  missing {s head lo hi m key newlevel fuel} h hlo hhi hf := by
    obtain ⟨update, hs, hu⟩ := balanceSearch_head h hlo (fun p hp => (hhi p hp).le) hf
    have htop : s.toplevel head = maxLevels - 1 := h.top_head
    simp only [balanceNode, htop, show maxLevels - 1 + 1 = maxLevels from rfl, hs, Option.bind_eq_bind,
      Option.bind_some, filter_next h.toLevels, filter_missing hhi,
      show (s.holding (noted (pred s head lo) maxLevels 0)).toplevel head = maxLevels - 1 from htop,
      unlock_balanced h rfl hu, Option.pure_def]

/-! ### What the calls should leave -/

/-- The skiplist has the same keys in the same order, the node `x` is on the levels up to `newlevel` and on no
other, and a deletion of its key leaves no link to it. -/
structure Balanced (fuel : ℕ) (delete : ℕ → Mem ν K → ν → K → Option (Mem ν K × Ret ν)) (s s' : Mem ν K)
    (head : ν) (ns : List ν) (x : ν) (newlevel : ℕ) : Prop where
  fsck : fsck fuel s' head = some ()
  order : Linked (s'.next · 0) head ns
  keys : ∀ p ∈ ns, s'.key p = s.key p
  top : s'.toplevel x = newlevel
  links : ∀ level < maxLevels, (∃ p ∈ head :: ns, s'.next p level = some x) ↔ level ≤ newlevel
  above : ∀ level < maxLevels, newlevel < level → s'.next x level = none
  gone : ∃ s'', delete fuel s' head (s.key x) = some (s'', .ptr (some x)) ∧
    ∀ p ∈ head :: ns, ∀ level < maxLevels, s''.next p level ≠ some x

/-- What is said of a call for `key` and `newlevel`. -/
def Keeps (fuel : ℕ) (balanceNode : ℕ → Mem ν K → ν → K → ℕ → Option (Mem ν K × Bal))
    (delete : ℕ → Mem ν K → ν → K → Option (Mem ν K × Ret ν)) (s : Mem ν K) (head : ν) (ns : List ν)
    (m : K → Option ν) (key : K) (newlevel : ℕ) : Prop :=
  ∃ s' r, balanceNode fuel s head key newlevel = some (s', r) ∧
    match m key with
    | none => r = .enoent ∧ s' = s
    | some x => r = .ok ∧ Balanced fuel delete s s' head ns x newlevel

omit [DecidableEq ν] in
/-- A link of the skiplist leads to one of its nodes. -/
theorem Levels.next_mem (h : Levels s head ns) (hp : p ∈ head :: ns) (hl : level < maxLevels)
    (hx : s.next p level = some x) : x ∈ ns ∧ level ≤ s.toplevel x := by
  by_cases ht : p = head ∨ level ≤ s.toplevel p
  · have hon : p ∈ head :: onLevel s level ns := by
      rcases List.mem_cons.mp hp with rfl | hp
      · exact List.mem_cons_self
      · rcases ht with rfl | ht
        · exact List.mem_cons_self
        · exact List.mem_cons_of_mem _ (mem_onLevel.mpr ⟨hp, ht⟩)
    exact mem_onLevel.mp ((h.linked level hl).next_mem hon hx)
  · obtain ⟨hph, ht⟩ := not_or.mp ht
    have := h.above p ((List.mem_cons.mp hp).resolve_left hph) level hl (not_le.mp ht)
    rw [this] at hx
    cases hx

theorem Ok.raised (h : Ok s head (lo ++ x :: hi) m) (hle : s.toplevel x ≤ newlevel) (hnl : newlevel < maxLevels) :
    Ok (raised s head lo x newlevel) head (lo ++ x :: hi) m :=
  ⟨h.toLevels.raised hle hnl, h.holds, h.free, h.even⟩

/-- A node that was raised is as it should be. -/
theorem Ok.balanced {file : File ν K} {tick : Mem ν K → Mem ν K} (d : Does file tick)
    (htick : ∀ s, (tick s).next = s.next) (h : Ok s head (lo ++ x :: hi) m) (hlo : ∀ p ∈ lo, s.key p < s.key x)
    (hhi : ∀ p ∈ hi, s.key x < s.key p) (hle : s.toplevel x ≤ newlevel) (hnl : newlevel < maxLevels)
    (hf : (lo ++ x :: hi).length < fuel) :
    Balanced fuel file.delete s (Skip.raised s head lo x newlevel) head (lo ++ x :: hi) x newlevel := by
  have hr := h.raised hle hnl
  have htop : (Skip.raised s head lo x newlevel).toplevel x = newlevel := Function.update_self ..
  have hzero := hr.linked 0 (by decide)
  rw [onLevel_zero] at hzero
  refine ⟨hr.fsck hf, hzero, fun _ _ => rfl, htop, fun level hl => ⟨fun ⟨p, hp, hx⟩ => ?_, fun hlev => ?_⟩,
    fun level hl hlt => hr.above x (by simp) level hl (by rw [htop]; exact hlt), ?_⟩
  · have := (hr.next_mem hp hl hx).2
    rwa [htop] at this
  · refine ⟨pred (Skip.raised s head lo x newlevel) head lo level, ?_, ?_⟩
    · exact List.mem_append_left (x :: hi) (a := pred _ head lo level) pred_mem_cons
    · rw [hr.next_pred hl]
      simp [onLevel, htop, hlev]
  · have hlen : lo.length < fuel := by
      rw [List.length_append] at hf
      omega
    refine ⟨_, d.delete_found hr hlo rfl hhi hlen, fun p hp level hl hx => ?_⟩
    rw [htick] at hx
    have he := hr.erased.toLevels
    have hxe : x ∉ lo ++ hi := by
      obtain ⟨h1, h2, -⟩ := h.notMem_parts
      simp [h1, h2]
    by_cases hpx : p = x
    · subst hpx
      have hold : (Skip.raised s head lo p newlevel).next p level = some p := by
        have : (Skip.erased (Skip.raised s head lo p newlevel) head lo p).next p level =
            (Skip.raised s head lo p newlevel).next p level := by
          by_cases hc : level < (Skip.raised s head lo p newlevel).toplevel p + 1 ∧
              p = pred (Skip.raised s head lo p newlevel) head lo level
          · exact if_pos hc
          · exact if_neg hc
        exact this ▸ hx
      -- a link of the node leads on
      have hlev := (hr.next_mem (by simp) hl hold).2
      have hlink := hr.linked level hl
      have hnd : (head :: onLevel (Skip.raised s head lo p newlevel) level (lo ++ p :: hi)).Nodup := hr.nodup_onLevel
      have hon : p ∈ head :: onLevel (Skip.raised s head lo p newlevel) level (lo ++ p :: hi) :=
        List.mem_cons_of_mem _ (mem_onLevel.mpr ⟨by simp, hlev⟩)
      classical
      have := hlink.idxOf_next hnd hon hold
      omega
    · refine hxe (he.next_mem (p := p) ?_ hl hx).1
      simpa [hpx] using hp

/-- A node that was to be lowered stays linked on its old levels. -/
theorem Ok.not_balanced {delete : ℕ → Mem ν K → ν → K → Option (Mem ν K × Ret ν)} (h : Ok s head (lo ++ x :: hi) m)
    (hlt : newlevel < s.toplevel x) :
    ¬ Balanced fuel delete s (lowered s x newlevel) head (lo ++ x :: hi) x newlevel := fun hb => by
  have ht : s.toplevel x < maxLevels := h.top_lt x (by simp)
  have hlinked : ∃ p ∈ head :: (lo ++ x :: hi), (lowered s x newlevel).next p (s.toplevel x) = some x := by
    refine ⟨pred s head lo (s.toplevel x), ?_, ?_⟩
    · exact List.mem_append_left (x :: hi) (a := pred s head lo _) pred_mem_cons
    · refine (h.next_pred ht).trans ?_
      simp [onLevel]
  have := (hb.links _ ht).mp hlinked
  omega

/-- One of the two files. -/
theorem Balances.keeps_iff {balanceNode : ℕ → Mem ν K → ν → K → ℕ → Option (Mem ν K × Bal)} (hb : Balances balanceNode)
    {file : File ν K} {tick : Mem ν K → Mem ν K} (d : Does file tick) (htick : ∀ s, (tick s).next = s.next)
    (h : Ok s head ns m) (hnl : newlevel < maxLevels) (hf : ns.length < fuel) :
    Keeps fuel balanceNode file.delete s head ns m key newlevel ↔ ∀ x, m key = some x → s.toplevel x ≤ newlevel := by
  obtain ⟨lo, hi, rfl, hlo, ⟨hmk, hhi⟩ | ⟨x, hi, rfl, hmk, hx, hhi⟩⟩ := h.split key
  · have hlen : lo.length < fuel := by
      rw [List.length_append] at hf
      omega
    refine iff_of_true ⟨s, .enoent, hb.missing h hlo hhi hlen, ?_⟩ fun x hx => ?_
    · rw [hmk]
      exact ⟨rfl, rfl⟩
    · rw [hmk] at hx
      cases hx
  · have hlen : lo.length < fuel := by
      rw [List.length_append] at hf
      omega
    have hcond : (∀ y, m key = some y → s.toplevel y ≤ newlevel) ↔ s.toplevel x ≤ newlevel := by
      rw [hmk]
      exact ⟨fun hall => hall x rfl, fun hle y hy => Option.some.inj hy ▸ hle⟩
    rw [hcond]
    by_cases hle : s.toplevel x ≤ newlevel
    · have htop : (raised s head lo x newlevel).toplevel head = s.toplevel head :=
        Function.update_of_ne h.notMem_parts.2.2.symm ..
      have hcall : balanceNode fuel s head key newlevel = some (raised s head lo x newlevel, .ok) :=
        hb.found h hlo hx hhi hlen rfl htop fun update hu l => rebalance_up h.toLevels hle hnl hu l
      refine iff_of_true ⟨_, .ok, hcall, ?_⟩ hle
      rw [hmk]
      exact ⟨rfl, h.balanced d htick (by rwa [hx]) (by rwa [hx]) hle hnl hf⟩
    · have hlt := not_le.mp hle
      have htop : (lowered s x newlevel).toplevel head = s.toplevel head :=
        Function.update_of_ne h.notMem_parts.2.2.symm ..
      have hcall : balanceNode fuel s head key newlevel = some (lowered s x newlevel, .ok) :=
        hb.found h hlo hx hhi hlen rfl htop fun update _ l => rebalance_down hlt (by omega) l
      refine iff_of_false (fun ⟨s', r, hs, hk⟩ => ?_) hle
      obtain ⟨rfl, rfl⟩ := Prod.mk.inj (Option.some.inj (hcall.symm.trans hs))
      rw [hmk] at hk
      exact h.not_balanced hlt hk.2

/-- **When `skiplist_balance_node` keeps the skiplist well formed**: the key is not in it, or the new level is not
below that of the node, in both files. -/
theorem balance_exact_iff (h : Ok s head ns m) (key : K) (hnl : newlevel < maxLevels) (hf : ns.length < fuel) :
    (Keeps fuel Fine.balanceNode Fine.delete s head ns m key newlevel ↔
      ∀ x, m key = some x → s.toplevel x ≤ newlevel) ∧
    (Keeps fuel Global.balanceNode Global.delete s head ns m key newlevel ↔
      ∀ x, m key = some x → s.toplevel x ≤ newlevel) :=
  ⟨Fine.balances.keeps_iff does_fine (fun _ => rfl) h hnl hf,
    Global.balances.keeps_iff does_glock (fun _ => rfl) h hnl hf⟩

theorem single_ok {t : ℕ} (ht : t < maxLevels) :
    Ok (single t) 0 [1] (Function.update (fun _ => none) 0 (some 1)) where
  toLevels := single_levels ht
  holds k p := by
    by_cases hk : k = 0
    · subst hk
      rw [Function.update_self, Option.some.injEq, List.mem_singleton]
      exact ⟨fun he => ⟨he.symm, rfl⟩, fun he => he.1.symm⟩
    · rw [Function.update_of_ne hk]
      exact ⟨nofun, fun he => absurd he.2.symm hk⟩
  free _ _ := rfl
  even := rfl

/-- A node is lowered from level 2 to level 0: `skiplist_fsck` finds it on level 1. -/
theorem balance_lowers :
    ((Global.balanceNode 3 (single 2) 0 0 0).bind fun r => fsck 3 r.1 0) = none ∧
    ((Fine.balanceNode 3 (single 2) 0 0 0).bind fun r => fsck 3 r.1 0) = none ∧
    ¬ ∀ (s : Mem ℕ ℕ) (head : ℕ) (ns : List ℕ) (m : ℕ → Option ℕ) (key newlevel fuel : ℕ), Ok s head ns m →
      newlevel < maxLevels → ns.length < fuel →
      Keeps fuel Fine.balanceNode Fine.delete s head ns m key newlevel ∧
        Keeps fuel Global.balanceNode Global.delete s head ns m key newlevel := by
  refine ⟨by decide, by decide, fun h => ?_⟩
  have hk := (h (single 2) 0 [1] _ 0 0 3 (single_ok (by decide)) (by decide) (by decide)).2
  have hle := (Global.balances.keeps_iff does_glock (fun _ => rfl) (single_ok (t := 2) (by decide)) (by decide)
    (by decide)).mp hk 1 rfl
  exact absurd hle (by decide)

theorem balance_exact_three :
    (Keeps 3 Fine.balanceNode Fine.delete (single 2) 0 [1] (Function.update (fun _ => none) 0 (some 1)) 0 3 ↔
      ∀ x, Function.update (fun _ => none) 0 (some 1) 0 = some x → (single 2).toplevel x ≤ 3) ∧
    (Keeps 3 Global.balanceNode Global.delete (single 2) 0 [1] (Function.update (fun _ => none) 0 (some 1)) 0 3 ↔
      ∀ x, Function.update (fun _ => none) 0 (some 1) 0 = some x → (single 2).toplevel x ≤ 3) :=
  balance_exact_iff (single_ok (by decide)) 0 (by decide) (by decide)

end Skip
end Perfbook
