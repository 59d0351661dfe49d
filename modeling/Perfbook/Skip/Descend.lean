/-
# Looking up a key in `skiplist_glock.c`

All searches that change nothing go down the levels and pass the nodes before a place
(`descend`), and end at the last node before it, or at the head
(`Levels.descend_spec`). `skiplist_lookup_relaxed` goes on from that node with the
first comparison against the node itself. Where this is the head, the key of the
structure around the head is compared, which is no element. If it is not smaller than
the key that is looked up, the lookup ends there and misses the node
(`lookupRelaxed_exact_iff`).

Key definitions: `walkTo`, `descend`, `lookupHelp`, `lookupRelaxed`, `Exact`.
Key theorems: `Levels.descend_spec`, `lookupRelaxed_of_lt`, `lookupRelaxed_of_ge`, `lookupRelaxed_exact_iff`.
-/
import Perfbook.Skip.Fsck
import Perfbook.Skip.Ok

namespace Perfbook
namespace Skip

open Conc

variable {ν K : Type}

/-! ### The searches -/

/-- The `while` loop on a level: the last node before the first one that `pass` stops at. -/
def walkTo (s : Mem ν K) (pass : ν → Bool) (level : ℕ) : ℕ → ν → Option ν
  | 0, _ => none
  | fuel + 1, slp =>
    match s.next slp level with
    | none => some slp
    | some slpNext => if pass slpNext then walkTo s pass level fuel slpNext else some slp

/-- The `for` loop, for the levels below `level`. -/
def descend (fuel : ℕ) (s : Mem ν K) (pass : ν → Bool) : ℕ → ν → Option ν
  | 0, slp => some slp
  | level + 1, slp => do
    let slp ← walkTo s pass level fuel slp
    descend fuel s pass level slp

namespace Global

variable [LinearOrder K]

def lookupHelp (fuel : ℕ) (s : Mem ν K) (headSlp : ν) (key : K) : Option ν :=
  descend fuel s (fun slp => s.slCmp slp key = .lt) (s.toplevel headSlp + 1) headSlp

/-- The loop of `skiplist_lookup_relaxed`: where it ends, and the last result of a comparison. -/
def relaxedWalk (s : Mem ν K) (key : K) : ℕ → Option ν → Ordering → Option (Option ν × Ordering)
  | 0, _, _ => none
  | _ + 1, none, result => some (none, result)
  | fuel + 1, some slp, _ =>
    if s.slCmp slp key = .lt then relaxedWalk s key fuel (s.next slp 0) .lt
    else some (some slp, s.slCmp slp key)

def lookupRelaxed [DecidableEq ν] (fuel : ℕ) (s : Mem ν K) (headSlp : ν) (key : K) : Option (Option ν) := do
  let slp ← lookupHelp fuel s headSlp key
  let (slp, result) ← relaxedWalk s key fuel (some slp) .lt
  match slp with
  | none => some none
  | some slp => if slp ≠ headSlp ∧ s.deleted slp = false ∧ result = .eq then some (some slp) else some none

/-- The lookup returns the node with the key, or `NULL` if there is none. -/
def Exact [DecidableEq ν] (fuel : ℕ) (s : Mem ν K) (headSlp : ν) (ns : List ν) (key : K) : Prop :=
  ∃ r, lookupRelaxed fuel s headSlp key = some r ∧ ∀ p, r = some p ↔ p ∈ ns ∧ s.key p = key

end Global

variable {s : Mem ν K} {pass : ν → Bool} {head p q x : ν} {lo hi ns : List ν} {key : K} {n level fuel : ℕ}

theorem walkTo_linked {l l' : List ν} (h : Linked (s.next · level) p (l ++ l')) (hl : ∀ q ∈ l, pass q = true)
    (hl' : ∀ q ∈ l', pass q = false) (hf : l.length < fuel) : walkTo s pass level fuel p = some (before p l) := by
  induction l generalizing p fuel with
  | nil =>
    obtain ⟨fuel, rfl⟩ := Nat.exists_eq_succ_of_ne_zero (Nat.ne_of_gt hf)
    cases l' with
    | nil => simp [walkTo, show s.next p level = none from h]
    | cons q l' => simp [walkTo, show s.next p level = some q from h.1, hl' q List.mem_cons_self]
  | cons q l ih =>
    obtain ⟨fuel, rfl⟩ := Nat.exists_eq_succ_of_ne_zero (Nat.ne_zero_of_lt hf)
    rw [walkTo, show s.next p level = some q from h.1, before_cons]
    dsimp only
    rw [if_pos (hl q List.mem_cons_self)]
    exact ih h.2 (fun r hr => hl r (List.mem_cons_of_mem _ hr)) (Nat.lt_of_succ_lt_succ hf)

namespace Levels

variable [LinearOrder K] (h : Levels s head (lo ++ hi)) (hlo : ∀ p ∈ lo, pass p = true)
  (hhi : ∀ p ∈ hi, pass p = false) (hf : lo.length < fuel)

include h hlo hhi hf in
/-- **A search ends before the first node that it does not pass.** -/
theorem descend_from (hn : n ≤ maxLevels) :
    descend fuel s pass n (pred s head lo n) = some (pred s head lo 0) := by
  induction n with
  | zero => rfl
  | succ n ih =>
    have hdown : pred s head lo (n + 1) = head ∨
        pred s head lo (n + 1) ∈ lo ∧ n ≤ s.toplevel (pred s head lo (n + 1)) := pred_down
    obtain ⟨l, l', hl, hb⟩ := onLevel_split hdown
    have hlink := h.linked n hn
    rw [onLevel_append, hl, List.append_assoc] at hlink
    have hmem : ∀ q ∈ l', q ∈ lo := fun q hq => (mem_onLevel.mp (hl ▸ List.mem_append_right l hq)).1
    have hlen : l'.length ≤ lo.length := by
      have hle : (onLevel s n lo).length ≤ lo.length := List.length_filter_le ..
      rw [hl, List.length_append] at hle
      omega
    have hw := walkTo_linked hlink.mid (fun q hq => hlo q (hmem q hq)) (fun q hq => hhi q (mem_onLevel.mp hq).1)
      (hlen.trans_lt hf)
    have hpred : before (pred s head lo (n + 1)) l' = pred s head lo n := by
      rw [← hb, ← before_append, ← hl]
      rfl
    rw [hb, hpred] at hw
    simp only [descend, hw, Option.bind_eq_bind, Option.bind_some]
    exact ih (Nat.le_of_succ_le hn)

include h hlo hhi hf in
theorem descend_spec : descend fuel s pass (s.toplevel head + 1) head = some (pred s head lo 0) := by
  have hd := h.descend_from hlo hhi hf (Nat.le_refl maxLevels)
  rwa [h.pred_top, ← show s.toplevel head + 1 = maxLevels from congrArg (· + 1) h.top_head] at hd

end Levels

/-! ### `skiplist_lookup_relaxed` -/

namespace Global

variable [LinearOrder K] [DecidableEq ν]

section

variable (h : Levels s head (lo ++ hi)) (hlo : ∀ p ∈ lo, s.key p < key) (hhi : ∀ p ∈ hi, key ≤ s.key p)
  (hf : lo.length < fuel)
include h hlo hhi hf

omit [DecidableEq ν] in
/-- **`skiplist_lookup_help`** returns the last node before the key, or the head. -/
theorem lookupHelp_spec : lookupHelp fuel s head key = some (pred s head lo 0) :=
  h.descend_spec (fun p hp => decide_eq_true (compare_lt_iff_lt.mpr (hlo p hp)))
    (fun p hp => decide_eq_false fun hc => absurd (compare_lt_iff_lt.mp hc) (not_lt.mpr (hhi p hp))) hf

/-- Where the node before the place has a smaller key, or the head happens to, the lookup is right. -/
theorem lookupRelaxed_of_lt (hf2 : 1 < fuel) (hb : s.key (pred s head lo 0) < key) :
    lookupRelaxed fuel s head key = some (hi.head?.filter fun q => s.key q = key) := by
  obtain ⟨fuel, rfl⟩ := Nat.exists_eq_add_of_le' hf2
  have hnext : s.next (pred s head lo 0) 0 = hi.head? := by
    rw [h.next_pred (by decide), onLevel_zero]
  have hlt : s.slCmp (pred s head lo 0) key = .lt := compare_lt_iff_lt.mpr hb
  simp only [lookupRelaxed, lookupHelp_spec h hlo hhi hf, Option.bind_eq_bind, Option.bind_some, relaxedWalk,
    if_pos hlt, hnext]
  cases hq : hi.head? with
  | none => rfl
  | some q =>
    have hm : q ∈ hi := List.mem_of_mem_head? hq
    have hne : q ≠ head := fun he => h.head_notMem (he ▸ List.mem_append_right lo hm)
    have hlive : s.deleted q = false := h.live q (List.mem_cons_of_mem _ (List.mem_append_right lo hm))
    have hnlt : s.slCmp q key ≠ .lt := fun hc => absurd (compare_lt_iff_lt.mp hc) (not_lt.mpr (hhi q hm))
    have heq : s.slCmp q key = .eq ↔ s.key q = key := compare_eq_iff_eq
    rw [relaxedWalk, if_neg hnlt]
    by_cases hk : s.key q = key
    · simp [hne, hlive, heq, hk, Option.filter]
    · simp [heq, hk, Option.filter]

/-- Where the search ends at the head and its key is not smaller, the lookup ends there. -/
theorem lookupRelaxed_of_ge (hnil : lo = []) (hge : key ≤ s.key head) :
    lookupRelaxed fuel s head key = some none := by
  subst hnil
  obtain ⟨fuel, rfl⟩ := Nat.exists_eq_succ_of_ne_zero (Nat.ne_of_gt hf)
  have hb : pred s head [] 0 = head := rfl
  have hnlt : s.slCmp head key ≠ .lt := fun hc => absurd (compare_lt_iff_lt.mp hc) (not_lt.mpr hge)
  simp only [lookupRelaxed, lookupHelp_spec h hlo hhi hf, hb, Option.bind_eq_bind, Option.bind_some, relaxedWalk,
    if_neg hnlt]
  simp

end

/-- The lookup is exact just where the key is not in the list, or some node or the head has a smaller one. -/
theorem exact_iff (h : Levels s head ns) (hf : ns.length + 1 < fuel) : Exact fuel s head ns key ↔
    (∀ p ∈ ns, s.key p ≠ key) ∨ (∃ p ∈ ns, s.key p < key) ∨ s.key head < key := by
  obtain ⟨lo, hi, rfl, hlo, hhi⟩ := exists_split h.sorted key
  have hlen : lo.length < fuel := by
    rw [List.length_append] at hf
    omega
  have hright : s.key (pred s head lo 0) < key → Exact fuel s head (lo ++ hi) key := fun hb => by
    refine ⟨_, lookupRelaxed_of_lt h hlo hhi hlen (by omega) hb, fun p => ?_⟩
    rw [Option.filter_eq_some_iff, decide_eq_true_iff]
    refine ⟨fun ⟨hp, hk⟩ => ⟨List.mem_append_right _ (List.mem_of_mem_head? hp), hk⟩, fun ⟨hp, hk⟩ => ⟨?_, hk⟩⟩
    rcases List.mem_append.mp hp with hp | hp
    · exact absurd hk (hlo p hp).ne
    · cases hi with
      | nil => cases hp
      | cons q hi =>
        rcases List.mem_cons.mp hp with rfl | hp'
        · rfl
        · -- the first node behind the place is the least of those there
          have hqp := (List.pairwise_cons.mp (List.pairwise_append.mp h.sorted).2.1).1 p hp'
          exact absurd (hqp.trans_le hk.le) (not_lt.mpr (hhi q List.mem_cons_self))
  rcases List.eq_nil_or_concat lo with rfl | ⟨l, b, rfl⟩
  · by_cases hk : s.key head < key
    · exact iff_of_true (hright hk) (.inr (.inr hk))
    · have hge := not_lt.mp hk
      have hnone := lookupRelaxed_of_ge h hlo hhi hlen rfl hge
      refine ⟨fun ⟨r, hr, hex⟩ => .inl fun p hp he => ?_, fun hc => ?_⟩
      · obtain rfl := Option.some.inj (hnone.symm.trans hr)
        cases (hex p).mpr ⟨hp, he⟩
      · rcases hc with hno | ⟨p, hp, hlt⟩ | hlt
        · exact ⟨none, hnone, fun p => ⟨nofun, fun ⟨hp, he⟩ => absurd he (hno p hp)⟩⟩
        · exact absurd hlt (not_lt.mpr (hhi p hp))
        · exact absurd hlt hk
  · have hb : pred s head (l.concat b) 0 = b := by
      rw [List.concat_eq_append, pred, onLevel_zero, before_append]
      rfl
    have hmem : b ∈ l.concat b := by simp
    exact iff_of_true (hright (hb.symm ▸ hlo b hmem)) (.inr (.inl ⟨b, List.mem_append_left _ hmem, hlo b hmem⟩))

/-- The contents of the structure around the head do not matter for the list. -/
theorem levels_withKey_head (h : Levels s head ns) (k : K) : Levels (withKey s head k) head ns := by
  have hkey : ∀ p ∈ ns, (withKey s head k).key p = s.key p := fun p hp =>
    Function.update_of_ne (fun he : p = head => h.head_notMem (he ▸ hp)) ..
  refine ⟨h.top_head, h.top_lt, ?_, h.head_notMem, h.linked, h.above, h.live, h.owner⟩
  exact h.sorted.imp_of_mem fun hp hq hlt => by rwa [hkey _ hp, hkey _ hq]

/-- **When the lookup is exact.** For a given skiplist: the key is not in it, or a smaller one is, or the head's
key is smaller. For a skiplist with any contents around its head: one of the first two. -/
theorem lookupRelaxed_exact_iff (h : Levels s head ns) (key : K) (hf : ns.length + 1 < fuel) :
    (Exact fuel s head ns key ↔ (∀ p ∈ ns, s.key p ≠ key) ∨ (∃ p ∈ ns, s.key p < key) ∨ s.key head < key) ∧
    ((∀ k, Exact fuel (withKey s head k) head ns key) ↔ (∀ p ∈ ns, s.key p ≠ key) ∨ ∃ p ∈ ns, s.key p < key) := by
  have hkey : ∀ k, ∀ p ∈ ns, (withKey s head k).key p = s.key p := fun k p hp =>
    Function.update_of_ne (fun he : p = head => h.head_notMem (he ▸ hp)) ..
  have hany : ∀ k, Exact fuel (withKey s head k) head ns key ↔
      (∀ p ∈ ns, s.key p ≠ key) ∨ (∃ p ∈ ns, s.key p < key) ∨ k < key := fun k => by
    rw [exact_iff (levels_withKey_head h k) hf, show (withKey s head k).key head = k from Function.update_self ..]
    refine or_congr (forall₂_congr fun p hp => by rw [hkey k p hp]) (or_congr ?_ Iff.rfl)
    exact exists_congr fun p => and_congr_right fun hp => by rw [hkey k p hp]
  refine ⟨exact_iff h hf, fun hall => ?_, fun hc k => ?_⟩
  · rcases (hany key).mp (hall key) with hno | hlt | hlt
    · exact .inl hno
    · exact .inr hlt
    · exact absurd hlt (lt_irrefl key)
  · exact (hany k).mpr (hc.imp_right .inl)

end Global

/-! ### A list whose only key is 0 -/

/-- The node 1, with the key 0 and on the levels up to `t`, in the list of the head 0, whose structure is filled
with zeros. -/
def single (t : ℕ) : Mem ℕ ℕ where
  key _ := 0
  toplevel p := if p = 0 then maxLevels - 1 else t
  deleted _ := false
  head _ := some 0
  next p level := if p = 0 ∧ level ≤ t then some 1 else none
  locked _ := false
  seq := 0
  retries := 0

theorem single_levels {t : ℕ} (ht : t < maxLevels) : Levels (single t) 0 [1] where
  top_head := rfl
  top_lt p hp := by
    rw [List.mem_singleton.mp hp]
    exact ht
  sorted := List.pairwise_singleton _ 1
  head_notMem := by decide
  linked level hl := by
    by_cases hle : level ≤ t
    · rw [show onLevel (single t) level [1] = [1] by simp [onLevel, single, hle]]
      exact ⟨if_pos ⟨rfl, hle⟩, rfl⟩
    · rw [show onLevel (single t) level [1] = [] by simp [onLevel, single, hle]]
      exact if_neg fun hc => hle hc.2
  above p hp level _ _ := by
    rw [List.mem_singleton.mp hp]
    rfl
  live _ _ := rfl
  owner _ _ := rfl

/-- `skiplist_lookup_relaxed` does not find the smallest key of the type, which is in the list. -/
theorem lookupRelaxed_misses : Global.lookupRelaxed 3 (single 0) 0 0 = some none ∧ (single 0).key 1 = 0 ∧
    ¬ ∀ (s : Mem ℕ ℕ) (head : ℕ) (ns : List ℕ) (key fuel : ℕ), Levels s head ns → ns.length + 1 < fuel →
      Global.Exact fuel s head ns key := by
  refine ⟨by decide, rfl, fun h => ?_⟩
  obtain ⟨r, hr, hex⟩ := h (single 0) 0 [1] 0 3 (single_levels (t := 0) (by decide)) (by decide)
  have hnone : Global.lookupRelaxed 3 (single 0) 0 0 = some none := by decide
  obtain rfl := Option.some.inj (hnone.symm.trans hr)
  cases (hex 1).mpr ⟨by decide, rfl⟩

/-- The node 1, with the key 0 on two levels, and behind it the node 2, with the key 4. -/
def pair : Mem ℕ ℕ where
  key p := if p = 2 then 4 else 0
  toplevel p := if p = 0 then maxLevels - 1 else if p = 1 then 1 else 0
  deleted _ := false
  head _ := some 0
  next p level := if p = 0 ∧ level ≤ 1 then some 1 else if p = 1 ∧ level = 0 then some 2 else none
  locked _ := false
  seq := 0
  retries := 0

theorem pair_levels : Levels pair 0 [1, 2] where
  top_head := rfl
  top_lt := by decide
  sorted := by decide
  head_notMem := by decide
  linked level _ := by
    match level with
    | 0 => exact ⟨rfl, rfl, rfl⟩
    | 1 => exact ⟨rfl, rfl⟩
    | level + 2 =>
      rw [show onLevel pair (level + 2) [1, 2] = [] by simp [onLevel, pair]]
      simp [Linked, pair]
  above p hp level _ hlt := by
    rcases List.mem_cons.mp hp with rfl | hp
    · exact if_neg fun hc => by
        have h1 : 1 < level := hlt
        omega
    · rw [List.mem_singleton.mp hp]
      rfl
  live _ _ := rfl
  owner _ _ := rfl

/-- The key 4, which has a smaller one before it, is found whatever the head's structure holds. -/
theorem lookupRelaxed_exact_one :
    (Global.Exact 4 pair 0 [1, 2] 4 ↔ (∀ p ∈ [1, 2], pair.key p ≠ 4) ∨ (∃ p ∈ [1, 2], pair.key p < 4) ∨
      pair.key 0 < 4) ∧
    ((∀ k, Global.Exact 4 (withKey pair 0 k) 0 [1, 2] 4) ↔ (∀ p ∈ [1, 2], pair.key p ≠ 4) ∨
      ∃ p ∈ [1, 2], pair.key p < 4) ∧ Global.lookupRelaxed 4 (withKey pair 0 9) 0 4 = some (some 2) := by
  obtain ⟨hpair, hany⟩ := Global.lookupRelaxed_exact_iff pair_levels 4 (by decide : [1, 2].length + 1 < 4)
  exact ⟨hpair, hany, by decide⟩

end Skip
end Perfbook
