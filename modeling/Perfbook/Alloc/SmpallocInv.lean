/-
# What holds of the pools of `smpalloc.c`

A pool is a stack, from the bottom to the top (`Holds`), and each block is once in
all the stacks and hands together (`Inv.once`). The loops move blocks from the top of
one stack to the top of another (`allocLoop_eq`, `freeLoop_eq`), and stay in bounds,
as there are no more blocks than fit into the global pool.

Key definitions: `Slots`, `Pool.Holds`, `ThreadInv`, `InvAt`.
Key theorems: `allocLoop_eq`, `freeLoop_eq`, `InvAt.place`.
-/
import Mathlib.Algebra.BigOperators.Group.Finset.Basic
import Mathlib.Algebra.Order.BigOperators.Group.Finset
import Mathlib.Data.Fintype.Card
import Mathlib.Data.List.Perm.Basic
import Perfbook.Alloc.Smpalloc

namespace Perfbook
namespace Smpalloc

open scoped List

/-! ### Stacks in arrays -/

/-- The blocks of `l` are in the first slots. -/
def Slots (f : ℤ → Option Block) (l : List Block) : Prop := ∀ (i : ℕ) b, l[i]? = some b → f i = some b

/-- The pool has the blocks of `l`, the last one on top. -/
structure Pool.Holds (p : Pool) (l : List Block) : Prop where
  cur : p.cur = (l.length : ℤ) - 1
  slots : Slots p.pool l

variable {f : ℤ → Option Block} {l lg lp : List Block} {b : Block} {v : Option Block} {i k : ℕ} {g p : Pool}

theorem Slots.above (h : Slots f l) (hi : l.length ≤ i) : Slots (Function.update f i v) l := fun j b hj => by
  have hlt : j < l.length := (List.getElem?_eq_some_iff.mp hj).1
  rw [Function.update_of_ne (by omega)]
  exact h j b hj

theorem Slots.push (h : Slots f l) : Slots (Function.update f l.length (some b)) (l ++ [b]) := fun j c hj => by
  by_cases hlt : j < l.length
  · rw [List.getElem?_append_left hlt] at hj
    rw [Function.update_of_ne (by omega)]
    exact h j c hj
  · have hle : j < (l ++ [b]).length := (List.getElem?_eq_some_iff.mp hj).1
    have hjl : j = l.length := by
      simp only [List.length_append, List.length_singleton] at hle
      omega
    rw [hjl, List.getElem?_concat_length] at hj
    rw [hjl, Function.update_self, ← hj]

theorem Slots.top (h : Slots f (l ++ [b])) : f l.length = some b := h _ b List.getElem?_concat_length

theorem Slots.below (h : Slots f (l ++ [b])) : Slots f l := fun j c hj => by
  have hlt : j < l.length := (List.getElem?_eq_some_iff.mp hj).1
  exact h j c ((List.getElem?_append_left hlt).trans hj)

/-- An access in bounds. -/
theorem load_eq {size : ℕ} (hi : i < size) : p.load size i = some (p.pool i) :=
  if_pos ⟨Int.natCast_nonneg i, Int.ofNat_lt.mpr hi⟩

theorem store_eq {size : ℕ} (hi : i < size) : p.store size i v = some ⟨p.cur, Function.update p.pool i v⟩ :=
  if_pos ⟨Int.natCast_nonneg i, Int.ofNat_lt.mpr hi⟩

/-! ### The loops -/

/-- **The loop of `memblock_alloc`** moves what fits and is there. -/
theorem allocLoop_eq (k : ℕ) : ∀ {g p : Pool} {lg lp : List Block}, g.Holds lg → lg.length ≤ GLOBAL_POOL_SIZE →
    Slots p.pool lp → lp.length + k ≤ 2 * TARGET_POOL_SIZE →
    ∃ g' p' lg' lp', allocLoop k lp.length g p = some (g', p', lp'.length) ∧ g'.Holds lg' ∧ Slots p'.pool lp' ∧
      lp.length ≤ lp'.length ∧ lp'.length ≤ lp.length + k ∧ (lp'.length = lp.length → k = 0 ∨ lg = []) ∧
      lg' ++ lp' ~ lg ++ lp := by
  induction k with
  | zero => exact fun {g p lg lp} hg _ hp _ => ⟨g, p, lg, lp, rfl, hg, hp, le_rfl, le_rfl, fun _ => .inl rfl, .refl _⟩
  | succ k ih =>
    intro g p lg lp hg hlg hp hlp
    rcases List.eq_nil_or_concat' lg with rfl | ⟨lg, b, rfl⟩
    · refine ⟨g, p, [], lp, ?_, hg, hp, le_rfl, Nat.le_add_right _ _, fun _ => .inr rfl, .refl _⟩
      have hcur := hg.cur
      simp only [List.length_nil] at hcur
      rw [allocLoop, if_neg (by omega)]
    · rw [List.length_append, List.length_singleton] at hlg
      have hcur : g.cur = lg.length := by
        rw [hg.cur]
        simp
      have hslots := hg.slots
      -- the block goes to the top of the pool of the thread
      have hg' : Pool.Holds ⟨g.cur - 1, Function.update g.pool g.cur none⟩ lg :=
        ⟨by rw [hcur], by rw [hcur]; exact hslots.below.above le_rfl⟩
      obtain ⟨g', p', lg', lp', heq, hgh, hph, hge, hle, -, hperm⟩ :=
        ih (p := ⟨p.cur, Function.update p.pool lp.length (some b)⟩) hg' (by omega) hp.push
          (by rw [List.length_append, List.length_singleton]; omega)
      rw [List.length_append, List.length_singleton] at heq hge hle
      refine ⟨g', p', lg', lp', ?_, hgh, hph, by omega, by omega, fun he => by omega, hperm.trans ?_⟩
      · rw [hcur] at heq
        have hlt : lp.length < 2 * TARGET_POOL_SIZE := by omega
        rw [allocLoop, if_pos (by omega), hcur, load_eq hlg, hslots.top]
        simp only [Option.bind_eq_bind, Option.bind_some, store_eq hlg, store_eq hlt, hcur]
        exact heq
      · rw [List.append_assoc]
        exact List.Perm.append_left lg List.perm_append_comm

/-- **The loop of `memblock_free`** moves `k` blocks. -/
theorem freeLoop_eq (k : ℕ) : ∀ {g p : Pool} {lg lp : List Block}, g.Holds lg → lg.length + k ≤ GLOBAL_POOL_SIZE →
    Slots p.pool lp → lp.length ≤ 2 * TARGET_POOL_SIZE → k ≤ lp.length →
    ∃ g' p' lg' lp', freeLoop k ((lp.length : ℤ) - 1) g p = some (g', p', (lp'.length : ℤ) - 1) ∧ g'.Holds lg' ∧
      Slots p'.pool lp' ∧ lp'.length + k = lp.length ∧ lg' ++ lp' ~ lg ++ lp := by
  induction k with
  | zero => exact fun {g p lg lp} hg _ hp _ _ => ⟨g, p, lg, lp, rfl, hg, hp, rfl, .refl _⟩
  | succ k ih =>
    intro g p lg lp hg hlg hp hlp hk
    rcases List.eq_nil_or_concat' lp with rfl | ⟨lp, b, rfl⟩
    · cases hk
    · rw [List.length_append, List.length_singleton] at hlp hk
      have hcur : g.cur + 1 = lg.length := by
        rw [hg.cur]
        omega
      -- the block goes to the top of the global pool
      have hg' : Pool.Holds ⟨g.cur + 1, Function.update g.pool (g.cur + 1) (some b)⟩ (lg ++ [b]) :=
        ⟨by rw [hcur]; simp, by rw [hcur]; exact hg.slots.push⟩
      obtain ⟨g', p', lg', lp', heq, hgh, hph, hlen, hperm⟩ :=
        ih (p := ⟨p.cur, Function.update p.pool lp.length none⟩) hg'
          (by rw [List.length_append, List.length_singleton]; omega) (hp.below.above le_rfl) (by omega) (by omega)
      have hlast : ((lp ++ [b]).length : ℤ) - 1 = lp.length := by simp
      refine ⟨g', p', lg', lp', ?_, hgh, hph, by rw [List.length_append, List.length_singleton]; omega, hperm.trans ?_⟩
      · rw [hcur] at heq
        have hlt : lg.length < GLOBAL_POOL_SIZE := by omega
        rw [hlast, freeLoop, load_eq hlp, hp.top, hcur]
        simp only [Option.bind_eq_bind, Option.bind_some, store_eq hlp, store_eq hlt]
        exact heq
      · rw [List.append_assoc]
        exact List.Perm.append_left lg List.perm_append_comm

/-! ### The invariant -/

variable {n : ℕ} (s : St n)

/-- What is known at a place of thread `t`, whose pool has the blocks of `l`. -/
def ThreadInv (t : Fin n) (l : List Block) : Loc → Prop
  | .idle | .allocated (some _) => True
  | .allocLock => l = []
  | .allocPop => l = [] → s.dry t = true
  | .allocated none => s.dry t = true
  | .freeLock p => s.held p = some t ∧ l.length = 2 * TARGET_POOL_SIZE
  | .freePush p => s.held p = some t ∧ l.length < 2 * TARGET_POOL_SIZE

/-- The global pool has the blocks of `g`, and the pool of each thread those of `pools`. -/
structure InvAt (g : List Block) (pools : Fin n → List Block) : Prop where
  globalmem : s.globalmem.Holds g
  perthreadmem : ∀ t, (s.perthreadmem t).Holds (pools t)
  len : ∀ t, (pools t).length ≤ 2 * TARGET_POOL_SIZE
  once : ∀ b, g.count b + ∑ t, (pools t).count b + (if (s.held b).isSome = true then 1 else 0) = 1
  loc : ∀ t, ThreadInv s t (pools t) (s.loc t)

def Inv : Prop := ∃ g pools, InvAt s g pools

variable {s : St n} {pools : Fin n → List Block} {t u : Fin n}

namespace InvAt

variable (h : InvAt s lg pools)
include h

/-- A block that is with a thread is in no pool. -/
theorem count_of_held (hb : s.held b = some t) : lg.count b = 0 ∧ ∀ u, (pools u).count b = 0 := by
  have h1 := h.once b
  simp only [hb, Option.isSome_some, if_true] at h1
  have hsum : ∑ t, (pools t).count b = 0 := by omega
  exact ⟨by omega, fun u => Finset.sum_eq_zero_iff.mp hsum u (Finset.mem_univ u)⟩

theorem held_of_mem (hb : b ∈ pools t) : s.held b = none ∧ b ∉ lg := by
  have h1 := h.once b
  have hpos : 0 < (pools t).count b := List.count_pos_iff.mpr hb
  have hle : (pools t).count b ≤ ∑ u, (pools u).count b :=
    Finset.single_le_sum (f := fun u => (pools u).count b) (fun _ _ => Nat.zero_le _) (Finset.mem_univ t)
  refine ⟨?_, fun hg => ?_⟩
  · by_contra hne
    rw [if_pos (Option.isSome_iff_ne_none.mpr hne)] at h1
    omega
  · have hg : 0 < lg.count b := List.count_pos_iff.mpr hg
    omega

/-- Two lists of blocks have none twice. -/
theorem nodup : (lg ++ pools t).Nodup := List.nodup_iff_count_le_one.mpr fun b => by
  rw [List.count_append]
  have h1 := h.once b
  have hle : (pools t).count b ≤ ∑ u, (pools u).count b :=
    Finset.single_le_sum (f := fun u => (pools u).count b) (fun _ _ => Nat.zero_le _) (Finset.mem_univ t)
  omega

theorem nodup_global : lg.Nodup := List.nodup_iff_count_le_one.mpr fun b => by
  have h1 := h.once b
  omega

/-- **There is room in the global pool** for all blocks of a thread. -/
theorem length_add_le : lg.length + (pools t).length ≤ GLOBAL_POOL_SIZE := by
  rw [← List.length_append]
  have hle := (h.nodup (t := t)).length_le_card
  rwa [Fintype.card_fin] at hle

/-- A block is in no two pools. -/
theorem eq_of_mem (ht : b ∈ pools t) (hu : b ∈ pools u) : u = t := by
  by_contra hut
  have h1 := h.once b
  have ht : 0 < (pools t).count b := List.count_pos_iff.mpr ht
  have hu : 0 < (pools u).count b := List.count_pos_iff.mpr hu
  have hle : (pools u).count b ≤ ∑ v ∈ Finset.univ.erase t, (pools v).count b :=
    Finset.single_le_sum (f := fun v => (pools v).count b) (fun _ _ => Nat.zero_le _)
      (Finset.mem_erase.mpr ⟨hut, Finset.mem_univ u⟩)
  rw [← Finset.add_sum_erase _ _ (Finset.mem_univ t)] at h1
  omega

end InvAt

theorem Pool.Holds.iff {j : ℤ} (h : p.Holds l) :
    (0 ≤ j ∧ j ≤ p.cur ∧ p.pool j = some b) ↔ ∃ i : ℕ, j = i ∧ l[i]? = some b := by
  constructor
  · rintro ⟨h0, hj, hb⟩
    obtain ⟨i, rfl⟩ := Int.eq_ofNat_of_zero_le h0
    have hlt : i < l.length := by
      have := h.cur
      omega
    refine ⟨i, rfl, ?_⟩
    rw [List.getElem?_eq_getElem hlt, ← hb]
    exact (h.slots i _ (List.getElem?_eq_getElem hlt)).symm
  · rintro ⟨i, rfl, hb⟩
    have hlt : i < l.length := (List.getElem?_eq_some_iff.mp hb).1
    have := h.cur
    exact ⟨Int.natCast_nonneg i, by omega, h.slots i b hb⟩

/-- **Each block is at one place.** -/
theorem InvAt.place (h : InvAt s lg pools) (b : Block) : ∃! l, At s b l := by
  have hg : ∀ j, At s b (.globalPool j) ↔ ∃ i : ℕ, j = i ∧ lg[i]? = some b := fun j => h.globalmem.iff
  have hp : ∀ t j, At s b (.perthreadPool t j) ↔ ∃ i : ℕ, j = i ∧ (pools t)[i]? = some b := fun t j =>
    (h.perthreadmem t).iff
  have hnodup : ∀ t, (pools t).Nodup := fun t => (List.nodup_append.mp (h.nodup (t := t))).2.1
  refine existsUnique_of_exists_of_unique ?_ fun l l' hl hl' => ?_
  · by_contra hno
    have hno := not_exists.mp hno
    have hlg : lg.count b = 0 := List.count_eq_zero.mpr fun hb => by
      obtain ⟨i, hi⟩ := List.mem_iff_getElem?.mp hb
      exact hno (.globalPool i) ((hg i).mpr ⟨i, rfl, hi⟩)
    have hpools : ∀ t ∈ Finset.univ, (pools t).count b = 0 := fun t _ => List.count_eq_zero.mpr fun hb => by
      obtain ⟨i, hi⟩ := List.mem_iff_getElem?.mp hb
      exact hno (.perthreadPool t i) ((hp t i).mpr ⟨i, rfl, hi⟩)
    have hheld : s.held b = none := Option.eq_none_iff_forall_not_mem.mpr fun t ht => hno (.hands t) ht
    have h1 := h.once b
    rw [hlg, Finset.sum_eq_zero hpools, hheld] at h1
    cases h1
  · cases l with
    | globalPool j =>
      obtain ⟨i, rfl, hi⟩ := (hg j).mp hl
      have hmem := List.mem_of_getElem? hi
      cases l' with
      | globalPool j' =>
        obtain ⟨i', rfl, hi'⟩ := (hg j').mp hl'
        rw [(List.getElem?_inj (List.getElem?_eq_some_iff.mp hi).1 h.nodup_global).mp (hi.trans hi'.symm)]
      | perthreadPool t j' =>
        obtain ⟨i', rfl, hi'⟩ := (hp t j').mp hl'
        exact absurd hmem (h.held_of_mem (List.mem_of_getElem? hi')).2
      | hands t => exact absurd hmem (List.count_eq_zero.mp (h.count_of_held hl').1)
    | perthreadPool t j =>
      obtain ⟨i, rfl, hi⟩ := (hp t j).mp hl
      have hmem := List.mem_of_getElem? hi
      cases l' with
      | globalPool j' =>
        obtain ⟨i', rfl, hi'⟩ := (hg j').mp hl'
        exact absurd (List.mem_of_getElem? hi') (h.held_of_mem hmem).2
      | perthreadPool u j' =>
        obtain ⟨i', rfl, hi'⟩ := (hp u j').mp hl'
        obtain rfl := h.eq_of_mem hmem (List.mem_of_getElem? hi')
        rw [(List.getElem?_inj (List.getElem?_eq_some_iff.mp hi).1 (hnodup u)).mp (hi.trans hi'.symm)]
      | hands u => exact absurd hmem (List.count_eq_zero.mp ((h.count_of_held hl').2 t))
    | hands t =>
      cases l' with
      | globalPool j' =>
        obtain ⟨i', rfl, hi'⟩ := (hg j').mp hl'
        exact absurd (List.mem_of_getElem? hi') (List.count_eq_zero.mp (h.count_of_held hl).1)
      | perthreadPool u j' =>
        obtain ⟨i', rfl, hi'⟩ := (hp u j').mp hl'
        exact absurd (List.mem_of_getElem? hi') (List.count_eq_zero.mp ((h.count_of_held hl).2 u))
      | hands u => rw [Option.some.inj ((show s.held b = some t from hl).symm.trans hl')]

end Smpalloc
end Perfbook
