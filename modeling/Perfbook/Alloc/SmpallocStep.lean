/-
# Each step of `smpalloc.c` conserves the blocks

A step of a thread changes its own pool and the global pool, and no block comes or goes
between these two and the hands of the thread (`InvAt.moves`). A thread that is in one
of the functions can take its step, as what it accesses is in bounds
(`InvAt.stepThread`). The blocks that `initpools` frees are all with its thread at the
start, so it is a run of `memblock_free` as any other.

Key theorems: `InvAt.moves`, `InvAt.stepThread`, `Inv.next`, `emptyPools_inv`, `initpools_eq`, `blocks_conserved`.
-/
import Perfbook.Alloc.SmpallocInv
import Perfbook.Conc.Lock

namespace Perfbook
namespace Smpalloc

open Conc
open scoped List

variable {n : ℕ} {s s' : St n} {lg lg' lp : List Block} {pools : Fin n → List Block} {t u : Fin n} {b : Block} {l : Loc}

namespace InvAt

variable (h : InvAt s lg pools)
include h

/-- **A step of a thread**, whose pool has the blocks of `lp` then. -/
theorem moves (hg : s'.globalmem.Holds lg') (hp : (s'.perthreadmem t).Holds lp)
    (hpne : ∀ u, u ≠ t → s'.perthreadmem u = s.perthreadmem u) (hlen : lp.length ≤ 2 * TARGET_POOL_SIZE)
    (honce : ∀ b, lg'.count b + lp.count b + (if (s'.held b).isSome = true then 1 else 0) =
      lg.count b + (pools t).count b + if (s.held b).isSome = true then 1 else 0)
    (hheld : ∀ u, u ≠ t → ∀ b, s.held b = some u → s'.held b = some u)
    (hloc : ∀ u, u ≠ t → s'.loc u = s.loc u) (hdry : ∀ u, u ≠ t → s'.dry u = s.dry u)
    (hself : ThreadInv s' t lp (s'.loc t)) : InvAt s' lg' (Function.update pools t lp) where
  globalmem := hg
  perthreadmem := by
    intro u
    by_cases hut : u = t
    · subst hut
      rwa [Function.update_self]
    · rw [Function.update_of_ne hut, hpne u hut]
      exact h.perthreadmem u
  len := by
    intro u
    by_cases hut : u = t
    · subst hut
      rwa [Function.update_self]
    · rw [Function.update_of_ne hut]
      exact h.len u
  once b := by
    have h1 := h.once b
    have hsum := sum_move (t := t) (fun u => (Function.update pools t lp u).count b) (fun u => (pools u).count b)
      fun u hu => by rw [Function.update_of_ne hu]
    simp only [Function.update_self] at hsum
    have hb := honce b
    omega
  loc := by
    intro u
    by_cases hut : u = t
    · subst hut
      rwa [Function.update_self]
    · rw [Function.update_of_ne hut, hloc u hut]
      have hu := h.loc u
      revert hu
      cases s.loc u with
      | idle => exact id
      | allocLock => exact id
      | allocPop =>
        rw [ThreadInv, ThreadInv, hdry u hut]
        exact id
      | allocated p =>
        cases p with
        | some p => exact id
        | none =>
          rw [ThreadInv, ThreadInv, hdry u hut]
          exact id
      | freeLock p | freePush p => exact fun hu => ⟨hheld u hut p hu.1, hu.2⟩

/-- The section of `memblock_alloc`. -/
theorem allocLock (hloc : s.loc t = .allocLock) : ∃ s', stepThread s t = some s' ∧ Inv s' := by
  have hl := h.loc t
  rw [hloc] at hl
  have hempty : pools t = [] := hl
  have hcur : (s.perthreadmem t).cur < 0 := by
    have hc := (h.perthreadmem t).cur
    rw [hempty, List.length_nil] at hc
    omega
  have hlg : lg.length ≤ GLOBAL_POOL_SIZE := le_trans (Nat.le_add_right _ _) (h.length_add_le (t := t))
  obtain ⟨g', p', lg', lp', heq, hgh, hph, -, hle, hsame, hperm⟩ :=
    allocLoop_eq TARGET_POOL_SIZE h.globalmem hlg (hempty ▸ (h.perthreadmem t).slots) (by decide)
  rw [List.length_nil] at heq hle hsame
  have hperm' : lg' ++ lp' ~ lg ++ pools t := hempty ▸ hperm
  have hstep : Smpalloc.stepThread s t = some ({ s with
      globalmem := g'
      perthreadmem := Function.update s.perthreadmem t ⟨(lp'.length : ℤ) - 1, p'.pool⟩
      dry := Function.update s.dry t (decide ((s.perthreadmem t).cur < 0 ∧ s.globalmem.cur < 0))
      }.goto t .allocPop) := by
    rw [Smpalloc.stepThread, hloc]
    simp only [heq, Option.bind_eq_bind, Option.bind_some]
  refine ⟨_, hstep, lg', Function.update pools t lp',
    h.moves hgh ?_ (fun u hu => Function.update_of_ne hu ..) ?_ (fun b => ?_) (fun _ _ _ => id)
      (fun u hu => Function.update_of_ne hu ..) (fun u hu => Function.update_of_ne hu ..) ?_⟩
  · change Pool.Holds (Function.update s.perthreadmem t ⟨(lp'.length : ℤ) - 1, p'.pool⟩ t) lp'
    rw [Function.update_self]
    exact ⟨rfl, hph⟩
  · exact hle.trans (by decide)
  · have hcount := hperm'.count_eq b
    rw [List.count_append, List.count_append] at hcount
    change _ + (if (s.held b).isSome = true then 1 else 0) = _
    omega
  · change ThreadInv _ t lp' (Function.update s.loc t .allocPop t)
    rw [Function.update_self]
    -- nothing was moved, as the global pool was empty
    intro hnil
    change Function.update s.dry t (decide ((s.perthreadmem t).cur < 0 ∧ s.globalmem.cur < 0)) t = true
    have hg : lg = [] := (hsame (by rw [hnil]; rfl)).resolve_left (by decide)
    have hgc := h.globalmem.cur
    rw [hg, List.length_nil] at hgc
    rw [Function.update_self, decide_eq_true_iff]
    exact ⟨hcur, by omega⟩

/-- **A block is taken**, or there is none. -/
theorem allocPop (hloc : s.loc t = .allocPop) : ∃ s', stepThread s t = some s' ∧ Inv s' ∧
    ∀ p, s'.loc t = .allocated (some p) → s.held p = none ∧ s'.held p = some t := by
  have hl := h.loc t
  rw [hloc] at hl
  have hdry : pools t = [] → s.dry t = true := hl
  have hp := h.perthreadmem t
  have hlen := h.len t
  rcases List.eq_nil_or_concat' (pools t) with hnil | ⟨lp, b, hcons⟩
  · have hcur : ¬ (s.perthreadmem t).cur ≥ 0 := by
      have hc := hp.cur
      rw [hnil, List.length_nil] at hc
      omega
    have hself : Function.update s.loc t (Loc.allocated none) t = .allocated none := Function.update_self ..
    refine ⟨s.goto t (.allocated none), by rw [Smpalloc.stepThread, hloc]; exact if_neg hcur, ⟨lg, _,
      h.moves (t := t) h.globalmem hp (fun _ _ => rfl) hlen (fun _ => rfl) (fun _ _ _ => id)
        (fun u hu => Function.update_of_ne hu ..) (fun _ _ => rfl) ?_⟩, fun p hp => ?_⟩
    · change ThreadInv _ t _ (Function.update s.loc t (.allocated none) t)
      rw [hself]
      exact hdry hnil
    · cases hself.symm.trans hp
  · rw [hcons] at hp
    rw [hcons, List.length_append, List.length_singleton] at hlen
    have hcur : (s.perthreadmem t).cur = lp.length := by
      rw [hp.cur]
      simp
    have hlt : lp.length < 2 * TARGET_POOL_SIZE := by omega
    have hnone : s.held b = none := (h.held_of_mem (t := t) (by rw [hcons]; simp)).1
    have hself : Function.update s.loc t (Loc.allocated (some b)) t = .allocated (some b) := Function.update_self ..
    have hstep : Smpalloc.stepThread s t = some ({ s with
        perthreadmem := Function.update s.perthreadmem t
          ⟨lp.length - 1, Function.update (s.perthreadmem t).pool lp.length none⟩
        held := Function.update s.held b (some t) }.goto t (.allocated (some b))) := by
      rw [Smpalloc.stepThread, hloc]
      simp only [hcur, load_eq hlt, store_eq hlt, hp.slots.top, Option.bind_eq_bind, Option.bind_some, ge_iff_le,
        if_pos (Int.natCast_nonneg lp.length)]
    refine ⟨_, hstep, ⟨lg, Function.update pools t lp,
      h.moves h.globalmem ?_ (fun u hu => Function.update_of_ne hu ..) (by omega) (fun c => ?_)
        (fun u _ c hc => ?_) (fun u hu => Function.update_of_ne hu ..) (fun _ _ => rfl) ?_⟩, fun p hp => ?_⟩
    · change Pool.Holds (Function.update s.perthreadmem t
        ⟨lp.length - 1, Function.update (s.perthreadmem t).pool lp.length none⟩ t) lp
      rw [Function.update_self]
      exact ⟨rfl, hp.slots.below.above le_rfl⟩
    · change _ + (if (Function.update s.held b (some t) c).isSome = true then 1 else 0) = _
      rw [hcons, List.count_append]
      by_cases hcb : c = b
      · subst hcb
        simp [hnone]
        omega
      · simp [Function.update_of_ne hcb, Ne.symm hcb]
    · have hcb : c ≠ b := fun hcb => by
        rw [hcb, hnone] at hc
        cases hc
      exact (Function.update_of_ne hcb ..).trans hc
    · change ThreadInv _ t _ (Function.update s.loc t (.allocated (some b)) t)
      rw [hself]
      trivial
    · cases hself.symm.trans hp
      exact ⟨hnone, Function.update_self ..⟩

/-- The section of `memblock_free`. -/
theorem freeLock {p : Block} (hloc : s.loc t = .freeLock p) :
    ∃ s', stepThread s t = some s' ∧ Inv s' ∧ s'.loc t = .freePush p ∧ s'.held = s.held := by
  have hl := h.loc t
  rw [hloc] at hl
  obtain ⟨hheld, hlen⟩ : s.held p = some t ∧ (pools t).length = 2 * TARGET_POOL_SIZE := hl
  have hp := h.perthreadmem t
  have hk : ((s.perthreadmem t).cur + 1 - TARGET_POOL_SIZE).toNat = TARGET_POOL_SIZE := by
    have hc := hp.cur
    rw [hlen] at hc
    rw [hc]
    decide
  have hroom := h.length_add_le (t := t)
  have hthree : TARGET_POOL_SIZE ≤ (pools t).length := by
    rw [hlen]
    decide
  obtain ⟨g', p', lg', lp', heq, hgh, hph, hlen', hperm⟩ :=
    freeLoop_eq TARGET_POOL_SIZE h.globalmem (by omega) hp.slots hlen.le hthree
  rw [← hp.cur] at heq
  have hstep : Smpalloc.stepThread s t = some ({ s with
      globalmem := g'
      perthreadmem := Function.update s.perthreadmem t ⟨(lp'.length : ℤ) - 1, p'.pool⟩ }.goto t (.freePush p)) := by
    rw [Smpalloc.stepThread, hloc]
    simp only [hk, heq, Option.bind_eq_bind, Option.bind_some]
  refine ⟨_, hstep, ⟨lg', Function.update pools t lp',
    h.moves hgh ?_ (fun u hu => Function.update_of_ne hu ..) (by omega) (fun b => ?_) (fun _ _ _ => id)
      (fun u hu => Function.update_of_ne hu ..) (fun _ _ => rfl) ?_⟩, Function.update_self .., rfl⟩
  · change Pool.Holds (Function.update s.perthreadmem t ⟨(lp'.length : ℤ) - 1, p'.pool⟩ t) lp'
    rw [Function.update_self]
    exact ⟨rfl, hph⟩
  · have hcount := hperm.count_eq b
    rw [List.count_append, List.count_append] at hcount
    change _ + (if (s.held b).isSome = true then 1 else 0) = _
    omega
  · change ThreadInv _ t lp' (Function.update s.loc t (.freePush p) t)
    rw [Function.update_self]
    have htarget : 0 < TARGET_POOL_SIZE := by decide
    exact ⟨hheld, by omega⟩

/-- **A block is returned.** -/
theorem freePush {p : Block} (hloc : s.loc t = .freePush p) :
    ∃ s', stepThread s t = some s' ∧ Inv s' ∧ s'.loc t = .idle ∧ s'.held = Function.update s.held p none := by
  have hl := h.loc t
  rw [hloc] at hl
  obtain ⟨hheld, hlt⟩ : s.held p = some t ∧ (pools t).length < 2 * TARGET_POOL_SIZE := hl
  have hp := h.perthreadmem t
  have hcur : (s.perthreadmem t).cur + 1 = (pools t).length := by
    have hc := hp.cur
    omega
  have hstep : Smpalloc.stepThread s t = some ({ s with
      perthreadmem := Function.update s.perthreadmem t
        ⟨(pools t).length, Function.update (s.perthreadmem t).pool (pools t).length (some p)⟩
      held := Function.update s.held p none }.goto t .idle) := by
    rw [Smpalloc.stepThread, hloc]
    simp only [hcur, store_eq hlt, Option.bind_eq_bind, Option.bind_some]
  refine ⟨_, hstep, ⟨lg, Function.update pools t (pools t ++ [p]),
    h.moves h.globalmem ?_ (fun u hu => Function.update_of_ne hu ..) ?_ (fun c => ?_)
      (fun u hu c hc => ?_) (fun u hu => Function.update_of_ne hu ..) (fun _ _ => rfl) ?_⟩,
    Function.update_self .., rfl⟩
  · change Pool.Holds (Function.update s.perthreadmem t
      ⟨(pools t).length, Function.update (s.perthreadmem t).pool (pools t).length (some p)⟩ t) _
    rw [Function.update_self]
    exact ⟨by simp, hp.slots.push⟩
  · rw [List.length_append, List.length_singleton]
    omega
  · change _ + (if (Function.update s.held p none c).isSome = true then 1 else 0) = _
    rw [List.count_append]
    by_cases hcp : c = p
    · subst hcp
      simp [hheld]
      omega
    · simp [Function.update_of_ne hcp, Ne.symm hcp]
  · have hcp : c ≠ p := fun hcp => by
      rw [hcp, hheld] at hc
      exact hu (Option.some.inj hc).symm
    exact (Function.update_of_ne hcp ..).trans hc
  · change ThreadInv _ t _ (Function.update s.loc t .idle t)
    rw [Function.update_self]
    trivial

/-- A thread that is in one of the functions. -/
theorem stepThread (hin : (s.loc t).outside = false) : ∃ s', stepThread s t = some s' ∧ Inv s' := by
  cases hloc : s.loc t with
  | idle | allocated p =>
    rw [hloc] at hin
    cases hin
  | allocLock => exact h.allocLock hloc
  | allocPop =>
    obtain ⟨s', hs, hi, -⟩ := h.allocPop hloc
    exact ⟨s', hs, hi⟩
  | freeLock p =>
    obtain ⟨s', hs, hi, -⟩ := h.freeLock hloc
    exact ⟨s', hs, hi⟩
  | freePush p =>
    obtain ⟨s', hs, hi, -⟩ := h.freePush hloc
    exact ⟨s', hs, hi⟩

/-- **The invariant is what is promised.** -/
theorem conserves : Conserves s where
  globalCur := by
    have hc := h.globalmem.cur
    have hle := h.nodup_global.length_le_card
    rw [Fintype.card_fin] at hle
    omega
  cur t := by
    have hc := (h.perthreadmem t).cur
    have hle := h.len t
    omega
  bounds t ht := by
    obtain ⟨s', hs, -⟩ := h.stepThread ht
    rw [hs]
    rfl
  place := h.place
  alloc t s' p hloc hs hp := by
    obtain ⟨s'', hs', -, ha⟩ := h.allocPop hloc
    obtain rfl : s' = s'' := Option.some.inj (hs.symm.trans hs')
    exact ha p hp
  null t ht := by
    have hl := h.loc t
    rw [ht] at hl
    exact hl

end InvAt

/-! ### All runs -/

namespace Inv

theorem step (h : Inv s) (hn : stepThread s t = some s') : Inv s' := by
  obtain ⟨lg, pools, h⟩ := h
  have hin : (s.loc t).outside = false := Bool.eq_false_iff.mpr fun hout => by
    rw [stepThread] at hn
    revert hn hout
    cases s.loc t with
    | idle | allocated p => exact fun hn => by cases hn
    | _ => exact fun _ => nofun
  obtain ⟨s'', hs, hi⟩ := h.stepThread hin
  exact Option.some.inj (hn.symm.trans hs) ▸ hi

/-- A step that changes nothing of the pools. -/
theorem calls (h : Inv s) (hg : s'.globalmem = s.globalmem) (hp : s'.perthreadmem = s.perthreadmem)
    (hheld : s'.held = s.held) (hloc : ∀ u, u ≠ t → s'.loc u = s.loc u) (hdry : ∀ u, u ≠ t → s'.dry u = s.dry u)
    (hself : ∀ l : List Block, (s.perthreadmem t).Holds l → l.length ≤ 2 * TARGET_POOL_SIZE →
      ThreadInv s' t l (s'.loc t)) :
    Inv s' := by
  obtain ⟨lg, pools, h⟩ := h
  exact ⟨lg, _, h.moves (t := t) (hg ▸ h.globalmem) (hp ▸ h.perthreadmem t) (fun u _ => congrFun hp u) (h.len t)
    (fun b => by rw [hheld]) (fun u _ b hb => hheld ▸ hb) hloc hdry (hself _ (h.perthreadmem t) (h.len t))⟩

theorem alloc (h : Inv s) (hn : next s (.alloc t) = some s') : Inv s' := by
  rw [next] at hn
  split at hn
  · cases hn
    refine h.calls (t := t) rfl rfl rfl
      (fun u hu => Function.update_of_ne hu ..) (fun u hu => Function.update_of_ne hu ..) fun l hl _ => ?_
    change ThreadInv _ t l (Function.update s.loc t _ t)
    rw [Function.update_self]
    have hcur := hl.cur
    split
    · exact List.eq_nil_of_length_eq_zero (by omega)
    · intro hnil
      rw [hnil, List.length_nil] at hcur
      omega
  · cases hn

theorem free {p : Block} (h : Inv s) (hn : next s (.free t p) = some s') : Inv s' := by
  rw [next] at hn
  split at hn
  · next hg =>
    cases hn
    refine h.calls (t := t) rfl rfl rfl (fun u hu => Function.update_of_ne hu ..) (fun _ _ => rfl) fun l hl hlen => ?_
    change ThreadInv _ t l (Function.update s.loc t _ t)
    rw [Function.update_self]
    have hcur := hl.cur
    split
    · exact ⟨hg.2, by omega⟩
    · exact ⟨hg.2, by omega⟩
  · cases hn

theorem give {p : Block} (h : Inv s) (hn : next s (.give t u p) = some s') : Inv s' := by
  rw [next] at hn
  split at hn
  · next hg =>
    cases hn
    obtain ⟨hout, hheld⟩ := hg
    obtain ⟨lg, pools, h⟩ := h
    refine ⟨lg, _, h.moves (t := t) h.globalmem (h.perthreadmem t) (fun _ _ => rfl) (h.len t) (fun c => ?_)
      (fun v hv c hc => ?_) (fun _ _ => rfl) (fun _ _ => rfl) ?_⟩
    · by_cases hcp : c = p
      · simp [hcp, hheld]
      · simp [Function.update_of_ne hcp]
    · have hcp : c ≠ p := fun hcp => by
        rw [hcp, hheld] at hc
        exact hv (Option.some.inj hc).symm
      exact (Function.update_of_ne hcp ..).trans hc
    · have hl := h.loc t
      revert hl hout
      change _ → _ → ThreadInv _ t _ (s.loc t)
      cases s.loc t with
      | idle => exact fun _ => id
      | allocated q => cases q <;> exact fun _ => id
      | _ => exact fun hout => by cases hout
  · cases hn

theorem next {a : Act n} (h : Inv s) (hn : next s a = some s') : Inv s' := by
  cases a with
  | alloc t => exact h.alloc hn
  | free t p => exact h.free hn
  | give t u p => exact h.give hn
  | step t => exact h.step hn

end Inv

theorem emptyPools_inv (t : Fin n) : Inv (emptyPools t) := by
  refine ⟨[], fun _ => [], ⟨rfl, nofun⟩, fun _ => ⟨rfl, nofun⟩, fun _ => Nat.zero_le _, fun b => ?_, fun _ => trivial⟩
  simp [emptyPools]

/-- A whole `memblock_free`. -/
theorem memblockFree_eq {p : Block} (h : Inv s) (hloc : s.loc t = .idle) (hheld : s.held p = some t) :
    ∃ s', memblockFree s t p = some s' ∧ Inv s' ∧ s'.loc t = .idle ∧ s'.held = Function.update s.held p none := by
  obtain ⟨s₁, hs₁⟩ : ∃ s₁, next s (.free t p) = some s₁ := ⟨_, if_pos ⟨by rw [hloc]; rfl, hheld⟩⟩
  have hi₁ := h.free hs₁
  rw [next, if_pos ⟨by rw [hloc]; rfl, hheld⟩] at hs₁
  cases hs₁
  obtain ⟨lg, pools, hi⟩ := hi₁
  rw [memblockFree, next, if_pos ⟨by rw [hloc]; rfl, hheld⟩]
  simp only [Option.bind_eq_bind, Option.bind_some]
  split at hi
  · next hfull =>
    obtain ⟨s₂, hs₂, ⟨_, _, hi₂⟩, hl₂, hh₂⟩ := hi.freeLock (t := t) (p := p) (Function.update_self ..)
    obtain ⟨s₃, hs₃, hi₃, hl₃, hh₃⟩ := hi₂.freePush hl₂
    refine ⟨s₃, ?_, hi₃, hl₃, by rw [hh₃, hh₂]; rfl⟩
    rw [if_pos hfull, hs₂, Option.bind_some, hl₂, if_neg nofun, hs₃]
  · next hfull =>
    obtain ⟨s₂, hs₂, hi₂, hl₂, hh₂⟩ := hi.freePush (t := t) (p := p) (Function.update_self ..)
    refine ⟨s₂, ?_, hi₂, hl₂, by rw [hh₂]; rfl⟩
    rw [if_neg hfull, hs₂, Option.bind_some, hl₂, if_pos rfl]

/-- **`initpools` frees all blocks**, and makes no access out of bounds. -/
theorem initpools_eq (t : Fin n) : ∃ s, initpools t = some s ∧ Inv s := by
  have hfold : ∀ (l : List Block) (r : St n), l.Nodup → Inv r → r.loc t = .idle → (∀ p ∈ l, r.held p = some t) →
      ∃ s, l.foldlM (fun s p => memblockFree s t p) r = some s ∧ Inv s := by
    intro l
    induction l with
    | nil => exact fun r _ hr _ _ => ⟨r, rfl, hr⟩
    | cons p l ih =>
      intro r hnodup hr hloc hheld
      obtain ⟨hp, hnodup⟩ := List.nodup_cons.mp hnodup
      obtain ⟨r', heq, hr', hloc', hheld'⟩ := memblockFree_eq hr hloc (hheld p List.mem_cons_self)
      rw [List.foldlM_cons, heq]
      refine ih r' hnodup hr' hloc' fun q hq => ?_
      rw [hheld', Function.update_of_ne fun hqp : q = p => hp (hqp ▸ hq)]
      exact hheld q (List.mem_cons_of_mem p hq)
  exact hfold _ _ (List.nodup_finRange _) (emptyPools_inv t) rfl fun _ _ => rfl

/-- **`smpalloc` conserves the blocks.** -/
theorem blocks_conserved (h : (sys n).Reach Sys.always s) : Conserves s := by
  have hinv : Inv s := by
    refine h.inv (fun s hs => ?_) fun _ _ _ hi _ hn => hi.next hn
    obtain ⟨t, ht⟩ := hs
    obtain ⟨s', hs', hi⟩ := initpools_eq t
    exact Option.some.inj (ht.symm.trans hs') ▸ hi
  obtain ⟨_, _, hi⟩ := hinv
  exact hi.conserves

/-- Thread 0 takes a block from its pool, and thread 1 one from the global pool. -/
def takeTwo : List (Act 2) :=
  [.alloc 0, .step 0, .alloc 1, .step 1, .step 1]

theorem blocks_conserved_run : ∃ s, (sys 2).Reach Sys.always s ∧ s.loc 0 = .allocated (some ⟨39, by decide⟩) ∧
    s.loc 1 = .allocated (some ⟨38, by decide⟩) ∧ Conserves s := by
  have hrun : ((initpools 0).bind ((sys 2).run Sys.always takeTwo)).map (fun s => (s.loc 0, s.loc 1)) =
      some (.allocated (some ⟨39, by decide⟩), .allocated (some ⟨38, by decide⟩)) := by decide +kernel
  obtain ⟨s, hs, hd⟩ := Option.map_eq_some_iff.mp hrun
  obtain ⟨s₀, hs₀, hs⟩ := Option.bind_eq_some_iff.mp hs
  have hreach := Sys.run_reach (S := sys 2) (.init ⟨0, hs₀⟩) hs
  obtain ⟨h0, h1⟩ := Prod.mk.inj hd
  exact ⟨s, hreach, h0, h1, blocks_conserved hreach⟩

end Smpalloc
end Perfbook
