/-
# The grace period of `rcu_rcpls`

A call that took the snapshot `o` may rely on every flip from `o` on, whoever
does it: a section that ran when the call began and has the index of flip `k`
is over once that flip's wait loop has passed its thread (`Flips`). The flips
below `rcu_idx` are through, but for the last one if its wait loop still runs.
So two flips after the snapshot are enough; with the lock in hand, nobody else
is waiting.

Key definitions: `Scanning`, `Flips`, `At`, `Inv`.
Key theorems: `Flips.waited`, `inv_step`, `rcpls_grace_period`.
-/
import Mathlib.Algebra.Order.Ring.Int
import Perfbook.Conc.Lock
import Perfbook.Rcu.Rcpls

namespace Perfbook
namespace Rcu
namespace Rcpls

open Conc

variable {n : ℕ}

namespace Loc

/-- In `synchronize_rcu`, with `rcu_gp_lock`. -/
def holding : Loc n → Bool
  | syncCtr _ | flip _ _ _ | scan _ _ _ _ | syncUnlock _ => true
  | _ => false

/-- The snapshot of a call. -/
def oldctr : Loc n → Option ℕ
  | syncLock o | syncCtr o | flip o _ _ | scan o _ _ _ | syncUnlock o => some o
  | _ => none

end Loc

/-- Flip `k` is the last one, and its wait loop has thread `u` still before it. -/
def Scanning (s : St n) (k : ℕ) (u : Fin n) : Prop :=
  k + 1 = s.rcuIdx ∧ ∃ h o b v, s.loc h = .scan o k b v ∧ v.val ≤ u.val

/-- A section that a call waits for has outlived no flip after its snapshot. -/
def Flips (s : St n) : Prop :=
  ∀ t o, (s.loc t).oldctr = some o → ∀ u, s.sec.pre t u = true →
    ∀ k, o ≤ k → k < s.rcuIdx → parity k = s.rcuReadIdx u → Scanning s k u

/-- What holds of a thread at a place of the code. -/
def At (s : St n) (t : Fin n) : Loc n → Prop
  | .lockIdx | .lockSet _ => s.rcuNesting t = 0 ∧ s.sec.depth t = 0
  | .lockInc i v => s.rcuNesting t = 0 ∧ s.sec.depth t = 0 ∧ s.rcuReadIdx t = i ∧ v = s.rcuRefcnt t i
  | .lockDone m => s.rcuNesting t = m ∧ 0 < s.sec.depth t ∧ (s.sec.depth t : ℤ) = if m = 0 then 1 else m
  | .unlockNest => s.rcuNesting t = s.sec.depth t ∧ 0 < s.sec.depth t
  | .unlockIdx => s.rcuNesting t = 1 ∧ s.sec.depth t = 1
  | .unlockDec i v => s.rcuNesting t = 1 ∧ s.sec.depth t = 1 ∧ s.rcuReadIdx t = i ∧ v = s.rcuRefcnt t i
  | .unlockDone m => s.rcuNesting t = m ∧
      if m = 1 then s.sec.depth t = 0 else (s.sec.depth t : ℤ) = m ∧ 1 < s.sec.depth t
  | .syncLock o | .syncCtr o => s.rcuNesting t = s.sec.depth t ∧ o ≤ s.rcuIdx
  | .flip o c b => s.rcuNesting t = s.sec.depth t ∧ c = s.rcuIdx ∧ o ≤ c ∧ (b = true → o < c)
  | .scan o c b _ => s.rcuNesting t = s.sec.depth t ∧ c + 1 = s.rcuIdx ∧ o ≤ c ∧ (b = true → o < c)
  | .syncUnlock o => s.rcuNesting t = s.sec.depth t ∧ o + 2 ≤ s.rcuIdx
  | .syncReturn => s.rcuNesting t = s.sec.depth t ∧ s.sec.Waited t
  | _ => s.rcuNesting t = s.sec.depth t

structure Inv (s : St n) : Prop where
  ok : s.sec.Ok
  count : ∀ u i, s.rcuRefcnt u i = if 0 < s.sec.depth u ∧ s.rcuReadIdx u = i then 1 else 0
  lock : LockedBy Loc.holding s.rcuGpLock s.loc
  flips : Flips s
  loc : ∀ t, At s t (s.loc t)

variable {s s' : St n} {t : Fin n} {l : Loc n} {o c i : ℕ} {b : Bool}

/-- With the lock in hand and no flip under way, two flips are enough. -/
theorem Flips.waited (h : Flips s) (hlock : LockedBy Loc.holding s.rcuGpLock s.loc)
    (hl : s.loc t = .syncUnlock o) (ho : o + 2 ≤ s.rcuIdx) : s.sec.Waited t := by
  intro u
  by_contra hu
  have hu : s.sec.pre t u = true := by simpa using hu
  -- one of the last two flips has the index of the section
  obtain ⟨k, hk, hlt, hpar⟩ : ∃ k, o ≤ k ∧ k < s.rcuIdx ∧ parity k = s.rcuReadIdx u := by
    have hlt := (s.rcuReadIdx u).isLt
    by_cases hp : (s.rcuIdx - 1) % 2 = (s.rcuReadIdx u).val
    · exact ⟨s.rcuIdx - 1, by omega, by omega, Fin.ext hp⟩
    · exact ⟨s.rcuIdx - 2, by omega, by omega, Fin.ext (show (s.rcuIdx - 2) % 2 = _ by omega)⟩
  obtain ⟨-, h', o', b', v, hh, -⟩ := h t o (by rw [hl]; rfl) u hu k hk hlt hpar
  have heq := hlock.eq (t := t) (u := h') (by rw [hl]; rfl) (by rw [hh]; rfl)
  rw [heq, hl] at hh
  cases hh

/-- A thread is not disturbed by the others; the index stands still while it has the lock. -/
theorem At.frame (h : At s t l) (hd : s'.sec.depth t = s.sec.depth t)
    (hn : s'.rcuNesting t = s.rcuNesting t) (hr : s'.rcuReadIdx t = s.rcuReadIdx t)
    (hc : s'.rcuRefcnt t = s.rcuRefcnt t) (hle : s.rcuIdx ≤ s'.rcuIdx)
    (hidx : l.holding = true → s'.rcuIdx = s.rcuIdx)
    (hp : ∀ u, s'.sec.pre t u = true → s.sec.pre t u = true) : At s' t l := by
  cases l with
  | syncLock o => exact ⟨by rw [hn, hd]; exact h.1, h.2.trans hle⟩
  | syncCtr o => exact ⟨by rw [hn, hd]; exact h.1, h.2.trans hle⟩
  | flip o c b =>
    simp only [At, hn, hd, hidx rfl] at h ⊢
    exact h
  | scan o c b v =>
    simp only [At, hn, hd, hidx rfl] at h ⊢
    exact h
  | syncUnlock o =>
    simp only [At, hn, hd, hidx rfl] at h ⊢
    exact h
  | syncReturn =>
    exact ⟨by rw [hn, hd]; exact h.1, h.2.mono hp⟩
  | _ =>
    simp only [At, hn, hd, hr, hc] at h ⊢
    exact h

/-- A step that does not advance the index keeps what the calls rely on, if a
wait loop that moves does not pass a section that is waited for. -/
theorem Flips.move (h : Flips s) (hloc : s'.loc = Function.update s.loc t l)
    (hidx : s'.rcuIdx = s.rcuIdx)
    (hold : l.oldctr = none ∨ l.oldctr = (s.loc t).oldctr)
    (hp : ∀ v u o, (s'.loc v).oldctr = some o → s'.sec.pre v u = true →
      s.sec.pre v u = true ∧ s'.rcuReadIdx u = s.rcuReadIdx u)
    (hscan : ∀ u o k b v, s.loc t = .scan o k b v → v.val ≤ u.val → 0 < s'.sec.depth u →
      parity k = s'.rcuReadIdx u → ∃ o b v', l = .scan o k b v' ∧ v'.val ≤ u.val)
    (hok : s'.sec.Ok) : Flips s' := by
  intro v o ho u hu k hk hlt hpar
  obtain ⟨hu₀, hr⟩ := hp v u o ho hu
  have ho₀ : (s.loc v).oldctr = some o := by
    by_cases hv : v = t
    · subst hv
      rw [update_self hloc] at ho
      rcases hold with hold | hold
      · rw [hold] at ho
        cases ho
      · rwa [← hold]
    · rwa [update_ne hloc hv] at ho
  obtain ⟨he, h', o', b', v', hl', hle⟩ := h v o ho₀ u hu₀ k hk (hidx ▸ hlt) (hpar.trans hr)
  refine ⟨he.trans hidx.symm, h', ?_⟩
  by_cases hh : h' = t
  · subst hh
    obtain ⟨o₁, b₁, v₁, rfl, hv₁⟩ := hscan u o' k b' v' hl' hle (hok v u hu) hpar
    exact ⟨o₁, b₁, v₁, update_self hloc, hv₁⟩
  · exact ⟨o', b', v', (update_ne hloc hh).trans hl', hle⟩

/-- A thread goes on to `l`. -/
theorem Inv.move (h : Inv s) (hloc : s'.loc = Function.update s.loc t l) (hok : s'.sec.Ok)
    (hd : ∀ v, v ≠ t → s'.sec.depth v = s.sec.depth v ∧ s'.rcuNesting v = s.rcuNesting v ∧
      s'.rcuReadIdx v = s.rcuReadIdx v ∧ s'.rcuRefcnt v = s.rcuRefcnt v)
    (hp : ∀ v u, v ≠ t → s'.sec.pre v u = true → s.sec.pre v u = true)
    (hle : s.rcuIdx ≤ s'.rcuIdx) (hidx : s'.rcuIdx = s.rcuIdx ∨ (s.loc t).holding = true)
    (hcount : ∀ i, s'.rcuRefcnt t i = if 0 < s'.sec.depth t ∧ s'.rcuReadIdx t = i then 1 else 0)
    (hlock : LockedBy Loc.holding s'.rcuGpLock s'.loc) (hflips : Flips s') (hl : At s' t l) : Inv s' where
  ok := hok
  count u i := by
    by_cases hu : u = t
    · rw [hu]
      exact hcount i
    · rw [(hd u hu).1, (hd u hu).2.2.1, (hd u hu).2.2.2]
      exact h.count u i
  lock := hlock
  flips := hflips
  loc := forall_update (P := At s') hloc hl fun v hv => (h.loc v).frame (hd v hv).1 (hd v hv).2.1
    (hd v hv).2.2.1 (hd v hv).2.2.2 hle
    (fun hh => hidx.resolve_right fun ht => hv (h.lock.eq ht hh)) fun u => hp v u hv

/-- A thread goes on to `l`, and nothing else changes. -/
theorem Inv.goto (h : Inv s) (hl : At s t l) (hh : l.holding = (s.loc t).holding)
    (hold : l.oldctr = none ∨ l.oldctr = (s.loc t).oldctr)
    (hscan : ∀ u o k b v, s.loc t = .scan o k b v → v.val ≤ u.val → 0 < s.sec.depth u →
      parity k = s.rcuReadIdx u → ∃ o b v', l = .scan o k b v' ∧ v'.val ≤ u.val) : Inv (s.goto t l) :=
  h.move rfl h.ok (fun _ _ => ⟨rfl, rfl, rfl, rfl⟩) (fun _ _ _ hu => hu) le_rfl (.inl rfl) (h.count t)
    (h.lock.stay rfl hh) (h.flips.move rfl rfl hold (fun _ _ _ _ hu => ⟨hu, rfl⟩) hscan h.ok)
    (hl.frame rfl rfl rfl rfl le_rfl (fun _ => rfl) fun _ hu => hu)

/-! ### The steps of a reader -/

/-- A reader changes its own variables. -/
theorem Inv.own (h : Inv s) (hloc : s'.loc = Function.update s.loc t l) (hidx : s'.rcuIdx = s.rcuIdx)
    (hlk : s'.rcuGpLock = s.rcuGpLock) (hok : s'.sec.Ok)
    (hd : ∀ v, v ≠ t → s'.sec.depth v = s.sec.depth v ∧ s'.rcuNesting v = s.rcuNesting v ∧
      s'.rcuReadIdx v = s.rcuReadIdx v ∧ s'.rcuRefcnt v = s.rcuRefcnt v)
    (hp : ∀ v u, s'.sec.pre v u = true → s.sec.pre v u = true)
    (hr : 0 < s.sec.depth t → s'.rcuReadIdx t = s.rcuReadIdx t)
    (hcount : ∀ i, s'.rcuRefcnt t i = if 0 < s'.sec.depth t ∧ s'.rcuReadIdx t = i then 1 else 0)
    (ht : (s.loc t).holding = false) (hh : l.holding = false) (ho : l.oldctr = none)
    (hl : At s' t l) : Inv s' := by
  refine h.move hloc hok hd (fun v u _ => hp v u) hidx.ge (.inl hidx) hcount ?_ ?_ hl
  · rw [hlk]
    exact h.lock.stay hloc (hh.trans ht.symm)
  · refine h.flips.move hloc hidx (.inl ho) (fun v u o _ hu => ⟨hp v u hu, ?_⟩) (fun u o k b v hl => ?_) hok
    · by_cases hut : u = t
      · subst hut
        exact hr (h.ok v u (hp v u hu))
      · exact (hd u hut).2.2.1
    · rw [hl] at ht
      cases ht

/-- A reader goes on to `l`, and nothing else changes. -/
theorem Inv.walk (h : Inv s) (hl : At s t l) (ht : (s.loc t).holding = false)
    (hh : l.holding = false) (ho : l.oldctr = none) : Inv (s.goto t l) :=
  h.own rfl rfl rfl h.ok (fun _ _ => ⟨rfl, rfl, rfl, rfl⟩) (fun _ _ hu => hu) (fun _ => rfl) (h.count t)
    ht hh ho (hl.frame rfl rfl rfl rfl le_rfl (fun _ => rfl) fun _ hu => hu)

/-- `inv_step` for the steps of `rcu_read_lock`. -/
theorem inv_lock (h : Inv s) (hn : stepThread t s = some s')
    (hl : s.loc t = .lockNest ∨ s.loc t = .lockIdx ∨ (∃ i, s.loc t = .lockSet i) ∨
      (∃ i v, s.loc t = .lockInc i v) ∨ ∃ m, s.loc t = .lockDone m) : Inv s' := by
  have ha := h.loc t
  unfold stepThread at hn
  rcases hl with hl | hl | ⟨i, hl⟩ | ⟨i, v, hl⟩ | ⟨m, hl⟩ <;> rw [hl] at hn ha <;> dsimp only at hn
  · have ha : s.rcuNesting t = s.sec.depth t := ha
    split at hn <;> rename_i h0 <;> cases hn
    · exact h.walk ⟨h0, by omega⟩ (by rw [hl]; rfl) rfl rfl
    · refine h.walk ⟨rfl, by omega, ?_⟩ (by rw [hl]; rfl) rfl rfl
      rw [if_neg h0]
      exact ha.symm
  · cases hn
    exact h.walk ha (by rw [hl]; rfl) rfl rfl
  · cases hn
    obtain ⟨hnest, hd⟩ := ha
    refine h.own rfl rfl rfl h.ok (fun v hv => ⟨rfl, rfl, Function.update_of_ne hv .., rfl⟩)
      (fun _ _ hu => hu) (fun hp => by omega) (fun j => ?_) (by rw [hl]; rfl) rfl rfl
      ⟨hnest, hd, Function.update_self .., rfl⟩
    show s.rcuRefcnt t j = _
    rw [h.count, if_neg (by omega), if_neg (by show ¬ (0 < s.sec.depth t ∧ _); omega)]
  · cases hn
    obtain ⟨hnest, hd, hi, rfl⟩ := ha
    have hd' : (s.sec.enter t).depth t = 1 := by rw [Sections.enter_depth, hd]
    refine h.own rfl rfl rfl (h.ok.enter t)
      (fun v hv => ⟨Sections.enter_depth_ne hv, rfl, rfl, Function.update_of_ne hv ..⟩)
      (fun _ _ hu => hu) (fun _ => rfl) (fun j => ?_) (by rw [hl]; rfl) rfl rfl
      ⟨rfl, by show 0 < (s.sec.enter t).depth t; omega, ?_⟩
    · show Function.update s.rcuRefcnt t (Function.update (s.rcuRefcnt t) i _) t j =
        if 0 < (s.sec.enter t).depth t ∧ s.rcuReadIdx t = j then 1 else 0
      rw [Function.update_self, hd', hi]
      by_cases hj : j = i
      · rw [hj, Function.update_self, h.count, if_neg (by omega), if_pos ⟨by omega, rfl⟩]
        rfl
      · rw [Function.update_of_ne hj, h.count, if_neg (by omega), if_neg fun hc => hj hc.2.symm]
    · rw [if_pos hnest]
      exact congrArg Nat.cast hd'
  · cases hn
    obtain ⟨hnest, hpos, hd⟩ := ha
    by_cases hm : m = 0
    · subst hm
      rw [if_pos rfl] at hd
      refine h.own rfl rfl rfl (by rw [if_pos rfl]; exact h.ok)
        (fun v hv => ⟨by rw [if_pos rfl]; rfl, Function.update_of_ne hv .., rfl, rfl⟩)
        (fun v u hu => by rw [if_pos rfl] at hu; exact hu) (fun _ => rfl)
        (fun i => by rw [if_pos rfl]; exact h.count t i) (by rw [hl]; rfl) rfl rfl ?_
      show Function.update s.rcuNesting t (0 + 1) t = ((if (0 : ℤ) = 0 then s.sec else s.sec.enter t).depth t : ℤ)
      rw [Function.update_self, if_pos rfl, hd]
      rfl
    · rw [if_neg hm] at hd
      refine h.own rfl rfl rfl (by rw [if_neg hm]; exact h.ok.enter t)
        (fun v hv => ⟨by rw [if_neg hm]; exact Sections.enter_depth_ne hv, Function.update_of_ne hv .., rfl, rfl⟩)
        (fun v u hu => by rw [if_neg hm] at hu; exact hu) (fun _ => rfl) (fun i => ?_) (by rw [hl]; rfl)
        rfl rfl ?_
      · rw [if_neg hm]
        show s.rcuRefcnt t i = if 0 < (s.sec.enter t).depth t ∧ s.rcuReadIdx t = i then 1 else 0
        rw [h.count, Sections.enter_depth]
        simp [hpos]
      · show Function.update s.rcuNesting t (m + 1) t = ((if m = 0 then s.sec else s.sec.enter t).depth t : ℤ)
        rw [Function.update_self, if_neg hm, Sections.enter_depth, Nat.cast_succ, hd]

/-- `inv_step` for the steps of `rcu_read_unlock`. -/
theorem inv_unlock (h : Inv s) (hn : stepThread t s = some s')
    (hl : s.loc t = .unlockNest ∨ s.loc t = .unlockIdx ∨ (∃ i v, s.loc t = .unlockDec i v) ∨
      ∃ m, s.loc t = .unlockDone m) : Inv s' := by
  have ha := h.loc t
  unfold stepThread at hn
  rcases hl with hl | hl | ⟨i, v, hl⟩ | ⟨m, hl⟩ <;> rw [hl] at hn ha <;> dsimp only at hn
  · obtain ⟨hnest, hpos⟩ := ha
    split at hn <;> rename_i h1 <;> cases hn
    · exact h.walk ⟨h1, by omega⟩ (by rw [hl]; rfl) rfl rfl
    · refine h.walk ⟨rfl, ?_⟩ (by rw [hl]; rfl) rfl rfl
      rw [if_neg h1]
      exact ⟨hnest.symm, by omega⟩
  · cases hn
    exact h.walk ⟨ha.1, ha.2, rfl, rfl⟩ (by rw [hl]; rfl) rfl rfl
  · cases hn
    obtain ⟨hnest, hd, hi, rfl⟩ := ha
    have hd' : (s.sec.leave t).depth t = 0 := by rw [Sections.leave_depth, hd]
    refine h.own rfl rfl rfl (h.ok.leave t)
      (fun v hv => ⟨Sections.leave_depth_ne hv, rfl, rfl, Function.update_of_ne hv ..⟩)
      (fun _ _ hu => (Sections.pre_of_leave hu).1) (fun _ => rfl) (fun j => ?_) (by rw [hl]; rfl) rfl rfl
      ⟨rfl, by rw [if_pos hnest]; exact hd'⟩
    show Function.update s.rcuRefcnt t (Function.update (s.rcuRefcnt t) i _) t j =
      if 0 < (s.sec.leave t).depth t ∧ s.rcuReadIdx t = j then 1 else 0
    rw [Function.update_self, hd', if_neg (by omega)]
    by_cases hj : j = i
    · rw [hj, Function.update_self, h.count, if_pos ⟨by omega, hi⟩]
      rfl
    · rw [Function.update_of_ne hj, h.count, if_neg fun hc => hj (hc.2.symm.trans hi)]
  · cases hn
    obtain ⟨hnest, hd⟩ := ha
    by_cases hm : m = 1
    · subst hm
      rw [if_pos rfl] at hd
      refine h.own rfl rfl rfl (by rw [if_pos rfl]; exact h.ok)
        (fun v hv => ⟨by rw [if_pos rfl]; rfl, Function.update_of_ne hv .., rfl, rfl⟩)
        (fun v u hu => by rw [if_pos rfl] at hu; exact hu) (fun _ => rfl)
        (fun i => by rw [if_pos rfl]; exact h.count t i) (by rw [hl]; rfl) rfl rfl ?_
      show Function.update s.rcuNesting t (1 - 1) t = ((if (1 : ℤ) = 1 then s.sec else s.sec.leave t).depth t : ℤ)
      rw [Function.update_self, if_pos rfl, hd]
      rfl
    · rw [if_neg hm] at hd
      refine h.own rfl rfl rfl (by rw [if_neg hm]; exact h.ok.leave t)
        (fun v hv => ⟨by rw [if_neg hm]; exact Sections.leave_depth_ne hv, Function.update_of_ne hv .., rfl, rfl⟩)
        (fun v u hu => by rw [if_neg hm] at hu; exact (Sections.pre_of_leave hu).1) (fun _ => rfl)
        (fun i => ?_) (by rw [hl]; rfl) rfl rfl ?_
      · rw [if_neg hm]
        show s.rcuRefcnt t i = if 0 < (s.sec.leave t).depth t ∧ s.rcuReadIdx t = i then 1 else 0
        rw [h.count, Sections.leave_depth]
        have h1 : 0 < s.sec.depth t := by omega
        have h2 : 0 < s.sec.depth t - 1 := by omega
        simp only [h1, h2]
      · show Function.update s.rcuNesting t (m - 1) t = ((if m = 1 then s.sec else s.sec.leave t).depth t : ℤ)
        rw [Function.update_self, if_neg hm, Sections.leave_depth]
        omega

/-! ### The steps of `synchronize_rcu` -/

theorem flipped_cases : (flipped o c b : Loc n) = .syncUnlock o ∧ (b = true ∨ o + 2 ≤ c) ∨
    (flipped o c b : Loc n) = .flip o (c + 1) true ∧ c < o + 2 := by
  unfold flipped
  cases b with
  | true => exact .inl ⟨rfl, .inl rfl⟩
  | false =>
    rw [if_neg Bool.false_ne_true]
    split
    · exact .inr ⟨rfl, by omega⟩
    · exact .inl ⟨rfl, .inr (by omega)⟩

/-- The scan goes on, or a flip is through. -/
theorem at_scanFrom (hn : s.rcuNesting t = s.sec.depth t) (hc : c + 1 = s.rcuIdx) (ho : o ≤ c)
    (hb : b = true → o < c) : At s t (scanFrom o c b i) ∧ (scanFrom o c b i : Loc n).holding = true ∧
      (scanFrom o c b i : Loc n).oldctr = some o := by
  refine scan_rec (P := fun l => At s t l ∧ l.holding = true ∧ l.oldctr = some o)
    (fun v _ => ⟨⟨hn, hc, ho, hb⟩, rfl, rfl⟩) fun _ => ?_
  rcases flipped_cases (n := n) (o := o) (c := c) (b := b) with ⟨he, h⟩ | ⟨he, h⟩ <;> rw [he]
  · refine ⟨⟨hn, ?_⟩, rfl, rfl⟩
    rcases h with h | h
    · have := hb h
      omega
    · omega
  · exact ⟨⟨hn, hc, by omega, fun _ => by omega⟩, rfl, rfl⟩

/-- `inv_step` for the steps of `synchronize_rcu`. -/
theorem inv_updater (h : Inv s) (hn : stepThread t s = some s')
    (hl : (s.loc t).oldctr ≠ none ∨ s.loc t = .syncIdx ∨ s.loc t = .syncReturn) : Inv s' := by
  have ha := h.loc t
  unfold stepThread at hn
  cases hloc : s.loc t with
  | syncIdx =>
    rw [hloc] at hn ha
    cases hn
    refine h.move rfl h.ok (fun _ _ => ⟨rfl, rfl, rfl, rfl⟩) (fun _ _ _ hu => hu) le_rfl (.inl rfl)
      (h.count t) (h.lock.stay rfl (by rw [hloc]; rfl)) ?_ ⟨ha, le_rfl⟩
    -- the call that has just begun relies on no flip yet
    intro v o ho u hu k hk hlt hpar
    by_cases hv : v = t
    · subst hv
      rw [show (s.goto v (.syncLock s.rcuIdx)).loc v = .syncLock s.rcuIdx from Function.update_self ..] at ho
      obtain rfl := Option.some.inj ho
      exact absurd hlt (not_lt.mpr hk)
    · rw [show (s.goto t (.syncLock s.rcuIdx)).loc v = s.loc v from Function.update_of_ne hv ..] at ho
      obtain ⟨he, h', o', b, w, hh, hw⟩ := h.flips v o ho u hu k hk hlt hpar
      refine ⟨he, h', o', b, w, ?_, hw⟩
      have hne : h' ≠ t := by
        rintro rfl
        rw [hloc] at hh
        cases hh
      exact (Function.update_of_ne hne ..).trans hh
  | syncLock o =>
    rw [hloc] at hn ha
    dsimp only at hn
    split at hn <;> rename_i hfree <;> cases hn
    have hlock := h.lock
    rw [hfree] at hlock
    exact h.move (l := .syncCtr o) rfl h.ok (fun _ _ => ⟨rfl, rfl, rfl, rfl⟩) (fun _ _ _ hu => hu) le_rfl
      (.inl rfl) (h.count t) (hlock.take rfl rfl)
      (h.flips.move rfl rfl (.inr (by rw [hloc]; rfl)) (fun _ _ _ _ hu => ⟨hu, rfl⟩)
        (fun _ _ _ _ _ hs => by rw [hloc] at hs; cases hs) h.ok) ha
  | syncCtr o =>
    rw [hloc] at hn ha
    dsimp only at hn
    split at hn <;> rename_i hge <;> cases hn
    · exact h.goto ⟨ha.1, by omega⟩ (by rw [hloc]; rfl) (.inr (by rw [hloc]; rfl))
        fun _ _ _ _ _ hs => by rw [hloc] at hs; cases hs
    · exact h.goto ⟨ha.1, rfl, ha.2, fun hb => nomatch hb⟩ (by rw [hloc]; rfl) (.inr (by rw [hloc]; rfl))
        fun _ _ _ _ _ hs => by rw [hloc] at hs; cases hs
  | flip o c b =>
    rw [hloc] at hn ha
    cases hn
    obtain ⟨hnest, rfl, ho, hb⟩ := ha
    obtain ⟨hat, hh, hold⟩ := at_scanFrom (s := { s with rcuIdx := s.rcuIdx + 1 }.goto t
      (scanFrom o s.rcuIdx b 0)) (t := t) (i := 0) hnest rfl ho hb
    refine h.move rfl h.ok (fun _ _ => ⟨rfl, rfl, rfl, rfl⟩) (fun _ _ _ hu => hu) (Nat.le_succ _)
      (.inr (by rw [hloc]; rfl)) (h.count t) (h.lock.stay rfl (by rw [hloc]; exact hh)) ?_ hat
    intro v o' ho' u hu k hk hlt hpar
    have ho' : (s.loc v).oldctr = some o' := by
      change (Function.update s.loc t _ v).oldctr = some o' at ho'
      by_cases hv : v = t
      · rw [hv, Function.update_self, hold] at ho'
        rw [hv, hloc]
        exact ho'
      · rwa [Function.update_of_ne hv] at ho'
    rcases Nat.lt_succ_iff_lt_or_eq.mp hlt with hlt | rfl
    · -- nobody else is at an earlier flip
      obtain ⟨-, h', o₁, b₁, w, hh', -⟩ := h.flips v o' ho' u hu k hk hlt hpar
      have heq := h.lock.eq (t := t) (u := h') (by rw [hloc]; rfl) (by rw [hh']; rfl)
      rw [heq, hloc] at hh'
      cases hh'
    · have hpos : 0 < n := Nat.lt_of_le_of_lt (Nat.zero_le _) u.isLt
      exact ⟨rfl, t, o, b, ⟨0, hpos⟩, (Function.update_self ..).trans (dif_pos hpos), Nat.zero_le _⟩
  | scan o c b v =>
    rw [hloc] at hn ha
    dsimp only at hn
    split at hn <;> rename_i hz <;> cases hn
    · exact h
    · obtain ⟨hnest, hc, ho, hb⟩ := ha
      obtain ⟨hat, hh, hold⟩ := at_scanFrom (s := s) (t := t) (i := v + 1) hnest hc ho hb
      refine h.goto hat (by rw [hloc]; exact hh) (.inr (by rw [hloc]; exact hold)) ?_
      intro u o' k b' w hs hle hpos hpar
      rw [hloc] at hs
      obtain ⟨rfl, rfl, rfl, rfl⟩ := Loc.scan.inj hs
      -- the thread that is passed is in no section of this index
      have hne : u.val ≠ v.val := fun heq => by
        obtain rfl := Fin.ext heq
        refine hz fun h0 => ?_
        rw [h.count, if_pos ⟨hpos, hpar.symm⟩] at h0
        exact absurd h0 one_ne_zero
      have hlt := u.isLt
      have hlt' : v.val + 1 < n := by omega
      exact ⟨o, b, ⟨v + 1, hlt'⟩, dif_pos hlt', by show v.val + 1 ≤ u.val; omega⟩
  | syncUnlock o =>
    rw [hloc] at hn ha
    cases hn
    exact h.move (l := .syncReturn) rfl h.ok (fun _ _ => ⟨rfl, rfl, rfl, rfl⟩) (fun _ _ _ hu => hu) le_rfl
      (.inl rfl) (h.count t) (h.lock.drop rfl (by rw [hloc]; rfl) rfl)
      (h.flips.move rfl rfl (.inl rfl) (fun _ _ _ _ hu => ⟨hu, rfl⟩)
        (fun _ _ _ _ _ hs => by rw [hloc] at hs; cases hs) h.ok)
      ⟨ha.1, h.flips.waited h.lock hloc ha.2⟩
  | syncReturn =>
    rw [hloc] at hn ha
    cases hn
    exact h.goto ha.1 (by rw [hloc]; rfl) (.inl rfl) fun _ _ _ _ _ hs => by rw [hloc] at hs; cases hs
  | _ => simp [hloc, Loc.oldctr] at hl

/-- **The step lemma.** -/
theorem inv_step {a : Act n} (h : Inv s) (hn : next a s = some s') : Inv s' := by
  cases a with
  | rcuReadLock t =>
    simp only [next] at hn
    split at hn <;> rename_i hc <;> cases hn
    have ha := h.loc t
    rw [hc] at ha
    exact h.walk ha (by rw [hc]; rfl) rfl rfl
  | rcuReadUnlock t =>
    simp only [next] at hn
    split at hn <;> rename_i hc <;> cases hn
    have ha := h.loc t
    rw [hc.1] at ha
    exact h.walk ⟨ha, hc.2⟩ (by rw [hc.1]; rfl) rfl rfl
  | synchronizeRcu t =>
    simp only [next] at hn
    split at hn <;> rename_i hc <;> cases hn
    have ha := h.loc t
    rw [hc] at ha
    have hp : ∀ v u, v ≠ t → (s.sec.observe t).pre v u = true → s.sec.pre v u = true :=
      fun v u hv hu => by rwa [← Sections.observe_pre_ne hv]
    refine h.move (l := .syncIdx) rfl (h.ok.observe t) (fun _ _ => ⟨rfl, rfl, rfl, rfl⟩) hp le_rfl (.inl rfl)
      (h.count t) (h.lock.stay rfl (by rw [hc]; rfl)) ?_ ha
    refine h.flips.move (l := .syncIdx) rfl rfl (.inl rfl) (fun v u o ho hu => ⟨hp v u ?_ hu, rfl⟩)
      (fun _ _ _ _ _ hs => by rw [hc] at hs; cases hs) (h.ok.observe t)
    rintro rfl
    change (Function.update s.loc v (.syncIdx : Loc n) v).oldctr = some o at ho
    rw [Function.update_self] at ho
    cases ho
  | step t =>
    have hn' : stepThread t s = some s' := hn
    cases hloc : s.loc t with
    | idle =>
      unfold stepThread at hn'
      rw [hloc] at hn'
      cases hn'
    | lockNest => exact inv_lock h hn (.inl hloc)
    | lockIdx => exact inv_lock h hn (.inr (.inl hloc))
    | lockSet i => exact inv_lock h hn (.inr (.inr (.inl ⟨i, hloc⟩)))
    | lockInc i v => exact inv_lock h hn (.inr (.inr (.inr (.inl ⟨i, v, hloc⟩))))
    | lockDone m => exact inv_lock h hn (.inr (.inr (.inr (.inr ⟨m, hloc⟩))))
    | unlockNest => exact inv_unlock h hn (.inl hloc)
    | unlockIdx => exact inv_unlock h hn (.inr (.inl hloc))
    | unlockDec i v => exact inv_unlock h hn (.inr (.inr (.inl ⟨i, v, hloc⟩)))
    | unlockDone m => exact inv_unlock h hn (.inr (.inr (.inr ⟨m, hloc⟩)))
    | syncIdx => exact inv_updater h hn (.inr (.inl hloc))
    | syncReturn => exact inv_updater h hn (.inr (.inr hloc))
    | _ => exact inv_updater h hn (.inl (by simp [hloc, Loc.oldctr]))

theorem inv_init (h : Init s) : Inv s where
  ok t u hp := by simp [h.sec] at hp
  count u i := by simp [h.sec, h.refcnt]
  lock t := by simp [h.lock, h.loc t, Loc.holding]
  flips t o ho := by
    rw [h.loc t] at ho
    cases ho
  loc t := by
    rw [h.loc t]
    show s.rcuNesting t = s.sec.depth t
    rw [h.nesting, h.sec]
    rfl

/-- **The grace-period guarantee, with grace periods of others counted in.** -/
theorem rcpls_grace_period (h : (sys n).Reach Sys.always s) : GracePeriod s ∧ Counts s := by
  have hi := h.inv (fun _ => inv_init) fun _ _ _ hi _ hn => inv_step hi hn
  constructor
  · intro t ht
    have := hi.loc t
    rw [ht] at this
    exact this.2
  · intro t i
    rw [hi.count]
    split <;> rename_i hc
    · exact ⟨by omega, iff_of_true (by omega) hc⟩
    · exact ⟨by omega, iff_of_false (by omega) hc⟩

/-! ### A run -/

/-- `rcu_init`, three threads. -/
def start : St 3 where
  rcuIdx := 0
  rcuRefcnt _ _ := 0
  rcuNesting _ := 0
  rcuReadIdx _ := 0
  rcuGpLock := none
  loc _ := .idle
  sec := ⟨fun _ => 0, fun _ _ => false⟩

theorem start_init : Init start := ⟨rfl, fun _ _ => rfl, fun _ => rfl, rfl, fun _ => rfl, rfl⟩

/-- Thread 2 takes its snapshot; thread 1 runs `synchronize_rcu` twice, and
thread 2 returns without a flip. A reader comes and goes meanwhile. -/
def shared : List (Act 3) :=
  [.synchronizeRcu 2, .step 2, .synchronizeRcu 1] ++ List.replicate 13 (.step 1) ++ [.rcuReadLock 0] ++
    List.replicate 5 (.step 0) ++ [.rcuReadUnlock 0] ++ List.replicate 4 (.step 0) ++
    [.synchronizeRcu 1] ++ List.replicate 13 (.step 1) ++ List.replicate 3 (.step 2)

theorem rcpls_grace_period_shared : ∃ s, (sys 3).Reach Sys.always s ∧ s.loc 2 = .syncReturn ∧
    s.rcuIdx = 4 ∧ GracePeriod s ∧ Counts s := by
  have hrun : ((sys 3).run Sys.always shared start).map (fun s => (s.loc 2, s.rcuIdx)) =
      some (.syncReturn, 4) := by
    decide
  obtain ⟨s, hs, hd⟩ := Option.map_eq_some_iff.mp hrun
  obtain ⟨hl, hi⟩ := Prod.mk.inj hd
  have hr := Sys.run_reach (.init start_init) hs
  exact ⟨s, hr, hl, hi, rcpls_grace_period hr⟩

end Rcpls
end Rcu
end Perfbook
