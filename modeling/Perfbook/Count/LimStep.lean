/-
# Every step of `count_lim` and `count_lim_app` keeps the books

Case by case: the fast path, which changes the number counted in the thread's
own part; the mutex; `globalize_count`; the change in the global part;
`balance_count`; and `read_count`.

Key theorems: `inv_stepThread`, `inv_next`, `inv_init`.
-/
import Perfbook.Conc.Lock
import Perfbook.Count.LimInv

namespace Perfbook
namespace Count
namespace Lim

open Books Conc

variable {n : ℕ} {file : File} {cfg : Config} {s s' : St n} {t u : Fin n} {l : Loc n} {k : Kind}
  {delta x y r : ℕ}

/-! ### Arithmetic that fits -/

theorem seeAdd_eq {a b : ℕ} (h : a + b < 2 ^ cfg.w) : s.seeAdd cfg a b = s := by
  rw [St.seeAdd, decide_eq_false (by omega), Bool.or_false]

theorem seeSub_eq {a b : ℕ} (h : b ≤ a) : s.seeSub a b = s := by
  rw [St.seeSub, decide_eq_false (by omega), Bool.or_false]

theorem seeRoom_eq (h : s.globalcount + s.globalreserve ≤ cfg.globalcountmax) :
    s.seeRoom cfg = s := by
  have h1 : cfg.usub cfg.globalcountmax s.globalcount = cfg.globalcountmax - s.globalcount :=
    usub_of_le (by omega)
  rw [St.seeRoom, seeSub_eq (by omega), seeSub_eq (by omega)]

theorem seeLacks_eq (h : s.globalcount + s.globalreserve ≤ cfg.globalcountmax) :
    s.seeLacks cfg k = s := by
  cases k with
  | add => exact seeRoom_eq h
  | sub => rfl

theorem addCount_eq (h : s.globalcount + x < 2 ^ cfg.w) :
    s.addCount cfg x = { s with globalcount := s.globalcount + x } := by
  rw [St.addCount, seeAdd_eq h, uadd_of_lt h]

theorem subCount_eq (h : x ≤ s.globalcount) :
    s.subCount cfg x = { s with globalcount := s.globalcount - x } := by
  rw [St.subCount, seeSub_eq h, usub_of_le h]

theorem addReserve_eq (h : s.globalreserve + x < 2 ^ cfg.w) :
    s.addReserve cfg x = { s with globalreserve := s.globalreserve + x } := by
  rw [St.addReserve, seeAdd_eq h, uadd_of_lt h]

theorem subReserve_eq (h : x ≤ s.globalreserve) :
    s.subReserve cfg x = { s with globalreserve := s.globalreserve - x } := by
  rw [St.subReserve, seeSub_eq h, usub_of_le h]

/-! ### The fast path -/

/-- Outside the mutex a thread has its whole part and allowance. -/
theorem Inv.counter_le (hi : Inv file cfg s) (hh : (s.loc t).holds = false) :
    s.counter t ≤ s.countermax t := by
  have hx := Loc.plain_of_not_holds hh
  have h := hi.balanced.high t
  rw [St.books] at h
  dsimp only at h
  rw [hx.part, hx.allowance] at h
  exact Int.ofNat_le.mp h

theorem inv_fastPath (hi : Inv file cfg s) (hl : s.loc t = .fast k delta) :
    Inv file cfg (St.record t s (fastPath cfg t delta s k)) := by
  have hp := hi.loc t
  rw [hl] at hp
  have hh : (s.loc t).holds = false := by rw [hl]; rfl
  have hle := hi.counter_le hh
  cases k with
  | add =>
    rw [fastPath, seeSub_eq hle, usub_of_le hle]
    split
    · refine hi.outside hh rfl rfl rfl rfl rfl rfl rfl rfl (fun _ _ => Calls.Own.refl) rfl rfl
        hi.noWrap (hi.returned t) ⟨hp, ?_⟩
      show s.counter t + delta ≤ s.countermax t
      omega
    · exact hi.outside hh rfl rfl rfl rfl rfl rfl rfl rfl (fun _ _ => Calls.Own.refl) rfl rfl
        hi.noWrap (hi.returned t) hp
  | sub =>
    rw [fastPath]
    split
    · exact hi.outside hh rfl rfl rfl rfl rfl rfl rfl rfl (fun _ _ => Calls.Own.refl) rfl rfl
        hi.noWrap (hi.returned t) ⟨hp, ‹_›⟩
    · exact hi.outside hh rfl rfl rfl rfl rfl rfl rfl rfl (fun _ _ => Calls.Own.refl) rfl rfl
        hi.noWrap (hi.returned t) hp

/-- The `WRITE_ONCE` of the fast path: the change is made in the thread's own part. -/
theorem inv_store (hi : Inv file cfg s) (hl : s.loc t = .store k delta) (hp : s.Pending t k delta)
    (hx : (x : ℤ) = s.counter t + k.change delta) (hle : x ≤ s.countermax t) :
    Inv file cfg (St.record t s ((s.setCounter t x).return_ t 1)) := by
  have hh : (s.loc t).holds = false := by rw [hl]; rfl
  set s₀ := (s.setCounter t x).return_ t 1 with hs₀
  have hloc : s₀.loc = Function.update s.loc t .idle := rfl
  have hcm : s₀.countermax = Function.update s.countermax t (s.countermax t) :=
    (Function.update_eq_self ..).symm
  have howed : s₀.owed = s.owed := owed_of_other hi hh rfl hloc rfl
  have hplain := Loc.plain_of_not_holds hh
  have hcap := hi.capped t hplain.computes
  have hb : s₀.books = s.books.post t x (s.countermax t) s.books.count s.books.reserve := by
    rw [books_post hloc rfl hcm, howed]
    rfl
  have htotal : s₀.total = s.total + k.change delta := by
    rw [total_post_eq hloc rfl hcm, hplain.part]
    show s.total + ((x : ℤ) - s.counter t) + (s.globalcount - s.globalcount) = _
    omega
  refine hi.of_step hloc (lock_keep hi rfl hloc (by rw [hl]; rfl)) ?_ (fun _ => hcap)
    hi.noWrap (fun h => absurd (h.symm.trans hp.2.2.2) nofun)
    (own_record (own_of_update rfl hcm (fun u hu => Calls.Own.answer hu) (fun _ _ => rfl)
      fun _ _ => rfl)) (.inr ⟨rfl, rfl, rfl⟩) trivial (fun r hr => ?_) (hi.value t)
  · show Balanced _ _ s₀.books
    rw [hb]
    refine hi.balanced.post (Int.natCast_nonneg _) (Int.ofNat_le.mpr hle) (Int.ofNat_le.mpr hcap)
      ?_ hi.balanced.count hi.balanced.limit
    show s.books.reserve = s.books.reserve + ((s.countermax t : ℤ) - (s.loc t).allowance _)
    rw [hplain.allowance]
    simp
  · have hr' : Function.update s.ret t (some 1) t = some r := hr
    rw [Function.update_self] at hr'
    obtain rfl := Option.some.inj hr'
    exact ⟨k, delta, hp.1, .inl ⟨rfl, record_change htotal hp.2.1⟩⟩

/-! ### The mutex -/

theorem inv_lock (hi : Inv file cfg s) (hh : (s.loc t).holds = false) (hm : s.mutex = none)
    (hh' : l.holds = true) (hplain' : l.Plain)
    (hl : LocInv file cfg ({ s with mutex := some t }.goto t l) t l) :
    Inv file cfg (St.record t s ({ s with mutex := some t }.goto t l)) := by
  set s₀ := { s with mutex := some t }.goto t l with hs₀
  have hloc : s₀.loc = Function.update s.loc t l := rfl
  have hplain := Loc.plain_of_not_holds hh
  have ho : s₀.owed = s.owed := by
    rw [owed_of_holder (s := s₀) (t := t) rfl, hloc, Function.update_self, hplain'.owed,
      owed_of_free hm]
  have hb : s₀.books = s.books := books_plain hplain hplain' hloc rfl rfl rfl rfl ho
  rw [record_same (by rw [St.total, hb, St.total])]
  have hfree : LockedBy Loc.holds none s.loc := hm ▸ hi.lock
  exact hi.of_step hloc (hfree.take hloc hh') (hb ▸ hi.balanced) (fun _ => hi.capped t hplain.computes)
    hi.noWrap (hi.unregistered t)
    (fun _ _ => ⟨Calls.Own.refl, rfl, rfl, rfl, rfl⟩) (.inr ⟨rfl, rfl, rfl⟩) hl (hi.returned t)
    (hi.value t)

theorem inv_unlock (hi : Inv file cfg s) (hh : (s.loc t).holds = true) (hplain : (s.loc t).Plain)
    (hm : s'.mutex = none) (hloc : s'.loc = Function.update s.loc t .idle)
    (hc : s'.counter = s.counter) (hcm : s'.countermax = s.countermax)
    (hp : s'.counterp = s.counterp) (hg : s'.globalcount = s.globalcount)
    (hr : s'.globalreserve = s.globalreserve)
    (hown : ∀ u, u ≠ t → Own u s s') (hwrap : s'.wrapped = false)
    (hret : ∀ r, s'.ret t = some r → Settled file cfg s' t r)
    (hv : ∀ v, s'.value t = some v → v ≤ cfg.globalcountmax) :
    Inv file cfg (St.record t s s') := by
  have ho : s'.owed = s.owed := by
    rw [owed_of_free hm, owed_of_holder (hi.mutex_eq hh), hplain.owed]
  have hb := books_plain hplain (Loc.plain_of_not_holds rfl) hloc hc hcm hg hr ho
  rw [record_same (by rw [St.total, hb, St.total])]
  have hlock : LockedBy Loc.holds s.mutex s.loc := hi.lock
  refine hi.of_step hloc (hm ▸ hlock.drop hloc hh rfl) (hb ▸ hi.balanced) (fun _ => ?_) hwrap (fun h => ?_)
    hown (.inl hh) trivial hret hv
  · rw [hcm]
    exact hi.capped t hplain.computes
  · rw [hc, hcm]
    exact hi.unregistered t (hp ▸ h)

/-! ### The holder of the mutex -/

/-- Where the holder has nothing on its way, nobody has. -/
theorem Inv.plain_all (hi : Inv file cfg s) (hh : (s.loc t).holds = true)
    (hplain : (s.loc t).Plain) (u : Fin n) : (s.loc u).Plain := by
  by_cases hu : u = t
  · exact hu ▸ hplain
  · refine Loc.plain_of_not_holds (Bool.eq_false_iff.mpr fun h => hu ?_)
    exact Option.some.inj ((hi.mutex_eq h).symm.trans (hi.mutex_eq hh))

theorem Inv.books_eq (hi : Inv file cfg s) (hh : (s.loc t).holds = true)
    (hplain : (s.loc t).Plain) : s.books =
      ⟨s.globalcount, s.globalreserve, fun u => s.counter u, fun u => s.countermax u⟩ := by
  rw [St.books, owed_of_holder (hi.mutex_eq hh), hplain.owed, Nat.cast_zero, sub_zero]
  congr 1
  · funext u
    rw [(hi.plain_all hh hplain u).part, id]
  · funext u
    rw [(hi.plain_all hh hplain u).allowance, id]

/-- With nothing on the way, the numbers themselves are balanced. -/
theorem Inv.plain_bounds (hi : Inv file cfg s) (hh : (s.loc t).holds = true)
    (hplain : (s.loc t).Plain) : s.total = s.globalcount + ∑ u, (s.counter u : ℤ) ∧
      (∀ u, s.counter u ≤ s.countermax u) ∧ ∑ u, s.countermax u = s.globalreserve ∧
      s.globalcount + s.globalreserve ≤ cfg.globalcountmax := by
  have hb := hi.balanced
  have ht : s.total = s.books.total := rfl
  rw [hi.books_eq hh hplain] at hb ht
  have hreserve : ∑ u, (s.countermax u : ℤ) = s.globalreserve := hb.reserve
  have hlimit : (s.globalcount : ℤ) + s.globalreserve ≤ cfg.globalcountmax := hb.limit
  exact ⟨ht, fun u => Int.ofNat_le.mp (hb.high u), by exact_mod_cast hreserve,
    by exact_mod_cast hlimit⟩

/-- A change that the slow path refuses does not fit with what the others have reserved. -/
theorem Inv.exceeds_of_lacks (hi : Inv file cfg s) (hl : s.loc t = .test k delta)
    (hk : cfg.lacks s.globalcount s.globalreserve k delta = true) :
    k.exceeds cfg.globalcountmax (delta + ∑ u with u ≠ t, s.countermax u) s.total := by
  have hp := hi.loc t
  rw [hl] at hp
  obtain ⟨htotal, hle, hres, hlimit⟩ := hi.plain_bounds (by rw [hl]; rfl) (by rw [hl]; exact
    ⟨rfl, rfl, rfl, rfl⟩)
  have hothers : ∑ u with u ≠ t, s.countermax u = s.globalreserve := by
    rw [← hres]
    refine Finset.sum_filter_of_ne fun u _ hu => ?_
    rintro rfl
    exact hu hp.2.2
  have hsum : ∑ u, (s.counter u : ℤ) ≤ s.globalreserve := by
    rw [← hres]
    push_cast
    exact Finset.sum_le_sum fun u _ => Int.ofNat_le.mpr (hle u)
  have hsum0 : 0 ≤ ∑ u, (s.counter u : ℤ) := Finset.sum_nonneg fun u _ => Int.natCast_nonneg _
  rw [hothers]
  cases k with
  | add =>
    rw [Config.lacks, room_eq hlimit, decide_eq_true_iff] at hk
    rw [Kind.exceeds]
    push_cast
    omega
  | sub =>
    rw [Config.lacks, decide_eq_true_iff] at hk
    rw [Kind.exceeds]
    push_cast
    omega

theorem inv_test (hi : Inv file cfg s) (hl : s.loc t = .test k delta) :
    Inv file cfg (St.record t s (((s.seeLacks cfg k).noteTest t).goto t
      (if cfg.lacks s.globalcount s.globalreserve k delta then .unlock (some 0)
      else .apply k delta))) := by
  have hh : (s.loc t).holds = true := by rw [hl]; rfl
  have hplain : (s.loc t).Plain := by rw [hl]; exact ⟨rfl, rfl, rfl, rfl⟩
  obtain ⟨htotal, hle, hres, hlimit⟩ := hi.plain_bounds hh hplain
  have hex := hi.exceeds_of_lacks hl
  have hp := hi.loc t
  rw [hl] at hp
  rw [seeLacks_eq hlimit]
  split
  · rename_i hk
    refine hi.same hh rfl hplain ⟨rfl, rfl, rfl, rfl⟩ rfl rfl rfl rfl rfl rfl (hi.unregistered t)
      (fun u hu => Calls.Own.note hu) (fun u hu => Function.update_of_ne hu _ _) rfl hi.noWrap
      (fun r hr => absurd (hp.1.2.2.1.symm.trans hr) nofun)
      ⟨⟨k, delta, hp.1.1, .inr ⟨rfl, hp.1.2.1, s.total, Function.update_self .., ?_, fun u => ?_⟩⟩,
        hp.1.2.2.1⟩
    · rw [St.others]
      dsimp only [St.goto, St.noteTest]
      rw [Function.update_self]
      exact hex hk
    · dsimp only [St.goto, St.noteTest]
      rw [Function.update_self]
      exact hi.capped u (hi.plain_all hh hplain u).computes
  · rename_i hk
    exact hi.same hh rfl hplain ⟨rfl, rfl, rfl, rfl⟩ rfl rfl rfl rfl rfl rfl (hi.unregistered t)
      (fun u hu => Calls.Own.note hu) (fun u hu => Function.update_of_ne hu _ _) rfl hi.noWrap
      (fun r hr => absurd (hp.1.2.2.1.symm.trans hr) nofun)
      ⟨hp.1, hp.2.1, hp.2.2, granted_of_not_lacks hlimit hk⟩

/-- `globalcount += delta`, or `-= delta`: the change is made in the global part. -/
theorem inv_apply {g : ℕ} (hi : Inv file cfg s) (hl : s.loc t = .apply k delta)
    (hg : (g : ℤ) = s.globalcount + k.change delta)
    (hlimit : g + s.globalreserve ≤ cfg.globalcountmax) :
    Inv file cfg (St.record t s ({ s with globalcount := g }.goto t .balRoom)) := by
  have hh : (s.loc t).holds = true := by rw [hl]; rfl
  have hp := hi.loc t
  rw [hl] at hp
  obtain ⟨hp, h0, h1, -⟩ := hp
  set s₀ := { s with globalcount := g }.goto t .balRoom with hs₀
  have hloc : s₀.loc = Function.update s.loc t .balRoom := rfl
  have hc : s₀.counter = Function.update s.counter t (s.counter t) :=
    (Function.update_eq_self ..).symm
  have hcm : s₀.countermax = Function.update s.countermax t (s.countermax t) :=
    (Function.update_eq_self ..).symm
  have htotal : s₀.total = s.total + k.change delta := by
    rw [total_post_eq hloc hc hcm, hl]
    show s.total + ((s.counter t : ℤ) - s.counter t) + ((g : ℤ) - s.globalcount) = _
    omega
  refine hi.posts hh rfl hloc rfl hc hcm (fun _ _ => Calls.Own.refl) (fun _ _ => rfl) rfl
    (hi.unregistered t) ?_ (fun _ => ?_) ?_ ?_ hi.noWrap
    ⟨⟨k, delta, hp.1, record_change htotal hp.2.1, hp.2.2⟩, h0, h1⟩
    fun r hr => absurd (hp.2.2.1.symm.trans hr) nofun
  · rw [h0, h1]
    exact Nat.zero_le _
  · rw [h1]
    exact Nat.zero_le _
  · rw [hl]
    rfl
  · exact hlimit

/-! ### `read_count` -/

theorem Summed.next {sum i c : ℕ} (h : s.Summed sum i) (hin : i < n)
    (hc : c ≤ s.countermax ⟨i, hin⟩) : s.Summed (sum + c) (i + 1) := by
  have hs := Conc.sum_below_succ s.countermax ⟨i, hin⟩
  rw [St.Summed] at h ⊢
  dsimp only at hs
  omega

/-- What has been added up is within the limit. -/
theorem Summed.le {sum i : ℕ} (h : s.Summed sum i) (hres : ∑ u, s.countermax u = s.globalreserve)
    (hlimit : s.globalcount + s.globalreserve ≤ cfg.globalcountmax) : sum ≤ cfg.globalcountmax := by
  have hle : ∑ u with u.1 < i, s.countermax u ≤ ∑ u, s.countermax u :=
    Finset.sum_le_sum_of_subset (Finset.filter_subset _ _)
  rw [St.Summed] at h
  omega

/-! ### `globalize_count` and `balance_count` -/

theorem inv_globalize {j : Job} (hi : Inv file cfg s) (hn : stepThread file cfg t r s = some s')
    (hl : s.loc t = .globCount j ∨ s.loc t = .globZero j ∨ s.loc t = .globReserve j ∨
      s.loc t = .globZeroMax j) : Inv file cfg (St.record t s s') := by
  have hh : (s.loc t).holds = true := by rcases hl with h | h | h | h <;> rw [h] <;> rfl
  have hb := hi.bounds hh
  have hp := hi.loc t
  have hfits := cfg.fits
  have hunreg := hi.unregistered t
  have hcap := hi.capped t
  have hc0 : s.counter = Function.update s.counter t (s.counter t) :=
    (Function.update_eq_self ..).symm
  have hcm0 : s.countermax = Function.update s.countermax t (s.countermax t) :=
    (Function.update_eq_self ..).symm
  rcases hl with hl | hl | hl | hl
  all_goals
    rw [hl] at hb hp hcap
    simp only [stepThread, hl, Option.some.injEq] at hn
    simp only [Loc.part, Loc.allowance, Loc.owed, id] at hb
  · rw [addCount_eq (by omega)] at hn
    subst hn
    refine hi.holder hh rfl rfl rfl hc0 hcm0 rfl rfl rfl hunreg le_rfl hcap ?_ ?_ ?_ hi.noWrap hp
    · rw [hl]
      rfl
    · rw [hl]
      simp [Loc.owed, Loc.allowance, St.goto]
    · simp only [Loc.owed, St.goto, id]
      omega
  · subst hn
    refine hi.holder hh rfl rfl rfl rfl hcm0 rfl rfl rfl (fun h => ⟨rfl, (hunreg h).2⟩) le_rfl hcap
      ?_ ?_ ?_ hi.noWrap ⟨hp, Function.update_self ..⟩
    · rw [hl]
      rfl
    · rw [hl]
      rfl
    · simp only [Loc.owed, St.goto, St.setCounter, id]
      omega
  · rw [subReserve_eq (by omega)] at hn
    subst hn
    refine hi.holder hh rfl rfl rfl hc0 hcm0 rfl rfl rfl hunreg ?_ hcap ?_ ?_ ?_ hi.noWrap hp
    · exact hp.2.le
    · rw [hl]
      rfl
    · rw [hl]
      simp only [Loc.owed, Loc.allowance, St.goto, id]
      omega
    · simp only [Loc.owed, St.goto]
      omega
  · subst hn
    have hj : (Loc.globalized j : Loc n).Plain := by cases j <;> exact ⟨rfl, rfl, rfl, rfl⟩
    refine hi.holder hh (by cases j <;> rfl) rfl rfl hc0 rfl rfl rfl rfl
      (fun h => ⟨(hunreg h).1, rfl⟩) ?_ (fun _ => Nat.zero_le _) ?_ ?_ ?_ hi.noWrap ?_
    · rw [hj.part, hp.2]
      exact Nat.zero_le _
    · rw [hj.part, hl]
      rfl
    · rw [hj.owed, hj.allowance, hl]
      rfl
    · rw [hj.owed]
      simp only [St.goto, St.setCountermax]
      omega
    · have hz : Function.update s.countermax t 0 t = 0 := Function.update_self ..
      cases j with
      | update k delta => exact ⟨hp.1, hp.2, hz⟩
      | register => exact fun _ => ⟨hp.2, hz⟩
      | unregister => exact fun _ => ⟨hp.2, hz⟩

/-- Handing out a new allowance: up to the reservation. -/
theorem inv_grant (hi : Inv file cfg s) (hn : stepThread file cfg t r s = some s')
    (hl : s.loc t = .balRoom ∨ s.loc t = .balDiv ∨ s.loc t = .balCap ∨ s.loc t = .balReserve) :
    Inv file cfg (St.record t s s') := by
  have hh : (s.loc t).holds = true := by rcases hl with h | h | h | h <;> rw [h] <;> rfl
  have hb := hi.bounds hh
  have hp := hi.loc t
  have hfits := cfg.fits
  have hc0 : s.counter = Function.update s.counter t (s.counter t) :=
    (Function.update_eq_self ..).symm
  have hcm0 : s.countermax = Function.update s.countermax t (s.countermax t) :=
    (Function.update_eq_self ..).symm
  rcases hl with hl | hl | hl | hl
  all_goals
    rw [hl] at hb hp
    simp only [stepThread, hl, Option.some.injEq] at hn
    simp only [Loc.part, Loc.allowance, Loc.owed, id] at hb
    have hreg : s.counterp t = false → ∀ y, s.counter t = 0 ∧ y = 0 := fun h =>
      absurd (h.symm.trans (hp.1.choose_spec.choose_spec.2.2.2)) nofun
  · have hroom : s.room cfg = _ := room_eq (by omega)
    rw [seeRoom_eq (by omega)] at hn
    subst hn
    have hy : Function.update s.countermax t (s.room cfg) t = s.room cfg := Function.update_self ..
    refine hi.holder hh rfl rfl rfl hc0 rfl rfl rfl rfl (fun h => hreg h _) hp.2.1.le nofun ?_ ?_ ?_
      hi.noWrap ⟨hp.1, hp.2.1, ?_⟩
    · rw [hl]
      rfl
    · rw [hl, hp.2.2]
      rfl
    · exact hb.2.1
    · show s.globalcount + s.globalreserve + Function.update s.countermax t (s.room cfg) t ≤ _
      rw [hy]
      omega
  · rw [Option.ite_none_left_eq_some, Option.some.injEq] at hn
    obtain ⟨-, hn⟩ := hn
    subst hn
    have hy : Function.update s.countermax t (s.countermax t / r) t = s.countermax t / r :=
      Function.update_self ..
    have hdiv := Nat.div_le_self (s.countermax t) r
    have hroom := hp.2.2
    have hp' : s.globalcount + s.globalreserve +
        Function.update s.countermax t (s.countermax t / r) t ≤ cfg.globalcountmax := by
      rw [hy]
      omega
    cases file with
    | lim =>
      have hcap : Function.update s.countermax t (s.countermax t / r) t ≤ cfg.globalcountmax := by
        omega
      refine hi.holder (l := .balReserve) hh rfl rfl rfl hc0 rfl rfl rfl rfl (fun h => hreg h _) hp.2.1.le
        (fun _ => hy ▸ hcap) ?_ ?_ hb.2.1 hi.noWrap ⟨hp.1, hp.2.1, hcap, hp'⟩
      · rw [hl]
        rfl
      · rw [hl]
        rfl
    | limApp =>
      refine hi.holder (l := .balCap) hh rfl rfl rfl hc0 rfl rfl rfl rfl (fun h => hreg h _) hp.2.1.le
        nofun ?_ ?_ hb.2.1 hi.noWrap ⟨hp.1, hp.2.1, hp'⟩
      · rw [hl]
        rfl
      · rw [hl]
        rfl
  · subst hn
    have hroom := hp.2.2
    have hy : Function.update s.countermax t (min (s.countermax t) maxCountermax) t =
        min (s.countermax t) maxCountermax := Function.update_self ..
    have hcap : min (s.countermax t) maxCountermax ≤ file.cap cfg := by
      cases file with
      | lim => exact (Nat.min_le_left _ _).trans (by rw [File.cap]; omega)
      | limApp => exact Nat.min_le_right _ _
    refine hi.holder hh rfl rfl rfl hc0 rfl rfl rfl rfl (fun h => hreg h _) hp.2.1.le
      (fun _ => hcap) ?_ ?_ hb.2.1 hi.noWrap ⟨hp.1, hp.2.1, hy.le.trans hcap, ?_⟩
    · rw [hl]
      rfl
    · rw [hl]
      rfl
    · show s.globalcount + s.globalreserve +
        Function.update s.countermax t (min (s.countermax t) maxCountermax) t ≤ _
      rw [hy]
      omega
  · have hroom := hp.2.2.2
    rw [addReserve_eq (by omega)] at hn
    subst hn
    refine hi.holder hh rfl rfl rfl hc0 hcm0 rfl rfl rfl (fun h => hreg h _) ?_
      (fun _ => hp.2.2.1) ?_ ?_ ?_ hi.noWrap ⟨hp.1, hp.2.1⟩
    · rw [hp.2.1]
      exact Nat.zero_le _
    · rw [hl]
      rfl
    · rw [hl]
      simp only [Loc.owed, Loc.allowance, St.goto, id]
      push_cast
      omega
    · simp only [Loc.owed, St.goto]
      omega

/-- Handing out a new allowance: its first half is moved to the thread. -/
theorem inv_half (hi : Inv file cfg s) (hn : stepThread file cfg t r s = some s')
    (hl : s.loc t = .balHalf ∨ s.loc t = .balCheck ∨ s.loc t = .balCount) :
    Inv file cfg (St.record t s s') := by
  have hh : (s.loc t).holds = true := by rcases hl with h | h | h <;> rw [h] <;> rfl
  have hb := hi.bounds hh
  have hp := hi.loc t
  have hcap := hi.capped t
  have hc0 : s.counter = Function.update s.counter t (s.counter t) :=
    (Function.update_eq_self ..).symm
  have hcm0 : s.countermax = Function.update s.countermax t (s.countermax t) :=
    (Function.update_eq_self ..).symm
  rcases hl with hl | hl | hl
  all_goals
    rw [hl] at hb hp hcap
    simp only [stepThread, hl, Option.some.injEq] at hn
    simp only [Loc.part, Loc.allowance, Loc.owed, id] at hb
    have hreg : s.counterp t = false → ∀ x, x = 0 ∧ s.countermax t = 0 := fun h =>
      absurd (h.symm.trans (hp.1.choose_spec.choose_spec.2.2.2)) nofun
  · subst hn
    have hx : Function.update s.counter t (s.countermax t / 2) t = s.countermax t / 2 :=
      Function.update_self ..
    refine hi.holder hh rfl rfl rfl rfl hcm0 rfl rfl rfl (fun h => hreg h _) (Nat.zero_le _) hcap ?_
      ?_ hb.2.1 hi.noWrap ⟨hp.1, ?_⟩
    · rw [hl]
      exact congrArg _ hp.2.symm
    · rw [hl]
      rfl
    · refine hx.le.trans ?_
      show s.countermax t / 2 ≤ s.countermax t
      omega
  · subst hn
    have hx : Function.update s.counter t (min (s.counter t) s.globalcount) t =
      min (s.counter t) s.globalcount := Function.update_self ..
    refine hi.holder hh rfl rfl rfl rfl hcm0 rfl rfl rfl (fun h => hreg h _) (Nat.zero_le _) hcap ?_
      ?_ hb.2.1 hi.noWrap
      ⟨hp.1, hx.le.trans ((Nat.min_le_left _ _).trans hp.2), hx.le.trans (Nat.min_le_right _ _)⟩
    · rw [hl]
      rfl
    · rw [hl]
      rfl
  · have hp' := hp
    obtain ⟨⟨k, delta, hcall, hmoves, hret, -⟩, hle, hle'⟩ := hp'
    rw [subCount_eq hle'] at hn
    subst hn
    refine hi.holder hh rfl rfl rfl hc0 hcm0 rfl rfl rfl (fun h => hreg h _) hle hcap ?_ ?_ ?_
      hi.noWrap ⟨⟨k, delta, hcall, .inl ⟨rfl, hmoves⟩⟩, hret⟩
    · rw [hl]
      simp only [Loc.part, St.goto, id]
      omega
    · rw [hl]
      rfl
    · simp only [Loc.owed, St.goto]
      omega

/-! ### Every step -/

/-- **Every step keeps the invariant.** -/
theorem inv_stepThread (hi : Inv file cfg s) (hn : stepThread file cfg t r s = some s') :
    Inv file cfg (St.record t s s') := by
  have hp := hi.loc t
  cases hl : s.loc t with
  | globCount j => exact inv_globalize hi hn (.inl hl)
  | globZero j => exact inv_globalize hi hn (.inr (.inl hl))
  | globReserve j => exact inv_globalize hi hn (.inr (.inr (.inl hl)))
  | globZeroMax j => exact inv_globalize hi hn (.inr (.inr (.inr hl)))
  | balRoom => exact inv_grant hi hn (.inl hl)
  | balDiv => exact inv_grant hi hn (.inr (.inl hl))
  | balCap => exact inv_grant hi hn (.inr (.inr (.inl hl)))
  | balReserve => exact inv_grant hi hn (.inr (.inr (.inr hl)))
  | balHalf => exact inv_half hi hn (.inl hl)
  | balCheck => exact inv_half hi hn (.inr (.inl hl))
  | balCount => exact inv_half hi hn (.inr (.inr hl))
  | idle => simp [stepThread, hl] at hn
  | fast k delta =>
    simp only [stepThread, hl, Option.some.injEq] at hn
    exact hn ▸ inv_fastPath hi hl
  | store k delta =>
    have hle := hi.counter_le (t := t) (by rw [hl]; rfl)
    have hcap := hi.capped t (by rw [hl]; rfl)
    have hmax : (s.countermax t : ℤ) ≤ cfg.globalcountmax := by
      have hx := Loc.plain_of_not_holds (l := s.loc t) (by rw [hl]; rfl)
      have h1 := hi.balanced.cm_le_reserve t
      have h2 := hi.balanced.limit
      have h3 := hi.balanced.count
      have h4 : s.books.cm t = s.countermax t := by
        rw [St.books]
        dsimp only
        rw [hx.allowance, id]
      omega
    have hfits := cfg.fits
    rw [hl] at hp
    cases k with
    | add =>
      have hfit := hp.2
      simp only [stepThread, hl, Option.some.injEq] at hn
      rw [seeAdd_eq (by omega), uadd_of_lt (by omega)] at hn
      exact hn ▸ inv_store hi hl hp.1 (by rw [Kind.change]; push_cast; rfl) hfit
    | sub =>
      have hfit := hp.2
      simp only [stepThread, hl, Option.some.injEq] at hn
      rw [seeSub_eq hfit, usub_of_le hfit] at hn
      exact hn ▸ inv_store hi hl hp.1 (by rw [Kind.change]; omega) (by omega)
  | lock j =>
    rw [hl] at hp
    simp only [stepThread, hl] at hn
    split at hn <;> simp only [Option.some.injEq, reduceCtorEq] at hn
    rename_i hm
    subst hn
    have hh : (s.loc t).holds = false := by rw [hl]; rfl
    cases j with
    | register => exact inv_lock hi hh hm rfl ⟨rfl, rfl, rfl, rfl⟩ fun h => by cases h
    | update k delta => exact inv_lock hi hh hm rfl ⟨rfl, rfl, rfl, rfl⟩ hp
    | unregister => exact inv_lock hi hh hm rfl ⟨rfl, rfl, rfl, rfl⟩ hp
  | test k delta =>
    simp only [stepThread, hl, Option.some.injEq] at hn
    exact hn ▸ inv_test hi hl
  | apply k delta =>
    have hb := hi.bounds (t := t) (by rw [hl]; rfl)
    have hfits := cfg.fits
    rw [hl] at hb hp
    simp only [Loc.part, Loc.allowance, Loc.owed, id] at hb
    cases k with
    | add =>
      have hg : s.globalcount + s.globalreserve + delta ≤ cfg.globalcountmax := hp.2.2.2
      simp only [stepThread, hl, Option.some.injEq] at hn
      rw [addCount_eq (by omega)] at hn
      exact hn ▸ inv_apply hi hl (by rw [Kind.change]; push_cast; rfl) (by omega)
    | sub =>
      have hg : delta ≤ s.globalcount := hp.2.2.2
      simp only [stepThread, hl, Option.some.injEq] at hn
      rw [subCount_eq hg] at hn
      exact hn ▸ inv_apply hi hl (by rw [Kind.change]; omega) (by omega)
  | setPtr b =>
    rw [hl] at hp
    simp only [stepThread, hl, Option.some.injEq] at hn
    subst hn
    refine hi.same (l := .unlock none) (by rw [hl]; rfl) rfl (by rw [hl]; exact ⟨rfl, rfl, rfl, rfl⟩)
      ⟨rfl, rfl, rfl, rfl⟩ rfl rfl rfl rfl rfl rfl (fun h => ?_)
      (fun u hu => ⟨rfl, rfl, rfl, rfl, Function.update_of_ne hu _ _⟩) (fun _ _ => rfl) rfl hi.noWrap
      (hi.returned t) trivial
    have h' : Function.update s.counterp t b t = false := h
    rw [Function.update_self] at h'
    exact hp h'
  | unlock ret =>
    have hplain : (s.loc t).Plain := by rw [hl]; exact ⟨rfl, rfl, rfl, rfl⟩
    cases ret with
    | none =>
      simp only [stepThread, hl, Option.some.injEq] at hn
      subst hn
      exact inv_unlock hi (by rw [hl]; rfl) hplain rfl rfl rfl rfl rfl rfl rfl
        (fun _ _ => ⟨Calls.Own.refl, rfl, rfl, rfl, rfl⟩) hi.noWrap (hi.returned t) (hi.value t)
    | some r =>
      rw [hl] at hp
      simp only [stepThread, hl, Option.some.injEq] at hn
      subst hn
      refine inv_unlock hi (by rw [hl]; rfl) hplain rfl rfl rfl rfl rfl rfl rfl
        (fun _ hu => ⟨Calls.Own.answer hu, rfl, rfl, rfl, rfl⟩) hi.noWrap (fun r' hr => ?_) (hi.value t)
      have hr' : Function.update s.ret t (some r) t = some r' := hr
      rw [Function.update_self] at hr'
      exact Option.some.inj hr' ▸ hp.1
  | readLock =>
    simp only [stepThread, hl] at hn
    split at hn <;> simp only [Option.some.injEq, reduceCtorEq] at hn
    rename_i hm
    subst hn
    exact inv_lock hi (by rw [hl]; rfl) hm rfl ⟨rfl, rfl, rfl, rfl⟩ trivial
  | readInit =>
    simp only [stepThread, hl, Option.some.injEq] at hn
    subst hn
    refine hi.same (l := .readNext s.globalcount 0) (by rw [hl]; rfl) rfl
      (by rw [hl]; exact ⟨rfl, rfl, rfl, rfl⟩) ⟨rfl, rfl, rfl, rfl⟩ rfl rfl rfl rfl rfl rfl
      (hi.unregistered t) (fun _ _ => Calls.Own.refl) (fun _ _ => rfl) rfl hi.noWrap
      (hi.returned t) ?_
    exact Nat.le_add_right _ _
  | readNext sum i =>
    have hh : (s.loc t).holds = true := by rw [hl]; rfl
    have hplain : (s.loc t).Plain := by rw [hl]; exact ⟨rfl, rfl, rfl, rfl⟩
    obtain ⟨-, hle, hres, hlimit⟩ := hi.plain_bounds hh hplain
    rw [hl] at hp
    simp only [stepThread, hl, Option.some.injEq] at hn
    have hgo : ∀ l : Loc n, l.holds = true → l.Plain → LocInv file cfg (s.goto t l) t l →
        Inv file cfg (St.record t s (s.goto t l)) := fun l h1 h2 h3 =>
      hi.same hh h1 hplain h2 rfl rfl rfl rfl rfl rfl (hi.unregistered t) (fun _ _ => Calls.Own.refl)
        (fun _ _ => rfl) rfl hi.noWrap (hi.returned t) h3
    subst hn
    split
    · rename_i hin
      split
      · exact hgo _ rfl ⟨rfl, rfl, rfl, rfl⟩ hp
      · exact hgo _ rfl ⟨rfl, rfl, rfl, rfl⟩ (Summed.next (c := 0) hp hin (Nat.zero_le _))
    · exact hgo _ rfl ⟨rfl, rfl, rfl, rfl⟩ (Summed.le hp hres hlimit)
  | readAdd sum i =>
    have hh : (s.loc t).holds = true := by rw [hl]; rfl
    have hplain : (s.loc t).Plain := by rw [hl]; exact ⟨rfl, rfl, rfl, rfl⟩
    obtain ⟨-, hle, hres, hlimit⟩ := hi.plain_bounds hh hplain
    rw [hl] at hp
    have hnext : s.Summed (sum + s.counter i) (i + 1) := Summed.next hp i.2 (hle i)
    have hfit := (Summed.le hnext hres hlimit).trans_lt cfg.fits
    simp only [stepThread, hl, Option.some.injEq] at hn
    rw [seeAdd_eq hfit, uadd_of_lt hfit] at hn
    subst hn
    exact hi.same hh rfl hplain ⟨rfl, rfl, rfl, rfl⟩ rfl rfl rfl rfl rfl rfl (hi.unregistered t)
      (fun _ _ => Calls.Own.refl) (fun _ _ => rfl) rfl hi.noWrap (hi.returned t) hnext
  | readUnlock sum =>
    rw [hl] at hp
    simp only [stepThread, hl, Option.some.injEq] at hn
    subst hn
    refine inv_unlock hi (by rw [hl]; rfl) (by rw [hl]; exact ⟨rfl, rfl, rfl, rfl⟩) rfl rfl rfl rfl rfl
      rfl rfl (fun u hu => ⟨Calls.Own.refl, rfl, Function.update_of_ne hu _ _, rfl, rfl⟩) hi.noWrap
      (hi.returned t) fun v hv => ?_
    have hv' : Function.update s.value t (some sum) t = some v := hv
    rw [Function.update_self] at hv'
    exact Option.some.inj hv' ▸ hp

theorem inv_next {a : Act n} (hi : Inv file cfg s) (hn : next file cfg a s = some s') :
    Inv file cfg s' := by
  obtain ⟨s₀, h0, rfl⟩ := Option.map_eq_some_iff.mp hn
  -- what the other actions start is outside the mutex
  have hgo : ∀ (t : Fin n) (l : Loc n), s.loc t = .idle → l.holds = false →
      LocInv file cfg (s.goto t l) t l → Inv file cfg (St.record t s (s.goto t l)) :=
    fun t l hl h1 h2 => hi.outside (by rw [hl]; rfl) h1 rfl rfl rfl rfl rfl rfl rfl
      (fun _ _ => Calls.Own.refl) rfl rfl hi.noWrap (hi.returned t) h2
  cases a with
  | step t online => exact inv_stepThread hi h0
  | call k t delta =>
    rw [act] at h0
    split at h0
    · rename_i hl hcp
      split at h0 <;> simp only [Option.some.injEq, reduceCtorEq] at h0
      subst h0
      refine hi.outside (t := t) (l := .fast k delta) (by rw [hl]; rfl) rfl rfl rfl rfl rfl rfl rfl rfl
        (fun u hu => Calls.Own.begin hu) rfl rfl hi.noWrap (fun r hr => ?_) (Calls.Pending.begin hcp)
      have hr' : Function.update s.ret t none t = some r := hr
      rw [Function.update_self] at hr'
      cases hr'
    · cases h0
  | read t | register t | unregister t =>
    rw [act] at h0
    split at h0 <;> simp only [Option.some.injEq, reduceCtorEq] at h0
    rename_i hl
    subst h0
    exact hgo t _ hl rfl trivial

theorem inv_init (h : Init s) : Inv file cfg s := by
  have hb : s.books = ⟨0, 0, fun _ => 0, fun _ => 0⟩ := by
    simp [St.books, owed_of_free h.mutex, h.globalcount, h.globalreserve, h.counter, h.countermax,
      h.loc, Loc.part, Loc.allowance]
  refine ⟨fun t => ?_, ?_, fun t _ => ?_, h.wrapped, fun t _ => ⟨h.counter t, h.countermax t⟩,
    fun t => ?_, fun t r hr => ?_, fun t v hv => ?_⟩
  · rw [h.mutex, h.loc]
    exact iff_of_false (fun h => by cases h) fun h => by cases h
  · rw [hb]
    exact ⟨le_rfl, fun _ => le_rfl, fun _ => le_rfl, fun _ => Int.natCast_nonneg _,
      Finset.sum_const_zero, by simp⟩
  · rw [h.countermax]
    exact Nat.zero_le _
  · rw [h.loc]
    trivial
  · rw [h.ret] at hr
    cases hr
  · rw [h.value] at hv
    cases hv

end Lim
end Count
end Perfbook
