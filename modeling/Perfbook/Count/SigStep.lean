/-
# Every step of `count_lim_sig` keeps the invariant

The store of the fast path is the one step outside the mutex that changes
numbers (`inv_store`): if `theft` of its thread is ready, or its numbers were
stolen since the check, the thread has none and the store changes nothing.
The other steps follow the functions of the source: the handler, the fast
path, `globalize_count`, `flush_local_count`, `balance_count`.

Key theorems: `inv_store`, `inv_stepHandler`, `inv_outside`, `inv_flush`,
`inv_steal`, `inv_balance`, `inv_stepThread`, `inv_next`, `inv_init`.
-/
import Perfbook.Count.SigInv

namespace Perfbook
namespace Count
namespace Sig

open Books Calls Conc

variable {n : ℕ} {cfg : Config} {s s' : St n} {t u : Fin n} {l : Loc n} {k : Kind} {delta : ℕ}

/-! ### The fast path -/

theorem max_lt : maxCountermax < 2 ^ cfg.w :=
  lt_of_lt_of_le (by rw [maxCountermax]; omega) (Nat.pow_le_pow_right (by omega) cfg.wide)

/-- Numbers that are being moved are the holder's own, or those of a thread that is ready. -/
theorem Inv.moving_ready {b : Bool} (hi : Inv cfg s) (h : s.moving = some (u, b)) :
    (s.loc u).holds = true ∨ s.theft u = .ready := by
  cases hm : s.mutex with
  | none =>
    rw [moving_of_free hm] at h
    cases h
  | some v =>
    have hv := (hi.lock v).mp hm
    have hp := hi.loc v
    rw [moving_of_holder hm] at h
    cases hl : s.loc v <;> rw [hl] at h hp <;>
      simp only [Loc.moving, reduceCtorEq, Option.some.injEq, Prod.mk.injEq] at h <;>
      obtain ⟨rfl, -⟩ := h <;> first | exact .inl hv | exact .inr hp.2.2.2 | exact .inr hp.2.2.2.1

/-- A thread in its fast path with something to change shows in the books. -/
theorem Inv.visible (hi : Inv cfg s) (hf : (s.loc t).inFast = true) (hz : ¬ Zero s t) :
    s.theft t ≠ .ready ∧ s.stolen t = false ∧ s.c t = s.counter t ∧ s.cm t = s.countermax t := by
  have h1 : s.theft t ≠ .ready := fun h => hz (hi.stolen t (.inl h) hf)
  refine ⟨h1, Bool.eq_false_iff.mpr fun h => hz (hi.stolen t (.inr h) hf), ?_⟩
  have hm : s.moving.map Prod.fst ≠ some t := fun h => by
    obtain ⟨⟨u, b⟩, hub, rfl⟩ := Option.map_eq_some_iff.mp h
    rcases hi.moving_ready hub with h | h
    · rw [Loc.not_inFast h] at hf
      cases hf
    · exact h1 h
  rw [St.c, St.cm, if_neg hm, if_neg hm]
  exact ⟨rfl, rfl⟩

/-- What the fast path stores. -/
theorem changed_eq {c : ℕ} (hf : Fits s t k delta) (hc : c = s.counter t)
    (hlt : s.countermax t < 2 ^ cfg.w) :
    (changed cfg c k delta : ℤ) = s.counter t + k.change delta := by
  subst hc
  cases k with
  | add =>
    have hf' : s.counter t + delta ≤ s.countermax t := hf
    rw [changed, uadd_of_lt (by omega), Kind.change]
    push_cast
    rfl
  | sub =>
    rw [changed, usub_of_le hf, Kind.change]
    have hf' : delta ≤ s.counter t := hf
    omega

theorem Fits.of_zero (hf : Fits s t k delta) (hz : Zero s t) : k.change delta = 0 := by
  obtain ⟨h1, h2⟩ := hz
  cases k <;> simp only [Fits, Kind.change] at hf ⊢ <;> omega

/-- **The store of the fast path**: the change is made in the thread's own part. -/
theorem inv_store {c : ℕ} (hi : Inv cfg s) (hl : s.loc t = .store k delta c)
    (hno : s.handler t = none) :
    Inv cfg (St.record t s ((s.setCounter t (changed cfg c k delta)).goto t
      (.clearCounting k delta true))) := by
  have hp := hi.loc t
  rw [hl] at hp
  obtain ⟨hp, hf, hc⟩ := hp
  have hfast : (s.loc t).inFast = true := by rw [hl]; rfl
  by_cases hz : Zero s t
  · -- nothing changes: the counter is 0, and stays 0
    have hv := changed_eq hf hc (hz.2 ▸ Nat.two_pow_pos cfg.w)
    have hk := hf.of_zero hz
    have hsame : s.setCounter t (changed cfg c k delta) = s := by
      rw [St.setCounter, show changed cfg c k delta = s.counter t by omega, Function.update_eq_self]
    rw [hsame]
    have hleft : s.Moved t := ⟨k, delta, hp.1, hp.2.1.trans (if_pos hk).symm, hp.2.2⟩
    exact hi.walk (l := .clearCounting k delta true) rfl rfl (by rw [hl]; rfl) (by rw [hl]; rfl)
      rfl rfl rfl rfl rfl rfl rfl (fun u _ h => by rw [hl] at h; exact h) nofun (fun _ _ => Own.refl) (fun _ _ => rfl)
      ((hi.counting t).trans (by rw [hl]; rfl)) rfl hno hleft (hi.returned_of (.inr Own.refl))
  · obtain ⟨hth, hst, hct, hcmt⟩ := hi.visible hfast hz
    have hhigh : s.counter t ≤ s.countermax t := by
      have := hi.balanced.high t
      rw [St.books] at this
      dsimp only at this
      omega
    have hcap : s.countermax t ≤ maxCountermax := by
      have := hi.balanced.cap t
      rw [St.books] at this
      dsimp only at this
      omega
    have hv : (changed cfg c k delta : ℤ) = s.counter t + k.change delta :=
      changed_eq hf hc (hcap.trans_lt max_lt)
    have hpos : 0 < s.countermax t := Nat.pos_of_ne_zero fun h => hz ⟨by omega, h⟩
    have hh : (s.loc t).holds = false := by rw [hl]; rfl
    set s₀ := (s.setCounter t (changed cfg c k delta)).goto t (.clearCounting k delta true) with hs₀
    have hloc : s₀.loc = Function.update s.loc t (.clearCounting k delta true) := rfl
    have hmov : s₀.moving = s.moving := moving_same rfl hloc (by rw [hl]; rfl)
    have hnum : ∀ u, u ≠ t → s₀.counter u = s.counter u := fun u hu => Function.update_of_ne hu _ _
    have hcm₀ : s₀.countermax = s.countermax := rfl
    have hc₀ : s₀.counter t = changed cfg c k delta := Function.update_self ..
    have hvis : ¬ s.moving.map Prod.fst = some t := fun h => by
      rw [St.cm, if_pos h] at hcmt
      omega
    have hb : s₀.books = s.books.post t (s.counter t + k.change delta) (s.countermax t)
        s.books.count s.books.reserve := by
      have howed : s₀.owed = s.owed := by simp only [St.owed, hmov, hcm₀]
      rw [books_post (u := t) (fun v _ => by rw [hmov]) fun v hv => ⟨hnum v hv, rfl⟩, St.c, St.cm,
        hmov, if_neg hvis, if_neg hvis, hc₀, hcm₀, hv, howed]
      rfl
    have hbc : s.books.c t = s.counter t := congrArg Nat.cast hct
    have hbcm : s.books.cm t = s.countermax t := congrArg Nat.cast hcmt
    have htotal : s₀.total = s.total + k.change delta := by
      rw [St.total, hb, total_post, ← St.total]
      omega
    have hzero : ∀ u, u ≠ t → Zero s u → Zero s₀ u := fun u hu h => ⟨(hnum u hu).trans h.1, h.2⟩
    refine hi.of_step hloc (lock_keep hi rfl hloc (by rw [hl]; rfl)) ?_ (fun u hu => ?_)
      (fun u hu => ⟨(hi.theft u hu).1, hi.asked rfl hloc (fun h => by rw [hl] at h; exact h) hu⟩)
      (fun u h1 h2 => ?_)
      (fun u hu => ⟨Own.refl.record hu, fun _ => rfl, rfl, rfl, fun _ => ⟨hnum u hu, rfl⟩⟩)
      (.inr fun u hu => ⟨rfl, rfl, rfl, hnum u hu, rfl, fun v hv0 => hnum v ?_, fun v hr =>
        ⟨hr, hnum v ?_⟩⟩) ((hi.counting t).trans (by rw [hl]; rfl)) ?_ ?_ fun r hr => ?_
    · rw [show (St.record t s s₀).books = s₀.books from rfl, hb]
      refine hi.balanced.post ?_ ?_ ?_ ?_ hi.balanced.count hi.balanced.limit
      · omega
      · cases k <;> simp only [Fits, Kind.change] at hf ⊢ <;> omega
      · omega
      · omega
    · by_cases hut : u = t
      · subst hut
        rw [show (St.record u s s₀).counterp u = s.counterp u from rfl, hp.2.2.2] at hu
        cases hu
      · exact hzero u hut (hi.unregistered u hu)
    · have h2' : (Function.update s.loc t (.clearCounting k delta true) u).inFast = true := h2
      by_cases hut : u = t
      · subst hut
        rw [Function.update_self] at h2'
        cases h2'
      · rw [Function.update_of_ne hut] at h2'
        exact hzero u hut (hi.stolen u h1 h2')
    · rintro rfl
      omega
    · rintro rfl
      exact hth hr
    · rw [show (St.record t s s₀).handler t = s.handler t from rfl, hno]
      trivial
    · exact ⟨k, delta, hp.1, record_change htotal hp.2.1, hp.2.2⟩
    · have hr' : s.ret t = some r := hr
      rw [hp.2.2.1] at hr'
      cases hr'

/-! ### The slow path -/

/-- The holder `t` goes to `l`, and at most numbers of `w` and the global part change. -/
structure Moves (t w : Fin n) (l : Loc n) (s s' : St n) : Prop where
  loc : s'.loc = Function.update s.loc t l
  mutex : s'.mutex = s.mutex
  calls : s'.toCalls = s.toCalls
  theft : s'.theft = s.theft
  counting : s'.counting = s.counting
  handler : s'.handler = s.handler
  num : ∀ u, u ≠ w → s'.counter u = s.counter u ∧ s'.countermax u = s.countermax u

/-- A step of the holder that keeps the number counted. -/
theorem Inv.shift {w : Fin n} (hi : Inv cfg s) (hm : Moves t w l s s')
    (hh : (s.loc t).holds = true) (hh' : l.holds = true) (hno : s.handler t = none)
    (hasks : ∀ u, (s.loc t).asks u → l.asks u) (hw : w = t ∨ s.theft w = .ready)
    (hz : (w = t ∧ s.counterp t = true) ∨ (Zero s w → Zero s' w))
    (hst : ∀ u, s'.stolen u = true → s.stolen u = true ∨ s.theft u = .ready)
    (hb : Balanced cfg.globalcountmax maxCountermax s'.books ∧ s'.total = s.total)
    (hl : LocInv cfg s' t l) : Inv cfg (St.record t s s') := by
  rw [record_same hb.2]
  have hown : ∀ u, Own u s.toCalls s'.toCalls := fun u => hm.calls ▸ Own.refl
  exact hi.move hh hh' hm.loc hm.mutex hb.1 (fun u _ => hown u)
    (congrArg Calls.counterp hm.calls) hm.theft hm.counting hm.handler hno hasks hm.num hw hz hst hl
    (hi.returned_of (.inr (hown t)))

/-- A step of the holder on numbers that do not show in the books. -/
theorem Inv.hidden {w : Fin n} (hi : Inv cfg s) (hm : Moves t w l s s')
    (hh : (s.loc t).holds = true) (hh' : l.holds = true) (hno : s.handler t = none)
    (hasks : ∀ u, (s.loc t).asks u → l.asks u) (hw : w = t ∨ s.theft w = .ready)
    (hz : (w = t ∧ s.counterp t = true) ∨ (Zero s w → Zero s' w))
    (hst : ∀ u, s'.stolen u = true → s.stolen u = true ∨ s.theft u = .ready)
    (h : Hidden w s) (h' : Hidden w s') (hg : s'.globalcount = s.globalcount)
    (hr : (s'.globalreserve : ℤ) - s'.owed = s.globalreserve - s.owed)
    (hl : LocInv cfg s' t l) : Inv cfg (St.record t s s') := by
  have hb := books_hidden h h' hm.num hg hr
  exact hi.shift hm hh hh' hno hasks hw hz hst
    ⟨hb ▸ hi.balanced, by rw [St.total, hb, St.total]⟩ hl

/-- `globalcount += delta`, or `-= delta`: the change is made in the global part. -/
theorem inv_apply {g : ℕ} (hi : Inv cfg s) (hl : s.loc t = .apply k delta)
    (hno : s.handler t = none) (hg' : (g : ℤ) = s.globalcount + k.change delta) :
    Inv cfg (St.record t s ({ s with globalcount := g }.goto t .balMax)) := by
  have hp := hi.loc t
  rw [hl] at hp
  obtain ⟨hp, hz, hg⟩ := hp
  have hh : (s.loc t).holds = true := by rw [hl]; rfl
  set s₀ := { s with globalcount := g }.goto t .balMax with hs₀
  have hloc : s₀.loc = Function.update s.loc t .balMax := rfl
  have hmov : s.moving = none := by rw [moving_of_holder (hi.mutex_eq hh), hl]; rfl
  have hmov' : s₀.moving = none := moving_goto (hi.mutex_eq hh)
  have hb : s₀.books = s.books.post t (s.counter t) (s.countermax t)
      (s.books.count + k.change delta) s.books.reserve := by
    rw [Away.books_post (u := t) (.inl hmov) (.inl hmov') fun v _ => ⟨rfl, rfl⟩,
      (c_of_none hmov').1, (c_of_none hmov').2, owed_of_none hmov',
      show s₀.globalcount = g from rfl, hg', St.books, owed_of_none hmov]
    rfl
  have hc0 : s.books.c t = s.counter t := congrArg Nat.cast (c_of_none hmov).1
  have hcm0 : s.books.cm t = s.countermax t := congrArg Nat.cast (c_of_none hmov).2
  have hgc : s.books.count = s.globalcount := rfl
  have hgr : s.books.reserve = s.globalreserve := by simp [St.books, owed_of_none hmov]
  have htotal : s₀.total = s.total + k.change delta := by
    rw [St.total, hb, total_post, ← St.total]
    omega
  have hlimit := hi.balanced.limit
  have hle := hi.high hmov t
  have hcap := hi.balanced.cap t
  refine hi.move (l := .balMax) hh rfl hloc rfl ?_ (fun u hu => Own.refl.record hu) rfl rfl rfl rfl
    hno (fun u h => by rw [hl] at h; exact h) (fun u _ => ⟨rfl, rfl⟩) (.inl rfl) (.inr id)
    (fun u h => .inl h) ⟨⟨k, delta, hp.1, record_change htotal hp.2.1, hp.2.2⟩, hz⟩ fun r hr => ?_
  · rw [show (St.record t s s₀).books = s₀.books from rfl, hb]
    refine hi.balanced.post ?_ ?_ ?_ ?_ ?_ ?_
    · omega
    · omega
    · omega
    · omega
    · cases k <;> simp only [Granted, Kind.change] at hg ⊢ <;> omega
    · cases k <;> simp only [Granted, Kind.change] at hg ⊢ <;> omega
  · have hr' : s.ret t = some r := hr
    rw [hp.2.2.1] at hr'
    cases hr'

theorem inv_lock {j : Job} (hi : Inv cfg s) (hl : s.loc t = .lock j) (hno : s.handler t = none)
    (hm : s.mutex = none) :
    Inv cfg (St.record t s ({ s with mutex := some t }.goto t (.locked j))) := by
  have hp := hi.loc t
  rw [hl] at hp
  set s₀ := { s with mutex := some t }.goto t (.locked j) with hs₀
  have hloc : s₀.loc = Function.update s.loc t (.locked j) := rfl
  have hheld : (Loc.locked j : Loc n).holds = true ∧ (Loc.locked j : Loc n).moving t = none ∧
      (Loc.locked j : Loc n).counts = false := by
    cases j <;> exact ⟨rfl, rfl, rfl⟩
  have hmov' : s₀.moving = s.moving := by
    rw [moving_of_holder (s := s₀) (t := t) rfl, hloc, Function.update_self, hheld.2.1,
      moving_of_free hm]
  have hb : s₀.books = s.books := books_quiet hmov' rfl rfl rfl rfl
  rw [record_same (by rw [St.total, hb, St.total])]
  have hfree : LockedBy Loc.holds none s.loc := hm ▸ hi.lock
  refine hi.of_step hloc (hfree.take hloc hheld.1) (hb ▸ hi.balanced) hi.unregistered (fun u hu => ?_)
    (fun u h1 h2 => ?_) (fun u _ => ⟨Own.refl, fun _ => rfl, rfl, rfl, fun _ => ⟨rfl, rfl⟩⟩)
    (.inr fun u _ => ⟨rfl, rfl, rfl, rfl, rfl, fun _ _ => rfl, fun _ h => ⟨h, rfl⟩⟩) ?_ ?_ ?_
    (hi.returned_of (.inr Own.refl))
  · obtain ⟨-, v, hv, -⟩ := hi.theft u hu
    rw [hm] at hv
    cases hv
  · refine hi.stolen u h1 ?_
    rw [hloc] at h2
    by_cases hu : u = t
    · subst hu
      rw [Function.update_self, Loc.not_inFast hheld.1] at h2
      cases h2
    · rwa [Function.update_of_ne hu] at h2
  · exact (hi.counting t).trans (by rw [hl, hheld.2.2]; rfl)
  · rw [show s₀.handler t = s.handler t from rfl, hno]
    trivial
  · cases j with
    | register => exact fun h => by cases h
    | update k delta => exact Calls.Pending.frame hp Own.refl
    | unregister => trivial

theorem inv_unlock {ret : Option ℕ} (hi : Inv cfg s) (hl : s.loc t = .unlock ret)
    (hno : s.handler t = none) (hm : s'.mutex = none)
    (hloc : s'.loc = Function.update s.loc t .idle) (hc : s'.counter = s.counter)
    (hcm : s'.countermax = s.countermax) (hg : s'.globalcount = s.globalcount)
    (hr : s'.globalreserve = s.globalreserve) (hp : s'.counterp = s.counterp)
    (hth : s'.theft = s.theft) (hst : s'.stolen = s.stolen) (hcounting : s'.counting = s.counting)
    (hha : s'.handler = s.handler) (hown : ∀ u, u ≠ t → Own u s.toCalls s'.toCalls)
    (hret : ∀ r, s'.ret t = some r → Settled cfg s'.toCalls t r) : Inv cfg (St.record t s s') := by
  have hh : (s.loc t).holds = true := by rw [hl]; rfl
  have hmov : s.moving = none := by rw [moving_of_holder (hi.mutex_eq hh), hl]; rfl
  have hb : s'.books = s.books := books_quiet (by rw [hmov, moving_of_free hm]) hc hcm hg hr
  have hzero : ∀ u, Zero s u → Zero s' u := fun u h =>
    ⟨(congrFun hc u).trans h.1, (congrFun hcm u).trans h.2⟩
  rw [record_same (by rw [St.total, hb, St.total])]
  have hlock : LockedBy Loc.holds s.mutex s.loc := hi.lock
  refine hi.of_step hloc (hm ▸ hlock.drop hloc hh rfl) (hb ▸ hi.balanced)
    (fun u hu => hzero u (hi.unregistered u (hp ▸ hu))) (fun u hu => ?_)
    (fun u h1 h2 => hzero u (hi.stolen_keep hloc hth hst (fun h => by cases h) u h1 h2))
    (fun u hu => ⟨hown u hu, fun _ => congrFun hth u, congrFun hcounting u, congrFun hha u,
      fun _ => ⟨congrFun hc u, congrFun hcm u⟩⟩) (.inl hh) ?_ ?_ trivial hret
  · obtain ⟨-, v, hv, ha⟩ := hi.theft u (hth ▸ hu)
    obtain rfl := Option.some.inj ((hi.mutex_eq hh).symm.trans hv)
    rw [hl] at ha
    exact ha.elim
  · rw [hcounting, hi.counting, hl]
    rfl
  · rw [hha, hno]
    trivial

/-! ### The handler -/

/-- A step that changes at most the `theft` of `t` and its handler. -/
theorem Inv.handle {x : Theft} (hi : Inv cfg s) (hloc : s'.loc = s.loc) (hm : s'.mutex = s.mutex)
    (hcalls : s'.toCalls = s.toCalls) (hc : s'.counter = s.counter)
    (hcm : s'.countermax = s.countermax) (hg : s'.globalcount = s.globalcount)
    (hr : s'.globalreserve = s.globalreserve) (hst : s'.stolen = s.stolen)
    (hcounting : s'.counting = s.counting) (hth : s'.theft = Function.update s.theft t x)
    (hx : x = s.theft t ∨ (s.theft t = .req ∨ s.theft t = .ack) ∧ (s.loc t).readies = false)
    (hf : x = .ready → (s.loc t).inFast = true → Zero s t)
    (hha : ∀ u, u ≠ t → s'.handler u = s.handler u) (hhandler : HandlerInv s' t (s'.handler t)) :
    Inv cfg (St.record t s s') := by
  have hown : ∀ u, Own u s.toCalls s'.toCalls := fun u => hcalls ▸ Own.refl
  have hother : ∀ u, u ≠ t → s'.theft u = s.theft u := fun u hu => by
    rw [hth, Function.update_of_ne hu]
  have hself : s'.theft t = x := by rw [hth, Function.update_self]
  have hready : ∀ v, s.theft v = .ready → s'.theft v = .ready := fun v hv => by
    by_cases hvt : v = t
    · subst hvt
      rcases hx with rfl | ⟨h | h, -⟩
      · exact hself.trans hv
      · rw [hv] at h
        cases h
      · rw [hv] at h
        cases h
    · exact (hother v hvt).trans hv
  refine hi.quiet (l := s.loc t) (by rw [hloc, Function.update_eq_self]) hm rfl rfl hc hcm hg hr
    (congrArg Calls.counterp hcalls) (fun u hu => .inl ⟨?_, id⟩) (fun u h1 h2 => ?_)
    (fun u hu => ⟨hown u, fun _ => hother u hu, congrFun hcounting u, hha u hu,
      fun _ => ⟨congrFun hc u, congrFun hcm u⟩⟩) (.inr hready)
    ((congrFun hcounting t).trans (hi.counting t)) hhandler ?_ (hi.returned_of (.inr (hown t)))
  · by_cases hut : u = t
    · subst hut
      rcases hx with rfl | ⟨h | h, -⟩
      · exact hself ▸ hu
      · rw [h]
        nofun
      · rw [h]
        nofun
    · exact hother u hut ▸ hu
  · rw [hst] at h1
    rw [hloc] at h2
    by_cases hut : u = t
    · subst hut
      rcases h1 with h1 | h1
      · exact hf (hself.symm.trans h1) h2
      · exact hi.stolen u (.inr h1) h2
    · exact hi.stolen u (h1.imp_left (hother u hut).symm.trans) h2
  · refine (hi.loc t).frame (hown t) (fun hr h => ?_) (fun _ => ⟨congrFun hc t, congrFun hcm t⟩)
      fun _ => ⟨hg, hr, hcm, congrFun hc t, congrArg Calls.counterp hcalls, fun v _ => congrFun hc v,
        fun v hv => ⟨hready v hv, congrFun hc v⟩⟩
    rcases hx with rfl | ⟨-, h'⟩
    · exact hself.trans h
    · rw [hr] at h'
      cases h'

theorem Loc.counts_of_inFast (h : l.inFast = true) : l.counts = true := by
  cases l <;> first | rfl | cases h

/-- **The handler's steps**: it acknowledges a request, and says ready outside a fast path. -/
theorem inv_stepHandler (hi : Inv cfg s) (hn : stepHandler t s = some s') :
    Inv cfg (St.record t s s') := by
  have hp := hi.handler t
  have hstay : Function.update s.theft t (s.theft t) = s.theft := Function.update_eq_self ..
  have hready := hi.stolen t
  rw [stepHandler] at hn
  split at hn <;> rename_i hh <;> rw [hh] at hp <;>
    simp only [Option.some.injEq, reduceCtorEq] at hn <;> subst hn
  · refine hi.handle rfl rfl rfl rfl rfl rfl rfl rfl rfl hstay.symm (.inl rfl)
      (fun h => hready (.inl h)) (fun u hu => Function.update_of_ne hu _ _) ?_
    dsimp only
    rw [Function.update_self]
    split
    · assumption
    · trivial
  · have hp' : s.theft t = .req := hp
    have hr : (s.loc t).readies = false := by
      have hl := hi.loc t
      cases h : s.loc t with
      | setReady k delta fastpath =>
        rw [h] at hl
        rw [hl.2] at hp'
        cases hp'
      | _ => rfl
    refine hi.handle rfl rfl rfl rfl rfl rfl rfl rfl rfl rfl (.inr ⟨.inl hp', hr⟩) nofun
      (fun u hu => Function.update_of_ne hu _ _) ?_
    dsimp only
    rw [Function.update_self]
    exact ⟨Function.update_self .., hr⟩
  · refine hi.handle rfl rfl rfl rfl rfl rfl rfl rfl rfl hstay.symm (.inl rfl)
      (fun h => hready (.inl h)) (fun u hu => Function.update_of_ne hu _ _) ?_
    dsimp only
    rw [Function.update_self]
    split
    · trivial
    · exact ⟨hp.1, hp.2, Bool.eq_false_iff.mpr ‹_›⟩
  · refine hi.handle rfl rfl rfl rfl rfl rfl rfl rfl rfl rfl (.inr ⟨.inr hp.1, hp.2.1⟩)
      (fun _ h => ?_) (fun u hu => Function.update_of_ne hu _ _) ?_
    · have := (hi.counting t).symm.trans hp.2.2
      rw [Loc.counts_of_inFast h] at this
      cases this
    · dsimp only
      rw [Function.update_self]
      trivial

/-! ### Every step -/

/-- In its fast path a thread's part is within its allowance. -/
theorem Inv.fast_le (hi : Inv cfg s) (hf : (s.loc t).inFast = true) :
    s.counter t ≤ s.countermax t := by
  by_cases hz : Zero s t
  · rw [hz.1, hz.2]
  · obtain ⟨-, -, hc, hcm⟩ := hi.visible hf hz
    have := hi.balanced.high t
    rw [St.books] at this
    dsimp only at this
    omega

/-- The fast path is over: its thread returns, or goes on to the mutex. -/
theorem inv_leave {x : Theft} {fastpath : Bool} (hi : Inv cfg s) (hh : (s.loc t).holds = false)
    (hcount : (s.loc t).counts = false) (hno : s.handler t = none)
    (hasks : ∀ u, ¬ (s.loc t).asks u) (hx : x = s.theft t ∨ s.theft t = .ack ∧ x = .ready)
    (hleft : Left s t k delta fastpath) :
    Inv cfg (St.record t s ((s.setTheft t x).leave t k delta fastpath)) := by
  have hother : ∀ u, u ≠ t → Function.update s.theft t x u = s.theft u := fun u hu =>
    Function.update_of_ne hu _ _
  have hmov : (s.loc t).moving t = none := Loc.moving_of_not_holds hh
  have htheft : ∀ u, Function.update s.theft t x u ≠ .idle → s.theft u ≠ .idle := fun u hu => by
    by_cases hut : u = t
    · subst hut
      rw [Function.update_self] at hu
      rcases hx with rfl | ⟨h, -⟩
      · exact hu
      · rw [h]
        nofun
    · rwa [hother u hut] at hu
  have hready : ∀ u, s.theft u = .ready → Function.update s.theft t x u = .ready := fun u hu => by
    by_cases hut : u = t
    · subst hut
      rw [Function.update_self]
      rcases hx with rfl | ⟨-, h⟩
      · exact hu
      · exact h
    · exact (hother u hut).trans hu
  have hstolen : ∀ (l : Loc n) (u : Fin n), l.inFast = false →
      Function.update s.theft t x u = .ready ∨ s.stolen u = true →
      (Function.update s.loc t l u).inFast = true → Zero s u := fun l u hl h1 h2 => by
    by_cases hut : u = t
    · subst hut
      rw [Function.update_self, hl] at h2
      cases h2
    · rw [Function.update_of_ne hut] at h2
      exact hi.stolen u (h1.imp_left (hother u hut).symm.trans) h2
  cases fastpath with
  | true =>
    refine hi.quiet (l := .idle) rfl rfl hh.symm hmov.symm rfl rfl rfl rfl rfl
      (fun u hu => .inl ⟨htheft u hu, fun h => (hasks u h).elim⟩)
      (fun u h1 h2 => hstolen .idle u rfl h1 h2)
      (fun u hu => ⟨Own.answer hu, fun _ => hother u hu, rfl, rfl, fun _ => ⟨rfl, rfl⟩⟩)
      (.inr hready) ((hi.counting t).trans hcount) ?_ trivial fun r hr => ?_
    · rw [show ((s.setTheft t x).leave t k delta true).handler t = s.handler t from rfl, hno]
      trivial
    · exact Settled.answer (Calls.Moved.settled hleft) hr
  | false =>
    refine hi.quiet (l := .lock (.update k delta)) rfl rfl hh.symm hmov.symm rfl rfl rfl rfl rfl
      (fun u hu => .inl ⟨htheft u hu, fun h => (hasks u h).elim⟩)
      (fun u h1 h2 => hstolen (.lock (.update k delta)) u rfl h1 h2)
      (fun u hu => ⟨Own.refl, fun _ => hother u hu, rfl, rfl, fun _ => ⟨rfl, rfl⟩⟩)
      (.inr hready) ((hi.counting t).trans hcount) ?_ hleft (hi.returned_of (.inr Own.refl))
    rw [show ((s.setTheft t x).leave t k delta false).handler t = s.handler t from rfl, hno]
    trivial

/-- The check of `theft` that may admit the fast path. -/
theorem inv_loadTheft (hi : Inv cfg s) (hl : s.loc t = .loadTheft k delta)
    (hno : s.handler t = none) :
    Inv cfg (St.record t s ({ s with stolen := Function.update s.stolen t false }.goto t
      (if (s.theft t).admits then .admitted delta k else .clearCounting k delta false))) := by
  have hp := hi.loc t
  rw [hl] at hp
  set l : Loc n := if (s.theft t).admits then .admitted delta k else .clearCounting k delta false
    with hl'
  have hadm : ∀ k, (Loc.admitted delta k : Loc n).holds = false ∧
      (Loc.admitted delta k : Loc n).counts = true ∧ (Loc.admitted delta k : Loc n).moving t = none :=
    fun k => by cases k <;> exact ⟨rfl, rfl, rfl⟩
  have hplace : l.holds = false ∧ l.counts = true ∧ l.moving t = none ∧
      (l.inFast = true → s.theft t ≠ .ready) ∧ LocInv cfg (s.goto t l) t l := by
    rw [hl']
    split
    · rename_i hth
      refine ⟨(hadm k).1, (hadm k).2.1, (hadm k).2.2, fun _ h => ?_, ?_⟩
      · rw [h] at hth
        cases hth
      · cases k with
        | add => exact hp
        | sub => exact ⟨hp, nofun⟩
    · exact ⟨rfl, rfl, rfl, nofun, hp⟩
  obtain ⟨h1, h2, h3, h4, h5⟩ := hplace
  refine hi.quiet (l := l) rfl rfl (by rw [hl, h1]; rfl) (by rw [hl, h3]; rfl) rfl rfl rfl rfl rfl
    (fun u hu => .inl ⟨hu, fun h => by rw [hl] at h; exact h.elim⟩) (fun u hu hf => ?_)
    (fun u _ => ⟨Own.refl, fun _ => rfl, rfl, rfl, fun _ => ⟨rfl, rfl⟩⟩) (.inr fun v hv => hv)
    ?_ ?_ (h5.frame Own.refl (fun _ h => h) (fun _ => ⟨rfl, rfl⟩)
      fun _ => ⟨rfl, rfl, rfl, rfl, rfl, fun _ _ => rfl, fun _ h => ⟨h, rfl⟩⟩)
    (hi.returned_of (.inr Own.refl))
  · have hf' : (Function.update s.loc t l u).inFast = true := hf
    have hu' : s.theft u = .ready ∨ Function.update s.stolen t false u = true := hu
    by_cases hut : u = t
    · subst hut
      rw [Function.update_self] at hf' hu'
      exact absurd (hu'.resolve_right nofun) (h4 hf')
    · rw [Function.update_of_ne hut] at hf' hu'
      exact hi.stolen u hu' hf'
  · rw [h2]
    exact (hi.counting t).trans (by rw [hl]; rfl)
  · show HandlerInv _ t (s.handler t)
    rw [hno]
    trivial

theorem fits_of_admitsDelta {cm : ℕ} (hle : s.counter t ≤ s.countermax t)
    (hcm : k = .add → cm = s.countermax t)
    (h : admitsDelta cfg cm (s.counter t) k delta = true) : Fits s t k delta := by
  cases k with
  | add =>
    rw [hcm rfl, admitsDelta, usub_of_le hle, decide_eq_true_iff] at h
    rw [Fits]
    omega
  | sub =>
    rw [admitsDelta, decide_eq_true_iff] at h
    exact h

/-- The steps outside the mutex. -/
theorem inv_outside {online : ℕ} (hi : Inv cfg s) (hh : (s.loc t).holds = false)
    (hno : s.handler t = none) (hn : stepThread cfg t online s = some s') :
    Inv cfg (St.record t s s') := by
  have hp := hi.loc t
  have hcount := hi.counting t
  have hkeep : ∀ u, Own u s.toCalls s.toCalls := fun u => Own.refl
  have hret := fun r => hi.returned t r
  unfold stepThread at hn
  cases hl : s.loc t with
  | idle => simp [hl] at hn
  | setCounting k delta =>
    rw [hl] at hp
    simp only [hl, Option.some.injEq] at hn
    subst hn
    exact hi.walk (l := .loadTheft k delta) rfl rfl (by rw [hl]; rfl) (by rw [hl]; rfl)
      rfl rfl rfl rfl rfl rfl rfl (fun u _ h => by rw [hl] at h; exact h) nofun (fun u _ => hkeep u)
      (fun u hu => Function.update_of_ne hu _ _) (Function.update_self ..) rfl hno hp hret
  | loadTheft k delta =>
    simp only [hl, Option.some.injEq] at hn
    exact hn ▸ inv_loadTheft hi hl hno
  | loadMax delta =>
    rw [hl] at hp hcount
    simp only [hl, Option.some.injEq] at hn
    subst hn
    exact hi.walk (l := .loadCounter .add delta (s.countermax t)) rfl rfl (by rw [hl]; rfl)
      (by rw [hl]; rfl) rfl rfl rfl rfl rfl rfl rfl (fun u _ h => by rw [hl] at h; exact h)
      (fun _ => by rw [hl]; rfl) (fun u _ => hkeep u) (fun _ _ => rfl) hcount rfl hno
      ⟨hp, fun _ => rfl⟩ hret
  | loadCounter k delta cm =>
    have hle := hi.fast_le (t := t) (by rw [hl]; rfl)
    rw [hl] at hp hcount
    simp only [hl, Option.some.injEq] at hn
    subst hn
    refine hi.walk rfl rfl (by rw [hl]; split <;> rfl) (by rw [hl]; split <;> rfl) rfl rfl rfl rfl
      rfl rfl rfl (fun u _ h => by rw [hl] at h; exact h.elim) (fun _ => by rw [hl]; rfl)
      (fun u _ => hkeep u) (fun _ _ => rfl) ?_ rfl hno ?_ hret
    · split <;> exact hcount
    · split
      · exact ⟨hp.1, fits_of_admitsDelta hle hp.2 ‹_›⟩
      · exact hp.1
  | reload k delta =>
    rw [hl] at hp hcount
    simp only [hl, Option.some.injEq] at hn
    subst hn
    exact hi.walk (l := .store k delta (s.counter t)) rfl rfl (by rw [hl]; rfl)
      (by rw [hl]; rfl) rfl rfl rfl rfl rfl rfl rfl (fun u _ h => by rw [hl] at h; exact h)
      (fun _ => by rw [hl]; rfl) (fun u _ => hkeep u) (fun _ _ => rfl) hcount rfl hno
      ⟨hp.1, hp.2, rfl⟩ hret
  | store k delta c =>
    simp only [hl, Option.some.injEq] at hn
    exact hn ▸ inv_store hi hl hno
  | clearCounting k delta fastpath =>
    rw [hl] at hp
    simp only [hl, Option.some.injEq] at hn
    subst hn
    exact hi.walk (l := .checkAck k delta fastpath) rfl rfl (by rw [hl]; rfl) (by rw [hl]; rfl)
      rfl rfl rfl rfl rfl rfl rfl (fun u _ h => by rw [hl] at h; exact h) nofun (fun u _ => hkeep u)
      (fun u hu => Function.update_of_ne hu _ _) (Function.update_self ..) rfl hno
      (Left.frame hp Own.refl) hret
  | checkAck k delta fastpath =>
    have hsame : s.setTheft t (s.theft t) = s := by rw [St.setTheft, Function.update_eq_self]
    have hleave := inv_leave (x := s.theft t) hi hh (by rw [hl]; rfl) hno
      (fun u h => by rw [hl] at h; exact h) (.inl rfl) (by rw [hl] at hp; exact hp)
    rw [hsame] at hleave
    rw [hl] at hp hcount
    simp only [hl, Option.some.injEq] at hn
    split at hn <;> subst hn
    · exact hi.walk (l := .setReady k delta fastpath) rfl rfl (by rw [hl]; rfl)
        (by rw [hl]; rfl) rfl rfl rfl rfl rfl rfl rfl (fun u _ h => by rw [hl] at h; exact h)
        nofun (fun u _ => hkeep u) (fun _ _ => rfl) hcount rfl hno
        ⟨Left.frame hp Own.refl, ‹_›⟩ hret
    · exact hleave
  | setReady k delta fastpath =>
    have hcount' : (s.loc t).counts = false := by rw [hl]; rfl
    have hasks : ∀ u, ¬ (s.loc t).asks u := fun u h => by rw [hl] at h; exact h
    rw [hl] at hp
    simp only [hl, Option.some.injEq] at hn
    subst hn
    exact inv_leave hi hh hcount' hno hasks (.inr ⟨hp.2, rfl⟩) hp.1
  | lock j =>
    simp only [hl] at hn
    split at hn <;> simp only [Option.some.injEq, reduceCtorEq] at hn
    exact hn ▸ inv_lock hi hl hno ‹_›
  | _ =>
    rw [hl] at hh
    cases hh

/-- What is not asked for is idle. -/
theorem Inv.idle (hi : Inv cfg s) (hh : (s.loc t).holds = true) (h : ¬ (s.loc t).asks u) :
    s.theft u = .idle := by
  by_contra hu
  obtain ⟨-, v, hv, ha⟩ := hi.theft u hu
  obtain rfl := Option.some.inj ((hi.mutex_eq hh).symm.trans hv)
  exact h ha

/-- The holder sets the `theft` of a thread that has no request to answer. -/
theorem inv_setTheft {i : Fin n} {x : Theft} (hi : Inv cfg s) (hh : (s.loc t).holds = true)
    (hh' : l.holds = true) (hno : s.handler t = none) (hmov : l.moving t = (s.loc t).moving t)
    (hfree : s.theft i = .idle ∨ s.theft i = .ready)
    (hasks : ∀ u, u ≠ i → (s.loc t).asks u → l.asks u)
    (hnew : x ≠ .idle → s.counterp i = true ∧ l.asks i) (hz : x = .ready → Zero s i)
    (hl : LocInv cfg ((s.setTheft i x).goto t l) t l) :
    Inv cfg (St.record t s ((s.setTheft i x).goto t l)) := by
  have hother : ∀ u, u ≠ i → Function.update s.theft i x u = s.theft u := fun u hu =>
    Function.update_of_ne hu _ _
  refine hi.quiet (l := l) rfl rfl (hh'.trans hh.symm) hmov rfl rfl rfl rfl rfl (fun u hu => ?_)
    (fun u h1 h2 => ?_) (fun u hu => ⟨Own.refl, fun h => ?_, rfl, rfl, fun _ => ⟨rfl, rfl⟩⟩)
    (.inl hh) ?_ ?_ hl (hi.returned_of (.inr Own.refl))
  · have hu' : Function.update s.theft i x u ≠ .idle := hu
    by_cases hui : u = i
    · subst hui
      rw [Function.update_self] at hu'
      exact .inr ⟨(hnew hu').1, hh, (hnew hu').2⟩
    · rw [hother u hui] at hu'
      exact .inl ⟨hu', hasks u hui⟩
  · have h1' : Function.update s.theft i x u = .ready ∨ s.stolen u = true := h1
    have h2' : (Function.update s.loc t l u).inFast = true := h2
    by_cases hut : u = t
    · subst hut
      rw [Function.update_self, Loc.not_inFast hh'] at h2'
      cases h2'
    · rw [Function.update_of_ne hut] at h2'
      by_cases hui : u = i
      · subst hui
        rw [Function.update_self] at h1'
        exact h1'.elim hz fun h => hi.stolen u (.inr h) h2'
      · rw [hother u hui] at h1'
        exact hi.stolen u h1' h2'
  · refine hother u ?_
    rintro rfl
    rcases hfree with hf | hf <;> rw [hf] at h <;> rcases h with h | h <;> cases h
  · exact (hi.counting t).trans ((Loc.not_counts hh).trans (Loc.not_counts hh').symm)
  · show HandlerInv _ t (s.handler t)
    rw [hno]
    trivial

/-- A step of the holder that changes nothing but where it is, and signals pending. -/
theorem Inv.roam (hi : Inv cfg s) (hh : (s.loc t).holds = true) (hh' : l.holds = true)
    (hloc : s'.loc = Function.update s.loc t l) (hm : s'.mutex = s.mutex)
    (hmov : l.moving t = (s.loc t).moving t) (hcalls : s'.toCalls = s.toCalls)
    (hc : s'.counter = s.counter) (hcm : s'.countermax = s.countermax)
    (hg : s'.globalcount = s.globalcount) (hr : s'.globalreserve = s.globalreserve)
    (hth : s'.theft = s.theft) (hst : s'.stolen = s.stolen) (hcounting : s'.counting = s.counting)
    (hha : s'.handler = s.handler) (hno : s.handler t = none)
    (hasks : ∀ u, s.theft u ≠ .idle → (s.loc t).asks u → l.asks u) (hl : LocInv cfg s t l) :
    Inv cfg (St.record t s s') := by
  have hown : ∀ u, Own u s.toCalls s'.toCalls := fun u => hcalls ▸ Own.refl
  refine hi.walk hloc hm (hh'.trans hh.symm) hmov hc hcm hg hr (congrArg Calls.counterp hcalls) hth
    hst hasks (fun h => ?_) (fun u _ => hown u) (fun u _ => congrFun hcounting u) ?_ hha hno
    (hl.frame (hown t) (fun _ h => (congrFun hth t).trans h)
      (fun _ => ⟨congrFun hc t, congrFun hcm t⟩) fun _ => ⟨hg, hr, hcm, congrFun hc t,
        congrArg Calls.counterp hcalls, fun v _ => congrFun hc v,
        fun v hv => ⟨(congrFun hth v).trans hv, congrFun hc v⟩⟩) (hi.returned_of (.inr (hown t)))
  · rw [Loc.not_inFast hh'] at h
    cases h
  · rw [hcounting, hi.counting, Loc.not_counts hh, Loc.not_counts hh']

/-- The steps of `flush_local_count` that ask and wait. -/
theorem inv_flush {online : ℕ} (hi : Inv cfg s) (hno : s.handler t = none)
    (hn : stepThread cfg t online s = some s')
    (hl : (∃ k delta i, s.loc t = .askNext k delta i ∨ s.loc t = .waitNext k delta i) ∨
      ∃ k delta i, s.loc t = .askMax k delta i ∨ s.loc t = .askReady k delta i ∨
        s.loc t = .askReq k delta i ∨ s.loc t = .askKill k delta i ∨ s.loc t = .waitLoad k delta i ∨
        s.loc t = .waitPoll k delta i ∨ s.loc t = .waitKill k delta i ∨
        s.loc t = .stealIdle k delta i) : Inv cfg (St.record t s s') := by
  have hp := hi.loc t
  unfold stepThread at hn
  rcases hl with ⟨k, delta, i, hl | hl⟩ | ⟨k, delta, i, hl | hl | hl | hl | hl | hl | hl | hl⟩ <;>
    rw [hl] at hp <;> simp only [hl, Option.some.injEq] at hn <;> subst hn <;>
    have hh : (s.loc t).holds = true := by rw [hl]; rfl
  · refine hi.roam hh ?_ rfl rfl ?_ rfl rfl rfl rfl rfl rfl rfl rfl rfl hno (fun u _ h => ?_) ?_
    · split <;> [split; skip] <;> rfl
    · rw [hl]
      split <;> [split; skip] <;> rfl
    · rw [hl] at h
      have h' : u.1 < i := h
      split
      · split
        · exact h'
        · exact Nat.lt_succ_of_lt h'
      · exact Nat.zero_le _
    · split
      · split
        · exact ⟨hp.1, hp.2, ‹_›⟩
        · exact hp
      · exact ⟨hp.1, hp.2, fun u hu => absurd hu (Nat.not_lt_zero _)⟩
  · refine hi.roam hh ?_ rfl rfl ?_ rfl rfl rfl rfl rfl rfl rfl rfl rfl hno (fun u hu h => ?_) ?_
    · split <;> [split; skip] <;> rfl
    · rw [hl]
      split <;> [split; skip] <;> rfl
    · rw [hl] at h
      have h' : i ≤ u.1 := h
      split
      · split
        · exact h'
        · rename_i hlt hc
          refine Nat.lt_of_le_of_ne h' fun hiu => hc ?_
          rw [show (⟨i, hlt⟩ : Fin n) = u from Fin.ext hiu]
          exact (hi.theft u hu).1
      · have := u.isLt
        omega
    · split
      · split
        · exact ⟨hp.1, hp.2.1, fun u hu => hp.2.2 u hu⟩
        · rename_i hlt hc
          refine ⟨hp.1, hp.2.1, fun u hu => ?_⟩
          rcases Nat.lt_succ_iff_lt_or_eq.mp hu with h | h
          · exact hp.2.2 u h
          · have hui : u = ⟨i, hlt⟩ := Fin.ext h
            exact hi.unregistered u (by rw [hui]; exact Bool.eq_false_iff.mpr hc)
      · exact ⟨hp.1, fun u => hp.2.2 u (by omega)⟩
  · refine hi.roam hh (by split <;> rfl) rfl rfl (by rw [hl]; split <;> rfl) rfl rfl rfl rfl rfl rfl
      rfl rfl rfl hno (fun u _ h => ?_) ?_
    · rw [hl] at h
      split <;> exact h
    · split
      · exact ⟨hp.1, hp.2.1, hp.2.2, ‹_›⟩
      · exact hp
  · have hmov : s.moving = none := by rw [moving_of_holder (hi.mutex_eq hh), hl]; rfl
    have hz : Zero s i := ⟨Nat.le_zero.mp (hp.2.2.2 ▸ hi.high hmov i), hp.2.2.2⟩
    refine inv_setTheft hi hh rfl hno (by rw [hl]; rfl)
      (.inl (hi.idle hh fun h => by rw [hl] at h; exact absurd h (lt_irrefl i)))
      (fun u _ h => ?_) (fun _ => ⟨hp.2.2.1, Nat.lt_succ_self _⟩) (fun _ => hz)
      ⟨hp.1, hp.2.1⟩
    rw [hl] at h
    exact Nat.lt_succ_of_lt h
  · refine inv_setTheft hi hh rfl hno (by rw [hl]; rfl)
      (.inl (hi.idle hh fun h => by rw [hl] at h; exact absurd h (lt_irrefl i)))
      (fun u _ h => ?_) (fun _ => ⟨hp.2.2, le_rfl⟩) nofun ⟨hp.1, hp.2.1⟩
    rw [hl] at h
    exact le_of_lt h
  · refine hi.roam (l := .askNext k delta (i + 1)) hh rfl rfl rfl (by rw [hl]; rfl) rfl rfl rfl rfl
      rfl rfl rfl rfl rfl hno (fun u _ h => ?_) hp
    rw [hl] at h
    exact Nat.lt_succ_of_le h
  · refine hi.roam hh (by split <;> rfl) rfl rfl (by rw [hl]; split <;> rfl) rfl rfl rfl rfl rfl rfl
      rfl rfl rfl hno (fun u _ h => ?_) ?_
    · rw [hl] at h
      split <;> exact h
    · split
      · exact ⟨hp.1, hp.2.1, hp.2.2, ‹_›⟩
      · exact hp
  · refine hi.roam hh (by split <;> rfl) rfl rfl (by rw [hl]; split <;> rfl) rfl rfl rfl rfl rfl rfl
      rfl rfl rfl hno (fun u _ h => ?_) ?_
    · rw [hl] at h
      split <;> exact h
    · split <;> exact hp
  · refine hi.roam (l := .waitLoad k delta i) hh rfl rfl rfl (by rw [hl]; rfl) rfl rfl rfl rfl
      rfl rfl rfl rfl rfl hno (fun u _ h => ?_) hp
    rw [hl] at h
    exact h
  · refine inv_setTheft hi hh rfl hno (by rw [hl]; rfl) (.inr hp.2.2.2.1) (fun u hu h => ?_)
      (fun h => absurd rfl h) nofun ⟨hp.1, hp.2.1, fun u hu => ?_⟩
    · rw [hl] at h
      exact lt_of_le_of_ne h (Ne.symm hu)
    · rcases Nat.lt_succ_iff_lt_or_eq.mp hu with h | h
      · exact hp.2.2.1 u h
      · exact Fin.ext h ▸ hp.2.2.2.2

/-- What stealing from `i` adds to the history. -/
theorem stolen_steal {i : Fin n} (hi : s.theft i = .ready) (u : Fin n)
    (h : Function.update s.stolen i true u = true) : s.stolen u = true ∨ s.theft u = .ready := by
  by_cases hu : u = i
  · exact .inr (hu ▸ hi)
  · rw [Function.update_of_ne hu] at h
    exact .inl h

/-- The steps of `globalize_count`. -/
theorem inv_globalize {online : ℕ} {j : Job} (hi : Inv cfg s) (hno : s.handler t = none)
    (hn : stepThread cfg t online s = some s')
    (hl : s.loc t = .globCount j ∨ s.loc t = .globZero j ∨ s.loc t = .globReserve j ∨
      s.loc t = .globMax j) : Inv cfg (St.record t s s') := by
  have hp := hi.loc t
  have hfits := cfg.fits
  obtain ⟨hb1, hb2, hb3⟩ := hi.bounds
  unfold stepThread at hn
  rcases hl with hl | hl | hl | hl <;> have hh : (s.loc t).holds = true := by rw [hl]; rfl
  all_goals
    have hasks : ∀ u, ¬ (s.loc t).asks u := fun u h => by rw [hl] at h; exact h
    have hmov : s.moving = (s.loc t).moving t := moving_of_holder (hi.mutex_eq hh)
    rw [hl] at hp hmov
    simp only [hl, Option.some.injEq] at hn
  · have hle := hi.high hmov t
    have := hb3 hmov t
    rw [owed_of_none hmov] at hb2
    rw [uadd_of_lt (by omega)] at hn
    subst hn
    exact hi.shift (w := t) (l := .globZero j) ⟨rfl, rfl, rfl, rfl, rfl, rfl, fun _ _ => ⟨rfl, rfl⟩⟩
      hh rfl hno (fun u h => (hasks u h).elim) (.inl rfl) (.inr id) (fun u h => .inl h)
      (books_collect hi hmov (moving_goto (hi.mutex_eq hh)) rfl rfl rfl rfl) hp
  · subst hn
    have hmov' : ((s.setCounter t 0).goto t (.globReserve j)).moving = some (t, true) :=
      moving_goto (hi.mutex_eq hh)
    exact hi.hidden (w := t) (l := .globReserve j)
      ⟨rfl, rfl, rfl, rfl, rfl, rfl, fun u hu => ⟨Function.update_of_ne hu _ _, rfl⟩⟩
      hh rfl hno (fun u h => (hasks u h).elim) (.inl rfl)
      (.inr fun h => ⟨Function.update_self .., h.2⟩) (fun u h => .inl h) (.inl ⟨true, hmov⟩)
      (.inl ⟨true, hmov'⟩) rfl (by rw [owed_of_moving hmov, owed_of_moving hmov']; rfl)
      ⟨hp, Function.update_self ..⟩
  · have howed : s.owed = s.countermax t := owed_of_moving hmov
    rw [usub_of_le (by omega)] at hn
    subst hn
    set s₀ := { s with globalreserve := s.globalreserve - s.countermax t }.goto t (.globMax j)
      with hs₀
    have hmov' : s₀.moving = some (t, false) := moving_goto (hi.mutex_eq hh)
    have hres : s₀.globalreserve = s.globalreserve - s.countermax t := rfl
    have howed' : s₀.owed = 0 := owed_of_moving hmov'
    exact hi.hidden (w := t) (l := .globMax j) ⟨rfl, rfl, rfl, rfl, rfl, rfl, fun _ _ => ⟨rfl, rfl⟩⟩
      hh rfl hno (fun u h => (hasks u h).elim) (.inl rfl) (.inr id) (fun u h => .inl h)
      (.inl ⟨true, hmov⟩) (.inl ⟨false, hmov'⟩) rfl (by omega) hp
  · subst hn
    set s₀ := (s.setMax t 0).goto t (.globalized j) with hs₀
    have hj : (Loc.globalized j : Loc n).holds = true ∧ (Loc.globalized j : Loc n).moving t = none := by
      cases j <;> exact ⟨rfl, rfl⟩
    have hmov' : s₀.moving = none := (moving_goto (hi.mutex_eq hh)).trans hj.2
    have hz : Zero s₀ t := ⟨hp.2, Function.update_self ..⟩
    refine hi.hidden (w := t) (l := .globalized j)
      ⟨rfl, rfl, rfl, rfl, rfl, rfl, fun u hu => ⟨rfl, Function.update_of_ne hu _ _⟩⟩
      hh hj.1 hno (fun u h => (hasks u h).elim) (.inl rfl) (.inr fun _ => hz) (fun u h => .inl h)
      (.inl ⟨false, hmov⟩) (.inr ⟨hmov', hz⟩) rfl
      (by rw [owed_of_moving hmov, owed_of_none hmov']; rfl) ?_
    cases j with
    | update k delta => exact ⟨hp.1, hz⟩
    | register => exact fun _ => hz
    | unregister => exact fun _ => hz

/-- The steps of `flush_local_count` that take the numbers of a ready thread. -/
theorem inv_steal {online : ℕ} {i : Fin n} (hi : Inv cfg s) (hno : s.handler t = none)
    (hn : stepThread cfg t online s = some s')
    (hl : s.loc t = .stealCount k delta i ∨ s.loc t = .stealZero k delta i ∨
      s.loc t = .stealReserve k delta i ∨ s.loc t = .stealMax k delta i) :
    Inv cfg (St.record t s s') := by
  have hp := hi.loc t
  have hfits := cfg.fits
  obtain ⟨hb1, hb2, hb3⟩ := hi.bounds
  unfold stepThread at hn
  rcases hl with hl | hl | hl | hl <;> have hh : (s.loc t).holds = true := by rw [hl]; rfl
  all_goals
    have hmov : s.moving = (s.loc t).moving t := moving_of_holder (hi.mutex_eq hh)
    have hasks : ∀ u, (s.loc t).asks u → i ≤ u := fun u h => by rw [hl] at h; exact h
    rw [hl] at hp hmov
    simp only [hl, Option.some.injEq] at hn
  · have hle := hi.high hmov i
    have := hb3 hmov i
    rw [owed_of_none hmov] at hb2
    rw [uadd_of_lt (by omega)] at hn
    subst hn
    exact hi.shift (w := i) (l := .stealZero k delta i)
      ⟨rfl, rfl, rfl, rfl, rfl, rfl, fun _ _ => ⟨rfl, rfl⟩⟩ hh rfl hno hasks (.inr hp.2.2.2)
      (.inr id) (stolen_steal hp.2.2.2)
      (books_collect hi hmov (moving_goto (hi.mutex_eq hh)) rfl rfl rfl rfl) hp
  · subst hn
    set s₀ := ((s.setCounter i 0).steal i).goto t (.stealReserve k delta i) with hs₀
    have hmov' : s₀.moving = some (i, true) := moving_goto (hi.mutex_eq hh)
    have hnum : ∀ u, u ≠ i → s₀.counter u = s.counter u ∧ s₀.countermax u = s.countermax u :=
      fun u hu => ⟨Function.update_of_ne hu _ _, rfl⟩
    have hzero : ∀ u, Zero s u → Zero s₀ u := fun u hu => by
      by_cases hui : u = i
      · subst hui
        exact ⟨Function.update_self .., hu.2⟩
      · exact ⟨(hnum u hui).1.trans hu.1, hu.2⟩
    exact hi.hidden (w := i) (l := .stealReserve k delta i) ⟨rfl, rfl, rfl, rfl, rfl, rfl, hnum⟩
      hh rfl hno hasks (.inr hp.2.2.2) (.inr (hzero i)) (stolen_steal hp.2.2.2)
      (.inl ⟨true, hmov⟩) (.inl ⟨true, hmov'⟩) rfl
      (by rw [owed_of_moving hmov, owed_of_moving hmov']; rfl)
      ⟨hp.1, hzero t hp.2.1, fun u hu => hzero u (hp.2.2.1 u hu), hp.2.2.2,
        Function.update_self ..⟩
  · have howed : s.owed = s.countermax i := owed_of_moving hmov
    rw [usub_of_le (by omega)] at hn
    subst hn
    set s₀ := ({ s with globalreserve := s.globalreserve - s.countermax i }.steal i).goto t
      (.stealMax k delta i) with hs₀
    have hmov' : s₀.moving = some (i, false) := moving_goto (hi.mutex_eq hh)
    have hres : s₀.globalreserve = s.globalreserve - s.countermax i := rfl
    have howed' : s₀.owed = 0 := owed_of_moving hmov'
    exact hi.hidden (w := i) (l := .stealMax k delta i)
      ⟨rfl, rfl, rfl, rfl, rfl, rfl, fun _ _ => ⟨rfl, rfl⟩⟩ hh rfl hno hasks (.inr hp.2.2.2.1)
      (.inr id) (stolen_steal hp.2.2.2.1) (.inl ⟨true, hmov⟩) (.inl ⟨false, hmov'⟩) rfl (by omega)
      hp
  · subst hn
    set s₀ := ((s.setMax i 0).steal i).goto t (.stealIdle k delta i) with hs₀
    have hmov' : s₀.moving = none := moving_goto (hi.mutex_eq hh)
    have hnum : ∀ u, u ≠ i → s₀.counter u = s.counter u ∧ s₀.countermax u = s.countermax u :=
      fun u hu => ⟨rfl, Function.update_of_ne hu _ _⟩
    have hz : Zero s₀ i := ⟨hp.2.2.2.2, Function.update_self ..⟩
    have hzero : ∀ u, Zero s u → Zero s₀ u := fun u hu => by
      by_cases hui : u = i
      · exact hui ▸ hz
      · exact ⟨hu.1, (hnum u hui).2.trans hu.2⟩
    exact hi.hidden (w := i) (l := .stealIdle k delta i) ⟨rfl, rfl, rfl, rfl, rfl, rfl, hnum⟩
      hh rfl hno hasks (.inr hp.2.2.2.1) (.inr (hzero i)) (stolen_steal hp.2.2.2.1)
      (.inl ⟨false, hmov⟩) (.inr ⟨hmov', hz⟩) rfl
      (by rw [owed_of_moving hmov, owed_of_none hmov']; rfl)
      ⟨hp.1, hzero t hp.2.1, fun u hu => hzero u (hp.2.2.1 u hu), hp.2.2.2.1, hz⟩

/-- The two tests of the slow path. -/
theorem inv_test {online : ℕ} (hi : Inv cfg s) (hno : s.handler t = none)
    (hn : stepThread cfg t online s = some s')
    (hl : s.loc t = .test k delta ∨ s.loc t = .retest k delta) : Inv cfg (St.record t s s') := by
  have hp := hi.loc t
  obtain ⟨hb1, hb2, hb3⟩ := hi.bounds
  unfold stepThread at hn
  rcases hl with hl | hl <;> have hh : (s.loc t).holds = true := by rw [hl]; rfl
  all_goals
    have hmov : s.moving = (s.loc t).moving t := moving_of_holder (hi.mutex_eq hh)
    have hasks : ∀ u, ¬ (s.loc t).asks u := fun u h => by rw [hl] at h; exact h
    rw [hl] at hp hmov
    simp only [hl, Option.some.injEq] at hn
    rw [owed_of_none hmov] at hb2
    subst hn
  · refine hi.roam hh (by split <;> rfl) rfl rfl (by rw [hl]; split <;> rfl) rfl rfl rfl rfl rfl rfl
      rfl rfl rfl hno (fun u _ h => (hasks u h).elim) ?_
    split
    · exact hp
    · exact ⟨hp.1, hp.2, granted_of_not_lacks hb2 ‹_›⟩
  · -- nobody has an allowance, so the number counted is `globalcount`
    have hzero : ∀ u, s.books.cm u = 0 := fun u => by
      rw [St.books]
      dsimp only
      rw [(c_of_none hmov).2, (hp.2 u).2]
      rfl
    obtain ⟨htotal, hres⟩ := hi.balanced.total_of_no_reserve hzero
    have hres' : (s.globalreserve : ℤ) - s.owed = 0 := hres
    rw [owed_of_none hmov] at hres'
    set l : Loc n := if cfg.lacks s.globalcount s.globalreserve k delta then .unlock (some 0)
      else .apply k delta with hl'
    have hplace : l.holds = true ∧ l.moving t = none ∧ l.inFast = false := by
      rw [hl']
      split <;> exact ⟨rfl, rfl, rfl⟩
    refine hi.walk (l := l) rfl rfl (hplace.1.trans hh.symm) (by rw [hl, hplace.2.1]; rfl) rfl rfl
      rfl rfl rfl rfl rfl (fun u _ h => (hasks u h).elim)
      (fun h => by rw [hplace.2.2] at h; cases h) (fun u hu => Own.note hu) (fun _ _ => rfl)
      ((hi.counting t).trans ((Loc.not_counts hh).trans (Loc.not_counts hplace.1).symm)) rfl hno ?_
      fun r hr => ?_
    · rw [hl']
      split
      · refine ⟨⟨k, delta, hp.1.1, .inr ⟨rfl, hp.1.2.1, s.total, Function.update_self .., ?_⟩⟩,
          hp.1.2.2.1⟩
        rw [St.total, htotal]
        exact exceeds_of_lacks hb2 (by omega) ‹_›
      · exact ⟨hp.1, hp.2 t, granted_of_not_lacks hb2 ‹_›⟩
    · have hr' : s.ret t = some r := hr
      rw [hp.1.2.2.1] at hr'
      cases hr'

/-- The steps of `balance_count`. -/
theorem inv_balance {online : ℕ} (hi : Inv cfg s) (hno : s.handler t = none)
    (hn : stepThread cfg t online s = some s')
    (hl : s.loc t = .balMax ∨ s.loc t = .balDivide ∨ s.loc t = .balCap ∨ s.loc t = .balReserve ∨
      s.loc t = .balHalf ∨ s.loc t = .balClip ∨ s.loc t = .balCount) :
    Inv cfg (St.record t s s') := by
  have hp := hi.loc t
  have hfits := cfg.fits
  obtain ⟨hb1, hb2, hb3⟩ := hi.bounds
  unfold stepThread at hn
  rcases hl with hl | hl | hl | hl | hl | hl | hl <;>
    have hh : (s.loc t).holds = true := by rw [hl]; rfl
  all_goals
    have hmov : s.moving = (s.loc t).moving t := moving_of_holder (hi.mutex_eq hh)
    have hasks : ∀ u, ¬ (s.loc t).asks u := fun u h => by rw [hl] at h; exact h
    have hmoved : s.Moved t := by rw [hl] at hp; exact hp.1
    obtain ⟨-, -, -, -, -, hreg⟩ := hmoved
    rw [hl] at hp hmov
  · simp only [hl, Option.some.injEq] at hn
    subst hn
    rw [owed_of_none hmov] at hb2
    have hroom := room_eq hb2
    set s₀ := (s.setMax t (cfg.room s.globalcount s.globalreserve)).goto t .balDivide with hs₀
    have hmov' : s₀.moving = some (t, false) := moving_goto (hi.mutex_eq hh)
    have hmax : s₀.countermax t = cfg.room s.globalcount s.globalreserve := Function.update_self ..
    refine hi.hidden (w := t) (l := .balDivide)
      ⟨rfl, rfl, rfl, rfl, rfl, rfl, fun u hu => ⟨rfl, Function.update_of_ne hu _ _⟩⟩
      hh rfl hno (fun u h => (hasks u h).elim) (.inl rfl) (.inl ⟨rfl, hreg⟩) (fun u h => .inl h)
      (.inr ⟨hmov, hp.2⟩) (.inl ⟨false, hmov'⟩) rfl
      (by rw [owed_of_none hmov, owed_of_moving hmov']; rfl) ⟨hp.1, hp.2.1, ?_⟩
    show s.globalcount + s.globalreserve + s₀.countermax t ≤ _
    omega
  · simp only [hl, Option.ite_none_left_eq_some, Option.some.injEq] at hn
    obtain ⟨-, hn⟩ := hn
    subst hn
    set s₀ := (s.setMax t (s.countermax t / online)).goto t .balCap with hs₀
    have hmov' : s₀.moving = some (t, false) := moving_goto (hi.mutex_eq hh)
    have hmax : s₀.countermax t = s.countermax t / online := Function.update_self ..
    refine hi.hidden (w := t) (l := .balCap)
      ⟨rfl, rfl, rfl, rfl, rfl, rfl, fun u hu => ⟨rfl, Function.update_of_ne hu _ _⟩⟩
      hh rfl hno (fun u h => (hasks u h).elim) (.inl rfl) (.inl ⟨rfl, hreg⟩) (fun u h => .inl h)
      (.inl ⟨false, hmov⟩) (.inl ⟨false, hmov'⟩) rfl
      (by rw [owed_of_moving hmov, owed_of_moving hmov']; rfl) ⟨hp.1, hp.2.1, ?_⟩
    show s.globalcount + s.globalreserve + s₀.countermax t ≤ _
    have := Nat.div_le_self (s.countermax t) online
    have := hp.2.2
    omega
  · simp only [hl, Option.some.injEq] at hn
    subst hn
    set s₀ := (s.setMax t (min (s.countermax t) maxCountermax)).goto t .balReserve with hs₀
    have hmov' : s₀.moving = some (t, false) := moving_goto (hi.mutex_eq hh)
    have hmax : s₀.countermax t = min (s.countermax t) maxCountermax := Function.update_self ..
    refine hi.hidden (w := t) (l := .balReserve)
      ⟨rfl, rfl, rfl, rfl, rfl, rfl, fun u hu => ⟨rfl, Function.update_of_ne hu _ _⟩⟩
      hh rfl hno (fun u h => (hasks u h).elim) (.inl rfl) (.inl ⟨rfl, hreg⟩) (fun u h => .inl h)
      (.inl ⟨false, hmov⟩) (.inl ⟨false, hmov'⟩) rfl
      (by rw [owed_of_moving hmov, owed_of_moving hmov']; rfl)
      ⟨hp.1, hp.2.1, hmax ▸ Nat.min_le_right _ _, ?_⟩
    show s.globalcount + s.globalreserve + s₀.countermax t ≤ _
    have := Nat.min_le_left (s.countermax t) maxCountermax
    have := hp.2.2
    omega
  · obtain ⟨hm, hc0, hcap, hlimit⟩ := hp
    simp only [hl, Option.some.injEq] at hn
    rw [uadd_of_lt (by omega)] at hn
    subst hn
    set s₀ := { s with globalreserve := s.globalreserve + s.countermax t }.goto t .balHalf with hs₀
    have hmov' : s₀.moving = some (t, true) := moving_goto (hi.mutex_eq hh)
    have hres : s₀.globalreserve = s.globalreserve + s.countermax t := rfl
    have howed : s.owed = 0 := owed_of_moving hmov
    have howed' : s₀.owed = s.countermax t := owed_of_moving hmov'
    refine hi.hidden (w := t) (l := .balHalf) ⟨rfl, rfl, rfl, rfl, rfl, rfl, fun _ _ => ⟨rfl, rfl⟩⟩
      hh rfl hno (fun u h => (hasks u h).elim) (.inl rfl) (.inr id) (fun u h => .inl h)
      (.inl ⟨false, hmov⟩) (.inl ⟨true, hmov'⟩) rfl (by omega) ⟨hm, hcap, ?_⟩
    show s.globalcount + (s.globalreserve + s.countermax t) ≤ _
    omega
  · simp only [hl, Option.some.injEq] at hn
    subst hn
    set s₀ := (s.setCounter t (s.countermax t / 2)).goto t .balClip with hs₀
    have hmov' : s₀.moving = some (t, true) := moving_goto (hi.mutex_eq hh)
    have hc : s₀.counter t = s.countermax t / 2 := Function.update_self ..
    refine hi.hidden (w := t) (l := .balClip)
      ⟨rfl, rfl, rfl, rfl, rfl, rfl, fun u hu => ⟨Function.update_of_ne hu _ _, rfl⟩⟩
      hh rfl hno (fun u h => (hasks u h).elim) (.inl rfl) (.inl ⟨rfl, hreg⟩) (fun u h => .inl h)
      (.inl ⟨true, hmov⟩) (.inl ⟨true, hmov'⟩) rfl
      (by rw [owed_of_moving hmov, owed_of_moving hmov']; rfl) ⟨hp.1, hp.2.1, hp.2.2, ?_⟩
    show s₀.counter t ≤ s.countermax t
    omega
  · simp only [hl, Option.some.injEq] at hn
    subst hn
    set s₀ := (s.setCounter t (min (s.counter t) s.globalcount)).goto t .balCount with hs₀
    have hmov' : s₀.moving = some (t, true) := moving_goto (hi.mutex_eq hh)
    have hc : s₀.counter t = min (s.counter t) s.globalcount := Function.update_self ..
    refine hi.hidden (w := t) (l := .balCount)
      ⟨rfl, rfl, rfl, rfl, rfl, rfl, fun u hu => ⟨Function.update_of_ne hu _ _, rfl⟩⟩
      hh rfl hno (fun u h => (hasks u h).elim) (.inl rfl) (.inl ⟨rfl, hreg⟩) (fun u h => .inl h)
      (.inl ⟨true, hmov⟩) (.inl ⟨true, hmov'⟩) rfl
      (by rw [owed_of_moving hmov, owed_of_moving hmov']; rfl)
      ⟨hp.1, hp.2.1, hp.2.2.1, ?_, hc ▸ Nat.min_le_right _ _⟩
    show s₀.counter t ≤ s.countermax t
    have := Nat.min_le_left (s.counter t) s.globalcount
    have := hp.2.2.2
    omega
  · obtain ⟨⟨k, delta, hcall, hmoves, hret, -⟩, hcap, hlimit, hle, hlt⟩ := hp
    simp only [hl, Option.some.injEq] at hn
    rw [usub_of_le hlt] at hn
    subst hn
    exact hi.shift (w := t) (l := .unlock (some 1))
      ⟨rfl, rfl, rfl, rfl, rfl, rfl, fun _ _ => ⟨rfl, rfl⟩⟩ hh rfl hno
      (fun u h => (hasks u h).elim) (.inl rfl) (.inl ⟨rfl, hreg⟩) (fun u h => .inl h)
      (books_release hi hmov (moving_goto (hi.mutex_eq hh)) rfl rfl hle hcap hlt hlimit rfl rfl)
      ⟨⟨k, delta, hcall, .inl ⟨rfl, hmoves⟩⟩, hret⟩

theorem inv_setPtr {b : Bool} (hi : Inv cfg s) (hl : s.loc t = .setPtr b)
    (hno : s.handler t = none) :
    Inv cfg (St.record t s
      ({ s with counterp := Function.update s.counterp t b }.goto t (.unlock none))) := by
  have hp := hi.loc t
  rw [hl] at hp
  have hh : (s.loc t).holds = true := by rw [hl]; rfl
  set s₀ := { s with counterp := Function.update s.counterp t b }.goto t (.unlock none) with hs₀
  have hloc : s₀.loc = Function.update s.loc t (.unlock none) := rfl
  have hb : s₀.books = s.books :=
    books_quiet (moving_same rfl hloc (by rw [hl]; rfl)) rfl rfl rfl rfl
  rw [record_same (by rw [St.total, hb, St.total])]
  refine hi.of_step hloc (lock_keep hi rfl hloc hh.symm) (hb ▸ hi.balanced) (fun u hu => ?_)
    (fun u hu => ?_) (fun u => hi.stolen_keep hloc rfl rfl (fun h => by cases h) u)
    (fun u hu => ⟨⟨rfl, rfl, rfl, rfl, Function.update_of_ne hu _ _⟩, fun _ => rfl, rfl, rfl,
      fun _ => ⟨rfl, rfl⟩⟩) (.inl hh) ((hi.counting t).trans (by rw [hl]; rfl)) ?_ trivial
    fun r hr => hi.returned t r hr
  · have hu' : Function.update s.counterp t b u = false := hu
    by_cases hut : u = t
    · subst hut
      rw [Function.update_self] at hu'
      exact hp hu'
    · rw [Function.update_of_ne hut] at hu'
      exact hi.unregistered u hu'
  · refine absurd (hi.idle hh fun h => ?_) hu
    rw [hl] at h
    exact h
  · rw [show s₀.handler t = s.handler t from rfl, hno]
    trivial

/-- **Every step keeps the invariant.** -/
theorem inv_stepThread {online : ℕ} (hi : Inv cfg s) (hno : s.handler t = none)
    (hn : stepThread cfg t online s = some s') : Inv cfg (St.record t s s') := by
  have hp := hi.loc t
  have hn' := hn
  unfold stepThread at hn'
  cases hl : s.loc t with
  | globCount j => exact inv_globalize hi hno hn (.inl hl)
  | globZero j => exact inv_globalize hi hno hn (.inr (.inl hl))
  | globReserve j => exact inv_globalize hi hno hn (.inr (.inr (.inl hl)))
  | globMax j => exact inv_globalize hi hno hn (.inr (.inr (.inr hl)))
  | test k delta => exact inv_test hi hno hn (.inl hl)
  | askNext k delta i => exact inv_flush hi hno hn (.inl ⟨k, delta, i, .inl hl⟩)
  | waitNext k delta i => exact inv_flush hi hno hn (.inl ⟨k, delta, i, .inr hl⟩)
  | askMax k delta i | askReady k delta i | askReq k delta i | askKill k delta i
  | waitLoad k delta i | waitPoll k delta i | waitKill k delta i | stealIdle k delta i =>
    exact inv_flush hi hno hn (.inr ⟨k, delta, i, by simp [hl]⟩)
  | stealCount k delta i => exact inv_steal hi hno hn (.inl hl)
  | stealZero k delta i => exact inv_steal hi hno hn (.inr (.inl hl))
  | stealReserve k delta i => exact inv_steal hi hno hn (.inr (.inr (.inl hl)))
  | stealMax k delta i => exact inv_steal hi hno hn (.inr (.inr (.inr hl)))
  | retest k delta => exact inv_test hi hno hn (.inr hl)
  | apply k delta =>
    obtain ⟨hb1, hb2, -⟩ := hi.bounds
    have hfits := cfg.fits
    have hmov : s.moving = (s.loc t).moving t :=
      moving_of_holder (hi.mutex_eq (by rw [hl]; rfl))
    rw [hl] at hp hmov
    rw [owed_of_none hmov] at hb2
    cases k with
    | add =>
      have hg : s.globalcount + s.globalreserve + delta ≤ cfg.globalcountmax := hp.2.2
      simp only [hl, Option.some.injEq] at hn'
      rw [uadd_of_lt (by omega)] at hn'
      exact hn' ▸ inv_apply hi hl hno (by rw [Kind.change]; push_cast; rfl)
    | sub =>
      have hg : delta ≤ s.globalcount := hp.2.2
      simp only [hl, Option.some.injEq] at hn'
      rw [usub_of_le hg] at hn'
      exact hn' ▸ inv_apply hi hl hno (by rw [Kind.change]; omega)
  | balMax | balDivide | balCap | balReserve | balHalf | balClip | balCount =>
    exact inv_balance hi hno hn (by simp [hl])
  | setPtr b =>
    simp only [hl, Option.some.injEq] at hn'
    exact hn' ▸ inv_setPtr hi hl hno
  | unlock ret =>
    cases ret with
    | none =>
      simp only [hl, Option.some.injEq] at hn'
      subst hn'
      exact inv_unlock hi hl hno rfl rfl rfl rfl rfl rfl rfl rfl rfl rfl rfl (fun _ _ => Own.refl)
        fun r hr => hi.returned t r hr
    | some r =>
      rw [hl] at hp
      simp only [hl, Option.some.injEq] at hn'
      subst hn'
      exact inv_unlock hi hl hno rfl rfl rfl rfl rfl rfl rfl rfl rfl rfl rfl
        (fun _ hu => Own.answer hu) fun r' hr => hp.1.answer hr
  | _ => exact inv_outside hi (by rw [hl]; rfl) hno hn

theorem inv_next {a : Act n} (hi : Inv cfg s) (hn : next cfg a s = some s') : Inv cfg s' := by
  obtain ⟨s₀, h0, rfl⟩ := Option.map_eq_some_iff.mp hn
  cases a with
  | step t online =>
    rw [act] at h0
    split at h0
    · exact inv_stepThread hi ‹_› h0
    · cases h0
  | handle t => exact inv_stepHandler hi h0
  | deliver t =>
    rw [act] at h0
    split at h0 <;> simp only [Option.some.injEq, reduceCtorEq] at h0
    subst h0
    refine hi.handle rfl rfl rfl rfl rfl rfl rfl rfl rfl (Function.update_eq_self t s.theft).symm
      (.inl rfl) (fun h => hi.stolen t (.inl h)) (fun u hu => Function.update_of_ne hu _ _) ?_
    dsimp only [Act.thread]
    rw [Function.update_self]
    trivial
  | call k t delta =>
    rw [act] at h0
    split at h0
    · rename_i hl hno hcp
      split at h0 <;> simp only [Option.some.injEq, reduceCtorEq] at h0
      subst h0
      refine hi.walk (l := .setCounting k delta) rfl rfl (by rw [Act.thread, hl]; rfl)
        (by rw [Act.thread, hl]; rfl) rfl rfl rfl rfl rfl rfl rfl
        (fun u _ h => by rw [Act.thread, hl] at h; exact h) nofun (fun u hu => Own.begin hu)
        (fun _ _ => rfl) ((hi.counting t).trans (by rw [hl]; rfl)) rfl hno (Pending.begin hcp)
        (hi.returned_of (.inl (Function.update_self ..)))
    · cases h0
  | register t =>
    rw [act] at h0
    split at h0 <;> simp only [Option.some.injEq, reduceCtorEq] at h0
    rename_i hl hno
    subst h0
    exact hi.walk (l := .lock .register) rfl rfl (by rw [Act.thread, hl]; rfl)
      (by rw [Act.thread, hl]; rfl) rfl rfl rfl rfl rfl rfl rfl
      (fun u _ h => by rw [Act.thread, hl] at h; exact h) nofun (fun _ _ => Own.refl)
      (fun _ _ => rfl) ((hi.counting t).trans (by rw [hl]; rfl)) rfl hno trivial
      fun r hr => hi.returned t r hr
  | unregister t =>
    rw [act] at h0
    split at h0 <;> simp only [Option.some.injEq, reduceCtorEq] at h0
    rename_i hl hno
    subst h0
    exact hi.walk (l := .lock .unregister) rfl rfl (by rw [Act.thread, hl]; rfl)
      (by rw [Act.thread, hl]; rfl) rfl rfl rfl rfl rfl rfl rfl
      (fun u _ h => by rw [Act.thread, hl] at h; exact h) nofun (fun _ _ => Own.refl)
      (fun _ _ => rfl) ((hi.counting t).trans (by rw [hl]; rfl)) rfl hno trivial
      fun r hr => hi.returned t r hr

theorem inv_init (h : Init s) : Inv cfg s := by
  have hmov : s.moving = none := moving_of_free h.mutex
  have hb : s.books = ⟨0, 0, fun _ => 0, fun _ => 0⟩ := by
    simp [St.books, owed_of_none hmov, St.c, St.cm, h.globalcount, h.globalreserve, h.counter,
      h.countermax]
  have hzero : ∀ t, Zero s t := fun t => ⟨h.counter t, h.countermax t⟩
  refine ⟨fun t => ?_, ?_, fun t _ => hzero t, fun u hu => absurd (h.theft u) hu,
    fun u _ _ => hzero u, fun t => ?_, fun t => ?_, fun t => ?_, fun t r hr => ?_⟩
  · rw [h.mutex, h.loc]
    exact iff_of_false (fun h => by cases h) fun h => by cases h
  · rw [hb]
    exact ⟨le_rfl, fun _ => le_rfl, fun _ => le_rfl, fun _ => Int.natCast_nonneg _,
      Finset.sum_const_zero, by simp⟩
  · rw [h.counting, h.loc]
    rfl
  · rw [h.handler]
    trivial
  · rw [h.loc]
    trivial
  · rw [h.ret] at hr
    cases hr

end Sig
end Count
end Perfbook
