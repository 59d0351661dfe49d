/-
# The books of `count_lim` and `count_lim_app` stay balanced

The invariant: the books without what is on its way are balanced, no
arithmetic on `unsigned long` has wrapped, and what the holder of the mutex has
computed so far is right for its place (`Inv`). A step of a thread posts its
own part and allowance, and the rest of the books stays; `Inv.of_step` says
what such a step has to show. What a `read_count` has added up is within
`globalcount` and the allowances of the threads it has passed, and those do
not change while it holds the mutex.

Key definitions: `Loc.holds`, `File.cap`, `Settled`, `LocInv`, `Inv`.
Key theorems: `Inv.of_step`, `Inv.holder`, `Inv.outside`.
-/
import Perfbook.Conc.Lock
import Perfbook.Count.Lim

namespace Perfbook
namespace Count
namespace Lim

open Books

variable {n : ℕ}

/-- A thread at this place holds the mutex. -/
def Loc.holds : Loc n → Bool
  | .idle | .fast _ _ | .store _ _ | .lock _ | .readLock => false
  | _ => true

/-- A thread at this place has not yet cut down its new `countermax`. -/
def Loc.computes : Loc n → Bool
  | .balDiv | .balCap => true
  | _ => false

/-- What an allowance can be. -/
def File.cap (cfg : Config) : File → ℕ
  | .lim => cfg.globalcountmax
  | .limApp => maxCountermax

/-- What the threads other than `t` had reserved at its last test. -/
def St.others (s : St n) (t : Fin n) : ℕ := ∑ u with u ≠ t, s.reserves t u

/-- The call of `t` made its change, or failed at its test, where it could not
be granted with what the other threads had reserved. -/
def Settled (file : File) (cfg : Config) (s : St n) (t : Fin n) (r : ℕ) : Prop :=
  ∃ k delta, s.call t = some (k, delta) ∧ (r = 1 ∧ s.moves t = once k delta ∨
    r = 0 ∧ s.moves t = [] ∧
      ∃ x, s.atTest t = some x ∧ k.exceeds cfg.globalcountmax (delta + s.others t) x ∧
        ∀ u, s.reserves t u ≤ file.cap cfg)

/-- What the `read_count` of a thread has added up of the threads below `i`. -/
def St.Summed (s : St n) (sum i : ℕ) : Prop :=
  sum ≤ s.globalcount + ∑ u with u.1 < i, s.countermax u

/-- What holds of a thread `t` at a place. -/
def LocInv (file : File) (cfg : Config) (s : St n) (t : Fin n) : Loc n → Prop
  | .idle | .readLock | .readInit => True
  | .fast k delta => s.Pending t k delta
  | .store .add delta => s.Pending t .add delta ∧ s.counter t + delta ≤ s.countermax t
  | .store .sub delta => s.Pending t .sub delta ∧ delta ≤ s.counter t
  | .lock j | .globCount j | .globZero j => s.JobInv t j
  | .globReserve j | .globZeroMax j => s.JobInv t j ∧ s.counter t = 0
  | .test k delta => s.Pending t k delta ∧ s.counter t = 0 ∧ s.countermax t = 0
  | .apply k delta => s.Pending t k delta ∧ s.counter t = 0 ∧ s.countermax t = 0 ∧
      Granted cfg s.globalcount s.globalreserve k delta
  | .balRoom => s.Moved t ∧ s.counter t = 0 ∧ s.countermax t = 0
  | .balDiv | .balCap => s.Moved t ∧ s.counter t = 0 ∧
      s.globalcount + s.globalreserve + s.countermax t ≤ cfg.globalcountmax
  | .balReserve => s.Moved t ∧ s.counter t = 0 ∧ s.countermax t ≤ file.cap cfg ∧
      s.globalcount + s.globalreserve + s.countermax t ≤ cfg.globalcountmax
  | .balHalf => s.Moved t ∧ s.counter t = 0
  | .balCheck => s.Moved t ∧ s.counter t ≤ s.countermax t
  | .balCount => s.Moved t ∧ s.counter t ≤ s.countermax t ∧ s.counter t ≤ s.globalcount
  | .setPtr b => b = false → s.counter t = 0 ∧ s.countermax t = 0
  | .unlock none => True
  | .unlock (some r) => Settled file cfg s t r ∧ s.ret t = none
  | .readNext sum i => s.Summed sum i
  | .readAdd sum i => s.Summed sum i
  | .readUnlock sum => sum ≤ cfg.globalcountmax

structure Inv (file : File) (cfg : Config) (s : St n) : Prop where
  lock : ∀ t, s.mutex = some t ↔ (s.loc t).holds = true
  balanced : Balanced cfg.globalcountmax (file.cap cfg) s.books
  capped : ∀ t, (s.loc t).computes = false → s.countermax t ≤ file.cap cfg
  noWrap : s.wrapped = false
  unregistered : ∀ t, s.counterp t = false → s.counter t = 0 ∧ s.countermax t = 0
  loc : ∀ t, LocInv file cfg s t (s.loc t)
  returned : ∀ t r, s.ret t = some r → Settled file cfg s t r
  value : ∀ t v, s.value t = some v → v ≤ cfg.globalcountmax

variable {file : File} {cfg : Config} {s s' : St n} {t u : Fin n} {l : Loc n} {k : Kind}
  {delta x y r : ℕ}

/-! ### What is on its way -/

theorem owed_of_free (h : s.mutex = none) : s.owed = 0 := by rw [St.owed, h]

theorem owed_of_holder (h : s.mutex = some t) : s.owed = (s.loc t).owed (s.countermax t) := by
  rw [St.owed, h]

/-- A thread at this place has nothing on its way. -/
structure Loc.Plain (l : Loc n) : Prop where
  part : l.part = id
  allowance : l.allowance = id
  owed : l.owed = fun _ => 0
  computes : l.computes = false

theorem Loc.plain_of_not_holds (h : l.holds = false) : l.Plain := by
  cases l <;> first | exact ⟨rfl, rfl, rfl, rfl⟩ | cases h

theorem Inv.mutex_eq (hi : Inv file cfg s) (h : (s.loc t).holds = true) : s.mutex = some t :=
  (hi.lock t).mpr h

theorem owed_of_other (hi : Inv file cfg s) (h0 : (s.loc t).holds = false)
    (hm : s'.mutex = s.mutex) (hloc : s'.loc = Function.update s.loc t l)
    (hcm : s'.countermax = s.countermax) : s'.owed = s.owed := by
  rw [St.owed, St.owed, hm]
  cases hu : s.mutex with
  | none => rfl
  | some u =>
    have hne : u ≠ t := by
      rintro rfl
      rw [hi.lock, h0] at hu
      cases hu
    dsimp only
    rw [hloc, Function.update_of_ne hne, hcm]

/-! ### The books after a step -/

/-- A step of `t` posts what it has at its new place. -/
theorem books_post (hloc : s'.loc = Function.update s.loc t l)
    (hc : s'.counter = Function.update s.counter t x)
    (hcm : s'.countermax = Function.update s.countermax t y) :
    s'.books = s.books.post t (l.part x) (l.allowance y) s'.globalcount
      (s'.globalreserve - s'.owed) := by
  rw [St.books, St.books, post]
  congr 1 <;> funext a <;> by_cases ha : a = t
  all_goals simp [hloc, hc, hcm, ha]

/-- From one place to another with nothing on the way, the books are as they were. -/
theorem books_plain (h : (s.loc t).Plain) (h' : l.Plain)
    (hloc : s'.loc = Function.update s.loc t l) (hc : s'.counter = s.counter)
    (hcm : s'.countermax = s.countermax) (hg : s'.globalcount = s.globalcount)
    (hr : s'.globalreserve = s.globalreserve) (ho : s'.owed = s.owed) : s'.books = s.books := by
  rw [St.books, St.books, hg, hr, ho]
  congr 1 <;> funext a <;> by_cases ha : a = t
  all_goals simp [hloc, hc, hcm, ha, h.part, h.allowance, h'.part, h'.allowance]

theorem record_same (h : s'.total = s.total) : St.record t s s' = s' := by
  rw [St.record, h, sub_self, Calls.record_zero]

/-- The step that makes the change of a call. -/
theorem record_change (h : s'.total = s.total + k.change delta) (hm : s'.moves t = []) :
    (St.record t s s').moves t = once k delta := by
  rw [St.record, h, add_sub_cancel_left]
  exact Calls.record_once hm

/-- What the balanced books say about the global part, at a place. -/
theorem Inv.bounds (hi : Inv file cfg s) (hh : (s.loc t).holds = true) :
    (s.loc t).owed (s.countermax t) ≤ s.globalreserve ∧
      s.globalcount + s.globalreserve ≤ cfg.globalcountmax + (s.loc t).owed (s.countermax t) ∧
      (s.loc t).allowance (s.countermax t) + (s.loc t).owed (s.countermax t) ≤ s.globalreserve ∧
      (s.loc t).part (s.counter t) ≤ (s.loc t).allowance (s.countermax t) := by
  have h1 := hi.balanced.reserve_nonneg
  have h2 := hi.balanced.limit
  have h3 := hi.balanced.cm_le_reserve t
  have h4 := hi.balanced.high t
  simp only [St.books, owed_of_holder (hi.mutex_eq hh)] at h1 h2 h3 h4
  omega

/-! ### What the steps of others leave as it is -/

/-- The calls of `u`, and what it noted and registered, are the same. -/
structure Own (u : Fin n) (s s' : St n) : Prop extends Calls.Own u s.toCalls s'.toCalls where
  reserves : s'.reserves u = s.reserves u
  value : s'.value u = s.value u
  counter : s'.counter u = s.counter u
  countermax : s'.countermax u = s.countermax u

/-- What the mutex protects is the same. -/
structure Shared (s s' : St n) : Prop where
  globalcount : s'.globalcount = s.globalcount
  globalreserve : s'.globalreserve = s.globalreserve
  countermax : s'.countermax = s.countermax

theorem Settled.frame (h : Settled file cfg s u r) (ho : Calls.Own u s.toCalls s'.toCalls)
    (hr : s'.reserves u = s.reserves u) : Settled file cfg s' u r := by
  rw [Settled, ho.call, ho.moves, ho.atTest, St.others, hr]
  exact h

/-- **A thread's assertion outlives the steps of others.** -/
theorem LocInv.frame (ho : Own u s s') (hs : l.holds = true → Shared s s')
    (h : LocInv file cfg s u l) : LocInv file cfg s' u l := by
  have hc := ho.counter
  have hcm := ho.countermax
  cases l with
  | idle | readLock | readInit => trivial
  | fast k delta => exact Calls.Pending.frame h ho.toOwn
  | store k delta =>
    cases k with
    | add => exact ⟨h.1.frame ho.toOwn, by rw [hc, hcm]; exact h.2⟩
    | sub => exact ⟨h.1.frame ho.toOwn, by rw [hc]; exact h.2⟩
  | lock j | globCount j | globZero j => exact Calls.JobInv.frame h ho.toOwn
  | globReserve j | globZeroMax j => exact ⟨h.1.frame ho.toOwn, hc.trans h.2⟩
  | test k delta => exact ⟨h.1.frame ho.toOwn, hc.trans h.2.1, hcm.trans h.2.2⟩
  | apply k delta =>
    have hs := hs rfl
    exact ⟨h.1.frame ho.toOwn, hc.trans h.2.1, hcm.trans h.2.2.1,
      hs.globalcount ▸ hs.globalreserve ▸ h.2.2.2⟩
  | balRoom => exact ⟨h.1.frame ho.toOwn, hc.trans h.2.1, hcm.trans h.2.2⟩
  | balDiv | balCap | balReserve =>
    have hs := hs rfl
    refine ⟨h.1.frame ho.toOwn, hc.trans h.2.1, ?_⟩
    rw [hcm, hs.globalcount, hs.globalreserve]
    exact h.2.2
  | balHalf => exact ⟨h.1.frame ho.toOwn, hc.trans h.2⟩
  | balCheck =>
    refine ⟨h.1.frame ho.toOwn, ?_⟩
    rw [hc, hcm]
    exact h.2
  | balCount =>
    refine ⟨h.1.frame ho.toOwn, ?_⟩
    rw [hc, hcm, (hs rfl).globalcount]
    exact h.2
  | setPtr b => exact fun hb => ⟨hc.trans (h hb).1, hcm.trans (h hb).2⟩
  | unlock ret =>
    cases ret with
    | none => trivial
    | some r => exact ⟨h.1.frame ho.toOwn ho.reserves, ho.ret.trans h.2⟩
  | readNext sum i | readAdd sum i =>
    have hs := hs rfl
    have h' := h
    rw [LocInv, St.Summed, ← hs.globalcount, ← hs.countermax] at h'
    exact h'
  | readUnlock sum => exact h

/-- **What a step of `t` has to show.** -/
theorem Inv.of_step (hi : Inv file cfg s) (hloc : s'.loc = Function.update s.loc t l)
    (hlock : ∀ u, s'.mutex = some u ↔ (s'.loc u).holds = true)
    (hbal : Balanced cfg.globalcountmax (file.cap cfg) s'.books)
    (hcap : l.computes = false → s'.countermax t ≤ file.cap cfg) (hwrap : s'.wrapped = false)
    (hreg : s'.counterp t = false → s'.counter t = 0 ∧ s'.countermax t = 0)
    (hown : ∀ u, u ≠ t → Own u s s') (hshared : (s.loc t).holds = true ∨ Shared s s')
    (hl : LocInv file cfg s' t l) (hret : ∀ r, s'.ret t = some r → Settled file cfg s' t r)
    (hvalue : ∀ v, s'.value t = some v → v ≤ cfg.globalcountmax) : Inv file cfg s' where
  lock := hlock
  balanced := hbal
  capped u hu := by
    rw [hloc] at hu
    by_cases h : u = t
    · subst h
      rw [Function.update_self] at hu
      exact hcap hu
    · rw [Function.update_of_ne h] at hu
      exact (hown u h).countermax ▸ hi.capped u hu
  noWrap := hwrap
  unregistered u hu := by
    by_cases h : u = t
    · exact h ▸ hreg (h ▸ hu)
    · have ho := hown u h
      rw [ho.counter, ho.countermax]
      exact hi.unregistered u (ho.counterp ▸ hu)
  loc u := by
    rw [hloc]
    by_cases hu : u = t
    · subst hu
      rw [Function.update_self]
      exact hl
    · rw [Function.update_of_ne hu]
      refine (hi.loc u).frame (hown u hu) fun hh => ?_
      rcases hshared with ht | hs
      · have := (hi.mutex_eq ht).symm.trans (hi.mutex_eq hh)
        exact absurd (Option.some.inj this).symm hu
      · exact hs
  returned u r hr := by
    by_cases hu : u = t
    · exact hu ▸ hret r (hu ▸ hr)
    · have ho := hown u hu
      exact (hi.returned u r (ho.ret ▸ hr)).frame ho.toOwn ho.reserves
  value u v hv := by
    by_cases hu : u = t
    · exact hvalue v (hu ▸ hv)
    · exact hi.value u v ((hown u hu).value ▸ hv)

/-- Where the mutex stays with who holds it. -/
theorem lock_keep (hi : Inv file cfg s) (hm : s'.mutex = s.mutex)
    (hloc : s'.loc = Function.update s.loc t l) (hh : l.holds = (s.loc t).holds) (u : Fin n) :
    s'.mutex = some u ↔ (s'.loc u).holds = true := by
  have hlock : Conc.LockedBy Loc.holds s'.mutex s.loc := hm ▸ hi.lock
  exact hlock.stay hloc hh u

theorem Loc.allowance_le {c : ℕ} (h : l.computes = false → y ≤ c) : l.allowance y ≤ c := by
  cases l <;> first | exact h rfl | exact Nat.zero_le _

/-- Recording leaves all but the moves as it is. -/
theorem own_record (hown : ∀ u, u ≠ t → Own u s s') (u : Fin n) (hu : u ≠ t) :
    Own u s (St.record t s s') :=
  ⟨(hown u hu).toOwn.record hu, (hown u hu).reserves, (hown u hu).value, (hown u hu).counter,
    (hown u hu).countermax⟩

theorem own_of_update (hc : s'.counter = Function.update s.counter t x)
    (hcm : s'.countermax = Function.update s.countermax t y)
    (hown : ∀ u, u ≠ t → Calls.Own u s.toCalls s'.toCalls)
    (hres : ∀ u, u ≠ t → s'.reserves u = s.reserves u)
    (hval : ∀ u, u ≠ t → s'.value u = s.value u) (u : Fin n) (hu : u ≠ t) : Own u s s' :=
  ⟨hown u hu, hres u hu, hval u hu, by rw [hc, Function.update_of_ne hu],
    by rw [hcm, Function.update_of_ne hu]⟩

/-- **A step of the holder of the mutex**, which posts its part and its allowance. -/
theorem Inv.posts (hi : Inv file cfg s) (hh : (s.loc t).holds = true) (hh' : l.holds = true)
    (hloc : s'.loc = Function.update s.loc t l) (hm : s'.mutex = s.mutex)
    (hc : s'.counter = Function.update s.counter t x)
    (hcm : s'.countermax = Function.update s.countermax t y)
    (hown : ∀ u, u ≠ t → Calls.Own u s.toCalls s'.toCalls)
    (hres : ∀ u, u ≠ t → s'.reserves u = s.reserves u) (hval : s'.value = s.value)
    (hreg : s'.counterp t = false → x = 0 ∧ y = 0) (hle : l.part x ≤ l.allowance y)
    (hcap : l.computes = false → y ≤ file.cap cfg)
    (hreserve : (s'.globalreserve : ℤ) - l.owed y - l.allowance y =
      s.globalreserve - (s.loc t).owed (s.countermax t) - (s.loc t).allowance (s.countermax t))
    (hlimit : s'.globalcount + s'.globalreserve ≤ cfg.globalcountmax + l.owed y)
    (hwrap : s'.wrapped = false) (hl : LocInv file cfg (St.record t s s') t l)
    (hret : ∀ r, s'.ret t = some r → Settled file cfg (St.record t s s') t r) :
    Inv file cfg (St.record t s s') := by
  have howed : s'.owed = l.owed y := by
    rw [owed_of_holder (hm.trans (hi.mutex_eq hh)), hloc, hcm, Function.update_self,
      Function.update_self]
  have hx : s'.counter t = x := by rw [hc, Function.update_self]
  have hy : s'.countermax t = y := by rw [hcm, Function.update_self]
  have hbal : Balanced cfg.globalcountmax (file.cap cfg) s'.books := by
    rw [books_post hloc hc hcm, howed]
    refine hi.balanced.post (Int.natCast_nonneg _) (Int.ofNat_le.mpr hle)
      (Int.ofNat_le.mpr (Loc.allowance_le hcap)) ?_ (Int.natCast_nonneg _) ?_
    · simp only [St.books, owed_of_holder (hi.mutex_eq hh)]
      omega
    · omega
  exact hi.of_step hloc (lock_keep hi hm hloc (hh'.trans hh.symm)) hbal
    (fun h => hy ▸ hcap h) hwrap (fun h => by rw [← hx, ← hy] at hreg; exact hreg h)
    (own_record (own_of_update hc hcm hown hres fun u _ => congrFun hval u)) (.inl hh) hl hret
    fun v hv => hi.value t v (congrFun hval t ▸ hv)

theorem total_post_eq (hloc : s'.loc = Function.update s.loc t l)
    (hc : s'.counter = Function.update s.counter t x)
    (hcm : s'.countermax = Function.update s.countermax t y) :
    s'.total = s.total + (l.part x - (s.loc t).part (s.counter t)) +
      (s'.globalcount - s.globalcount) := by
  rw [St.total, books_post hloc hc hcm, total_post]
  rfl

theorem Inv.returned_of (hi : Inv file cfg s) (hc : s'.toCalls = s.toCalls)
    (hr : s'.reserves = s.reserves) (r : ℕ) (h : s'.ret t = some r) : Settled file cfg s' t r := by
  rw [hc] at h
  refine (hi.returned t r h).frame ?_ (congrFun hr t)
  rw [hc]
  exact Calls.Own.refl

/-- One that leaves the number counted as it is. -/
theorem Inv.holder (hi : Inv file cfg s) (hh : (s.loc t).holds = true) (hh' : l.holds = true)
    (hloc : s'.loc = Function.update s.loc t l) (hm : s'.mutex = s.mutex)
    (hc : s'.counter = Function.update s.counter t x)
    (hcm : s'.countermax = Function.update s.countermax t y) (hcalls : s'.toCalls = s.toCalls)
    (hres : s'.reserves = s.reserves) (hval : s'.value = s.value)
    (hreg : s.counterp t = false → x = 0 ∧ y = 0) (hle : l.part x ≤ l.allowance y)
    (hcap : l.computes = false → y ≤ file.cap cfg)
    (hcount : s'.globalcount + l.part x = s.globalcount + (s.loc t).part (s.counter t))
    (hreserve : (s'.globalreserve : ℤ) - l.owed y - l.allowance y =
      s.globalreserve - (s.loc t).owed (s.countermax t) - (s.loc t).allowance (s.countermax t))
    (hlimit : s'.globalcount + s'.globalreserve ≤ cfg.globalcountmax + l.owed y)
    (hwrap : s'.wrapped = false) (hl : LocInv file cfg s' t l) :
    Inv file cfg (St.record t s s') := by
  have hsame : St.record t s s' = s' := record_same (by rw [total_post_eq hloc hc hcm]; omega)
  refine hi.posts hh hh' hloc hm hc hcm (fun u _ => hcalls ▸ Calls.Own.refl)
    (fun u _ => congrFun hres u) hval (fun h => hreg (hcalls ▸ h)) hle hcap hreserve hlimit hwrap
    ?_ fun r hr => ?_
  · rw [hsame]
    exact hl
  · rw [hsame]
    exact hi.returned_of hcalls hres r hr

/-- A step of the holder that changes neither its numbers nor the global ones. -/
theorem Inv.same (hi : Inv file cfg s) (hh : (s.loc t).holds = true) (hh' : l.holds = true)
    (hplain : (s.loc t).Plain) (hplain' : l.Plain) (hloc : s'.loc = Function.update s.loc t l)
    (hm : s'.mutex = s.mutex) (hc : s'.counter = s.counter) (hcm : s'.countermax = s.countermax)
    (hg : s'.globalcount = s.globalcount) (hr : s'.globalreserve = s.globalreserve)
    (hp : s'.counterp t = false → s.counter t = 0 ∧ s.countermax t = 0)
    (hown : ∀ u, u ≠ t → Calls.Own u s.toCalls s'.toCalls)
    (hres : ∀ u, u ≠ t → s'.reserves u = s.reserves u) (hval : s'.value = s.value)
    (hwrap : s'.wrapped = false) (hret : ∀ r, s'.ret t = some r → Settled file cfg s' t r)
    (hl : LocInv file cfg s' t l) : Inv file cfg (St.record t s s') := by
  have hc' : s'.counter = Function.update s.counter t (s.counter t) := by
    rw [hc, Function.update_eq_self]
  have hcm' : s'.countermax = Function.update s.countermax t (s.countermax t) := by
    rw [hcm, Function.update_eq_self]
  have ho : s'.owed = s.owed := by
    rw [owed_of_holder (hm.trans (hi.mutex_eq hh)), owed_of_holder (hi.mutex_eq hh), hloc,
      Function.update_self, hplain.owed, hplain'.owed]
  have hb := books_plain hplain hplain' hloc hc hcm hg hr ho
  rw [record_same (by rw [St.total, hb, St.total])]
  refine hi.of_step hloc (lock_keep hi hm hloc (hh'.trans hh.symm)) (hb ▸ hi.balanced)
    (fun _ => ?_) hwrap (fun h => ?_)
    (own_of_update hc' hcm' hown hres fun u _ => congrFun hval u) (.inl hh) hl hret
    fun v hv => hi.value t v (congrFun hval t ▸ hv)
  · rw [hcm]
    exact hi.capped t hplain.computes
  · rw [hc, hcm]
    exact hp h

/-- A step outside the mutex that leaves all numbers as they are. -/
theorem Inv.outside (hi : Inv file cfg s) (hh : (s.loc t).holds = false) (hh' : l.holds = false)
    (hloc : s'.loc = Function.update s.loc t l) (hm : s'.mutex = s.mutex)
    (hc : s'.counter = s.counter) (hcm : s'.countermax = s.countermax)
    (hp : s'.counterp = s.counterp) (hg : s'.globalcount = s.globalcount)
    (hr : s'.globalreserve = s.globalreserve)
    (hown : ∀ u, u ≠ t → Calls.Own u s.toCalls s'.toCalls) (hres : s'.reserves = s.reserves)
    (hval : s'.value = s.value) (hwrap : s'.wrapped = false)
    (hret : ∀ r, s'.ret t = some r → Settled file cfg s' t r) (hl : LocInv file cfg s' t l) :
    Inv file cfg (St.record t s s') := by
  have hc' : s'.counter = Function.update s.counter t (s.counter t) := by
    rw [hc, Function.update_eq_self]
  have hcm' : s'.countermax = Function.update s.countermax t (s.countermax t) := by
    rw [hcm, Function.update_eq_self]
  have hplain := Loc.plain_of_not_holds hh
  have hb := books_plain hplain (Loc.plain_of_not_holds hh') hloc hc hcm hg hr
    (owed_of_other hi hh hm hloc hcm)
  rw [record_same (by rw [St.total, hb, St.total])]
  refine hi.of_step hloc (lock_keep hi hm hloc (hh'.trans hh.symm)) (hb ▸ hi.balanced)
    (fun _ => ?_) hwrap (fun h => ?_)
    (own_of_update hc' hcm' hown (fun u _ => congrFun hres u) fun u _ => congrFun hval u)
    (.inr ⟨hg, hr, hcm⟩) hl hret fun v hv => hi.value t v (congrFun hval t ▸ hv)
  · rw [hcm]
    exact hi.capped t hplain.computes
  · rw [hc, hcm]
    exact hi.unregistered t (hp ▸ h)

end Lim
end Count
end Perfbook
