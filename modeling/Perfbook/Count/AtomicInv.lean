/-
# The books of `count_lim_atomic` stay balanced

The invariant: only the holder of the mutex has something on its way, the
books with that are balanced, and no arithmetic on `unsigned long` has
wrapped (`Inv`). Each step either leaves the books as they are, or posts
within them; the only steps that change the number counted are the
successful compare-and-exchange of the fast path and `globalcount += delta`
(or `-= delta`) of the slow path, once in each call that is granted.

Key definitions: `Loc.holds`, `Swaps`, `LocInv`, `Inv`.
Key theorems: `Inv.of_step`, `Inv.same`, `inv_stepThread`, `inv_next`, `inv_init`.
-/
import Perfbook.Conc.Lock
import Perfbook.Count.Atomic

namespace Perfbook
namespace Count
namespace Atomic

open Books Calls

variable {n : ℕ}

/-- A thread at this place holds the mutex. -/
def Loc.holds : Loc n → Bool
  | .idle | .read _ _ | .cmpxchg _ _ _ _ | .lock _ => false
  | _ => true

/-- `new` is `old` with the change made to the upper half. -/
def Swaps (k : Kind) (delta : ℕ) (old new : BitVec 32) : Prop :=
  (splitCounterandmaxInt new).2 = (splitCounterandmaxInt old).2 ∧
    ((splitCounterandmaxInt new).1 : ℤ) = (splitCounterandmaxInt old).1 + k.change delta ∧
    ((splitCounterandmaxInt old).1 ≤ (splitCounterandmaxInt old).2 →
      (splitCounterandmaxInt new).1 ≤ (splitCounterandmaxInt new).2)

/-- What holds of a thread `t` at a place. -/
def LocInv (cfg : Config) (s : St n) (t : Fin n) : Loc n → Prop
  | .idle => True
  | .read k delta => s.Pending t k delta
  | .cmpxchg k delta old new => s.Pending t k delta ∧ Swaps k delta old new
  | .lock j | .globRead j => s.JobInv t j
  | .globCount j c cm | .globReserve j c cm | .globSet j c cm =>
    s.JobInv t j ∧ s.c t = c ∧ s.cm t = cm
  | .test k delta | .flush k delta => s.Pending t k delta ∧ s.cm t = 0
  | .flushNext k delta i => s.Pending t k delta ∧ s.cm t = 0 ∧ ∀ u : Fin n, u.1 < i → s.cm u = 0
  | .flushXchg k delta i => s.Pending t k delta ∧ s.cm t = 0 ∧ ∀ u : Fin n, u < i → s.cm u = 0
  | .flushCount k delta i _ _ | .flushReserve k delta i _ =>
    s.Pending t k delta ∧ s.cm t = 0 ∧ ∀ u : Fin n, u ≤ i → s.cm u = 0
  | .retest k delta => s.Pending t k delta ∧ ∀ u, s.cm u = 0
  | .apply k delta => s.Pending t k delta ∧ s.cm t = 0 ∧ Granted cfg s.globalcount s.globalreserve k delta
  | .balLimit => s.Moved t ∧ s.cm t = 0
  | .balReserve cm => s.Moved t ∧ s.cm t = 0 ∧ cm ≤ maxCountermax ∧
      s.globalcount + s.globalreserve + cm ≤ cfg.globalcountmax
  | .balHalf cm => s.Moved t ∧ s.cm t = 0 ∧ cm ≤ maxCountermax ∧
      s.globalcount + s.globalreserve ≤ cfg.globalcountmax
  | .balCount cm c => s.Moved t ∧ s.cm t = 0 ∧ cm ≤ maxCountermax ∧
      s.globalcount + s.globalreserve ≤ cfg.globalcountmax ∧ c ≤ s.globalcount ∧ c ≤ cm
  | .balSet cm c => s.Moved t ∧ s.cm t = 0 ∧ cm ≤ maxCountermax ∧
      s.globalcount + s.globalreserve ≤ cfg.globalcountmax ∧ c ≤ cm
  | .setPtr b => b = false → s.cm t = 0
  | .unlock none => True
  | .unlock (some r) => Settled cfg s.toCalls t r ∧ s.ret t = none

structure Inv (cfg : Config) (s : St n) : Prop where
  lock : ∀ t, s.mutex = some t ↔ (s.loc t).holds = true
  balanced : Balanced cfg.globalcountmax maxCountermax s.books
  noWrap : s.wrapped = false
  unregistered : ∀ t, s.counterp t = false → s.cm t = 0
  loc : ∀ t, LocInv cfg s t (s.loc t)
  returned : ∀ t r, s.ret t = some r → Settled cfg s.toCalls t r

variable {cfg : Config} {s s' : St n} {t u : Fin n} {l : Loc n} {k : Kind} {delta : ℕ}

/-! ### What is on its way -/

theorem flight_of_free (h : s.mutex = none) : s.flight = 0 := by rw [St.flight, h]

theorem flight_of_holder (h : s.mutex = some t) : s.flight = (s.loc t).flight := by
  rw [St.flight, h]

/-- A thread that does not hold the mutex has nothing on its way, wherever it goes. -/
theorem flight_of_other (hi : Inv cfg s) (h0 : (s.loc t).holds = false)
    (hm : s'.mutex = s.mutex) (hloc : s'.loc = Function.update s.loc t l) :
    s'.flight = s.flight := by
  rw [St.flight, St.flight, hm]
  cases hu : s.mutex with
  | none => rfl
  | some u =>
    have hne : u ≠ t := by
      rintro rfl
      rw [hi.lock, h0] at hu
      cases hu
    dsimp only
    rw [hloc, Function.update_of_ne hne]

theorem Inv.mutex_eq (hi : Inv cfg s) (h : (s.loc t).holds = true) : s.mutex = some t :=
  (hi.lock t).mpr h

/-! ### The books after a step -/

theorem books_same (hc : s'.counterandmax = s.counterandmax)
    (h1 : (s'.globalcount : ℤ) + s'.flight.1 = s.globalcount + s.flight.1)
    (h2 : (s'.globalreserve : ℤ) + s'.flight.2 = s.globalreserve + s.flight.2) :
    s'.books = s.books := by
  rw [St.books, St.books, h1, h2]
  simp only [St.c, St.cm, hc]

theorem books_post {v : BitVec 32} (hc : s'.counterandmax = Function.update s.counterandmax u v) :
    s'.books = s.books.post u (splitCounterandmaxInt v).1 (splitCounterandmaxInt v).2
      (s'.globalcount + s'.flight.1) (s'.globalreserve + s'.flight.2) := by
  rw [St.books, St.books, post]
  congr 1 <;> funext a <;> by_cases ha : a = u <;> simp [St.c, St.cm, hc, ha]

theorem record_same (h : s'.total = s.total) : St.record t s s' = s' := by
  rw [St.record, h, sub_self, Calls.record_zero]

theorem Inv.c_le_cm (hi : Inv cfg s) (t : Fin n) : s.c t ≤ s.cm t := by
  have := hi.balanced.high t
  rw [St.books] at this
  exact Int.ofNat_le.mp this

theorem Inv.c_eq_zero (hi : Inv cfg s) (h : s.cm t = 0) : s.c t = 0 := by
  have := hi.c_le_cm t
  omega

/-! ### What the steps of others leave as it is -/

/-- What the mutex protects is the same, for its holder `u`. -/
structure Shared (u : Fin n) (s s' : St n) : Prop where
  globalcount : s'.globalcount = s.globalcount
  globalreserve : s'.globalreserve = s.globalreserve
  c : s'.c u = s.c u
  cm : s'.cm = s.cm

/-- **A thread's assertion outlives the steps of others.** -/
theorem LocInv.frame (ho : Own u s.toCalls s'.toCalls) (hs : l.holds = true → Shared u s s')
    (h : LocInv cfg s u l) : LocInv cfg s' u l := by
  cases l with
  | idle => trivial
  | read k delta => exact Calls.Pending.frame h ho
  | cmpxchg k delta old new => exact ⟨h.1.frame ho, h.2⟩
  | lock j | globRead j => exact Calls.JobInv.frame h ho
  | globCount j c cm | globReserve j c cm | globSet j c cm =>
    have hs := hs rfl
    exact ⟨h.1.frame ho, hs.c.trans h.2.1, (congrFun hs.cm u).trans h.2.2⟩
  | test k delta | flush k delta =>
    exact ⟨h.1.frame ho, (congrFun (hs rfl).cm u).trans h.2⟩
  | flushNext k delta i | flushXchg k delta i | flushCount k delta i | flushReserve k delta i =>
    have hs := hs rfl
    refine ⟨h.1.frame ho, (congrFun hs.cm u).trans h.2.1, ?_⟩
    rw [hs.cm]
    exact h.2.2
  | retest k delta =>
    refine ⟨h.1.frame ho, ?_⟩
    rw [(hs rfl).cm]
    exact h.2
  | apply k delta =>
    have hsh := hs rfl
    exact ⟨h.1.frame ho, (congrFun hsh.cm u).trans h.2.1,
      hsh.globalcount ▸ hsh.globalreserve ▸ h.2.2⟩
  | balLimit => exact ⟨h.1.frame ho, (congrFun (hs rfl).cm u).trans h.2⟩
  | balReserve cm | balHalf cm | balCount cm c | balSet cm c =>
    have hs := hs rfl
    refine ⟨h.1.frame ho, (congrFun hs.cm u).trans h.2.1, ?_⟩
    rw [hs.globalcount, hs.globalreserve]
    exact h.2.2
  | setPtr b =>
    intro hb
    exact (congrFun (hs rfl).cm u).trans (h hb)
  | unlock ret =>
    cases ret with
    | none => trivial
    | some r => exact ⟨h.1.frame ho, ho.ret.trans h.2⟩

/-- **What a step of `t` has to show.** -/
theorem Inv.of_step (hi : Inv cfg s) (hloc : s'.loc = Function.update s.loc t l)
    (hlock : ∀ u, s'.mutex = some u ↔ (s'.loc u).holds = true)
    (hbal : Balanced cfg.globalcountmax maxCountermax s'.books) (hwrap : s'.wrapped = false)
    (hreg : ∀ u, s'.counterp u = false → s'.cm u = 0) (hown : ∀ u, u ≠ t → Own u s.toCalls s'.toCalls)
    (hshared : (s.loc t).holds = true ∨ ∀ u, u ≠ t → Shared u s s') (hl : LocInv cfg s' t l)
    (hret : ∀ r, s'.ret t = some r → Settled cfg s'.toCalls t r) : Inv cfg s' where
  lock := hlock
  balanced := hbal
  noWrap := hwrap
  unregistered := hreg
  loc u := by
    rw [hloc]
    by_cases hu : u = t
    · subst hu
      rw [Function.update_self]
      exact hl
    · rw [Function.update_of_ne hu]
      refine (hi.loc u).frame (hown u hu) fun hh => ?_
      rcases hshared with ht | hs
      · have := (hi.mutex_eq ht).symm.trans (hi.mutex_eq hh)
        exact absurd (Option.some.inj this).symm hu
      · exact hs u hu
  returned u r hr := by
    by_cases hu : u = t
    · exact hu ▸ hret r (hu ▸ hr)
    · rw [(hown u hu).ret] at hr
      exact (hi.returned u r hr).frame (hown u hu)

/-- Where the mutex stays with who holds it. -/
theorem lock_keep (hi : Inv cfg s) (hm : s'.mutex = s.mutex)
    (hloc : s'.loc = Function.update s.loc t l) (hh : l.holds = (s.loc t).holds) (u : Fin n) :
    s'.mutex = some u ↔ (s'.loc u).holds = true := by
  have hlock : Conc.LockedBy Loc.holds s'.mutex s.loc := hm ▸ hi.lock
  exact hlock.stay hloc hh u

theorem Inv.returned_of (hi : Inv cfg s) (h : s'.ret t = none ∨ Own t s.toCalls s'.toCalls) (r : ℕ)
    (hr : s'.ret t = some r) : Settled cfg s'.toCalls t r := by
  rcases h with h | h
  · rw [h] at hr
    cases hr
  · rw [h.ret] at hr
    exact (hi.returned t r hr).frame h

/-- A step of the holder that leaves the number counted as it is. -/
theorem Inv.holder (hi : Inv cfg s) (hh : (s.loc t).holds = true) (hh' : l.holds = true)
    (hloc : s'.loc = Function.update s.loc t l) (hm : s'.mutex = s.mutex)
    (hbal : Balanced cfg.globalcountmax maxCountermax s'.books) (htotal : s'.total = s.total)
    (hwrap : s'.wrapped = false) (hreg : ∀ u, s'.counterp u = false → s'.cm u = 0)
    (hown : ∀ u, u ≠ t → Own u s.toCalls s'.toCalls) (hl : LocInv cfg s' t l)
    (hret : ∀ r, s'.ret t = some r → Settled cfg s'.toCalls t r) : Inv cfg (St.record t s s') := by
  rw [record_same htotal]
  exact hi.of_step hloc (lock_keep hi hm hloc (hh'.trans hh.symm)) hbal hwrap hreg hown (.inl hh)
    hl hret

/-- A step of the holder that leaves the books as they are. -/
theorem Inv.same (hi : Inv cfg s) (hh : (s.loc t).holds = true) (hh' : l.holds = true)
    (hloc : s'.loc = Function.update s.loc t l) (hm : s'.mutex = s.mutex)
    (hc : s'.counterandmax = s.counterandmax) (hp : s'.counterp = s.counterp)
    (h1 : (s'.globalcount : ℤ) + l.flight.1 = s.globalcount + (s.loc t).flight.1)
    (h2 : (s'.globalreserve : ℤ) + l.flight.2 = s.globalreserve + (s.loc t).flight.2)
    (hwrap : s'.wrapped = false) (hown : ∀ u, u ≠ t → Own u s.toCalls s'.toCalls)
    (hret : s'.ret t = none ∨ Own t s.toCalls s'.toCalls) (hl : LocInv cfg s' t l) :
    Inv cfg (St.record t s s') := by
  have hf := flight_of_holder (hi.mutex_eq hh)
  have hf' : s'.flight = l.flight := by
    rw [flight_of_holder (hm.trans (hi.mutex_eq hh)), hloc, Function.update_self]
  have hb : s'.books = s.books := books_same hc (by rw [hf, hf', h1]) (by rw [hf, hf', h2])
  refine hi.holder hh hh' hloc hm (hb ▸ hi.balanced) (by rw [St.total, hb, St.total]) hwrap
    (fun u hu => ?_) hown hl (hi.returned_of hret)
  rw [St.cm, hc]
  exact hi.unregistered u (hp ▸ hu)

/-- A step outside the mutex that leaves the words and the books as they are. -/
theorem Inv.outside (hi : Inv cfg s) (hh : (s.loc t).holds = false) (hh' : l.holds = false)
    (hloc : s'.loc = Function.update s.loc t l) (hm : s'.mutex = s.mutex)
    (hc : s'.counterandmax = s.counterandmax) (hp : s'.counterp = s.counterp)
    (h1 : s'.globalcount = s.globalcount) (h2 : s'.globalreserve = s.globalreserve)
    (hwrap : s'.wrapped = false) (hown : ∀ u, u ≠ t → Own u s.toCalls s'.toCalls)
    (hret : s'.ret t = none ∨ Own t s.toCalls s'.toCalls) (hl : LocInv cfg s' t l) :
    Inv cfg (St.record t s s') := by
  have hf := flight_of_other hi hh hm hloc
  have hb : s'.books = s.books := books_same hc (by rw [hf, h1]) (by rw [hf, h2])
  rw [record_same (by rw [St.total, hb, St.total])]
  have hcm : s'.cm = s.cm := by
    funext u
    rw [St.cm, hc, St.cm]
  refine hi.of_step hloc (lock_keep hi hm hloc (hh'.trans hh.symm)) (hb ▸ hi.balanced) hwrap
    (fun u hu => ?_) hown (.inr fun u _ => ⟨h1, h2, by rw [St.c, hc, St.c], hcm⟩) hl
    (hi.returned_of hret)
  rw [hcm]
  exact hi.unregistered u (hp ▸ hu)

/-! ### Arithmetic that fits -/

theorem max_lt : maxCountermax + maxCountermax < 2 ^ cfg.w :=
  lt_of_lt_of_le (by rw [maxCountermax]; omega) (Nat.pow_le_pow_right (by omega) cfg.wide)

theorem seeRoom_eq (h : s.globalcount + s.globalreserve ≤ cfg.globalcountmax) :
    s.seeRoom cfg = s := by
  have h1 : cfg.usub cfg.globalcountmax s.globalcount = cfg.globalcountmax - s.globalcount :=
    usub_of_le (by omega)
  have h2 : ¬ cfg.globalcountmax < s.globalcount := by omega
  have h3 : ¬ cfg.globalcountmax - s.globalcount < s.globalreserve := by omega
  rw [St.seeRoom, h1, decide_eq_false h2, decide_eq_false h3, Bool.or_false, Bool.or_false]

theorem addCount_eq {x : ℕ} (h : s.globalcount + x < 2 ^ cfg.w) :
    s.addCount cfg x = { s with globalcount := s.globalcount + x } := by
  rw [St.addCount, uadd_of_lt h, decide_eq_false (by omega), Bool.or_false]

theorem subCount_eq {x : ℕ} (h : x ≤ s.globalcount) :
    s.subCount cfg x = { s with globalcount := s.globalcount - x } := by
  rw [St.subCount, usub_of_le h, decide_eq_false (by omega), Bool.or_false]

theorem addReserve_eq {x : ℕ} (h : s.globalreserve + x < 2 ^ cfg.w) :
    s.addReserve cfg x = { s with globalreserve := s.globalreserve + x } := by
  rw [St.addReserve, uadd_of_lt h, decide_eq_false (by omega), Bool.or_false]

theorem subReserve_eq {x : ℕ} (h : x ≤ s.globalreserve) :
    s.subReserve cfg x = { s with globalreserve := s.globalreserve - x } := by
  rw [St.subReserve, usub_of_le h, decide_eq_false (by omega), Bool.or_false]

/-! ### The fast path -/

theorem inv_fastPath (hi : Inv cfg s) (hl : s.loc t = .read k delta) :
    Inv cfg (St.record t s (fastPath cfg t delta (s.counterandmax t) s k)) := by
  have hp := hi.loc t
  rw [hl] at hp
  have hle := split_le (s.counterandmax t)
  have hw : maxCountermax + maxCountermax < 2 ^ cfg.w := max_lt
  cases k with
  | add =>
    simp only [fastPath]
    split
    · exact hi.outside (l := .lock (.update .add delta)) (by rw [hl]; rfl) rfl rfl rfl rfl rfl rfl
        rfl hi.noWrap (fun _ _ => Own.refl) (.inl hp.2.2.1) hp
    · rename_i hdelta
      have hlt : (splitCounterandmaxInt (s.counterandmax t)).1 + delta < 2 ^ cfg.w := by omega
      have hwrap : (s.seeAdd cfg (splitCounterandmaxInt (s.counterandmax t)).1 delta).wrapped =
          false := by
        rw [St.seeAdd]
        simp [hi.noWrap, hlt]
      split
      · exact hi.outside (l := .lock (.update .add delta)) (by rw [hl]; rfl) rfl rfl rfl rfl rfl rfl
          rfl hwrap (fun _ _ => Own.refl) (.inl hp.2.2.1) hp
      · rename_i hfit
        rw [uadd_of_lt hlt] at hfit ⊢
        refine hi.outside (by rw [hl]; rfl) rfl rfl rfl rfl rfl rfl
          rfl hwrap (fun _ _ => Own.refl) (.inl hp.2.2.1) ⟨hp, ?_⟩
        rw [Swaps, split_merge (by omega) hle.2, Kind.change]
        exact ⟨rfl, by push_cast; rfl, fun _ => by dsimp only; omega⟩
  | sub =>
    simp only [fastPath]
    split
    · exact hi.outside (l := .lock (.update .sub delta)) (by rw [hl]; rfl) rfl rfl rfl rfl rfl rfl
        rfl hi.noWrap (fun _ _ => Own.refl) (.inl hp.2.2.1) hp
    · rename_i hdelta
      have hwrap : (s.seeSub (splitCounterandmaxInt (s.counterandmax t)).1 delta).wrapped =
          false := by
        rw [St.seeSub]
        simp [hi.noWrap]
        omega
      rw [usub_of_le (by omega)]
      refine hi.outside (by rw [hl]; rfl) rfl rfl rfl rfl rfl rfl
        rfl hwrap (fun _ _ => Own.refl) (.inl hp.2.2.1) ⟨hp, ?_⟩
      rw [Swaps, split_merge (by omega) hle.2, Kind.change]
      exact ⟨rfl, by dsimp only; omega, fun _ => by dsimp only; omega⟩

/-- The step that makes the change of a call. -/
theorem record_change (h : s'.total = s.total + k.change delta) (hm : s'.moves t = []) :
    (St.record t s s').moves t = once k delta := by
  rw [St.record, h, add_sub_cancel_left]
  exact Calls.record_once hm

/-- The compare-and-exchange succeeds: the change is made in the thread's own part. -/
theorem inv_cmpxchg {old new : BitVec 32} (hi : Inv cfg s)
    (hl : s.loc t = .cmpxchg k delta old new) (hold : s.counterandmax t = old) :
    Inv cfg (St.record t s ((s.set t new).return_ t 1)) := by
  have hp := hi.loc t
  rw [hl] at hp
  obtain ⟨hp, hcm, hc, hle⟩ := hp
  subst hold
  have hh : (s.loc t).holds = false := by rw [hl]; rfl
  set s₀ := (s.set t new).return_ t 1 with hs₀
  have hloc : s₀.loc = Function.update s.loc t .idle := rfl
  have hf : s₀.flight = s.flight := flight_of_other hi hh rfl hloc
  have hb : s₀.books = s.books.post t (splitCounterandmaxInt new).1 (splitCounterandmaxInt new).2
      s.books.count s.books.reserve := by
    rw [books_post (u := t) (v := new) rfl, hf]
    rfl
  have hct : s.books.c t = (splitCounterandmaxInt (s.counterandmax t)).1 := rfl
  have hcmt : s.books.cm t = (splitCounterandmaxInt (s.counterandmax t)).2 := rfl
  have htotal : s₀.total = s.total + k.change delta := by
    rw [St.total, hb, total_post, ← St.total]
    omega
  have hcm' : s₀.cm = s.cm := by
    funext u
    by_cases hu : u = t
    · subst hu
      simp [St.cm, hs₀, St.set, St.return_, hcm]
    · simp [St.cm, hs₀, St.set, St.return_, hu]
  have hc' : ∀ u, u ≠ t → s₀.c u = s.c u := fun u hu => by
    simp [St.c, hs₀, St.set, St.return_, hu]
  refine hi.of_step hloc (lock_keep hi rfl hloc (by rw [hl]; rfl)) ?_
    hi.noWrap (fun u hu => ?_) (fun u hu => (Own.answer hu).record hu)
    (.inr fun u hu => ⟨rfl, rfl, hc' u hu, hcm'⟩) trivial fun r hr => ?_
  · rw [show (St.record t s s₀).books = s₀.books from rfl, hb]
    refine hi.balanced.post ?_ ?_ ?_ ?_ hi.balanced.count hi.balanced.limit
    · omega
    · exact Int.ofNat_le.mpr (hle (hi.c_le_cm t))
    · exact Int.ofNat_le.mpr (split_le new).2
    · omega
  · exact (congrFun hcm' u).trans (hi.unregistered u hu)
  · have hr' : Function.update s.ret t (some 1) t = some r := hr
    rw [Function.update_self] at hr'
    obtain rfl := Option.some.inj hr'
    exact ⟨k, delta, hp.1, .inl ⟨rfl, record_change htotal hp.2.1⟩⟩

/-- `globalcount += delta`, or `-= delta`: the change is made in the global part. -/
theorem inv_apply {g : ℕ} (hi : Inv cfg s) (hl : s.loc t = .apply k delta)
    (hg' : (g : ℤ) = s.globalcount + k.change delta) :
    Inv cfg (St.record t s ({ s with globalcount := g }.goto t .balLimit)) := by
  have hp := hi.loc t
  rw [hl] at hp
  obtain ⟨hp, hcm, hg⟩ := hp
  have hh : (s.loc t).holds = true := by rw [hl]; rfl
  set s₀ := { s with globalcount := g }.goto t .balLimit with hs₀
  have hloc : s₀.loc = Function.update s.loc t .balLimit := rfl
  have hf : s.flight = 0 := by rw [flight_of_holder (hi.mutex_eq hh), hl]; rfl
  have hf' : s₀.flight = 0 := by
    rw [flight_of_holder (s := s₀) (hi.mutex_eq hh), hloc, Function.update_self]
    rfl
  have hcount' : s.books.count = s.globalcount := by simp [St.books, hf]
  have hres' : s.books.reserve = s.globalreserve := by simp [St.books, hf]
  have hb : s₀.books = s.books.post t (s.c t) (s.cm t) (s.books.count + k.change delta)
      s.books.reserve := by
    have hpost : s₀.books = s.books.post t _ _ _ _ := books_post (Function.update_eq_self t _).symm
    rw [hpost, hf', hcount', hres', ← hg']
    simp [hs₀, St.goto, post, St.c, St.cm]
  have hc0 : s.books.c t = s.c t := rfl
  have hcm0 : s.books.cm t = s.cm t := rfl
  have htotal : s₀.total = s.total + k.change delta := by
    rw [St.total, hb, total_post, ← St.total]
    omega
  refine hi.of_step hloc
    (lock_keep hi rfl hloc (by rw [hl]; rfl)) ?_ hi.noWrap
    hi.unregistered (fun u hu => Own.refl.record hu) (.inl hh)
    ⟨⟨k, delta, hp.1, record_change htotal hp.2.1, hp.2.2⟩, hcm⟩ fun r hr => ?_
  · rw [show (St.record t s s₀).books = s₀.books from rfl, hb]
    refine hi.balanced.post (hi.balanced.low t) (hi.balanced.high t) (hi.balanced.cap t) ?_ ?_ ?_
    · omega
    · have := hi.balanced.count
      cases k <;> simp only [Granted, Kind.change] at hg ⊢ <;> omega
    · have := hi.balanced.limit
      cases k <;> simp only [Granted, Kind.change] at hg ⊢ <;> omega
  · have hr' : s.ret t = some r := hr
    rw [hp.2.2.1] at hr'
    cases hr'

/-! ### The mutex -/

theorem inv_lock {j : Job} (hi : Inv cfg s) (hl : s.loc t = .lock j) (hm : s.mutex = none) :
    Inv cfg (St.record t s ({ s with mutex := some t }.goto t (.locked j))) := by
  have hp := hi.loc t
  rw [hl] at hp
  set s₀ := { s with mutex := some t }.goto t (.locked j) with hs₀
  have hloc : s₀.loc = Function.update s.loc t (.locked j) := rfl
  have hstart : (Loc.locked j : Loc n).holds = true ∧ (Loc.locked j : Loc n).flight = 0 := by
    cases j <;> exact ⟨rfl, rfl⟩
  have hf' : s₀.flight = 0 := by
    rw [flight_of_holder (s := s₀) (t := t) rfl, hloc, Function.update_self]
    exact hstart.2
  have hb : s₀.books = s.books :=
    books_same rfl (by rw [hf', flight_of_free hm]; rfl) (by rw [hf', flight_of_free hm]; rfl)
  rw [record_same (by rw [St.total, hb, St.total])]
  have hfree : Conc.LockedBy Loc.holds none s.loc := hm ▸ hi.lock
  refine hi.of_step hloc (hfree.take hloc hstart.1) (hb ▸ hi.balanced) hi.noWrap hi.unregistered
    (fun _ _ => Own.refl) (.inr fun u _ => ⟨rfl, rfl, rfl, rfl⟩) ?_
    fun r hr => (hi.returned t r hr).frame Own.refl
  cases j with
  | register => exact nofun
  | update k delta => exact Pending.frame hp Own.refl
  | unregister => trivial

theorem inv_unlock {ret : Option ℕ} (hi : Inv cfg s) (hl : s.loc t = .unlock ret)
    (hm : s'.mutex = none) (hloc : s'.loc = Function.update s.loc t .idle)
    (hc : s'.counterandmax = s.counterandmax) (hp : s'.counterp = s.counterp)
    (h1 : s'.globalcount = s.globalcount) (h2 : s'.globalreserve = s.globalreserve)
    (hwrap : s'.wrapped = false) (hown : ∀ u, u ≠ t → Own u s.toCalls s'.toCalls)
    (hret : ∀ r, s'.ret t = some r → Settled cfg s'.toCalls t r) : Inv cfg (St.record t s s') := by
  have hh : (s.loc t).holds = true := by rw [hl]; rfl
  have hf : s.flight = 0 := by rw [flight_of_holder (hi.mutex_eq hh), hl]; rfl
  have hb : s'.books = s.books :=
    books_same hc (by rw [hf, flight_of_free hm, h1]) (by rw [hf, flight_of_free hm, h2])
  rw [record_same (by rw [St.total, hb, St.total])]
  have hlock : Conc.LockedBy Loc.holds s.mutex s.loc := hi.lock
  refine hi.of_step hloc (hm ▸ hlock.drop hloc hh rfl) (hb ▸ hi.balanced) hwrap (fun u hu => ?_) hown (.inl hh)
    trivial hret
  rw [St.cm, hc]
  exact hi.unregistered u (hp ▸ hu)

/-! ### Words set under the mutex -/

/-- The holder of the mutex sets a word and moves the difference. -/
theorem inv_set {v : BitVec 32} (hi : Inv cfg s) (hh : (s.loc t).holds = true)
    (hh' : l.holds = true)
    (hcount : (s.globalcount : ℤ) + l.flight.1 =
      s.globalcount + (s.loc t).flight.1 + (s.c u - (splitCounterandmaxInt v).1))
    (hres : (s.globalreserve : ℤ) + l.flight.2 =
      s.globalreserve + (s.loc t).flight.2 + ((splitCounterandmaxInt v).2 - s.cm u))
    (hle : (splitCounterandmaxInt v).1 ≤ (splitCounterandmaxInt v).2)
    (hcount0 : 0 ≤ (s.globalcount : ℤ) + l.flight.1)
    (hlimit : (s.globalcount : ℤ) + l.flight.1 + (s.globalreserve + l.flight.2) ≤
      cfg.globalcountmax)
    (hreg : s.counterp u = false → (splitCounterandmaxInt v).2 = 0)
    (hl : LocInv cfg ((s.set u v).goto t l) t l) :
    Inv cfg (St.record t s ((s.set u v).goto t l)) := by
  set s₀ := (s.set u v).goto t l with hs₀
  have hloc : s₀.loc = Function.update s.loc t l := rfl
  have hf := flight_of_holder (hi.mutex_eq hh)
  have hf' : s₀.flight = l.flight := by
    rw [flight_of_holder (s := s₀) (hi.mutex_eq hh), hloc, Function.update_self]
  have hb : s₀.books = s.books.post u _ _ _ _ := books_post rfl
  have hcu : s.books.c u = s.c u := rfl
  have hcmu : s.books.cm u = s.cm u := rfl
  have hcnt : s.books.count = s.globalcount + (s.loc t).flight.1 := by rw [← hf]; rfl
  have hrsv : s.books.reserve = s.globalreserve + (s.loc t).flight.2 := by rw [← hf]; rfl
  have hgc : s₀.globalcount = s.globalcount := rfl
  have hgr : s₀.globalreserve = s.globalreserve := rfl
  refine hi.holder hh hh' hloc rfl ?_ ?_ hi.noWrap (fun a ha => ?_)
    (fun a _ => Own.refl) hl (hi.returned_of (.inr Own.refl))
  · rw [hb, hf', hgc, hgr]
    refine hi.balanced.post ?_ ?_ ?_ ?_ hcount0 hlimit
    · omega
    · exact Int.ofNat_le.mpr hle
    · exact Int.ofNat_le.mpr (split_le v).2
    · omega
  · rw [St.total, hb, total_post, ← St.total, hf', hgc]
    omega
  · by_cases hau : a = u
    · subst hau
      simpa [St.cm, hs₀, St.set, St.goto] using hreg ha
    · have := hi.unregistered a ha
      simpa [St.cm, hs₀, St.set, St.goto, hau] using this

theorem split_zero : splitCounterandmaxInt (mergeCounterandmax 0 0) = (0, 0) :=
  split_merge (by rw [maxCountermax]; omega) (by rw [maxCountermax]; omega)

/-- After a word was set to 0, no other allowance has changed. -/
theorem cm_set_zero (v : Fin n) :
    ((s.set u (mergeCounterandmax 0 0)).goto t l).cm v = if v = u then 0 else s.cm v := by
  by_cases hv : v = u
  · subst hv
    simp [St.cm, St.set, St.goto, split_zero]
  · simp [St.cm, St.set, St.goto, hv]

/-! ### Every step -/

theorem Inv.count_eq (hi : Inv cfg s) (hh : (s.loc t).holds = true) :
    s.books.count = s.globalcount + (s.loc t).flight.1 ∧
      s.books.reserve = s.globalreserve + (s.loc t).flight.2 := by
  rw [← flight_of_holder (hi.mutex_eq hh)]
  exact ⟨rfl, rfl⟩

/-- What the balanced books say about the global part, at a place. -/
theorem Inv.bounds (hi : Inv cfg s) (hh : (s.loc t).holds = true) :
    0 ≤ (s.globalcount : ℤ) + (s.loc t).flight.1 ∧
      0 ≤ (s.globalreserve : ℤ) + (s.loc t).flight.2 ∧
      (s.globalcount : ℤ) + (s.loc t).flight.1 + (s.globalreserve + (s.loc t).flight.2) ≤
        cfg.globalcountmax ∧
      ∀ u, (s.cm u : ℤ) ≤ s.globalreserve + (s.loc t).flight.2 := by
  obtain ⟨h1, h2⟩ := hi.count_eq hh
  rw [← h1, ← h2]
  exact ⟨hi.balanced.count, hi.balanced.reserve_nonneg, hi.balanced.limit,
    hi.balanced.cm_le_reserve⟩

theorem seeLacks_eq (h : s.globalcount + s.globalreserve ≤ cfg.globalcountmax) :
    s.seeLacks cfg k = s := by
  cases k with
  | add => exact seeRoom_eq h
  | sub => rfl

/-- **Every step keeps the invariant.** -/
theorem inv_stepThread {online : ℕ} (hi : Inv cfg s)
    (hn : stepThread cfg t online s = some s') : Inv cfg (St.record t s s') := by
  have hp := hi.loc t
  have hfits := cfg.fits
  unfold stepThread at hn
  cases hl : s.loc t with
  | idle => simp [hl] at hn
  | read k delta =>
    simp only [hl, Option.some.injEq] at hn
    exact hn ▸ inv_fastPath hi hl
  | cmpxchg k delta old new =>
    rw [hl] at hp
    simp only [hl] at hn
    split at hn <;> simp only [Option.some.injEq] at hn <;> subst hn
    · exact inv_cmpxchg hi hl ‹_›
    · exact hi.outside (l := .read k delta) (by rw [hl]; rfl) rfl rfl rfl rfl rfl rfl rfl hi.noWrap
        (fun _ _ => Own.refl) (.inr Own.refl) hp.1
  | lock j =>
    simp only [hl] at hn
    split at hn <;> simp only [Option.some.injEq, reduceCtorEq] at hn
    exact hn ▸ inv_lock hi hl ‹_›
  | globRead j =>
    rw [hl] at hp
    simp only [hl, Option.some.injEq] at hn
    subst hn
    exact hi.same (by rw [hl]; rfl) rfl rfl rfl rfl rfl (by rw [hl]; rfl) (by rw [hl]; rfl) hi.noWrap
      (fun _ _ => Own.refl) (.inr Own.refl) ⟨hp, rfl, rfl⟩
  | globCount j c cm =>
    have hh : (s.loc t).holds = true := by rw [hl]; rfl
    obtain ⟨h1, h2, h3, h4⟩ := hi.bounds hh
    rw [hl] at hp h1 h2 h3 h4
    simp only [Loc.flight, Prod.fst_zero, Prod.snd_zero] at h1 h2 h3 h4
    obtain ⟨hj, hc, hcm⟩ := hp
    have h5 := hi.c_le_cm t
    have h6 := h4 t
    simp only [hl, Option.some.injEq] at hn
    rw [addCount_eq (by omega)] at hn
    subst hn
    exact hi.same hh rfl rfl rfl rfl rfl (by rw [hl]; simp [St.goto, Loc.flight])
      (by rw [hl]; rfl) hi.noWrap (fun _ _ => Own.refl) (.inr Own.refl) ⟨hj, hc, hcm⟩
  | globReserve j c cm =>
    have hh : (s.loc t).holds = true := by rw [hl]; rfl
    obtain ⟨h1, h2, h3, h4⟩ := hi.bounds hh
    rw [hl] at hp h1 h2 h3 h4
    simp only [Loc.flight] at h1 h2 h3 h4
    obtain ⟨hj, hc, hcm⟩ := hp
    have h6 := h4 t
    simp only [hl, Option.some.injEq] at hn
    rw [subReserve_eq (by omega)] at hn
    subst hn
    exact hi.same hh rfl rfl rfl rfl rfl (by rw [hl]; rfl)
      (by rw [hl]; simp only [St.goto, Loc.flight]; omega) hi.noWrap (fun _ _ => Own.refl)
      (.inr Own.refl) ⟨hj, hc, hcm⟩
  | globSet j c cm =>
    have hh : (s.loc t).holds = true := by rw [hl]; rfl
    obtain ⟨h1, h2, h3, h4⟩ := hi.bounds hh
    rw [hl] at hp h1 h2 h3 h4
    simp only [Loc.flight] at h1 h2 h3 h4
    obtain ⟨hj, hc, hcm⟩ := hp
    have hf : (Loc.globalized j : Loc n).flight = 0 := by cases j <;> rfl
    have h5 := hi.c_le_cm t
    simp only [hl, Option.some.injEq] at hn
    subst hn
    have h0 : ((s.set t (mergeCounterandmax 0 0)).goto t (.globalized j)).cm t = 0 := by
      rw [cm_set_zero, if_pos rfl]
    refine inv_set hi hh (by cases j <;> rfl) ?_ ?_ (by rw [split_zero]) ?_ ?_
      (fun _ => by rw [split_zero]) ?_
    · rw [hl, hf, split_zero]
      simp only [Loc.flight, Prod.fst_zero]
      omega
    · rw [hl, hf, split_zero]
      simp only [Loc.flight, Prod.snd_zero]
      omega
    · rw [hf]
      simp only [Prod.fst_zero]
      omega
    · rw [hf]
      simp only [Prod.fst_zero, Prod.snd_zero]
      omega
    · cases j with
      | update k delta => exact ⟨hj, h0⟩
      | register => exact fun _ => h0
      | unregister => exact fun _ => h0
  | test k delta =>
    have hh : (s.loc t).holds = true := by rw [hl]; rfl
    obtain ⟨h1, h2, h3, h4⟩ := hi.bounds hh
    rw [hl] at hp h1 h2 h3 h4
    simp only [Loc.flight, Prod.fst_zero, Prod.snd_zero] at h1 h2 h3 h4
    simp only [hl, Option.some.injEq] at hn
    rw [seeLacks_eq (by omega)] at hn
    subst hn
    refine hi.same hh (by split <;> rfl) rfl rfl rfl rfl ?_ ?_ hi.noWrap (fun _ _ => Own.refl)
      (.inr Own.refl) ?_
    · rw [hl]
      split <;> rfl
    · rw [hl]
      split <;> rfl
    · split
      · exact hp
      · rename_i hk
        have hg : Granted cfg s.globalcount s.globalreserve k delta :=
          granted_of_not_lacks (by omega) hk
        exact ⟨hp.1, hp.2, hg⟩
  | flush k delta =>
    have hh : (s.loc t).holds = true := by rw [hl]; rfl
    obtain ⟨h1, h2, h3, h4⟩ := hi.bounds hh
    rw [hl] at hp h1 h2 h3 h4
    simp only [Loc.flight, Prod.fst_zero, Prod.snd_zero] at h1 h2 h3 h4
    simp only [hl, Option.some.injEq] at hn
    subst hn
    refine hi.same hh (by split <;> rfl) rfl rfl rfl rfl ?_ ?_ hi.noWrap (fun _ _ => Own.refl)
      (.inr Own.refl) ?_
    · rw [hl]
      split <;> rfl
    · rw [hl]
      split <;> rfl
    · split
      · refine ⟨hp.1, fun u => ?_⟩
        have := h4 u
        exact (show s.cm u = 0 by omega)
      · exact ⟨hp.1, hp.2, fun u hu => absurd hu (Nat.not_lt_zero _)⟩
  | flushNext k delta i =>
    have hh : (s.loc t).holds = true := by rw [hl]; rfl
    rw [hl] at hp
    obtain ⟨hp, h0, hall⟩ := hp
    simp only [hl, Option.some.injEq] at hn
    subst hn
    refine hi.same hh ?_ rfl rfl rfl rfl ?_ ?_ hi.noWrap (fun _ _ => Own.refl) (.inr Own.refl) ?_
    · split <;> [split; skip] <;> rfl
    · rw [hl]
      split <;> [split; skip] <;> rfl
    · rw [hl]
      split <;> [split; skip] <;> rfl
    · split
      · rename_i hlt
        split
        · exact ⟨hp, h0, fun u hu => hall u hu⟩
        · rename_i hcp
          refine ⟨hp, h0, fun u hu => ?_⟩
          rcases Nat.lt_succ_iff_lt_or_eq.mp hu with h | h
          · exact hall u h
          · have hui : u = ⟨i, hlt⟩ := Fin.ext h
            exact hi.unregistered u (by rw [hui]; exact Bool.eq_false_iff.mpr hcp)
      · rename_i hge
        exact ⟨hp, fun u => hall u (by omega)⟩
  | flushXchg k delta i =>
    have hh : (s.loc t).holds = true := by rw [hl]; rfl
    obtain ⟨h1, h2, h3, h4⟩ := hi.bounds hh
    rw [hl] at hp h1 h2 h3 h4
    simp only [Loc.flight, Prod.fst_zero, Prod.snd_zero] at h1 h2 h3 h4
    obtain ⟨hp, h0, hall⟩ := hp
    have h5 := hi.c_le_cm i
    have h6 := h4 i
    simp only [hl, Option.some.injEq] at hn
    subst hn
    refine inv_set hi hh rfl ?_ ?_ (by rw [split_zero]) ?_ ?_ (fun _ => by rw [split_zero]) ?_
    · rw [hl, split_zero]
      simp only [Loc.flight, Prod.fst_zero]
      omega
    · rw [hl, split_zero]
      simp only [Loc.flight, Prod.snd_zero]
      omega
    · simp only [Loc.flight]
      omega
    · simp only [Loc.flight]
      omega
    · refine ⟨hp, ?_, fun u hu => ?_⟩
      · rw [cm_set_zero]
        split
        · rfl
        · exact h0
      · rw [cm_set_zero]
        split
        · rfl
        · exact hall u (lt_of_le_of_ne hu ‹_›)
  | flushCount k delta i c cm =>
    have hh : (s.loc t).holds = true := by rw [hl]; rfl
    obtain ⟨h1, h2, h3, h4⟩ := hi.bounds hh
    rw [hl] at hp h1 h2 h3 h4
    simp only [Loc.flight] at h1 h2 h3 h4
    simp only [hl, Option.some.injEq] at hn
    rw [addCount_eq (by omega)] at hn
    subst hn
    exact hi.same hh rfl rfl rfl rfl rfl
      (by rw [hl]; simp [St.goto, Loc.flight]) (by rw [hl]; rfl) hi.noWrap (fun _ _ => Own.refl)
      (.inr Own.refl) hp
  | flushReserve k delta i cm =>
    have hh : (s.loc t).holds = true := by rw [hl]; rfl
    obtain ⟨h1, h2, h3, h4⟩ := hi.bounds hh
    rw [hl] at hp h1 h2 h3 h4
    simp only [Loc.flight] at h1 h2 h3 h4
    obtain ⟨hp, h0, hall⟩ := hp
    simp only [hl, Option.some.injEq] at hn
    rw [subReserve_eq (by omega)] at hn
    subst hn
    exact hi.same hh rfl rfl rfl rfl rfl (by rw [hl]; rfl)
      (by rw [hl]; simp only [St.goto, Loc.flight, Prod.snd_zero]; omega) hi.noWrap
      (fun _ _ => Own.refl) (.inr Own.refl) ⟨hp, h0, fun u hu => hall u (Nat.lt_succ_iff.mp hu)⟩
  | retest k delta =>
    have hh : (s.loc t).holds = true := by rw [hl]; rfl
    obtain ⟨h1, h2, h3, h4⟩ := hi.bounds hh
    obtain ⟨h7, h8⟩ := hi.count_eq hh
    rw [hl] at hp h1 h2 h3 h4 h7 h8
    simp only [Loc.flight, Prod.fst_zero, Prod.snd_zero] at h1 h2 h3 h4 h7 h8
    obtain ⟨hp, hall⟩ := hp
    simp only [hl, Option.some.injEq] at hn
    rw [seeLacks_eq (by omega)] at hn
    subst hn
    -- nobody has an allowance, so the number counted is `globalcount`
    obtain ⟨htotal, hres⟩ := hi.balanced.total_of_no_reserve fun u => by
      rw [show s.books.cm u = s.cm u from rfl, hall u]
      rfl
    refine hi.same hh (by split <;> rfl) rfl rfl rfl rfl ?_ ?_ hi.noWrap (fun u hu => ?_)
      (.inl hp.2.2.1) ?_
    · rw [hl]
      split <;> rfl
    · rw [hl]
      split <;> rfl
    · exact ⟨rfl, rfl, rfl, Function.update_of_ne hu _ _, rfl⟩
    · split
      · rename_i hk
        refine ⟨⟨k, delta, hp.1, .inr ⟨rfl, hp.2.1, s.total, Function.update_self .., ?_⟩⟩, hp.2.2.1⟩
        have hx := exceeds_of_lacks (by omega) (by omega) hk
        rw [St.total, htotal, h7, add_zero]
        exact hx
      · rename_i hk
        have hg : Granted cfg s.globalcount s.globalreserve k delta :=
          granted_of_not_lacks (by omega) hk
        exact ⟨hp, hall t, hg⟩
  | apply k delta =>
    have hg := hp
    rw [hl] at hg
    cases k with
    | add =>
      have hg' : s.globalcount + s.globalreserve + delta ≤ cfg.globalcountmax := hg.2.2
      simp only [hl, Option.some.injEq] at hn
      rw [addCount_eq (by omega)] at hn
      subst hn
      exact inv_apply hi hl (by rw [Kind.change]; push_cast; rfl)
    | sub =>
      have hg' : delta ≤ s.globalcount := hg.2.2
      simp only [hl, Option.some.injEq] at hn
      rw [subCount_eq hg'] at hn
      subst hn
      exact inv_apply hi hl (by rw [Kind.change]; omega)
  | balLimit =>
    have hh : (s.loc t).holds = true := by rw [hl]; rfl
    obtain ⟨h1, h2, h3, h4⟩ := hi.bounds hh
    rw [hl] at hp h1 h2 h3 h4
    simp only [Loc.flight, Prod.fst_zero, Prod.snd_zero] at h1 h2 h3 h4
    simp only [hl, Option.ite_none_left_eq_some, Option.some.injEq] at hn
    obtain ⟨-, hn⟩ := hn
    have hroom : s.room cfg = _ := room_eq (by omega)
    rw [seeRoom_eq (by omega)] at hn
    subst hn
    refine hi.same hh rfl rfl rfl rfl rfl (by rw [hl]; rfl) (by rw [hl]; rfl) hi.noWrap
      (fun _ _ => Own.refl) (.inr Own.refl) ⟨hp.1, hp.2, Nat.min_le_right _ _, ?_⟩
    have := Nat.div_le_self (s.room cfg) online
    show s.globalcount + s.globalreserve + _ ≤ _
    omega
  | balReserve cm =>
    have hh : (s.loc t).holds = true := by rw [hl]; rfl
    rw [hl] at hp
    obtain ⟨hm, h0, hcm, hle⟩ := hp
    simp only [hl, Option.some.injEq] at hn
    rw [addReserve_eq (by omega)] at hn
    subst hn
    refine hi.same hh rfl rfl rfl rfl rfl (by rw [hl]; rfl) ?_ hi.noWrap
      (fun _ _ => Own.refl) (.inr Own.refl) ⟨hm, h0, hcm, ?_⟩
    · rw [hl]
      simp only [St.goto, Loc.flight, Prod.snd_zero]
      omega
    · show s.globalcount + (s.globalreserve + cm) ≤ _
      omega
  | balHalf cm =>
    rw [hl] at hp
    obtain ⟨hm, h0, hcm, hle⟩ := hp
    simp only [hl, Option.some.injEq] at hn
    subst hn
    refine hi.same (by rw [hl]; rfl) rfl rfl rfl rfl rfl (by rw [hl]; rfl) (by rw [hl]; rfl)
      hi.noWrap (fun _ _ => Own.refl) (.inr Own.refl) ⟨hm, h0, hcm, hle, Nat.min_le_right _ _, ?_⟩
    omega
  | balCount cm c =>
    rw [hl] at hp
    obtain ⟨hm, h0, hcm, hle, hc, hccm⟩ := hp
    simp only [hl, Option.some.injEq] at hn
    rw [subCount_eq hc] at hn
    subst hn
    refine hi.same (by rw [hl]; rfl) rfl rfl rfl rfl rfl ?_ (by rw [hl]; rfl)
      hi.noWrap (fun _ _ => Own.refl) (.inr Own.refl) ⟨hm, h0, hcm, ?_, hccm⟩
    · rw [hl]
      simp only [St.goto, Loc.flight]
      omega
    · show s.globalcount - c + s.globalreserve ≤ _
      omega
  | balSet cm c =>
    have hh : (s.loc t).holds = true := by rw [hl]; rfl
    obtain ⟨h1, h2, h3, h4⟩ := hi.bounds hh
    rw [hl] at hp h1 h2 h3 h4
    simp only [Loc.flight] at h1 h2 h3 h4
    obtain ⟨⟨k, delta, hcall, hmoves, hret, hreg⟩, h0, hcm, hle, hccm⟩ := hp
    have hc0 := hi.c_eq_zero h0
    have hsplit := split_merge (hccm.trans hcm) hcm
    simp only [hl, Option.some.injEq] at hn
    subst hn
    refine inv_set hi hh rfl ?_ ?_ (by rw [hsplit]; exact hccm) ?_ ?_ (fun h => ?_)
      ⟨⟨k, delta, hcall, .inl ⟨rfl, hmoves⟩⟩, hret⟩
    · rw [hl, hsplit]
      simp only [Loc.flight, Prod.fst_zero]
      omega
    · rw [hl, hsplit]
      simp only [Loc.flight, Prod.snd_zero]
      omega
    · simp only [Loc.flight, Prod.fst_zero]
      omega
    · simp only [Loc.flight, Prod.fst_zero, Prod.snd_zero]
      omega
    · rw [hreg] at h
      cases h
  | setPtr b =>
    rw [hl] at hp
    simp only [hl, Option.some.injEq] at hn
    subst hn
    have hh : (s.loc t).holds = true := by rw [hl]; rfl
    set s₀ := { s with counterp := Function.update s.counterp t b }.goto t (.unlock none) with hs₀
    have hloc : s₀.loc = Function.update s.loc t (.unlock none) := rfl
    have hf : s.flight = 0 := by rw [flight_of_holder (hi.mutex_eq hh), hl]; rfl
    have hf' : s₀.flight = 0 := by
      rw [flight_of_holder (s := s₀) (hi.mutex_eq hh), hloc, Function.update_self]
      rfl
    have hb : s₀.books = s.books := books_same rfl (by rw [hf, hf']; rfl) (by rw [hf, hf']; rfl)
    refine hi.holder hh rfl rfl rfl (hb ▸ hi.balanced) (by rw [St.total, hb, St.total]) hi.noWrap
      (fun u hu => ?_) (fun u hu => ⟨rfl, rfl, rfl, rfl, Function.update_of_ne hu _ _⟩) trivial
      fun r hr => hi.returned t r hr
    have hu' : Function.update s.counterp t b u = false := hu
    by_cases hut : u = t
    · subst hut
      rw [Function.update_self] at hu'
      exact hp hu'
    · rw [Function.update_of_ne hut] at hu'
      exact hi.unregistered u hu'
  | unlock ret =>
    cases ret with
    | none =>
      simp only [hl, Option.some.injEq] at hn
      subst hn
      exact inv_unlock hi hl rfl rfl rfl rfl rfl rfl hi.noWrap (fun _ _ => Own.refl)
        fun r hr => (hi.returned t r hr).frame Own.refl
    | some r =>
      rw [hl] at hp
      simp only [hl, Option.some.injEq] at hn
      subst hn
      refine inv_unlock hi hl rfl rfl rfl rfl rfl rfl hi.noWrap
        (fun u hu => ⟨rfl, rfl, Function.update_of_ne hu _ _, rfl, rfl⟩) fun r' hr => ?_
      have hr' : Function.update s.ret t (some r) t = some r' := hr
      rw [Function.update_self] at hr'
      exact Option.some.inj hr' ▸ hp.1

theorem inv_next {a : Act n} (hi : Inv cfg s) (hn : next cfg a s = some s') : Inv cfg s' := by
  obtain ⟨s₀, h0, rfl⟩ := Option.map_eq_some_iff.mp hn
  cases a with
  | step t online => exact inv_stepThread hi h0
  | call k t delta =>
    rw [act] at h0
    split at h0
    · rename_i hl hcp
      split at h0 <;> simp only [Option.some.injEq, reduceCtorEq] at h0
      subst h0
      show Inv cfg (St.record t s _)
      exact hi.outside (l := .read k delta) (by rw [hl]; rfl) rfl rfl rfl rfl rfl rfl rfl hi.noWrap
        (fun u hu => ⟨Function.update_of_ne hu _ _, Function.update_of_ne hu _ _,
          Function.update_of_ne hu _ _, Function.update_of_ne hu _ _, rfl⟩)
        (.inl (Function.update_self ..))
        ⟨Function.update_self .., Function.update_self .., Function.update_self .., hcp⟩
    · cases h0
  | register t =>
    rw [act] at h0
    split at h0 <;> simp only [Option.some.injEq, reduceCtorEq] at h0
    rename_i hl
    subst h0
    show Inv cfg (St.record t s _)
    exact hi.outside (l := .lock .register) (by rw [hl]; rfl) rfl rfl rfl rfl rfl rfl rfl hi.noWrap
      (fun _ _ => Own.refl) (.inr Own.refl) trivial
  | unregister t =>
    rw [act] at h0
    split at h0 <;> simp only [Option.some.injEq, reduceCtorEq] at h0
    rename_i hl
    subst h0
    show Inv cfg (St.record t s _)
    exact hi.outside (l := .lock .unregister) (by rw [hl]; rfl) rfl rfl rfl rfl rfl rfl rfl hi.noWrap
      (fun _ _ => Own.refl) (.inr Own.refl) trivial

theorem inv_init (h : Init s) : Inv cfg s := by
  have hsplit : ∀ t, splitCounterandmaxInt (s.counterandmax t) = (0, 0) := fun t => by
    rw [h.counterandmax]
    rfl
  have hb : s.books = ⟨0, 0, fun _ => 0, fun _ => 0⟩ := by
    simp [St.books, flight_of_free h.mutex, h.globalcount, h.globalreserve, St.c, St.cm, hsplit]
  refine ⟨fun t => ?_, ?_, h.wrapped, fun t _ => ?_, fun t => ?_, fun t r hr => ?_⟩
  · rw [h.mutex, h.loc]
    exact iff_of_false nofun nofun
  · rw [hb]
    exact ⟨le_rfl, fun _ => le_rfl, fun _ => le_rfl, fun _ => Int.natCast_nonneg _,
      Finset.sum_const_zero, by simp⟩
  · rw [St.cm, hsplit]
  · rw [h.loc]
    trivial
  · rw [h.ret] at hr
    cases hr

end Atomic
end Count
end Perfbook
