/-
# The theft protocol of `count_lim_sig` keeps the books

The invariant: `theft` of a thread is idle unless the holder of the mutex has
asked for its numbers and not yet taken them (`Loc.asks`); and once it is
ready, or numbers were stolen under a fast path that `theft` had admitted
before, the thread has no part and no allowance, so what this fast path
stores is what was there (`Inv.stolen`). The handler acknowledges a request
only, and says ready only where `counting` is 0.

Each step either moves no numbers (`Inv.quiet`), or is one of the holder's
that moves its own or those of a thread that is ready (`Inv.move`); numbers
on the move do not show in the books (`books_hidden`).

Key definitions: `Loc.holds`, `Loc.inFast`, `Loc.asks`, `LocInv`, `HandlerInv`,
`Inv`, `Rest`, `Shared`, `Hidden`.
Key theorems: `Inv.of_step`, `Inv.quiet`, `Inv.move`, `books_hidden`,
`books_collect`, `books_release`.
-/
import Perfbook.Conc.Lock
import Perfbook.Count.Sig

namespace Perfbook
namespace Count
namespace Sig

open Books Calls

variable {n : ℕ}

/-- A thread at this place holds the mutex. -/
def Loc.holds : Loc n → Bool
  | .idle | .setCounting _ _ | .loadTheft _ _ | .loadMax _ | .loadCounter _ _ _ | .reload _ _ => false
  | .store _ _ _ | .clearCounting _ _ _ | .checkAck _ _ _ | .setReady _ _ _ | .lock _ => false
  | _ => true

/-- `theft` has admitted the fast path, and `counter` is not yet stored. -/
def Loc.inFast : Loc n → Bool
  | .loadMax _ | .loadCounter _ _ _ | .reload _ _ | .store _ _ _ => true
  | _ => false

/-- `counting` is 1. -/
def Loc.counts : Loc n → Bool
  | .loadTheft _ _ | .loadMax _ | .loadCounter _ _ _ | .reload _ _ | .store _ _ _ => true
  | .clearCounting _ _ _ => true
  | _ => false

/-- The fast path is about to say ready. -/
def Loc.readies : Loc n → Bool
  | .setReady _ _ _ => true
  | _ => false

/-- The holder of the mutex has asked for the numbers of `u`, and not yet
given its `theft` back. -/
def Loc.asks (u : Fin n) : Loc n → Prop
  | .askNext _ _ i => u.1 < i
  | .askMax _ _ i | .askReady _ _ i | .askReq _ _ i => u < i
  | .askKill _ _ i => u ≤ i
  | .waitNext _ _ i => i ≤ u.1
  | .waitLoad _ _ i | .waitPoll _ _ i | .waitKill _ _ i => i ≤ u
  | .stealCount _ _ i | .stealZero _ _ i | .stealReserve _ _ i | .stealMax _ _ i => i ≤ u
  | .stealIdle _ _ i => i ≤ u
  | _ => False

/-- Whose numbers `flush_local_count` reads and zeroes. -/
def Loc.steals : Loc n → Option (Fin n)
  | .stealCount _ _ i | .stealZero _ _ i | .stealReserve _ _ i | .stealMax _ _ i => some i
  | _ => none

/-- A thread without part and allowance. -/
def Zero (s : St n) (t : Fin n) : Prop := s.counter t = 0 ∧ s.countermax t = 0

/-- The change fits the thread's part. -/
def Fits (s : St n) (t : Fin n) : Kind → ℕ → Prop
  | .add, delta => s.counter t + delta ≤ s.countermax t
  | .sub, delta => delta ≤ s.counter t

/-- After the fast path, which made the change or not. -/
def Left (s : St n) (t : Fin n) (k : Kind) (delta : ℕ) (fastpath : Bool) : Prop :=
  if fastpath then s.Moved t else s.Pending t k delta

/-- What holds of a thread `t` at a place. -/
def LocInv (cfg : Config) (s : St n) (t : Fin n) : Loc n → Prop
  | .idle => True
  | .setCounting k delta | .loadTheft k delta => s.Pending t k delta
  | .loadMax delta => s.Pending t .add delta
  | .loadCounter k delta cm => s.Pending t k delta ∧ (k = .add → cm = s.countermax t)
  | .reload k delta => s.Pending t k delta ∧ Fits s t k delta
  | .store k delta c => s.Pending t k delta ∧ Fits s t k delta ∧ c = s.counter t
  | .clearCounting k delta fastpath | .checkAck k delta fastpath => Left s t k delta fastpath
  | .setReady k delta fastpath => Left s t k delta fastpath ∧ s.theft t = .ack
  | .lock j | .globCount j | .globZero j => s.JobInv t j
  | .globReserve j | .globMax j => s.JobInv t j ∧ s.counter t = 0
  | .test k delta | .askNext k delta _ | .askKill k delta _ => s.Pending t k delta ∧ Zero s t
  | .askMax k delta i | .askReq k delta i =>
    s.Pending t k delta ∧ Zero s t ∧ s.counterp i = true
  | .askReady k delta i =>
    s.Pending t k delta ∧ Zero s t ∧ s.counterp i = true ∧ s.countermax i = 0
  | .waitNext k delta i => s.Pending t k delta ∧ Zero s t ∧ ∀ u : Fin n, u.1 < i → Zero s u
  | .waitLoad k delta i | .waitPoll k delta i | .waitKill k delta i =>
    s.Pending t k delta ∧ Zero s t ∧ ∀ u : Fin n, u < i → Zero s u
  | .stealCount k delta i | .stealZero k delta i =>
    s.Pending t k delta ∧ Zero s t ∧ (∀ u : Fin n, u < i → Zero s u) ∧ s.theft i = .ready
  | .stealReserve k delta i | .stealMax k delta i =>
    s.Pending t k delta ∧ Zero s t ∧ (∀ u : Fin n, u < i → Zero s u) ∧ s.theft i = .ready ∧
      s.counter i = 0
  | .stealIdle k delta i =>
    s.Pending t k delta ∧ Zero s t ∧ (∀ u : Fin n, u < i → Zero s u) ∧ s.theft i = .ready ∧
      Zero s i
  | .retest k delta => s.Pending t k delta ∧ ∀ u, Zero s u
  | .apply k delta =>
    s.Pending t k delta ∧ Zero s t ∧ Granted cfg s.globalcount s.globalreserve k delta
  | .balMax => s.Moved t ∧ Zero s t
  | .balDivide | .balCap => s.Moved t ∧ s.counter t = 0 ∧
      s.globalcount + s.globalreserve + s.countermax t ≤ cfg.globalcountmax
  | .balReserve => s.Moved t ∧ s.counter t = 0 ∧ s.countermax t ≤ maxCountermax ∧
      s.globalcount + s.globalreserve + s.countermax t ≤ cfg.globalcountmax
  | .balHalf => s.Moved t ∧ s.countermax t ≤ maxCountermax ∧
      s.globalcount + s.globalreserve ≤ cfg.globalcountmax
  | .balClip => s.Moved t ∧ s.countermax t ≤ maxCountermax ∧
      s.globalcount + s.globalreserve ≤ cfg.globalcountmax ∧ s.counter t ≤ s.countermax t
  | .balCount => s.Moved t ∧ s.countermax t ≤ maxCountermax ∧
      s.globalcount + s.globalreserve ≤ cfg.globalcountmax ∧ s.counter t ≤ s.countermax t ∧
      s.counter t ≤ s.globalcount
  | .setPtr b => b = false → Zero s t
  | .unlock none => True
  | .unlock (some r) => Settled cfg s.toCalls t r ∧ s.ret t = none

/-- What holds of a handler of `t`. -/
def HandlerInv (s : St n) (t : Fin n) : Option Handler → Prop
  | some .ack => s.theft t = .req
  | some .test => s.theft t = .ack ∧ (s.loc t).readies = false
  | some .ready => s.theft t = .ack ∧ (s.loc t).readies = false ∧ s.counting t = false
  | _ => True

structure Inv (cfg : Config) (s : St n) : Prop where
  lock : ∀ t, s.mutex = some t ↔ (s.loc t).holds = true
  balanced : Balanced cfg.globalcountmax maxCountermax s.books
  unregistered : ∀ t, s.counterp t = false → Zero s t
  theft : ∀ u, s.theft u ≠ .idle →
    s.counterp u = true ∧ ∃ h, s.mutex = some h ∧ (s.loc h).asks u
  stolen : ∀ u, (s.theft u = .ready ∨ s.stolen u = true) → (s.loc u).inFast = true → Zero s u
  counting : ∀ t, s.counting t = (s.loc t).counts
  handler : ∀ t, HandlerInv s t (s.handler t)
  loc : ∀ t, LocInv cfg s t (s.loc t)
  returned : ∀ t r, s.ret t = some r → Settled cfg s.toCalls t r

variable {cfg : Config} {s s' : St n} {t u : Fin n} {l : Loc n} {k : Kind} {delta : ℕ}

/-! ### What the steps of others leave as it is -/

/-- What a step of another thread leaves as it is for `u`. -/
structure Rest (u : Fin n) (s s' : St n) : Prop where
  own : Own u s.toCalls s'.toCalls
  theft : s.theft u = .req ∨ s.theft u = .ack → s'.theft u = s.theft u
  counting : s'.counting u = s.counting u
  handler : s'.handler u = s.handler u
  fast : (s.loc u).inFast = true → s'.counter u = s.counter u ∧ s'.countermax u = s.countermax u

/-- What a step outside the mutex leaves as it is for its holder `u`. -/
structure Shared (u : Fin n) (s s' : St n) : Prop where
  globalcount : s'.globalcount = s.globalcount
  globalreserve : s'.globalreserve = s.globalreserve
  countermax : s'.countermax = s.countermax
  counter : s'.counter u = s.counter u
  counterp : s'.counterp = s.counterp
  zero : ∀ v, s.countermax v = 0 → s'.counter v = s.counter v
  ready : ∀ v, s.theft v = .ready → s'.theft v = .ready ∧ s'.counter v = s.counter v

theorem Shared.zero_keep (hs : Shared u s s') {v : Fin n} (h : Zero s v) : Zero s' v :=
  ⟨(hs.zero v h.2).trans h.1, (congrFun hs.countermax v).trans h.2⟩

theorem Fits.congr (h : Fits s t k delta) (hc : s'.counter t = s.counter t)
    (hcm : s'.countermax t = s.countermax t) : Fits s' t k delta := by
  cases k <;> simpa only [Fits, hc, hcm] using h

theorem Left.frame {fastpath : Bool} (h : Left s u k delta fastpath)
    (ho : Own u s.toCalls s'.toCalls) : Left s' u k delta fastpath := by
  cases fastpath
  · exact Calls.Pending.frame h ho
  · exact Calls.Moved.frame h ho

/-- **A thread's assertion outlives the steps of others.** -/
theorem LocInv.frame (ho : Own u s.toCalls s'.toCalls)
    (htheft : l.readies = true → s.theft u = .ack → s'.theft u = .ack)
    (hfast : l.inFast = true → s'.counter u = s.counter u ∧ s'.countermax u = s.countermax u)
    (hs : l.holds = true → Shared u s s') (h : LocInv cfg s u l) : LocInv cfg s' u l := by
  cases l with
  | idle => trivial
  | setCounting k delta | loadTheft k delta | loadMax delta => exact Calls.Pending.frame h ho
  | loadCounter k delta cm => exact ⟨h.1.frame ho, fun hk => (h.2 hk).trans (hfast rfl).2.symm⟩
  | reload k delta => exact ⟨h.1.frame ho, h.2.congr (hfast rfl).1 (hfast rfl).2⟩
  | store k delta c =>
    exact ⟨h.1.frame ho, h.2.1.congr (hfast rfl).1 (hfast rfl).2, h.2.2.trans (hfast rfl).1.symm⟩
  | clearCounting k delta fastpath | checkAck k delta fastpath => exact Left.frame h ho
  | setReady k delta fastpath => exact ⟨h.1.frame ho, htheft rfl h.2⟩
  | lock j | globCount j | globZero j => exact Calls.JobInv.frame h ho
  | globReserve j | globMax j => exact ⟨h.1.frame ho, (hs rfl).counter.trans h.2⟩
  | test k delta | askNext k delta i | askKill k delta i =>
    exact ⟨h.1.frame ho, (hs rfl).zero_keep h.2⟩
  | askMax k delta i | askReq k delta i =>
    exact ⟨h.1.frame ho, (hs rfl).zero_keep h.2.1, (congrFun (hs rfl).counterp i).trans h.2.2⟩
  | askReady k delta i =>
    exact ⟨h.1.frame ho, (hs rfl).zero_keep h.2.1, (congrFun (hs rfl).counterp i).trans h.2.2.1,
      (congrFun (hs rfl).countermax i).trans h.2.2.2⟩
  | waitNext k delta i | waitLoad k delta i | waitPoll k delta i | waitKill k delta i =>
    exact ⟨h.1.frame ho, (hs rfl).zero_keep h.2.1, fun v hv => (hs rfl).zero_keep (h.2.2 v hv)⟩
  | stealCount k delta i | stealZero k delta i =>
    have hs := hs rfl
    exact ⟨h.1.frame ho, hs.zero_keep h.2.1, fun v hv => hs.zero_keep (h.2.2.1 v hv),
      (hs.ready i h.2.2.2).1⟩
  | stealReserve k delta i | stealMax k delta i =>
    have hs := hs rfl
    have hi := hs.ready i h.2.2.2.1
    exact ⟨h.1.frame ho, hs.zero_keep h.2.1, fun v hv => hs.zero_keep (h.2.2.1 v hv), hi.1,
      hi.2.trans h.2.2.2.2⟩
  | stealIdle k delta i =>
    have hs := hs rfl
    exact ⟨h.1.frame ho, hs.zero_keep h.2.1, fun v hv => hs.zero_keep (h.2.2.1 v hv),
      (hs.ready i h.2.2.2.1).1, hs.zero_keep h.2.2.2.2⟩
  | retest k delta => exact ⟨h.1.frame ho, fun v => (hs rfl).zero_keep (h.2 v)⟩
  | apply k delta =>
    have hs := hs rfl
    refine ⟨h.1.frame ho, hs.zero_keep h.2.1, ?_⟩
    rw [hs.globalcount, hs.globalreserve]
    exact h.2.2
  | balMax => exact ⟨h.1.frame ho, (hs rfl).zero_keep h.2⟩
  | balDivide | balCap | balReserve | balHalf | balClip | balCount =>
    have hs := hs rfl
    refine ⟨h.1.frame ho, ?_⟩
    rw [hs.countermax, hs.globalcount, hs.globalreserve]
    first
      | exact h.2
      | rw [hs.counter]
        exact h.2
  | setPtr b => exact fun hb => (hs rfl).zero_keep (h hb)
  | unlock ret =>
    cases ret with
    | none => trivial
    | some r => exact ⟨h.1.frame ho, ho.ret.trans h.2⟩

theorem HandlerInv.frame {x : Option Handler} (h : HandlerInv s u x)
    (htheft : s.theft u = .req ∨ s.theft u = .ack → s'.theft u = s.theft u)
    (hcount : s'.counting u = s.counting u) (hloc : s'.loc u = s.loc u) : HandlerInv s' u x := by
  match x, h with
  | none, _ | some .check, _ => trivial
  | some .ack, h => exact (htheft (.inl h)).trans h
  | some .test, h => exact ⟨(htheft (.inr h.1)).trans h.1, hloc ▸ h.2⟩
  | some .ready, h => exact ⟨(htheft (.inr h.1)).trans h.1, hloc ▸ h.2.1, hcount.trans h.2.2⟩

theorem Inv.mutex_eq (hi : Inv cfg s) (h : (s.loc t).holds = true) : s.mutex = some t :=
  (hi.lock t).mpr h

/-- **What a step of `t` has to show.** -/
theorem Inv.of_step (hi : Inv cfg s) (hloc : s'.loc = Function.update s.loc t l)
    (hlock : ∀ u, s'.mutex = some u ↔ (s'.loc u).holds = true)
    (hbal : Balanced cfg.globalcountmax maxCountermax s'.books)
    (hreg : ∀ u, s'.counterp u = false → Zero s' u)
    (htheft : ∀ u, s'.theft u ≠ .idle →
      s'.counterp u = true ∧ ∃ h, s'.mutex = some h ∧ (s'.loc h).asks u)
    (hstolen : ∀ u, (s'.theft u = .ready ∨ s'.stolen u = true) → (s'.loc u).inFast = true →
      Zero s' u)
    (hrest : ∀ u, u ≠ t → Rest u s s')
    (hshared : (s.loc t).holds = true ∨ ∀ u, u ≠ t → Shared u s s')
    (hcount : s'.counting t = l.counts) (hhandler : HandlerInv s' t (s'.handler t))
    (hl : LocInv cfg s' t l) (hret : ∀ r, s'.ret t = some r → Settled cfg s'.toCalls t r) :
    Inv cfg s' where
  lock := hlock
  balanced := hbal
  unregistered := hreg
  theft := htheft
  stolen := hstolen
  counting u := by
    by_cases hu : u = t
    · subst hu
      rw [hcount, hloc, Function.update_self]
    · rw [(hrest u hu).counting, hi.counting, hloc, Function.update_of_ne hu]
  handler u := by
    by_cases hu : u = t
    · exact hu ▸ hhandler
    · rw [(hrest u hu).handler]
      exact (hi.handler u).frame (hrest u hu).theft (hrest u hu).counting
        (by rw [hloc, Function.update_of_ne hu])
  loc u := by
    rw [hloc]
    by_cases hu : u = t
    · subst hu
      rw [Function.update_self]
      exact hl
    · rw [Function.update_of_ne hu]
      refine (hi.loc u).frame (hrest u hu).own (fun _ h => ((hrest u hu).theft (.inr h)).trans h)
        (hrest u hu).fast fun hh => ?_
      rcases hshared with ht | hs
      · have := (hi.mutex_eq ht).symm.trans (hi.mutex_eq hh)
        exact absurd (Option.some.inj this).symm hu
      · exact hs u hu
  returned u r hr := by
    by_cases hu : u = t
    · exact hu ▸ hret r (hu ▸ hr)
    · rw [(hrest u hu).own.ret] at hr
      exact (hi.returned u r hr).frame (hrest u hu).own

/-! ### Whose numbers are being moved -/

theorem Loc.moving_of_not_holds (h : l.holds = false) : l.moving t = none := by
  cases l <;> first | rfl | cases h

theorem moving_of_free (h : s.mutex = none) : s.moving = none := by rw [St.moving, h]

theorem moving_of_holder (h : s.mutex = some t) : s.moving = (s.loc t).moving t := by
  rw [St.moving, h]

/-- A step that leaves the mutex with its holder and moves nothing else. -/
theorem moving_same (hm : s'.mutex = s.mutex)
    (hloc : s'.loc = Function.update s.loc t l) (hmov : l.moving t = (s.loc t).moving t) :
    s'.moving = s.moving := by
  rw [St.moving, St.moving, hm]
  cases hu : s.mutex with
  | none => rfl
  | some u =>
    dsimp only
    rw [hloc]
    by_cases h : u = t
    · subst h
      rw [Function.update_self, hmov]
    · rw [Function.update_of_ne h]

theorem c_of_moving {b : Bool} (h : s.moving = some (u, b)) : s.c u = 0 ∧ s.cm u = 0 := by
  simp [St.c, St.cm, h]

theorem c_of_none (h : s.moving = none) : s.c u = s.counter u ∧ s.cm u = s.countermax u := by
  simp [St.c, St.cm, h]

/-! ### The books after a step -/

theorem books_quiet (hmov : s'.moving = s.moving) (hc : s'.counter = s.counter)
    (hcm : s'.countermax = s.countermax) (hg : s'.globalcount = s.globalcount)
    (hr : s'.globalreserve = s.globalreserve) : s'.books = s.books := by
  simp only [St.books, St.owed, St.c, St.cm, hmov, hc, hcm, hg, hr]

/-- Only the numbers of `u` change. -/
theorem books_post (hm : ∀ v, v ≠ u → (s'.moving.map Prod.fst = some v ↔
      s.moving.map Prod.fst = some v))
    (hv : ∀ v, v ≠ u → s'.counter v = s.counter v ∧ s'.countermax v = s.countermax v) :
    s'.books = s.books.post u (s'.c u) (s'.cm u) s'.globalcount (s'.globalreserve - s'.owed) := by
  have hc : ∀ v, v ≠ u → s'.c v = s.c v ∧ s'.cm v = s.cm v := fun v h => by
    simp only [St.c, St.cm, hm v h, hv v h, and_self]
  rw [St.books, St.books, post]
  congr 1 <;> funext a <;> by_cases ha : a = u
  · rw [ha, Function.update_self]
  · rw [Function.update_of_ne ha]
    exact congrArg Nat.cast (hc a ha).1
  · rw [ha, Function.update_self]
  · rw [Function.update_of_ne ha]
    exact congrArg Nat.cast (hc a ha).2

/-- Nobody's numbers but those of `u` are being moved. -/
def Away (u : Fin n) (s : St n) : Prop := s.moving = none ∨ ∃ b, s.moving = some (u, b)

theorem Away.moving_ne (h : Away u s) {v : Fin n} (hv : v ≠ u) :
    s.moving.map Prod.fst ≠ some v := by
  rcases h with h | ⟨b, h⟩
  · simp [h]
  · simp [h, hv.symm]

theorem Away.books_post (h : Away u s) (h' : Away u s')
    (hv : ∀ v, v ≠ u → s'.counter v = s.counter v ∧ s'.countermax v = s.countermax v) :
    s'.books = s.books.post u (s'.c u) (s'.cm u) s'.globalcount (s'.globalreserve - s'.owed) :=
  Sig.books_post (fun _ hv => iff_of_false (h'.moving_ne hv) (h.moving_ne hv)) hv

theorem record_same (h : s'.total = s.total) : St.record t s s' = s' := by
  rw [St.record, h, sub_self, Calls.record_zero]

/-- The step that makes the change of a call. -/
theorem record_change (h : s'.total = s.total + k.change delta) (hm : s'.moves t = []) :
    (St.record t s s').moves t = once k delta := by
  rw [St.record, h, add_sub_cancel_left]
  exact Calls.record_once hm

/-! ### Steps that move no numbers -/

/-- Where the mutex stays with who holds it. -/
theorem lock_keep (hi : Inv cfg s) (hm : s'.mutex = s.mutex)
    (hloc : s'.loc = Function.update s.loc t l) (hh : l.holds = (s.loc t).holds) (u : Fin n) :
    s'.mutex = some u ↔ (s'.loc u).holds = true := by
  have hlock : Conc.LockedBy Loc.holds s'.mutex s.loc := hm ▸ hi.lock
  exact hlock.stay hloc hh u

theorem Inv.returned_of (hi : Inv cfg s) (h : s'.ret t = none ∨ Own t s.toCalls s'.toCalls) (r : ℕ)
    (hr : s'.ret t = some r) : Settled cfg s'.toCalls t r := by
  rcases h with h | h
  · rw [h] at hr
    cases hr
  · rw [h.ret] at hr
    exact (hi.returned t r hr).frame h

/-- What is asked for stays asked for, where the step of `t` keeps it so. -/
theorem Inv.asked (hi : Inv cfg s) (hm : s'.mutex = s.mutex)
    (hloc : s'.loc = Function.update s.loc t l)
    (hasks : (s.loc t).asks u → l.asks u) (h : s.theft u ≠ .idle) :
    ∃ h, s'.mutex = some h ∧ (s'.loc h).asks u := by
  obtain ⟨-, v, hv, ha⟩ := hi.theft u h
  refine ⟨v, hm.trans hv, ?_⟩
  rw [hloc]
  by_cases hvt : v = t
  · subst hvt
    rw [Function.update_self]
    exact hasks ha
  · rwa [Function.update_of_ne hvt]

/-- **A step that leaves all numbers as they are.** -/
theorem Inv.quiet (hi : Inv cfg s) (hloc : s'.loc = Function.update s.loc t l)
    (hm : s'.mutex = s.mutex) (hh : l.holds = (s.loc t).holds)
    (hmov : l.moving t = (s.loc t).moving t) (hc : s'.counter = s.counter)
    (hcm : s'.countermax = s.countermax) (hg : s'.globalcount = s.globalcount)
    (hr : s'.globalreserve = s.globalreserve) (hp : s'.counterp = s.counterp)
    (htheft : ∀ u, s'.theft u ≠ .idle →
      (s.theft u ≠ .idle ∧ ((s.loc t).asks u → l.asks u)) ∨
        (s.counterp u = true ∧ (s.loc t).holds = true ∧ l.asks u))
    (hstolen : ∀ u, (s'.theft u = .ready ∨ s'.stolen u = true) → (s'.loc u).inFast = true →
      Zero s u)
    (hrest : ∀ u, u ≠ t → Rest u s s')
    (hready : (s.loc t).holds = true ∨ ∀ v, s.theft v = .ready → s'.theft v = .ready)
    (hcount : s'.counting t = l.counts) (hhandler : HandlerInv s' t (s'.handler t))
    (hl : LocInv cfg s' t l) (hret : ∀ r, s'.ret t = some r → Settled cfg s'.toCalls t r) :
    Inv cfg (St.record t s s') := by
  have hb : s'.books = s.books := books_quiet (moving_same hm hloc hmov) hc hcm hg hr
  have hzero : ∀ u, Zero s u → Zero s' u := fun u h =>
    ⟨(congrFun hc u).trans h.1, (congrFun hcm u).trans h.2⟩
  rw [record_same (by rw [St.total, hb, St.total])]
  refine hi.of_step hloc (lock_keep hi hm hloc hh) (hb ▸ hi.balanced)
    (fun u hu => hzero u (hi.unregistered u (hp ▸ hu))) (fun u hu => ?_)
    (fun u h1 h2 => hzero u (hstolen u h1 h2)) hrest ?_ hcount hhandler hl hret
  · rw [hp]
    rcases htheft u hu with ⟨h, ha⟩ | ⟨h, hhold, ha⟩
    · exact ⟨(hi.theft u h).1, hi.asked hm hloc ha h⟩
    · refine ⟨h, t, hm.trans (hi.mutex_eq hhold), ?_⟩
      rwa [hloc, Function.update_self]
  · refine hready.imp_right fun h u _ => ⟨hg, hr, hcm, congrFun hc u, hp, fun v _ => congrFun hc v,
      fun v hv => ⟨h v hv, congrFun hc v⟩⟩

/-- Where `theft` and the history of stealing are as they were, what they say is kept. -/
theorem Inv.stolen_keep (hi : Inv cfg s) (hloc : s'.loc = Function.update s.loc t l)
    (hth : s'.theft = s.theft) (hst : s'.stolen = s.stolen)
    (hf : l.inFast = true → (s.loc t).inFast = true) (u : Fin n)
    (h : s'.theft u = .ready ∨ s'.stolen u = true) (hu : (s'.loc u).inFast = true) : Zero s u := by
  rw [hth, hst] at h
  refine hi.stolen u h ?_
  rw [hloc] at hu
  by_cases hut : u = t
  · subst hut
    rw [Function.update_self] at hu
    exact hf hu
  · rwa [Function.update_of_ne hut] at hu

/-- A step of thread `t` itself that leaves all numbers and every `theft` as they are. -/
theorem Inv.walk (hi : Inv cfg s) (hloc : s'.loc = Function.update s.loc t l)
    (hm : s'.mutex = s.mutex) (hh : l.holds = (s.loc t).holds)
    (hmov : l.moving t = (s.loc t).moving t) (hc : s'.counter = s.counter)
    (hcm : s'.countermax = s.countermax) (hg : s'.globalcount = s.globalcount)
    (hr : s'.globalreserve = s.globalreserve) (hp : s'.counterp = s.counterp)
    (hth : s'.theft = s.theft) (hst : s'.stolen = s.stolen)
    (hasks : ∀ u, s.theft u ≠ .idle → (s.loc t).asks u → l.asks u)
    (hf : l.inFast = true → (s.loc t).inFast = true)
    (hown : ∀ u, u ≠ t → Own u s.toCalls s'.toCalls)
    (hcounting : ∀ u, u ≠ t → s'.counting u = s.counting u) (hcount : s'.counting t = l.counts)
    (hha : s'.handler = s.handler) (hno : s.handler t = none)
    (hl : LocInv cfg s' t l) (hret : ∀ r, s'.ret t = some r → Settled cfg s'.toCalls t r) :
    Inv cfg (St.record t s s') := by
  refine hi.quiet hloc hm hh hmov hc hcm hg hr hp
    (fun u hu => .inl ⟨hth ▸ hu, hasks u (hth ▸ hu)⟩) (hi.stolen_keep hloc hth hst hf)
    (fun u hu => ⟨hown u hu, fun _ => congrFun hth u, hcounting u hu, congrFun hha u,
      fun _ => ⟨congrFun hc u, congrFun hcm u⟩⟩)
    (.inr fun v hv => (congrFun hth v).trans hv) hcount ?_ hl hret
  rw [hha, hno]
  trivial

/-! ### Steps that move numbers -/

theorem Loc.not_inFast (h : l.holds = true) : l.inFast = false := by
  cases l <;> first | rfl | cases h

theorem Loc.not_counts (h : l.holds = true) : l.counts = false := by
  cases l <;> first | rfl | cases h

/-- **A step of the holder that moves numbers** of a thread `w`, its own or one
that is ready. -/
theorem Inv.move {w : Fin n} (hi : Inv cfg s) (hh : (s.loc t).holds = true) (hh' : l.holds = true)
    (hloc : s'.loc = Function.update s.loc t l) (hm : s'.mutex = s.mutex)
    (hbal : Balanced cfg.globalcountmax maxCountermax s'.books)
    (hown : ∀ u, u ≠ t → Own u s.toCalls s'.toCalls) (hp : s'.counterp = s.counterp)
    (hth : s'.theft = s.theft) (hcounting : s'.counting = s.counting)
    (hha : s'.handler = s.handler) (hno : s.handler t = none) (hasks : ∀ u, (s.loc t).asks u → l.asks u)
    (hnum : ∀ u, u ≠ w → s'.counter u = s.counter u ∧ s'.countermax u = s.countermax u)
    (hw : w = t ∨ s.theft w = .ready)
    (hz : (w = t ∧ s.counterp t = true) ∨ (Zero s w → Zero s' w))
    (hst : ∀ u, s'.stolen u = true → s.stolen u = true ∨ s.theft u = .ready)
    (hl : LocInv cfg s' t l) (hret : ∀ r, s'.ret t = some r → Settled cfg s'.toCalls t r) :
    Inv cfg s' := by
  have hzero : ∀ u, Zero s u → (w = t ∧ u = t ∧ s.counterp t = true) ∨ Zero s' u := fun u hu => by
    by_cases huw : u = w
    · subst huw
      exact hz.imp (fun h => ⟨h.1, h.1, h.2⟩) fun h => h hu
    · exact .inr ⟨(hnum u huw).1.trans hu.1, (hnum u huw).2.trans hu.2⟩
  -- only a thread outside its fast path, or without numbers, is moved
  have hfast : ∀ u, u ≠ t → (s.loc u).inFast = true →
      s'.counter u = s.counter u ∧ s'.countermax u = s.countermax u := fun u hut hu => by
    by_cases huw : u = w
    · subst huw
      have h0 := hi.stolen u (.inl (hw.resolve_left hut)) hu
      have h1 := (hzero u h0).resolve_left fun h => hut h.2.1
      exact ⟨h1.1.trans h0.1.symm, h1.2.trans h0.2.symm⟩
    · exact hnum u huw
  refine hi.of_step hloc (lock_keep hi hm hloc (hh'.trans hh.symm)) hbal (fun u hu => ?_)
    (fun u hu => ?_) (fun u h1 h2 => ?_)
    (fun u hu => ⟨hown u hu, fun _ => congrFun hth u, congrFun hcounting u, congrFun hha u,
      hfast u hu⟩) (.inl hh) ?_ ?_ hl hret
  · rw [hp] at hu
    refine (hzero u (hi.unregistered u hu)).resolve_left ?_
    rintro ⟨-, rfl, h⟩
    rw [h] at hu
    cases hu
  · rw [hth] at hu
    rw [hp]
    exact ⟨(hi.theft u hu).1, hi.asked hm hloc (hasks u) hu⟩
  · rw [hloc] at h2
    by_cases hut : u = t
    · subst hut
      rw [Function.update_self, Loc.not_inFast hh'] at h2
      cases h2
    · rw [Function.update_of_ne hut] at h2
      have h0 : Zero s u := by
        refine hi.stolen u ?_ h2
        rcases h1 with h1 | h1
        · exact .inl (hth ▸ h1)
        · exact (hst u h1).symm
      exact (hzero u h0).resolve_left fun h => hut h.2.1
  · rw [hcounting, hi.counting, Loc.not_counts hh, Loc.not_counts hh']
  · rw [hha, hno]
    trivial

theorem moving_goto (h : s.mutex = some t) : (s.goto t l).moving = l.moving t := by
  have h' : (s.goto t l).mutex = some t := h
  have hl : (s.goto t l).loc t = l := Function.update_self ..
  rw [moving_of_holder h', hl]

/-- The books show nothing of the numbers of `u`. -/
def Hidden (u : Fin n) (s : St n) : Prop :=
  (∃ b, s.moving = some (u, b)) ∨ s.moving = none ∧ Zero s u

theorem Hidden.away (h : Hidden u s) : Away u s := h.symm.imp And.left id

theorem Hidden.c_eq (h : Hidden u s) : s.c u = 0 ∧ s.cm u = 0 := by
  rcases h with ⟨b, h⟩ | ⟨h, hz⟩
  · exact c_of_moving h
  · rwa [(c_of_none h).1, (c_of_none h).2]

theorem owed_of_none (h : s.moving = none) : s.owed = 0 := by rw [St.owed, h]

theorem owed_of_moving {b : Bool} (h : s.moving = some (u, b)) :
    s.owed = if b then s.countermax u else 0 := by
  cases b <;> rw [St.owed, h] <;> rfl

/-- Moving hidden numbers does not show in the books. -/
theorem books_hidden (h : Hidden u s) (h' : Hidden u s')
    (hv : ∀ v, v ≠ u → s'.counter v = s.counter v ∧ s'.countermax v = s.countermax v)
    (hg : s'.globalcount = s.globalcount)
    (hr : (s'.globalreserve : ℤ) - s'.owed = s.globalreserve - s.owed) : s'.books = s.books := by
  rw [h.away.books_post h'.away hv, h'.c_eq.1, h'.c_eq.2, hg, hr]
  have hc : s.books.c u = 0 := congrArg Nat.cast h.c_eq.1
  have hcm : s.books.cm u = 0 := congrArg Nat.cast h.c_eq.2
  have h1 : Function.update s.books.c u 0 = s.books.c := by rw [← hc, Function.update_eq_self]
  have h2 : Function.update s.books.cm u 0 = s.books.cm := by rw [← hcm, Function.update_eq_self]
  rw [post, Nat.cast_zero, h1, h2]
  rfl

theorem Inv.high (hi : Inv cfg s) (h : s.moving = none) (u : Fin n) :
    s.counter u ≤ s.countermax u := by
  have := hi.balanced.high u
  rw [St.books] at this
  dsimp only at this
  rw [(c_of_none h).1, (c_of_none h).2] at this
  exact Int.ofNat_le.mp this

/-- What the balanced books say about the global part. -/
theorem Inv.bounds (hi : Inv cfg s) :
    s.owed ≤ s.globalreserve ∧ s.globalcount + s.globalreserve ≤ cfg.globalcountmax + s.owed ∧
      (s.moving = none → ∀ u, s.countermax u ≤ s.globalreserve) := by
  have h1 : (0 : ℤ) ≤ s.globalreserve - s.owed := hi.balanced.reserve_nonneg
  have h2 : (s.globalcount : ℤ) + (s.globalreserve - s.owed) ≤ cfg.globalcountmax :=
    hi.balanced.limit
  refine ⟨by omega, by omega, fun h u => ?_⟩
  have h3 : (s.cm u : ℤ) ≤ s.globalreserve - s.owed := hi.balanced.cm_le_reserve u
  rw [(c_of_none h).2, owed_of_none h] at h3
  omega

/-- `globalcount += counter`: the numbers of `w` are taken into the global part. -/
theorem books_collect {w : Fin n} (hi : Inv cfg s) (h : s.moving = none)
    (h' : s'.moving = some (w, true)) (hc : s'.counter = s.counter)
    (hcm : s'.countermax = s.countermax) (hg : s'.globalcount = s.globalcount + s.counter w)
    (hr : s'.globalreserve = s.globalreserve) :
    Balanced cfg.globalcountmax maxCountermax s'.books ∧ s'.total = s.total := by
  have hb : s'.books = s.books.post w 0 0 (s.globalcount + s.counter w)
      (s.globalreserve - s.countermax w) := by
    rw [Away.books_post (u := w) (.inl h) (.inr ⟨true, h'⟩) fun v _ => ⟨congrFun hc v, congrFun hcm v⟩,
      (c_of_moving h').1, (c_of_moving h').2, hg, hr, owed_of_moving h', hcm]
    push_cast
    rfl
  have hcw : s.books.c w = s.counter w := congrArg Nat.cast (c_of_none h).1
  have hcmw : s.books.cm w = s.countermax w := congrArg Nat.cast (c_of_none h).2
  have hgc : s.books.count = s.globalcount := rfl
  have hgr : s.books.reserve = s.globalreserve := by
    simp [St.books, owed_of_none h]
  have hlimit := hi.balanced.limit
  have hle := hi.high h w
  constructor
  · rw [hb]
    refine hi.balanced.post le_rfl le_rfl ?_ ?_ ?_ ?_ <;> omega
  · rw [St.total, hb, total_post, ← St.total]
    omega

/-- `globalcount -= counter`: the holder gets its new numbers out of the global part. -/
theorem books_release (hi : Inv cfg s) (h : s.moving = some (t, true)) (h' : s'.moving = none)
    (hc : s'.counter = s.counter) (hcm : s'.countermax = s.countermax)
    (hle : s.counter t ≤ s.countermax t) (hcap : s.countermax t ≤ maxCountermax)
    (hlt : s.counter t ≤ s.globalcount)
    (hlimit : s.globalcount + s.globalreserve ≤ cfg.globalcountmax)
    (hg : s'.globalcount = s.globalcount - s.counter t)
    (hr : s'.globalreserve = s.globalreserve) :
    Balanced cfg.globalcountmax maxCountermax s'.books ∧ s'.total = s.total := by
  have hb : s'.books = s.books.post t (s.counter t) (s.countermax t)
      (s.globalcount - s.counter t) s.globalreserve := by
    rw [Away.books_post (u := t) (.inr ⟨true, h⟩) (.inl h') fun v _ => ⟨congrFun hc v, congrFun hcm v⟩,
      (c_of_none h').1, (c_of_none h').2, hg, hr, owed_of_none h', hc, hcm]
    push_cast [hlt]
    rw [sub_zero]
  have hcw : s.books.c t = 0 := congrArg Nat.cast (c_of_moving h).1
  have hcmw : s.books.cm t = 0 := congrArg Nat.cast (c_of_moving h).2
  have hgc : s.books.count = s.globalcount := rfl
  have hgr : s.books.reserve = s.globalreserve - s.countermax t := by
    simp [St.books, owed_of_moving h]
  constructor
  · rw [hb]
    refine hi.balanced.post ?_ ?_ ?_ ?_ ?_ ?_ <;> omega
  · rw [St.total, hb, total_post, ← St.total]
    omega

end Sig
end Count
end Perfbook
