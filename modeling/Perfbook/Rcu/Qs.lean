/-
# `defer/rcu_qs.c`, `rcu_qs.h`: quiescent-state RCU

`rcu_read_lock` and `rcu_read_unlock` do nothing. A thread reports from time to
time that it is in no section, by a store of `rcu_gp_ctr + 1` to its word; a
store of `rcu_gp_ctr` itself tells that it is offline, and enters no section.
`synchronize_rcu` advances the counter by 2 under `rcu_gp_lock` and waits while
a thread's word is odd and lower. Each read or write of a shared word is one
step, so a thread may stall between reading the counter and its store. The
words are natural numbers, as the counter does not wrap.

Key definitions: `Report`, `Loc`, `St`, `stepThread`, `sys`, `Inv`.
Key theorems: `inv_step`, `grace_period_of_reach`.
-/
import Mathlib.Data.Int.Notation
import Mathlib.Data.Nat.Bitwise
import Perfbook.Conc.Lock
import Perfbook.Conc.Sections
import Perfbook.Conc.Sys

namespace Perfbook
namespace Rcu
namespace Qs

open Conc

/-- `rcu_quiescent_state`, `rcu_thread_offline` and `rcu_thread_online`. -/
inductive Report
  | quiescent
  | offline
  | online
deriving DecidableEq

/-- What a thread stores to its word when it has read `ctr`. -/
def Report.word : Report → ℕ → ℕ
  | .quiescent, ctr | .online, ctr => ctr + 1
  | .offline, ctr => ctr

/-- Whether a thread is online after it. -/
def Report.online? (b : Bool) : Report → Bool
  | .quiescent => b
  | .offline => false
  | .online => true

/-- Where a thread is in the functions. -/
inductive Loc (n : ℕ)
  | idle
  /-- a report, before reading `rcu_gp_ctr` -/
  | report (r : Report)
  /-- before the store to its word -/
  | reportWrite (r : Report) (x : ℕ)
  /-- `synchronize_rcu`, before `spin_lock(&rcu_gp_lock)` -/
  | syncLock
  /-- before reading and writing `rcu_gp_ctr` -/
  | syncRead
  | syncWrite (v : ℕ)
  /-- the wait loop for thread `u`, before `rcu_gp_ongoing(u)` -/
  | scanBit (u : Fin n)
  /-- before reading its word for the comparison -/
  | scanGp (u : Fin n)
  /-- before reading `rcu_gp_ctr` for the comparison with `x` -/
  | scanCtr (u : Fin n) (x : ℕ)
  /-- before `spin_unlock(&rcu_gp_lock)` -/
  | syncUnlock
  /-- before the return -/
  | syncReturn
deriving DecidableEq

structure St (n : ℕ) where
  rcuGpCtr : ℕ
  rcuReaderQsGp : Fin n → ℕ
  rcuGpLock : Option (Fin n)
  loc : Fin n → Loc n
  /-- history: `rcu_thread_online` was called, and not `rcu_thread_offline` since -/
  online : Fin n → Bool
  /-- history: the sections -/
  sec : Sections (Fin n)

/-- A thread starts a call or takes its next step. -/
inductive Act (n : ℕ)
  | rcuReadLock (t : Fin n)
  | rcuReadUnlock (t : Fin n)
  | report (t : Fin n) (r : Report)
  | synchronizeRcu (t : Fin n)
  | step (t : Fin n)

variable {n : ℕ}

def St.goto (s : St n) (t : Fin n) (l : Loc n) : St n :=
  { s with loc := Function.update s.loc t l }

/-- The wait loop goes on with thread `i`. -/
def scanFrom (i : ℕ) : Loc n := scan .scanBit .syncUnlock i

/-- The next step of thread `t`. -/
def stepThread (t : Fin n) (s : St n) : Option (St n) :=
  match s.loc t with
  | .idle => none
  | .report r => some (s.goto t (.reportWrite r (r.word s.rcuGpCtr)))
  | .reportWrite r x =>
    some ({ s with
      rcuReaderQsGp := Function.update s.rcuReaderQsGp t x
      online := Function.update s.online t (r.online? (s.online t)) }.goto t .idle)
  | .syncLock =>
    if s.rcuGpLock = none then some ({ s with rcuGpLock := some t }.goto t .syncRead) else none
  | .syncRead => some (s.goto t (.syncWrite s.rcuGpCtr))
  | .syncWrite v => some ({ s with rcuGpCtr := v + 2 }.goto t (scanFrom 0))
  | .scanBit u =>
    if s.rcuReaderQsGp u &&& 1 ≠ 0 then some (s.goto t (.scanGp u))
    else some (s.goto t (scanFrom (u + 1)))
  | .scanGp u => some (s.goto t (.scanCtr u (s.rcuReaderQsGp u)))
  | .scanCtr u x =>
    if (x : ℤ) - s.rcuGpCtr < 0 then some (s.goto t (.scanBit u))
    else some (s.goto t (scanFrom (u + 1)))
  | .syncUnlock => some ({ s with rcuGpLock := none }.goto t .syncReturn)
  | .syncReturn => some (s.goto t .idle)

/-- What an action does. A thread enters a section only while it is online, and
reports only outside of sections. -/
def next : Act n → St n → Option (St n)
  | .rcuReadLock t, s =>
    if s.loc t = .idle ∧ s.online t = true then some { s with sec := s.sec.enter t } else none
  | .rcuReadUnlock t, s =>
    if s.loc t = .idle ∧ 0 < s.sec.depth t then some { s with sec := s.sec.leave t } else none
  | .report t r, s =>
    if s.loc t = .idle ∧ s.sec.depth t = 0 then some (s.goto t (.report r)) else none
  | .synchronizeRcu t, s =>
    if s.loc t = .idle then some ({ s with sec := s.sec.observe t }.goto t .syncLock) else none
  | .step t, s => stepThread t s

/-- `rcu_init`. -/
structure Init (s : St n) : Prop where
  ctr : s.rcuGpCtr = 0
  word : ∀ t, s.rcuReaderQsGp t = 0
  lock : s.rcuGpLock = none
  loc : ∀ t, s.loc t = .idle
  online : ∀ t, s.online t = false
  sec : s.sec = ⟨fun _ => 0, fun _ _ => false⟩

def sys (n : ℕ) : Sys (St n) (Act n) := ⟨Init, next⟩

/-- When `synchronize_rcu` of a thread returns, every section that ran when the
call began has been left. -/
def GracePeriod (s : St n) : Prop := ∀ t, s.loc t = .syncReturn → s.sec.Waited t

/-! ### The invariant -/

/-- In `synchronize_rcu`, with `rcu_gp_lock`. -/
def Loc.holding : Loc n → Bool
  | .syncRead | .syncWrite _ | .scanBit _ | .scanGp _ | .scanCtr _ _ | .syncUnlock => true
  | _ => false

/-- The readers that the call of `t` waits for have reported before it began,
and the scan is not past them. -/
def Waiting (s : St n) (t : Fin n) (i : ℕ) : Prop :=
  ∀ u, s.sec.pre t u = true → s.rcuReaderQsGp u < s.rcuGpCtr ∧ i ≤ u.val

/-- What holds of a thread at a place of the code. -/
def At (s : St n) (t : Fin n) : Loc n → Prop
  | .report _ => s.sec.depth t = 0
  | .reportWrite r x => s.sec.depth t = 0 ∧ x ≤ s.rcuGpCtr + 1 ∧ (r ≠ .offline → x % 2 = 1)
  | .syncWrite v => v = s.rcuGpCtr
  | .scanBit u | .scanGp u => Waiting s t u
  | .scanCtr u x => Waiting s t u ∧ (s.sec.pre t u = true → x < s.rcuGpCtr)
  | .syncUnlock | .syncReturn => s.sec.Waited t
  | _ => True

structure Inv (s : St n) : Prop where
  ok : s.sec.Ok
  ctr : s.rcuGpCtr % 2 = 0
  word : ∀ u, s.rcuReaderQsGp u ≤ s.rcuGpCtr + 1
  odd : ∀ u, s.online u = true → s.rcuReaderQsGp u % 2 = 1
  reader : ∀ u, 0 < s.sec.depth u → s.online u = true
  lock : LockedBy Loc.holding s.rcuGpLock s.loc
  loc : ∀ t, At s t (s.loc t)

variable {s s' : St n} {t : Fin n} {l : Loc n} {i : ℕ}

/-- A thread is not disturbed as long as the readers it waits for do not report,
and the counter does not change while it has the lock. -/
theorem At.frame (h : At s t l) (hd : s'.sec.depth t = s.sec.depth t)
    (hle : s.rcuGpCtr ≤ s'.rcuGpCtr) (hc : l.holding = true → s'.rcuGpCtr = s.rcuGpCtr)
    (hp : ∀ u, s'.sec.pre t u = true →
      s.sec.pre t u = true ∧ s'.rcuReaderQsGp u = s.rcuReaderQsGp u) : At s' t l := by
  have hwait : ∀ {i}, s'.rcuGpCtr = s.rcuGpCtr → Waiting s t i → Waiting s' t i := by
    intro i hc hw u hu
    obtain ⟨hu, hword⟩ := hp u hu
    rw [hc, hword]
    exact hw u hu
  cases l with
  | idle | syncLock | syncRead => trivial
  | report r => exact hd.trans h
  | reportWrite r x =>
    obtain ⟨h1, h2, h3⟩ := h
    exact ⟨hd.trans h1, by omega, h3⟩
  | syncWrite v => exact Eq.trans h (hc rfl).symm
  | scanBit u | scanGp u => exact hwait (hc rfl) h
  | scanCtr u x => exact ⟨hwait (hc rfl) h.1, fun hu => by rw [hc rfl]; exact h.2 (hp u hu).1⟩
  | syncUnlock | syncReturn => exact Sections.Waited.mono h fun u hu => (hp u hu).1

/-- A thread goes on to `l`; it may change its own word, and the counter if it has the lock. -/
theorem Inv.move (h : Inv s) (hloc : s'.loc = Function.update s.loc t l) (hok : s'.sec.Ok)
    (hd : ∀ v, v ≠ t → s'.sec.depth v = s.sec.depth v ∧ s'.rcuReaderQsGp v = s.rcuReaderQsGp v ∧
      s'.online v = s.online v)
    (hp : ∀ v u, v ≠ t → s'.sec.pre v u = true →
      s.sec.pre v u = true ∧ s'.rcuReaderQsGp u = s.rcuReaderQsGp u)
    (hle : s.rcuGpCtr ≤ s'.rcuGpCtr) (hc : s'.rcuGpCtr = s.rcuGpCtr ∨ (s.loc t).holding = true)
    (heven : s'.rcuGpCtr % 2 = 0) (hw : s'.rcuReaderQsGp t ≤ s'.rcuGpCtr + 1)
    (hodd : s'.online t = true → s'.rcuReaderQsGp t % 2 = 1)
    (hread : 0 < s'.sec.depth t → s'.online t = true)
    (hlock : LockedBy Loc.holding s'.rcuGpLock s'.loc) (hl : At s' t l) : Inv s' where
  ok := hok
  ctr := heven
  word u := by
    by_cases hu : u = t
    · rwa [hu]
    · rw [(hd u hu).2.1]
      have := h.word u
      omega
  odd u := by
    by_cases hu : u = t
    · rwa [hu]
    · rw [(hd u hu).2.1, (hd u hu).2.2]
      exact h.odd u
  reader u := by
    by_cases hu : u = t
    · rwa [hu]
    · rw [(hd u hu).1, (hd u hu).2.2]
      exact h.reader u
  lock := hlock
  loc := forall_update (P := At s') hloc hl fun v hv => (h.loc v).frame (hd v hv).1 hle
    (fun hh => hc.resolve_right fun ht => hv (h.lock.eq ht hh)) fun u => hp v u hv

/-- A thread goes on to `l`, and nothing else changes. -/
theorem Inv.goto (h : Inv s) (hl : At s t l) (hh : l.holding = (s.loc t).holding) :
    Inv (s.goto t l) :=
  h.move rfl h.ok (fun _ _ => ⟨rfl, rfl, rfl⟩) (fun _ _ _ hu => ⟨hu, rfl⟩) (Nat.le_refl _) (.inl rfl)
    h.ctr (h.word t) (h.odd t) (h.reader t) (h.lock.stay rfl hh)
    (hl.frame rfl (Nat.le_refl _) (fun _ => rfl) fun _ hu => ⟨hu, rfl⟩)

/-- The scan goes on. -/
theorem at_scanFrom (h : Waiting s t i) : At s t (scanFrom i) := by
  refine scan_rec (P := At s t) (fun v hv => by rw [← hv] at h; exact h) fun hn => ?_
  exact Sections.waited_of_le fun u hu => hn.trans (h u hu).2

theorem holding_scanFrom : (scanFrom i : Loc n).holding = true :=
  scan_rec (P := fun l : Loc n => l.holding = true) (fun _ _ => rfl) fun _ => rfl

/-- The scan goes past a thread that is not waited for. -/
theorem Waiting.pass {u : Fin n} (h : Waiting s t u) (hu : s.sec.pre t u = false) :
    Waiting s t (u + 1) := by
  intro v hv
  obtain ⟨hold, hle⟩ := h v hv
  exact ⟨hold, Sections.succ_le_of_pre hu hv hle⟩

theorem Report.word_odd {r : Report} {c : ℕ} (hc : c % 2 = 0) :
    r.word c ≤ c + 1 ∧ (r ≠ .offline → r.word c % 2 = 1) := by
  cases r with
  | offline => exact ⟨Nat.le_succ c, fun h => absurd rfl h⟩
  | quiescent | online => exact ⟨Nat.le_refl _, fun _ => by show (c + 1) % 2 = 1; omega⟩

/-- **The step lemma.** -/
theorem inv_step {a : Act n} (h : Inv s) (hn : next a s = some s') : Inv s' := by
  cases a with
  | rcuReadLock t =>
    simp only [next] at hn
    split at hn <;> rename_i hc <;> cases hn
    exact h.move (t := t) (l := .idle) (by rw [← hc.1, Function.update_eq_self]) (h.ok.enter t)
      (fun v hv => ⟨Sections.enter_depth_ne hv, rfl, rfl⟩) (fun _ _ _ hu => ⟨hu, rfl⟩) (Nat.le_refl _)
      (.inl rfl) h.ctr (h.word t) (h.odd t) (fun _ => hc.2) h.lock trivial
  | rcuReadUnlock t =>
    simp only [next] at hn
    split at hn <;> rename_i hc <;> cases hn
    exact h.move (t := t) (l := .idle) (by rw [← hc.1, Function.update_eq_self]) (h.ok.leave t)
      (fun v hv => ⟨Sections.leave_depth_ne hv, rfl, rfl⟩)
      (fun _ _ _ hu => ⟨(Sections.pre_of_leave hu).1, rfl⟩) (Nat.le_refl _) (.inl rfl) h.ctr (h.word t)
      (h.odd t) (fun _ => h.reader t hc.2) h.lock trivial
  | report t r =>
    simp only [next] at hn
    split at hn <;> rename_i hc <;> cases hn
    exact h.goto hc.2 (by rw [hc.1]; rfl)
  | synchronizeRcu t =>
    simp only [next] at hn
    split at hn <;> rename_i hc <;> cases hn
    exact h.move (l := .syncLock) rfl (h.ok.observe t) (fun _ _ => ⟨rfl, rfl, rfl⟩)
      (fun v u hv hu => ⟨by rwa [← Sections.observe_pre_ne hv], rfl⟩) (Nat.le_refl _) (.inl rfl) h.ctr
      (h.word t) (h.odd t) (h.reader t) (h.lock.stay rfl (by rw [hc]; rfl)) trivial
  | step t =>
    have ha := h.loc t
    simp only [next, stepThread] at hn
    cases hloc : s.loc t with
    | idle => simp [hloc] at hn
    | report r =>
      rw [hloc] at hn ha
      cases hn
      exact h.goto ⟨ha, Report.word_odd h.ctr⟩ (by rw [hloc]; rfl)
    | reportWrite r x =>
      rw [hloc] at hn ha
      cases hn
      obtain ⟨hd, hx, hodd⟩ := ha
      refine h.move rfl h.ok
        (fun v hv => ⟨rfl, Function.update_of_ne hv .., Function.update_of_ne hv ..⟩)
        (fun v u _ hu => ⟨hu, Function.update_of_ne ?_ ..⟩) (Nat.le_refl _) (.inl rfl) h.ctr ?_ ?_
        (fun hp => absurd hp (by show ¬ 0 < s.sec.depth t; omega))
        (h.lock.stay rfl (by rw [hloc]; rfl)) trivial
      · rintro rfl
        have := h.ok v u hu
        omega
      · show Function.update s.rcuReaderQsGp t x t ≤ s.rcuGpCtr + 1
        rwa [Function.update_self]
      · show Function.update s.online t _ t = true → Function.update s.rcuReaderQsGp t x t % 2 = 1
        rw [Function.update_self, Function.update_self]
        intro ho
        refine hodd fun hr => ?_
        rw [hr] at ho
        cases ho
    | syncLock =>
      rw [hloc] at hn
      dsimp only at hn
      split at hn <;> rename_i hfree <;> cases hn
      have hlock := h.lock
      rw [hfree] at hlock
      exact h.move (l := .syncRead) rfl h.ok (fun _ _ => ⟨rfl, rfl, rfl⟩) (fun _ _ _ hu => ⟨hu, rfl⟩)
        (Nat.le_refl _) (.inl rfl) h.ctr (h.word t) (h.odd t) (h.reader t) (hlock.take rfl rfl) trivial
    | syncRead =>
      rw [hloc] at hn
      cases hn
      exact h.goto rfl (by rw [hloc]; rfl)
    | syncWrite v =>
      rw [hloc] at hn ha
      cases hn
      obtain rfl : v = s.rcuGpCtr := ha
      have hw := h.word t
      refine h.move rfl h.ok (fun _ _ => ⟨rfl, rfl, rfl⟩) (fun _ _ _ hu => ⟨hu, rfl⟩) (Nat.le_add_right _ 2)
        (.inr (by rw [hloc]; rfl)) (by show (s.rcuGpCtr + 2) % 2 = 0; have := h.ctr; omega)
        (by show s.rcuReaderQsGp t ≤ s.rcuGpCtr + 2 + 1; omega) (h.odd t) (h.reader t)
        (h.lock.stay rfl (by rw [hloc]; exact holding_scanFrom))
        (at_scanFrom fun u hu => ⟨?_, Nat.zero_le _⟩)
      -- nobody can have reported the new number yet
      show s.rcuReaderQsGp u < s.rcuGpCtr + 2
      have := h.word u
      omega
    | scanBit u =>
      rw [hloc] at hn ha
      dsimp only at hn
      split at hn <;> rename_i hb <;> cases hn
      · exact h.goto ha (by rw [hloc]; rfl)
      · refine h.goto (at_scanFrom (Waiting.pass ha ?_)) (by rw [hloc]; exact holding_scanFrom)
        by_contra hu
        have := h.odd u (h.reader u (h.ok t u (by simpa using hu)))
        rw [Nat.and_one_is_mod] at hb
        omega
    | scanGp u =>
      rw [hloc] at hn ha
      cases hn
      exact h.goto ⟨ha, fun hu => (ha u hu).1⟩ (by rw [hloc]; rfl)
    | scanCtr u x =>
      rw [hloc] at hn ha
      dsimp only at hn
      obtain ⟨hwait, hx⟩ := ha
      split at hn <;> rename_i hlt <;> cases hn
      · exact h.goto hwait (by rw [hloc]; rfl)
      · refine h.goto (at_scanFrom (hwait.pass ?_)) (by rw [hloc]; exact holding_scanFrom)
        by_contra hu
        have := hx (by simpa using hu)
        omega
    | syncUnlock =>
      rw [hloc] at hn ha
      cases hn
      exact h.move (l := .syncReturn) rfl h.ok (fun _ _ => ⟨rfl, rfl, rfl⟩) (fun _ _ _ hu => ⟨hu, rfl⟩)
        (Nat.le_refl _) (.inl rfl) h.ctr (h.word t) (h.odd t) (h.reader t)
        (h.lock.drop rfl (by rw [hloc]; rfl) rfl) ha
    | syncReturn =>
      rw [hloc] at hn
      cases hn
      exact h.goto trivial (by rw [hloc]; rfl)

theorem inv_init (h : Init s) : Inv s where
  ok t u hp := by simp [h.sec] at hp
  ctr := by rw [h.ctr]
  word u := by simp [h.word]
  odd u hu := by simp [h.online] at hu
  reader u hu := by simp [h.sec] at hu
  lock t := by simp [h.lock, h.loc t, Loc.holding]
  loc t := by
    rw [h.loc t]
    trivial

/-- **The grace-period guarantee.** -/
theorem grace_period_of_reach (h : (sys n).Reach Sys.always s) : GracePeriod s := by
  intro t ht
  have hi := (h.inv (fun _ => inv_init) fun _ _ _ hi _ hn => inv_step hi hn).loc t
  rwa [ht] at hi

end Qs
end Rcu
end Perfbook
