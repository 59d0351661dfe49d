/-
# `defer/rcu_ts.c`, `rcu_ts.h`: grace periods by the clock

A reader's word is the time at which it entered its section, with the low bit
set, or the time at which it left, with the low bit clear. `synchronize_rcu`
reads the clock, clears the low bit, and waits while a thread's word is odd and
lower. The clock gives any readings that never decrease over all threads; the
words are natural numbers, as the readings fit in a `long`. Each reading of
the clock and each read or write of a shared word is one step.

A reader and `synchronize_rcu` that read the same time, or neighbouring times
`2k` and `2k + 1`, get words `2k + 1` and `2k`: the call does not wait for the
section, even if that began before (`ignores_reader_of_same_time`). `TsOk` says
that this does not happen.

Key definitions: `Loc`, `St`, `stepThread`, `sys`, `TsOk`, `Inv`.
Key theorems: `inv_step`, `ts_grace_period`.
-/
import Mathlib.Data.Int.Notation
import Mathlib.Data.Nat.Bitwise
import Perfbook.Conc.Lock
import Perfbook.Conc.Sections
import Perfbook.Conc.Sys

namespace Perfbook
namespace Rcu
namespace Ts

open Conc

/-- `x & ~0x1`. -/
def clearLow (x : ℕ) : ℕ := x - (x &&& 1)

/-- Where a thread is in the three functions. -/
inductive Loc (n : ℕ)
  | idle
  /-- `rcu_read_lock`, before `get_timestamp()` -/
  | lockClock
  /-- before the store to its word -/
  | lockWrite (x : ℕ)
  /-- `rcu_read_unlock`, before `get_timestamp()` -/
  | unlockClock
  | unlockWrite (x : ℕ)
  /-- `synchronize_rcu`, before `spin_lock(&rcu_gp_lock)` -/
  | syncLock
  /-- before `get_timestamp()` -/
  | syncClock
  /-- the wait loop for thread `u`, before reading its word for the low bit -/
  | scanBit (ctr : ℕ) (u : Fin n)
  /-- before reading its word for the comparison -/
  | scanDiff (ctr : ℕ) (u : Fin n)
  /-- before `spin_unlock(&rcu_gp_lock)` -/
  | syncUnlock
  /-- before the return -/
  | syncReturn
deriving DecidableEq

structure St (n : ℕ) where
  /-- the last reading of the clock -/
  clock : ℕ
  rcuReaderGp : Fin n → ℕ
  rcuGpLock : Option (Fin n)
  loc : Fin n → Loc n
  /-- history: the sections, from the store in `rcu_read_lock` to that in `rcu_read_unlock` -/
  sec : Sections (Fin n)

/-- A thread starts a call, reads the clock, or takes its next step. -/
inductive Act (n : ℕ)
  | rcuReadLock (t : Fin n)
  | rcuReadUnlock (t : Fin n)
  | synchronizeRcu (t : Fin n)
  | getTimestamp (t : Fin n) (x : ℕ)
  | step (t : Fin n)

variable {n : ℕ}

def St.goto (s : St n) (t : Fin n) (l : Loc n) : St n :=
  { s with loc := Function.update s.loc t l }

/-- A store to the word of `t`. -/
def St.publish (s : St n) (t : Fin n) (x : ℕ) : St n :=
  { s with rcuReaderGp := Function.update s.rcuReaderGp t x }

/-- The wait loop goes on with thread `i`. -/
def scanFrom (ctr i : ℕ) : Loc n := scan (.scanBit ctr) .syncUnlock i

/-- Where a thread goes with the reading `x`. -/
def clocked (x : ℕ) : Loc n → Option (Loc n)
  | .lockClock => some (.lockWrite x)
  | .unlockClock => some (.unlockWrite x)
  | .syncClock => some (scanFrom (clearLow x) 0)
  | _ => none

/-- The next step of thread `t`, but for the clock. -/
def stepThread (t : Fin n) (s : St n) : Option (St n) :=
  match s.loc t with
  | .idle | .lockClock | .unlockClock | .syncClock => none
  | .lockWrite x => some ({ s.publish t (x ||| 1) with sec := s.sec.enter t }.goto t .idle)
  | .unlockWrite x => some ({ s.publish t (clearLow x) with sec := s.sec.leave t }.goto t .idle)
  | .syncLock =>
    if s.rcuGpLock = none then some ({ s with rcuGpLock := some t }.goto t .syncClock) else none
  | .scanBit ctr u =>
    if s.rcuReaderGp u &&& 1 ≠ 0 then some (s.goto t (.scanDiff ctr u))
    else some (s.goto t (scanFrom ctr (u + 1)))
  | .scanDiff ctr u =>
    if (s.rcuReaderGp u : ℤ) - ctr < 0 then some (s.goto t (.scanBit ctr u))
    else some (s.goto t (scanFrom ctr (u + 1)))
  | .syncUnlock => some ({ s with rcuGpLock := none }.goto t .syncReturn)
  | .syncReturn => some (s.goto t .idle)

/-- What an action does. Sections are not nested. -/
def next : Act n → St n → Option (St n)
  | .rcuReadLock t, s =>
    if s.loc t = .idle ∧ s.sec.depth t = 0 then some (s.goto t .lockClock) else none
  | .rcuReadUnlock t, s =>
    if s.loc t = .idle ∧ s.sec.depth t = 1 then some (s.goto t .unlockClock) else none
  | .synchronizeRcu t, s =>
    if s.loc t = .idle then some ({ s with sec := s.sec.observe t }.goto t .syncLock) else none
  | .getTimestamp t x, s =>
    if s.clock ≤ x then (clocked x (s.loc t)).map ({ s with clock := x }.goto t) else none
  | .step t, s => stepThread t s

/-- `rcu_init`. -/
structure Init (s : St n) : Prop where
  word : ∀ t, s.rcuReaderGp t = 0
  lock : s.rcuGpLock = none
  loc : ∀ t, s.loc t = .idle
  sec : s.sec = ⟨fun _ => 0, fun _ _ => false⟩

def sys (n : ℕ) : Sys (St n) (Act n) := ⟨Init, next⟩

/-- When `synchronize_rcu` of a thread returns, every section that ran when the
call began has been left. -/
def GracePeriod (s : St n) : Prop := ∀ t, s.loc t = .syncReturn → s.sec.Waited t

/-- The condition on the steps: the time that `synchronize_rcu` reads lies in a
later pair `{2k, 2k + 1}` than those that the readers it has to wait for read. -/
def TsOk : Act n → St n → Prop
  | .getTimestamp t x, s =>
    s.loc t = .syncClock → ∀ u, s.sec.pre t u = true → s.rcuReaderGp u / 2 < x / 2
  | _, _ => True

instance : ∀ (a : Act n) (s : St n), Decidable (TsOk a s)
  | .getTimestamp t x, s => inferInstanceAs (Decidable
      (s.loc t = .syncClock → ∀ u, s.sec.pre t u = true → s.rcuReaderGp u / 2 < x / 2))
  | .rcuReadLock _, _ | .rcuReadUnlock _, _ | .synchronizeRcu _, _ | .step _, _ => .isTrue trivial

/-! ### The invariant -/

/-- What holds of a thread at a place of the code. -/
def At (s : St n) (t : Fin n) : Loc n → Prop
  | .lockClock | .lockWrite _ => s.sec.depth t = 0
  | .unlockClock | .unlockWrite _ => s.sec.depth t = 1
  | .scanBit c v | .scanDiff c v =>
    ∀ u, s.sec.pre t u = true → s.rcuReaderGp u < c ∧ v.val ≤ u.val
  | .syncUnlock | .syncReturn => s.sec.Waited t
  | _ => True

structure Inv (s : St n) : Prop where
  ok : s.sec.Ok
  odd : ∀ u, 0 < s.sec.depth u → s.rcuReaderGp u &&& 1 ≠ 0
  loc : ∀ t, At s t (s.loc t)

variable {s s' : St n} {t : Fin n} {l : Loc n}

theorem At.frame (h : At s t l) (hd : s'.sec.depth t = s.sec.depth t) (hp : ∀ u,
    s'.sec.pre t u = true → s.sec.pre t u = true ∧ s'.rcuReaderGp u = s.rcuReaderGp u) : At s' t l := by
  cases l with
  | idle | syncLock | syncClock => trivial
  | lockClock | lockWrite | unlockClock | unlockWrite => exact hd.trans h
  | scanBit c v | scanDiff c v => exact fun u hu => (hp u hu).2 ▸ h u (hp u hu).1
  | syncUnlock | syncReturn => exact Sections.Waited.mono h fun u hu => (hp u hu).1

/-- A thread goes on to `l`. -/
theorem Inv.move (h : Inv s) (hloc : s'.loc = Function.update s.loc t l) (hok : s'.sec.Ok)
    (hd : ∀ v, v ≠ t → s'.sec.depth v = s.sec.depth v) (hp : ∀ v u, v ≠ t → s'.sec.pre v u = true →
      s.sec.pre v u = true ∧ s'.rcuReaderGp u = s.rcuReaderGp u)
    (hw : ∀ u, 0 < s'.sec.depth u → s'.rcuReaderGp u &&& 1 ≠ 0) (hl : At s' t l) : Inv s' where
  ok := hok
  odd := hw
  loc := forall_update (P := At s') hloc hl fun v hv => (h.loc v).frame (hd v hv) fun u => hp v u hv

/-- A thread goes on to `l`, and no word or section changes. -/
theorem Inv.walk (h : Inv s) (hloc : s'.loc = Function.update s.loc t l)
    (hw : s'.rcuReaderGp = s.rcuReaderGp) (hs : s'.sec = s.sec) (hl : At s t l) : Inv s' :=
  h.move hloc (hs ▸ h.ok) (fun _ _ => by rw [hs]) (fun _ _ _ hu => ⟨by rwa [← hs], by rw [hw]⟩)
    (by rw [hs, hw]; exact h.odd) (hl.frame (by rw [hs]) fun _ hu => ⟨by rwa [← hs], by rw [hw]⟩)

/-- The scan goes on behind threads that are not waited for. -/
theorem at_scanFrom {i c : ℕ} (h : ∀ u, s.sec.pre t u = true → s.rcuReaderGp u < c ∧ i ≤ u.val) :
    At s t (scanFrom c i) := by
  refine scan_rec (P := At s t) (fun v hv u hu => ?_) fun hn => ?_
  · rw [hv]
    exact h u hu
  · exact Sections.waited_of_le fun u hu => hn.trans (h u hu).2

/-- The scan goes past a thread that is not waited for. -/
theorem at_scanFrom_succ {v : Fin n} {c : ℕ}
    (h : ∀ u, s.sec.pre t u = true → s.rcuReaderGp u < c ∧ v.val ≤ u.val)
    (hv : s.sec.pre t v = false) : At s t (scanFrom c (v + 1)) := by
  refine at_scanFrom fun u hu => ?_
  obtain ⟨hlt, hle⟩ := h u hu
  exact ⟨hlt, Sections.succ_le_of_pre hv hu hle⟩

/-- **The step lemma.** -/
theorem inv_step {a : Act n} (h : Inv s) (hok : TsOk a s) (hn : next a s = some s') : Inv s' := by
  cases a with
  | rcuReadLock t =>
    simp only [next] at hn
    split at hn <;> rename_i hc <;> cases hn
    exact h.walk (l := .lockClock) rfl rfl rfl hc.2
  | rcuReadUnlock t =>
    simp only [next] at hn
    split at hn <;> rename_i hc <;> cases hn
    exact h.walk (l := .unlockClock) rfl rfl rfl hc.2
  | synchronizeRcu t =>
    simp only [next] at hn
    split at hn <;> rename_i hc <;> cases hn
    exact h.move (l := .syncLock) rfl (h.ok.observe t) (fun _ _ => rfl)
      (fun v u hv hu => ⟨by rwa [← Sections.observe_pre_ne hv], rfl⟩) h.odd trivial
  | getTimestamp t x =>
    have ha := h.loc t
    simp only [next] at hn
    split at hn <;> rename_i hc
    · obtain ⟨l, hl, rfl⟩ := Option.map_eq_some_iff.mp hn
      cases hloc : s.loc t <;> rw [hloc] at hl ha <;> cases hl
      · exact h.walk (l := .lockWrite x) rfl rfl rfl ha
      · exact h.walk (l := .unlockWrite x) rfl rfl rfl ha
      · -- the readers that are waited for read the clock in an earlier pair
        refine h.walk rfl rfl rfl (at_scanFrom fun u hu => ⟨?_, Nat.zero_le _⟩)
        have := hok hloc u hu
        rw [clearLow, Nat.and_one_is_mod]
        omega
    · cases hn
  | step t =>
    have ha := h.loc t
    simp only [next, stepThread] at hn
    cases hloc : s.loc t with
    | idle | lockClock | unlockClock | syncClock => simp [hloc] at hn
    | lockWrite x =>
      rw [hloc] at hn ha
      cases hn
      have ha : s.sec.depth t = 0 := ha
      refine h.move rfl (h.ok.enter t) (fun v hv => Sections.enter_depth_ne hv)
        (fun v u _ hu => ⟨hu, Function.update_of_ne ?_ ..⟩) (fun u hu => ?_) trivial
      · rintro rfl
        have := h.ok v u hu
        omega
      · show Function.update s.rcuReaderGp t (x ||| 1) u &&& 1 ≠ 0
        by_cases hut : u = t
        · rw [hut, Function.update_self, Nat.and_one_is_mod]
          simp
        · rw [Function.update_of_ne hut]
          exact h.odd u (Sections.enter_depth_ne hut ▸ hu)
    | unlockWrite x =>
      rw [hloc] at hn ha
      cases hn
      refine h.move rfl (h.ok.leave t) (fun v hv => Sections.leave_depth_ne hv)
        (fun v u _ hu => ?_) (fun u hu => ?_) trivial
      · obtain ⟨hu, hd⟩ := Sections.pre_of_leave hu
        exact ⟨hu, Function.update_of_ne (fun hut => hd hut ha) ..⟩
      · obtain ⟨hut, hu⟩ := Sections.pos_of_leave ha hu
        show Function.update s.rcuReaderGp t (clearLow x) u &&& 1 ≠ 0
        rw [Function.update_of_ne hut]
        exact h.odd u hu
    | syncLock =>
      rw [hloc] at hn
      dsimp only at hn
      split at hn <;> cases hn
      exact h.walk (l := .syncClock) rfl rfl rfl trivial
    | scanBit c v =>
      rw [hloc] at hn ha
      dsimp only at hn
      split at hn <;> rename_i hb <;> cases hn
      · exact h.walk (l := .scanDiff c v) rfl rfl rfl ha
      · refine h.walk rfl rfl rfl (at_scanFrom_succ ha ?_)
        by_contra hv
        exact hb (h.odd v (h.ok t v (by simpa using hv)))
    | scanDiff c v =>
      rw [hloc] at hn ha
      dsimp only at hn
      split at hn <;> rename_i hlt <;> cases hn
      · exact h.walk (l := .scanBit c v) rfl rfl rfl ha
      · refine h.walk rfl rfl rfl (at_scanFrom_succ ha ?_)
        by_contra hv
        have := (ha v (by simpa using hv)).1
        omega
    | syncUnlock =>
      rw [hloc] at hn ha
      cases hn
      exact h.walk (l := .syncReturn) rfl rfl rfl ha
    | syncReturn =>
      rw [hloc] at hn
      cases hn
      exact h.walk (l := .idle) rfl rfl rfl trivial

theorem inv_init (h : Init s) : Inv s where
  ok t u hp := by simp [h.sec] at hp
  odd u hu := by simp [h.sec] at hu
  loc t := by
    rw [h.loc t]
    trivial

/-- **The grace-period guarantee**, in the runs in which the clock tells the
call from the readers it has to wait for. -/
theorem ts_grace_period (h : (sys n).Reach TsOk s) : GracePeriod s := by
  intro t ht
  have hi := (h.inv (fun _ => inv_init) fun _ _ _ hi hok hn => inv_step hi hok hn).loc t
  rwa [ht] at hi

/-! ### A run, and a run that returns too early -/

/-- `rcu_init`, two threads. -/
def start : St 2 where
  clock := 0
  rcuReaderGp _ := 0
  rcuGpLock := none
  loc _ := .idle
  sec := ⟨fun _ => 0, fun _ _ => false⟩

theorem start_init : Init start := ⟨fun _ => rfl, rfl, fun _ => rfl, rfl⟩

/-- Thread 0 enters a section at time 5, and leaves while thread 1, which has
read the time 6, waits for it. -/
def laterPair : List (Act 2) :=
  [.rcuReadLock 0, .getTimestamp 0 5, .step 0, .synchronizeRcu 1, .step 1, .getTimestamp 1 6, .step 1,
    .step 1, .step 1, .rcuReadUnlock 0, .getTimestamp 0 6, .step 0] ++ List.replicate 3 (.step 1)

theorem ts_grace_period_later : ∃ s, (sys 2).Reach TsOk s ∧ s.loc 1 = .syncReturn ∧ GracePeriod s := by
  have hrun : ((sys 2).run TsOk laterPair start).map (fun s => s.loc 1) = some .syncReturn := by
    decide
  obtain ⟨s, hs, hl⟩ := Option.map_eq_some_iff.mp hrun
  have hr := Sys.run_reach (.init start_init) hs
  exact ⟨s, hr, hl, ts_grace_period hr⟩

/-- Thread 0 enters a section at time 4, and thread 1 reads the time 4 as well. -/
def sameTime : List (Act 2) :=
  [.rcuReadLock 0, .getTimestamp 0 4, .step 0, .synchronizeRcu 1, .step 1, .getTimestamp 1 4] ++
    List.replicate 4 (.step 1)

theorem ignores_reader_of_same_time : ¬ ∀ s, (sys 2).Reach Sys.always s → GracePeriod s := by
  intro h
  have hrun : ((sys 2).run Sys.always sameTime start).map (fun s => (s.loc 1, s.sec.pre 1 0)) =
      some (.syncReturn, true) := by
    decide
  obtain ⟨s, hs, hd⟩ := Option.map_eq_some_iff.mp hrun
  obtain ⟨hl, hp⟩ := Prod.mk.inj hd
  have := h s (Sys.run_reach (.init start_init) hs) 1 hl 0
  rw [hp] at this
  cases this

end Ts
end Rcu
end Perfbook
