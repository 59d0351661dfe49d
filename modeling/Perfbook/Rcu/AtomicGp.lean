/-
# `defer/rcu64_atomicgp.c`, `rcu64_atomicgp.h`: a grace-period counter without a lock

`rcu_gp_ctr` counts down. A reader's word is the negated counter while it is in
its section, and the counter itself when it has left. `synchronize_rcu` reads
the counter, tries to decrement it, and waits for the readers whose words are
not above the negated value it read. Each read or write of a shared word is one
step, and the compare-and-exchange is one; the words are integers, as the
counter stays between `LONG_MAX` and 0.

The counter never goes up, so a reader in its section has a word that is at most
the negated counter, and the call that has read `oldval` waits for every section
that ran at that time, whoever decremented the counter (`At`).

Key definitions: `Loc`, `St`, `stepThread`, `sys`, `Inv`.
Key theorems: `inv_step`, `atomicgp_grace_period`.
-/
import Perfbook.Conc.Lock
import Perfbook.Conc.Sections
import Perfbook.Conc.Sys
import Mathlib.Data.Int.Order.Basic

namespace Perfbook
namespace Rcu
namespace AtomicGp

open Conc

/-- Where a thread is in the three functions. -/
inductive Loc (n : ℕ)
  | idle
  /-- `rcu_read_lock`, before reading `rcu_gp_ctr` -/
  | lockRead
  /-- before the store of `-x` -/
  | lockWrite (x : ℤ)
  /-- `rcu_read_unlock`, before reading `rcu_gp_ctr` -/
  | unlockRead
  | unlockWrite (x : ℤ)
  /-- `synchronize_rcu`, before `oldval = rcu_gp_ctr` -/
  | syncRead
  /-- before `cmpxchg` -/
  | syncCas (oldval : ℤ)
  /-- the wait loop for thread `u` -/
  | scan (oldval : ℤ) (u : Fin n)
  /-- before the return -/
  | syncReturn
deriving DecidableEq

structure St (n : ℕ) where
  rcuGpCtr : ℤ
  rcuReaderGp : Fin n → ℤ
  loc : Fin n → Loc n
  /-- history: the sections, from the store in `rcu_read_lock` to that in `rcu_read_unlock` -/
  sec : Sections (Fin n)

/-- A thread starts a call or takes its next step. -/
inductive Act (n : ℕ)
  | rcuReadLock (t : Fin n)
  | rcuReadUnlock (t : Fin n)
  | synchronizeRcu (t : Fin n)
  | step (t : Fin n)

variable {n : ℕ}

def St.goto (s : St n) (t : Fin n) (l : Loc n) : St n :=
  { s with loc := Function.update s.loc t l }

/-- A store to the word of `t`. -/
def St.publish (s : St n) (t : Fin n) (x : ℤ) : St n :=
  { s with rcuReaderGp := Function.update s.rcuReaderGp t x }

/-- The next step of thread `t`. -/
def stepThread (t : Fin n) (s : St n) : Option (St n) :=
  match s.loc t with
  | .idle => none
  | .lockRead => some (s.goto t (.lockWrite s.rcuGpCtr))
  | .lockWrite x => some ({ s.publish t (-x) with sec := s.sec.enter t }.goto t .idle)
  | .unlockRead => some (s.goto t (.unlockWrite s.rcuGpCtr))
  | .unlockWrite x => some ({ s.publish t x with sec := s.sec.leave t }.goto t .idle)
  | .syncRead => some (s.goto t (.syncCas s.rcuGpCtr))
  | .syncCas oldval =>
    some ({ s with rcuGpCtr := if s.rcuGpCtr = oldval then oldval - 1 else s.rcuGpCtr }.goto t
      (scan (.scan oldval) .syncReturn 0))
  | .scan oldval u =>
    if s.rcuReaderGp u ≤ -oldval then some s
    else some (s.goto t (scan (.scan oldval) .syncReturn (u + 1)))
  | .syncReturn => some (s.goto t .idle)

/-- What an action does. Sections are not nested. -/
def next : Act n → St n → Option (St n)
  | .rcuReadLock t, s =>
    if s.loc t = .idle ∧ s.sec.depth t = 0 then some (s.goto t .lockRead) else none
  | .rcuReadUnlock t, s =>
    if s.loc t = .idle ∧ s.sec.depth t = 1 then some (s.goto t .unlockRead) else none
  | .synchronizeRcu t, s =>
    if s.loc t = .idle then some ({ s with sec := s.sec.observe t }.goto t .syncRead) else none
  | .step t, s => stepThread t s

/-- `LONG_MAX`. -/
def longMax : ℤ := 2 ^ 63 - 1

/-- `rcu_init`. -/
structure Init (s : St n) : Prop where
  ctr : s.rcuGpCtr = longMax
  word : ∀ t, s.rcuReaderGp t = 0
  loc : ∀ t, s.loc t = .idle
  sec : s.sec = ⟨fun _ => 0, fun _ _ => false⟩

def sys (n : ℕ) : Sys (St n) (Act n) := ⟨Init, next⟩

/-- When `synchronize_rcu` of a thread returns, every section that ran when the
call began has been left. -/
def GracePeriod (s : St n) : Prop := ∀ t, s.loc t = .syncReturn → s.sec.Waited t

/-! ### The invariant -/

/-- What holds of a thread at a place of the code. -/
def At (s : St n) (t : Fin n) : Loc n → Prop
  | .lockRead => s.sec.depth t = 0
  | .lockWrite x => s.sec.depth t = 0 ∧ s.rcuGpCtr ≤ x
  | .unlockRead | .unlockWrite _ => s.sec.depth t = 1
  | .syncCas oldval => ∀ u, s.sec.pre t u = true → s.rcuReaderGp u ≤ -oldval
  | .scan oldval v => ∀ u, s.sec.pre t u = true → s.rcuReaderGp u ≤ -oldval ∧ v.val ≤ u.val
  | .syncReturn => s.sec.Waited t
  | _ => True

structure Inv (s : St n) : Prop where
  ok : s.sec.Ok
  /-- a reader has sampled the counter when it was not lower -/
  word : ∀ u, 0 < s.sec.depth u → s.rcuReaderGp u ≤ -s.rcuGpCtr
  loc : ∀ t, At s t (s.loc t)

variable {s s' : St n} {t : Fin n} {l : Loc n}

/-- A thread is not disturbed as long as the sections it waits for keep their words. -/
theorem At.frame (h : At s t l) (hd : s'.sec.depth t = s.sec.depth t)
    (hc : s'.rcuGpCtr ≤ s.rcuGpCtr) (hp : ∀ u, s'.sec.pre t u = true →
      s.sec.pre t u = true ∧ s'.rcuReaderGp u = s.rcuReaderGp u) : At s' t l := by
  cases l with
  | idle | syncRead => trivial
  | lockRead | unlockRead | unlockWrite => exact hd.trans h
  | lockWrite x => exact ⟨hd.trans h.1, le_trans hc h.2⟩
  | syncCas oldval => exact fun u hu => (hp u hu).2 ▸ h u (hp u hu).1
  | scan oldval v => exact fun u hu => (hp u hu).2 ▸ h u (hp u hu).1
  | syncReturn => exact Sections.Waited.mono h fun u hu => (hp u hu).1

/-- A thread goes on to `l`. -/
theorem Inv.move (h : Inv s) (hloc : s'.loc = Function.update s.loc t l) (hok : s'.sec.Ok)
    (hd : ∀ v, v ≠ t → s'.sec.depth v = s.sec.depth v) (hc : s'.rcuGpCtr ≤ s.rcuGpCtr)
    (hp : ∀ v u, v ≠ t → s'.sec.pre v u = true →
      s.sec.pre v u = true ∧ s'.rcuReaderGp u = s.rcuReaderGp u)
    (hw : ∀ u, 0 < s'.sec.depth u → s'.rcuReaderGp u ≤ -s'.rcuGpCtr) (hl : At s' t l) : Inv s' where
  ok := hok
  word := hw
  loc := forall_update (P := At s') hloc hl fun v hv => (h.loc v).frame (hd v hv) hc fun u => hp v u hv

/-- A thread goes on to `l`, and nothing else changes. -/
theorem Inv.goto (h : Inv s) (hl : At s t l) : Inv (s.goto t l) :=
  h.move rfl h.ok (fun _ _ => rfl) le_rfl (fun _ _ _ hu => ⟨hu, rfl⟩) h.word
    (hl.frame rfl le_rfl fun _ hu => ⟨hu, rfl⟩)

/-- The scan goes on behind threads that are not waited for. -/
theorem at_scan {i : ℕ} {oldval : ℤ} (h : ∀ u, s.sec.pre t u = true →
    s.rcuReaderGp u ≤ -oldval ∧ i ≤ u.val) : At s t (scan (.scan oldval) .syncReturn i) := by
  refine scan_rec (P := At s t) (fun v hv u hu => ?_) fun hn => ?_
  · obtain ⟨hw, hi⟩ := h u hu
    exact ⟨hw, by omega⟩
  · exact Sections.waited_of_le fun u hu => hn.trans (h u hu).2

/-- **The step lemma.** -/
theorem inv_step {a : Act n} (h : Inv s) (hn : next a s = some s') : Inv s' := by
  cases a with
  | rcuReadLock t =>
    simp only [next] at hn
    split at hn <;> rename_i hc <;> cases hn
    exact h.goto hc.2
  | rcuReadUnlock t =>
    simp only [next] at hn
    split at hn <;> rename_i hc <;> cases hn
    exact h.goto hc.2
  | synchronizeRcu t =>
    simp only [next] at hn
    split at hn <;> rename_i hc <;> cases hn
    exact h.move rfl (h.ok.observe t) (fun _ _ => rfl) le_rfl
      (fun v u hv hu => ⟨by rwa [← Sections.observe_pre_ne hv], rfl⟩) h.word trivial
  | step t =>
    have hl := h.loc t
    simp only [next, stepThread] at hn
    cases hloc : s.loc t with
    | idle => simp [hloc] at hn
    | lockRead =>
      rw [hloc] at hn hl
      cases hn
      exact h.goto ⟨hl, le_rfl⟩
    | lockWrite x =>
      rw [hloc] at hn hl
      cases hn
      obtain ⟨hd, hx⟩ := hl
      refine h.move rfl (h.ok.enter t) (fun v hv => Sections.enter_depth_ne hv) le_rfl
        (fun v u _ hu => ⟨hu, ?_⟩) (fun u hu => ?_) trivial
      · have hut : u ≠ t := by
          rintro rfl
          have := h.ok v u hu
          omega
        exact Function.update_of_ne hut ..
      · show Function.update s.rcuReaderGp t (-x) u ≤ -s.rcuGpCtr
        by_cases hut : u = t
        · rw [hut, Function.update_self]
          omega
        · rw [Function.update_of_ne hut]
          exact h.word u (Sections.enter_depth_ne hut ▸ hu)
    | unlockRead =>
      rw [hloc] at hn hl
      cases hn
      exact h.goto hl
    | unlockWrite x =>
      rw [hloc] at hn hl
      cases hn
      have hl : s.sec.depth t = 1 := hl
      refine h.move rfl (h.ok.leave t) (fun v hv => Sections.leave_depth_ne hv) le_rfl
        (fun v u _ hu => ?_) (fun u hu => ?_) trivial
      · obtain ⟨hu, hd⟩ := Sections.pre_of_leave hu
        exact ⟨hu, Function.update_of_ne (fun hut => hd hut hl) ..⟩
      · obtain ⟨hut, hu⟩ := Sections.pos_of_leave hl hu
        show Function.update s.rcuReaderGp t x u ≤ -s.rcuGpCtr
        rw [Function.update_of_ne hut]
        exact h.word u hu
    | syncRead =>
      rw [hloc] at hn
      cases hn
      exact h.goto fun u hu => h.word u (h.ok t u hu)
    | syncCas oldval =>
      rw [hloc] at hn hl
      cases hn
      -- the counter goes down by one, or not at all
      have hc : (if s.rcuGpCtr = oldval then oldval - 1 else s.rcuGpCtr) ≤ s.rcuGpCtr := by
        split <;> omega
      exact h.move rfl h.ok (fun _ _ => rfl) hc (fun _ _ _ hu => ⟨hu, rfl⟩)
        (fun u hu => le_trans (h.word u hu) (Int.neg_le_neg hc)) (at_scan fun u hu => ⟨hl u hu, Nat.zero_le _⟩)
    | scan oldval v =>
      rw [hloc] at hn hl
      dsimp only at hn
      split at hn <;> rename_i hw <;> cases hn
      · exact h
      · refine h.goto (at_scan fun u hu => ⟨(hl u hu).1, ?_⟩)
        have hne : u.val ≠ v.val := fun huv => hw (Fin.ext huv ▸ (hl u hu).1)
        have := (hl u hu).2
        omega
    | syncReturn =>
      rw [hloc] at hn
      cases hn
      exact h.goto trivial

theorem inv_init (h : Init s) : Inv s where
  ok t u hp := by simp [h.sec] at hp
  word u hu := by simp [h.sec] at hu
  loc t := by
    rw [h.loc t]
    trivial

/-- **The grace-period guarantee**, with any number of calls of `synchronize_rcu` at a time. -/
theorem atomicgp_grace_period (h : (sys n).Reach Sys.always s) : GracePeriod s := by
  intro t ht
  have hi := (h.inv (fun _ => inv_init) fun _ _ _ hi _ hn => inv_step hi hn).loc t
  rwa [ht] at hi

/-! ### A run -/

/-- `rcu_init`, three threads. -/
def start : St 3 where
  rcuGpCtr := longMax
  rcuReaderGp _ := 0
  loc _ := .idle
  sec := ⟨fun _ => 0, fun _ _ => false⟩

theorem start_init : Init start := ⟨rfl, fun _ => rfl, fun _ => rfl, rfl⟩

/-- Thread 0 is in a section; threads 1 and 2 read the counter, and the
compare-and-exchange of thread 2 fails. Thread 0 leaves while they wait. -/
def twoUpdaters : List (Act 3) :=
  [.rcuReadLock 0, .step 0, .step 0, .synchronizeRcu 1, .synchronizeRcu 2, .step 1, .step 2, .step 1,
    .step 2, .step 2, .rcuReadUnlock 0, .step 0, .step 0] ++ List.replicate 3 (.step 2)

theorem atomicgp_grace_period_two : ∃ s, (sys 3).Reach Sys.always s ∧
    s.rcuGpCtr = longMax - 1 ∧ s.loc 2 = .syncReturn ∧ GracePeriod s := by
  have hrun : ((sys 3).run Sys.always twoUpdaters start).map (fun s => (s.rcuGpCtr, s.loc 2)) =
      some (longMax - 1, .syncReturn) := by
    decide
  obtain ⟨s, hs, hd⟩ := Option.map_eq_some_iff.mp hrun
  obtain ⟨hc, hl⟩ := Prod.mk.inj hd
  have hr := Sys.run_reach (.init start_init) hs
  exact ⟨s, hr, hc, hl, atomicgp_grace_period hr⟩

end AtomicGp
end Rcu
end Perfbook
