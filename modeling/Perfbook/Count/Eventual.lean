/-
# `count/count_stat_eventual.c`: a count that is added up from time to time

A thread counts in its own `counter`. The thread `eventual` adds up all counters
and publishes the sum in `global_count`, again and again, and `read_count` returns
what was published last. `count_cleanup` asks it to stop: it stores 1 to
`stopflag`, and waits until `eventual` has made that 3, one more after each sum that it has
published meanwhile. Each access to shared memory is a step; the counts are
numbers, as fewer than `2 ^ 64` calls of `inc_count` do not make an `unsigned long`
wrap.

`begun` and `completed` are history: how many calls of `inc_count` a thread has
begun, and how many of them have stored the new count. `atCall` is `completed` at
the call of `count_cleanup`.

When `stopflag` is 2, the sum that is in progress was begun after the call; when it
is 3, such a sum was published (`Phase`).

Key definitions: `Loc`, `Place`, `Cleanup`, `St`, `next`, `sys`, `Phase`, `Inv`, `Clean`.
Key theorems: `Inv.next`, `cleanup_complete`.
-/
import Mathlib.Algebra.Order.BigOperators.Group.Finset
import Perfbook.Conc.Lock
import Perfbook.Conc.Sys

namespace Perfbook
namespace Count
namespace Eventual

open Conc

/-- Where a counting thread is. -/
inductive Loc
  | idle
  /-- `inc_count`, before `WRITE_ONCE(*p_counter, c + 1)` -/
  | store (c : ℕ)
deriving DecidableEq

/-- Where the thread `eventual` is. -/
inductive Place
  /-- before `READ_ONCE(stopflag) < 3` -/
  | test
  /-- before `READ_ONCE(per_thread(counter, t))` -/
  | sum (t sum : ℕ)
  /-- before `WRITE_ONCE(global_count, sum)` -/
  | publish (sum : ℕ)
  /-- before `if (READ_ONCE(stopflag))` -/
  | check
  /-- before `stopflag + 1` -/
  | bump
  /-- before `smp_store_release(&stopflag, f)` -/
  | bumpStore (f : ℕ)
  | exited
deriving DecidableEq

/-- Where `count_cleanup` is. -/
inductive Cleanup
  | before
  /-- before `smp_load_acquire(&stopflag) < 3` -/
  | wait
  | returned
deriving DecidableEq

structure St (n : ℕ) where
  counter : Fin n → ℕ
  globalCount : ℕ
  stopflag : ℕ
  loc : Fin n → Loc
  eventual : Place
  cleanup : Cleanup
  begun : Fin n → ℕ
  completed : Fin n → ℕ
  atCall : Fin n → ℕ

inductive Act (n : ℕ)
  /-- a thread calls `inc_count` -/
  | inc (t : Fin n)
  /-- it stores the new count -/
  | step (t : Fin n)
  | eventual
  /-- `count_cleanup` is called, and stores 1 -/
  | cleanup
  | cleanupWait

variable {n : ℕ} (s : St n)

/-- `read_count`. -/
def readCount : ℕ := s.globalCount

/-- The next step of `eventual`. -/
def stepEventual : Option (St n) :=
  match s.eventual with
  | .test => some { s with eventual := if s.stopflag < 3 then .sum 0 0 else .exited }
  | .sum t sum =>
    if h : t < n then some { s with eventual := .sum (t + 1) (sum + s.counter ⟨t, h⟩) }
    else some { s with eventual := .publish sum }
  | .publish sum => some { s with globalCount := sum, eventual := .check }
  | .check => some { s with eventual := if s.stopflag ≠ 0 then .bump else .test }
  | .bump => some { s with eventual := .bumpStore (s.stopflag + 1) }
  | .bumpStore f => some { s with stopflag := f, eventual := .test }
  | .exited => none

def next : Act n → Option (St n)
  | .inc t =>
    match s.loc t with
    | .idle =>
      some { s with
        loc := Function.update s.loc t (.store (s.counter t))
        begun := Function.update s.begun t (s.begun t + 1) }
    | .store _ => none
  | .step t =>
    match s.loc t with
    | .idle => none
    | .store c =>
      some { s with
        counter := Function.update s.counter t (c + 1)
        loc := Function.update s.loc t .idle
        completed := Function.update s.completed t (s.completed t + 1) }
  | .eventual => stepEventual s
  | .cleanup =>
    match s.cleanup with
    | .before => some { s with stopflag := 1, cleanup := .wait, atCall := s.completed }
    | _ => none
  | .cleanupWait =>
    match s.cleanup with
    | .wait => some { s with cleanup := if s.stopflag < 3 then .wait else .returned }
    | _ => none

/-- After `count_init`. -/
structure Init (s : St n) : Prop where
  counter : ∀ t, s.counter t = 0
  globalCount : s.globalCount = 0
  stopflag : s.stopflag = 0
  loc : ∀ t, s.loc t = .idle
  eventual : s.eventual = .test
  cleanup : s.cleanup = .before
  begun : ∀ t, s.begun t = 0
  completed : ∀ t, s.completed t = 0

def sys (n : ℕ) : Sys (St n) (Act n) := ⟨Init, fun a s => next s a⟩

/-- **What is promised.** No count that was published is larger than the number of increments that were
begun. When `count_cleanup` has returned, `read_count` returns at least the number of increments
that were completed before it was called, and the total, if there were no others. -/
structure Clean (s : St n) : Prop where
  published : s.globalCount ≤ ∑ t, s.begun t
  returned : s.cleanup = .returned → ∑ t, s.atCall t ≤ readCount s
  exact : s.cleanup = .returned → (∀ t, s.begun t = s.atCall t) → readCount s = ∑ t, s.begun t

/-! ### What always holds -/

/-- The sum of the first `i` of them. -/
def sumTo (f : Fin n → ℕ) (i : ℕ) : ℕ := ∑ t with t.1 < i, f t

/-- What `eventual` has added up is not too much, and not too little if the sum was begun after the call of
`count_cleanup`. -/
def Phase (s : St n) : Place → Prop
  | .test => True
  | .sum t sum => sum ≤ sumTo s.completed t ∧ s.stopflag ≤ 2 ∧ (s.stopflag = 2 → sumTo s.atCall t ≤ sum)
  | .publish sum => sum ≤ ∑ t, s.completed t ∧ s.stopflag ≤ 2 ∧ (s.stopflag = 2 → ∑ t, s.atCall t ≤ sum)
  | .check => s.stopflag ≤ 2 ∧ (s.stopflag = 2 → ∑ t, s.atCall t ≤ s.globalCount)
  | .bump => (s.stopflag = 1 ∨ s.stopflag = 2) ∧ (s.stopflag = 2 → ∑ t, s.atCall t ≤ s.globalCount)
  | .bumpStore f => (s.stopflag = 1 ∨ s.stopflag = 2) ∧ f = s.stopflag + 1 ∧
      (s.stopflag = 2 → ∑ t, s.atCall t ≤ s.globalCount)
  | .exited => 3 ≤ s.stopflag

structure Inv (s : St n) : Prop where
  counter : ∀ t, s.counter t = s.completed t
  begun : ∀ t, s.begun t = s.completed t + if s.loc t = .idle then 0 else 1
  store : ∀ t c, s.loc t = .store c → c = s.counter t
  published : s.globalCount ≤ ∑ t, s.completed t
  before : s.cleanup = .before ↔ s.stopflag = 0
  late : 3 ≤ s.stopflag → ∑ t, s.atCall t ≤ s.globalCount
  returned : s.cleanup = .returned → 3 ≤ s.stopflag
  atCall : s.cleanup ≠ .before → ∀ t, s.atCall t ≤ s.completed t
  phase : Phase s s.eventual

variable {s s' : St n} {t : Fin n} {f g : Fin n → ℕ} {i : ℕ}

theorem sumTo_zero : sumTo f 0 = 0 := by
  simp [sumTo]

theorem sumTo_all (hi : n ≤ i) : sumTo f i = ∑ t, f t := by
  rw [sumTo, Finset.filter_true_of_mem fun t _ => t.2.trans_le hi]

theorem sumTo_mono (h : ∀ t, f t ≤ g t) : sumTo f i ≤ sumTo g i := Finset.sum_le_sum fun t _ => h t

namespace Inv

variable (h : Inv s)
include h

/-- `inc_count` begins. -/
theorem inc (hn : next s (.inc t) = some s') : Inv s' := by
  rw [next] at hn
  split at hn
  · next hloc =>
    cases hn
    have hbegun : ∀ u, Function.update s.begun t (s.begun t + 1) u = s.completed u +
        if Function.update s.loc t (.store (s.counter t)) u = .idle then 0 else 1 := fun u => by
      by_cases hu : u = t
      · subst hu
        simp [h.begun u, hloc]
      · simp only [Function.update_of_ne hu]
        exact h.begun u
    refine ⟨h.counter, hbegun, fun u c hu => ?_, h.published, h.before, h.late, h.returned, h.atCall, h.phase⟩
    by_cases hut : u = t
    · subst hut
      cases (Function.update_self u _ s.loc).symm.trans hu
      rfl
    · exact h.store u c ((Function.update_of_ne hut _ s.loc).symm.trans hu)
  · cases hn

/-- `inc_count` ends. -/
theorem step (hn : next s (.step t) = some s') : Inv s' := by
  rw [next] at hn
  split at hn
  · cases hn
  · next c hloc =>
    cases hn
    have hc : c = s.counter t := h.store t c hloc
    have hcounter : ∀ u, Function.update s.counter t (c + 1) u =
        Function.update s.completed t (s.completed t + 1) u := fun u => by
      by_cases hu : u = t
      · subst hu
        rw [Function.update_self, Function.update_self, hc, h.counter u]
      · rw [Function.update_of_ne hu, Function.update_of_ne hu, h.counter u]
    have hbegun : ∀ u, s.begun u = Function.update s.completed t (s.completed t + 1) u +
        if Function.update s.loc t .idle u = .idle then 0 else 1 := fun u => by
      by_cases hu : u = t
      · subst hu
        simp [h.begun u, hloc]
      · simp only [Function.update_of_ne hu]
        exact h.begun u
    have hmono : ∀ u, s.completed u ≤ Function.update s.completed t (s.completed t + 1) u := fun u => by
      by_cases hu : u = t
      · subst hu
        rw [Function.update_self]
        exact Nat.le_succ _
      · rw [Function.update_of_ne hu]
    have hsum := Finset.sum_le_sum fun u (_ : u ∈ Finset.univ) => hmono u
    refine ⟨hcounter, hbegun, fun u d hu => ?_, h.published.trans hsum, h.before, h.late, h.returned,
      fun hc u => (h.atCall hc u).trans (hmono u), ?_⟩
    · by_cases hut : u = t
      · subst hut
        cases (Function.update_self u _ s.loc).symm.trans hu
      · exact (h.store u d ((Function.update_of_ne hut _ s.loc).symm.trans hu)).trans
          (Function.update_of_ne hut ..).symm
    · have hp := h.phase
      change Phase _ s.eventual
      revert hp
      cases s.eventual with
      | sum i a => exact fun hp => ⟨hp.1.trans (sumTo_mono hmono), hp.2⟩
      | publish a => exact fun hp => ⟨hp.1.trans hsum, hp.2⟩
      | _ => exact id

/-- `count_cleanup` is called. -/
theorem cleanup (hn : next s .cleanup = some s') : Inv s' := by
  rw [next] at hn
  split at hn
  · next hb =>
    cases hn
    have h0 := h.before.mp hb
    refine ⟨h.counter, h.begun, h.store, h.published, iff_of_false nofun nofun,
      fun h3 => absurd h3 (by decide : ¬ 3 ≤ 1), nofun, fun _ _ => le_rfl, ?_⟩
    have hp := h.phase
    change Phase _ s.eventual
    revert hp
    cases s.eventual with
    | test => exact id
    | sum i a => exact fun hp => ⟨hp.1, (by decide : 1 ≤ 2), nofun⟩
    | publish a => exact fun hp => ⟨hp.1, (by decide : 1 ≤ 2), nofun⟩
    | check => exact fun hp => ⟨(by decide : 1 ≤ 2), nofun⟩
    | bump | bumpStore f =>
      intro hp
      have := hp.1
      omega
    | exited =>
      intro hp
      have : 3 ≤ s.stopflag := hp
      omega
  · cases hn

theorem cleanupWait (hn : next s .cleanupWait = some s') : Inv s' := by
  rw [next] at hn
  split at hn
  · next hw =>
    cases hn
    have h0 : s.stopflag ≠ 0 := fun h0 => nomatch hw.symm.trans (h.before.mpr h0)
    refine ⟨h.counter, h.begun, h.store, h.published, iff_of_false ?_ h0, h.late, fun hr => ?_,
      fun _ => h.atCall (by rw [hw]; nofun), h.phase⟩
    · split <;> nofun
    · dsimp only at hr
      split at hr
      · cases hr
      · next h3 => exact not_lt.mp h3
  · cases hn

/-- **A step of `eventual`.** -/
theorem eventual (hn : stepEventual s = some s') : Inv s' := by
  have hp := h.phase
  have hsame : ∀ {p}, Phase s p → Inv { s with eventual := p } := fun hp =>
    ⟨h.counter, h.begun, h.store, h.published, h.before, h.late, h.returned, h.atCall, hp⟩
  cases hloc : s.eventual with
  | test =>
    rw [stepEventual, hloc] at hn
    cases hn
    refine hsame ?_
    split
    · next h3 => exact ⟨Nat.zero_le _, Nat.le_of_lt_succ h3, fun _ => by rw [sumTo_zero]⟩
    · next h3 => exact not_lt.mp h3
  | sum i a =>
    rw [hloc] at hp
    rw [stepEventual, hloc] at hn
    dsimp only at hn
    split at hn
    · next hi =>
      cases hn
      refine hsame ⟨?_, hp.2.1, fun h2 => ?_⟩
      · rw [h.counter, sumTo, sum_below_succ _ ⟨i, hi⟩]
        exact Nat.add_le_add_right hp.1 _
      · have hle := h.atCall (fun hb => by rw [h.before.mp hb] at h2; cases h2) ⟨i, hi⟩
        rw [← h.counter] at hle
        rw [sumTo, sum_below_succ _ ⟨i, hi⟩]
        exact Nat.add_le_add (hp.2.2 h2) hle
    · next hi =>
      cases hn
      refine hsame ⟨?_, hp.2.1, fun h2 => ?_⟩
      · exact hp.1.trans (sumTo_all (not_lt.mp hi)).le
      · exact (sumTo_all (not_lt.mp hi)).ge.trans (hp.2.2 h2)
  | publish a =>
    rw [hloc] at hp
    rw [stepEventual, hloc] at hn
    cases hn
    refine ⟨h.counter, h.begun, h.store, hp.1, h.before, fun h3 => ?_, h.returned, h.atCall, hp.2⟩
    exact absurd (h3.trans hp.2.1) (by decide)
  | check =>
    rw [hloc] at hp
    rw [stepEventual, hloc] at hn
    cases hn
    refine hsame ?_
    split
    · next h0 => exact ⟨by have := hp.1; omega, hp.2⟩
    · exact trivial
  | bump =>
    rw [hloc] at hp
    rw [stepEventual, hloc] at hn
    cases hn
    exact hsame ⟨hp.1, rfl, hp.2⟩
  | bumpStore f =>
    rw [hloc] at hp
    obtain ⟨h12, hf, hlow⟩ := hp
    rw [stepEventual, hloc] at hn
    cases hn
    refine ⟨h.counter, h.begun, h.store, h.published, iff_of_false (fun hb => ?_) ?_, fun h3 => hlow ?_, fun hr => ?_,
      h.atCall, trivial⟩
    · have := h.before.mp hb
      omega
    · change f ≠ 0
      omega
    · change 3 ≤ f at h3
      omega
    · have := h.returned hr
      omega
  | exited =>
    rw [stepEventual, hloc] at hn
    cases hn

theorem next {a : Act n} (hn : next s a = some s') : Inv s' := by
  cases a with
  | inc t => exact h.inc hn
  | step t => exact h.step hn
  | eventual => exact h.eventual hn
  | cleanup => exact h.cleanup hn
  | cleanupWait => exact h.cleanupWait hn

theorem completed_le : ∑ t, s.completed t ≤ ∑ t, s.begun t :=
  Finset.sum_le_sum fun t _ => by
    rw [h.begun t]
    exact Nat.le_add_right _ _

theorem clean : Clean s where
  published := h.published.trans h.completed_le
  returned hr := h.late (h.returned hr)
  exact hr hall := by
    refine Nat.le_antisymm (h.published.trans h.completed_le) ?_
    calc
      ∑ t, s.begun t = ∑ t, s.atCall t := Finset.sum_congr rfl fun t _ => hall t
      _ ≤ s.globalCount := h.late (h.returned hr)

end Inv

theorem inv_init (h : Init s) : Inv s where
  counter t := by rw [h.counter, h.completed]
  begun t := by rw [h.begun, h.completed, h.loc t, if_pos rfl]
  store t c ht := by
    rw [h.loc t] at ht
    cases ht
  published := by rw [h.globalCount]; exact Nat.zero_le _
  before := iff_of_true h.cleanup h.stopflag
  late h3 := by
    rw [h.stopflag] at h3
    exact absurd h3 (by decide)
  returned hr := by
    rw [h.cleanup] at hr
    cases hr
  atCall hc := absurd h.cleanup hc
  phase := by
    rw [h.eventual]
    trivial

/-- **`count_cleanup` is complete.** -/
theorem cleanup_complete (h : (sys n).Reach Sys.always s) : Clean s :=
  (h.inv (I := Inv) (fun _ => inv_init) fun _ _ _ hi _ hn => hi.next hn).clean

/-- One thread. -/
def start : St 1 where
  counter _ := 0
  globalCount := 0
  stopflag := 0
  loc _ := .idle
  eventual := .test
  cleanup := .before
  begun _ := 0
  completed _ := 0
  atCall _ := 0

/-- It counts once, and then `count_cleanup` runs. -/
def countAndStop : List (Act 1) :=
  [.inc 0, .step 0, .cleanup] ++ List.replicate 14 .eventual ++ [.cleanupWait]

theorem cleanup_complete_run : ∃ s, (sys 1).Reach Sys.always s ∧ s.cleanup = .returned ∧ readCount s = 1 ∧
    Clean s := by
  have hrun : ((sys 1).run Sys.always countAndStop start).map (fun s => (s.cleanup, readCount s)) =
      some (.returned, 1) := by decide
  obtain ⟨s, hs, hd⟩ := Option.map_eq_some_iff.mp hrun
  obtain ⟨hc, hr⟩ := Prod.mk.inj hd
  have hinit : Init start := ⟨fun _ => rfl, rfl, rfl, fun _ => rfl, rfl, rfl, fun _ => rfl, fun _ => rfl⟩
  have hreach := Sys.run_reach (.init hinit) hs
  exact ⟨s, hreach, hc, hr, cleanup_complete hreach⟩

end Eventual
end Count
end Perfbook
