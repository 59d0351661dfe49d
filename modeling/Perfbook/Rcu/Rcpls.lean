/-
# `defer/rcu_rcpls.c`, `rcu_rcpls.h`: per-thread counter pairs and shared grace periods

Each thread has a pair of counters. `rcu_read_lock` picks one by the low bit of
`rcu_idx` and increments it some time later; `flip_counter_and_wait` advances
`rcu_idx` and waits until the counters of the old index are 0.
`synchronize_rcu` takes a snapshot of `rcu_idx` before it takes
`rcu_gp_lock`: if others have flipped three times since, it is done; if they
have flipped twice, it flips once; else it flips twice. Each read or write of
a variable is one step; the variables of a thread that only it uses go with the
step before or after. The variables are integers: no thread nests deeper than an
`int` counts, and `rcu_idx` does not overflow.

Key definitions: `Loc`, `St`, `stepThread`, `sys`, `GracePeriod`, `Counts`.
-/
import Mathlib.Data.Int.Notation
import Perfbook.Conc.Sections
import Perfbook.Conc.Sys

namespace Perfbook
namespace Rcu
namespace Rcpls

open Conc

/-- `ctr & 0x1`. -/
def parity (k : ℕ) : Fin 2 := ⟨k % 2, mod_two_lt k⟩

/-- Where a thread is; `second` tells the second `flip_counter_and_wait` from the first. -/
inductive Loc (n : ℕ)
  | idle
  /-- `rcu_read_lock`, before reading `rcu_nesting` -/
  | lockNest
  /-- before reading `rcu_idx` -/
  | lockIdx
  /-- before the store to `rcu_read_idx`, and reading `rcu_refcnt[i]` -/
  | lockSet (i : Fin 2)
  /-- before the store of `v + 1` to `rcu_refcnt[i]` -/
  | lockInc (i : Fin 2) (v : ℤ)
  /-- before the store of `m + 1` to `rcu_nesting` -/
  | lockDone (m : ℤ)
  /-- `rcu_read_unlock`, before reading `rcu_nesting` -/
  | unlockNest
  /-- before reading `rcu_read_idx` and `rcu_refcnt[i]` -/
  | unlockIdx
  /-- before the store of `v - 1` to `rcu_refcnt[i]` -/
  | unlockDec (i : Fin 2) (v : ℤ)
  /-- before the store of `m - 1` to `rcu_nesting` -/
  | unlockDone (m : ℤ)
  /-- `synchronize_rcu`, before `oldctr = READ_ONCE(rcu_idx)` -/
  | syncIdx
  /-- before `spin_lock(&rcu_gp_lock)` -/
  | syncLock (oldctr : ℕ)
  /-- before `ctr = READ_ONCE(rcu_idx)` -/
  | syncCtr (oldctr : ℕ)
  /-- `flip_counter_and_wait(ctr)`, before the store to `rcu_idx` -/
  | flip (oldctr ctr : ℕ) (second : Bool)
  /-- its wait loop for thread `u` -/
  | scan (oldctr ctr : ℕ) (second : Bool) (u : Fin n)
  /-- before `spin_unlock(&rcu_gp_lock)` -/
  | syncUnlock (oldctr : ℕ)
  /-- before the return -/
  | syncReturn
deriving DecidableEq

structure St (n : ℕ) where
  rcuIdx : ℕ
  rcuRefcnt : Fin n → Fin 2 → ℤ
  rcuNesting : Fin n → ℤ
  rcuReadIdx : Fin n → Fin 2
  rcuGpLock : Option (Fin n)
  loc : Fin n → Loc n
  /-- history: the sections, from the increment in the outermost `rcu_read_lock`
  to the decrement in the outermost `rcu_read_unlock` -/
  sec : Sections (Fin n)

/-- A thread starts a call or takes its next step. -/
inductive Act (n : ℕ)
  | rcuReadLock (t : Fin n)
  | rcuReadUnlock (t : Fin n)
  | synchronizeRcu (t : Fin n)
  | step (t : Fin n)

variable {n : ℕ}

namespace St

def goto (s : St n) (t : Fin n) (l : Loc n) : St n := { s with loc := Function.update s.loc t l }

/-- A store to `rcu_refcnt[i]` of `t`. -/
def setRefcnt (s : St n) (t : Fin n) (i : Fin 2) (v : ℤ) : St n :=
  { s with rcuRefcnt := Function.update s.rcuRefcnt t (Function.update (s.rcuRefcnt t) i v) }

/-- A store to `rcu_nesting` of `t`. -/
def setNesting (s : St n) (t : Fin n) (m : ℤ) : St n :=
  { s with rcuNesting := Function.update s.rcuNesting t m }

end St

/-- Where `synchronize_rcu` goes when `flip_counter_and_wait(ctr)` is through. -/
def flipped (oldctr ctr : ℕ) (second : Bool) : Loc n :=
  if second then .syncUnlock oldctr
  else if (ctr : ℤ) - oldctr < 2 then .flip oldctr (ctr + 1) true
  else .syncUnlock oldctr

/-- The wait loop goes on with thread `i`. -/
def scanFrom (oldctr ctr : ℕ) (second : Bool) (i : ℕ) : Loc n :=
  scan (.scan oldctr ctr second) (flipped oldctr ctr second) i

/-- The next step of thread `t`. -/
def stepThread (t : Fin n) (s : St n) : Option (St n) :=
  match s.loc t with
  | .idle => none
  | .lockNest =>
    if s.rcuNesting t = 0 then some (s.goto t .lockIdx)
    else some (s.goto t (.lockDone (s.rcuNesting t)))
  | .lockIdx => some (s.goto t (.lockSet (parity s.rcuIdx)))
  | .lockSet i =>
    some ({ s with rcuReadIdx := Function.update s.rcuReadIdx t i }.goto t
      (.lockInc i (s.rcuRefcnt t i)))
  | .lockInc i v =>
    some ({ s.setRefcnt t i (v + 1) with sec := s.sec.enter t }.goto t (.lockDone (s.rcuNesting t)))
  | .lockDone m =>
    some ({ s.setNesting t (m + 1) with sec := if m = 0 then s.sec else s.sec.enter t }.goto t .idle)
  | .unlockNest =>
    if s.rcuNesting t = 1 then some (s.goto t .unlockIdx)
    else some (s.goto t (.unlockDone (s.rcuNesting t)))
  | .unlockIdx => some (s.goto t (.unlockDec (s.rcuReadIdx t) (s.rcuRefcnt t (s.rcuReadIdx t))))
  | .unlockDec i v =>
    some ({ s.setRefcnt t i (v - 1) with sec := s.sec.leave t }.goto t (.unlockDone (s.rcuNesting t)))
  | .unlockDone m =>
    some ({ s.setNesting t (m - 1) with sec := if m = 1 then s.sec else s.sec.leave t }.goto t .idle)
  | .syncIdx => some (s.goto t (.syncLock s.rcuIdx))
  | .syncLock oldctr =>
    if s.rcuGpLock = none then some ({ s with rcuGpLock := some t }.goto t (.syncCtr oldctr)) else none
  | .syncCtr oldctr =>
    if (s.rcuIdx : ℤ) - oldctr ≥ 3 then some (s.goto t (.syncUnlock oldctr))
    else some (s.goto t (.flip oldctr s.rcuIdx false))
  | .flip oldctr ctr second =>
    some ({ s with rcuIdx := ctr + 1 }.goto t (scanFrom oldctr ctr second 0))
  | .scan oldctr ctr second u =>
    if s.rcuRefcnt u (parity ctr) ≠ 0 then some s
    else some (s.goto t (scanFrom oldctr ctr second (u + 1)))
  | .syncUnlock _ => some ({ s with rcuGpLock := none }.goto t .syncReturn)
  | .syncReturn => some (s.goto t .idle)

/-- What an action does. A thread unlocks only what it has locked. -/
def next : Act n → St n → Option (St n)
  | .rcuReadLock t, s => if s.loc t = .idle then some (s.goto t .lockNest) else none
  | .rcuReadUnlock t, s =>
    if s.loc t = .idle ∧ 0 < s.sec.depth t then some (s.goto t .unlockNest) else none
  | .synchronizeRcu t, s =>
    if s.loc t = .idle then some ({ s with sec := s.sec.observe t }.goto t .syncIdx) else none
  | .step t, s => stepThread t s

/-- `rcu_init`. -/
structure Init (s : St n) : Prop where
  idx : s.rcuIdx = 0
  refcnt : ∀ t i, s.rcuRefcnt t i = 0
  nesting : ∀ t, s.rcuNesting t = 0
  lock : s.rcuGpLock = none
  loc : ∀ t, s.loc t = .idle
  sec : s.sec = ⟨fun _ => 0, fun _ _ => false⟩

def sys (n : ℕ) : Sys (St n) (Act n) := ⟨Init, next⟩

/-- When `synchronize_rcu` of a thread returns, every section that ran when the
call began is over. -/
def GracePeriod (s : St n) : Prop := ∀ t, s.loc t = .syncReturn → s.sec.Waited t

/-- A counter is never negative, and positive exactly while its thread is in a
section that it entered with this index. -/
def Counts (s : St n) : Prop := ∀ t i, 0 ≤ s.rcuRefcnt t i ∧
  (0 < s.rcuRefcnt t i ↔ 0 < s.sec.depth t ∧ s.rcuReadIdx t = i)

end Rcpls
end Rcu
end Perfbook
