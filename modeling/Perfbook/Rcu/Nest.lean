/-
# `defer/rcu_nest.c`, `rcu_nest.h`: nestable RCU

A reader's word holds the grace-period number it last sampled in the high
bits and its nesting depth in the low seven. `rcu_read_lock` samples
`rcu_gp_ctr` when the depth is 0, publishes the word, and starts over if the
counter has run far ahead meanwhile; `synchronize_rcu` advances the counter
under `rcu_gp_lock` and scans the threads. Each read or write of a shared
word is one step; the words are `unsigned long`, `w` bits wide, so that
arithmetic and comparison are those of `BitVec w`.

The fields from `depth` on are history: no step of the code reads them.

Key definitions: `Loc`, `St`, `stepThread`, `sys`, `GracePeriod`.
-/
import Perfbook.Conc.Sys
import Mathlib.Data.BitVec

namespace Perfbook
namespace Rcu
namespace Nest

open Conc

/-! ### The words -/

section Words

variable (w : ℕ)

/-- `RCU_GP_CTR_BOTTOM_BIT`, `1 << RCU_GP_CTR_SHIFT`. -/
def rcuGpCtrBottomBit : BitVec w := BitVec.ofNat w (1 <<< 7)

/-- `RCU_GP_CTR_NEST_MASK`. -/
def rcuGpCtrNestMask : BitVec w := BitVec.ofNat w (1 <<< 7 - 1)

/-- `MAX_GP_ADV_DISTANCE`. -/
def maxGpAdvDistance : BitVec w := BitVec.ofNat w ((1 <<< 7 - 1) <<< 8)

variable {w}

/-- `ULONG_CMP_GE(a, b)`. -/
def ulongCmpGe (a b : BitVec w) : Prop := (a - b).toNat ≤ (2 ^ w - 1) / 2

/-- `ULONG_CMP_LT(a, b)`. -/
def ulongCmpLt (a b : BitVec w) : Prop := (2 ^ w - 1) / 2 < (a - b).toNat

instance (a b : BitVec w) : Decidable (ulongCmpGe a b) := inferInstanceAs (Decidable (_ ≤ _))
instance (a b : BitVec w) : Decidable (ulongCmpLt a b) := inferInstanceAs (Decidable (_ < _))

/-- The nesting bits of a word. -/
def nest (x : BitVec w) : BitVec w := x &&& rcuGpCtrNestMask w

end Words

/-- Where a thread is in the three functions. -/
inductive Loc (w n : ℕ)
  | idle
  /-- `rcu_read_lock`, before `tmp = *rrgp` -/
  | lockRead
  /-- before `tmp = READ_ONCE(rcu_gp_ctr)` -/
  | lockCtr
  /-- before `WRITE_ONCE(*rrgp, tmp)`, `tmp` incremented -/
  | lockWrite (tmp : BitVec w)
  /-- before the second `READ_ONCE(rcu_gp_ctr)`, of the overflow check -/
  | lockCheck (tmp : BitVec w)
  /-- before reading and writing `*rrgp` in `WRITE_ONCE(*rrgp, *rrgp - 1)` -/
  | retryRead
  | retryWrite (v : BitVec w)
  /-- `rcu_read_unlock`, before reading and writing the word in `--` -/
  | unlockRead
  | unlockWrite (v : BitVec w)
  /-- `synchronize_rcu`, before `spin_lock(&rcu_gp_lock)` -/
  | syncLock
  /-- before reading and writing `rcu_gp_ctr` -/
  | syncRead
  | syncWrite (v : BitVec w)
  /-- the wait loop for thread `u`, before `rcu_gp_ongoing(u)` -/
  | scanNest (u : Fin n)
  /-- before reading the word of `u` for the comparison -/
  | scanGp (u : Fin n)
  /-- before reading `rcu_gp_ctr` for the comparison with `x` -/
  | scanCtr (u : Fin n) (x : BitVec w)
  /-- before `spin_unlock(&rcu_gp_lock)` -/
  | syncUnlock
  /-- before the return -/
  | syncReturn
deriving DecidableEq

structure St (w n : ℕ) where
  rcuGpCtr : BitVec w
  rcuReaderGp : Fin n → BitVec w
  rcuGpLock : Option (Fin n)
  loc : Fin n → Loc w n
  /-- how many `rcu_read_lock` of a thread have completed without their unlock -/
  depth : Fin n → ℕ
  /-- how many outermost `rcu_read_unlock` a thread has executed -/
  exits : Fin n → ℕ
  /-- at the start of the last `synchronize_rcu` of a thread, the `exits` of
  each thread whose outermost `rcu_read_lock` had completed -/
  snap : Fin n → Fin n → Option ℕ
  /-- how many grace periods have begun -/
  gps : ℕ
  /-- the number of grace periods when a thread last sampled the counter -/
  sampled : Fin n → ℕ

/-- A thread starts a call or takes its next step. -/
inductive Act (n : ℕ)
  | rcuReadLock (t : Fin n)
  | rcuReadUnlock (t : Fin n)
  | synchronizeRcu (t : Fin n)
  | step (t : Fin n)

variable {w n : ℕ}

namespace St

def goto (s : St w n) (t : Fin n) (l : Loc w n) : St w n :=
  { s with loc := Function.update s.loc t l }

/-- A store to the word of `t`. -/
def publish (s : St w n) (t : Fin n) (x : BitVec w) : St w n :=
  { s with rcuReaderGp := Function.update s.rcuReaderGp t x }

/-- `rcu_read_lock` of `t` is complete. -/
def enter (s : St w n) (t : Fin n) : St w n :=
  { s with depth := Function.update s.depth t (s.depth t + 1) }

/-- `rcu_read_unlock` of `t` is executed. -/
def leave (s : St w n) (t : Fin n) : St w n :=
  { s with
    depth := Function.update s.depth t (s.depth t - 1)
    exits := if s.depth t = 1 then Function.update s.exits t (s.exits t + 1) else s.exits }

/-- The calls of `rcu_read_lock` that `synchronize_rcu` of `t` has to wait for. -/
def observe (s : St w n) (t : Fin n) : St w n :=
  { s with
    snap := Function.update s.snap t fun u => if 0 < s.depth u then some (s.exits u) else none }

end St

/-- `for_each_thread(t)` goes on with thread `i`, or is over. -/
def scanFrom (i : ℕ) : Loc w n := if h : i < n then .scanNest ⟨i, h⟩ else .syncUnlock

/-- The next step of thread `t`. -/
def stepThread (t : Fin n) (s : St w n) : Option (St w n) :=
  match s.loc t with
  | .idle => none
  | .lockRead =>
    if nest (s.rcuReaderGp t) = 0 then some (s.goto t .lockCtr)
    else some (s.goto t (.lockWrite (s.rcuReaderGp t + 1)))
  | .lockCtr =>
    some ({ s with sampled := Function.update s.sampled t s.gps }.goto t
      (.lockWrite (s.rcuGpCtr + 1)))
  | .lockWrite tmp =>
    if nest tmp = 1 then some ((s.publish t tmp).goto t (.lockCheck tmp))
    else some (((s.publish t tmp).enter t).goto t .idle)
  | .lockCheck tmp =>
    if ulongCmpGe s.rcuGpCtr (tmp + maxGpAdvDistance w) then some (s.goto t .retryRead)
    else some ((s.enter t).goto t .idle)
  | .retryRead => some (s.goto t (.retryWrite (s.rcuReaderGp t)))
  | .retryWrite v => some ((s.publish t (v - 1)).goto t .lockRead)
  | .unlockRead => some (s.goto t (.unlockWrite (s.rcuReaderGp t)))
  | .unlockWrite v => some (((s.publish t (v - 1)).leave t).goto t .idle)
  | .syncLock =>
    if s.rcuGpLock = none then some ({ s with rcuGpLock := some t }.goto t .syncRead) else none
  | .syncRead => some (s.goto t (.syncWrite s.rcuGpCtr))
  | .syncWrite v =>
    some ({ s with rcuGpCtr := v + rcuGpCtrBottomBit w, gps := s.gps + 1 }.goto t (scanFrom 0))
  | .scanNest u =>
    if nest (s.rcuReaderGp u) = 0 then some (s.goto t (scanFrom (u + 1)))
    else some (s.goto t (.scanGp u))
  | .scanGp u => some (s.goto t (.scanCtr u (s.rcuReaderGp u)))
  | .scanCtr u x =>
    -- the difference is an `unsigned long`, and so is the comparison with 0
    if x - s.rcuGpCtr < 0 then some (s.goto t (.scanNest u)) else some (s.goto t (scanFrom (u + 1)))
  | .syncUnlock => some ({ s with rcuGpLock := none }.goto t .syncReturn)
  | .syncReturn => some (s.goto t .idle)

/-- What an action does. A thread nests no deeper than the nesting bits can
count, and unlocks only what it has locked. -/
def next : Act n → St w n → Option (St w n)
  | .rcuReadLock t, s =>
    if s.loc t = .idle ∧ s.depth t < 1 <<< 7 - 1 then some (s.goto t .lockRead) else none
  | .rcuReadUnlock t, s =>
    if s.loc t = .idle ∧ 0 < s.depth t then some (s.goto t .unlockRead) else none
  | .synchronizeRcu t, s =>
    if s.loc t = .idle then some ((s.observe t).goto t .syncLock) else none
  | .step t, s => stepThread t s

/-- `rcu_init`. -/
structure Init (s : St w n) : Prop where
  ctr : s.rcuGpCtr = 0
  word : ∀ t, s.rcuReaderGp t = 0
  lock : s.rcuGpLock = none
  loc : ∀ t, s.loc t = .idle
  depth : ∀ t, s.depth t = 0
  gps : s.gps = 0
  sampled : ∀ t, s.sampled t = 0

def sys (w n : ℕ) : Sys (St w n) (Act n) := ⟨Init, next⟩

/-- When `synchronize_rcu` of a thread returns, every thread whose outermost
`rcu_read_lock` had completed before the call has executed the matching
outermost `rcu_read_unlock` since. -/
def GracePeriod (s : St w n) : Prop :=
  ∀ t, s.loc t = .syncReturn → ∀ u k, s.snap t u = some k → k < s.exits u

end Nest
end Rcu
end Perfbook
