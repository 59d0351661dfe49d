/-
# `defer/rcu_nest32.c`, `rcu_nest32.h`: nestable RCU with one phase bit

A reader's word has its nesting depth in the low 31 bits, and in bit 31 the
phase that `rcu_gp_ctr` had when the outermost `rcu_read_lock` sampled it.
`synchronize_rcu` flips the phase and waits for the readers of the other phase,
twice, under `rcu_gp_lock`. Each read or write of a shared word is one step.
`long` is `w` bits wide, 32 or more; `RCU_GP_CTR_BOTTOM_BIT` is an `unsigned
int`, so a constant is extended with zeros where it meets a `long`, and
`rcu_old_gp_ongoing` cuts the word down to an `int`, which is then extended
with its sign.

Key definitions: `Loc`, `St`, `oldPhase`, `stepThread`, `sys`, `GracePeriod`.
-/
import Mathlib.Data.BitVec
import Perfbook.Conc.Sections
import Perfbook.Conc.Sys

namespace Perfbook
namespace Rcu
namespace Nest32

open Conc

/-! ### The words -/

/-- `RCU_GP_CTR_BOTTOM_BIT`. -/
def rcuGpCtrBottomBit : BitVec 32 := 0x80000000#32

/-- `RCU_GP_CTR_NEST_MASK`. -/
def rcuGpCtrNestMask : BitVec 32 := rcuGpCtrBottomBit - 1

section Words

variable {w : ℕ}

/-- The nesting bits of a word. -/
def nest (x : BitVec w) : BitVec w := x &&& rcuGpCtrNestMask.setWidth w

/-- `int v = ...`: a word cut down to an `int`. -/
def toInt32 (x : BitVec w) : BitVec 32 := x.setWidth 32

/-- `v & RCU_GP_CTR_NEST_MASK`, with an `int` on the left. -/
def nestInt (v : BitVec 32) : BitVec 32 := v &&& rcuGpCtrNestMask

/-- `(v ^ rcu_gp_ctr) & ~RCU_GP_CTR_NEST_MASK`. -/
def oldPhase (v : BitVec 32) (ctr : BitVec w) : BitVec w :=
  (v.signExtend w ^^^ ctr) &&& (~~~rcuGpCtrNestMask).setWidth w

end Words

/-- Where a thread is; `second` tells the second `flip_counter_and_wait` from the first. -/
inductive Loc (w n : ℕ)
  | idle
  /-- `rcu_read_lock`, before `tmp = *rrgp` -/
  | lockRead
  /-- before reading `rcu_gp_ctr` -/
  | lockCtr
  /-- before the store to `*rrgp` -/
  | lockWrite (x : BitVec w)
  /-- `rcu_read_unlock`, before reading and writing the word in `--` -/
  | unlockRead
  | unlockWrite (v : BitVec w)
  /-- `synchronize_rcu`, before `spin_lock(&rcu_gp_lock)` -/
  | syncLock
  /-- `flip_counter_and_wait`, before reading and writing `rcu_gp_ctr` in `^=` -/
  | flipRead (second : Bool)
  | flipWrite (second : Bool) (v : BitVec w)
  /-- `rcu_old_gp_ongoing(u)`, before reading the word of `u` -/
  | scanWord (second : Bool) (u : Fin n)
  /-- before reading `rcu_gp_ctr` for the comparison with `v` -/
  | scanCtr (second : Bool) (u : Fin n) (v : BitVec 32)
  /-- before `spin_unlock(&rcu_gp_lock)` -/
  | syncUnlock
  /-- before the return -/
  | syncReturn
deriving DecidableEq

structure St (w n : ℕ) where
  rcuGpCtr : BitVec w
  rcuReaderGp : Fin n → BitVec w
  rcuGpLock : Option (Fin n)
  loc : Fin n → Loc w n
  /-- history: the sections, from the store in `rcu_read_lock` to that in `rcu_read_unlock` -/
  sec : Sections (Fin n)

/-- A thread starts a call or takes its next step. -/
inductive Act (n : ℕ)
  | rcuReadLock (t : Fin n)
  | rcuReadUnlock (t : Fin n)
  | synchronizeRcu (t : Fin n)
  | step (t : Fin n)

variable {w n : ℕ}

def St.goto (s : St w n) (t : Fin n) (l : Loc w n) : St w n :=
  { s with loc := Function.update s.loc t l }

/-- A store to the word of `t`. -/
def St.publish (s : St w n) (t : Fin n) (x : BitVec w) : St w n :=
  { s with rcuReaderGp := Function.update s.rcuReaderGp t x }

/-- Where a call goes when `flip_counter_and_wait` is through. -/
def flipped (second : Bool) : Loc w n := if second then .syncUnlock else .flipRead true

/-- The wait loop goes on with thread `i`. -/
def scanFrom (second : Bool) (i : ℕ) : Loc w n := scan (.scanWord second) (flipped second) i

/-- The next step of thread `t`. -/
def stepThread (t : Fin n) (s : St w n) : Option (St w n) :=
  match s.loc t with
  | .idle => none
  | .lockRead =>
    if nest (s.rcuReaderGp t) = 0 then some (s.goto t .lockCtr)
    else some (s.goto t (.lockWrite (s.rcuReaderGp t + 1)))
  | .lockCtr => some (s.goto t (.lockWrite s.rcuGpCtr))
  | .lockWrite x => some ({ s.publish t x with sec := s.sec.enter t }.goto t .idle)
  | .unlockRead => some (s.goto t (.unlockWrite (s.rcuReaderGp t)))
  | .unlockWrite v => some ({ s.publish t (v - 1) with sec := s.sec.leave t }.goto t .idle)
  | .syncLock =>
    if s.rcuGpLock = none then some ({ s with rcuGpLock := some t }.goto t (.flipRead false))
    else none
  | .flipRead second => some (s.goto t (.flipWrite second s.rcuGpCtr))
  | .flipWrite second v =>
    some ({ s with rcuGpCtr := v ^^^ rcuGpCtrBottomBit.setWidth w }.goto t (scanFrom second 0))
  | .scanWord second u =>
    let v := toInt32 (s.rcuReaderGp u)
    if nestInt v = 0 then some (s.goto t (scanFrom second (u + 1)))
    else some (s.goto t (.scanCtr second u v))
  | .scanCtr second u v =>
    if oldPhase v s.rcuGpCtr = 0 then some (s.goto t (scanFrom second (u + 1)))
    else some (s.goto t (.scanWord second u))
  | .syncUnlock => some ({ s with rcuGpLock := none }.goto t .syncReturn)
  | .syncReturn => some (s.goto t .idle)

/-- What an action does. A thread nests no deeper than the nesting bits can
count, and unlocks only what it has locked. -/
def next : Act n → St w n → Option (St w n)
  | .rcuReadLock t, s =>
    if s.loc t = .idle ∧ s.sec.depth t + 1 < 2 ^ 31 then some (s.goto t .lockRead) else none
  | .rcuReadUnlock t, s =>
    if s.loc t = .idle ∧ 0 < s.sec.depth t then some (s.goto t .unlockRead) else none
  | .synchronizeRcu t, s =>
    if s.loc t = .idle then some ({ s with sec := s.sec.observe t }.goto t .syncLock) else none
  | .step t, s => stepThread t s

/-- `rcu_init`. -/
structure Init (s : St w n) : Prop where
  ctr : s.rcuGpCtr = 1
  word : ∀ t, s.rcuReaderGp t = 0
  lock : s.rcuGpLock = none
  loc : ∀ t, s.loc t = .idle
  sec : s.sec = ⟨fun _ => 0, fun _ _ => false⟩

def sys (w n : ℕ) : Sys (St w n) (Act n) := ⟨Init, next⟩

/-- When `synchronize_rcu` of a thread returns, every section whose outermost
`rcu_read_lock` was through when the call began is over. -/
def GracePeriod (s : St w n) : Prop := ∀ t, s.loc t = .syncReturn → s.sec.Waited t

/-- The nesting bits count the nesting. -/
def NestField (s : St w n) : Prop := ∀ t, (nest (s.rcuReaderGp t)).toNat = s.sec.depth t

end Nest32
end Rcu
end Perfbook
