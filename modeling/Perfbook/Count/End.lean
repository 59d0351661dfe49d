/-
# `count/count_end.c`: counters of threads that come and go

A thread counts in a `counter` of its own, which the readers come to by `counterp`. When it
unregisters, its count is added to `finalcount`, and the pointer is taken away, both under
`final_mutex`. `read_count` adds up under the same lock, but the threads go on counting.

Each access to `counterp`, `finalcount` and a `counter` is a step, but those to `finalcount`
are made under the lock. A thread registers once, and counts only while it is registered; it has then an id that no other
thread has that is registered.
When it has exited, there may be anything in its `counter` (`Act.reuse`). The counts are
`unsigned long`s and wrap. `stage` and `hist` are history: what a thread has done, and what
the clients see.

Key definitions: `Loc`, `Stage`, `St`, `stepThread`, `sys`, `Holds`.
-/
import Mathlib.Data.BitVec
import Perfbook.Conc.Sys
import Perfbook.Conc.Tally

namespace Perfbook
namespace Count
namespace End

open Conc

/-- Where a thread is. -/
inductive Loc (n : ℕ)
  | idle
  /-- `count_register_thread`, before `spin_lock` -/
  | regLock
  /-- before `counterp[idx] = &counter` -/
  | regSet
  /-- before `spin_unlock` -/
  | regUnlock
  /-- `inc_count`, before `counter` is read -/
  | incLoad
  /-- before `WRITE_ONCE(counter, c + 1)` -/
  | incStore (c : BitVec 64)
  /-- before it returns -/
  | incRet
  /-- `count_unregister_thread`, before `spin_lock` -/
  | unregLock
  /-- before `finalcount += counter` -/
  | unregAdd
  /-- before `counterp[idx] = NULL` -/
  | unregNull
  /-- before `spin_unlock` -/
  | unregUnlock
  /-- `read_count`, before `spin_lock` -/
  | readLock
  /-- before `sum = finalcount` -/
  | readInit
  /-- before the test of the loop, and that of `counterp[t]` -/
  | readPtr (t : ℕ) (sum : BitVec 64)
  /-- before `READ_ONCE(*counterp[t])`, which is the counter of `u` -/
  | readCtr (t : ℕ) (sum : BitVec 64) (u : Fin n)
  /-- before `spin_unlock` -/
  | readUnlock (sum : BitVec 64)
  /-- before `return sum` -/
  | readRet (sum : BitVec 64)
deriving DecidableEq

/-- What a thread has done. -/
inductive Stage
  /-- it has not set its pointer -/
  | new
  | registered
  /-- it has added its count to `finalcount` -/
  | left
deriving DecidableEq

structure St (n : ℕ) where
  counter : Fin n → BitVec 64
  counterp : ℕ → Option (Fin n)
  finalcount : BitVec 64
  lock : Option (Fin n)
  /-- `smp_thread_id()` -/
  idx : Fin n → ℕ
  loc : Fin n → Loc n
  stage : Fin n → Stage
  hist : List (Ev (Fin n) CountOp (Option (BitVec 64)))

inductive Act (n : ℕ)
  /-- a thread with the id `i` calls `count_register_thread` -/
  | register (t : Fin n) (i : ℕ)
  | unregister (t : Fin n)
  | inc (t : Fin n)
  | read (t : Fin n)
  | step (t : Fin n)
  /-- the memory of a thread that has exited is used for something else -/
  | reuse (t : Fin n) (c : BitVec 64)

variable {n : ℕ}

/-- The thread registers or unregisters. -/
def Loc.moves : Loc n → Bool
  | .regLock | .regSet | .regUnlock | .unregLock | .unregAdd | .unregNull | .unregUnlock => true
  | _ => false

namespace St

/-- The thread goes to another place. -/
def goto (s : St n) (t : Fin n) (l : Loc n) : St n := { s with loc := Function.update s.loc t l }

def call (s : St n) (t : Fin n) (o : CountOp) (l : Loc n) : St n :=
  { s with hist := s.hist ++ [Ev.call t o] }.goto t l

def return' (s : St n) (t : Fin n) (r : Option (BitVec 64)) : St n :=
  { s with hist := s.hist ++ [Ev.ret t r] }.goto t .idle

/-- `counterp[idx] = &counter`. -/
def setPtr (s : St n) (t : Fin n) : St n :=
  { s with
    counterp := Function.update s.counterp (s.idx t) (some t)
    stage := Function.update s.stage t .registered }

/-- `finalcount += counter`. -/
def addCount (s : St n) (t : Fin n) : St n :=
  { s with
    finalcount := s.finalcount + s.counter t
    stage := Function.update s.stage t .left }

/-- `counterp[idx] = NULL`. -/
def clearPtr (s : St n) (t : Fin n) : St n := { s with counterp := Function.update s.counterp (s.idx t) none }

def setIdx (s : St n) (t : Fin n) (i : ℕ) : St n := { s with idx := Function.update s.idx t i }

/-- The id of the thread is in use. -/
def busy (s : St n) (t : Fin n) : Prop := s.stage t = .registered ∨ (s.loc t).moves = true

instance (s : St n) (t : Fin n) : Decidable (s.busy t) := inferInstanceAs (Decidable (_ ∨ _))

end St

/-- The next step of thread `t`. -/
def stepThread (nrThreads : ℕ) (t : Fin n) (s : St n) : Option (St n) :=
  match s.loc t with
  | .idle => none
  | .regLock => if s.lock = none then some ({ s with lock := some t }.goto t .regSet) else none
  | .regSet => some ((s.setPtr t).goto t .regUnlock)
  | .regUnlock => some ({ s with lock := none }.goto t .idle)
  | .incLoad => some (s.goto t (.incStore (s.counter t)))
  | .incStore c => some ({ s with counter := Function.update s.counter t (c + 1) }.goto t .incRet)
  | .incRet => some (s.return' t none)
  | .unregLock => if s.lock = none then some ({ s with lock := some t }.goto t .unregAdd) else none
  | .unregAdd => some ((s.addCount t).goto t .unregNull)
  | .unregNull => some ((s.clearPtr t).goto t .unregUnlock)
  | .unregUnlock => some ({ s with lock := none }.goto t .idle)
  | .readLock => if s.lock = none then some ({ s with lock := some t }.goto t .readInit) else none
  | .readInit => some (s.goto t (.readPtr 0 s.finalcount))
  | .readPtr i sum =>
    if i < nrThreads then
      match s.counterp i with
      | none => some (s.goto t (.readPtr (i + 1) sum))
      | some u => some (s.goto t (.readCtr i sum u))
    else some (s.goto t (.readUnlock sum))
  | .readCtr i sum u => some (s.goto t (.readPtr (i + 1) (sum + s.counter u)))
  | .readUnlock sum => some ({ s with lock := none }.goto t (.readRet sum))
  | .readRet sum => some (s.return' t (some sum))

/-- What an action does. -/
def next (nrThreads : ℕ) : Act n → St n → Option (St n)
  | .register t i, s =>
    if s.loc t = .idle ∧ s.stage t = .new ∧ i < nrThreads ∧ ∀ u, s.busy u → s.idx u ≠ i then
      some ((s.setIdx t i).goto t .regLock)
    else none
  | .unregister t, s => if s.loc t = .idle ∧ s.stage t = .registered then some (s.goto t .unregLock) else none
  | .inc t, s => if s.loc t = .idle ∧ s.stage t = .registered then some (s.call t .inc .incLoad) else none
  | .read t, s => if s.loc t = .idle then some (s.call t .read .readLock) else none
  | .step t, s => stepThread nrThreads t s
  | .reuse t c, s =>
    if s.loc t = .idle ∧ s.stage t = .left then some { s with counter := Function.update s.counter t c } else none

/-- No thread has registered, and no call runs. -/
structure Init (s : St n) : Prop where
  counter : ∀ t, s.counter t = 0
  counterp : ∀ i, s.counterp i = none
  finalcount : s.finalcount = 0
  lock : s.lock = none
  loc : ∀ t, s.loc t = .idle
  stage : ∀ t, s.stage t = .new
  hist : s.hist = []

def sys (n nrThreads : ℕ) : Sys (St n) (Act n) := ⟨Init, next nrThreads⟩

/-- How far the call is. -/
def pend : Loc n → Pend CountOp (Option (BitVec 64))
  | .incLoad | .incStore _ => .called .inc
  | .incRet => .done none
  | .readLock | .readInit | .readPtr _ _ | .readCtr _ _ _ | .readUnlock _ | .readRet _ => .called .read
  | _ => .idle

/-- **What is promised.** -/
structure Holds (s : St n) : Prop where
  /-- The history is one of the exact counter. The threads that are there count their own increments, `f`, and `finalcount`
  has those of the others. -/
  lin : ∃ (f : Fin n → ℕ) (S : _), (∀ t, f t = S.countP (Op.incOf t)) ∧
    (∀ t, s.stage t ≠ .left → s.counter t = BitVec.ofNat 64 (f t)) ∧
    s.finalcount = BitVec.ofNat 64 (∑ t with s.stage t = .left, f t) ∧
    Lin (Conc.counter (BitVec.ofNat 64)) s.hist S (fun t => pend (s.loc t)) (∑ t, f t)
  /-- A reader comes only to counters of threads that are registered. -/
  uses : ∀ t i sum u, s.loc t = .readCtr i sum u → s.stage u = .registered

end End
end Count
end Perfbook
