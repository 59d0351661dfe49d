/-
# `count/count_end_rcu.c`: a count that threads leave without a lock for the readers

A thread that is registered counts in its own `counter`, and the current array has a
pointer to it. A thread that unregisters makes a new array, in which its count is part
of `total` and its pointer is `NULL`, publishes it under `final_mutex`, and frees the
old one after a grace period. `read_count` adds up what it finds in the array that
it has loaded.

Each access of `read_count` is a step. A new array is private until it is
published, so it is filled in one step, and `synchronize_rcu` returns when all
readers have left that were there when it was called (`pre`). The threads that count
and those that read are different here; one that does both is two of them. An array
is never used again, and when a thread has exited there may be anything in its
`counter`. The counts are numbers and do not wrap.

`begun` and `completed` are history, the increments of each thread; and so are `base`,
those that were completed when a reader has loaded the array, `gone`, the threads
that the total of an array counts, `published` and `freed`.

Key definitions: `Loc`, `Reader`, `St`, `stepThread`, `stepReader`, `next`, `sys`, `Bounded`.
-/
import Mathlib.Algebra.BigOperators.Group.Finset.Basic
import Mathlib.Data.Fintype.Basic
import Perfbook.Conc.Sys

namespace Perfbook
namespace Count
namespace EndRcu

open Conc

/-- `struct countarray`. -/
structure CountArray (n : ℕ) where
  total : ℕ
  counterp : ℕ → Option (Fin n)

/-- Where a thread that counts is, with the locals it still needs. -/
inductive Loc
  /-- before `count_register_thread` -/
  | new
  /-- before `spin_lock` -/
  | regLock
  /-- before the store to `countarrayp->counterp[idx]` -/
  | regSet
  /-- before `spin_unlock` -/
  | regUnlock
  | idle
  /-- `inc_count`, before `WRITE_ONCE(counter, c + 1)` -/
  | store (c : ℕ)
  /-- `count_unregister_thread`, before `spin_lock` -/
  | unregLock (cap : ℕ)
  /-- before `*cap = *countarrayp` -/
  | unregFill (cap : ℕ)
  /-- before `capold = countarrayp` and `rcu_assign_pointer` -/
  | unregAssign (cap : ℕ)
  /-- before `spin_unlock` -/
  | unregUnlock (capold : ℕ)
  /-- before `synchronize_rcu` -/
  | sync (capold : ℕ)
  /-- in it -/
  | wait (capold : ℕ)
  /-- before `free(capold)` -/
  | free (capold : ℕ)
  | exited
deriving DecidableEq

/-- Where a thread that reads is. -/
inductive Reader (n : ℕ)
  | idle
  /-- before `rcu_dereference(countarrayp)` -/
  | deref
  /-- before `cap->total` -/
  | init (cap : ℕ)
  /-- before `READ_ONCE(cap->counterp[t])` -/
  | ptr (cap t sum : ℕ)
  /-- before `READ_ONCE(*ctrp)`, where `ctrp` is the pointer to the counter of `u` -/
  | ctr (cap t sum : ℕ) (u : Fin n)
  /-- before `rcu_read_unlock` -/
  | unlock (sum : ℕ)
  | returned (sum : ℕ)
deriving DecidableEq

/-- The reader is between `rcu_read_lock` and `rcu_read_unlock`. -/
def Reader.inside {n : ℕ} : Reader n → Bool
  | .idle | .returned _ => false
  | _ => true

structure St (n m : ℕ) where
  counter : Fin n → ℕ
  array : ℕ → CountArray n
  countarrayp : ℕ
  lock : Option (Fin n)
  loc : Fin n → Loc
  /-- `smp_thread_id()` -/
  idx : Fin n → ℕ
  reader : Fin m → Reader n
  used : ℕ → Bool
  pre : Fin n → Fin m → Bool
  begun : Fin n → ℕ
  completed : Fin n → ℕ
  base : Fin m → Fin n → ℕ
  gone : ℕ → Fin n → Bool
  published : ℕ → Bool
  freed : ℕ → Bool

inductive Act (n m : ℕ)
  /-- a thread with the id `i` calls `count_register_thread` -/
  | register (t : Fin n) (i : ℕ)
  /-- it calls `inc_count` -/
  | inc (t : Fin n)
  /-- it calls `count_unregister_thread`, where `malloc` returns `cap` -/
  | unregister (t : Fin n) (cap : ℕ)
  | step (t : Fin n)
  /-- the memory of a thread that has exited is used for something else -/
  | reuse (t : Fin n) (c : ℕ)
  /-- a call of `read_count`, and its `rcu_read_lock` -/
  | read (r : Fin m)
  | stepReader (r : Fin m)

variable {n m : ℕ} (nrThreads : ℕ) (s : St n m)

/-- The thread goes to another place. -/
def St.goto (t : Fin n) (l : Loc) : St n m := { s with loc := Function.update s.loc t l }

def St.gotoReader (r : Fin m) (l : Reader n) : St n m := { s with reader := Function.update s.reader r l }

/-- The copy of the array without the pointer of the thread, whose count is in the total. -/
def CountArray.without (a : CountArray n) (i c : ℕ) : CountArray n :=
  ⟨a.total + c, Function.update a.counterp i none⟩

/-- The next step of thread `t`. -/
def stepThread (t : Fin n) : Option (St n m) :=
  match s.loc t with
  | .regLock => if s.lock = none then some ({ s with lock := some t }.goto t .regSet) else none
  | .regSet =>
    let cur := s.array s.countarrayp
    some ({ s with
      array := Function.update s.array s.countarrayp
        { cur with counterp := Function.update cur.counterp (s.idx t) (some t) } }.goto t .regUnlock)
  | .regUnlock => some ({ s with lock := none }.goto t .idle)
  | .store c =>
    some ({ s with
      counter := Function.update s.counter t (c + 1)
      completed := Function.update s.completed t (s.completed t + 1) }.goto t .idle)
  | .unregLock cap =>
    if s.lock = none then some ({ s with lock := some t }.goto t (.unregFill cap)) else none
  | .unregFill cap =>
    some ({ s with
      array := Function.update s.array cap ((s.array s.countarrayp).without (s.idx t) (s.counter t))
      gone := Function.update s.gone cap (Function.update (s.gone s.countarrayp) t true) }.goto t
        (.unregAssign cap))
  | .unregAssign cap =>
    some ({ s with
      countarrayp := cap
      published := Function.update s.published cap true }.goto t (.unregUnlock s.countarrayp))
  | .unregUnlock capold => some ({ s with lock := none }.goto t (.sync capold))
  | .sync capold =>
    some ({ s with pre := Function.update s.pre t fun r => (s.reader r).inside }.goto t (.wait capold))
  | .wait capold => if ∀ r, s.pre t r = false then some (s.goto t (.free capold)) else none
  | .free capold => some ({ s with freed := Function.update s.freed capold true }.goto t .exited)
  | _ => none

/-- The next step of reader `r`. -/
def stepReader (r : Fin m) : Option (St n m) :=
  match s.reader r with
  | .deref =>
    some ({ s with base := Function.update s.base r s.completed }.gotoReader r (.init s.countarrayp))
  | .init cap => some (s.gotoReader r (.ptr cap 0 (s.array cap).total))
  | .ptr cap t sum =>
    if t < nrThreads then
      match (s.array cap).counterp t with
      | none => some (s.gotoReader r (.ptr cap (t + 1) sum))
      | some u => some (s.gotoReader r (.ctr cap t sum u))
    else some (s.gotoReader r (.unlock sum))
  | .ctr cap t sum u => some (s.gotoReader r (.ptr cap (t + 1) (sum + s.counter u)))
  | .unlock sum =>
    some ({ s with pre := fun t => Function.update (s.pre t) r false }.gotoReader r (.returned sum))
  | _ => none

def next : Act n m → Option (St n m)
  | .register t i =>
    match s.loc t with
    | .new =>
      if i < nrThreads ∧ ∀ u, s.loc u ≠ .new → s.loc u ≠ .exited → s.idx u ≠ i then
        some ({ s with idx := Function.update s.idx t i }.goto t .regLock)
      else none
    | _ => none
  | .inc t =>
    match s.loc t with
    | .idle =>
      some ({ s with begun := Function.update s.begun t (s.begun t + 1) }.goto t (.store (s.counter t)))
    | _ => none
  | .unregister t cap =>
    match s.loc t with
    | .idle =>
      if s.used cap then none
      else some ({ s with used := Function.update s.used cap true }.goto t (.unregLock cap))
    | _ => none
  | .step t => stepThread s t
  | .reuse t c =>
    match s.loc t with
    | .exited => some { s with counter := Function.update s.counter t c }
    | _ => none
  | .read r => if (s.reader r).inside then none else some (s.gotoReader r .deref)
  | .stepReader r => stepReader nrThreads s r

/-- After `count_init`. -/
structure Init (s : St n m) : Prop where
  counter : ∀ t, s.counter t = 0
  array : s.array s.countarrayp = ⟨0, fun _ => none⟩
  lock : s.lock = none
  loc : ∀ t, s.loc t = .new
  reader : ∀ r, s.reader r = .idle
  used : ∀ a, s.used a = decide (a = s.countarrayp)
  begun : ∀ t, s.begun t = 0
  completed : ∀ t, s.completed t = 0
  gone : ∀ a t, s.gone a t = false
  published : ∀ a, s.published a = decide (a = s.countarrayp)
  freed : ∀ a, s.freed a = false

def sys (n m nrThreads : ℕ) : Sys (St n m) (Act n m) := ⟨Init, fun a s => next nrThreads s a⟩

/-- The array that a reader is about to access. -/
def Reader.cap : Reader n → Option ℕ
  | .init cap | .ptr cap _ _ | .ctr cap _ _ _ => some cap
  | _ => none

/-- **What is promised.** What `read_count` returns is at least the number of increments that were completed
when it has loaded the pointer, and at most the number of those that were begun; and it accesses no
array that is freed, and no counter of a thread that has exited. -/
structure Bounded (s : St n m) : Prop where
  bounds : ∀ r sum, s.reader r = .returned sum → ∑ t, s.base r t ≤ sum ∧ sum ≤ ∑ t, s.begun t
  array : ∀ r cap, (s.reader r).cap = some cap → s.freed cap = false
  counter : ∀ r cap t sum u, s.reader r = .ctr cap t sum u → s.loc u ≠ .exited

end EndRcu
end Count
end Perfbook
