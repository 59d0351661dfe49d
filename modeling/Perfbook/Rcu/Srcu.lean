/-
# `defer/srcu.c`: sleepable RCU

`__srcu_read_lock` increments a count of the CPU that it runs on, by the low bit of
`completed`, and `__srcu_read_unlock` decrements the one of its own CPU. `synchronize_srcu`
advances `completed` and waits until the counts of the old index add up to 0; when `completed`
has advanced by two since it was called, others have done its work. Each access to
`completed` and each load and each store of a count is a step; they are of type `int`,
which must not overflow (`InRange`).

The `smp_processor_id` of a thread is a variable of its own, which it sets between calls; so
several threads can have the same number.

RCU is what it promises: `synchronize_rcu` returns when the sections that ran when it was
called have ended. Their history is `rcu`.

`held` and `pre` are history too: the critical sections of each index, from the return of
`__srcu_read_lock` to the call of `__srcu_read_unlock`; and those whose `__srcu_read_lock` had
returned when the last call of `synchronize_srcu` by `t` began, until the store of their
`__srcu_read_unlock`.

Key definitions: `Stage`, `Loc`, `St`, `stepThread`, `sys`, `Guarantee`, `InRange`, `Alone`.
-/
import Mathlib.Data.Finset.Insert
import Mathlib.Data.Int.Notation
import Perfbook.Conc.Lock
import Perfbook.Conc.Sections
import Perfbook.Conc.Sys

namespace Perfbook
namespace Rcu
namespace Srcu

open Conc

/-- `completed & 0x1`. -/
def parity (k : ℕ) : Fin 2 := ⟨k % 2, mod_two_lt k⟩

/-- What comes after a `synchronize_rcu`, with what `completed` was when the call read it. -/
inductive Stage
  /-- `sp->completed++` -/
  | flip (idx : ℕ)
  /-- the loop over the counts of the old index -/
  | scan (idx : ℕ) (i : Fin 2)
  /-- `spin_unlock(&sp->mutex)` -/
  | unlock (idx : ℕ)
deriving DecidableEq

/-- Where a thread is; there are `m` CPUs. -/
inductive Loc (m : ℕ)
  | idle
  /-- `__srcu_read_lock`, before `rcu_read_lock()` -/
  | lockEnter
  /-- before `idx = sp->completed & 0x1` -/
  | lockIdx
  /-- before loading the count -/
  | lockLoad (i : Fin 2)
  /-- before storing `v + 1` to it -/
  | lockStore (i : Fin 2) (cpu : Fin m) (v : ℤ)
  /-- before `rcu_read_unlock()` and `return idx` -/
  | lockLeave (i : Fin 2)
  /-- `__srcu_read_unlock` for the section `k`, before `rcu_read_lock()` -/
  | unlockEnter (k : ℕ) (i : Fin 2)
  /-- before loading the count -/
  | unlockLoad (k : ℕ) (i : Fin 2)
  /-- before storing `v - 1` to it -/
  | unlockStore (k : ℕ) (i : Fin 2) (cpu : Fin m) (v : ℤ)
  /-- before `rcu_read_unlock()` -/
  | unlockLeave
  /-- `synchronize_srcu`, before `idx = sp->completed` -/
  | syncIdx
  /-- before `spin_lock(&sp->mutex)` -/
  | syncLock (idx : ℕ)
  /-- before `sp->completed - idx >= 2` -/
  | syncCheck (idx : ℕ)
  /-- before a `synchronize_rcu()` -/
  | rcu (g : Stage)
  /-- in it -/
  | wait (g : Stage)
  /-- before `idx = sp->completed & 0x1` -/
  | flipIdx (idx : ℕ)
  /-- before `sp->completed++` -/
  | flip (idx : ℕ) (i : Fin 2)
  /-- before `sum += c[i]` of the CPU -/
  | scan (idx : ℕ) (i : Fin 2) (cpu : Fin m) (sum : ℤ)
  /-- before `poll(NULL, 0, 10)` -/
  | poll (idx : ℕ) (i : Fin 2)
  /-- before `spin_unlock(&sp->mutex)` -/
  | syncUnlock (idx : ℕ)
  /-- before the return -/
  | syncReturn
deriving DecidableEq

structure St (n m : ℕ) where
  completed : ℕ
  c : Fin m → Fin 2 → ℤ
  mutex : Option (Fin n)
  smpProcessorId : Fin n → Fin m
  rcu : Sections (Fin n)
  loc : Fin n → Loc m
  held : Fin 2 → Finset ℕ
  /-- how many sections there have been -/
  made : ℕ
  pre : Fin n → ℕ → Bool

/-- A thread starts a call or takes its next step. -/
inductive Act (n m : ℕ)
  | setSmpProcessorId (t : Fin n) (cpu : Fin m)
  | srcuReadLock (t : Fin n)
  /-- with the index that the `__srcu_read_lock` of the section `k` has returned -/
  | srcuReadUnlock (t : Fin n) (k : ℕ) (i : Fin 2)
  | synchronizeSrcu (t : Fin n)
  | step (t : Fin n)

variable {n m : ℕ}

/-- The section that is being left, up to the store of `__srcu_read_unlock`. -/
def leaving : Loc m → Option (ℕ × Fin 2)
  | .unlockEnter k i | .unlockLoad k i | .unlockStore k i _ _ => some (k, i)
  | _ => none

/-- The section has not ended. -/
def St.Runs (s : St n m) (k : ℕ) (i : Fin 2) : Prop := k ∈ s.held i ∨ ∃ u, leaving (s.loc u) = some (k, i)

instance (s : St n m) (k : ℕ) (i : Fin 2) : Decidable (s.Runs k i) := inferInstanceAs (Decidable (_ ∨ _))

namespace St

def goto (s : St n m) (t : Fin n) (l : Loc m) : St n m := { s with loc := Function.update s.loc t l }

/-- A store to a count. -/
def setCount (s : St n m) (cpu : Fin m) (i : Fin 2) (v : ℤ) : St n m :=
  { s with c := Function.update s.c cpu (Function.update (s.c cpu) i v) }

end St

/-- The loop over the counts goes on with `cpu`, or is over. -/
def scanFrom (idx : ℕ) (i : Fin 2) (cpu : ℕ) (sum : ℤ) : Loc m :=
  scan (fun cpu => .scan idx i cpu sum) (if sum = 0 then .rcu (.unlock idx) else .poll idx i) cpu

/-- Where a thread goes after a `synchronize_rcu`. -/
def Stage.loc : Stage → Loc m
  | .flip idx => .flipIdx idx
  | .scan idx i => scanFrom idx i 0 0
  | .unlock idx => .syncUnlock idx

/-- The next step of thread `t`. -/
def stepThread (t : Fin n) (s : St n m) : Option (St n m) :=
  match s.loc t with
  | .idle => none
  | .lockEnter => some ({ s with rcu := s.rcu.enter t }.goto t .lockIdx)
  | .lockIdx => some (s.goto t (.lockLoad (parity s.completed)))
  | .lockLoad i => some (s.goto t (.lockStore i (s.smpProcessorId t) (s.c (s.smpProcessorId t) i)))
  | .lockStore i cpu v => some ((s.setCount cpu i (v + 1)).goto t (.lockLeave i))
  | .lockLeave i =>
    some ({ s with
      rcu := s.rcu.leave t
      held := Function.update s.held i (insert s.made (s.held i))
      made := s.made + 1 }.goto t .idle)
  | .unlockEnter k i => some ({ s with rcu := s.rcu.enter t }.goto t (.unlockLoad k i))
  | .unlockLoad k i => some (s.goto t (.unlockStore k i (s.smpProcessorId t) (s.c (s.smpProcessorId t) i)))
  | .unlockStore k i cpu v =>
    some ({ s.setCount cpu i (v - 1) with pre := fun u j => if j = k then false else s.pre u j }.goto t .unlockLeave)
  | .unlockLeave => some ({ s with rcu := s.rcu.leave t }.goto t .idle)
  | .syncIdx => some (s.goto t (.syncLock s.completed))
  | .syncLock idx => if s.mutex = none then some ({ s with mutex := some t }.goto t (.syncCheck idx)) else none
  | .syncCheck idx => some (s.goto t (if (s.completed : ℤ) - idx ≥ 2 then .syncUnlock idx else .rcu (.flip idx)))
  | .rcu g => some ({ s with rcu := s.rcu.observe t }.goto t (.wait g))
  | .wait g => if ∀ u, s.rcu.pre t u = false then some (s.goto t g.loc) else none
  | .flipIdx idx => some (s.goto t (.flip idx (parity s.completed)))
  | .flip idx i => some ({ s with completed := s.completed + 1 }.goto t (.rcu (.scan idx i)))
  | .scan idx i cpu sum => some (s.goto t (scanFrom idx i (cpu + 1) (sum + s.c cpu i)))
  | .poll idx i => some (s.goto t (scanFrom idx i 0 0))
  | .syncUnlock _ => some ({ s with mutex := none }.goto t .syncReturn)
  | .syncReturn => some (s.goto t .idle)

/-- What an action does. -/
def next : Act n m → St n m → Option (St n m)
  | .setSmpProcessorId t cpu, s =>
    if s.loc t = .idle then some { s with smpProcessorId := Function.update s.smpProcessorId t cpu } else none
  | .srcuReadLock t, s => if s.loc t = .idle then some (s.goto t .lockEnter) else none
  | .srcuReadUnlock t k i, s =>
    if s.loc t = .idle ∧ k ∈ s.held i then
      some ({ s with held := Function.update s.held i ((s.held i).erase k) }.goto t (.unlockEnter k i))
    else none
  | .synchronizeSrcu t, s =>
    if s.loc t = .idle then
      some ({ s with pre := Function.update s.pre t fun k => decide (∃ i, s.Runs k i) }.goto t .syncIdx)
    else none
  | .step t, s => stepThread t s

/-- After `init_srcu_struct`. -/
structure Init (s : St n m) : Prop where
  completed : s.completed = 0
  c : ∀ cpu i, s.c cpu i = 0
  mutex : s.mutex = none
  depth : ∀ t, s.rcu.depth t = 0
  rcuPre : ∀ t u, s.rcu.pre t u = false
  loc : ∀ t, s.loc t = .idle
  held : ∀ i, s.held i = ∅
  pre : ∀ t k, s.pre t k = false

def sys (n m : ℕ) : Sys (St n m) (Act n m) := ⟨Init, next⟩

/-! ### What is promised -/

/-- An operation in progress that the count of its index has: a `__srcu_read_lock` that has stored, or a
`__srcu_read_unlock` that has not. -/
def counts : Loc m → Option (Fin 2)
  | .lockLeave i | .unlockEnter _ i | .unlockLoad _ i | .unlockStore _ i _ _ => some i
  | _ => none

/-- **The guarantee of a grace period**, and the counts of an index add up to its critical sections and the operations
in progress. -/
structure Guarantee (s : St n m) : Prop where
  waited : ∀ t, s.loc t = .syncReturn → ∀ k, s.pre t k = false
  sum : ∀ i, ∑ cpu, s.c cpu i = (s.held i).card + ∑ t, if counts (s.loc t) = some i then 1 else 0

/-- The count that the thread has loaded, and is going to store to. -/
def storing : Loc m → Option (Fin m × Fin 2)
  | .lockStore i cpu _ | .unlockStore _ i cpu _ => some (cpu, i)
  | _ => none

/-- The index of the count that the thread is going to load. -/
def loads : Loc m → Option (Fin 2)
  | .lockLoad i | .unlockLoad _ i => some i
  | _ => none

/-- The largest `int`; the smallest is `-INT_MAX - 1`. -/
def INT_MAX : ℤ := 2147483647

/-- The next `++`, `--` or `sum +=` of a thread at this place does not overflow. -/
def InRange (s : St n m) : Loc m → Prop
  | .lockStore _ _ v => v < INT_MAX
  | .unlockStore _ _ _ v => -INT_MAX ≤ v
  | .flip _ _ => (s.completed : ℤ) < INT_MAX
  | .scan _ i cpu sum => -INT_MAX - 1 ≤ sum + s.c cpu i ∧ sum + s.c cpu i ≤ INT_MAX
  | _ => True

/-- A count is not loaded while another thread is between its load and its store of the same count, and no `int`
overflows. -/
def Alone (a : Act n m) (s : St n m) : Prop :=
  match a with
  | .step t => (∀ i, loads (s.loc t) = some i → ∀ u, storing (s.loc u) ≠ some (s.smpProcessorId t, i)) ∧
      InRange s (s.loc t)
  | _ => True

end Srcu
end Rcu
end Perfbook
