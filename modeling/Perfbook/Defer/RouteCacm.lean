/-
# `defer/route_cacm.c`: a routing table and a grace period by hand

`rcu_read_lock` counts in the thread's `rcu_nesting`, and `synchronize_rcu` waits, one
registered thread after the other, until it is 0. `route_add` puts an entry in front of the
list; `route_del` unlinks one, waits and frees it; `route_clear` takes all off, waits and
frees them. With `FRESH` an entry has a lock and is marked as removed before it is unlinked,
and a lookup loses the high half of the interface (`checked`).
Each access to shared memory is a step, and so is taking and releasing a lock.

A thread has the name that `route_register_thread` gives it, `myidx`; there are `NR_THREADS = n`.
A `struct route_entry **` is named by the entry whose `next` it points to (`head` is
`route_list`), and `malloc` returns an entry that is not in use. `wait` is passed when
`rcu_nesting` is 0.

`sec.depth` is `rcu_nesting`. `sec.pre` is history: the sections that the call that has
removed entries waits for. `status` is history too: what has become of an entry.

Key definitions: `Cell`, `Loc`, `Status`, `St`, `checked`, `stepThread`, `sys`, `Holds`, `NotReturned`.
-/
import Mathlib.Algebra.Group.Int.Defs
import Mathlib.Data.Int.Notation
import Mathlib.Logic.Relation
import Perfbook.Conc.Linked
import Perfbook.Conc.Sections
import Perfbook.Conc.Sys

namespace Perfbook
namespace RouteCacm

open Conc

def ULONG_MAX : ℤ := 2 ^ 64 - 1

def ENOENT : ℤ := 2

def ENOMEM : ℤ := 12

/-- What is linked: a `struct route_entry`, or `route_list`. -/
inductive Cell
  | head
  | entry (a : ℕ)
deriving DecidableEq

/-- What comes after `synchronize_rcu`. -/
inductive After
  /-- `re_free(rep)` -/
  | del (rep : Cell)
  /-- the loop of `route_clear` -/
  | clear (rep_local : Option Cell)
deriving DecidableEq

/-- Where a thread is. -/
inductive Loc (n : ℕ)
  | idle
  /-- `route_register_thread`, before the store to `rcu_here` -/
  | register
  /-- `route_lookup(addr)`, before `rcu_read_lock()` -/
  | readLock (addr : ℕ)
  /-- before `rep = rcu_dereference(*p)` -/
  | load (addr : ℕ) (p : Cell)
  /-- before `rep->addr == addr` -/
  | readAddr (addr : ℕ) (rep : Cell)
  /-- before `ret = rep->iface` -/
  | readIface (rep : Cell)
  /-- before `READ_ONCE(rep->freed)` -/
  | readFreed (rep : Cell) (ret : ℤ)
  /-- `route_lookup_check(rep, ret)`, before `spin_lock` -/
  | entryLock (rep : Cell) (ret : ℤ)
  /-- before `rep->removed` -/
  | readRemoved (rep : Cell) (ret : ℤ)
  /-- before `do_something_with(rep)` -/
  | doSomething (rep : Cell) (ret : ℤ)
  /-- before `spin_unlock` -/
  | entryUnlock (rep : Cell) (ret : ℤ)
  /-- before `rcu_read_unlock()` and `return ret` -/
  | readUnlock (ret : ℤ)
  /-- after `abort()` -/
  | aborted
  /-- `route_add`, before `spin_lock(&routelock)` -/
  | addLock (rep : Cell)
  /-- before reading `route_list` -/
  | addLoad (rep : Cell)
  /-- before `rep->next = x` -/
  | addStore (rep : Cell) (x : Option Cell)
  /-- before `rcu_assign_pointer(route_list, rep)` -/
  | addLink (rep : Cell)
  | addUnlock
  /-- `route_del(addr)`, before `spin_lock(&routelock)` -/
  | delLock (addr : ℕ)
  /-- before the test of `*repp` -/
  | delTest (addr : ℕ) (repp : Cell)
  /-- before `rep = rcu_dereference(*repp)` in the body -/
  | delLoad (addr : ℕ) (repp : Cell)
  /-- before `rep->addr == addr` -/
  | delAddr (addr : ℕ) (repp rep : Cell)
  /-- before `rep = rcu_dereference(*repp), repp = &rep->next` -/
  | delNext (addr : ℕ) (repp : Cell)
  /-- before `spin_lock(&rep->route_entry_lock)` -/
  | delEntryLock (repp rep : Cell)
  /-- before `rep->removed = 1` -/
  | delRemoved (repp rep : Cell)
  /-- before `spin_unlock(&rep->route_entry_lock)` -/
  | delEntryUnlock (repp rep : Cell)
  /-- before reading `rep->next` -/
  | delRead (repp rep : Cell)
  /-- before `rcu_assign_pointer(*repp, x)` -/
  | unlink (repp rep : Cell) (x : Option Cell)
  /-- before `spin_unlock(&routelock)`, with the entry that was unlinked -/
  | delUnlock (rep : Option Cell)
  /-- `synchronize_rcu`, before `spin_lock(&rcu_gp_lock)` -/
  | syncLock (k : After)
  /-- before `READ_ONCE(ptrp->rcu_here)` of thread `i` -/
  | scan (k : After) (i : Fin n)
  /-- before `READ_ONCE(ptrp->rcu_nesting)` of thread `i` -/
  | wait (k : After) (i : Fin n)
  /-- before `spin_unlock(&rcu_gp_lock)` -/
  | syncUnlock (k : After)
  /-- before `re_free(rep)` and `return 0` -/
  | free (rep : Cell)
  /-- `route_clear`, before `spin_lock(&routelock)` -/
  | clearLock
  /-- before `rep_local = route_list` -/
  | clearLoad
  /-- before `rcu_assign_pointer(route_list, NULL)` -/
  | clearStore (rep_local : Option Cell)
  /-- before the next turn of the loop: `rep = rep_local`, and reading `rep->next` -/
  | clearLoop (rep_local : Option Cell)
  /-- before `re_free(rep)` -/
  | clearFree (rep : Cell) (rep_local : Option Cell)
deriving DecidableEq

/-- What has become of an entry. -/
inductive Status (n : ℕ)
  /-- not allocated, or freed -/
  | unused
  /-- with the `route_add` of `t`, not added yet -/
  | own (t : Fin n)
  /-- added, and not removed -/
  | table
  /-- removed by a call of `t` -/
  | removed (t : Fin n)
deriving DecidableEq

structure St (n : ℕ) where
  nthreads : ℕ
  rcuHere : Fin n → Bool
  sec : Sections (Fin n)
  rcuGpLock : Option (Fin n)
  routelock : Option (Fin n)
  next : Cell → Option Cell
  addr : Cell → ℕ
  iface : Cell → ℤ
  removed : Cell → Bool
  routeEntryLock : Cell → Option (Fin n)
  freed : Cell → Bool
  loc : Fin n → Loc n
  /-- what the thread's last call returned -/
  ret : Fin n → ℤ
  status : Cell → Status n

/-- A thread starts a call or takes its next step. -/
inductive Act (n : ℕ)
  | register (t : Fin n)
  | unregister (t : Fin n)
  | lookup (t : Fin n) (addr : ℕ)
  /-- with the entry that `malloc` returns, if there is one -/
  | add (t : Fin n) (addr : ℕ) (iface : ℤ) (a : Option ℕ)
  | del (t : Fin n) (addr : ℕ)
  | clear (t : Fin n)
  | step (t : Fin n)

variable {n : ℕ}

namespace St

/-- The thread goes to another place. -/
def goto (s : St n) (t : Fin n) (l : Loc n) : St n := { s with loc := Function.update s.loc t l }

def answer (s : St n) (t : Fin n) (v : ℤ) : St n := { s with ret := Function.update s.ret t v }.goto t .idle

/-- A store to a link. -/
def store (s : St n) (p : Cell) (x : Option Cell) : St n := { s with next := Function.update s.next p x }

def setEntryLock (s : St n) (rep : Cell) (l : Option (Fin n)) : St n :=
  { s with routeEntryLock := Function.update s.routeEntryLock rep l }

def setStatus (s : St n) (rep : Cell) (x : Status n) : St n := { s with status := Function.update s.status rep x }

/-- `malloc` and what `route_add` stores before it takes the lock. -/
def alloc (fresh : Bool) (s : St n) (t : Fin n) (rep : Cell) (addr : ℕ) (iface : ℤ) : St n :=
  { s with
    addr := Function.update s.addr rep addr
    iface := Function.update s.iface rep iface
    removed := if fresh then Function.update s.removed rep false else s.removed
    routeEntryLock := if fresh then Function.update s.routeEntryLock rep none else s.routeEntryLock
    freed := Function.update s.freed rep false
    status := Function.update s.status rep (.own t) }

/-- `re_free(rep)`. -/
def reFree (s : St n) (rep : Cell) : St n :=
  { s with
    freed := Function.update s.freed rep true
    status := Function.update s.status rep .unused }

/-- All entries of the table are removed. -/
def removeAll (s : St n) (t : Fin n) : St n :=
  { s with status := fun c => if s.status c = .table then .removed t else s.status c }

end St

/-- The loop of `synchronize_rcu` goes on with thread `i`. -/
def scanFrom (k : After) (i : ℕ) : Loc n := scan (.scan k) (.syncUnlock k) i

/-- Where a thread goes after `synchronize_rcu`. -/
def After.loc : After → Loc n
  | .del rep => .free rep
  | .clear rep_local => .clearLoop rep_local

/-- `route_lookup_check` returns an `int`, and its caller makes it an `unsigned long` again: the low 32 bits of the
interface, with their sign. -/
def checked (ret : ℤ) : ℤ := Int.bmod ret 0x100000000 % 0x10000000000000000

example : checked 0x100000005 = 5 ∧ checked ULONG_MAX = ULONG_MAX := by decide

variable (fresh : Bool)

/-- The next step of thread `t`. -/
def stepThread (t : Fin n) (s : St n) : Option (St n) :=
  match s.loc t with
  | .idle | .aborted => none
  | .register => some ({ s with rcuHere := Function.update s.rcuHere t true }.goto t .idle)
  | .readLock addr => some ({ s with sec := s.sec.enter t }.goto t (.load addr .head))
  | .load addr p =>
    match s.next p with
    | none => some (s.goto t (.readUnlock ULONG_MAX))
    | some rep => some (s.goto t (.readAddr addr rep))
  | .readAddr addr rep => some (s.goto t (if s.addr rep = addr then .readIface rep else .load addr rep))
  | .readIface rep => some (s.goto t (.readFreed rep (s.iface rep)))
  | .readFreed rep ret =>
    some (s.goto t (if s.freed rep then .aborted else if fresh then .entryLock rep ret else .readUnlock ret))
  | .entryLock rep ret =>
    if s.routeEntryLock rep = none then some ((s.setEntryLock rep (some t)).goto t (.readRemoved rep ret)) else none
  | .readRemoved rep ret =>
    some (s.goto t (if s.removed rep then .entryUnlock rep ULONG_MAX else .doSomething rep ret))
  | .doSomething rep ret => some (s.goto t (.entryUnlock rep ret))
  | .entryUnlock rep ret => some ((s.setEntryLock rep none).goto t (.readUnlock (checked ret)))
  | .readUnlock ret => some ({ s with sec := s.sec.leave t }.answer t ret)
  | .addLock rep =>
    if s.routelock = none then some ({ s with routelock := some t }.goto t (.addLoad rep)) else none
  | .addLoad rep => some (s.goto t (.addStore rep (s.next .head)))
  | .addStore rep x => some ((s.store rep x).goto t (.addLink rep))
  | .addLink rep => some (((s.store .head (some rep)).setStatus rep .table).goto t .addUnlock)
  | .addUnlock => some ({ s with routelock := none }.answer t 0)
  | .delLock addr =>
    if s.routelock = none then some ({ s with routelock := some t }.goto t (.delTest addr .head)) else none
  | .delTest addr repp => some (s.goto t (if s.next repp = none then .delUnlock none else .delLoad addr repp))
  | .delLoad addr repp => (s.next repp).map fun rep => s.goto t (.delAddr addr repp rep)
  | .delAddr addr repp rep =>
    some (s.goto t
      (if s.addr rep = addr then if fresh then .delEntryLock repp rep else .delRead repp rep else .delNext addr repp))
  | .delNext addr repp => (s.next repp).map fun rep => s.goto t (.delTest addr rep)
  | .delEntryLock repp rep =>
    if s.routeEntryLock rep = none then some ((s.setEntryLock rep (some t)).goto t (.delRemoved repp rep)) else none
  | .delRemoved repp rep =>
    some ({ s with removed := Function.update s.removed rep true }.goto t (.delEntryUnlock repp rep))
  | .delEntryUnlock repp rep => some ((s.setEntryLock rep none).goto t (.delRead repp rep))
  | .delRead repp rep => some (s.goto t (.unlink repp rep (s.next rep)))
  | .unlink repp rep x =>
    some ({ (s.store repp x).setStatus rep (.removed t) with sec := s.sec.observe t }.goto t (.delUnlock (some rep)))
  | .delUnlock none => some ({ s with routelock := none }.answer t (-ENOENT))
  | .delUnlock (some rep) => some ({ s with routelock := none }.goto t (.syncLock (.del rep)))
  | .syncLock k => if s.rcuGpLock = none then some ({ s with rcuGpLock := some t }.goto t (scanFrom k 0)) else none
  | .scan k i => some (s.goto t (if s.rcuHere i then .wait k i else scanFrom k (i + 1)))
  | .wait k i => if s.sec.depth i = 0 then some (s.goto t (scanFrom k (i + 1))) else none
  | .syncUnlock k => some ({ s with rcuGpLock := none }.goto t k.loc)
  | .free rep => some ((s.reFree rep).answer t 0)
  | .clearLock => if s.routelock = none then some ({ s with routelock := some t }.goto t .clearLoad) else none
  | .clearLoad => some (s.goto t (.clearStore (s.next .head)))
  | .clearStore rep_local =>
    some ({ (s.store .head none).removeAll t with sec := s.sec.observe t }.goto t (.syncLock (.clear rep_local)))
  | .clearLoop none => some (s.goto t .idle)
  | .clearLoop (some rep) => some (s.goto t (.clearFree rep (s.next rep)))
  | .clearFree rep rep_local => some ((s.reFree rep).goto t (.clearLoop rep_local))

/-- What an action does. A thread that looks up is registered. -/
def next : Act n → St n → Option (St n)
  | .register t, s =>
    if s.loc t = .idle ∧ t.val = s.nthreads + 1 then some ({ s with nthreads := s.nthreads + 1 }.goto t .register)
    else none
  | .unregister t, s =>
    if s.loc t = .idle then some { s with rcuHere := Function.update s.rcuHere t false } else none
  | .lookup t addr, s =>
    if s.loc t = .idle ∧ s.rcuHere t = true then some (s.goto t (.readLock addr)) else none
  | .add t _ _ none, s => if s.loc t = .idle then some (s.answer t (-ENOMEM)) else none
  | .add t addr iface (some a), s =>
    if s.loc t = .idle ∧ s.status (.entry a) = .unused then
      some ((s.alloc fresh t (.entry a) addr iface).goto t (.addLock (.entry a)))
    else none
  | .del t addr, s => if s.loc t = .idle then some (s.goto t (.delLock addr)) else none
  | .clear t, s => if s.loc t = .idle then some (s.goto t .clearLock) else none
  | .step t, s => stepThread fresh t s

/-- An empty table, no thread is registered, and no call runs. -/
structure Init (s : St n) : Prop where
  nthreads : s.nthreads = 0
  rcuHere : ∀ i, s.rcuHere i = false
  depth : ∀ i, s.sec.depth i = 0
  pre : ∀ t i, s.sec.pre t i = false
  rcuGpLock : s.rcuGpLock = none
  routelock : s.routelock = none
  routeList : s.next .head = none
  loc : ∀ t, s.loc t = .idle
  status : ∀ c, s.status c = .unused

def sys (n : ℕ) : Sys (St n) (Act n) := ⟨Init, next fresh⟩

/-! ### What is promised -/

/-- The entry, or the link, that a lookup is going to access. -/
def uses : Loc n → Option Cell
  | .load _ p => some p
  | .readAddr _ rep | .readIface rep | .readFreed rep _ | .entryLock rep _ | .readRemoved rep _ | .doSomething rep _
  | .entryUnlock rep _ => some rep
  | _ => none

/-- The thread is in `route_add`, `route_del` or `route_clear`. -/
def updates : Loc n → Bool
  | .addLock _ | .addLoad _ | .addStore _ _ | .addLink _ | .addUnlock | .delLock _ | .delTest _ _ | .delLoad _ _
  | .delAddr _ _ _ | .delNext _ _ | .delEntryLock _ _ | .delRemoved _ _ | .delEntryUnlock _ _ | .delRead _ _
  | .unlink _ _ _ | .delUnlock _ | .syncLock _ | .scan _ _ | .wait _ _ | .syncUnlock _ | .free _ | .clearLock
  | .clearLoad | .clearStore _ | .clearLoop _ | .clearFree _ _ => true
  | _ => false

/-- The call is `route_clear`, and has taken the entries off the list. -/
def clears : Loc n → Bool
  | .syncLock (.clear _) | .scan (.clear _) _ | .wait (.clear _) _ | .syncUnlock (.clear _) | .clearLoop _
  | .clearFree _ _ => true
  | _ => false

/-- The action is a call of `t` that updates. -/
def Act.Update (t : Fin n) : Act n → Prop
  | .add u _ _ _ | .del u _ | .clear u => u = t
  | _ => False

/-- The threads take some steps. -/
def Steps : St n → St n → Prop := Relation.ReflTransGen fun s s' => ∃ u, stepThread fresh u s = some s'

/-- **What is promised.** -/
structure Holds (s : St n) : Prop where
  /-- No lookup comes to an entry that was freed, or finds one marked as freed. -/
  lookups : ∀ t a, uses (s.loc t) = some (.entry a) → s.status (.entry a) ≠ .unused ∧ s.freed (.entry a) = false
  noAbort : ∀ t, s.loc t ≠ .aborted
  routelock : (∀ t, updates (s.loc t) = false) → s.routelock = none
  routeList : (∀ t, updates (s.loc t) = false) →
    ∃ q, Linked s.next .head q ∧ q.Nodup ∧ ∀ c, c ∈ q ↔ s.status c = .table
  /-- A further update can complete. -/
  completes : (∀ t, updates (s.loc t) = false) → ∀ t a s₁, a.Update t → next fresh a s = some s₁ →
    ∃ s', Steps fresh s₁ s' ∧ s'.loc t = .idle
  /-- `do_something_with` is called for an entry that is not marked as removed, and that no `route_del` has removed. -/
  fresh : ∀ t rep ret, s.loc t = .doSomething rep ret → s.removed rep = false ∧
    (s.status rep = .table ∨ ∃ u, s.status rep = .removed u ∧ clears (s.loc u) = true)

/-- The step is not the return of `route_clear`. -/
def NotReturned (a : Act n) (s : St n) : Prop :=
  match a with
  | .step t => s.loc t ≠ .clearLoop none
  | _ => True

end RouteCacm
end Perfbook
