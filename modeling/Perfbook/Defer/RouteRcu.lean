/-
# `defer/route_rcu.c`: a routing table protected by RCU

`route_lookup` walks the list in a read-side critical section. `route_add` puts an entry in
front of the list, and `route_del` unlinks the first one of its address, both under
`routelock`; `route_cb` frees the entry after a grace period. `malloc` returns any entry that
is not in use, so an entry comes back with another address once it was freed. Each access to
shared memory is a step, and so is taking and releasing the lock. `cds_list_add_rcu` and
`cds_list_del_rcu` are one step: lookups follow `next` only, and each writes it once in a cell
that they can reach.

`call_rcu` waits for the read-side critical sections that run when it is called: `wait a u` says
that the one of `u` has not ended. `status` is history but for `malloc` and `call_rcu`: what has
become of an entry. `hist` is what the clients see.

Key definitions: `Loc`, `Status`, `Heap`, `St`, `stepThread`, `sys`, `Holds`.
-/
import Perfbook.Conc.Ring
import Perfbook.Conc.Sys
import Perfbook.Defer.Routes

namespace Perfbook
namespace RouteRcu

open Conc Routes

/-- What is linked: the `re_next` of a `struct route_entry`, or `route_list`. -/
inductive Cell
  | head
  | entry (a : ℕ)
deriving DecidableEq

/-- Where a thread is. -/
inductive Loc
  | idle
  /-- `route_lookup(addr)`, before `rcu_read_lock()` -/
  | readLock (addr : ℕ)
  /-- before `rcu_dereference(c->next)` -/
  | readNext (addr : ℕ) (c : Cell)
  /-- before `rep->addr == addr` -/
  | readAddr (addr : ℕ) (rep : ℕ)
  /-- before `ret = rep->iface` -/
  | readIface (addr : ℕ) (rep : ℕ)
  /-- before `READ_ONCE(rep->re_freed)` -/
  | readFreed (addr : ℕ) (rep : ℕ) (ret : ℤ)
  /-- before `rcu_read_unlock()` -/
  | readUnlock (addr : ℕ) (ret : ℤ)
  /-- before `return ret` -/
  | readRet (addr : ℕ) (ret : ℤ)
  /-- after `abort()` -/
  | aborted
  /-- `route_add(addr, interface)`, when `malloc` has returned `NULL` -/
  | noMem (addr : ℕ) (iface : ℤ)
  /-- before `spin_lock(&routelock)` -/
  | addLock (addr : ℕ) (iface : ℤ) (rep : ℕ)
  /-- before `cds_list_add_rcu(&rep->re_next, &route_list)` -/
  | addLink (addr : ℕ) (iface : ℤ) (rep : ℕ)
  /-- before `spin_unlock(&routelock)` -/
  | addUnlock
  /-- `route_del(addr)`, before `spin_lock(&routelock)` -/
  | delLock (addr : ℕ)
  /-- before reading `c->next` -/
  | delNext (addr : ℕ) (c : Cell)
  /-- before `rep->addr == addr` -/
  | delAddr (addr : ℕ) (rep : ℕ)
  /-- before `cds_list_del_rcu(&rep->re_next)` -/
  | delUnlink (addr : ℕ) (rep : ℕ)
  /-- before `spin_unlock(&routelock)`, with the entry that was unlinked -/
  | delUnlock (rep : Option ℕ)
  /-- before `call_rcu(&rep->rh, route_cb)` -/
  | callRcu (rep : ℕ)
  /-- before `return v` in `route_add` and `route_del` -/
  | ret (v : ℤ)
deriving DecidableEq

/-- What has become of an entry. -/
inductive Status (n : ℕ)
  /-- not allocated, or freed -/
  | unused
  /-- with the `route_add` of `t`, not added yet -/
  | own (t : Fin n)
  /-- added, and not removed -/
  | table
  /-- removed by `t` -/
  | removed (t : Fin n)
  /-- passed to `call_rcu` -/
  | queued
  /-- in `route_cb`, which has marked it as freed -/
  | freeing
deriving DecidableEq

/-- The entries. -/
structure Heap (n : ℕ) where
  links : Links Cell
  addr : ℕ → ℕ
  iface : ℕ → ℤ
  freed : ℕ → Bool
  status : ℕ → Status n
  wait : ℕ → Fin n → Bool

structure St (n : ℕ) extends Heap n where
  routelock : Option (Fin n)
  loc : Fin n → Loc
  hist : List (Ev (Fin n) RouteOp ℤ)

/-- A thread starts a call or takes its next step, or `route_cb` does. -/
inductive Act (n : ℕ)
  | lookup (t : Fin n) (addr : ℕ)
  /-- with the entry that `malloc` returns, if there is one -/
  | add (t : Fin n) (addr : ℕ) (iface : ℤ) (rep : Option ℕ)
  | del (t : Fin n) (addr : ℕ)
  | step (t : Fin n)
  | cb (rep : ℕ)

/-- The thread is in a read-side critical section. -/
def Loc.reads : Loc → Bool
  | .readNext _ _ | .readAddr _ _ | .readIface _ _ | .readFreed _ _ _ | .readUnlock _ _ => true
  | _ => false

variable {n : ℕ}

namespace Heap

def setStatus (m : Heap n) (rep : ℕ) (x : Status n) : Heap n := { m with status := Function.update m.status rep x }

/-- What `route_add` stores in a new entry. -/
def alloc (m : Heap n) (t : Fin n) (rep addr : ℕ) (iface : ℤ) : Heap n :=
  { m.setStatus rep (.own t) with
    addr := Function.update m.addr rep addr
    iface := Function.update m.iface rep iface
    freed := Function.update m.freed rep false }

/-- `cds_list_add_rcu(&rep->re_next, &route_list)`. -/
def link (m : Heap n) (rep : ℕ) : Heap n :=
  { m.setStatus rep .table with links := m.links.add (.entry rep) .head }

/-- `cds_list_del_rcu(&rep->re_next)`. -/
def unlink (m : Heap n) (t : Fin n) (rep : ℕ) : Heap n :=
  { m.setStatus rep (.removed t) with links := m.links.del (.entry rep) }

/-- `call_rcu(&rep->rh, route_cb)`. -/
def queue (m : Heap n) (rep : ℕ) (reads : Fin n → Bool) : Heap n :=
  { m.setStatus rep .queued with wait := Function.update m.wait rep reads }

/-- `rcu_read_unlock()`. -/
def unlock (m : Heap n) (t : Fin n) : Heap n :=
  { m with wait := fun a => Function.update (m.wait a) t false }

/-- `WRITE_ONCE(rep->re_freed, 1)`. -/
def mark (m : Heap n) (rep : ℕ) : Heap n :=
  { m.setStatus rep .freeing with freed := Function.update m.freed rep true }

end Heap

namespace St

/-- The thread goes to another place. -/
def goto (s : St n) (t : Fin n) (l : Loc) : St n := { s with loc := Function.update s.loc t l }

def setHeap (s : St n) (m : Heap n) : St n := { s with toHeap := m }

def call (s : St n) (t : Fin n) (o : RouteOp) (l : Loc) : St n :=
  { s with hist := s.hist ++ [Ev.call t o] }.goto t l

def return' (s : St n) (t : Fin n) (v : ℤ) : St n := { s with hist := s.hist ++ [Ev.ret t v] }.goto t .idle

def lock (s : St n) (t : Fin n) (l : Loc) : Option (St n) :=
  if s.routelock = none then some ({ s with routelock := some t }.goto t l) else none

def unlock (s : St n) (t : Fin n) (l : Loc) : St n := { s with routelock := none }.goto t l

end St

/-- The next step of thread `t`. -/
def stepThread (t : Fin n) (s : St n) : Option (St n) :=
  match s.loc t with
  | .idle | .aborted => none
  | .readLock addr => some (s.goto t (.readNext addr .head))
  | .readNext addr c =>
    match s.links.next c with
    | .head => some (s.goto t (.readUnlock addr ULONG_MAX))
    | .entry rep => some (s.goto t (.readAddr addr rep))
  | .readAddr addr rep =>
    some (s.goto t (if s.addr rep = addr then .readIface addr rep else .readNext addr (.entry rep)))
  | .readIface addr rep => some (s.goto t (.readFreed addr rep (s.iface rep)))
  | .readFreed addr rep ret => some (s.goto t (if s.freed rep then .aborted else .readUnlock addr ret))
  | .readUnlock addr ret => some ((s.setHeap (s.toHeap.unlock t)).goto t (.readRet addr ret))
  | .readRet _ ret => some (s.return' t ret)
  | .noMem _ _ => some (s.goto t (.ret (-ENOMEM)))
  | .addLock addr iface rep => s.lock t (.addLink addr iface rep)
  | .addLink _ _ rep => some ((s.setHeap (s.toHeap.link rep)).goto t .addUnlock)
  | .addUnlock => some (s.unlock t (.ret 0))
  | .delLock addr => s.lock t (.delNext addr .head)
  | .delNext addr c =>
    match s.links.next c with
    | .head => some (s.goto t (.delUnlock none))
    | .entry rep => some (s.goto t (.delAddr addr rep))
  | .delAddr addr rep =>
    some (s.goto t (if s.addr rep = addr then .delUnlink addr rep else .delNext addr (.entry rep)))
  | .delUnlink _ rep => some ((s.setHeap (s.toHeap.unlink t rep)).goto t (.delUnlock (some rep)))
  | .delUnlock none => some (s.unlock t (.ret (-ENOENT)))
  | .delUnlock (some rep) => some (s.unlock t (.callRcu rep))
  | .callRcu rep => some ((s.setHeap (s.toHeap.queue rep fun u => (s.loc u).reads)).goto t (.ret 0))
  | .ret v => some (s.return' t v)

/-- The next step of `route_cb`, which runs after a grace period. -/
def stepCb (rep : ℕ) (s : St n) : Option (St n) :=
  match s.status rep with
  | .queued => if ∀ u, s.wait rep u = false then some (s.setHeap (s.toHeap.mark rep)) else none
  | .freeing => some (s.setHeap (s.toHeap.setStatus rep .unused))
  | _ => none

/-- What an action does. -/
def next : Act n → St n → Option (St n)
  | .lookup t addr, s => if s.loc t = .idle then some (s.call t (.lookup addr) (.readLock addr)) else none
  | .add t addr iface none, s =>
    if s.loc t = .idle then some (s.call t (.add addr iface false) (.noMem addr iface)) else none
  | .add t addr iface (some rep), s =>
    if s.loc t = .idle ∧ s.status rep = .unused then
      some ((s.setHeap (s.toHeap.alloc t rep addr iface)).call t (.add addr iface true) (.addLock addr iface rep))
    else none
  | .del t addr, s => if s.loc t = .idle then some (s.call t (.del addr) (.delLock addr)) else none
  | .step t, s => stepThread t s
  | .cb rep, s => stepCb rep s

/-- An empty table, and no call runs. -/
structure Init (s : St n) : Prop where
  next : s.links.next .head = .head
  prev : s.links.prev .head = .head
  status : ∀ a, s.status a = .unused
  routelock : s.routelock = none
  loc : ∀ t, s.loc t = .idle
  hist : s.hist = []

def sys (n : ℕ) : Sys (St n) (Act n) := ⟨Init, next⟩

/-! ### What is promised -/

/-- How far the call is. -/
def pend : Loc → Pend RouteOp ℤ
  | .idle | .aborted => .idle
  | .readLock addr | .readNext addr _ | .readAddr addr _ | .readIface addr _ | .readFreed addr _ _
  | .readUnlock addr _ | .readRet addr _ => .called (.lookup addr)
  | .noMem addr iface => .called (.add addr iface false)
  | .addLock addr iface _ | .addLink addr iface _ => .called (.add addr iface true)
  | .addUnlock => .done 0
  | .delLock addr | .delNext addr _ | .delAddr addr _ | .delUnlink addr _ => .called (.del addr)
  | .delUnlock none => .done (-ENOENT)
  | .delUnlock (some _) | .callRcu _ => .done 0
  | .ret v => .done v

/-- The entry that a call is going to access. -/
def uses : Loc → Option ℕ
  | .readNext _ (.entry rep) | .readAddr _ rep | .readIface _ rep | .readFreed _ rep _ => some rep
  | .addLink _ _ rep | .delNext _ (.entry rep) | .delAddr _ rep | .delUnlink _ rep | .callRcu rep => some rep
  | _ => none

/-- The table that a list of entries is. -/
def Heap.rows (m : Heap n) (live : List ℕ) : List (ℕ × ℤ) := live.map fun a => (m.addr a, m.iface a)

/-- **What is promised.** -/
structure Holds (s : St n) : Prop where
  /-- The history is one of the table, and the list is the table as it is now. -/
  lin : ∃ live S, Ring Cell.entry .head s.links live ∧ (∀ a, a ∈ live ↔ s.status a = .table) ∧
    Lin routes s.hist S (fun t => pend (s.loc t)) (s.rows live)
  /-- No call comes to an entry that was freed, or finds one marked as freed. -/
  uses : ∀ t a, uses (s.loc t) = some a → s.status a ≠ .unused ∧ s.freed a = false
  noAbort : ∀ t, s.loc t ≠ .aborted

end RouteRcu
end Perfbook
