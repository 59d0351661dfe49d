/-
# `defer/route_seqlock.c`: a routing table protected by a sequence lock

`route_lookup` walks the list between `read_seqbegin` and `read_seqretry`, and starts over when an
update has begun since. `route_add`, `route_del` and `route_clear` change the list in a write
section. `route_del` frees the entry when its section is over, and `route_clear` in it, so a
lookup may stand on an entry that was freed; and what is not in use may be overwritten with
anything (`Act.write`). Each access to shared memory is a step, and so is taking and releasing
the lock. `seq` is a number: it does not wrap.

A `struct route_entry **` is named by the entry whose `re_next` it points to (`head` is
`route_list`), and `malloc` returns an entry that is not in use. `status` is history but for
`malloc`: what has become of an entry. `hist` is what the clients see.

Key definitions: `Loc`, `Status`, `Heap`, `St`, `stepThread`, `sys`, `Holds`.
-/
import Perfbook.Conc.Linked
import Perfbook.Conc.Sys
import Perfbook.Defer.Routes

namespace Perfbook
namespace RouteSeqlock

open Conc Routes

/-- What is linked: a `struct route_entry`, or `route_list`. -/
inductive Cell
  | head
  | entry (a : ℕ)
deriving DecidableEq

/-- The function that has called `write_seqlock`. -/
inductive Update
  | add (addr : ℕ) (iface : ℤ) (rep : Cell)
  | del (addr : ℕ)
  | clear
deriving DecidableEq

/-- What comes after `write_sequnlock`. -/
inductive After
  /-- `rep->re_freed = 1` -/
  | mark (rep : Cell)
  /-- `return v` -/
  | ret (v : ℤ)
deriving DecidableEq

/-- Where a thread is. -/
inductive Loc
  | idle
  /-- `route_lookup(addr)`, before `read_seqbegin` reads `seq` -/
  | begin_ (addr : ℕ)
  /-- with `s`, before `rep = READ_ONCE(*repp)` -/
  | load (addr s : ℕ) (repp : Cell)
  /-- before `rep->addr != addr` -/
  | readAddr (addr s : ℕ) (rep : Cell)
  /-- before `READ_ONCE(rep->re_freed)` -/
  | readFreed (addr s : ℕ) (rep : Cell)
  /-- before `ret = rep->iface` -/
  | readIface (addr s : ℕ) (rep : Cell)
  /-- before `read_seqretry` reads `seq` -/
  | retry (addr s : ℕ) (ret : ℤ)
  /-- before `return ret` -/
  | readRet (ret : ℤ)
  /-- after `abort()` -/
  | aborted (addr s : ℕ)
  /-- `route_add`, when `malloc` has returned `NULL` -/
  | noMem (addr : ℕ) (iface : ℤ)
  /-- `write_seqlock`, before `spin_lock` -/
  | lock (k : Update)
  /-- before `READ_ONCE(slp->seq)` -/
  | lockRead (k : Update)
  /-- before `WRITE_ONCE(slp->seq, s + 1)` -/
  | lockStore (k : Update) (s : ℕ)
  /-- `route_add`, before reading `route_list.re_next` -/
  | addLoad (addr : ℕ) (iface : ℤ) (rep : Cell)
  /-- before `rep->re_next = x` -/
  | addStore (addr : ℕ) (iface : ℤ) (rep : Cell) (x : Option Cell)
  /-- before `route_list.re_next = rep` -/
  | addLink (addr : ℕ) (iface : ℤ) (rep : Cell)
  /-- `route_del`, before `rep = *repp` -/
  | delLoad (addr : ℕ) (repp : Cell)
  /-- before `rep->addr == addr` -/
  | delAddr (addr : ℕ) (repp rep : Cell)
  /-- before reading `rep->re_next` -/
  | delRead (addr : ℕ) (repp rep : Cell)
  /-- before `*repp = x` -/
  | unlink (addr : ℕ) (repp rep : Cell) (x : Option Cell)
  /-- `route_clear`, before `rep = route_list.re_next` -/
  | clearLoad
  /-- before `WRITE_ONCE(route_list.re_next, NULL)` -/
  | clearStore (rep : Option Cell)
  /-- before the test of `rep != NULL`, and `rep1 = rep->re_next` -/
  | clearLoop (rep : Option Cell)
  /-- before `free(rep)` -/
  | clearFree (rep : Cell) (rep1 : Option Cell)
  /-- `write_sequnlock`, before `READ_ONCE(slp->seq)` -/
  | unlockRead (k : After)
  /-- before `WRITE_ONCE(slp->seq, s + 1)` -/
  | unlockStore (k : After) (s : ℕ)
  /-- before `spin_unlock` -/
  | unlock (k : After)
  /-- `route_del`, before `rep->re_freed = 1` -/
  | mark (rep : Cell)
  /-- before `free(rep)` -/
  | free (rep : Cell)
  /-- before `return v` in an update -/
  | ret (v : ℤ)
deriving DecidableEq

/-- What has become of an entry. -/
inductive Status (n : ℕ)
  /-- not allocated, or freed -/
  | unused
  /-- with the `route_add` of `t`, not added yet -/
  | own (t : Fin n)
  /-- added, and not removed -/
  | table
  /-- removed by `t` -/
  | removed (t : Fin n)
deriving DecidableEq

/-- The entries. -/
structure Heap (n : ℕ) where
  next : Cell → Option Cell
  addr : Cell → ℕ
  iface : Cell → ℤ
  freed : Cell → Bool
  status : Cell → Status n

structure St (n : ℕ) extends Heap n where
  seq : ℕ
  lock : Option (Fin n)
  loc : Fin n → Loc
  hist : List (Ev (Fin n) RouteOp ℤ)

/-- A thread starts a call or takes its next step, or memory that is not in use is written. -/
inductive Act (n : ℕ)
  | lookup (t : Fin n) (addr : ℕ)
  /-- with the entry that `malloc` returns, if there is one -/
  | add (t : Fin n) (addr : ℕ) (iface : ℤ) (a : Option ℕ)
  | del (t : Fin n) (addr : ℕ)
  | clear (t : Fin n)
  | step (t : Fin n)
  | write (a : ℕ) (next : Option Cell) (addr : ℕ) (iface : ℤ) (freed : Bool)

variable {n : ℕ}

namespace Heap

def setStatus (m : Heap n) (c : Cell) (x : Status n) : Heap n := { m with status := Function.update m.status c x }

/-- A store to a link. -/
def store (m : Heap n) (p : Cell) (x : Option Cell) : Heap n := { m with next := Function.update m.next p x }

/-- All entries of the table are removed. -/
def removeAll (m : Heap n) (t : Fin n) : Heap n :=
  { m with status := fun c => if m.status c = .table then .removed t else m.status c }

/-- `rep->re_freed = 1`. -/
def mark (m : Heap n) (rep : Cell) : Heap n := { m with freed := Function.update m.freed rep true }

/-- Everything in an entry is overwritten. -/
def fill (m : Heap n) (c : Cell) (next : Option Cell) (addr : ℕ) (iface : ℤ) (freed : Bool) : Heap n :=
  { m with
    next := Function.update m.next c next
    addr := Function.update m.addr c addr
    iface := Function.update m.iface c iface
    freed := Function.update m.freed c freed }

/-- `malloc`, and what `route_add` stores before it takes the lock. -/
def alloc (m : Heap n) (t : Fin n) (rep : Cell) (addr : ℕ) (iface : ℤ) : Heap n :=
  (m.fill rep (m.next rep) addr iface false).setStatus rep (.own t)

/-- The table that a list of entries is. -/
def rows (m : Heap n) (q : List Cell) : List (ℕ × ℤ) := q.map fun c => (m.addr c, m.iface c)

end Heap

namespace St

/-- The thread goes to another place. -/
def goto (s : St n) (t : Fin n) (l : Loc) : St n := { s with loc := Function.update s.loc t l }

def setHeap (s : St n) (m : Heap n) : St n := { s with toHeap := m }

def call (s : St n) (t : Fin n) (o : RouteOp) (l : Loc) : St n :=
  { s with hist := s.hist ++ [Ev.call t o] }.goto t l

def return' (s : St n) (t : Fin n) (v : ℤ) : St n := { s with hist := s.hist ++ [Ev.ret t v] }.goto t .idle

end St

/-- Where an update goes after `write_seqlock`. -/
def Update.loc : Update → Loc
  | .add addr iface rep => .addLoad addr iface rep
  | .del addr => .delLoad addr .head
  | .clear => .clearLoad

/-- Where an update goes after `write_sequnlock`. -/
def After.loc : After → Loc
  | .mark rep => .mark rep
  | .ret v => .ret v

/-- The next step of thread `t`. -/
def stepThread (t : Fin n) (s : St n) : Option (St n) :=
  match s.loc t with
  | .idle | .aborted _ _ => none
  -- `s & ~0x1UL`
  | .begin_ addr => some (s.goto t (.load addr (s.seq - s.seq % 2) .head))
  | .load addr k repp =>
    match s.next repp with
    | none => some (s.goto t (.retry addr k ULONG_MAX))
    | some rep => some (s.goto t (.readAddr addr k rep))
  | .readAddr addr k rep => some (s.goto t (if s.addr rep = addr then .readFreed addr k rep else .load addr k rep))
  | .readFreed addr k rep => some (s.goto t (if s.freed rep then .aborted addr k else .readIface addr k rep))
  | .readIface addr k rep => some (s.goto t (.retry addr k (s.iface rep)))
  | .retry addr k ret => some (s.goto t (if s.seq ≠ k then .begin_ addr else .readRet ret))
  | .readRet ret => some (s.return' t ret)
  | .noMem _ _ => some (s.goto t (.ret (-ENOMEM)))
  | .lock k => if s.lock = none then some ({ s with lock := some t }.goto t (.lockRead k)) else none
  | .lockRead k => some (s.goto t (.lockStore k s.seq))
  | .lockStore k q => some ({ s with seq := q + 1 }.goto t k.loc)
  | .addLoad addr iface rep => some (s.goto t (.addStore addr iface rep (s.next .head)))
  | .addStore addr iface rep x => some ((s.setHeap (s.toHeap.store rep x)).goto t (.addLink addr iface rep))
  | .addLink _ _ rep =>
    some ((s.setHeap ((s.toHeap.store .head (some rep)).setStatus rep .table)).goto t (.unlockRead (.ret 0)))
  | .delLoad addr repp =>
    match s.next repp with
    | none => some (s.goto t (.unlockRead (.ret (-ENOENT))))
    | some rep => some (s.goto t (.delAddr addr repp rep))
  | .delAddr addr repp rep =>
    some (s.goto t (if s.addr rep = addr then .delRead addr repp rep else .delLoad addr rep))
  | .delRead addr repp rep => some (s.goto t (.unlink addr repp rep (s.next rep)))
  | .unlink _ repp rep x =>
    some ((s.setHeap ((s.toHeap.store repp x).setStatus rep (.removed t))).goto t (.unlockRead (.mark rep)))
  | .clearLoad => some (s.goto t (.clearStore (s.next .head)))
  | .clearStore rep => some ((s.setHeap ((s.toHeap.store .head none).removeAll t)).goto t (.clearLoop rep))
  | .clearLoop none => some (s.goto t (.unlockRead (.ret 0)))
  | .clearLoop (some rep) => some (s.goto t (.clearFree rep (s.next rep)))
  | .clearFree rep rep1 => some ((s.setHeap (s.toHeap.setStatus rep .unused)).goto t (.clearLoop rep1))
  | .unlockRead k => some (s.goto t (.unlockStore k s.seq))
  | .unlockStore k q => some ({ s with seq := q + 1 }.goto t (.unlock k))
  | .unlock k => some ({ s with lock := none }.goto t k.loc)
  | .mark rep => some ((s.setHeap (s.toHeap.mark rep)).goto t (.free rep))
  | .free rep => some ((s.setHeap (s.toHeap.setStatus rep .unused)).goto t (.ret 0))
  | .ret v => some (s.return' t v)

/-- What an action does. -/
def next : Act n → St n → Option (St n)
  | .lookup t addr, s => if s.loc t = .idle then some (s.call t (.lookup addr) (.begin_ addr)) else none
  | .add t addr iface none, s =>
    if s.loc t = .idle then some (s.call t (.add addr iface false) (.noMem addr iface)) else none
  | .add t addr iface (some a), s =>
    if s.loc t = .idle ∧ s.status (.entry a) = .unused then
      some ((s.setHeap (s.toHeap.alloc t (.entry a) addr iface)).call t (.add addr iface true)
        (.lock (.add addr iface (.entry a))))
    else none
  | .del t addr, s => if s.loc t = .idle then some (s.call t (.del addr) (.lock (.del addr))) else none
  | .clear t, s => if s.loc t = .idle then some (s.call t .clear (.lock .clear)) else none
  | .step t, s => stepThread t s
  | .write a next addr iface freed, s =>
    if s.status (.entry a) = .unused then some (s.setHeap (s.toHeap.fill (.entry a) next addr iface freed)) else none

/-- An empty table, and no call runs. -/
structure Init (s : St n) : Prop where
  seq : s.seq = 0
  lock : s.lock = none
  routeList : s.next .head = none
  status : ∀ c, s.status c = .unused
  loc : ∀ t, s.loc t = .idle
  hist : s.hist = []

def sys (n : ℕ) : Sys (St n) (Act n) := ⟨Init, next⟩

/-! ### What is promised -/

/-- The operation of an update. -/
def Update.op : Update → RouteOp
  | .add addr iface _ => .add addr iface true
  | .del addr => .del addr
  | .clear => .clear

/-- What an update returns in the end. -/
def After.res : After → ℤ
  | .mark _ => 0
  | .ret v => v

/-- How far the call is. -/
def pend : Loc → Pend RouteOp ℤ
  | .idle => .idle
  | .begin_ addr | .load addr _ _ | .readAddr addr _ _ | .readFreed addr _ _ | .readIface addr _ _ | .retry addr _ _
  | .aborted addr _ => .called (.lookup addr)
  | .readRet ret => .done ret
  | .noMem addr iface => .called (.add addr iface false)
  | .lock k | .lockRead k | .lockStore k _ => .called k.op
  | .addLoad addr iface _ | .addStore addr iface _ _ | .addLink addr iface _ => .called (.add addr iface true)
  | .delLoad addr _ | .delAddr addr _ _ | .delRead addr _ _ | .unlink addr _ _ _ => .called (.del addr)
  | .clearLoad | .clearStore _ => .called .clear
  | .clearLoop _ | .clearFree _ _ | .mark _ | .free _ => .done 0
  | .unlockRead k | .unlockStore k _ | .unlock k => .done k.res
  | .ret v => .done v

/-- The entry that an update is going to access. -/
def uses : Loc → Option Cell
  | .addStore _ _ rep _ | .addLink _ _ rep | .delLoad _ rep | .delAddr _ _ rep | .delRead _ _ rep | .unlink _ rep _ _
  | .clearLoop (some rep) | .clearFree rep _ | .mark rep | .free rep => some rep
  | _ => none

/-- **What is promised.** -/
structure Holds (s : St n) : Prop where
  /-- The history is one of the table, and the list is the table as it is now. -/
  lin : ∃ q S, Linked s.next .head q ∧ q.Nodup ∧ (∀ c, c ∈ q ↔ s.status c = .table) ∧
    Lin routes s.hist S (fun t => pend (s.loc t)) (s.rows q)
  /-- No update comes to an entry that was freed. -/
  uses : ∀ t a, uses (s.loc t) = some (.entry a) → s.status (.entry a) ≠ .unused
  /-- A lookup aborts only if an update was in progress when it read `seq`, or has begun since. -/
  aborts : ∀ t addr k, s.loc t = .aborted addr k → k < s.seq

end RouteSeqlock
end Perfbook
