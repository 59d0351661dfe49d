/-
# `defer/route_hazptr.c`: a routing table with hazard pointers

`route_lookup` walks the list: `hp_try_record` reads a link, puts what it read
into the thread's hazard pointer, and reads the link again. All of a thread's
hazard pointers are `my_hazptr[0]`, since `offset` stays 0: recording the next
entry takes the protection from the entry whose link is then read again.
`route_del` unlinks an entry, poisons its link and retires it; `hazptr_scan`
reads the hazard pointers one by one, and frees the retired entries that it did
not see. Each access to shared memory is a step.

A `struct route_entry **` is named here by the entry whose `re_next` it points
to (`head` is `route_list`), and `malloc` returns an entry that is not in use.
Taking and releasing `routelock` are steps; `rcount` is the length of `rlist`;
that `bsearch` finds what is in `plist` is taken for granted, as is the low bit
of the hazard pointers being 0.

`live` is history: no step of the code reads it.

Key definitions: `Ptr`, `Loc`, `St`, `stepThread`, `sys`, `Guarded`, `Safe`.
-/
import Perfbook.Conc.Sys
import Perfbook.Hazptr.Scan

namespace Perfbook
namespace Hazptr
namespace Route

open Conc

/-- A `struct route_entry *`. -/
inductive Ptr
  | null
  /-- `HAZPTR_POISON` -/
  | poison
  /-- `&route_list` -/
  | head
  | entry (a : ℕ)
deriving DecidableEq

/-- Where a thread is, with the locals it still needs. -/
inductive Loc
  | idle
  /-- `route_lookup(addr)`, `hp_try_record(p, hp)`: before `tmp = READ_ONCE(*p)` -/
  | load (addr : Word) (p : Ptr)
  /-- before `WRITE_ONCE(hp->p, tmp)` -/
  | record (addr : Word) (p tmp : Ptr)
  /-- before `tmp == READ_ONCE(*p)` -/
  | check (addr : Word) (p tmp : Ptr)
  /-- before `rep->addr != addr` -/
  | readAddr (addr : Word) (rep : Ptr)
  /-- before `READ_ONCE(rep->re_freed)` -/
  | readFreed (rep : Ptr)
  /-- before `return rep->iface` -/
  | readIface (rep : Ptr)
  /-- after `abort()` -/
  | aborted
  /-- `route_add`, before `spin_lock(&routelock)` -/
  | addLock (rep : Ptr)
  /-- before reading `route_list.re_next` -/
  | addLoad (rep : Ptr)
  /-- before `rep->re_next = x` -/
  | addStore (rep x : Ptr)
  /-- before `route_list.re_next = rep` -/
  | addLink (rep : Ptr)
  | addUnlock
  /-- `route_del(addr)`, before `spin_lock(&routelock)` -/
  | delLock (addr : Word)
  /-- before `rep = *repp` -/
  | delLoad (addr : Word) (p : Ptr)
  /-- before `rep->addr == addr` -/
  | delAddr (addr : Word) (p rep : Ptr)
  /-- before reading `rep->re_next` -/
  | delNext (p rep : Ptr)
  /-- before `*repp = x` -/
  | unlink (p rep x : Ptr)
  /-- before `rep->re_next = HAZPTR_POISON` -/
  | poison (rep : Ptr)
  /-- before `spin_unlock(&routelock)`, with the entry that was deleted -/
  | delUnlock (rep : Option Ptr)
  /-- before `hazptr_free_later(&rep->hh)` -/
  | freeLater (rep : Ptr)
  /-- `hazptr_scan`, before `READ_ONCE(HP[i].p)` -/
  | scan (i : ℕ) (plist : List Ptr)
  /-- before the next turn of the loop over `tmplist` -/
  | sweep (plist tmplist : List Ptr)
deriving DecidableEq

structure St (n : ℕ) where
  reNext : Ptr → Ptr
  addr : Ptr → Word
  iface : Ptr → Word
  reFreed : Ptr → Bool
  HP : ℕ → Ptr
  routelock : Option (Fin n)
  rlist : Fin n → List Ptr
  loc : Fin n → Loc
  /-- what the thread's last `route_lookup` returned -/
  ret : Fin n → Word
  /-- allocated, and not passed to `hazptr_free` -/
  live : Ptr → Bool

/-- What the scheduler can do: start a call, or let a thread take its next step. -/
inductive Act (n : ℕ)
  | lookup (t : Fin n) (addr : Word)
  /-- with the entry that `malloc` returns -/
  | add (t : Fin n) (addr iface : Word) (a : ℕ)
  | del (t : Fin n) (addr : Word)
  | scan (t : Fin n)
  | step (t : Fin n)

variable {n : ℕ}

/-- `my_hazptr[offset]`, as an index of `HP`. -/
def myHazptr (t : Fin n) (offset : ℕ) : ℕ := K * t + offset

namespace St

/-- The thread goes to another place. -/
def goto (s : St n) (t : Fin n) (l : Loc) : St n := { s with loc := Function.update s.loc t l }

/-- A store to `re_next`. -/
def store (s : St n) (p x : Ptr) : St n := { s with reNext := Function.update s.reNext p x }

def setHP (s : St n) (i : ℕ) (x : Ptr) : St n := { s with HP := Function.update s.HP i x }

def setRlist (s : St n) (t : Fin n) (l : List Ptr) : St n :=
  { s with rlist := Function.update s.rlist t l }

def answer (s : St n) (t : Fin n) (v : Word) : St n :=
  { s with ret := Function.update s.ret t v }.goto t .idle

/-- `malloc` and what `route_add` stores before it takes the lock. -/
def alloc (s : St n) (rep : Ptr) (addr iface : Word) : St n :=
  { s with
    live := Function.update s.live rep true
    addr := Function.update s.addr rep addr
    iface := Function.update s.iface rep iface
    reFreed := Function.update s.reFreed rep false }

/-- `hazptr_free`. -/
def free (s : St n) (rep : Ptr) : St n :=
  { s with
    live := Function.update s.live rep false
    reFreed := Function.update s.reFreed rep true }

end St

/-- `ULONG_MAX`. -/
def ulongMax : Word := BitVec.allOnes 64

/-- The next step of thread `t`. -/
def stepThread (t : Fin n) (s : St n) : Option (St n) :=
  match s.loc t with
  | .idle | .aborted => none
  | .load addr p =>
    match s.reNext p with
    | .null => some (s.answer t ulongMax)
    | .poison => some (s.goto t (.load addr .head))
    | tmp => some (s.goto t (.record addr p tmp))
  | .record addr p tmp => some ((s.setHP (myHazptr t 0) tmp).goto t (.check addr p tmp))
  | .check addr p tmp =>
    some (s.goto t (if s.reNext p = tmp then .readAddr addr tmp else .load addr .head))
  | .readAddr addr rep =>
    some (s.goto t (if s.addr rep = addr then .readFreed rep else .load addr rep))
  | .readFreed rep => some (s.goto t (if s.reFreed rep then .aborted else .readIface rep))
  | .readIface rep => some (s.answer t (s.iface rep))
  | .addLock rep =>
    match s.routelock with
    | none => some ({ s with routelock := some t }.goto t (.addLoad rep))
    | some _ => none
  | .addLoad rep => some (s.goto t (.addStore rep (s.reNext .head)))
  | .addStore rep x => some ((s.store rep x).goto t (.addLink rep))
  | .addLink rep => some ((s.store .head rep).goto t .addUnlock)
  | .addUnlock => some ({ s with routelock := none }.goto t .idle)
  | .delLock addr =>
    match s.routelock with
    | none => some ({ s with routelock := some t }.goto t (.delLoad addr .head))
    | some _ => none
  | .delLoad addr p =>
    match s.reNext p with
    | .null => some (s.goto t (.delUnlock none))
    | rep => some (s.goto t (.delAddr addr p rep))
  | .delAddr addr p rep =>
    some (s.goto t (if s.addr rep = addr then .delNext p rep else .delLoad addr rep))
  | .delNext p rep => some (s.goto t (.unlink p rep (s.reNext rep)))
  | .unlink p rep x => some ((s.store p x).goto t (.poison rep))
  | .poison rep => some ((s.store rep .poison).goto t (.delUnlock (some rep)))
  | .delUnlock none => some ({ s with routelock := none }.goto t .idle)
  | .delUnlock (some rep) => some ({ s with routelock := none }.goto t (.freeLater rep))
  | .freeLater rep =>
    some ((s.setRlist t (rep :: s.rlist t)).goto t
      (if R n ≤ (rep :: s.rlist t).length then .scan 0 [] else .idle))
  | .scan i plist =>
    if i < H n then
      some (s.goto t (.scan (i + 1) (if s.HP i = .null then plist else plist ++ [s.HP i])))
    else some ((s.setRlist t []).goto t (.sweep plist (s.rlist t)))
  | .sweep _ [] => some (s.goto t .idle)
  | .sweep plist (cur :: tmplist) =>
    if cur ∈ plist then
      some ((s.setRlist t (cur :: s.rlist t)).goto t (.sweep plist tmplist))
    else some ((s.free cur).goto t (.sweep plist tmplist))

/-- What an action does. -/
def next : Act n → St n → Option (St n)
  | .lookup t addr, s => if s.loc t = .idle then some (s.goto t (.load addr .head)) else none
  | .add t addr iface a, s =>
    if s.loc t = .idle ∧ s.live (.entry a) = false then
      some ((s.alloc (.entry a) addr iface).goto t (.addLock (.entry a)))
    else none
  | .del t addr, s => if s.loc t = .idle then some (s.goto t (.delLock addr)) else none
  | .scan t, s => if s.loc t = .idle then some (s.goto t (.scan 0 [])) else none
  | .step t, s => stepThread t s

/-- An empty table, and no call runs. -/
structure Init (s : St n) : Prop where
  reNext : s.reNext .head = .null
  reFreed : s.reFreed .head = false
  HP : ∀ i, s.HP i = .null
  routelock : s.routelock = none
  rlist : ∀ t, s.rlist t = []
  loc : ∀ t, s.loc t = .idle
  live : ∀ x, s.live x = true ↔ x = .head

def sys (n : ℕ) : Sys (St n) (Act n) := ⟨Init, next⟩

/-! ### What is claimed -/

/-- The cell that a lookup is going to access. -/
def uses : Loc → Option Ptr
  | .load _ p | .record _ p _ | .check _ p _ => some p
  | .readAddr _ rep | .readFreed rep | .readIface rep => some rep
  | _ => none

/-- The cell whose link `hp_try_record` is going to read for the second time. -/
def rechecks : Loc → Option Ptr
  | .check _ p _ => some p
  | _ => none

/-- A hazard pointer of the thread points to the cell. -/
def St.Covered (s : St n) (t : Fin n) (x : Ptr) : Prop := ∃ o < K, s.HP (myHazptr t o) = x

/-- No lookup is going to access an entry that was freed, or finds one marked as
freed; and the entry is covered, but for the second read of its link. -/
structure Safe (s : St n) : Prop where
  live : ∀ t a, uses (s.loc t) = some (.entry a) → s.live (.entry a) = true
  covered : ∀ t a, uses (s.loc t) = some (.entry a) →
    (s.Covered t (.entry a) ↔ rechecks (s.loc t) ≠ some (.entry a))
  noAbort : ∀ t, s.loc t ≠ .aborted

/-- `hazptr_free(cur)` is not called while the link of `cur` is going to be read again. -/
def GuardedAt (s : St n) : Loc → Prop
  | .sweep plist (cur :: _) => cur ∉ plist → ∀ u, rechecks (s.loc u) ≠ some cur
  | _ => True

def Guarded : Act n → St n → Prop
  | .step t, s => GuardedAt s (s.loc t)
  | _, _ => True

instance (s : St n) : ∀ l, Decidable (GuardedAt s l)
  | .sweep plist (cur :: _) =>
    inferInstanceAs (Decidable (cur ∉ plist → ∀ u, rechecks (s.loc u) ≠ some cur))
  | .sweep _ [] | .idle | .load _ _ | .record _ _ _ | .check _ _ _ | .readAddr _ _ | .readFreed _
  | .readIface _ | .aborted | .addLock _ | .addLoad _ | .addStore _ _ | .addLink _ | .addUnlock
  | .delLock _ | .delLoad _ _ | .delAddr _ _ _ | .delNext _ _ | .unlink _ _ _ | .poison _
  | .delUnlock _ | .freeLater _ | .scan _ _ => .isTrue trivial

instance : ∀ (a : Act n) (s : St n), Decidable (Guarded a s)
  | .step t, s => inferInstanceAs (Decidable (GuardedAt s (s.loc t)))
  | .lookup _ _, _ | .add _ _ _ _, _ | .del _ _, _ | .scan _, _ => .isTrue trivial

end Route
end Hazptr
end Perfbook
