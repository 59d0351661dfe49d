/-
# `datastruct/hash/hash_bkt_rcu.c`: a hash table with a lock for each bucket, and RCU for lookups

The calls are those of `hashtorture.h`: `zoo_lookup` looks a key up in a read-side critical
section, `zoo_add` adds a new element under the lock of its bucket if its key is not there, and
`zoo_del` deletes an element of the thread's own, which is freed after a grace period. `malloc`
returns any element that is not in use. Each access to shared memory is a step, and so is taking
and releasing a lock. `cds_list_add_rcu` and `cds_list_del_rcu` are one step: lookups follow
`next` only, and each writes it once in a cell that they can reach.

`ht_cmp` compares the key of the element, and each key has one hash. `call_rcu` waits for the
read-side critical sections that run when it is called: `wait a u` says that the one of `u` has
not ended. `status` is history but for `malloc` and `call_rcu`: what has become of an element.
`hist` is what the clients see.

The sequential object is a map from keys to elements.

Key definitions: `TableOp`, `table`, `Hashtab`, `Loc`, `Status`, `Heap`, `St`, `stepThread`, `sys`, `Holds`.
-/
import Perfbook.Conc.Lin
import Perfbook.Conc.Ring
import Perfbook.Conc.Sys

namespace Perfbook
namespace Hash
namespace BktRcu

open Conc

/-! ### The map -/

inductive TableOp (K : Type)
  | lookup (key : K)
  | add (key : K) (e : ℕ)
  | del (key : K)

inductive TableRes
  /-- what `hashtab_lookup` returned -/
  | found (r : Option ℕ)
  | done
  /-- the key was there -/
  | bug
deriving DecidableEq

/-- The map, of the elements by their keys. -/
def table (K : Type) [DecidableEq K] : Obj (K → Option ℕ) (TableOp K) TableRes where
  init _ := none
  apply
    | .lookup key, d => (d, .found (d key))
    | .add key e, d => if d key = none then (Function.update d key (some e), .done) else (d, .bug)
    | .del key, d => (Function.update d key none, .done)

/-! ### The program -/

/-- `struct hashtab`, less its buckets, and the hash of a key. -/
structure Hashtab (K : Type) where
  nbuckets : ℕ
  pos : 0 < nbuckets
  hash : K → ℕ

/-- `HASH2BKT`. -/
def Hashtab.bkt {K : Type} (htp : Hashtab K) (key : K) : ℕ := htp.hash key % htp.nbuckets

/-- What is linked: `htb_head` of a bucket, or `hte_next` of an element. -/
inductive Cell
  | head (b : ℕ)
  | elem (e : ℕ)
deriving DecidableEq

/-- Where a thread is. -/
inductive Loc (K : Type)
  | idle
  /-- `zoo_lookup(key)`, before `hashtab_lock_lookup` -/
  | readLock (key : K)
  /-- `hashtab_lookup`, before `rcu_dereference(c->next)` -/
  | readNext (key : K) (c : Cell)
  /-- before `htep->hte_hash != hash` -/
  | readHash (key : K) (htep : ℕ)
  /-- before `ht_cmp(htep, key)` -/
  | readKey (key : K) (htep : ℕ)
  /-- `zoo_lookup`, before `check_hash()` of its `BUG_ON` -/
  | readCheck (key : K) (htep : ℕ)
  /-- before `strncmp(zhep->name, key)` of its `BUG_ON` -/
  | readName (key : K) (htep : ℕ)
  /-- before `hashtab_unlock_lookup` -/
  | readUnlock (key : K) (r : Option ℕ)
  /-- before the return -/
  | readRet (key : K) (r : Option ℕ)
  /-- after `BUG_ON` in `zoo_lookup`, or at the head of another bucket -/
  | aborted
  /-- `zoo_add(zhep)`, before `hashtab_lock_mod` -/
  | addLock (key : K) (zhep : ℕ)
  /-- `hashtab_lookup`, before reading `c->next` -/
  | addNext (key : K) (zhep : ℕ) (c : Cell)
  /-- before `htep->hte_hash != hash` -/
  | addHash (key : K) (zhep htep : ℕ)
  /-- before `ht_cmp(htep, key)` -/
  | addKey (key : K) (zhep htep : ℕ)
  /-- after `BUG_ON` in `zoo_add` -/
  | addBug (key : K)
  /-- `hashtab_add`, before `htep->hte_hash = hash` -/
  | addStore (key : K) (zhep : ℕ)
  /-- before `cds_list_add_rcu` -/
  | addLink (key : K) (zhep : ℕ)
  /-- before `hashtab_unlock_mod` -/
  | addUnlock (key : K)
  /-- `zoo_del(zhep)`, before `hashtab_lock_mod` -/
  | delLock (key : K) (zhep : ℕ)
  /-- `hashtab_del`, before `cds_list_del_rcu` -/
  | delUnlink (key : K) (zhep : ℕ)
  /-- before `hashtab_unlock_mod` -/
  | delUnlock (key : K) (zhep : ℕ)
  /-- before `defer_del` -/
  | deferDel (zhep : ℕ)
  /-- before the return of `zoo_add` and `zoo_del` -/
  | ret
deriving DecidableEq

/-- What has become of an element. -/
inductive Status (n : ℕ)
  /-- not allocated, or freed -/
  | unused
  /-- with the `zoo_add` of `t`, not added yet -/
  | own (t : Fin n)
  /-- added by `t`, and not deleted -/
  | table (t : Fin n)
  /-- deleted by `t` -/
  | removed (t : Fin n)
  /-- passed to `call_rcu` -/
  | queued
deriving DecidableEq

/-- The elements. -/
structure Heap (n : ℕ) (K : Type) where
  links : Links Cell
  /-- `zhe_e.hte_hash` -/
  hteHash : ℕ → ℕ
  /-- `name` -/
  key : ℕ → K
  status : ℕ → Status n
  wait : ℕ → Fin n → Bool

structure St (n : ℕ) (K : Type) extends Heap n K where
  /-- `htb_lock` -/
  lock : ℕ → Option (Fin n)
  loc : Fin n → Loc K
  hist : List (Ev (Fin n) (TableOp K) TableRes)

/-- A thread starts a call or takes its next step, or the callback of an element does. -/
inductive Act (n : ℕ) (K : Type)
  | lookup (t : Fin n) (key : K)
  /-- with the element that `malloc` returned -/
  | add (t : Fin n) (key : K) (zhep : ℕ)
  | del (t : Fin n) (zhep : ℕ)
  | step (t : Fin n)
  | cb (zhep : ℕ)

/-- The thread is in a read-side critical section. -/
def Loc.reads {K : Type} : Loc K → Bool
  | .readNext _ _ | .readHash _ _ | .readKey _ _ | .readCheck _ _ | .readName _ _ | .readUnlock _ _ => true
  | _ => false

variable {n : ℕ} {K : Type}

namespace Heap

def setStatus (m : Heap n K) (e : ℕ) (x : Status n) : Heap n K := { m with status := Function.update m.status e x }

/-- `malloc`, and `strcpy` to the name. -/
def alloc (m : Heap n K) (t : Fin n) (e : ℕ) (key : K) : Heap n K :=
  { m.setStatus e (.own t) with key := Function.update m.key e key }

/-- `htep->hte_hash = hash`. -/
def setHash (m : Heap n K) (e hash : ℕ) : Heap n K := { m with hteHash := Function.update m.hteHash e hash }

/-- `cds_list_add_rcu`. -/
def link (m : Heap n K) (t : Fin n) (b e : ℕ) : Heap n K :=
  { m.setStatus e (.table t) with links := m.links.add (.elem e) (.head b) }

/-- `cds_list_del_rcu`. -/
def unlink (m : Heap n K) (t : Fin n) (e : ℕ) : Heap n K :=
  { m.setStatus e (.removed t) with links := m.links.del (.elem e) }

/-- `call_rcu`. -/
def queue (m : Heap n K) (e : ℕ) (reads : Fin n → Bool) : Heap n K :=
  { m.setStatus e .queued with wait := Function.update m.wait e reads }

/-- `rcu_read_unlock()`. -/
def unlock (m : Heap n K) (t : Fin n) : Heap n K :=
  { m with wait := fun a => Function.update (m.wait a) t false }

end Heap

namespace St

/-- The thread goes to another place. -/
def goto (s : St n K) (t : Fin n) (l : Loc K) : St n K := { s with loc := Function.update s.loc t l }

def setHeap (s : St n K) (m : Heap n K) : St n K := { s with toHeap := m }

def call (s : St n K) (t : Fin n) (o : TableOp K) (l : Loc K) : St n K :=
  { s with hist := s.hist ++ [Ev.call t o] }.goto t l

def return' (s : St n K) (t : Fin n) (r : TableRes) : St n K := { s with hist := s.hist ++ [Ev.ret t r] }.goto t .idle

/-- `hashtab_lock_mod`. -/
def lockMod (s : St n K) (t : Fin n) (b : ℕ) (l : Loc K) : Option (St n K) :=
  if s.lock b = none then some ({ s with lock := Function.update s.lock b (some t) }.goto t l) else none

/-- `hashtab_unlock_mod`. -/
def unlockMod (s : St n K) (t : Fin n) (b : ℕ) (l : Loc K) : St n K :=
  { s with lock := Function.update s.lock b none }.goto t l

end St

/-- The loop of `hashtab_lookup` over bucket `b` comes to `x`. -/
def walk (b : ℕ) (x : Cell) (done : Loc K) (entry : ℕ → Loc K) : Loc K :=
  match x with
  | .head b' => if b' = b then done else .aborted
  | .elem htep => entry htep

variable [DecidableEq K] (htp : Hashtab K)

/-- The next step of thread `t`. -/
def stepThread (t : Fin n) (s : St n K) : Option (St n K) :=
  match s.loc t with
  | .idle | .aborted | .addBug _ => none
  | .readLock key => some (s.goto t (.readNext key (.head (htp.bkt key))))
  | .readNext key c =>
    some (s.goto t (walk (htp.bkt key) (s.links.next c) (.readUnlock key none) (.readHash key)))
  | .readHash key htep =>
    some (s.goto t (if s.hteHash htep = htp.hash key then .readKey key htep else .readNext key (.elem htep)))
  | .readKey key htep =>
    some (s.goto t (if s.key htep = key then .readCheck key htep else .readNext key (.elem htep)))
  | .readCheck key htep => some (s.goto t (if s.hteHash htep = htp.hash key then .readName key htep else .aborted))
  | .readName key htep => some (s.goto t (if s.key htep = key then .readUnlock key (some htep) else .aborted))
  | .readUnlock key r => some ((s.setHeap (s.toHeap.unlock t)).goto t (.readRet key r))
  | .readRet _ r => some (s.return' t (.found r))
  | .addLock key zhep => s.lockMod t (htp.bkt key) (.addNext key zhep (.head (htp.bkt key)))
  | .addNext key zhep c =>
    some (s.goto t (walk (htp.bkt key) (s.links.next c) (.addStore key zhep) (.addHash key zhep)))
  | .addHash key zhep htep =>
    some (s.goto t (if s.hteHash htep = htp.hash key then .addKey key zhep htep else .addNext key zhep (.elem htep)))
  | .addKey key zhep htep =>
    some (s.goto t (if s.key htep = key then .addBug key else .addNext key zhep (.elem htep)))
  | .addStore key zhep => some ((s.setHeap (s.toHeap.setHash zhep (htp.hash key))).goto t (.addLink key zhep))
  | .addLink key zhep => some ((s.setHeap (s.toHeap.link t (htp.bkt key) zhep)).goto t (.addUnlock key))
  | .addUnlock key => some (s.unlockMod t (htp.bkt key) .ret)
  | .delLock key zhep => s.lockMod t (htp.bkt key) (.delUnlink key zhep)
  | .delUnlink key zhep => some ((s.setHeap (s.toHeap.unlink t zhep)).goto t (.delUnlock key zhep))
  | .delUnlock key zhep => some (s.unlockMod t (htp.bkt key) (.deferDel zhep))
  | .deferDel zhep => some ((s.setHeap (s.toHeap.queue zhep fun u => (s.loc u).reads)).goto t .ret)
  | .ret => some (s.return' t .done)

/-- `defer_del_free`, after a grace period. -/
def stepCb (zhep : ℕ) (s : St n K) : Option (St n K) :=
  if s.status zhep = .queued ∧ ∀ u, s.wait zhep u = false then some (s.setHeap (s.toHeap.setStatus zhep .unused))
  else none

/-- What an action does. A thread deletes what it has added. -/
def next : Act n K → St n K → Option (St n K)
  | .lookup t key, s => if s.loc t = .idle then some (s.call t (.lookup key) (.readLock key)) else none
  | .add t key zhep, s =>
    if s.loc t = .idle ∧ s.status zhep = .unused then
      some ((s.setHeap (s.toHeap.alloc t zhep key)).call t (.add key zhep) (.addLock key zhep))
    else none
  | .del t zhep, s =>
    if s.loc t = .idle ∧ s.status zhep = .table t then
      some (s.call t (.del (s.key zhep)) (.delLock (s.key zhep) zhep))
    else none
  | .step t, s => stepThread htp t s
  | .cb zhep, s => stepCb zhep s

/-- An empty table, and no call runs. -/
structure Init (s : St n K) : Prop where
  next : ∀ b, s.links.next (.head b) = .head b
  prev : ∀ b, s.links.prev (.head b) = .head b
  status : ∀ a, s.status a = .unused
  lock : ∀ b, s.lock b = none
  loc : ∀ t, s.loc t = .idle
  hist : s.hist = []

def sys (n : ℕ) : Sys (St n K) (Act n K) := ⟨Init, next htp⟩

/-! ### What is promised -/

/-- How far the call is. -/
def pend : Loc K → Pend (TableOp K) TableRes
  | .idle | .aborted => .idle
  | .readLock key | .readNext key _ | .readHash key _ | .readKey key _ | .readCheck key _ | .readName key _ | .readUnlock key _
  | .readRet key _ => .called (.lookup key)
  | .addLock key zhep | .addNext key zhep _ | .addHash key zhep _ | .addKey key zhep _ | .addStore key zhep
  | .addLink key zhep => .called (.add key zhep)
  | .addBug _ => .done .bug
  | .delLock key _ | .delUnlink key _ => .called (.del key)
  | .addUnlock _ | .delUnlock _ _ | .deferDel _ | .ret => .done .done

/-- The element that a call is going to access. -/
def uses : Loc K → Option ℕ
  | .readNext _ (.elem htep) | .readHash _ htep | .readKey _ htep | .readCheck _ htep | .readName _ htep => some htep
  | .addNext _ _ (.elem htep) | .addHash _ _ htep | .addKey _ _ htep => some htep
  | .addStore _ zhep | .addLink _ zhep | .delUnlink _ zhep | .deferDel zhep => some zhep
  | _ => none

/-- The element of a key. -/
def Heap.lookup (m : Heap n K) (live : ℕ → List ℕ) (key : K) : Option ℕ :=
  (live (htp.bkt key)).find? fun a => m.key a == key

/-- **What is promised.** -/
structure Holds (s : St n K) : Prop where
  /-- The history is one of the map, and the buckets have its elements, each in the bucket of its key. -/
  lin : ∃ (live : ℕ → List ℕ) (S : _), (∀ b, Ring Cell.elem (.head b) s.links (live b)) ∧
    (∀ b a, a ∈ live b ↔ (∃ t, s.status a = .table t) ∧ htp.bkt (s.key a) = b) ∧
    Lin (table K) s.hist S (fun t => pend (s.loc t)) (s.toHeap.lookup htp live)
  /-- No call comes to an element that was freed. -/
  uses : ∀ t a, uses (s.loc t) = some a → s.status a ≠ .unused
  /-- What a lookup has found has the key and its hash. -/
  noAbort : ∀ t, s.loc t ≠ .aborted

end BktRcu
end Hash
end Perfbook
