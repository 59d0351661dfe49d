/-
# `datastruct/hash/hash_resize.c`: a hash table that is resized while it is used

An element has two links, and a table instance uses one of them (`ht_idx`).
A resize allocates a new instance that uses the other one, publishes it in
`ht_new`, moves bucket after bucket under the bucket's lock, recording how
far it got in `ht_resize_cur`, and makes the new instance `ht_cur`. Two grace
periods separate this from the updates and lookups that still see the state
before. An update locks the bucket of its key, and also the one in the new
instance if its bucket has been moved already.

A thread runs `hashtab_lookup` in a read-side section, or an update section:
`hashtab_lock_mod`, then `hashtab_lookup` and `hashtab_del` of what was found,
or `hashtab_add`, then `hashtab_unlock_mod`. One more thread resizes. Each load
and store is one step, with two exceptions: what is only seen under the lock
of a bucket (the `prev` pointers, the links of an element not yet linked)
goes with the store that publishes it, so `cds_list_add_rcu` and
`cds_list_del_rcu` are one step each; and the fields of a table that never
change are read with the pointer to it. Threads wait for a lock by not
stepping. A new element, and a new table, is one that was never used before.

`ht_alloc` and `hashtab_resize` count the buckets in an `int`, and `i++` at
`INT_MAX` is undefined. So every table that `ht_alloc` has returned has at
most `INT_MAX` buckets, and a resize to more is no step here (`Contents` has
it as one, after which nothing is known).

`hist` and `out` are the history of the lists: the elements ever linked into a
bucket, newest first, and which of them were unlinked; `home` tells for which
table a link was last used. `abs` are the elements added and not yet deleted,
`dead` those whose `hashtab_del` is through.
For a lookup that runs, `was` and `stay` are the elements that were in the
table at some time and all the time since it began.

Key definitions: `Table`, `Cell`, `LockState`, `Loc`, `Res`, `Heap`, `Core`,
`St`, `stepThread`, `stepResizer`, `next`, `sys`, `Heap.elems`.
-/
import Mathlib.Data.Int.Notation
import Perfbook.Conc.Ring
import Perfbook.Conc.Sys

namespace Perfbook
namespace Hash

open Conc

/-- The largest `int`. -/
def INT_MAX : ℕ := 2147483647

/-- `struct ht`: a table instance, less its buckets. -/
structure Table (K : Type) where
  nbuckets : ℕ
  gethash : K → ℕ
  idx : Bool
  resizeCur : ℤ
  new : Option ℕ

/-- `ht_get_bucket`. -/
def Table.bucket {K : Type} (T : Table K) (k : K) : ℕ := T.gethash k % T.nbuckets

/-- The list heads: of a bucket of a table, and the links of an element. -/
inductive Cell (E : Type)
  | head (g b : ℕ)
  | link (e : E) (i : Bool)
deriving DecidableEq

/-- `struct ht_lock_state`: the buckets locked, and the link of the first one. -/
structure LockState where
  hbp0 : ℕ × ℕ
  idx0 : Bool
  hbp1 : Option (ℕ × ℕ)

/-- An update section: its key, whether it looks the key up and deletes what it
finds, and whether it adds an element (when it found none). -/
structure Op (K : Type) where
  key : K
  look : Bool
  add : Bool

/-- Where a thread is, with the locals it still needs. -/
inductive Loc (E K : Type)
  | idle
  /-- a lookup, before `rcu_read_lock` -/
  | readLock (k : K)
  /-- before reading `ht_cur` -/
  | readCur (k : K)
  /-- before reading the `next` of the bucket -/
  | readHead (k : K) (g b : ℕ)
  /-- at the cell `c` of the list -/
  | readWalk (k : K) (g b : ℕ) (c : Cell E)
  /-- `hashtab_lookup` has returned `x`; before `rcu_read_unlock` -/
  | readUnlock (k : K) (x : Option E)
  /-- an update section, before `rcu_read_lock` -/
  | modLock (op : Op K)
  /-- before reading `ht_cur` -/
  | modCur (op : Op K)
  /-- before `spin_lock` of the bucket -/
  | modBucket (op : Op K) (g b : ℕ)
  /-- before reading `ht_resize_cur` -/
  | modProgress (op : Op K) (g b : ℕ)
  /-- before reading `ht_new` -/
  | modNew (op : Op K) (g b : ℕ)
  /-- before `spin_lock` of the bucket in the new table -/
  | modNewBucket (op : Op K) (g b g' b' : ℕ)
  /-- in `hashtab_lookup`, before reading `ht_cur` -/
  | lookCur (op : Op K) (ls : LockState)
  /-- before reading the `next` of the bucket -/
  | lookHead (op : Op K) (ls : LockState) (g b : ℕ)
  /-- at the cell `c` of the list -/
  | lookWalk (op : Op K) (ls : LockState) (g b : ℕ) (c : Cell E)
  /-- before the first `cds_list_del_rcu` -/
  | del (op : Op K) (ls : LockState) (e : E)
  /-- before the second one -/
  | delNew (op : Op K) (ls : LockState) (e : E)
  /-- before the first `cds_list_add_rcu` -/
  | add (op : Op K) (ls : LockState)
  /-- before the second one -/
  | addNew (op : Op K) (ls : LockState) (e : E)
  /-- before `spin_unlock` of the bucket -/
  | unlockOld (ls : LockState)
  /-- before `spin_unlock` of the bucket in the new table -/
  | unlockNew (x : ℕ × ℕ)
  /-- before `rcu_read_unlock` -/
  | modUnlock

/-- Where the resizer is: `g` is the table it replaces, `g'` the new one. -/
inductive Res (E : Type)
  | idle
  /-- before the store to `ht_new` -/
  | publish (g g' : ℕ)
  /-- before the first `synchronize_rcu` -/
  | sync (g g' : ℕ)
  /-- in it -/
  | wait (g g' : ℕ)
  /-- before `i < htp->ht_nbuckets`, and `spin_lock` of bucket `i` -/
  | bucket (g g' i : ℕ)
  /-- before reading the `next` of the bucket -/
  | first (g g' i : ℕ)
  /-- at the cell `c` of its list -/
  | walk (g g' i : ℕ) (c : Cell E)
  /-- before `spin_lock` of the bucket of `e` in the new table -/
  | newBucket (g g' i : ℕ) (e : E) (b' : ℕ)
  /-- before `cds_list_add_rcu` -/
  | link (g g' i : ℕ) (e : E) (b' : ℕ)
  /-- before `spin_unlock` of the bucket in the new table -/
  | newUnlock (g g' i : ℕ) (e : E) (b' : ℕ)
  /-- before reading the `next` of `e` -/
  | nextElem (g g' i : ℕ) (e : E)
  /-- before the store to `ht_resize_cur` -/
  | setCur (g g' i : ℕ)
  /-- before `spin_unlock` of the bucket -/
  | unlock (g g' i : ℕ)
  /-- before the store to `ht_cur` -/
  | switch (g g' : ℕ)
  /-- before the second `synchronize_rcu` -/
  | sync2 (g g' : ℕ)
  /-- in it -/
  | wait2 (g g' : ℕ)
  /-- before `free(htp)` and `return 0` -/
  | free (g g' : ℕ)

/-- Who holds a lock. -/
inductive Who (n : ℕ)
  | thread (t : Fin n)
  | resizer
deriving DecidableEq

/-- The tables and elements. -/
structure Heap (E K : Type) where
  links : Links (Cell E)
  /-- the key of an element: `ht_getkey`, `ht_cmp` -/
  key : E → K
  tab : ℕ → Table K
  /-- how many tables were ever allocated -/
  tables : ℕ
  /-- `ht_cur` -/
  cur : ℕ
  /-- the elements ever added -/
  pool : List E
  hist : ℕ × ℕ → List E
  out : ℕ → E → Bool
  home : E → Bool → ℕ

/-- What the threads do with them. -/
structure Core (n : ℕ) (E K : Type) extends Heap E K where
  lock : ℕ × ℕ → Option (Who n)
  loc : Fin n → Loc E K
  res : Res E
  /-- the read-side sections that `synchronize_rcu` still waits for -/
  gp : Fin n → Bool
  dead : E → Bool

structure St (n : ℕ) (E K : Type) extends Core n E K where
  freedTable : ℕ → Bool
  freed : E → Bool
  /-- the read-side sections to wait for before an element is freed -/
  wait : E → Fin n → Bool
  /-- what the last `hashtab_resize` returned -/
  resRet : Option ℤ
  abs : E → Bool
  was : Fin n → E → Bool
  stay : Fin n → E → Bool
  /-- the elements a lookup has passed, and how many there were in its list -/
  took : Fin n → ℕ
  bound : Fin n → ℕ

/-- What the scheduler can do: start a lookup, an update section or a resize,
let a thread or the resizer take its next step, choose the element that is
added, or free an element after its grace period. -/
inductive Act (n : ℕ) (E K : Type)
  | lookup (t : Fin n) (k : K)
  | update (t : Fin n) (op : Op K)
  | step (t : Fin n)
  | add (t : Fin n) (e : E)
  | resize (nbuckets : ℕ) (gethash : Option (K → ℕ)) (mem : Bool)
  | resizer
  | reclaim (e : E)

/-- `-ENOMEM`. -/
def enomem : ℤ := -12

variable {n : ℕ} {E K : Type}

/-- A thread at this place is in a read-side section. -/
def Loc.inSection : Loc E K → Bool
  | .idle | .readLock _ | .modLock _ => false
  | _ => true

/-- Where a section goes once it has its locks. -/
def Loc.locked (op : Op K) (ls : LockState) : Loc E K :=
  if op.look then .lookCur op ls else if op.add then .add op ls else .unlockOld ls

/-- Where it goes when it has found nothing. -/
def Loc.missed (op : Op K) (ls : LockState) : Loc E K :=
  if op.add then .add op ls else .unlockOld ls

section Walk

variable (next : Cell E → Cell E)

/-- The elements from a cell on, at most `m` of them. -/
def walkFrom : ℕ → Cell E → List E
  | 0, _ => []
  | _ + 1, .head _ _ => []
  | m + 1, .link e i => e :: walkFrom m (next (.link e i))

end Walk

namespace Heap

variable (h : Heap E K)

/-- The bucket of a key, in table `g`. -/
def bucket (g : ℕ) (k : K) : ℕ := (h.tab g).bucket k

/-- The elements that are linked into a bucket. -/
def elems (x : ℕ × ℕ) : List E :=
  walkFrom h.links.next h.pool.length (h.links.next (.head x.1 x.2))

/-- A lookup of `k` that nothing disturbs. -/
def lookup [DecidableEq K] (k : K) : Option E :=
  (h.elems (h.cur, h.bucket h.cur k)).find? fun e => h.key e = k

end Heap

namespace St

variable (s : St n E K)

def goto (t : Fin n) (l : Loc E K) : St n E K := { s with loc := Function.update s.loc t l }

def resGoto (r : Res E) : St n E K := { s with res := r }

def acquire (w : Who n) (x : ℕ × ℕ) : St n E K :=
  { s with lock := Function.update s.lock x (some w) }

def release (x : ℕ × ℕ) : St n E K := { s with lock := Function.update s.lock x none }

/-- The read-side sections that run. -/
def sections : Fin n → Bool := fun t => (s.loc t).inSection

/-- `rcu_read_unlock`. -/
def leave (t : Fin n) : St n E K :=
  { s with
    gp := Function.update s.gp t false
    wait := fun e => Function.update (s.wait e) t false }

def setTab (g : ℕ) (T : Table K) : St n E K := { s with tab := Function.update s.tab g T }

/-- A lookup begins. -/
def begin (t : Fin n) : St n E K :=
  { s with was := Function.update s.was t s.abs, stay := Function.update s.stay t s.abs }

/-- What is in the table is noted, for the lookups that run. -/
def observe : St n E K :=
  { s with
    was := fun t e => s.was t e || s.abs e
    stay := fun t e => s.stay t e && s.abs e }

variable [DecidableEq E]

/-- `cds_list_add_rcu(&htep->hte_next[i], &htbp->htb_head)`. -/
def link (e : E) (i : Bool) (x : ℕ × ℕ) : St n E K :=
  { s with
    links := s.links.add (.link e i) (.head x.1 x.2)
    hist := Function.update s.hist x (e :: s.hist x)
    home := Function.update s.home e (Function.update (s.home e) i x.1) }

/-- `cds_list_del_rcu(&htep->hte_next[i])`, from a bucket of table `g`. -/
def unlink (e : E) (i : Bool) (g : ℕ) : St n E K :=
  { s with
    links := s.links.del (.link e i)
    out := Function.update s.out g (Function.update (s.out g) e true) }

def setAbs (e : E) (b : Bool) : St n E K := { s with abs := Function.update s.abs e b }

/-- `hashtab_del` is through; the element may be freed after a grace period. -/
def bury (e : E) : St n E K :=
  { s with
    dead := Function.update s.dead e true
    wait := Function.update s.wait e s.sections }

end St

variable [DecidableEq E] [DecidableEq K]

/-- The next step of thread `t`. -/
def stepThread (t : Fin n) (s : St n E K) : Option (St n E K) :=
  match s.loc t with
  | .idle => none
  | .readLock k => some ((s.begin t).goto t (.readCur k))
  | .readCur k => some (s.goto t (.readHead k s.cur (s.bucket s.cur k)))
  | .readHead k g b =>
    some ({ s with
      took := Function.update s.took t 0
      bound := Function.update s.bound t (s.hist (g, b)).length }.goto t
        (.readWalk k g b (s.links.next (.head g b))))
  | .readWalk k g b c =>
    match c with
    | .head g' b' => if (g', b') = (g, b) then some (s.goto t (.readUnlock k none)) else none
    | .link e i =>
      if i = (s.tab g).idx then
        some ({ s with took := Function.update s.took t (s.took t + 1) }.goto t
          (if s.key e = k then .readUnlock k (some e)
          else .readWalk k g b (s.links.next (.link e i))))
      else none
  | .readUnlock _ _ => some ((s.leave t).goto t .idle)
  | .modLock op => some (s.goto t (.modCur op))
  | .modCur op => some (s.goto t (.modBucket op s.cur (s.bucket s.cur op.key)))
  | .modBucket op g b =>
    if s.lock (g, b) = none then some ((s.acquire (.thread t) (g, b)).goto t (.modProgress op g b))
    else none
  | .modProgress op g b =>
    some (s.goto t
      (if (b : ℤ) > (s.tab g).resizeCur then .locked op ⟨(g, b), (s.tab g).idx, none⟩
      else .modNew op g b))
  | .modNew op g b =>
    match (s.tab g).new with
    | none => none
    | some g' => some (s.goto t (.modNewBucket op g b g' (s.bucket g' op.key)))
  | .modNewBucket op g b g' b' =>
    if s.lock (g', b') = none then
      some ((s.acquire (.thread t) (g', b')).goto t
        (.locked op ⟨(g, b), (s.tab g).idx, some (g', b')⟩))
    else none
  | .lookCur op ls => some (s.goto t (.lookHead op ls s.cur (s.bucket s.cur op.key)))
  | .lookHead op ls g b => some (s.goto t (.lookWalk op ls g b (s.links.next (.head g b))))
  | .lookWalk op ls g b c =>
    match c with
    | .head g' b' => if (g', b') = (g, b) then some (s.goto t (.missed op ls)) else none
    | .link e i =>
      if i = (s.tab g).idx then
        some (s.goto t
          (if s.key e = op.key then .del op ls e
          else .lookWalk op ls g b (s.links.next (.link e i))))
      else none
  | .del op ls e =>
    let s' := (s.unlink e ls.idx0 ls.hbp0.1).setAbs e false
    match ls.hbp1 with
    | none => some ((s'.bury e).goto t (.unlockOld ls))
    | some _ => some (s'.goto t (.delNew op ls e))
  | .delNew _ ls e =>
    match ls.hbp1 with
    | none => none
    | some x => some (((s.unlink e (!ls.idx0) x.1).bury e).goto t (.unlockOld ls))
  | .add _ _ => none
  | .addNew _ ls e =>
    match ls.hbp1 with
    | none => none
    | some x => some ((s.link e (!ls.idx0) x).goto t (.unlockOld ls))
  | .unlockOld ls =>
    some ((s.release ls.hbp0).goto t
      (match ls.hbp1 with
      | none => .modUnlock
      | some x => .unlockNew x))
  | .unlockNew x => some ((s.release x).goto t .modUnlock)
  | .modUnlock => some ((s.leave t).goto t .idle)

/-- `hashtab_add` of the new element `e`, up to its first link. -/
def addElem (t : Fin n) (e : E) (s : St n E K) : Option (St n E K) :=
  match s.loc t with
  | .add op ls =>
    if e ∉ s.pool ∧ s.key e = op.key then
      some ({ (s.link e ls.idx0 ls.hbp0).setAbs e true with pool := e :: s.pool }.goto t
        (match ls.hbp1 with
        | none => .unlockOld ls
        | some _ => .addNew op ls e))
    else none
  | _ => none

/-- `ht_alloc` of a table that replaces `ht_cur`. -/
def alloc (nbuckets : ℕ) (gethash : Option (K → ℕ)) (s : St n E K) : St n E K :=
  let g' := s.tables
  let T := s.tab s.cur
  { s with
    tables := g' + 1
    tab := Function.update s.tab g'
      ⟨nbuckets, gethash.getD T.gethash, !T.idx, -1, none⟩
    links :=
      { next := fun
          | .head g b => if g = g' then .head g b else s.links.next (.head g b)
          | c => s.links.next c
        prev := fun
          | .head g b => if g = g' then .head g b else s.links.prev (.head g b)
          | c => s.links.prev c }
    hist := fun x => if x.1 = g' then [] else s.hist x
    out := Function.update s.out g' fun _ => false }

/-- The next step of the resizer. -/
def stepResizer (s : St n E K) : Option (St n E K) :=
  match s.res with
  | .idle => none
  | .publish g g' => some ((s.setTab g { s.tab g with new := some g' }).resGoto (.sync g g'))
  | .sync g g' => some ({ s with gp := s.sections }.resGoto (.wait g g'))
  | .wait g g' => if ∀ t, s.gp t = false then some (s.resGoto (.bucket g g' 0)) else none
  | .bucket g g' i =>
    if i < (s.tab g).nbuckets then
      if s.lock (g, i) = none then some ((s.acquire .resizer (g, i)).resGoto (.first g g' i))
      else none
    else some (s.resGoto (.switch g g'))
  | .first g g' i => some (s.resGoto (.walk g g' i (s.links.next (.head g i))))
  | .walk g g' i c =>
    match c with
    | .head g₁ b₁ => if (g₁, b₁) = (g, i) then some (s.resGoto (.setCur g g' i)) else none
    | .link e j =>
      if j = (s.tab g).idx then
        some (s.resGoto (.newBucket g g' i e (s.bucket g' (s.key e))))
      else none
  | .newBucket g g' i e b' =>
    if s.lock (g', b') = none then
      some ((s.acquire .resizer (g', b')).resGoto (.link g g' i e b'))
    else none
  | .link g g' i e b' =>
    some ((s.link e (!(s.tab g).idx) (g', b')).resGoto (.newUnlock g g' i e b'))
  | .newUnlock g g' i e b' => some ((s.release (g', b')).resGoto (.nextElem g g' i e))
  | .nextElem g g' i e =>
    some (s.resGoto (.walk g g' i (s.links.next (.link e (s.tab g).idx))))
  | .setCur g g' i =>
    some ((s.setTab g { s.tab g with resizeCur := i }).resGoto (.unlock g g' i))
  | .unlock g g' i =>
    if i < INT_MAX then some ((s.release (g, i)).resGoto (.bucket g g' (i + 1))) else none
  | .switch g g' => some ({ s with cur := g' }.resGoto (.sync2 g g'))
  | .sync2 g g' => some ({ s with gp := s.sections }.resGoto (.wait2 g g'))
  | .wait2 g g' => if ∀ t, s.gp t = false then some (s.resGoto (.free g g')) else none
  | .free g _ =>
    some ({ s with
      freedTable := Function.update s.freedTable g true
      resRet := some 0 }.resGoto .idle)

/-- The next step of a thread or of the resizer, or the start of a call. -/
def act : Act n E K → St n E K → Option (St n E K)
  | .lookup t k, s =>
    match s.loc t with
    | .idle => some (s.goto t (.readLock k))
    | _ => none
  | .update t op, s =>
    match s.loc t with
    | .idle => some (s.goto t (.modLock op))
    | _ => none
  | .step t, s => stepThread t s
  | .add t e, s => addElem t e s
  | .resize nbuckets gethash mem, s =>
    match s.res with
    | .idle =>
      -- once it has its memory, `ht_alloc` has to come to the end of its loop
      if 0 < nbuckets ∧ (mem = true → nbuckets ≤ INT_MAX) then
        if mem then some ((alloc nbuckets gethash s).resGoto (.publish s.cur s.tables))
        else some { s with resRet := some enomem }
      else none
    | _ => none
  | .resizer, s => stepResizer s
  | .reclaim e, s =>
    if s.dead e ∧ s.freed e = false ∧ ∀ t, s.wait e t = false then
      some { s with freed := Function.update s.freed e true }
    else none

/-- What an action does. -/
def next (a : Act n E K) (s : St n E K) : Option (St n E K) := (act a s).map St.observe

/-- At the start there is one table, and it holds elements with distinct keys. -/
structure Init (s : St n E K) : Prop where
  ring : ∀ b, Ring (Cell.link · (s.tab s.cur).idx) (.head s.cur b) s.links (s.hist (s.cur, b))
  place : ∀ b, ∀ e ∈ s.hist (s.cur, b),
    b = s.bucket s.cur (s.key e) ∧ e ∈ s.pool ∧ s.home e (s.tab s.cur).idx = s.cur
  keys : ∀ b, ∀ e ∈ s.hist (s.cur, b), ∀ e' ∈ s.hist (s.cur, b), s.key e = s.key e' → e = e'
  out : ∀ e, s.out s.cur e = false
  abs : ∀ e, s.abs e = true ↔ e ∈ s.hist (s.cur, s.bucket s.cur (s.key e))
  cur : s.cur < s.tables ∧ 0 < (s.tab s.cur).nbuckets ∧ (s.tab s.cur).resizeCur = -1 ∧
    (s.tab s.cur).new = none
  count : (s.tab s.cur).nbuckets ≤ INT_MAX
  lock : ∀ x, s.lock x = none
  loc : ∀ t, s.loc t = .idle
  res : s.res = .idle
  gp : ∀ t, s.gp t = false
  dead : ∀ e, s.dead e = false
  freed : ∀ e, s.freed e = false
  freedTable : s.freedTable s.cur = false ∧ ∀ g, s.tables ≤ g → s.freedTable g = false

def sys (n : ℕ) (E K : Type) [DecidableEq E] [DecidableEq K] : Sys (St n E K) (Act n E K) :=
  ⟨Init, next⟩

end Hash
end Perfbook
