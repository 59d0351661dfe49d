/-
# `SMPdesign/smpalloc.c`: an allocator with a pool for each thread

A thread takes blocks from its own pool and returns them there. When the pool is
empty it moves up to `TARGET_POOL_SIZE` blocks from the global pool, when it is full
it moves all but `TARGET_POOL_SIZE` back, both under the lock. Each section under the
lock is a step, and so is what comes before and after it, which only the thread sees.

An access to a pool out of its bounds is `none`, so a step that makes one cannot be
taken. `held` is history, who has a block: at the start `initpools`, which frees
all of them. A thread may pass a block that it has to another (`give`). So is
`dry`, whether both pools were empty at the section of the last `memblock_alloc`.

Key definitions: `Pool`, `allocLoop`, `freeLoop`, `St`, `stepThread`, `next`, `initpools`, `sys`, `Conserves`.
-/
import Mathlib.Data.Fintype.Basic
import Perfbook.Conc.Sys

namespace Perfbook
namespace Smpalloc

open Conc

def TARGET_POOL_SIZE : ℕ := 3

def GLOBAL_POOL_SIZE : ℕ := 40

/-- A `struct memblock *` that points into `memblocks`. -/
abbrev Block : Type := Fin GLOBAL_POOL_SIZE

/-- `pool`, with `NULL` as `none`, and `cur`. -/
structure Pool where
  cur : ℤ
  pool : ℤ → Option Block

/-- `pool[i]`, in an array of `size` pointers. -/
def Pool.load (size : ℕ) (p : Pool) (i : ℤ) : Option (Option Block) :=
  if 0 ≤ i ∧ i < size then some (p.pool i) else none

/-- `pool[i] = v`. -/
def Pool.store (size : ℕ) (p : Pool) (i : ℤ) (v : Option Block) : Option Pool :=
  if 0 ≤ i ∧ i < size then some { p with pool := Function.update p.pool i v } else none

/-- The loop of `memblock_alloc` from `i` on, with `k` rounds to `TARGET_POOL_SIZE`. -/
def allocLoop : ℕ → ℕ → Pool → Pool → Option (Pool × Pool × ℕ)
  | 0, i, globalmem, pcpp => some (globalmem, pcpp, i)
  | k + 1, i, globalmem, pcpp =>
    if globalmem.cur ≥ 0 then do
      let p ← globalmem.load GLOBAL_POOL_SIZE globalmem.cur
      let pcpp ← pcpp.store (2 * TARGET_POOL_SIZE) i p
      let globalmem ← globalmem.store GLOBAL_POOL_SIZE globalmem.cur none
      allocLoop k (i + 1) { globalmem with cur := globalmem.cur - 1 } pcpp
    else some (globalmem, pcpp, i)

/-- The loop of `memblock_free` from `i` down, with `k` rounds to `TARGET_POOL_SIZE`. -/
def freeLoop : ℕ → ℤ → Pool → Pool → Option (Pool × Pool × ℤ)
  | 0, i, globalmem, pcpp => some (globalmem, pcpp, i)
  | k + 1, i, globalmem, pcpp => do
    let p ← pcpp.load (2 * TARGET_POOL_SIZE) i
    let globalmem := { globalmem with cur := globalmem.cur + 1 }
    let globalmem ← globalmem.store GLOBAL_POOL_SIZE globalmem.cur p
    let pcpp ← pcpp.store (2 * TARGET_POOL_SIZE) i none
    freeLoop k (i - 1) globalmem pcpp

/-- Where a thread is. -/
inductive Loc
  | idle
  /-- `memblock_alloc`, before `spin_lock` -/
  | allocLock
  /-- before `pcpp->cur >= 0` -/
  | allocPop
  /-- it has returned `p` -/
  | allocated (p : Option Block)
  /-- `memblock_free(p)`, before `spin_lock` -/
  | freeLock (p : Block)
  /-- before `pcpp->pool[++pcpp->cur] = p` -/
  | freePush (p : Block)
deriving DecidableEq

/-- The thread is in neither function. -/
def Loc.outside : Loc → Bool
  | .idle | .allocated _ => true
  | _ => false

structure St (n : ℕ) where
  globalmem : Pool
  perthreadmem : Fin n → Pool
  loc : Fin n → Loc
  held : Block → Option (Fin n)
  dry : Fin n → Bool

inductive Act (n : ℕ)
  /-- a call of `memblock_alloc` -/
  | alloc (t : Fin n)
  /-- a call of `memblock_free` -/
  | free (t : Fin n) (p : Block)
  | give (t u : Fin n) (p : Block)
  | step (t : Fin n)

variable {n : ℕ} (s : St n)

def St.goto (t : Fin n) (l : Loc) : St n := { s with loc := Function.update s.loc t l }

/-- The next step of thread `t`. -/
def stepThread (t : Fin n) : Option (St n) :=
  let pcpp := s.perthreadmem t
  match s.loc t with
  | .allocLock => do
    let (globalmem, pcpp, i) ← allocLoop TARGET_POOL_SIZE 0 s.globalmem pcpp
    let pcpp := { pcpp with cur := (i : ℤ) - 1 }
    some ({ s with
      globalmem := globalmem
      perthreadmem := Function.update s.perthreadmem t pcpp
      dry := Function.update s.dry t (decide ((s.perthreadmem t).cur < 0 ∧ s.globalmem.cur < 0)) }.goto t .allocPop)
  | .allocPop =>
    if pcpp.cur ≥ 0 then do
      let p ← pcpp.load (2 * TARGET_POOL_SIZE) pcpp.cur
      let pcpp ← pcpp.store (2 * TARGET_POOL_SIZE) pcpp.cur none
      let pcpp := { pcpp with cur := pcpp.cur - 1 }
      some ({ s with
        perthreadmem := Function.update s.perthreadmem t pcpp
        held := match p with
          | some b => Function.update s.held b (some t)
          | none => s.held }.goto t (.allocated p))
    else some (s.goto t (.allocated none))
  | .freeLock p => do
    let k := (pcpp.cur + 1 - TARGET_POOL_SIZE).toNat
    let (globalmem, pcpp, i) ← freeLoop k pcpp.cur s.globalmem pcpp
    let pcpp := { pcpp with cur := i }
    some ({ s with
      globalmem := globalmem
      perthreadmem := Function.update s.perthreadmem t pcpp }.goto t (.freePush p))
  | .freePush p => do
    let pcpp := { pcpp with cur := pcpp.cur + 1 }
    let pcpp ← pcpp.store (2 * TARGET_POOL_SIZE) pcpp.cur (some p)
    some ({ s with
      perthreadmem := Function.update s.perthreadmem t pcpp
      held := Function.update s.held p none }.goto t .idle)
  | _ => none

def next : Act n → Option (St n)
  | .alloc t =>
    if (s.loc t).outside then
      some ({ s with dry := Function.update s.dry t false }.goto t
        (if (s.perthreadmem t).cur < 0 then .allocLock else .allocPop))
    else none
  | .free t p =>
    if (s.loc t).outside ∧ s.held p = some t then
      some (s.goto t (if (s.perthreadmem t).cur ≥ 2 * TARGET_POOL_SIZE - 1 then .freeLock p else .freePush p))
    else none
  | .give t u p =>
    if (s.loc t).outside ∧ s.held p = some t then some { s with held := Function.update s.held p (some u) } else none
  | .step t => stepThread s t

/-- A whole `memblock_free`, before there are other threads. -/
def memblockFree (t : Fin n) (p : Block) : Option (St n) := do
  let s ← next s (.free t p)
  let s ← stepThread s t
  if s.loc t = .idle then some s else stepThread s t

/-- The pools before the second loop of `initpools`. -/
def emptyPools (t : Fin n) : St n where
  globalmem := ⟨-1, fun _ => none⟩
  perthreadmem _ := ⟨-1, fun _ => none⟩
  loc _ := .idle
  held _ := some t
  dry _ := false

/-- `initpools`, in thread `t`. -/
def initpools (t : Fin n) : Option (St n) :=
  (List.finRange GLOBAL_POOL_SIZE).foldlM (fun s p => memblockFree s t p) (emptyPools t)

def sys (n : ℕ) : Sys (St n) (Act n) := ⟨fun s => ∃ t, initpools t = some s, fun a s => next s a⟩

/-- Where a block is. -/
inductive Place (n : ℕ)
  | globalPool (i : ℤ)
  | perthreadPool (t : Fin n) (i : ℤ)
  | hands (t : Fin n)

/-- The block is at the place. -/
def At (p : Block) : Place n → Prop
  | .globalPool i => 0 ≤ i ∧ i ≤ s.globalmem.cur ∧ s.globalmem.pool i = some p
  | .perthreadPool t i => 0 ≤ i ∧ i ≤ (s.perthreadmem t).cur ∧ (s.perthreadmem t).pool i = some p
  | .hands t => s.held p = some t

/-- **What is promised.** The indices are in range, and no thread is stuck at an access that is out of bounds; each
block is at one place; and what `memblock_alloc` returns was at no thread, or `NULL` when both pools were empty. -/
structure Conserves (s : St n) : Prop where
  globalCur : -1 ≤ s.globalmem.cur ∧ s.globalmem.cur ≤ GLOBAL_POOL_SIZE - 1
  cur : ∀ t, -1 ≤ (s.perthreadmem t).cur ∧ (s.perthreadmem t).cur ≤ 2 * TARGET_POOL_SIZE - 1
  bounds : ∀ t, (s.loc t).outside = false → (stepThread s t).isSome = true
  place : ∀ p, ∃! l, At s p l
  alloc : ∀ t s' p, s.loc t = .allocPop → stepThread s t = some s' → s'.loc t = .allocated (some p) →
    s.held p = none ∧ s'.held p = some t
  null : ∀ t, s.loc t = .allocated none → s.dry t = true

end Smpalloc
end Perfbook
