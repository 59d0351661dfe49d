/-
# Caches of free nodes (datastruct/Issaquah/tree.c and existence.c)

With `BAD_MALLOC` each thread keeps the nodes that it frees in a cache of its own: a list `free` that only the thread
uses, and a list `ffree` under a lock, to which other threads hand what they have too much of. `free` and `ffree` have
a pointer to their last link each, so that a whole list is moved with a few stores. A thread that has nothing in
`free` takes over its `ffree`, and if that is empty, it gets a batch from `malloc` and frees all nodes of it but one.

The caches of `struct treenode` and of `struct existence_group` are the same but for the names; the names here are
those of `tree.c`. A node is an element of an array that `malloc` has returned, and is known by its place there. A
section under a lock is one step. Whoever has a node may store what they like to its link.

Key definitions: `St`, `cacheInit`, `handOff`, `append`, `refill`, `pop`, `sys`.
-/
import Perfbook.Conc.Hung
import Perfbook.Conc.Sys

namespace Perfbook
namespace NodeCache

/-- Whose caches they are. -/
inductive File
  | tree
  | existence

/-- `TREENODE_MALLOC_BATCH` and `EXISTENCE_MALLOC_BATCH`. -/
def MALLOC_BATCH : File → ℕ
  | .tree => 32768
  | .existence => 32768

/-- `TREENODE_MALLOC_CACHE` and `EXISTENCE_MALLOC_CACHE`. -/
def MALLOC_CACHE (file : File) : ℕ := 2 * MALLOC_BATCH file

/-- `free`, `tail` and `nfree` of a cache, or `ffree`, `ftail` and `nffree`. -/
inductive Which
  | free
  | ffree
deriving DecidableEq

/-- `p[i]` for an array `p` from `malloc`. -/
abbrev Node (B : Type) := B × ℕ

/-- The address of a pointer: a list head of a thread's cache, or the link of a node (`lc` or `next`). -/
abbrev Slot (τ B : Type) := Conc.Slot (Which × τ) (Node B)

/-- Where the free function returns to: its caller, or the loop of the alloc function. -/
inductive Ret (B : Type)
  | done
  | batch (p : B) (i : ℕ)

inductive Loc (τ B : Type)
  | idle
  /-- the free function is called -/
  | free (a : Node B) (r : Ret B)
  /-- before the section under the lock of `u`'s cache -/
  | hand (u : τ) (a : Node B) (r : Ret B)
  | put (a : Node B) (r : Ret B)
  /-- the alloc function is called -/
  | alloc
  /-- before the section under the own lock -/
  | refill
  | take
  /-- the loop over the batch `p`, at `i` -/
  | batch (p : B) (i : ℕ)

def Ret.loc {τ B : Type} : Ret B → Loc τ B
  | .done => .idle
  | .batch p i => .batch p i

structure St (τ B : Type) where
  ptr : Slot τ B → Option (Node B)
  /-- `tail` and `ftail`; `none` is `NULL` -/
  tail : Which × τ → Option (Slot τ B)
  /-- `nfree` and `nffree` -/
  nfree : Which × τ → ℤ
  tncp : τ → Option τ
  /-- the callback that wires a cache to this one is with `call_rcu` -/
  queued : τ → Bool
  /-- the arrays that `malloc` has returned -/
  malloced : B → Bool
  /-- the nodes that were handed out, and not freed since -/
  used : Node B → Bool
  loc : τ → Loc τ B

namespace St

variable {τ B : Type} [DecidableEq τ] (s : St τ B)

def goto (t : τ) (l : Loc τ B) : St τ B := { s with loc := Function.update s.loc t l }

@[simp] theorem goto_ptr (t : τ) (l : Loc τ B) : (s.goto t l).ptr = s.ptr := rfl

@[simp] theorem goto_tail (t : τ) (l : Loc τ B) : (s.goto t l).tail = s.tail := rfl

@[simp] theorem goto_nfree (t : τ) (l : Loc τ B) : (s.goto t l).nfree = s.nfree := rfl

@[simp] theorem goto_used (t : τ) (l : Loc τ B) : (s.goto t l).used = s.used := rfl

@[simp] theorem goto_malloced (t : τ) (l : Loc τ B) : (s.goto t l).malloced = s.malloced := rfl

variable [DecidableEq B]

/-- `treenode_alloc_cache_init`. -/
def cacheInit (t : τ) : St τ B :=
  { s with
    tncp := Function.update s.tncp t none
    ptr := Function.update (Function.update s.ptr (.head (.free, t)) none) (.head (.ffree, t)) none
    tail := Function.update (Function.update s.tail (.free, t) (some (.head (.free, t)))) (.ffree, t)
      (some (.head (.ffree, t)))
    nfree := Function.update (Function.update s.nfree (.free, t) 0) (.ffree, t) 0 }

/-- `if (!tnp_cache.tail) treenode_alloc_cache_init();`. -/
def ready (t : τ) : St τ B := if s.tail (.free, t) = none then s.cacheInit t else s

/-- The list of `t` is put behind the `ffree` of `u`; there is no store through a `NULL`. -/
def handOff (t u : τ) : Option (St τ B) := do
  let ftail ← s.tail (.ffree, u)
  some { s with
    ptr := Function.update (Function.update s.ptr ftail (s.ptr (.head (.free, t)))) (.head (.free, t)) none
    tail := Function.update (Function.update s.tail (.ffree, u) (s.tail (.free, t))) (.free, t)
      (some (.head (.free, t)))
    nfree := Function.update (Function.update s.nfree (.ffree, u) (s.nfree (.ffree, u) + s.nfree (.free, t)))
      (.free, t) 0 }

/-- The end of `free_treenode_cache`. -/
def append (t : τ) (a : Node B) : Option (St τ B) := do
  let tail ← s.tail (.free, t)
  some { s with
    ptr := Function.update (Function.update s.ptr (.link a) none) tail (some a)
    tail := Function.update s.tail (.free, t) (some (.link a))
    nfree := Function.update s.nfree (.free, t) (s.nfree (.free, t) + 1) }

/-- The section of `alloc_treenode_cache`. -/
def refill (t : τ) : St τ B :=
  { s with
    ptr := Function.update (Function.update s.ptr (.head (.free, t)) (s.ptr (.head (.ffree, t)))) (.head (.ffree, t))
      none
    tail := Function.update (Function.update s.tail (.free, t) (s.tail (.ffree, t))) (.ffree, t)
      (some (.head (.ffree, t)))
    nfree := Function.update (Function.update s.nfree (.free, t) (s.nfree (.ffree, t))) (.ffree, t) 0 }

/-- The first node `a` is handed out. -/
def pop (t : τ) (a : Node B) : St τ B :=
  { s with
    ptr := Function.update s.ptr (.head (.free, t)) (s.ptr (.link a))
    tail := if s.ptr (.link a) = none then Function.update s.tail (.free, t) (some (.head (.free, t))) else s.tail
    nfree := Function.update s.nfree (.free, t) (s.nfree (.free, t) - 1)
    used := Function.update s.used a true }

end St

inductive Act (τ B : Type)
  | callFree (t : τ) (a : Node B)
  | callAlloc (t : τ)
  /-- `treenode_wire_call_rcu` -/
  | wire (u : τ)
  /-- `treenode_wire_call_rcu_cb` for the cache of `u`, run by `t` -/
  | wireCb (t u : τ)
  /-- `malloc` returns `p` -/
  | malloc (t : τ) (p : B)
  /-- a node in use is written -/
  | store (a : Node B) (x : Option (Node B))
  | step (t : τ)

section

variable {τ B : Type} [DecidableEq τ] [DecidableEq B] (file : File)

/-- The next step of a thread inside the functions. -/
def stepThread (t : τ) (s : St τ B) : Option (St τ B) :=
  match s.loc t with
  | .idle => none
  | .free a r =>
    let s := s.ready t
    match s.tncp t with
    | some u =>
      if s.nfree (.free, t) > MALLOC_CACHE file then some (s.goto t (.hand u a r)) else some (s.goto t (.put a r))
    | none => some (s.goto t (.put a r))
  | .hand u a r => (s.handOff t u).map fun s => s.goto t (.put a r)
  | .put a r => (s.append t a).map fun s => s.goto t r.loc
  | .alloc =>
    let s := s.ready t
    if s.ptr (.head (.free, t)) = none ∧ s.nfree (.ffree, t) ≠ 0 then some (s.goto t .refill)
    else some (s.goto t .take)
  | .refill => some ((s.refill t).goto t .take)
  | .take => (s.ptr (.head (.free, t))).map fun a => (s.pop t a).goto t .idle
  | .batch p 0 => some { s.goto t .idle with used := Function.update s.used (p, 0) true }
  | .batch p (i + 1) => some (s.goto t (.free (p, i + 1) (.batch p i)))

def next : Act τ B → St τ B → Option (St τ B)
  | .callFree t a, s =>
    match s.loc t with
    | .idle =>
      if s.used a = true then some { s.goto t (.free a .done) with used := Function.update s.used a false } else none
    | _ => none
  | .callAlloc t, s =>
    match s.loc t with
    | .idle => some (s.goto t .alloc)
    | _ => none
  | .wire u, s =>
    match s.loc u with
    | .idle => some { s.ready u with queued := Function.update s.queued u true }
    | _ => none
  | .wireCb t u, s =>
    match s.loc t with
    | .idle =>
      if s.queued u = true then
        let s := s.ready t
        some { s with tncp := Function.update s.tncp t (some u), queued := Function.update s.queued u false }
      else none
    | _ => none
  | .malloc t p, s =>
    match s.loc t with
    | .take =>
      if s.ptr (.head (.free, t)) = none ∧ s.malloced p = false then
        some { s.goto t (.batch p (MALLOC_BATCH file - 1)) with malloced := Function.update s.malloced p true }
      else none
    | _ => none
  | .store a x, s => if s.used a = true then some { s with ptr := Function.update s.ptr (.link a) x } else none
  | .step t, s => stepThread file t s

/-- All memory of the threads is zero, and `malloc` was not called. -/
structure Init (s : St τ B) : Prop where
  ptr : ∀ q, s.ptr (.head q) = none
  tail : ∀ q, s.tail q = none
  nfree : ∀ q, s.nfree q = 0
  tncp : ∀ t, s.tncp t = none
  queued : ∀ t, s.queued t = false
  malloced : ∀ b, s.malloced b = false
  used : ∀ a, s.used a = false
  loc : ∀ t, s.loc t = .idle

variable (τ B) in
def sys : Conc.Sys (St τ B) (Act τ B) := ⟨Init, next file⟩

end

end NodeCache
end Perfbook
