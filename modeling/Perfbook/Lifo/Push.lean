/-
# `advsync/lifo-push.c`: the push/pop-all stack

`list_push` mallocs a node, stores the value, and links it at `top` by a
compare-and-exchange; `list_pop_all` exchanges `top` for `NULL` and walks the
chain it got, passing each node to `foo` and freeing it. Each read or write
of `top` and of a node's fields is one step; `malloc` may return any address
that is not allocated, with any contents, so a freed address comes back.

A node is an allocation, not an address: `Ptr` is an address with the number
of the allocation it was taken for, and `St.live` says which allocation has
an address now. `St.bad` records an access to a node that is not allocated
any more (or whose address belongs to another allocation by then).

The fields from `bad` on are history: no step of the code reads them.

Key definitions: `Loc`, `St`, `stepThread`, `sys`.
-/
import Perfbook.Conc.Sys
import Mathlib.Data.List.Basic

namespace Perfbook
namespace Lifo

open Conc

/-- An address that `malloc` can return; `NULL` is `none`. -/
abbrev Addr := ℕ

/-- `struct node_t`. -/
structure Node (V : Type) where
  val : V
  next : Option Addr

/-- A pointer to a node: its address and the allocation it points to. -/
structure Ptr where
  addr : Addr
  id : ℕ
deriving DecidableEq

/-- Where a thread is in `list_push` or `list_pop_all`, with the locals it
still needs. -/
inductive Loc (V : Type)
  | idle
  /-- `list_push(v)`, before `malloc` -/
  | alloc (v : V)
  /-- before `newnode->val = v` -/
  | initVal (v : V) (newnode : Ptr)
  /-- before `oldtop = READ_ONCE(top)` -/
  | readTop (newnode : Ptr)
  /-- before `newnode->next = oldtop` -/
  | setNext (newnode : Ptr) (oldtop : Option Addr)
  /-- before reading `newnode->next` for the `cmpxchg` -/
  | loadNext (newnode : Ptr)
  /-- before `cmpxchg(&top, old, newnode)` -/
  | cmpxchg (newnode : Ptr) (old : Option Addr)
  /-- before `newnode->next != oldtop` -/
  | check (newnode : Ptr) (oldtop : Option Addr)
  /-- `list_pop_all`, before `xchg(&top, NULL)` -/
  | xchg
  /-- at `while (p)`, before `next = p->next` -/
  | loop (p : Option Ptr)
  /-- before `foo(p)` -/
  | foo (p : Ptr) (next : Option Ptr)
  /-- before `free(p)` -/
  | free (p : Ptr) (next : Option Ptr)

structure St (τ V : Type) where
  top : Option Addr
  mem : Addr → Node V
  /-- the allocation that an address belongs to now -/
  live : Addr → Option ℕ
  loc : τ → Loc V
  /-- the number of allocations so far -/
  fresh : ℕ
  /-- an access touched a node after it was freed -/
  bad : Bool
  /-- the value that allocation `i` was made for -/
  arg : ℕ → Option V
  /-- the pushes whose `cmpxchg` succeeded, oldest first -/
  linked : List ℕ
  /-- those since the last exchange of `top`, newest first -/
  since : List Ptr
  /-- what the last exchange of a thread took, newest first -/
  batch : τ → List Ptr
  /-- what this call of `list_pop_all` passed to `foo` so far -/
  passed : τ → List (ℕ × V)
  /-- all that was passed to `foo`, by whom -/
  done : List (τ × ℕ × V)

/-- What the scheduler can do: start a call, let `malloc` return an address
with some contents, or let a thread take its next step (`junk` is what `free`
leaves at the address). -/
inductive Act (τ V : Type)
  | push (t : τ) (v : V)
  | popAll (t : τ)
  | malloc (t : τ) (a : Addr) (junk : Node V)
  | step (t : τ) (junk : Node V)

variable {τ V : Type} [DecidableEq τ]

namespace St

/-- The thread goes to another place. -/
def goto (s : St τ V) (t : τ) (l : Loc V) : St τ V := { s with loc := Function.update s.loc t l }

/-- An access to the node `p`. -/
def touch (s : St τ V) (p : Ptr) : St τ V := { s with bad := s.bad || s.live p.addr != some p.id }

/-- A store to the node `p`. -/
def store (s : St τ V) (p : Ptr) (n : Node V) : St τ V :=
  { s with mem := Function.update s.mem p.addr n }

/-- `malloc` returns `a` for a push of `v`; the contents are `junk`. -/
def malloc (s : St τ V) (a : Addr) (v : V) (junk : Node V) : St τ V :=
  { s with
    mem := Function.update s.mem a junk
    live := Function.update s.live a (some s.fresh)
    arg := Function.update s.arg s.fresh (some v)
    fresh := s.fresh + 1 }

/-- `top` points to `n` from now on. -/
def link (s : St τ V) (n : Ptr) : St τ V :=
  { s with top := some n.addr, linked := s.linked ++ [n.id], since := n :: s.since }

/-- `t` exchanges `top` for `NULL`. -/
def takeAll (s : St τ V) (t : τ) : St τ V :=
  { s with
    top := none
    since := []
    batch := Function.update s.batch t s.since
    passed := Function.update s.passed t [] }

/-- `t` passes `p` to `foo`, which reads `p->val`. -/
def pass (s : St τ V) (t : τ) (p : Ptr) : St τ V :=
  { s with
    passed := Function.update s.passed t (s.passed t ++ [(p.id, (s.mem p.addr).val)])
    done := s.done ++ [(t, p.id, (s.mem p.addr).val)] }

/-- `p` is freed; `junk` is what this leaves at its address. -/
def release (s : St τ V) (p : Ptr) (junk : Node V) : St τ V :=
  { s with live := Function.update s.live p.addr none, mem := Function.update s.mem p.addr junk }

/-- The pointer to what is at an address when the address is loaded. -/
def ptr (s : St τ V) (a : Option Addr) : Option Ptr := a.map fun a => ⟨a, (s.live a).getD s.fresh⟩

end St

/-- The next step of thread `t`. -/
def stepThread (t : τ) (junk : Node V) (s : St τ V) : Option (St τ V) :=
  match s.loc t with
  | .idle => none
  | .alloc _ => none
  | .initVal v n =>
    some (((s.touch n).store n { s.mem n.addr with val := v }).goto t (.readTop n))
  | .readTop n => some (s.goto t (.setNext n s.top))
  | .setNext n oldtop =>
    some (((s.touch n).store n { s.mem n.addr with next := oldtop }).goto t (.loadNext n))
  | .loadNext n => some ((s.touch n).goto t (.cmpxchg n (s.mem n.addr).next))
  | .cmpxchg n old =>
    if s.top = old then some ((s.link n).goto t (.check n s.top))
    else some (s.goto t (.check n s.top))
  | .check n oldtop =>
    if (s.mem n.addr).next ≠ oldtop then some ((s.touch n).goto t (.setNext n oldtop))
    else some ((s.touch n).goto t .idle)
  | .xchg => some ((s.takeAll t).goto t (.loop (s.ptr s.top)))
  | .loop none => some (s.goto t .idle)
  | .loop (some p) => some ((s.touch p).goto t (.foo p (s.ptr (s.mem p.addr).next)))
  | .foo p next => some (((s.touch p).pass t p).goto t (.free p next))
  | .free p next => some (((s.touch p).release p junk).goto t (.loop next))

/-- What an action does. -/
def next : Act τ V → St τ V → Option (St τ V)
  | .push t v, s =>
    match s.loc t with
    | .idle => some (s.goto t (.alloc v))
    | _ => none
  | .popAll t, s =>
    match s.loc t with
    | .idle => some (s.goto t .xchg)
    | _ => none
  | .malloc t a junk, s =>
    match s.loc t, s.live a with
    | .alloc v, none => some ((s.malloc a v junk).goto t (.initVal v ⟨a, s.fresh⟩))
    | _, _ => none
  | .step t junk, s => stepThread t junk s

/-- At the start the list is empty, nothing is allocated and no call runs. -/
structure Init (s : St τ V) : Prop where
  top : s.top = none
  live : ∀ a, s.live a = none
  loc : ∀ t, s.loc t = .idle
  bad : s.bad = false
  linked : s.linked = []
  since : s.since = []
  batch : ∀ t, s.batch t = []
  passed : ∀ t, s.passed t = []
  done : s.done = []

def sys (τ V : Type) [DecidableEq τ] : Sys (St τ V) (Act τ V) := ⟨Init, next⟩

end Lifo
end Perfbook
