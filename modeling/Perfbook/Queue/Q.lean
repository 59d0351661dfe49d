/-
# `advsync/q.c`: lock-free enqueue and dequeue

The push is that of `wfenqueue.c`. A popper reads `head` and the link of that
cell, and moves `head` on with a `cmpxchg`; nothing keeps others from doing the
same meanwhile. If the cell was the dummy, it pushes it again and starts over.
Each access to shared memory is a step.

`next` is the first field of `struct el`, so the cast of `p` to `struct el **`
is the address of `p->next`: a `struct el **` is named by its cell here.

The fields from `started` on are history: no step of the code reads them, but
each element is pushed once at most.

Key definitions: `Loc`, `St`, `stepThread`, `sys`, `Fresh`.
-/
import Perfbook.Conc.Sys
import Perfbook.Queue.Wf

namespace Perfbook
namespace Queue
namespace Q

open Conc

/-- Where a thread is in `q_push` or `q_pop`. `q_push` is called by users, and
by `q_pop` with the dummy. -/
inductive Loc (E : Type)
  | idle
  /-- `q_push(p)`, before `p->next = NULL` -/
  | clear (p : Cell E)
  /-- before `xchg(&q->tail, p)` -/
  | xchg (p : Cell E)
  /-- before `*oldtail = p` -/
  | link (p oldtail : Cell E)
  /-- `q_pop`, before `p = q->head` -/
  | getHead
  /-- before `pnext = p->next` -/
  | getNext (p : Cell E)
  /-- before `cmpxchg(&q->head, p, pnext)` -/
  | cas (p pnext : Cell E)
  /-- before `q->head == &q->dummy` -/
  | testHead

structure St (τ E : Type) where
  head : Cell E
  /-- whose `next` field `q->tail` points to -/
  tail : Cell E
  next : Cell E → Option (Cell E)
  loc : τ → Loc E
  /-- the elements for which a push was called -/
  started : E → Bool
  /-- those for which a thread called it, in order -/
  pushed : τ → List E
  /-- what calls of `q_pop` returned that did not return `NULL` -/
  returned : List (Cell E)

/-- What the scheduler can do: start a call, or let a thread take its next step. -/
inductive Act (τ E : Type)
  | push (t : τ) (e : E)
  | pop (t : τ)
  | step (t : τ)

variable {τ E : Type} [DecidableEq τ] [DecidableEq E]

namespace St

/-- The thread goes to another place. -/
def goto (s : St τ E) (t : τ) (l : Loc E) : St τ E := { s with loc := Function.update s.loc t l }

/-- A store to `c->next`. -/
def store (s : St τ E) (c : Cell E) (x : Option (Cell E)) : St τ E :=
  { s with next := Function.update s.next c x }

/-- A call of `q_push`. -/
def call (s : St τ E) (t : τ) (e : E) : St τ E :=
  { s with started := Function.update s.started e true
           pushed := Function.update s.pushed t (s.pushed t ++ [e]) }

/-- The `cmpxchg` found `p`: a user's element is returned. -/
def take (s : St τ E) (t : τ) (p pnext : Cell E) : St τ E :=
  match p with
  | .dummy => { s with head := pnext }.goto t (.clear .dummy)
  | .el e => { s with head := pnext, returned := s.returned ++ [Cell.el e] }.goto t .idle

end St

/-- The next step of thread `t`. -/
def stepThread (t : τ) (s : St τ E) : Option (St τ E) :=
  match s.loc t with
  | .idle => none
  | .clear p => some ((s.store p none).goto t (.xchg p))
  | .xchg p => some ({ s with tail := p }.goto t (.link p s.tail))
  | .link p oldtail =>
    some ((s.store oldtail (some p)).goto t (if p = .dummy then .testHead else .idle))
  | .getHead => some (s.goto t (.getNext s.head))
  | .getNext p =>
    match s.next p with
    | none => some (s.goto t .idle)
    | some pnext => some (s.goto t (.cas p pnext))
  | .cas p pnext => if s.head = p then some (s.take t p pnext) else some (s.goto t .getHead)
  | .testHead => some (s.goto t (if s.head = .dummy then .idle else .getHead))

/-- What an action does. -/
def next : Act τ E → St τ E → Option (St τ E)
  | .push t e, s =>
    match s.loc t, s.started e with
    | .idle, false => some ((s.call t e).goto t (.clear (.el e)))
    | _, _ => none
  | .pop t, s =>
    match s.loc t with
    | .idle => some (s.goto t .getHead)
    | _ => none
  | .step t, s => stepThread t s

/-- After `init_q`: the dummy is the only cell, and no call runs. -/
structure Init (s : St τ E) : Prop where
  head : s.head = .dummy
  tail : s.tail = .dummy
  next : s.next .dummy = none
  loc : ∀ t, s.loc t = .idle
  started : ∀ e, s.started e = false
  pushed : ∀ t, s.pushed t = []
  returned : s.returned = []

def sys (τ E : Type) [DecidableEq τ] [DecidableEq E] : Sys (St τ E) (Act τ E) := ⟨Init, next⟩

/-- A `cmpxchg` that is going to succeed: the link of the cell is still the one that was read. -/
def FreshAt (s : St τ E) : Loc E → Prop
  | .cas p pnext => s.head = p → s.next p = some pnext
  | _ => True

def Fresh : Act τ E → St τ E → Prop
  | .step t, s => FreshAt s (s.loc t)
  | _, _ => True

instance (s : St τ E) : ∀ l, Decidable (FreshAt s l)
  | .cas p pnext => inferInstanceAs (Decidable (s.head = p → s.next p = some pnext))
  | .idle | .clear _ | .xchg _ | .link _ _ | .getHead | .getNext _ | .testHead => .isTrue trivial

instance : ∀ (a : Act τ E) (s : St τ E), Decidable (Fresh a s)
  | .step t, s => inferInstanceAs (Decidable (FreshAt s (s.loc t)))
  | .push _ _, _ | .pop _, _ => .isTrue trivial

/-- The element was pushed, and the call has returned. -/
def St.Pushed (s : St τ E) (e : E) : Prop :=
  ∃ t, e ∈ s.pushed t ∧ s.loc t ≠ .clear (.el e) ∧ s.loc t ≠ .xchg (.el e) ∧
    ∀ c, s.loc t ≠ .link (.el e) c

/-- The links lead from the head to the element. -/
def St.Reachable (s : St τ E) (e : E) : Prop :=
  Relation.ReflTransGen (fun a b => s.next a = some b) s.head (.el e)

/-- The links and those that pushes still have to store lead from the head to the element. -/
def St.Leads (s : St τ E) (e : E) : Prop :=
  Relation.ReflTransGen (fun a b => s.next a = some b ∨ ∃ t, s.loc t = .link b a) s.head (.el e)

/-- Each element is returned once at most, none is lost, those of a thread come
in order. -/
structure Delivers (s : St τ E) : Prop where
  once : s.returned.Nodup
  noDummy : .dummy ∉ s.returned
  kept : ∀ e, s.Pushed e → .el e ∉ s.returned → s.Leads e
  order : ∀ t, (s.returned.filter fun c => c ∈ (s.pushed t).map Cell.el) <+: (s.pushed t).map Cell.el

/-- Elements that can be reached can be reached until they are returned. -/
def StaysReachable (s : St τ E) : Prop :=
  ∀ a s', Fresh a s → next a s = some s' → ∀ e, s.Reachable e → .el e ∉ s'.returned →
    s'.Reachable e

end Q
end Queue
end Perfbook
