/-
# `advsync/wfenqueue.c`: wait-free enqueue, blocking dequeue

The queue is a chain of cells from `head`; `tail` points to the `next` field
of the last cell whose push did its `xchg`. A push exchanges the tail first and
links its predecessor later (`*tail = ep`), so between the two the chain is
broken at the predecessor. A dequeuer holds the mutex, waits until the first
cell has its link, and moves `head` on; if the cell it took is the dummy it
pushes that again and starts over. Each access to shared memory is a step.

`next` is the first field of `struct el`, so the cast of `ep` to `struct el **`
is the address of `ep->next`: a `struct el **` is named by its cell here.

A call of `q_push` hands its element over, `q_pop` hands one back; an element
that is handed over is not pushed a second time (`busy`).

The fields from `busy` on are history: no step of the code reads them.

Key definitions: `Cell`, `Loc`, `St`, `stepThread`, `sys`.
-/
import Perfbook.Conc.Sys
import Perfbook.Conc.Objects

namespace Perfbook
namespace Queue

open Conc

/-- A `struct el`: the queue's own, or a user's. -/
inductive Cell (E : Type)
  | dummy
  | el (e : E)
deriving DecidableEq

namespace Wf

/-- Where a thread is in `q_push` or `q_pop`, with the locals it still needs.
`q_push` is called by users, and by `__q_pop` with the dummy. -/
inductive Loc (E : Type)
  | idle
  /-- `q_push(ep)`, before `ep->next = NULL` -/
  | clear (ep : Cell E)
  /-- before `xchg(&qp->tail, ep)` -/
  | xchg (ep : Cell E)
  /-- before `*tail = ep` -/
  | link (ep tail : Cell E)
  /-- `q_pop`, before `spin_lock(&qp->mutex)` -/
  | lock
  /-- `__q_pop`, before `qp->head == &qp->dummy` -/
  | testHead
  /-- before `qp->tail == &qp->dummy.next` -/
  | testTail
  /-- before `ep = qp->head` -/
  | getHead
  /-- before a test of `ep->next == NULL` -/
  | wait (ep : Cell E)
  /-- before reading `ep->next` for `head` -/
  | loadNext (ep : Cell E)
  /-- before `qp->head = next` -/
  | setHead (ep : Cell E) (next : Option (Cell E))
  /-- before `spin_unlock(&qp->mutex)`, and the return of `ep` -/
  | unlock (ep : Option (Cell E))

/-- What happened, in order. -/
inductive Note (E : Type)
  /-- a push of a user's element exchanged the tail -/
  | exchanged (e : E)
  /-- `__q_pop` found the queue empty -/
  | null
  /-- `q_pop` returned a cell -/
  | returned (c : Cell E)

structure St (τ E : Type) where
  head : Option (Cell E)
  /-- whose `next` field `qp->tail` points to -/
  tail : Cell E
  next : Cell E → Option (Cell E)
  mutex : Option τ
  loc : τ → Loc E
  /-- the element is handed over to the queue -/
  busy : E → Bool
  log : List (Note E)
  hist : List (Ev τ (QueueOp (Cell E)) (Res (Cell E)))

/-- What the scheduler can do: start a call, or let a thread take its next step. -/
inductive Act (τ E : Type)
  | push (t : τ) (e : E)
  | pop (t : τ)
  | step (t : τ)

variable {τ E : Type} [DecidableEq τ] [DecidableEq E]

namespace St

/-- The thread goes to another place. -/
def goto (s : St τ E) (t : τ) (l : Loc E) : St τ E := { s with loc := Function.update s.loc t l }

/-- A store to `c->next`. -/
def store (s : St τ E) (c : Cell E) (x : Option (Cell E)) : St τ E :=
  { s with next := Function.update s.next c x }

def note (s : St τ E) (n : Note E) : St τ E := { s with log := s.log ++ [n] }

/-- A call begins. -/
def call (s : St τ E) (t : τ) (o : QueueOp (Cell E)) : St τ E :=
  { s with hist := s.hist ++ [.call t o] }

/-- A call returns. -/
def ret (s : St τ E) (t : τ) (r : Res (Cell E)) : St τ E := { s with hist := s.hist ++ [.ret t r] }

/-- The element is handed over, or back. -/
def hand (s : St τ E) (e : E) (b : Bool) : St τ E := { s with busy := Function.update s.busy e b }

/-- `xchg(&qp->tail, ep)`. -/
def exchange (s : St τ E) (ep : Cell E) : St τ E :=
  match ep with
  | .dummy => { s with tail := ep }
  | .el e => { s with tail := ep }.note (.exchanged e)

/-- The unlock, and the return of `ep`. -/
def finish (s : St τ E) (t : τ) (ep : Option (Cell E)) : St τ E :=
  match ep with
  | some (.el e) =>
    ((({ s with mutex := none }.note (.returned (.el e))).hand e false).ret t
      (.popped (some (.el e)))).goto t .idle
  | some .dummy =>
    (({ s with mutex := none }.note (.returned .dummy)).ret t (.popped (some .dummy))).goto t .idle
  | none => ({ s with mutex := none }.ret t (.popped none)).goto t .idle

end St

/-- The next step of thread `t`. -/
def stepThread (t : τ) (s : St τ E) : Option (St τ E) :=
  match s.loc t with
  | .idle => none
  | .clear ep => some ((s.store ep none).goto t (.xchg ep))
  | .xchg ep => some ((s.exchange ep).goto t (.link ep s.tail))
  | .link .dummy tail => some ((s.store tail (some .dummy)).goto t .testHead)
  | .link (.el e) tail => some (((s.store tail (some (.el e))).ret t .pushed).goto t .idle)
  | .lock =>
    match s.mutex with
    | none => some ({ s with mutex := some t }.goto t .testHead)
    | some _ => none
  | .testHead => some (s.goto t (if s.head = some .dummy then .testTail else .getHead))
  | .testTail =>
    if s.tail = .dummy then some ((s.note .null).goto t (.unlock none))
    else some (s.goto t .getHead)
  | .getHead =>
    match s.head with
    | some ep => some (s.goto t (.wait ep))
    | none => none
  | .wait ep => some (s.goto t (if s.next ep = none then .wait ep else .loadNext ep))
  | .loadNext ep => some (s.goto t (.setHead ep (s.next ep)))
  | .setHead ep next =>
    some ({ s with head := next }.goto t
      (if ep = Cell.dummy then .clear .dummy else .unlock (some ep)))
  | .unlock ep => some (s.finish t ep)

/-- What an action does. -/
def next : Act τ E → St τ E → Option (St τ E)
  | .push t e, s =>
    match s.loc t, s.busy e with
    | .idle, false => some (((s.hand e true).call t (.push (.el e))).goto t (.clear (.el e)))
    | _, _ => none
  | .pop t, s =>
    match s.loc t with
    | .idle => some ((s.call t .pop).goto t .lock)
    | _ => none
  | .step t, s => stepThread t s

/-- After `init_q`: the dummy is the only cell, and no call runs. -/
structure Init (s : St τ E) : Prop where
  head : s.head = some .dummy
  tail : s.tail = .dummy
  next : s.next .dummy = none
  mutex : s.mutex = none
  loc : ∀ t, s.loc t = .idle
  busy : ∀ e, s.busy e = false
  log : s.log = []
  hist : s.hist = []

def sys (τ E : Type) [DecidableEq τ] [DecidableEq E] : Sys (St τ E) (Act τ E) := ⟨Init, next⟩

end Wf
end Queue
end Perfbook
