/-
# `SMPdesign/locktdeq.c`: two deques in tandem

The left deque and the right deque have a lock each, and the whole is the
left one followed by the right one. A pop that finds its own deque empty
takes from the other one under both locks and then moves all the rest over.
The left lock is taken first, so `pdeq_pop_r` drops the right lock before, and
looks again when it has both.

Taking a lock, what is done with it, and releasing it are steps of their own.

`done` is history: the operations in the order in which they changed the
deque. No step of the code reads it.

Key definitions: `Loc`, `St`, `stepThread`, `sys`.
-/
import Perfbook.Conc.Sys
import Perfbook.Conc.Objects
import Perfbook.Deque.Deq

namespace Perfbook
namespace Deque
namespace Tandem

open Conc

/-- Where a thread is in the four operations, with the locals it still needs. -/
inductive Loc (E : Type)
  | idle
  /-- `pdeq_push_l(e)`, before `spin_lock(&d->llock)` -/
  | pushLLock (e : E)
  /-- before `deq_push_l(e, &d->ldeq)` -/
  | pushLQue (e : E)
  /-- before `spin_unlock(&d->llock)` -/
  | pushLRel
  /-- `pdeq_push_r(e)`, before `spin_lock(&d->rlock)` -/
  | pushRLock (e : E)
  /-- before `deq_push_r(e, &d->rdeq)` -/
  | pushRQue (e : E)
  /-- before `spin_unlock(&d->rlock)` -/
  | pushRRel
  /-- `pdeq_pop_l`, before `spin_lock(&d->llock)` -/
  | popLLockL
  /-- before `deq_pop_l(&d->ldeq)` -/
  | popLDeqL
  /-- before `spin_lock(&d->rlock)` -/
  | popLLockR
  /-- before `deq_pop_l(&d->rdeq)` and the splice -/
  | popLMove
  /-- before `spin_unlock(&d->rlock)` -/
  | popLRelR (e : Option E)
  /-- before `spin_unlock(&d->llock)` and the return of `e` -/
  | popLRelL (e : Option E)
  /-- `pdeq_pop_r`, before the first `spin_lock(&d->rlock)` -/
  | popRLockR
  /-- before the first `deq_pop_r(&d->rdeq)` -/
  | popRDeqR
  /-- before `spin_unlock(&d->rlock)` when that gave `NULL` -/
  | popRDrop
  /-- before `spin_lock(&d->llock)` -/
  | popRLockL
  /-- before `spin_lock(&d->rlock)` with the left lock held -/
  | popRRelock
  /-- before the second `deq_pop_r(&d->rdeq)`, and what follows under both locks -/
  | popRMove
  /-- before `spin_unlock(&d->llock)` -/
  | popRRelL (e : Option E)
  /-- before `spin_unlock(&d->rlock)` and the return of `e` -/
  | popRRelR (e : Option E)

structure St (τ E : Type) where
  llock : Option τ
  ldeq : List E
  rlock : Option τ
  rdeq : List E
  loc : τ → Loc E
  hist : List (Ev τ (DequeOp E) (Res E))
  done : List (Op τ (DequeOp E) (Res E))

/-- What the scheduler can do: start a call, or let a thread take its next step. -/
inductive Act (τ E : Type)
  | call (t : τ) (o : DequeOp E)
  | step (t : τ)

variable {τ E : Type} [DecidableEq τ]

/-- Where a call starts. -/
def entry : DequeOp E → Loc E
  | .pushL e => .pushLLock e
  | .pushR e => .pushRLock e
  | .popL => .popLLockL
  | .popR => .popRLockR

namespace St

/-- The thread goes to another place. -/
def goto (s : St τ E) (t : τ) (l : Loc E) : St τ E := { s with loc := Function.update s.loc t l }

/-- `spin_lock(&d->llock)`. -/
def lockL (s : St τ E) (t : τ) (l : Loc E) : Option (St τ E) :=
  if s.llock = none then some ({ s with llock := some t }.goto t l) else none

/-- `spin_lock(&d->rlock)`. -/
def lockR (s : St τ E) (t : τ) (l : Loc E) : Option (St τ E) :=
  if s.rlock = none then some ({ s with rlock := some t }.goto t l) else none

def unlockL (s : St τ E) : St τ E := { s with llock := none }

def unlockR (s : St τ E) : St τ E := { s with rlock := none }

/-- The call returns. -/
def ret (s : St τ E) (t : τ) (r : Res E) : St τ E :=
  { s with hist := s.hist ++ [Ev.ret t r] }.goto t .idle

/-- The call changed the deque. -/
def effect (s : St τ E) (t : τ) (o : DequeOp E) (r : Res E) : St τ E :=
  { s with done := s.done ++ [⟨t, o, r⟩] }

end St

/-- The next step of thread `t`. -/
def stepThread (t : τ) (s : St τ E) : Option (St τ E) :=
  match s.loc t with
  | .idle => none
  | .pushLLock e => s.lockL t (.pushLQue e)
  | .pushLQue e =>
    some (({ s with ldeq := deqPushL e s.ldeq }.effect t (.pushL e) .pushed).goto t .pushLRel)
  | .pushLRel => some (s.unlockL.ret t .pushed)
  | .pushRLock e => s.lockR t (.pushRQue e)
  | .pushRQue e =>
    some (({ s with rdeq := deqPushR e s.rdeq }.effect t (.pushR e) .pushed).goto t .pushRRel)
  | .pushRRel => some (s.unlockR.ret t .pushed)
  | .popLLockL => s.lockL t .popLDeqL
  | .popLDeqL =>
    match deqPopL s.ldeq with
    | (some e, d) =>
      some (({ s with ldeq := d }.effect t .popL (.popped (some e))).goto t (.popLRelL (some e)))
    | (none, d) => some ({ s with ldeq := d }.goto t .popLLockR)
  | .popLLockR => s.lockR t .popLMove
  | .popLMove =>
    let (e, d) := deqPopL s.rdeq
    some (({ s with ldeq := listSplice d s.ldeq, rdeq := [] }.effect t .popL (.popped e)).goto t
      (.popLRelR e))
  | .popLRelR e => some (s.unlockR.goto t (.popLRelL e))
  | .popLRelL e => some (s.unlockL.ret t (.popped e))
  | .popRLockR => s.lockR t .popRDeqR
  | .popRDeqR =>
    match deqPopR s.rdeq with
    | (some e, d) =>
      some (({ s with rdeq := d }.effect t .popR (.popped (some e))).goto t (.popRRelR (some e)))
    | (none, d) => some ({ s with rdeq := d }.goto t .popRDrop)
  | .popRDrop => some (s.unlockR.goto t .popRLockL)
  | .popRLockL => s.lockL t .popRRelock
  | .popRRelock => s.lockR t .popRMove
  | .popRMove =>
    match deqPopR s.rdeq with
    | (some e, d) =>
      some (({ s with rdeq := d }.effect t .popR (.popped (some e))).goto t (.popRRelL (some e)))
    | (none, d) =>
      let (e, d') := deqPopR s.ldeq
      some (({ s with ldeq := [], rdeq := listSplice d' d }.effect t .popR (.popped e)).goto t
        (.popRRelL e))
  | .popRRelL e => some (s.unlockL.goto t (.popRRelR e))
  | .popRRelR e => some (s.unlockR.ret t (.popped e))

/-- What an action does. -/
def next : Act τ E → St τ E → Option (St τ E)
  | .call t o, s =>
    match s.loc t with
    | .idle => some ({ s with hist := s.hist ++ [Ev.call t o] }.goto t (entry o))
    | _ => none
  | .step t, s => stepThread t s

/-- After `init_pdeq`: nothing inside, the locks free, no call running. -/
structure Init (s : St τ E) : Prop where
  llock : s.llock = none
  ldeq : s.ldeq = []
  rlock : s.rlock = none
  rdeq : s.rdeq = []
  loc : ∀ t, s.loc t = .idle
  hist : s.hist = []
  done : s.done = []

def sys (τ E : Type) [DecidableEq τ] : Sys (St τ E) (Act τ E) := ⟨Init, next⟩

end Tandem
end Deque
end Perfbook
