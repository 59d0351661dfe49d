/-
# `SMPdesign/lockrwdeq.c`: a deque under a reader-writer lock

An operation takes the lock for reading and makes a reservation in `counter`.
If the counter says that there are elements enough, it goes on under the read
lock, side by side with others; if not, it takes the lock for writing.

The list is liburcu's, which is not part of the repository: its functions are
a parameter, programs over the links (`CdsList`), and what is relied on is which
stores each of them makes, in whatever order. Each access of a link is a step,
as are taking and releasing the lock and each operation on the counter. An
element is pushed by a caller who has it (`out`), and nothing of the code reads
`out`, `pushed` and `popped`.

Key definitions: `CdsList`, `deqPop`, `stepThread`, `sys`, `ahead`, `Safe`, `Collide`, `Guarded`.
-/
import Mathlib.Data.Fintype.Defs
import Mathlib.Data.Int.Notation
import Mathlib.Data.List.Perm.Basic
import Perfbook.Conc.Prog
import Perfbook.Conc.Ring
import Perfbook.Conc.Sys

namespace Perfbook
namespace Deque
namespace Rw

open Conc

inductive End
  | left
  | right
deriving DecidableEq

inductive Dir
  | next
  | prev
deriving DecidableEq

/-- A `struct cds_list_head *`: the deque's own, or an element's. -/
inductive Ptr (E : Type)
  | chain
  | el (e : E)
deriving DecidableEq

def End.other : End → End
  | .left => .right
  | .right => .left

def Dir.flip : Dir → Dir
  | .next => .prev
  | .prev => .next

/-- The link from the head to that end of the deque. -/
def End.dir : End → Dir
  | .left => .prev
  | .right => .next

abbrev Field (E : Type) := Ptr E × Dir
abbrev Heap (E : Type) := Field E → Ptr E
abbrev Code (E A : Type) := Prog (Field E) (Ptr E) A

section List

variable {E : Type}

/-- The stores that put `c` next to the head: `cds_list_add` in the direction
`next`, `cds_list_add_tail` in the direction `prev`. -/
def addStores (d : Dir) (c : Ptr E) (h : Heap E) : List (Field E × Ptr E) :=
  [((c, d), h (.chain, d)), ((.chain, d), c), ((c, d.flip), .chain), ((h (.chain, d), d.flip), c)]

/-- The stores of `cds_list_del`. -/
def delStores (c : Ptr E) (h : Heap E) : List (Field E × Ptr E) :=
  [((h (c, .next), .prev), h (c, .prev)), ((h (c, .prev), .next), h (c, .next))]

/-- The stores of `CDS_INIT_LIST_HEAD`. -/
def initStores (c : Ptr E) : List (Field E × Ptr E) := [((c, .next), c), ((c, .prev), c)]

end List

/-- What the deque uses of liburcu's lists, and relies on. -/
structure CdsList (E : Type) [DecidableEq E] where
  /-- `cds_list_add(c, &p->chain)` -/
  add : Ptr E → Code E Unit
  /-- `cds_list_add_tail(c, &p->chain)` -/
  addTail : Ptr E → Code E Unit
  /-- `cds_list_del(c)` -/
  del : Ptr E → Code E Unit
  /-- `CDS_INIT_LIST_HEAD(c)` -/
  initHead : Ptr E → Code E Unit
  /-- the link that `cds_list_empty(&p->chain)` compares with `&p->chain` -/
  empty : Dir
  add_does : ∀ c h, (add c).Does h [(.chain, .next)] (addStores .next c h)
  addTail_does : ∀ c h, (addTail c).Does h [(.chain, .prev)] (addStores .prev c h)
  del_does : ∀ c h, (del c).Does h [(c, .next), (c, .prev)] (delStores c h)
  initHead_does : ∀ c h, (initHead c).Does h [] (initStores c)

/-- The lock is held for reading, or for writing. -/
inductive Mode
  | rd
  | wr
deriving DecidableEq

/-- `pdeq_pop_l`, `pdeq_pop_r`, `pdeq_push_l` and `pdeq_push_r`. -/
inductive Op (E : Type)
  | pop (d : End)
  | push (d : End) (e : E)

def Op.side {E : Type} : Op E → End
  | .pop d | .push d _ => d

/-- What `atomic_sub_return` takes from the counter. -/
def Op.take {E : Type} : Op E → ℤ
  | .pop _ => 2
  | .push _ _ => 1

/-- What is given back in the end: `atomic_inc`, or `atomic_add(2)`. -/
def Op.give {E : Type} : Op E → ℤ
  | .pop _ => 1
  | .push _ _ => 2

/-- Where a thread is, with the locals it still needs. -/
inductive Loc (E : Type)
  | idle
  /-- before `pthread_rwlock_rdlock` -/
  | rdlock (o : Op E)
  /-- before `atomic_sub_return` -/
  | sub (o : Op E)
  /-- before `pthread_rwlock_unlock`, to take the lock for writing -/
  | unlock (o : Op E)
  /-- before `pthread_rwlock_wrlock` -/
  | wrlock (o : Op E)
  /-- `deq_pop_l` and `deq_pop_r`: before `cds_list_empty` -/
  | test (m : Mode) (d : End)
  /-- in the rest of a `deq_` function -/
  | work (m : Mode) (o : Op E) (p : Code E (Option (Ptr E)))
  /-- `e == NULL`: before the `atomic_inc` that is for this case only -/
  | incNull (m : Mode) (d : End)
  /-- before the last `atomic_inc`, or `atomic_add` -/
  | inc (m : Mode) (o : Op E) (e : Option (Ptr E))
  /-- before the last `pthread_rwlock_unlock` -/
  | leave (m : Mode) (o : Op E) (e : Option (Ptr E))

structure St (τ E : Type) where
  link : Heap E
  counter : ℤ
  /-- who holds the lock for reading -/
  readers : τ → Bool
  /-- who holds it for writing -/
  writer : Option τ
  loc : τ → Loc E
  /-- the callers have the element -/
  out : E → Bool
  /-- what the `deq_push` functions were called with -/
  pushed : List (Ptr E)
  /-- what the `deq_pop` functions took out -/
  popped : List (Ptr E)

/-- What the scheduler can do: start a call, or let a thread take its next step. -/
inductive Act (τ E : Type)
  | pop (t : τ) (d : End)
  | push (t : τ) (d : End) (e : E)
  | step (t : τ)

variable {τ E : Type} [DecidableEq τ] [Fintype τ] [DecidableEq E] (L : CdsList E)

/-- `deq_pop_l` and `deq_pop_r`, when the list is not empty: `d` is `prev` or `next`. -/
def deqPop (d : Dir) : Code E (Option (Ptr E)) :=
  .read (.chain, d) fun e => (L.del e).bind fun _ => (L.initHead e).bind fun _ => .ret (some e)

def deqPopL : Code E (Option (Ptr E)) := deqPop L .prev

def deqPopR : Code E (Option (Ptr E)) := deqPop L .next

def deqPushL (e : E) : Code E (Option (Ptr E)) := (L.addTail (.el e)).bind fun _ => .ret none

def deqPushR (e : E) : Code E (Option (Ptr E)) := (L.add (.el e)).bind fun _ => .ret none

/-- The `deq_` function of an operation. -/
def deq : Op E → Code E (Option (Ptr E))
  | .pop .left => deqPopL L
  | .pop .right => deqPopR L
  | .push .left e => deqPushL L e
  | .push .right e => deqPushR L e

namespace St

/-- The thread goes to another place. -/
def goto (s : St τ E) (t : τ) (l : Loc E) : St τ E := { s with loc := Function.update s.loc t l }

/-- The thread comes to the `deq_` function. -/
def enter (s : St τ E) (t : τ) (m : Mode) : Op E → St τ E
  | .pop d => s.goto t (.test m d)
  | .push d e =>
    { s with pushed := .el e :: s.pushed }.goto t (.work m (.push d e) (deq L (.push d e)))

/-- `pthread_rwlock_unlock`. -/
def release (s : St τ E) (t : τ) : Mode → St τ E
  | .rd => { s with readers := Function.update s.readers t false }
  | .wr => { s with writer := none }

/-- The `deq_` function returns. -/
def finish (s : St τ E) (t : τ) (m : Mode) (o : Op E) (e : Option (Ptr E)) : St τ E :=
  { s with popped := e.toList ++ s.popped }.goto t (.inc m o e)

/-- The caller has the element. -/
def handOut (s : St τ E) : Option (Ptr E) → St τ E
  | some (.el e) => { s with out := Function.update s.out e true }
  | _ => s

end St

/-- The next step of thread `t`. -/
def stepThread (t : τ) (s : St τ E) : Option (St τ E) :=
  match s.loc t with
  | .idle => none
  | .rdlock o =>
    match s.writer with
    | none => some ({ s with readers := Function.update s.readers t true }.goto t (.sub o))
    | some _ => none
  | .sub o =>
    if s.counter - o.take < 1 then
      some ({ s with counter := s.counter - o.take }.goto t (.unlock o))
    else some ({ s with counter := s.counter - o.take }.enter L t .rd o)
  | .unlock o => some ((s.release t .rd).goto t (.wrlock o))
  | .wrlock o =>
    if s.writer = none ∧ ∀ u, s.readers u = false then
      some ({ s with writer := some t }.enter L t .wr o)
    else none
  | .test m d =>
    if s.link (.chain, L.empty) = .chain then some (s.goto t (.incNull m d))
    else some (s.goto t (.work m (.pop d) (deq L (.pop d))))
  | .work m o (.ret e) => some (s.finish t m o e)
  | .work m o (.read f k) => some (s.goto t (.work m o (k (s.link f))))
  | .work m o (.write f x p) =>
    some ({ s with link := Function.update s.link f x }.goto t (.work m o p))
  | .incNull m d => some ({ s with counter := s.counter + 1 }.goto t (.inc m (.pop d) none))
  | .inc m o e => some ({ s with counter := s.counter + o.give }.goto t (.leave m o e))
  | .leave m _ e => some (((s.release t m).handOut e).goto t .idle)

/-- What an action does. -/
def next : Act τ E → St τ E → Option (St τ E)
  | .pop t d, s =>
    match s.loc t with
    | .idle => some (s.goto t (.rdlock (.pop d)))
    | _ => none
  | .push t d e, s =>
    match s.loc t with
    | .idle =>
      if s.out e then
        some ({ s with out := Function.update s.out e false }.goto t (.rdlock (.push d e)))
      else none
    | _ => none
  | .step t, s => stepThread L t s

/-- After `init_pdeq`. -/
structure Init (s : St τ E) : Prop where
  link : ∀ d, s.link (.chain, d) = .chain
  counter : s.counter = 0
  readers : ∀ t, s.readers t = false
  writer : s.writer = none
  loc : ∀ t, s.loc t = .idle
  pushed : s.pushed = []
  popped : s.popped = []

variable (τ) in
def sys : Sys (St τ E) (Act τ E) := ⟨Init, next L⟩

/-! ### What is claimed -/

/-- The end that the thread is modifying. -/
def inside : Loc E → Option End
  | .test _ d => some d
  | .work _ o _ => some o.side
  | _ => none

/-- What the thread is still going to do to the links: `cds_list_empty` reads one too. -/
def ahead : Loc E → Option (End × Code E (Option (Ptr E)))
  | .test _ d =>
    some (d, .read (.chain, L.empty) fun x => if x = .chain then .ret none else deq L (.pop d))
  | .work _ o p => some (o.side, p)
  | _ => none

/-- The links in the direction of one end, and back. -/
def links (d : End) (h : Heap E) : Links (Ptr E) :=
  ⟨fun c => h (c, d.dir), fun c => h (c, d.dir.flip)⟩

/-- The links are those of a list, from the left end to the right. -/
def IsDeque (h : Heap E) (q : List E) : Prop := Ring Ptr.el .chain (links .left h) q

/-- One thread at a time is at each end, the two ends do not meet, and what was
pushed was popped or is in the list. -/
structure Safe (s : St τ E) : Prop where
  oneEnd : ∀ t u d, inside (s.loc t) = some d → inside (s.loc u) = some d → t = u
  apart : ∀ t u p r, ahead L (s.loc t) = some (.left, p) → ahead L (s.loc u) = some (.right, r) →
    Prog.Apart p r s.link
  lost : (∀ t, inside (s.loc t) = none) →
    ∃ q, IsDeque s.link q ∧ (s.popped ++ q.map Ptr.el).Perm s.pushed
  twice : s.popped.Subperm s.pushed

/-- The call that the thread is running. -/
def Loc.call : Loc E → Option (Op E)
  | .idle => none
  | .rdlock o | .sub o | .unlock o | .wrlock o | .work _ o _ | .inc _ o _ | .leave _ o _ => some o
  | .test _ d | .incNull _ d => some (.pop d)

/-- A pop whose `cds_list_empty` reads the head's link to the other end. -/
def Op.LooksAcross : Op E → Prop
  | .pop d => d.dir ≠ L.empty
  | .push _ _ => False

/-- Two calls for the same end, or for the two ends where one looks across. -/
def Collide (o o' : Op E) : Prop := o.side = o'.side ∨ o.LooksAcross L ∨ o'.LooksAcross L

/-- The read lock is kept, as the counter is large enough, only if no call is running that collides. -/
def GuardedAt (t : τ) (s : St τ E) : Loc E → Prop
  | .sub o => 1 ≤ s.counter - o.take → ∀ u, u ≠ t → ∀ o' ∈ (s.loc u).call, ¬ Collide L o o'
  | _ => True

def Guarded : Act τ E → St τ E → Prop
  | .step t, s => GuardedAt L t s (s.loc t)
  | _, _ => True

instance : (o : Op E) → Decidable (o.LooksAcross L)
  | .pop _ => inferInstanceAs (Decidable (_ ≠ _))
  | .push _ _ => .isFalse id

instance (o o' : Op E) : Decidable (Collide L o o') := inferInstanceAs (Decidable (_ ∨ _ ∨ _))

instance (t : τ) (s : St τ E) : (l : Loc E) → Decidable (GuardedAt L t s l)
  | .sub o => inferInstanceAs (Decidable (1 ≤ s.counter - o.take →
      ∀ u, u ≠ t → ∀ o' ∈ (s.loc u).call, ¬ Collide L o o'))
  | .idle | .rdlock _ | .unlock _ | .wrlock _ | .test _ _ | .work _ _ _ | .incNull _ _
  | .inc _ _ _ | .leave _ _ _ => .isTrue trivial

instance : (a : Act τ E) → (s : St τ E) → Decidable (Guarded L a s)
  | .step t, s => inferInstanceAs (Decidable (GuardedAt L t s (s.loc t)))
  | .pop _ _, _ | .push _ _ _, _ => .isTrue trivial

end Rw
end Deque
end Perfbook
