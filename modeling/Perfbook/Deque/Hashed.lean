/-
# `SMPdesign/lockhdeq.c` and `SMPdesign/lockdeq.c`: hashed deques

Four buckets, each a deque with a lock, and an index with a lock at each end:
the element at a position is in the bucket of the position modulo four, so the
two ends work in different buckets most of the time. An operation takes the
lock of its end, reads the index, does its part in one bucket under that
bucket's lock, and moves the index on.

The two files are the same but for one thing: `lockdeq.c` moves the index
before it releases the bucket, `lockhdeq.c` (where the bucket is a
single-locked deque of its own) afterwards. Taking a lock, each thing done with
it, and releasing it are steps of their own.

The four operations are one definition here: an end, and the element to push,
if any (`opOf`). `done` is history: the operations in the order in which they
changed a bucket. No step of the code reads it.

Key definitions: `File`, `Side`, `moveleft`, `moveright`, `Loc`, `St`, `stepThread`, `sys`.
-/
import Perfbook.Conc.Sys
import Perfbook.Conc.Objects
import Perfbook.Deque.Deq

namespace Perfbook
namespace Deque
namespace Hashed

open Conc

/-- Which of the two programs. -/
inductive File
  | lockhdeq
  | lockdeq
deriving DecidableEq

/-- An end of the deque. -/
inductive Side
  | left
  | right
deriving DecidableEq

/-- `int`. -/
abbrev Word := BitVec 32

/-- `PDEQ_N_BKTS`, `DEQ_N_BKTS`. -/
def nBkts : Word := 4

def moveleft (idx : Word) : Word := (idx - 1) &&& (nBkts - 1)

def moveright (idx : Word) : Word := (idx + 1) &&& (nBkts - 1)

/-- Where a thread is in the four operations, with the locals it still needs:
the end `d`, the element `o` to push or none for a pop, the bucket `i`, and
what the operation will return. -/
inductive Loc (E : Type)
  | idle
  /-- before `spin_lock` of the index lock -/
  | lock (d : Side) (o : Option E)
  /-- before the index is read -/
  | index (d : Side) (o : Option E)
  /-- before `spin_lock(&p->lock)` -/
  | bktLock (d : Side) (o : Option E) (i : Word)
  /-- before the list of the bucket is used -/
  | bktOp (d : Side) (o : Option E) (i : Word)
  /-- before `spin_unlock(&p->lock)` -/
  | bktUnlock (d : Side) (i : Word) (r : Res E)
  /-- before the index is moved -/
  | record (d : Side) (i : Word) (r : Res E)
  /-- before `spin_unlock` of the index lock, and the return -/
  | unlock (d : Side) (r : Res E)

structure St (τ E : Type) where
  /-- `lidx` and `ridx` -/
  idx : Side → Word
  /-- `llock` and `rlock` -/
  lock : Side → Option τ
  bkt : Word → List E
  bktLock : Word → Option τ
  loc : τ → Loc E
  hist : List (Ev τ (DequeOp E) (Res E))
  done : List (Op τ (DequeOp E) (Res E))

/-- What the scheduler can do: start a call, or let a thread take its next step. -/
inductive Act (τ E : Type)
  | call (t : τ) (d : Side) (o : Option E)
  | step (t : τ)

variable {τ E : Type} [DecidableEq τ]

/-- The operation at an end. -/
def opOf : Side → Option E → DequeOp E
  | .left, some e => .pushL e
  | .left, none => .popL
  | .right, some e => .pushR e
  | .right, none => .popR

/-- The bucket that is used: `lidx` and `ridx` for a push, one further in for a pop. -/
def target : Side → Option E → Word → Word
  | _, some _, idx => idx
  | .left, none, idx => moveright idx
  | .right, none, idx => moveleft idx

/-- What is done with the list of the bucket. -/
def bktApply : Side → Option E → List E → List E × Res E
  | .left, some e, b => (deqPushL e b, .pushed)
  | .right, some e, b => (deqPushR e b, .pushed)
  | .left, none, b => ((deqPopL b).2, .popped (deqPopL b).1)
  | .right, none, b => ((deqPopR b).2, .popped (deqPopR b).1)

/-- The index afterwards: one further out after a push, the bucket used after a
pop that got an element. -/
def newIdx : Side → Word → Res E → Word → Word
  | .left, _, .pushed, idx => moveleft idx
  | .right, _, .pushed, idx => moveright idx
  | _, i, .popped (some _), _ => i
  | _, _, .popped none, idx => idx

/-! ### Where the two files differ -/

def afterOp : File → Side → Word → Res E → Loc E
  | .lockhdeq, d, i, r => .bktUnlock d i r
  | .lockdeq, d, i, r => .record d i r

def afterBktUnlock : File → Side → Word → Res E → Loc E
  | .lockhdeq, d, i, r => .record d i r
  | .lockdeq, d, _, r => .unlock d r

def afterRecord : File → Side → Word → Res E → Loc E
  | .lockhdeq, d, _, r => .unlock d r
  | .lockdeq, d, i, r => .bktUnlock d i r

/-! ### The steps -/

namespace St

/-- The thread goes to another place. -/
def goto (s : St τ E) (t : τ) (l : Loc E) : St τ E := { s with loc := Function.update s.loc t l }

def setLock (s : St τ E) (d : Side) (x : Option τ) : St τ E :=
  { s with lock := Function.update s.lock d x }

def setBktLock (s : St τ E) (i : Word) (x : Option τ) : St τ E :=
  { s with bktLock := Function.update s.bktLock i x }

def setIdx (s : St τ E) (d : Side) (i : Word) : St τ E :=
  { s with idx := Function.update s.idx d i }

/-- The operation of `t` changes its bucket. -/
def apply (s : St τ E) (t : τ) (d : Side) (o : Option E) (i : Word) : St τ E :=
  { s with
    bkt := Function.update s.bkt i (bktApply d o (s.bkt i)).1
    done := s.done ++ [⟨t, opOf d o, (bktApply d o (s.bkt i)).2⟩] }

/-- The call returns. -/
def ret (s : St τ E) (t : τ) (r : Res E) : St τ E :=
  { s with hist := s.hist ++ [Ev.ret t r] }.goto t .idle

end St

/-- The next step of thread `t`. -/
def stepThread (v : File) (t : τ) (s : St τ E) : Option (St τ E) :=
  match s.loc t with
  | .idle => none
  | .lock d o => if s.lock d = none then some ((s.setLock d (some t)).goto t (.index d o)) else none
  | .index d o => some (s.goto t (.bktLock d o (target d o (s.idx d))))
  | .bktLock d o i =>
    if s.bktLock i = none then some ((s.setBktLock i (some t)).goto t (.bktOp d o i)) else none
  | .bktOp d o i => some ((s.apply t d o i).goto t (afterOp v d i (bktApply d o (s.bkt i)).2))
  | .bktUnlock d i r => some ((s.setBktLock i none).goto t (afterBktUnlock v d i r))
  | .record d i r => some ((s.setIdx d (newIdx d i r (s.idx d))).goto t (afterRecord v d i r))
  | .unlock d r => some ((s.setLock d none).ret t r)

/-- What an action does. -/
def next (v : File) : Act τ E → St τ E → Option (St τ E)
  | .call t d o, s =>
    match s.loc t with
    | .idle => some ({ s with hist := s.hist ++ [Ev.call t (opOf d o)] }.goto t (.lock d o))
    | _ => none
  | .step t, s => stepThread v t s

/-- After `init_pdeq`: nothing inside, the locks free, no call running. -/
structure Init (s : St τ E) : Prop where
  lidx : s.idx .left = 0
  ridx : s.idx .right = 1
  lock : ∀ d, s.lock d = none
  bkt : ∀ i, s.bkt i = []
  bktLock : ∀ i, s.bktLock i = none
  loc : ∀ t, s.loc t = .idle
  hist : s.hist = []
  done : s.done = []

def sys (v : File) (τ E : Type) [DecidableEq τ] : Sys (St τ E) (Act τ E) := ⟨Init, next v⟩

end Hashed
end Deque
end Perfbook
