/-
# `defer/fakekernrcu.c`: `call_rcu` callbacks

`call_rcu` puts a callback at the end of `nextlist`. In each pass the daemon calls
`synchronize_rcu`, takes the callbacks of `waitlist` off, makes `nextlist` the new
`waitlist`, and invokes what it has taken off.

A section under the mutex is a step. The two stores of `call_rcu` before it are one,
as the head is the caller's until then; the head is the caller's again when the
callback is invoked (`used`), and then there may be anything in it (`reuse`).
`synchronize_rcu` may return at any time after its call. Where there is a pointer
to a head is a `Link`, so `nexttail` and `waittail` are links, and so is the local
`list` of the daemon. The sleep after 1000 passes does nothing.

`log`, `done`, `started`, `synced` and `ended` are history: the callbacks in the order of
their sections, with the number of passes that had started, those that were invoked, and
how many passes have started, have returned from `synchronize_rcu`, and have ended.

Key definitions: `Link`, `Daemon`, `St`, `stepDaemon`, `next`, `sys`, `InOrder`.
-/
import Perfbook.Conc.Linked
import Perfbook.Conc.Sys

namespace Perfbook
namespace FakeKern

open Conc

/-- A place for a `struct rcu_head *`. -/
inductive Link
  | nextlist
  | waitlist
  /-- the local variable of the daemon -/
  | list
  /-- `head->next` -/
  | next (head : ℕ)
deriving DecidableEq

/-- A callback that was enqueued, with the number of passes that had started. -/
structure Entry (F : Type) where
  head : ℕ
  func : F
  stamp : ℕ

/-- The argument of `list->func(list)`, and what is called. -/
def Entry.call {F : Type} (e : Entry F) : ℕ × F := (e.head, e.func)

/-- Where the daemon is. -/
inductive Daemon
  /-- before `synchronize_rcu` -/
  | start
  /-- in it -/
  | sync
  /-- before `spin_lock` -/
  | lock
  /-- before `while (list)` -/
  | loop
  /-- before `list->func(list)` -/
  | func (list : ℕ) (next : Option ℕ)
deriving DecidableEq

structure St (n : ℕ) (F : Type) where
  mem : Link → Option ℕ
  func : ℕ → F
  nexttail : Link
  waittail : Link
  /-- a thread in `call_rcu(head, func)`, before `spin_lock` -/
  caller : Fin n → Option (ℕ × F)
  daemon : Daemon
  used : ℕ → Bool
  log : List (Entry F)
  done : List (ℕ × F)
  started : ℕ
  synced : ℕ
  ended : ℕ

inductive Act (n : ℕ) (F : Type)
  /-- a thread calls `call_rcu(head, func)` -/
  | callRcu (t : Fin n) (head : ℕ) (func : F)
  /-- its section -/
  | enqueue (t : Fin n)
  | daemon
  /-- the memory of a head is used for something else -/
  | reuse (head : ℕ) (func : F) (next : Option ℕ)

variable {n : ℕ} {F : Type} (s : St n F)

/-- The next step of the daemon. -/
def stepDaemon : St n F :=
  match s.daemon with
  | .start => { s with started := s.started + 1, daemon := .sync }
  | .sync => { s with synced := s.synced + 1, daemon := .lock }
  | .lock =>
    let mem := Function.update s.mem .list (s.mem .waitlist)
    let (mem, waittail) :=
      if s.mem .nextlist = none then (Function.update mem .waitlist none, .waitlist)
      else (Function.update mem .waitlist (s.mem .nextlist), s.nexttail)
    { s with
      mem := Function.update mem .nextlist none
      waittail := waittail
      nexttail := .nextlist
      daemon := .loop }
  | .loop =>
    match s.mem .list with
    | none => { s with ended := s.ended + 1, daemon := .start }
    | some list => { s with daemon := .func list (s.mem (.next list)) }
  | .func list next =>
    { s with
      done := s.done ++ [(list, s.func list)]
      used := Function.update s.used list false
      mem := Function.update s.mem .list next
      daemon := .loop }

def next : Act n F → Option (St n F)
  | .callRcu t head func =>
    if s.caller t = none ∧ s.used head = false then
      some { s with
        func := Function.update s.func head func
        mem := Function.update s.mem (.next head) none
        used := Function.update s.used head true
        caller := Function.update s.caller t (some (head, func)) }
    else none
  | .enqueue t =>
    match s.caller t with
    | some (head, func) =>
      some { s with
        mem := Function.update s.mem s.nexttail (some head)
        nexttail := .next head
        log := s.log ++ [⟨head, func, s.started⟩]
        caller := Function.update s.caller t none }
    | none => none
  | .daemon => some (stepDaemon s)
  | .reuse head func next =>
    if s.used head = false then
      some { s with
        func := Function.update s.func head func
        mem := Function.update s.mem (.next head) next }
    else none

/-- After `fake_kern_rcu_init`. -/
structure Init (s : St n F) : Prop where
  nextlist : s.mem .nextlist = none
  waitlist : s.mem .waitlist = none
  nexttail : s.nexttail = .nextlist
  waittail : s.waittail = .waitlist
  caller : ∀ t, s.caller t = none
  daemon : s.daemon = .start
  used : ∀ h, s.used h = false
  log : s.log = []
  done : s.done = []
  started : s.started = 0
  synced : s.synced = 0
  ended : s.ended = 0

def sys (n : ℕ) (F : Type) : Sys (St n F) (Act n F) := ⟨Init, fun a s => next s a⟩

/-- Where the link at `l` leads to. -/
def St.link (l : Link) : Option Link := (s.mem l).map .next

/-- **What is promised.** The callbacks are invoked in the order in which they were enqueued, each once, after a
`synchronize_rcu` that was called later, and before the second pass ends that has started later. Those that
were not yet invoked are taken off, in `waitlist`, or in `nextlist`, and `nexttail` is the last link of `nextlist`. -/
structure InOrder (s : St n F) : Prop where
  order : s.done <+: s.log.map Entry.call
  after : ∀ k e, s.log[k]? = some e → k < s.done.length → e.stamp < s.synced
  before : ∀ k e, s.log[k]? = some e → e.stamp + 2 ≤ s.ended → k < s.done.length
  tail : ∃ off wait nx : List (Entry F), s.log.drop s.done.length = off ++ wait ++ nx ∧
    ((off ++ wait ++ nx).map Entry.head).Nodup ∧
    Linked s.link .waitlist (wait.map fun e => .next e.head) ∧
    Linked s.link .nextlist (nx.map fun e => .next e.head) ∧
    s.nexttail = Conc.before .nextlist (nx.map fun e => .next e.head)

end FakeKern
end Perfbook
