/-
# `count/count_lim.c` and `count/count_lim_app.c`: limit counters

Each thread has its part of the count in `counter` and its allowance in
`countermax`. `add_count` and `sub_count` change `counter` alone while the
allowance lasts, and else take `gblcnt_mutex`, put the thread's part back to
`globalcount` (`globalize_count`), make the change there if it fits, and hand
out a new allowance (`balance_count`). What the other threads have is not
taken, so a call can fail though the change would fit. `read_count` adds up
all parts under the mutex. `count_lim_app` differs in one statement:
`balance_count` hands out at most `MAX_COUNTERMAX`.

Each statement is one step; the fast path takes one for its test and one for
its `WRITE_ONCE`, and the fast paths of the others run on while a thread holds
the mutex. `unsigned long` has `w` bits: a sum or difference is taken modulo
`2 ^ w`, and `St.wrapped` records that one did not fit. What
`num_online_threads()` returns is up to the scheduler, but it is not 0.

The number counted is `globalcount` with all threads' parts, where a part that
`globalcount` already holds, or still holds, does not count (`Loc.part`).

Key definitions: `File`, `Loc`, `St`, `stepThread`, `St.books`, `next`, `sys`.
-/
import Perfbook.Conc.Sys
import Perfbook.Count.Calls

namespace Perfbook
namespace Count

namespace Lim

inductive File
  | lim
  | limApp
deriving DecidableEq

/-- `MAX_COUNTERMAX`. -/
def maxCountermax : ℕ := 100

/-- Where a thread is, with the locals it still needs. -/
inductive Loc (n : ℕ)
  | idle
  /-- before the test of the fast path -/
  | fast (k : Kind) (delta : ℕ)
  /-- before its `WRITE_ONCE` -/
  | store (k : Kind) (delta : ℕ)
  /-- before `spin_lock` -/
  | lock (j : Job)
  /-- `globalize_count`, before `globalcount += counter` -/
  | globCount (j : Job)
  /-- before `counter = 0` -/
  | globZero (j : Job)
  /-- before `globalreserve -= countermax` -/
  | globReserve (j : Job)
  /-- before `countermax = 0` -/
  | globZeroMax (j : Job)
  /-- before the test of the slow path -/
  | test (k : Kind) (delta : ℕ)
  /-- before `globalcount += delta` or `-= delta` -/
  | apply (k : Kind) (delta : ℕ)
  /-- `balance_count`, before `countermax = globalcountmax - globalcount - globalreserve` -/
  | balRoom
  /-- before `countermax /= num_online_threads()` -/
  | balDiv
  /-- before `if (countermax > MAX_COUNTERMAX)`, in `count_lim_app` -/
  | balCap
  /-- before `globalreserve += countermax` -/
  | balReserve
  /-- before `counter = countermax / 2` -/
  | balHalf
  /-- before `if (counter > globalcount)` -/
  | balCheck
  /-- before `globalcount -= counter` -/
  | balCount
  /-- before the store to `counterp[idx]` -/
  | setPtr (b : Bool)
  /-- before `spin_unlock` and `return ret` -/
  | unlock (ret : Option ℕ)
  /-- `read_count`, before `spin_lock` -/
  | readLock
  /-- before `sum = globalcount` -/
  | readInit
  /-- in `for_each_thread`, before `counterp[t] != NULL` -/
  | readNext (sum i : ℕ)
  /-- before `sum += READ_ONCE(*counterp[t])` -/
  | readAdd (sum : ℕ) (i : Fin n)
  /-- before `spin_unlock` and `return sum` -/
  | readUnlock (sum : ℕ)

structure St (n : ℕ) extends Calls n where
  counter : Fin n → ℕ
  countermax : Fin n → ℕ
  globalcount : ℕ
  globalreserve : ℕ
  mutex : Option (Fin n)
  loc : Fin n → Loc n
  /-- what the last `read_count` of a thread returned -/
  value : Fin n → Option ℕ
  /-- the allowances at the test in the slow path of a thread's last call -/
  reserves : Fin n → Fin n → ℕ
  /-- a sum or difference did not fit -/
  wrapped : Bool

/-- What the scheduler can do: start a call, or let a thread take its next
step (`online` is what `num_online_threads()` returns). -/
inductive Act (n : ℕ)
  | call (k : Kind) (t : Fin n) (delta : ℕ)
  | read (t : Fin n)
  | register (t : Fin n)
  | unregister (t : Fin n)
  | step (t : Fin n) (online : ℕ)

/-- The thread that acts. -/
def Act.thread {n : ℕ} : Act n → Fin n
  | call _ t _ | read t | register t | unregister t | step t _ => t

variable {n : ℕ}

namespace Loc

/-- What a thread's `counter` holds of the count, at this place: nothing while
`globalcount` holds it as well. -/
def part : Loc n → ℕ → ℕ
  | globZero _ | balCheck | balCount => fun _ => 0
  | _ => id

/-- What a thread may use of its `countermax`: nothing while it is not reserved,
or on the way back. -/
def allowance : Loc n → ℕ → ℕ
  | globZero _ | globReserve _ | globZeroMax _ | balDiv | balCap | balReserve => fun _ => 0
  | _ => id

/-- What is still in `globalreserve` of an allowance on the way back. -/
def owed : Loc n → ℕ → ℕ
  | globZero _ | globReserve _ => id
  | _ => fun _ => 0

end Loc

namespace St

variable (cfg : Config) (s : St n)

/-- What is on its way back to the global part. -/
def owed (s : St n) : ℕ :=
  match s.mutex with
  | some t => (s.loc t).owed (s.countermax t)
  | none => 0

/-- The books, without what is on its way. -/
def books (s : St n) : Books (Fin n) where
  count := s.globalcount
  reserve := s.globalreserve - s.owed
  c t := (s.loc t).part (s.counter t)
  cm t := (s.loc t).allowance (s.countermax t)

/-- The number counted. -/
def total (s : St n) : ℤ := s.books.total

/-- The thread goes to another place. -/
def goto (t : Fin n) (l : Loc n) : St n := { s with loc := Function.update s.loc t l }

def setCounter (t : Fin n) (x : ℕ) : St n := { s with counter := Function.update s.counter t x }

def setCountermax (t : Fin n) (x : ℕ) : St n :=
  { s with countermax := Function.update s.countermax t x }

/-- Evaluating `a + b`. -/
def seeAdd (a b : ℕ) : St n := { s with wrapped := s.wrapped || 2 ^ cfg.w ≤ a + b }

/-- Evaluating `a - b`. -/
def seeSub (s : St n) (a b : ℕ) : St n := { s with wrapped := s.wrapped || a < b }

def addCount (x : ℕ) : St n :=
  { s.seeAdd cfg s.globalcount x with globalcount := cfg.uadd s.globalcount x }

def subCount (x : ℕ) : St n :=
  { s.seeSub s.globalcount x with globalcount := cfg.usub s.globalcount x }

def addReserve (x : ℕ) : St n :=
  { s.seeAdd cfg s.globalreserve x with globalreserve := cfg.uadd s.globalreserve x }

def subReserve (x : ℕ) : St n :=
  { s.seeSub s.globalreserve x with globalreserve := cfg.usub s.globalreserve x }

/-- `globalcountmax - globalcount - globalreserve`. -/
def room : ℕ := cfg.room s.globalcount s.globalreserve

/-- Evaluating `room`. -/
def seeRoom : St n :=
  (s.seeSub cfg.globalcountmax s.globalcount).seeSub (cfg.usub cfg.globalcountmax s.globalcount)
    s.globalreserve

/-- Evaluating the test of the slow path. -/
def seeLacks (cfg : Config) (s : St n) : Kind → St n
  | .add => s.seeRoom cfg
  | .sub => s

/-- The test in the slow path of a call. -/
def noteTest (t : Fin n) : St n :=
  { s with
    toCalls := s.toCalls.note t s.total
    reserves := Function.update s.reserves t s.countermax }

/-- A call of `t` begins. -/
def begin (k : Kind) (t : Fin n) (delta : ℕ) : St n :=
  { s with toCalls := s.toCalls.begin k t delta }

/-- The call of `t` is over. -/
def return_ (t : Fin n) (r : ℕ) : St n :=
  { s with toCalls := s.toCalls.answer t r, loc := Function.update s.loc t .idle }

/-- The step of `t` from `s` to `s'` may have changed the number counted. -/
def record (t : Fin n) (s s' : St n) : St n :=
  { s' with toCalls := s'.toCalls.record t (s'.total - s.total) }

end St

/-- Where a thread goes once it has the mutex. -/
def Loc.locked : Job → Loc n
  | .register => .setPtr true
  | j => .globCount j

/-- Where it goes after `globalize_count`. -/
def Loc.globalized : Job → Loc n
  | .update k delta => .test k delta
  | _ => .setPtr false

/-- Where it goes after `countermax /= num_online_threads()`. -/
def Loc.divided : File → Loc n
  | .lim => .balReserve
  | .limApp => .balCap

/-- The test of the fast path, and where it leads. -/
def fastPath (cfg : Config) (t : Fin n) (delta : ℕ) (s : St n) : Kind → St n
  | .add => (s.seeSub (s.countermax t) (s.counter t)).goto t
      (if cfg.usub (s.countermax t) (s.counter t) ≥ delta then .store .add delta
      else .lock (.update .add delta))
  | .sub => s.goto t (if s.counter t ≥ delta then .store .sub delta else .lock (.update .sub delta))

/-- The next step of thread `t`. -/
def stepThread (file : File) (cfg : Config) (t : Fin n) (online : ℕ) (s : St n) : Option (St n) :=
  match s.loc t with
  | .idle => none
  | .fast k delta => some (fastPath cfg t delta s k)
  | .store .add delta =>
    some (((s.seeAdd cfg (s.counter t) delta).setCounter t (cfg.uadd (s.counter t) delta)).return_ t 1)
  | .store .sub delta =>
    some (((s.seeSub (s.counter t) delta).setCounter t (cfg.usub (s.counter t) delta)).return_ t 1)
  | .lock j =>
    match s.mutex with
    | none => some ({ s with mutex := some t }.goto t (.locked j))
    | some _ => none
  | .globCount j => some ((s.addCount cfg (s.counter t)).goto t (.globZero j))
  | .globZero j => some ((s.setCounter t 0).goto t (.globReserve j))
  | .globReserve j => some ((s.subReserve cfg (s.countermax t)).goto t (.globZeroMax j))
  | .globZeroMax j => some ((s.setCountermax t 0).goto t (.globalized j))
  | .test k delta =>
    some (((s.seeLacks cfg k).noteTest t).goto t
      (if cfg.lacks s.globalcount s.globalreserve k delta then .unlock (some 0)
      else .apply k delta))
  | .apply .add delta => some ((s.addCount cfg delta).goto t .balRoom)
  | .apply .sub delta => some ((s.subCount cfg delta).goto t .balRoom)
  | .balRoom => some (((s.seeRoom cfg).setCountermax t (s.room cfg)).goto t .balDiv)
  | .balDiv =>
    if online = 0 then none
    else some ((s.setCountermax t (s.countermax t / online)).goto t (.divided file))
  | .balCap => some ((s.setCountermax t (min (s.countermax t) maxCountermax)).goto t .balReserve)
  | .balReserve => some ((s.addReserve cfg (s.countermax t)).goto t .balHalf)
  | .balHalf => some ((s.setCounter t (s.countermax t / 2)).goto t .balCheck)
  | .balCheck => some ((s.setCounter t (min (s.counter t) s.globalcount)).goto t .balCount)
  | .balCount => some ((s.subCount cfg (s.counter t)).goto t (.unlock (some 1)))
  | .setPtr b =>
    some ({ s with counterp := Function.update s.counterp t b }.goto t (.unlock none))
  | .unlock (some r) => some ({ s with mutex := none }.return_ t r)
  | .unlock none => some ({ s with mutex := none }.goto t .idle)
  | .readLock =>
    match s.mutex with
    | none => some ({ s with mutex := some t }.goto t .readInit)
    | some _ => none
  | .readInit => some (s.goto t (.readNext s.globalcount 0))
  | .readNext sum i =>
    some (s.goto t
      (if h : i < n then
        if s.counterp ⟨i, h⟩ then .readAdd sum ⟨i, h⟩ else .readNext sum (i + 1)
      else .readUnlock sum))
  | .readAdd sum i =>
    some ((s.seeAdd cfg sum (s.counter i)).goto t (.readNext (cfg.uadd sum (s.counter i)) (i + 1)))
  | .readUnlock sum =>
    some ({ s with mutex := none, value := Function.update s.value t (some sum) }.goto t .idle)

/-- The next step of what a thread runs, or the start of a call. Only
registered threads count. -/
def act (file : File) (cfg : Config) : Act n → St n → Option (St n)
  | .call k t delta, s =>
    match s.loc t, s.counterp t with
    | .idle, true => if delta < 2 ^ cfg.w then some ((s.begin k t delta).goto t (.fast k delta)) else none
    | _, _ => none
  | .read t, s =>
    match s.loc t with
    | .idle => some (s.goto t .readLock)
    | _ => none
  | .register t, s =>
    match s.loc t with
    | .idle => some (s.goto t (.lock .register))
    | _ => none
  | .unregister t, s =>
    match s.loc t with
    | .idle => some (s.goto t (.lock .unregister))
    | _ => none
  | .step t online, s => stepThread file cfg t online s

/-- What an action does. -/
def next (file : File) (cfg : Config) (a : Act n) (s : St n) : Option (St n) :=
  (act file cfg a s).map (St.record a.thread s)

/-- At the start nothing is counted, and no thread is registered. -/
structure Init (s : St n) : Prop where
  counter : ∀ t, s.counter t = 0
  countermax : ∀ t, s.countermax t = 0
  globalcount : s.globalcount = 0
  globalreserve : s.globalreserve = 0
  counterp : ∀ t, s.counterp t = false
  mutex : s.mutex = none
  loc : ∀ t, s.loc t = .idle
  ret : ∀ t, s.ret t = none
  value : ∀ t, s.value t = none
  wrapped : s.wrapped = false

def sys (n : ℕ) (file : File) (cfg : Config) : Conc.Sys (St n) (Act n) := ⟨Init, next file cfg⟩

end Lim
end Count
end Perfbook
