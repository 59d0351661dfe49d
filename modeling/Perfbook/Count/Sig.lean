/-
# `count/count_lim_sig.c`: a limit counter that steals with signals

Each thread has a `counter` with an allowance `countermax`, and moves it with
plain loads and stores while the allowance lasts. A slow path that needs what
the others have asks for it: it sets their `theft` to `THEFT_REQ` and sends
`SIGUSR1`. The handler acknowledges, and says `THEFT_READY` at once if the
fast path is not running (`counting` is 0), else leaves that to the end of
the fast path. Once a thread is ready, its numbers are taken.

Each access to `theft`, `counting`, `counter` and `countermax` is one step.
`globalcount`, `globalreserve` and the pointers of `count_register_thread` are
accessed under `gblcnt_mutex` only; there each statement is one step, and the
pointers are set in one. The handler runs in the thread that gets the signal,
between any two of its steps (`Act.deliver`, `Act.handle`); each
`pthread_kill` makes it run once, at any time after. A registered thread is in
the map that `for_each_tid` reads. `unsigned long` has `w` bits, and what
`num_online_threads()` returns is up to the scheduler, but not 0.

The number counted is `globalcount` with all counters; a thread whose numbers
the holder of the mutex is moving (`Loc.moving`) has them in the global part.
`St.stolen` is history: `flush_local_count` has read or zeroed the numbers of
a thread since it last checked `theft`.

Key definitions: `Theft`, `Handler`, `Loc`, `St`, `stepHandler`, `stepThread`,
`St.books`, `next`, `sys`.
-/
import Perfbook.Conc.Sys
import Perfbook.Count.Calls

namespace Perfbook
namespace Count

namespace Sig

/-- `MAX_COUNTERMAX`. -/
def maxCountermax : ℕ := 100

/-- `THEFT_IDLE`, `THEFT_REQ`, `THEFT_ACK`, `THEFT_READY`. -/
inductive Theft
  | idle
  | req
  | ack
  | ready
deriving DecidableEq

/-- `theft <= THEFT_REQ`. -/
def Theft.admits : Theft → Bool
  | idle | req => true
  | ack | ready => false

/-- Where `flush_local_count_sig` is. -/
inductive Handler
  /-- before `theft != THEFT_REQ` -/
  | check
  /-- before the store of `THEFT_ACK` -/
  | ack
  /-- before `!counting` -/
  | test
  /-- before the store of `THEFT_READY` -/
  | ready
deriving DecidableEq

/-- Where a thread is, with the locals it still needs. -/
inductive Loc (n : ℕ)
  | idle
  /-- before `counting = 1` -/
  | setCounting (k : Kind) (delta : ℕ)
  /-- before `theft <= THEFT_REQ` -/
  | loadTheft (k : Kind) (delta : ℕ)
  /-- in `countermax - counter >= delta`, before reading `countermax` -/
  | loadMax (delta : ℕ)
  /-- before reading `counter` for the test -/
  | loadCounter (k : Kind) (delta cm : ℕ)
  /-- before reading `counter` for `counter + delta` or `counter - delta` -/
  | reload (k : Kind) (delta : ℕ)
  /-- before the store to `counter` -/
  | store (k : Kind) (delta c : ℕ)
  /-- before `counting = 0` -/
  | clearCounting (k : Kind) (delta : ℕ) (fastpath : Bool)
  /-- before `theft == THEFT_ACK` -/
  | checkAck (k : Kind) (delta : ℕ) (fastpath : Bool)
  /-- before the store of `THEFT_READY` -/
  | setReady (k : Kind) (delta : ℕ) (fastpath : Bool)
  /-- before `spin_lock` -/
  | lock (j : Job)
  /-- `globalize_count`, before `globalcount += counter` -/
  | globCount (j : Job)
  /-- before `counter = 0` -/
  | globZero (j : Job)
  /-- before `globalreserve -= countermax` -/
  | globReserve (j : Job)
  /-- before `countermax = 0` -/
  | globMax (j : Job)
  /-- before the first test -/
  | test (k : Kind) (delta : ℕ)
  /-- `flush_local_count`, in the first loop before `theftp[t] != NULL` -/
  | askNext (k : Kind) (delta : ℕ) (i : ℕ)
  /-- before `*countermaxp[t] == 0` -/
  | askMax (k : Kind) (delta : ℕ) (i : Fin n)
  /-- before the store of `THEFT_READY` -/
  | askReady (k : Kind) (delta : ℕ) (i : Fin n)
  /-- before the store of `THEFT_REQ` -/
  | askReq (k : Kind) (delta : ℕ) (i : Fin n)
  /-- before `pthread_kill` -/
  | askKill (k : Kind) (delta : ℕ) (i : Fin n)
  /-- in the second loop before `theftp[t] == NULL` -/
  | waitNext (k : Kind) (delta : ℕ) (i : ℕ)
  /-- before `*theftp[t] != THEFT_READY` -/
  | waitLoad (k : Kind) (delta : ℕ) (i : Fin n)
  /-- after `poll`, before `*theftp[t] == THEFT_REQ` -/
  | waitPoll (k : Kind) (delta : ℕ) (i : Fin n)
  /-- before `pthread_kill` -/
  | waitKill (k : Kind) (delta : ℕ) (i : Fin n)
  /-- before `globalcount += *counterp[t]` -/
  | stealCount (k : Kind) (delta : ℕ) (i : Fin n)
  /-- before `*counterp[t] = 0` -/
  | stealZero (k : Kind) (delta : ℕ) (i : Fin n)
  /-- before `globalreserve -= *countermaxp[t]` -/
  | stealReserve (k : Kind) (delta : ℕ) (i : Fin n)
  /-- before `*countermaxp[t] = 0` -/
  | stealMax (k : Kind) (delta : ℕ) (i : Fin n)
  /-- before the store of `THEFT_IDLE` -/
  | stealIdle (k : Kind) (delta : ℕ) (i : Fin n)
  /-- before the second test -/
  | retest (k : Kind) (delta : ℕ)
  /-- before `globalcount += delta` or `-= delta` -/
  | apply (k : Kind) (delta : ℕ)
  /-- `balance_count`, before `countermax = ...` -/
  | balMax
  /-- before `countermax /= num_online_threads()` -/
  | balDivide
  /-- before `if (countermax > MAX_COUNTERMAX)` -/
  | balCap
  /-- before `globalreserve += countermax` -/
  | balReserve
  /-- before `counter = countermax / 2` -/
  | balHalf
  /-- before `if (counter > globalcount)` -/
  | balClip
  /-- before `globalcount -= counter` -/
  | balCount
  /-- before the stores to `counterp`, `countermaxp` and `theftp` -/
  | setPtr (b : Bool)
  /-- before `spin_unlock` and `return` -/
  | unlock (ret : Option ℕ)

structure St (n : ℕ) extends Calls n where
  counter : Fin n → ℕ
  countermax : Fin n → ℕ
  theft : Fin n → Theft
  counting : Fin n → Bool
  globalcount : ℕ
  globalreserve : ℕ
  mutex : Option (Fin n)
  /-- signals sent and not yet delivered -/
  pending : Fin n → ℕ
  loc : Fin n → Loc n
  /-- where the handler of a thread is, if it runs -/
  handler : Fin n → Option Handler
  stolen : Fin n → Bool

/-- What the scheduler can do: start a call, let a thread or its handler take
the next step (`online` is what `num_online_threads()` returns), or deliver a
signal. -/
inductive Act (n : ℕ)
  | call (k : Kind) (t : Fin n) (delta : ℕ)
  | register (t : Fin n)
  | unregister (t : Fin n)
  | step (t : Fin n) (online : ℕ)
  | deliver (t : Fin n)
  | handle (t : Fin n)

/-- The thread that acts. -/
def Act.thread {n : ℕ} : Act n → Fin n
  | call _ t _ | register t | unregister t | step t _ | deliver t | handle t => t

variable {n : ℕ}

/-- Whose numbers thread `t`, which holds the mutex, is moving at this place;
and whether their allowance is still in `globalreserve`. -/
def Loc.moving (t : Fin n) : Loc n → Option (Fin n × Bool)
  | .globZero _ | .globReserve _ | .balHalf | .balClip | .balCount => some (t, true)
  | .globMax _ | .balDivide | .balCap | .balReserve => some (t, false)
  | .stealZero _ _ i | .stealReserve _ _ i => some (i, true)
  | .stealMax _ _ i => some (i, false)
  | _ => none

namespace St

variable (s : St n)

def moving : Option (Fin n × Bool) :=
  match s.mutex with
  | some t => (s.loc t).moving t
  | none => none

/-- The part and the allowance of a thread, unless they are being moved. -/
def c (u : Fin n) : ℕ := if s.moving.map Prod.fst = some u then 0 else s.counter u
def cm (u : Fin n) : ℕ := if s.moving.map Prod.fst = some u then 0 else s.countermax u

/-- What is in `globalreserve` for the numbers being moved. -/
def owed : ℕ :=
  match s.moving with
  | some (u, true) => s.countermax u
  | _ => 0

/-- The books. -/
def books : Books (Fin n) where
  count := s.globalcount
  reserve := s.globalreserve - s.owed
  c u := s.c u
  cm u := s.cm u

/-- The number counted. -/
def total : ℤ := s.books.total

/-- The thread goes to another place. -/
def goto (t : Fin n) (l : Loc n) : St n := { s with loc := Function.update s.loc t l }

def setCounter (u : Fin n) (v : ℕ) : St n := { s with counter := Function.update s.counter u v }

def setMax (u : Fin n) (v : ℕ) : St n := { s with countermax := Function.update s.countermax u v }

def setTheft (u : Fin n) (v : Theft) : St n := { s with theft := Function.update s.theft u v }

/-- `pthread_kill(tid, SIGUSR1)`. -/
def kill (u : Fin n) : St n := { s with pending := Function.update s.pending u (s.pending u + 1) }

/-- The numbers of `u` are being stolen. -/
def steal (u : Fin n) : St n := { s with stolen := Function.update s.stolen u true }

/-- The final test of a call. -/
def noteTest (t : Fin n) : St n := { s with toCalls := s.toCalls.note t s.total }

/-- The call of `t` is over. -/
def return_ (t : Fin n) (r : ℕ) : St n :=
  { s with toCalls := s.toCalls.answer t r, loc := Function.update s.loc t .idle }

/-- After the fast path: return, or take the mutex. -/
def leave (t : Fin n) (k : Kind) (delta : ℕ) (fastpath : Bool) : St n :=
  if fastpath then s.return_ t 1 else s.goto t (.lock (.update k delta))

/-- The step of `t` from `s` to `s'` may have changed the number counted. -/
def record (t : Fin n) (s s' : St n) : St n :=
  { s' with toCalls := s'.toCalls.record t (s'.total - s.total) }

end St

/-- The test of the fast path, on what it read. -/
def admitsDelta (cfg : Config) (cm c : ℕ) : Kind → ℕ → Bool
  | .add, delta => cfg.usub cm c ≥ delta
  | .sub, delta => c ≥ delta

/-- `c + delta`, or `c - delta`. -/
def changed (cfg : Config) (c : ℕ) : Kind → ℕ → ℕ
  | .add, delta => cfg.uadd c delta
  | .sub, delta => cfg.usub c delta

/-- Where a thread goes if `theft` admits its fast path. -/
def Loc.admitted (delta : ℕ) : Kind → Loc n
  | .add => .loadMax delta
  | .sub => .loadCounter .sub delta 0

/-- Where a thread goes once it has the mutex. -/
def Loc.locked : Job → Loc n
  | .register => .setPtr true
  | j => .globCount j

/-- Where it goes after `globalize_count`. -/
def Loc.globalized : Job → Loc n
  | .update k delta => .test k delta
  | _ => .setPtr false

/-- The next step of the handler of thread `t`. -/
def stepHandler (t : Fin n) (s : St n) : Option (St n) :=
  match s.handler t with
  | none => none
  | some .check =>
    some { s with
      handler := Function.update s.handler t (if s.theft t = .req then some .ack else none) }
  | some .ack =>
    some { s.setTheft t .ack with handler := Function.update s.handler t (some .test) }
  | some .test =>
    some { s with
      handler := Function.update s.handler t (if s.counting t then none else some .ready) }
  | some .ready => some { s.setTheft t .ready with handler := Function.update s.handler t none }

/-- The next step of thread `t`, when its handler does not run. -/
def stepThread (cfg : Config) (t : Fin n) (online : ℕ) (s : St n) : Option (St n) :=
  match s.loc t with
  | .idle => none
  | .setCounting k delta =>
    some ({ s with counting := Function.update s.counting t true }.goto t (.loadTheft k delta))
  | .loadTheft k delta =>
    some ({ s with stolen := Function.update s.stolen t false }.goto t
      (if (s.theft t).admits then .admitted delta k else .clearCounting k delta false))
  | .loadMax delta => some (s.goto t (.loadCounter .add delta (s.countermax t)))
  | .loadCounter k delta cm =>
    some (s.goto t
      (if admitsDelta cfg cm (s.counter t) k delta then .reload k delta
      else .clearCounting k delta false))
  | .reload k delta => some (s.goto t (.store k delta (s.counter t)))
  | .store k delta c =>
    some ((s.setCounter t (changed cfg c k delta)).goto t (.clearCounting k delta true))
  | .clearCounting k delta fastpath =>
    some ({ s with counting := Function.update s.counting t false }.goto t
      (.checkAck k delta fastpath))
  | .checkAck k delta fastpath =>
    some (if s.theft t = .ack then s.goto t (.setReady k delta fastpath)
      else s.leave t k delta fastpath)
  | .setReady k delta fastpath => some ((s.setTheft t .ready).leave t k delta fastpath)
  | .lock j =>
    match s.mutex with
    | none => some ({ s with mutex := some t }.goto t (.locked j))
    | some _ => none
  | .globCount j =>
    some ({ s with globalcount := cfg.uadd s.globalcount (s.counter t) }.goto t (.globZero j))
  | .globZero j => some ((s.setCounter t 0).goto t (.globReserve j))
  | .globReserve j =>
    some ({ s with globalreserve := cfg.usub s.globalreserve (s.countermax t) }.goto t (.globMax j))
  | .globMax j => some ((s.setMax t 0).goto t (.globalized j))
  | .test k delta =>
    some (s.goto t
      (if cfg.lacks s.globalcount s.globalreserve k delta then .askNext k delta 0
      else .apply k delta))
  | .askNext k delta i =>
    some (s.goto t
      (if h : i < n then
        if s.counterp ⟨i, h⟩ then .askMax k delta ⟨i, h⟩ else .askNext k delta (i + 1)
      else .waitNext k delta 0))
  | .askMax k delta i =>
    some (s.goto t (if s.countermax i = 0 then .askReady k delta i else .askReq k delta i))
  | .askReady k delta i => some ((s.setTheft i .ready).goto t (.askNext k delta (i + 1)))
  | .askReq k delta i => some ((s.setTheft i .req).goto t (.askKill k delta i))
  | .askKill k delta i => some ((s.kill i).goto t (.askNext k delta (i + 1)))
  | .waitNext k delta i =>
    some (s.goto t
      (if h : i < n then
        if s.counterp ⟨i, h⟩ then .waitLoad k delta ⟨i, h⟩ else .waitNext k delta (i + 1)
      else .retest k delta))
  | .waitLoad k delta i =>
    some (s.goto t (if s.theft i = .ready then .stealCount k delta i else .waitPoll k delta i))
  | .waitPoll k delta i =>
    some (s.goto t (if s.theft i = .req then .waitKill k delta i else .waitLoad k delta i))
  | .waitKill k delta i => some ((s.kill i).goto t (.waitLoad k delta i))
  | .stealCount k delta i =>
    some (({ s with globalcount := cfg.uadd s.globalcount (s.counter i) }.steal i).goto t
      (.stealZero k delta i))
  | .stealZero k delta i => some (((s.setCounter i 0).steal i).goto t (.stealReserve k delta i))
  | .stealReserve k delta i =>
    some (({ s with globalreserve := cfg.usub s.globalreserve (s.countermax i) }.steal i).goto t
      (.stealMax k delta i))
  | .stealMax k delta i => some (((s.setMax i 0).steal i).goto t (.stealIdle k delta i))
  | .stealIdle k delta i => some ((s.setTheft i .idle).goto t (.waitNext k delta (i + 1)))
  | .retest k delta =>
    some ((s.noteTest t).goto t
      (if cfg.lacks s.globalcount s.globalreserve k delta then .unlock (some 0)
      else .apply k delta))
  | .apply .add delta =>
    some ({ s with globalcount := cfg.uadd s.globalcount delta }.goto t .balMax)
  | .apply .sub delta =>
    some ({ s with globalcount := cfg.usub s.globalcount delta }.goto t .balMax)
  | .balMax => some ((s.setMax t (cfg.room s.globalcount s.globalreserve)).goto t .balDivide)
  | .balDivide =>
    if online = 0 then none else some ((s.setMax t (s.countermax t / online)).goto t .balCap)
  | .balCap => some ((s.setMax t (min (s.countermax t) maxCountermax)).goto t .balReserve)
  | .balReserve =>
    some ({ s with globalreserve := cfg.uadd s.globalreserve (s.countermax t) }.goto t .balHalf)
  | .balHalf => some ((s.setCounter t (s.countermax t / 2)).goto t .balClip)
  | .balClip => some ((s.setCounter t (min (s.counter t) s.globalcount)).goto t .balCount)
  | .balCount =>
    some ({ s with globalcount := cfg.usub s.globalcount (s.counter t) }.goto t (.unlock (some 1)))
  | .setPtr b =>
    some ({ s with counterp := Function.update s.counterp t b }.goto t (.unlock none))
  | .unlock (some r) => some ({ s with mutex := none }.return_ t r)
  | .unlock none => some ({ s with mutex := none }.goto t .idle)

/-- The next step of a thread or of its handler, a signal, or the start of a
call. Only registered threads count. -/
def act (cfg : Config) : Act n → St n → Option (St n)
  | .call k t delta, s =>
    match s.loc t, s.handler t, s.counterp t with
    | .idle, none, true =>
      if delta < 2 ^ cfg.w then
        some ({ s with toCalls := s.toCalls.begin k t delta }.goto t (.setCounting k delta))
      else none
    | _, _, _ => none
  | .register t, s =>
    match s.loc t, s.handler t with
    | .idle, none => some (s.goto t (.lock .register))
    | _, _ => none
  | .unregister t, s =>
    match s.loc t, s.handler t with
    | .idle, none => some (s.goto t (.lock .unregister))
    | _, _ => none
  | .step t online, s => if s.handler t = none then stepThread cfg t online s else none
  | .deliver t, s =>
    if 0 < s.pending t ∧ s.handler t = none then
      some { s with
        pending := Function.update s.pending t (s.pending t - 1)
        handler := Function.update s.handler t (some .check) }
    else none
  | .handle t, s => stepHandler t s

/-- What an action does. -/
def next (cfg : Config) (a : Act n) (s : St n) : Option (St n) :=
  (act cfg a s).map (St.record a.thread s)

/-- At the start nothing is counted, and no thread is registered. -/
structure Init (s : St n) : Prop where
  counter : ∀ t, s.counter t = 0
  countermax : ∀ t, s.countermax t = 0
  theft : ∀ t, s.theft t = .idle
  counting : ∀ t, s.counting t = false
  globalcount : s.globalcount = 0
  globalreserve : s.globalreserve = 0
  counterp : ∀ t, s.counterp t = false
  mutex : s.mutex = none
  pending : ∀ t, s.pending t = 0
  loc : ∀ t, s.loc t = .idle
  handler : ∀ t, s.handler t = none
  ret : ∀ t, s.ret t = none
  stolen : ∀ t, s.stolen t = false

def sys (n : ℕ) (cfg : Config) : Conc.Sys (St n) (Act n) := ⟨Init, next cfg⟩

end Sig
end Count
end Perfbook
