/-
# `count/count_lim_atomic.c`: a limit counter with packed counters

Each thread has `counterandmax`, one atomic word with its part of the count
in the upper half and its allowance in the lower. `add_count` and
`sub_count` change it by a compare-and-exchange while the allowance lasts,
and else take `gblcnt_mutex`, put the thread's part back to `globalcount`
(`globalize_count`), take what the other threads have (`flush_local_count`)
if that is not enough, and hand out a new allowance (`balance_count`).

Each access to a `counterandmax` is one step. `globalcount`, `globalreserve`
and `counterp` are accessed under the mutex only; there each statement is one
step. `unsigned long` has `w` bits: a sum or difference is taken modulo
`2 ^ w`, and `St.wrapped` records that one did not fit. What
`num_online_threads()` returns is up to the scheduler, but it is not 0.

The number counted is `globalcount` with all threads' parts; while the holder
of the mutex moves numbers between the two, what is on its way (`Loc.flight`)
belongs to it as well.

Key definitions: `splitCounterandmaxInt`, `mergeCounterandmax`, `Loc`, `St`,
`stepThread`, `St.books`, `next`, `sys`.
Key theorem: `split_merge`.
-/
import Perfbook.Conc.Sys
import Perfbook.Count.Calls

namespace Perfbook
namespace Count

namespace Atomic

/-- `(1 << CM_BITS) - 1`, where `CM_BITS` is `sizeof(atomic_t) * 4`. -/
def maxCountermax : ℕ := 2 ^ 16 - 1

/-- The halves of a `counterandmax`; `>>` is on `int`. -/
def splitCounterandmaxInt (cami : BitVec 32) : ℕ × ℕ :=
  ((cami.sshiftRight 16 &&& 65535#32).toNat, (cami &&& 65535#32).toNat)

def mergeCounterandmax (c cm : ℕ) : BitVec 32 :=
  (BitVec.ofNat 32 c <<< 16) ||| BitVec.ofNat 32 cm

/-- Where a thread is, with the locals it still needs. -/
inductive Loc (n : ℕ)
  | idle
  /-- before `atomic_read` of the fast path -/
  | read (k : Kind) (delta : ℕ)
  /-- before `atomic_cmpxchg` -/
  | cmpxchg (k : Kind) (delta : ℕ) (old new : BitVec 32)
  /-- before `spin_lock` -/
  | lock (j : Job)
  /-- `globalize_count`, before `split_counterandmax` -/
  | globRead (j : Job)
  /-- before `globalcount += c` -/
  | globCount (j : Job) (c cm : ℕ)
  /-- before `globalreserve -= cm` -/
  | globReserve (j : Job) (c cm : ℕ)
  /-- before `atomic_set` -/
  | globSet (j : Job) (c cm : ℕ)
  /-- before the first test -/
  | test (k : Kind) (delta : ℕ)
  /-- `flush_local_count`, before `if (globalreserve == 0)` -/
  | flush (k : Kind) (delta : ℕ)
  /-- in `for_each_thread`, before `counterp[i] != NULL` -/
  | flushNext (k : Kind) (delta : ℕ) (i : ℕ)
  /-- before `atomic_xchg` -/
  | flushXchg (k : Kind) (delta : ℕ) (i : Fin n)
  /-- before `globalcount += c` -/
  | flushCount (k : Kind) (delta : ℕ) (i : Fin n) (c cm : ℕ)
  /-- before `globalreserve -= cm` -/
  | flushReserve (k : Kind) (delta : ℕ) (i : Fin n) (cm : ℕ)
  /-- before the second test -/
  | retest (k : Kind) (delta : ℕ)
  /-- before `globalcount += delta` or `-= delta` -/
  | apply (k : Kind) (delta : ℕ)
  /-- `balance_count`, before computing `limit` -/
  | balLimit
  /-- before `globalreserve += cm` -/
  | balReserve (cm : ℕ)
  /-- before `if (c > globalcount)` -/
  | balHalf (cm : ℕ)
  /-- before `globalcount -= c` -/
  | balCount (cm c : ℕ)
  /-- before `atomic_set` -/
  | balSet (cm c : ℕ)
  /-- before the store to `counterp[idx]` -/
  | setPtr (b : Bool)
  /-- before `spin_unlock` and `return ret` -/
  | unlock (ret : Option ℕ)

structure St (n : ℕ) extends Calls n where
  counterandmax : Fin n → BitVec 32
  globalcount : ℕ
  globalreserve : ℕ
  mutex : Option (Fin n)
  loc : Fin n → Loc n
  /-- a sum or difference did not fit -/
  wrapped : Bool

/-- What the scheduler can do: start a call, or let a thread take its next
step (`online` is what `num_online_threads()` returns). -/
inductive Act (n : ℕ)
  | call (k : Kind) (t : Fin n) (delta : ℕ)
  | register (t : Fin n)
  | unregister (t : Fin n)
  | step (t : Fin n) (online : ℕ)

/-- The thread that acts. -/
def Act.thread {n : ℕ} : Act n → Fin n
  | call _ t _ | register t | unregister t | step t _ => t

variable {n : ℕ}

/-- What the holder of the mutex, at this place, has taken from the threads'
parts and not yet put to `globalcount`, and from their allowances and not
yet to `globalreserve`. -/
def Loc.flight : Loc n → ℤ × ℤ
  | .globReserve _ c _ => (-c, 0)
  | .globSet _ c cm => (-c, cm)
  | .flushCount _ _ _ c cm => (c, -cm)
  | .flushReserve _ _ _ cm => (0, -cm)
  | .balHalf cm => (0, -cm)
  | .balCount cm _ => (0, -cm)
  | .balSet cm c => (c, -cm)
  | _ => 0

namespace St

variable (cfg : Config) (s : St n)

/-- The two halves of a thread's word. -/
def c (s : St n) (t : Fin n) : ℕ := (splitCounterandmaxInt (s.counterandmax t)).1
def cm (s : St n) (t : Fin n) : ℕ := (splitCounterandmaxInt (s.counterandmax t)).2

/-- What is on its way. -/
def flight (s : St n) : ℤ × ℤ :=
  match s.mutex with
  | some t => (s.loc t).flight
  | none => 0

/-- The books, with what is on its way. -/
def books (s : St n) : Books (Fin n) where
  count := s.globalcount + s.flight.1
  reserve := s.globalreserve + s.flight.2
  c t := s.c t
  cm t := s.cm t

/-- The number counted. -/
def total (s : St n) : ℤ := s.books.total

/-- The thread goes to another place. -/
def goto (t : Fin n) (l : Loc n) : St n := { s with loc := Function.update s.loc t l }

def set (t : Fin n) (v : BitVec 32) : St n :=
  { s with counterandmax := Function.update s.counterandmax t v }

def addCount (x : ℕ) : St n :=
  { s with
    globalcount := cfg.uadd s.globalcount x
    wrapped := s.wrapped || 2 ^ cfg.w ≤ s.globalcount + x }

def subCount (x : ℕ) : St n :=
  { s with
    globalcount := cfg.usub s.globalcount x
    wrapped := s.wrapped || s.globalcount < x }

def addReserve (x : ℕ) : St n :=
  { s with
    globalreserve := cfg.uadd s.globalreserve x
    wrapped := s.wrapped || 2 ^ cfg.w ≤ s.globalreserve + x }

def subReserve (x : ℕ) : St n :=
  { s with
    globalreserve := cfg.usub s.globalreserve x
    wrapped := s.wrapped || s.globalreserve < x }

/-- `globalcountmax - globalcount - globalreserve`. -/
def room : ℕ := cfg.room s.globalcount s.globalreserve

/-- Evaluating `room`. -/
def seeRoom : St n :=
  { s with
    wrapped := s.wrapped || cfg.globalcountmax < s.globalcount ||
      cfg.usub cfg.globalcountmax s.globalcount < s.globalreserve }

/-- Evaluating `c + delta`, or `c - delta`. -/
def seeAdd (c delta : ℕ) : St n := { s with wrapped := s.wrapped || 2 ^ cfg.w ≤ c + delta }
def seeSub (c delta : ℕ) : St n := { s with wrapped := s.wrapped || c < delta }

/-- The test of the slow path fails. -/
def lacks (cfg : Config) (s : St n) (k : Kind) (delta : ℕ) : Bool :=
  cfg.lacks s.globalcount s.globalreserve k delta

/-- Evaluating `lacks`. -/
def seeLacks (cfg : Config) (s : St n) : Kind → St n
  | .add => s.seeRoom cfg
  | .sub => s

/-- The final test of a call. -/
def noteTest (t : Fin n) : St n := { s with toCalls := s.toCalls.note t s.total }

/-- A call of `t` begins. -/
def begin (k : Kind) (t : Fin n) (delta : ℕ) : St n :=
  { s with toCalls := s.toCalls.begin k t delta }

/-- The call of `t` is over. -/
def return_ (t : Fin n) (r : ℕ) : St n :=
  { s with toCalls := s.toCalls.answer t r, loc := Function.update s.loc t .idle }

/-- The step of `t` from `s` to `s'` may have changed the number counted. -/
def record (t : Fin n) (s s' : St n) : St n :=
  { s' with toCalls := s'.toCalls.record t (s'.total - s.total) }

end St

/-- Where a thread goes once it has the mutex. -/
def Loc.locked : Job → Loc n
  | .register => .setPtr true
  | j => .globRead j

/-- Where it goes after `globalize_count`. -/
def Loc.globalized : Job → Loc n
  | .update k delta => .test k delta
  | _ => .setPtr false

/-- The fast path up to the `atomic_cmpxchg`, on the word `old`. -/
def fastPath (cfg : Config) (t : Fin n) (delta : ℕ) (old : BitVec 32) (s : St n) : Kind → St n
  | .add =>
    let (c, cm) := splitCounterandmaxInt old
    if delta > maxCountermax then s.goto t (.lock (.update .add delta))
    else if cfg.uadd c delta > cm then
      (s.seeAdd cfg c delta).goto t (.lock (.update .add delta))
    else (s.seeAdd cfg c delta).goto t
      (.cmpxchg .add delta old (mergeCounterandmax (cfg.uadd c delta) cm))
  | .sub =>
    let (c, cm) := splitCounterandmaxInt old
    if delta > c then s.goto t (.lock (.update .sub delta))
    else (s.seeSub c delta).goto t
      (.cmpxchg .sub delta old (mergeCounterandmax (cfg.usub c delta) cm))

/-- The next step of thread `t`. -/
def stepThread (cfg : Config) (t : Fin n) (online : ℕ) (s : St n) : Option (St n) :=
  match s.loc t with
  | .idle => none
  | .read k delta => some (fastPath cfg t delta (s.counterandmax t) s k)
  | .cmpxchg k delta old new =>
    if s.counterandmax t = old then some ((s.set t new).return_ t 1)
    else some (s.goto t (.read k delta))
  | .lock j =>
    match s.mutex with
    | none => some ({ s with mutex := some t }.goto t (.locked j))
    | some _ => none
  | .globRead j => some (s.goto t (.globCount j (s.c t) (s.cm t)))
  | .globCount j c cm => some ((s.addCount cfg c).goto t (.globReserve j c cm))
  | .globReserve j c cm => some ((s.subReserve cfg cm).goto t (.globSet j c cm))
  | .globSet j _ _ => some ((s.set t (mergeCounterandmax 0 0)).goto t (.globalized j))
  | .test k delta =>
    some ((s.seeLacks cfg k).goto t (if s.lacks cfg k delta then .flush k delta else .apply k delta))
  | .flush k delta =>
    some (s.goto t (if s.globalreserve = 0 then .retest k delta else .flushNext k delta 0))
  | .flushNext k delta i =>
    some (s.goto t
      (if h : i < n then
        if s.counterp ⟨i, h⟩ then .flushXchg k delta ⟨i, h⟩ else .flushNext k delta (i + 1)
      else .retest k delta))
  | .flushXchg k delta i =>
    some ((s.set i (mergeCounterandmax 0 0)).goto t (.flushCount k delta i (s.c i) (s.cm i)))
  | .flushCount k delta i c cm => some ((s.addCount cfg c).goto t (.flushReserve k delta i cm))
  | .flushReserve k delta i cm => some ((s.subReserve cfg cm).goto t (.flushNext k delta (i + 1)))
  | .retest k delta =>
    some (((s.seeLacks cfg k).noteTest t).goto t
      (if s.lacks cfg k delta then .unlock (some 0) else .apply k delta))
  | .apply .add delta => some ((s.addCount cfg delta).goto t .balLimit)
  | .apply .sub delta => some ((s.subCount cfg delta).goto t .balLimit)
  | .balLimit =>
    if online = 0 then none
    else some ((s.seeRoom cfg).goto t (.balReserve (min (s.room cfg / online) maxCountermax)))
  | .balReserve cm => some ((s.addReserve cfg cm).goto t (.balHalf cm))
  | .balHalf cm => some (s.goto t (.balCount cm (min (cm / 2) s.globalcount)))
  | .balCount cm c => some ((s.subCount cfg c).goto t (.balSet cm c))
  | .balSet cm c => some ((s.set t (mergeCounterandmax c cm)).goto t (.unlock (some 1)))
  | .setPtr b =>
    some ({ s with counterp := Function.update s.counterp t b }.goto t (.unlock none))
  | .unlock (some r) => some ({ s with mutex := none }.return_ t r)
  | .unlock none => some ({ s with mutex := none }.goto t .idle)

/-- The next step of what a thread runs, or the start of a call. Only
registered threads count. -/
def act (cfg : Config) : Act n → St n → Option (St n)
  | .call k t delta, s =>
    match s.loc t, s.counterp t with
    | .idle, true => if delta < 2 ^ cfg.w then some ((s.begin k t delta).goto t (.read k delta)) else none
    | _, _ => none
  | .register t, s =>
    match s.loc t with
    | .idle => some (s.goto t (.lock .register))
    | _ => none
  | .unregister t, s =>
    match s.loc t with
    | .idle => some (s.goto t (.lock .unregister))
    | _ => none
  | .step t online, s => stepThread cfg t online s

/-- What an action does. -/
def next (cfg : Config) (a : Act n) (s : St n) : Option (St n) :=
  (act cfg a s).map (St.record a.thread s)

/-- At the start nothing is counted, and no thread is registered. -/
structure Init (s : St n) : Prop where
  counterandmax : ∀ t, s.counterandmax t = 0
  globalcount : s.globalcount = 0
  globalreserve : s.globalreserve = 0
  counterp : ∀ t, s.counterp t = false
  mutex : s.mutex = none
  loc : ∀ t, s.loc t = .idle
  ret : ∀ t, s.ret t = none
  wrapped : s.wrapped = false

def sys (n : ℕ) (cfg : Config) : Conc.Sys (St n) (Act n) := ⟨Init, next cfg⟩

/-! ### The halves of a word -/

theorem lower_half (x : BitVec 32) : (x &&& 65535#32).toNat = x.toNat % 2 ^ 16 := by
  rw [BitVec.toNat_and]
  exact Nat.and_two_pow_sub_one_eq_mod x.toNat 16

theorem mask_bit : ∀ j : Fin 32, (65535#32).getLsbD j = decide (j.1 < 16) := by decide

theorem upper_half (x : BitVec 32) : (x.sshiftRight 16 &&& 65535#32).toNat = x.toNat / 2 ^ 16 := by
  have h : x.sshiftRight 16 &&& 65535#32 = x >>> 16 := by
    ext i hi
    have hm := mask_bit ⟨i, hi⟩
    rw [BitVec.getElem_and, ← BitVec.getLsbD_eq_getElem hi (x := 65535#32), hm,
      BitVec.getElem_sshiftRight, BitVec.getElem_ushiftRight]
    by_cases h16 : i < 16
    · rw [dif_pos (by omega : 16 + i < 32), decide_eq_true h16, Bool.and_true,
        BitVec.getLsbD_eq_getElem]
    · rw [decide_eq_false h16, Bool.and_false, BitVec.getLsbD_of_ge _ _ (by omega)]
  rw [h, BitVec.toNat_ushiftRight, Nat.shiftRight_eq_div_pow]

theorem merge_toNat {c cm : ℕ} (hc : c ≤ 65535) (hcm : cm ≤ 65535) :
    (mergeCounterandmax c cm).toNat = c * 2 ^ 16 + cm := by
  have h1 : c * 2 ^ 16 < 2 ^ 32 := by omega
  rw [mergeCounterandmax, BitVec.toNat_or, BitVec.toNat_shiftLeft, BitVec.toNat_ofNat,
    BitVec.toNat_ofNat, Nat.mod_eq_of_lt (by omega : c < 2 ^ 32),
    Nat.mod_eq_of_lt (by omega : cm < 2 ^ 32), Nat.shiftLeft_eq, Nat.mod_eq_of_lt h1,
    Nat.mul_comm, ← Nat.two_pow_add_eq_or_of_lt (by omega : cm < 2 ^ 16)]

theorem split_le (v : BitVec 32) :
    (splitCounterandmaxInt v).1 ≤ maxCountermax ∧ (splitCounterandmaxInt v).2 ≤ maxCountermax := by
  have h := v.isLt
  rw [splitCounterandmaxInt, upper_half, lower_half, maxCountermax]
  omega

/-- Both halves come back if they fit. -/
theorem split_merge {c cm : ℕ} (hc : c ≤ maxCountermax) (hcm : cm ≤ maxCountermax) :
    splitCounterandmaxInt (mergeCounterandmax c cm) = (c, cm) := by
  rw [maxCountermax] at hc hcm
  rw [splitCounterandmaxInt, upper_half, lower_half, merge_toNat (by omega) (by omega)]
  exact Prod.ext (by dsimp only; omega) (by dsimp only; omega)

end Atomic
end Count
end Perfbook
