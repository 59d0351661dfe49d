/-
# `defer/rcu_sig.c`, `rcu_sig.h`: signal-based RCU

A reader only counts its nesting depth. `synchronize_rcu`, under `rcu_gp_lock`,
stores `URCU_QS_REQ` to the word of each registered thread and signals it, and
then waits until each word is `URCU_QS_DONE`. The handler reports `DONE` when
the thread it runs in is in no section, and `ACK` otherwise; then the unlock
that ends the section reports `DONE`.

Each read or write of a word is one step. The nesting depth is a number: no
thread nests deeper than an `int` counts. The handler runs in the thread: while
it runs the thread does not move. It may start between any two steps of the
thread once a signal was ever sent to it, any number of times.

Every store of `DONE` is made by the thread itself while it is in no section,
however late it is. So a thread that is in a section has not been reported done
since it was asked (`Waiting`).

Key definitions: `Qs`, `Loc`, `Handler`, `St`, `stepThread`, `stepHandler`,
`sys`, `Inv`.
Key theorems: `inv_step`, `sig_grace_period`.
-/
import Mathlib.Data.Fin.Basic
import Mathlib.Data.Int.Notation
import Perfbook.Conc.Lock
import Perfbook.Conc.Sections
import Perfbook.Conc.Sys

namespace Perfbook
namespace Rcu
namespace Sig

open Conc

/-- `URCU_QS_IDLE` to `URCU_QS_DONE`. -/
inductive Qs
  | idle
  | req
  | ack
  | done
deriving DecidableEq

/-- The values of the macros. -/
def Qs.val : Qs → ℤ
  | .idle => -1
  | .req => 0
  | .ack => 1
  | .done => 2

/-- Where a thread is in the functions. -/
inductive Loc (n : ℕ)
  | idle
  /-- `rcu_read_lock`, before reading and writing `urcu_nesting` -/
  | lockRead
  | lockWrite (x : ℕ)
  /-- `rcu_read_unlock`, before reading and writing `urcu_nesting` -/
  | unlockRead
  | unlockWrite (x : ℕ)
  /-- before the test of `urcu_qs` -/
  | unlockTest
  /-- before the store of `URCU_QS_DONE` -/
  | unlockDone
  /-- `rcu_register_thread` and `rcu_unregister_thread`, before `spin_lock` -/
  | registerLock (b : Bool)
  /-- before the store to `urcu_statep` -/
  | registerWrite (b : Bool)
  /-- before `spin_unlock` -/
  | registerUnlock
  /-- `synchronize_rcu`, before `spin_lock(&rcu_gp_lock)` -/
  | syncLock
  /-- the first loop for thread `u`, before reading `urcu_statep` -/
  | reqTest (u : Fin n)
  /-- before the store of `URCU_QS_REQ` -/
  | reqWrite (u : Fin n)
  /-- before `pthread_kill` -/
  | reqKill (u : Fin n)
  /-- the second loop for thread `u`, before reading `urcu_statep` -/
  | waitTest (u : Fin n)
  /-- before the test for `URCU_QS_DONE` -/
  | waitDone (u : Fin n)
  /-- before the test for `URCU_QS_REQ` -/
  | waitReq (u : Fin n)
  /-- before the second `pthread_kill` -/
  | waitKill (u : Fin n)
  /-- before the store of `URCU_QS_IDLE` -/
  | waitIdle (u : Fin n)
  /-- before `spin_unlock(&rcu_gp_lock)` -/
  | syncUnlock
  /-- before the return -/
  | syncReturn
deriving DecidableEq

/-- Where `urcu_sig_handler` is, if it runs in a thread. -/
inductive Handler
  | off
  /-- before the test of `urcu_qs` -/
  | test
  /-- before reading `urcu_nesting` -/
  | nesting
  /-- before the store to `urcu_qs` -/
  | write (q : Qs)
deriving DecidableEq

structure St (n : ℕ) where
  urcuNesting : Fin n → ℕ
  urcuQs : Fin n → Qs
  /-- `urcu_statep` is not `NULL` -/
  urcuStatep : Fin n → Bool
  rcuGpLock : Option (Fin n)
  loc : Fin n → Loc n
  handler : Fin n → Handler
  /-- a signal was sent to the thread -/
  sent : Fin n → Bool
  /-- history: the sections -/
  sec : Sections (Fin n)

inductive Act (n : ℕ)
  | rcuReadLock (t : Fin n)
  | rcuReadUnlock (t : Fin n)
  | register (t : Fin n) (b : Bool)
  | synchronizeRcu (t : Fin n)
  /-- a thread takes its next step -/
  | step (t : Fin n)
  /-- a signal arrives -/
  | signal (t : Fin n)
  /-- the handler takes its next step -/
  | handle (t : Fin n)

variable {n : ℕ}

def St.goto (s : St n) (t : Fin n) (l : Loc n) : St n :=
  { s with loc := Function.update s.loc t l }

def St.handle (s : St n) (t : Fin n) (g : Handler) : St n :=
  { s with handler := Function.update s.handler t g }

/-- A store to `urcu_qs` of `u`. -/
def St.setQs (s : St n) (u : Fin n) (q : Qs) : St n :=
  { s with urcuQs := Function.update s.urcuQs u q }

/-- A store to `urcu_nesting` of `t`. -/
def St.setNesting (s : St n) (t : Fin n) (x : ℕ) : St n :=
  { s with urcuNesting := Function.update s.urcuNesting t x }

/-- `pthread_kill(tid, SIGUSR1)`. -/
def St.kill (s : St n) (u : Fin n) : St n := { s with sent := Function.update s.sent u true }

/-- The second loop goes on with thread `i`. -/
def waitFrom (i : ℕ) : Loc n := scan .waitTest .syncUnlock i

/-- The first loop goes on with thread `i`. -/
def reqFrom (i : ℕ) : Loc n := scan .reqTest (waitFrom 0) i

/-- The next step of thread `t`. -/
def stepThread (t : Fin n) (s : St n) : Option (St n) :=
  match s.loc t with
  | .idle => none
  | .lockRead => some (s.goto t (.lockWrite (s.urcuNesting t + 1)))
  | .lockWrite x => some ({ s.setNesting t x with sec := s.sec.enter t }.goto t .idle)
  | .unlockRead => some (s.goto t (.unlockWrite (s.urcuNesting t - 1)))
  | .unlockWrite x =>
    some ({ s.setNesting t x with sec := s.sec.leave t }.goto t
      (if x = 0 then .unlockTest else .idle))
  | .unlockTest =>
    if (s.urcuQs t).val ≥ Qs.ack.val then some (s.goto t .unlockDone) else some (s.goto t .idle)
  | .unlockDone => some ((s.setQs t .done).goto t .idle)
  | .registerLock b =>
    if s.rcuGpLock = none then some ({ s with rcuGpLock := some t }.goto t (.registerWrite b)) else none
  | .registerWrite b =>
    some ({ s with urcuStatep := Function.update s.urcuStatep t b }.goto t .registerUnlock)
  | .registerUnlock => some ({ s with rcuGpLock := none }.goto t .idle)
  | .syncLock =>
    if s.rcuGpLock = none then some ({ s with rcuGpLock := some t }.goto t (reqFrom 0)) else none
  | .reqTest u =>
    if s.urcuStatep u = true then some (s.goto t (.reqWrite u)) else some (s.goto t (reqFrom (u + 1)))
  | .reqWrite u => some ((s.setQs u .req).goto t (.reqKill u))
  | .reqKill u => some ((s.kill u).goto t (reqFrom (u + 1)))
  | .waitTest u =>
    if s.urcuStatep u = true then some (s.goto t (.waitDone u)) else some (s.goto t (waitFrom (u + 1)))
  | .waitDone u =>
    if s.urcuQs u ≠ .done then some (s.goto t (.waitReq u)) else some (s.goto t (.waitIdle u))
  | .waitReq u =>
    if s.urcuQs u = .req then some (s.goto t (.waitKill u)) else some (s.goto t (.waitDone u))
  | .waitKill u => some ((s.kill u).goto t (.waitDone u))
  | .waitIdle u => some ((s.setQs u .idle).goto t (waitFrom (u + 1)))
  | .syncUnlock => some ({ s with rcuGpLock := none }.goto t .syncReturn)
  | .syncReturn => some (s.goto t .idle)

/-- The next step of `urcu_sig_handler` in thread `t`. -/
def stepHandler (t : Fin n) (s : St n) : Option (St n) :=
  match s.handler t with
  | .off => none
  | .test => some (s.handle t (if s.urcuQs t ≠ .req then .off else .nesting))
  | .nesting => some (s.handle t (.write (if s.urcuNesting t ≠ 0 then .ack else .done)))
  | .write q => some ((s.setQs t q).handle t .off)

/-- What an action does. A thread does not move while the handler runs in it. It
enters sections only while it is registered, and unregisters outside of them. -/
def next : Act n → St n → Option (St n)
  | .rcuReadLock t, s =>
    if s.handler t = .off ∧ s.loc t = .idle ∧ s.urcuStatep t = true then some (s.goto t .lockRead)
    else none
  | .rcuReadUnlock t, s =>
    if s.handler t = .off ∧ s.loc t = .idle ∧ 0 < s.sec.depth t then some (s.goto t .unlockRead)
    else none
  | .register t b, s =>
    if s.handler t = .off ∧ s.loc t = .idle ∧ s.sec.depth t = 0 then
      some (s.goto t (.registerLock b))
    else none
  | .synchronizeRcu t, s =>
    if s.handler t = .off ∧ s.loc t = .idle then
      some ({ s with sec := s.sec.observe t }.goto t .syncLock)
    else none
  | .step t, s => if s.handler t = .off then stepThread t s else none
  | .signal t, s =>
    if s.handler t = .off ∧ s.sent t = true then some (s.handle t .test) else none
  | .handle t, s => stepHandler t s

/-- `rcu_init`. -/
structure Init (s : St n) : Prop where
  nesting : ∀ t, s.urcuNesting t = 0
  qs : ∀ t, s.urcuQs t = .idle
  statep : ∀ t, s.urcuStatep t = false
  lock : s.rcuGpLock = none
  loc : ∀ t, s.loc t = .idle
  handler : ∀ t, s.handler t = .off
  sec : s.sec = ⟨fun _ => 0, fun _ _ => false⟩

def sys (n : ℕ) : Sys (St n) (Act n) := ⟨Init, next⟩

/-- When `synchronize_rcu` of a thread returns, every section that ran when the
call began has been left. -/
def GracePeriod (s : St n) : Prop := ∀ t, s.loc t = .syncReturn → s.sec.Waited t

/-! ### The invariant -/

/-- Under `rcu_gp_lock`. -/
def Loc.holding : Loc n → Bool
  | .registerWrite _ | .registerUnlock | .reqTest _ | .reqWrite _ | .reqKill _ | .waitTest _
  | .waitDone _ | .waitReq _ | .waitKill _ | .waitIdle _ | .syncUnlock => true
  | _ => false

/-- The second loop is not past the readers that the call of `t` waits for, and
those below `j`, which have been asked, are not done. -/
def Waiting (s : St n) (t : Fin n) (i j : ℕ) : Prop :=
  ∀ u, s.sec.pre t u = true → i ≤ u.val ∧ (u.val < j → s.urcuQs u ≠ .done)

/-- What holds of a thread at a place of the code. -/
def At (s : St n) (t : Fin n) : Loc n → Prop
  | .lockRead => s.urcuStatep t = true
  | .lockWrite x => s.urcuStatep t = true ∧ x = s.sec.depth t + 1
  | .unlockRead => 0 < s.sec.depth t
  | .unlockWrite x => s.sec.depth t = x + 1
  | .unlockTest | .unlockDone => s.sec.depth t = 0
  | .registerLock _ | .registerWrite _ => s.sec.depth t = 0
  | .reqTest u | .reqWrite u => Waiting s t 0 u
  | .reqKill u => Waiting s t 0 (u + 1)
  | .waitTest u | .waitDone u | .waitReq u | .waitKill u => Waiting s t u n
  | .waitIdle u => Waiting s t (u + 1) n
  | .syncUnlock | .syncReturn => s.sec.Waited t
  | .idle | .registerUnlock | .syncLock => True

/-- The handler reports a thread as done only outside of sections. -/
def HandlerAt (s : St n) (t : Fin n) (g : Handler) : Prop := g = .write .done → s.sec.depth t = 0

structure Inv (s : St n) : Prop where
  ok : s.sec.Ok
  nesting : ∀ u, s.urcuNesting u = s.sec.depth u
  reader : ∀ u, 0 < s.sec.depth u → s.urcuStatep u = true
  lock : LockedBy Loc.holding s.rcuGpLock s.loc
  loc : ∀ t, At s t (s.loc t)
  handler : ∀ t, HandlerAt s t (s.handler t)

variable {s s' : St n} {t : Fin n} {l : Loc n} {g : Handler} {i j : ℕ}

theorem Waiting.frame (h : Waiting s t i j) (hp : ∀ u, s'.sec.pre t u = true →
    s.sec.pre t u = true ∧ (s.urcuQs u ≠ .done → s'.urcuQs u ≠ .done)) : Waiting s' t i j :=
  fun u hu => ⟨(h u (hp u hu).1).1, fun hlt => (hp u hu).2 ((h u (hp u hu).1).2 hlt)⟩

/-- A thread is not disturbed as long as the readers it waits for are not reported. -/
theorem At.frame (h : At s t l) (hd : s'.sec.depth t = s.sec.depth t)
    (hr : s'.urcuStatep t = s.urcuStatep t) (hp : ∀ u, s'.sec.pre t u = true →
      s.sec.pre t u = true ∧ (s.urcuQs u ≠ .done → s'.urcuQs u ≠ .done)) : At s' t l := by
  cases l with
  | idle | registerUnlock | syncLock => trivial
  | lockRead => exact hr.trans h
  | lockWrite x => exact ⟨hr.trans h.1, by rw [hd]; exact h.2⟩
  | unlockRead => exact Nat.lt_of_lt_of_eq h hd.symm
  | unlockWrite x | unlockTest | unlockDone | registerLock b | registerWrite b => exact hd.trans h
  | reqTest u | reqWrite u | reqKill u | waitTest u | waitDone u | waitReq u | waitKill u
  | waitIdle u => exact Waiting.frame h hp
  | syncUnlock | syncReturn => exact Sections.Waited.mono h fun u hu => (hp u hu).1

/-- A thread goes on to `l`, or its handler to `g`. It may change its own words,
and report only threads that are not waited for. -/
theorem Inv.move (h : Inv s) (hloc : s'.loc = Function.update s.loc t l)
    (hhan : s'.handler = Function.update s.handler t g) (hok : s'.sec.Ok)
    (hd : ∀ v, v ≠ t → s'.sec.depth v = s.sec.depth v ∧ s'.urcuNesting v = s.urcuNesting v ∧
      s'.urcuStatep v = s.urcuStatep v)
    (hp : ∀ v u, v ≠ t → s'.sec.pre v u = true →
      s.sec.pre v u = true ∧ (s.urcuQs u ≠ .done → s'.urcuQs u ≠ .done))
    (hnest : s'.urcuNesting t = s'.sec.depth t)
    (hread : 0 < s'.sec.depth t → s'.urcuStatep t = true)
    (hlock : LockedBy Loc.holding s'.rcuGpLock s'.loc) (hl : At s' t l) (hg : HandlerAt s' t g) :
    Inv s' where
  ok := hok
  nesting u := by
    by_cases hu : u = t
    · rwa [hu]
    · rw [(hd u hu).1, (hd u hu).2.1]
      exact h.nesting u
  reader u := by
    by_cases hu : u = t
    · rwa [hu]
    · rw [(hd u hu).1, (hd u hu).2.2]
      exact h.reader u
  lock := hlock
  loc := forall_update (P := At s') hloc hl fun v hv =>
    (h.loc v).frame (hd v hv).1 (hd v hv).2.2 fun u => hp v u hv
  handler := forall_update (P := HandlerAt s') hhan hg fun v hv hw =>
    (hd v hv).1.trans (h.handler v hw)

/-- A thread goes on to `l`; apart from the lock, the signals and reports of threads
that are not waited for, nothing changes. -/
theorem Inv.walk (h : Inv s) (hloc : s'.loc = Function.update s.loc t l)
    (hhan : s'.handler = s.handler) (hsec : s'.sec = s.sec)
    (hnest : s'.urcuNesting = s.urcuNesting) (hstate : s'.urcuStatep = s.urcuStatep)
    (hq : ∀ v u, s.sec.pre v u = true → s.urcuQs u ≠ .done → s'.urcuQs u ≠ .done)
    (hlock : LockedBy Loc.holding s'.rcuGpLock s'.loc) (hl : At s' t l) : Inv s' := by
  refine h.move (g := s.handler t) hloc (by rw [hhan, Function.update_eq_self]) (by rw [hsec]; exact h.ok)
    (fun v _ => by rw [hsec, hnest, hstate]; exact ⟨rfl, rfl, rfl⟩)
    (fun v u _ hu => ?_) ?_ ?_ hlock hl ?_
  · rw [hsec] at hu
    exact ⟨hu, hq v u hu⟩
  · rw [hsec, hnest]
    exact h.nesting t
  · rw [hsec, hstate]
    exact h.reader t
  · rw [HandlerAt, hsec]
    exact h.handler t

/-- A thread goes on to `l`, and nothing else changes. -/
theorem Inv.goto (h : Inv s) (hl : At s t l) (hh : l.holding = (s.loc t).holding) :
    Inv (s.goto t l) :=
  h.walk rfl rfl rfl rfl rfl (fun _ _ _ hu => hu) (h.lock.stay rfl hh)
    (hl.frame rfl rfl fun _ hu => ⟨hu, id⟩)

/-- The handler goes on to `g`, and nothing else changes. -/
theorem Inv.handle (h : Inv s) (hg : HandlerAt s t g) : Inv (s.handle t g) :=
  h.move (l := s.loc t) (Function.update_eq_self ..).symm rfl h.ok (fun _ _ => ⟨rfl, rfl, rfl⟩)
    (fun _ _ _ hu => ⟨hu, id⟩) (h.nesting t) (h.reader t) h.lock
    ((h.loc t).frame rfl rfl fun _ hu => ⟨hu, id⟩) hg

/-- A store to the word of `u` reports nobody who is waited for. -/
theorem setQs_ne_done {q : Qs} {u v : Fin n} (hq : q = .done → s.sec.pre t u = false)
    (hp : s.sec.pre t v = true) (hv : s.urcuQs v ≠ .done) : (s.setQs u q).urcuQs v ≠ .done := by
  show Function.update s.urcuQs u q v ≠ .done
  by_cases hvu : v = u
  · rw [hvu, Function.update_self]
    intro he
    rw [hvu, hq he] at hp
    cases hp
  · rwa [Function.update_of_ne hvu]

/-- The second loop goes on. -/
theorem at_waitFrom (h : Waiting s t i n) : At s t (waitFrom i) := by
  refine scan_rec (P := At s t) (fun v hv => by rw [← hv] at h; exact h) fun hn => ?_
  exact Sections.waited_of_le fun u hu => hn.trans (h u hu).1

/-- The first loop goes on. -/
theorem at_reqFrom (h : Waiting s t 0 i) : At s t (reqFrom i) :=
  scan_rec (P := At s t) (fun v hv => by rw [← hv] at h; exact h)
    fun hn => at_waitFrom fun u hu => ⟨Nat.zero_le _, fun _ => (h u hu).2 (by omega)⟩

theorem holding_waitFrom : (waitFrom i : Loc n).holding = true :=
  scan_rec (P := fun l : Loc n => l.holding = true) (fun _ _ => rfl) fun _ => rfl

theorem holding_reqFrom : (reqFrom i : Loc n).holding = true :=
  scan_rec (P := fun l : Loc n => l.holding = true) (fun _ _ => rfl) fun _ => holding_waitFrom

/-- A loop goes past a thread that is not waited for. -/
theorem Waiting.pass {u : Fin n} (h : Waiting s t u j) (hu : s.sec.pre t u = false) :
    Waiting s t (u + 1) j := by
  intro v hv
  obtain ⟨hle, hqs⟩ := h v hv
  exact ⟨Sections.succ_le_of_pre hu hv hle, hqs⟩

/-- The first loop goes past a thread that is asked or not waited for. -/
theorem Waiting.ask {u : Fin n} (h : Waiting s t i u)
    (hu : s.sec.pre t u = true → s.urcuQs u ≠ .done) : Waiting s t i (u + 1) := by
  intro v hv
  refine ⟨(h v hv).1, fun hlt => ?_⟩
  by_cases hvu : v.val = u.val
  · obtain rfl := Fin.ext hvu
    exact hu hv
  · exact (h v hv).2 (by omega)

/-- A thread that is not registered is not waited for. -/
theorem Inv.not_pre (h : Inv s) {u : Fin n} (hu : ¬ s.urcuStatep u = true) (v : Fin n) :
    s.sec.pre v u = false := by
  by_contra hp
  exact hu (h.reader u (h.ok v u (by simpa using hp)))

/-- `inv_step` for the steps of the handler. -/
theorem inv_handler (h : Inv s) (hn : stepHandler t s = some s') : Inv s' := by
  unfold stepHandler at hn
  cases hg : s.handler t with
  | off => simp [hg] at hn
  | test =>
    rw [hg] at hn
    cases hn
    exact h.handle fun he => by split at he <;> cases he
  | nesting =>
    rw [hg] at hn
    cases hn
    refine h.handle fun he => ?_
    split at he
    · cases he
    · rename_i hz
      rw [h.nesting t] at hz
      exact not_not.mp hz
  | write q =>
    rw [hg] at hn
    cases hn
    have ha := h.handler t
    rw [hg] at ha
    have hq : ∀ v, q = .done → s.sec.pre v t = false := fun v he => h.ok.not_pre (ha (by rw [he])) v
    exact h.move (l := s.loc t) (Function.update_eq_self ..).symm rfl h.ok (fun _ _ => ⟨rfl, rfl, rfl⟩)
      (fun v _ _ hu => ⟨hu, setQs_ne_done (hq v) hu⟩) (h.nesting t) (h.reader t) h.lock
      ((h.loc t).frame rfl rfl fun _ hu => ⟨hu, setQs_ne_done (hq t) hu⟩) nofun

/-- `inv_step` for the steps of a reader. -/
theorem inv_reader (h : Inv s) (hoff : s.handler t = .off) (hn : stepThread t s = some s')
    (hl : s.loc t = .lockRead ∨ (∃ x, s.loc t = .lockWrite x) ∨ s.loc t = .unlockRead ∨
      (∃ x, s.loc t = .unlockWrite x) ∨ s.loc t = .unlockTest ∨ s.loc t = .unlockDone) : Inv s' := by
  have ha := h.loc t
  have hself : s.handler = Function.update s.handler t .off := by rw [← hoff, Function.update_eq_self]
  unfold stepThread at hn
  rcases hl with hl | ⟨x, hl⟩ | hl | ⟨x, hl⟩ | hl | hl <;> rw [hl] at hn ha <;> dsimp only at hn
  · cases hn
    exact h.goto ⟨ha, by rw [h.nesting t]⟩ (by rw [hl]; rfl)
  · cases hn
    refine h.move (g := .off) rfl hself (h.ok.enter t)
      (fun v hv => ⟨Sections.enter_depth_ne hv, Function.update_of_ne hv .., rfl⟩)
      (fun _ _ _ hu => ⟨hu, id⟩) ?_ (fun _ => ha.1) (h.lock.stay rfl (by rw [hl]; rfl)) trivial nofun
    show Function.update s.urcuNesting t x t = (s.sec.enter t).depth t
    rw [Function.update_self, Sections.enter_depth]
    exact ha.2
  · cases hn
    have hd : 0 < s.sec.depth t := ha
    refine h.goto ?_ (by rw [hl]; rfl)
    show s.sec.depth t = s.urcuNesting t - 1 + 1
    rw [h.nesting t]
    omega
  · cases hn
    have hd : s.sec.depth t = x + 1 := ha
    refine h.move (g := .off) rfl hself (h.ok.leave t)
      (fun v hv => ⟨Sections.leave_depth_ne hv, Function.update_of_ne hv .., rfl⟩)
      (fun _ _ _ hu => ⟨(Sections.pre_of_leave hu).1, id⟩) ?_
      (fun _ => h.reader t (by omega)) (h.lock.stay rfl ?_) ?_ nofun
    · show Function.update s.urcuNesting t x t = (s.sec.leave t).depth t
      rw [Function.update_self, Sections.leave_depth]
      omega
    · rw [hl]
      split <;> rfl
    · split
      · show (s.sec.leave t).depth t = 0
        rw [Sections.leave_depth]
        omega
      · trivial
  · split at hn <;> cases hn
    · exact h.goto ha (by rw [hl]; rfl)
    · exact h.goto trivial (by rw [hl]; rfl)
  · cases hn
    -- the thread is in no section, so nobody waits for it
    exact h.walk rfl rfl rfl rfl rfl (fun v _ hu => setQs_ne_done (fun _ => h.ok.not_pre ha v) hu)
      (h.lock.stay rfl (by rw [hl]; rfl)) trivial

/-- `inv_step` for a thread that registers. -/
theorem inv_register (h : Inv s) (hn : stepThread t s = some s')
    (hl : (∃ b, s.loc t = .registerLock b) ∨ (∃ b, s.loc t = .registerWrite b) ∨
      s.loc t = .registerUnlock) : Inv s' := by
  have ha := h.loc t
  unfold stepThread at hn
  rcases hl with ⟨b, hl⟩ | ⟨b, hl⟩ | hl <;> rw [hl] at hn ha <;> dsimp only at hn
  · split at hn <;> rename_i hfree <;> cases hn
    have hlock := h.lock
    rw [hfree] at hlock
    exact h.walk rfl rfl rfl rfl rfl (fun _ _ _ hu => hu) (hlock.take rfl rfl) ha
  · cases hn
    have hd : s.sec.depth t = 0 := ha
    exact h.move (g := s.handler t) rfl (Function.update_eq_self ..).symm h.ok
      (fun v hv => ⟨rfl, rfl, Function.update_of_ne hv ..⟩) (fun _ _ _ hu => ⟨hu, id⟩) (h.nesting t)
      (fun hp => absurd hp (by show ¬ 0 < s.sec.depth t; omega)) (h.lock.stay rfl (by rw [hl]; rfl))
      trivial (h.handler t)
  · cases hn
    exact h.walk rfl rfl rfl rfl rfl (fun _ _ _ hu => hu) (h.lock.drop rfl (by rw [hl]; rfl) rfl) trivial

/-- `inv_step` for the steps of `synchronize_rcu`. -/
theorem inv_sync (h : Inv s) (hn : stepThread t s = some s')
    (hl : s.loc t = .syncLock ∨ (∃ u, s.loc t = .reqTest u) ∨ (∃ u, s.loc t = .reqWrite u) ∨
      (∃ u, s.loc t = .reqKill u) ∨ (∃ u, s.loc t = .waitTest u) ∨ (∃ u, s.loc t = .waitDone u) ∨
      (∃ u, s.loc t = .waitReq u) ∨ (∃ u, s.loc t = .waitKill u) ∨ (∃ u, s.loc t = .waitIdle u) ∨
      s.loc t = .syncUnlock ∨ s.loc t = .syncReturn) : Inv s' := by
  have ha := h.loc t
  unfold stepThread at hn
  rcases hl with hl | ⟨u, hl⟩ | ⟨u, hl⟩ | ⟨u, hl⟩ | ⟨u, hl⟩ | ⟨u, hl⟩ | ⟨u, hl⟩ | ⟨u, hl⟩ | ⟨u, hl⟩ |
    hl | hl <;> rw [hl] at hn ha <;> dsimp only at hn
  · split at hn <;> rename_i hfree <;> cases hn
    have hlock := h.lock
    rw [hfree] at hlock
    exact h.walk rfl rfl rfl rfl rfl (fun _ _ _ hu => hu) (hlock.take rfl holding_reqFrom)
      (at_reqFrom fun u _ => ⟨Nat.zero_le _, fun hlt => absurd hlt (Nat.not_lt_zero _)⟩)
  · split at hn <;> rename_i hreg <;> cases hn
    · exact h.goto ha (by rw [hl]; rfl)
    · refine h.goto (at_reqFrom (Waiting.ask ha fun hp => ?_)) (by rw [hl]; exact holding_reqFrom)
      rw [h.not_pre hreg t] at hp
      cases hp
  · cases hn
    refine h.walk rfl rfl rfl rfl rfl (fun _ _ => setQs_ne_done nofun)
      (h.lock.stay rfl (by rw [hl]; rfl)) (Waiting.ask ?_ fun _ => ?_)
    · exact Waiting.frame ha fun _ hu => ⟨hu, setQs_ne_done nofun hu⟩
    · show Function.update s.urcuQs u .req u ≠ .done
      rw [Function.update_self]
      exact nofun
  · cases hn
    exact h.walk rfl rfl rfl rfl rfl (fun _ _ _ hu => hu)
      (h.lock.stay rfl (by rw [hl]; exact holding_reqFrom))
      ((at_reqFrom ha).frame rfl rfl fun _ hu => ⟨hu, id⟩)
  · split at hn <;> rename_i hreg <;> cases hn
    · exact h.goto ha (by rw [hl]; rfl)
    · exact h.goto (at_waitFrom (Waiting.pass ha (h.not_pre hreg t)))
        (by rw [hl]; exact holding_waitFrom)
  · split at hn <;> rename_i hq <;> cases hn
    · exact h.goto ha (by rw [hl]; rfl)
    · refine h.goto (Waiting.pass ha ?_) (by rw [hl]; rfl)
      -- a thread that was asked and is done is in no section
      by_contra hp
      exact (ha u (by simpa using hp)).2 u.isLt (not_not.mp hq)
  · split at hn <;> cases hn
    · exact h.goto ha (by rw [hl]; rfl)
    · exact h.goto ha (by rw [hl]; rfl)
  · cases hn
    exact h.walk rfl rfl rfl rfl rfl (fun _ _ _ hu => hu) (h.lock.stay rfl (by rw [hl]; rfl)) ha
  · cases hn
    refine h.walk rfl rfl rfl rfl rfl (fun _ _ => setQs_ne_done nofun)
      (h.lock.stay rfl (by rw [hl]; exact holding_waitFrom)) (at_waitFrom ?_)
    exact Waiting.frame ha fun _ hu => ⟨hu, setQs_ne_done nofun hu⟩
  · cases hn
    exact h.walk rfl rfl rfl rfl rfl (fun _ _ _ hu => hu) (h.lock.drop rfl (by rw [hl]; rfl) rfl) ha
  · cases hn
    exact h.goto trivial (by rw [hl]; rfl)

/-- **The step lemma.** -/
theorem inv_step {a : Act n} (h : Inv s) (hn : next a s = some s') : Inv s' := by
  cases a with
  | rcuReadLock t =>
    simp only [next] at hn
    split at hn <;> rename_i hc <;> cases hn
    exact h.goto hc.2.2 (by rw [hc.2.1]; rfl)
  | rcuReadUnlock t =>
    simp only [next] at hn
    split at hn <;> rename_i hc <;> cases hn
    exact h.goto hc.2.2 (by rw [hc.2.1]; rfl)
  | register t b =>
    simp only [next] at hn
    split at hn <;> rename_i hc <;> cases hn
    exact h.goto hc.2.2 (by rw [hc.2.1]; rfl)
  | synchronizeRcu t =>
    simp only [next] at hn
    split at hn <;> rename_i hc <;> cases hn
    exact h.move (g := s.handler t) (l := .syncLock) rfl (Function.update_eq_self ..).symm
      (h.ok.observe t) (fun _ _ => ⟨rfl, rfl, rfl⟩)
      (fun v u hv hu => ⟨by rwa [← Sections.observe_pre_ne hv], id⟩) (h.nesting t) (h.reader t)
      (h.lock.stay rfl (by rw [hc.2]; rfl)) trivial (h.handler t)
  | step t =>
    simp only [next] at hn
    split at hn
    · rename_i hoff
      cases hl : s.loc t with
      | idle => simp [stepThread, hl] at hn
      | lockRead | lockWrite x | unlockRead | unlockWrite x | unlockTest | unlockDone =>
        exact inv_reader h hoff hn (by simp [hl])
      | registerLock b | registerWrite b | registerUnlock => exact inv_register h hn (by simp [hl])
      | syncLock | reqTest u | reqWrite u | reqKill u | waitTest u | waitDone u | waitReq u
      | waitKill u | waitIdle u | syncUnlock | syncReturn => exact inv_sync h hn (by simp [hl])
    · cases hn
  | signal t =>
    simp only [next] at hn
    split at hn <;> cases hn
    exact h.handle nofun
  | handle t => exact inv_handler h hn

theorem inv_init (h : Init s) : Inv s where
  ok t u hp := by simp [h.sec] at hp
  nesting u := by simp [h.nesting, h.sec]
  reader u hu := by simp [h.sec] at hu
  lock t := by simp [h.lock, h.loc t, Loc.holding]
  loc t := by
    rw [h.loc t]
    trivial
  handler t := by
    rw [h.handler t]
    exact nofun

/-- **The grace-period guarantee.** -/
theorem sig_grace_period (h : (sys n).Reach Sys.always s) : GracePeriod s := by
  intro t ht
  have hi := (h.inv (fun _ => inv_init) fun _ _ _ hi _ hn => inv_step hi hn).loc t
  rwa [ht] at hi

/-- Nobody is registered. -/
def start (n : ℕ) : St n where
  urcuNesting _ := 0
  urcuQs _ := .idle
  urcuStatep _ := false
  rcuGpLock := none
  loc _ := .idle
  handler _ := .off
  sent _ := false
  sec := ⟨fun _ => 0, fun _ _ => false⟩

theorem start_init (n : ℕ) : Init (start n) :=
  ⟨fun _ => rfl, fun _ => rfl, fun _ => rfl, rfl, fun _ => rfl, fun _ => rfl, rfl⟩

/-- Reader 1 acknowledges the signal in its section and reports when it leaves. -/
def acked : List (Act 2) :=
  [.register 1 true, .step 1, .step 1, .step 1, .rcuReadLock 1, .step 1, .step 1,
    .synchronizeRcu 0, .step 0, .step 0, .step 0, .step 0, .step 0,
    .signal 1, .handle 1, .handle 1, .handle 1,
    .rcuReadUnlock 1, .step 1, .step 1, .step 1, .step 1,
    .step 0, .step 0, .step 0, .step 0, .step 0]

theorem sig_grace_period_acked : ∃ s, (sys 2).run Sys.always acked (start 2) = some s ∧
    s.loc 0 = .syncReturn ∧ GracePeriod s := by
  obtain ⟨s, hs⟩ := Option.isSome_iff_exists.mp
    (show ((sys 2).run Sys.always acked (start 2)).isSome = true by decide)
  have hloc : ((sys 2).run Sys.always acked (start 2)).map (·.loc 0) = some .syncReturn := by decide
  rw [hs] at hloc
  exact ⟨s, hs, Option.some.inj hloc, sig_grace_period (Sys.run_reach (.init (start_init 2)) hs)⟩

end Sig
end Rcu
end Perfbook
