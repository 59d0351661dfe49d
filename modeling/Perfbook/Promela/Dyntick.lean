/-
# `formal/promela/dyntick/dyntickRCU-irq-nmi-ssl.spin`

A CPU that is in nohz mode is in no critical section, and RCU must not disturb
it. It keeps a counter that is even in nohz mode and odd otherwise; so do the
interrupts and NMIs that it takes in nohz mode. A grace period that has read
the counter need not wait for the CPU once the counter is even or has changed.

Four processes: the grace period; the mainline, which leaves and enters nohz
mode; the interrupts, which nest; and the NMIs. The mainline stands still while
an interrupt or an NMI runs, and the interrupts stand still while an NMI runs
(`executeMainline`, `executeIrq`). Each statement is one step, and so is each
`atomic` block; the `skip` at a label is left out. The number of rounds of each
process is arbitrary, and the counters are integers.

`failed` records that an assertion has failed that the model makes about the
counter's parity or the grace period. What `assert(!shouldexit)` says about
progress is recorded on its own (`stalled`).

Key definitions: `St`, `stepGp`, `stepNohz`, `stepIrq`, `stepNmi`, `sys`.
-/
import Mathlib.Data.Int.Notation
import Mathlib.Data.Nat.Notation
import Perfbook.Conc.Sys

namespace Perfbook
namespace Promela
namespace Dyntick

open Conc

/-- `GP_IDLE`, `GP_WAITING` and `GP_DONE`. -/
inductive GpState
  | idle
  | waiting
  | done
deriving DecidableEq

/-- Where `grace_period` is; it does everything `again`. -/
inductive GpLoc
  /-- before `grace_period_state = GP_IDLE` -/
  | idle (again : Bool)
  /-- before the snapshot -/
  | snap (again : Bool)
  /-- the loop -/
  | wait (again : Bool)
  /-- before `grace_period_state = GP_DONE` -/
  | done (again : Bool)
  | exit
deriving DecidableEq

/-- Where `dyntick_nohz` is. -/
inductive NohzLoc
  | top
  /-- before `tmp = dynticks_progress_counter` -/
  | stmt1
  /-- before the counter is set and the state of the grace period captured -/
  | stmt2
  /-- before `tmp = dynticks_progress_counter` and the assertion -/
  | stmt3
  /-- before the counter is set -/
  | stmt4
  /-- before `i++` -/
  | inc
  /-- before `dyntick_nohz_done = 1` -/
  | fin
  | exit
deriving DecidableEq

/-- Where `dyntick_irq` is: its labels, and what has none. -/
inductive IrqLoc
  | top
  /-- before `outermost` and `in_dyntick_irq` are set -/
  | enter
  | stmt1
  | stmt1_1
  | stmt1_2
  | stmt2
  | stmt2_1
  | stmt2_2
  | stmt2_3
  | stmt2_4
  | stmt3
  | stmt4
  | stmt5
  /-- before `i++` -/
  | inc
  | stmt6
  | stmt7
  | stmt8
  | stmt9
  | stmt9_1
  | stmt9_2
  | stmt9_3
  | stmt9_3_1
  | stmt9_3_2
  /-- before `j++` and `in_dyntick_irq = (i != j)` -/
  | leave
  /-- before `dyntick_irq_done = 1` -/
  | fin
  | exit
deriving DecidableEq

/-- Where `dyntick_nmi` is; the names follow the statements of `dyntick_irq`. -/
inductive NmiLoc
  | top
  /-- before `in_dyntick_nmi = 1` -/
  | enter
  | stmt1
  | stmt1_1
  | stmt1_2
  | stmt2
  | stmt2_1
  | stmt2_2
  | stmt2_3
  | stmt2_4
  | stmt3
  | stmt4
  | stmt5
  | stmt6
  | stmt7
  | stmt8
  | stmt9
  | stmt9_1
  | stmt9_2
  | stmt9_3
  | stmt9_3_1
  | stmt9_3_2
  /-- before `i++` and `in_dyntick_nmi = 0` -/
  | leave
  /-- before `dyntick_nmi_done = 1` -/
  | fin
  | exit
deriving DecidableEq

structure Gp where
  loc : GpLoc
  curr : ℤ
  snap : ℤ
  shouldexit : Bool

structure Nohz where
  loc : NohzLoc
  tmp : ℤ
  i : ℕ
  oldGpIdle : Bool

structure Irq where
  loc : IrqLoc
  tmp : ℤ
  i : ℕ
  j : ℕ
  oldGpIdle : Bool
  outermost : Bool

structure Nmi where
  loc : NmiLoc
  tmp : ℤ
  i : ℕ
  oldGpIdle : Bool

/-- `dynticks_progress_counter`, `rcu_update_flag` and `in_interrupt`. -/
@[ext]
structure Vars where
  counter : ℤ
  flag : ℤ
  interrupt : ℤ

structure St where
  vars : Vars
  inDyntickIrq : Bool
  inDyntickNmi : Bool
  gracePeriodState : GpState
  nohzDone : Bool
  irqDone : Bool
  nmiDone : Bool
  gp : Gp
  nohz : Nohz
  irq : Irq
  nmi : Nmi
  /-- history: an assertion about the counter or the grace period has failed -/
  failed : Bool
  /-- history: `assert(!shouldexit)` has failed -/
  stalled : Bool

namespace St

variable (s : St)

def setCounter (x : ℤ) : St := { s with vars := { s.vars with counter := x } }

def setFlag (x : ℤ) : St := { s with vars := { s.vars with flag := x } }

def setInterrupt (x : ℤ) : St := { s with vars := { s.vars with interrupt := x } }

/-- `assert`. -/
def assert (c : Bool) : St := { s with failed := s.failed || !c }

/-- `old_gp_idle` does not claim that the grace period goes on, or it does. -/
def check (old : Bool) : St := s.assert (!old || s.gracePeriodState != GpState.done)

/-- `EXECUTE_MAINLINE`: what the mainline does, unless it stands still. -/
def executeMainline (k : St) : St := if s.inDyntickIrq || s.inDyntickNmi then s else k

/-- `EXECUTE_IRQ`. -/
def executeIrq (k : St) : St := if s.inDyntickNmi then s else k

/-- The mainline goes on to `l` with `tmp = x`. -/
def nohzTo (l : NohzLoc) (x : ℤ) : St := { s with nohz := { s.nohz with loc := l, tmp := x } }

def irqTo (l : IrqLoc) (x : ℤ) : St := { s with irq := { s.irq with loc := l, tmp := x } }

def nmiTo (l : NmiLoc) (x : ℤ) : St := { s with nmi := { s.nmi with loc := l, tmp := x } }

end St

/-- `grace_period`. -/
def stepGp (s : St) : Option St :=
  match s.gp.loc with
  | .idle again =>
    some { s with gracePeriodState := .idle, gp := { s.gp with loc := .snap again } }
  | .snap again =>
    some { s with
      gracePeriodState := .waiting
      gp := { s.gp with loc := .wait again, shouldexit := false, snap := s.vars.counter } }
  | .wait again =>
    let curr := s.vars.counter
    let stop := if again then curr ≠ s.gp.snap ∨ curr % 2 = 0
      else curr - s.gp.snap ≥ 2 ∨ curr % 2 = 0
    some { s with
      stalled := s.stalled || s.gp.shouldexit
      gp := { s.gp with
        loc := if stop then .done again else .wait again
        shouldexit := s.nohzDone && s.irqDone && s.nmiDone
        curr := curr } }
  | .done again =>
    some { s with
      gracePeriodState := .done
      gp := { s.gp with loc := if again then .exit else .idle true } }
  | .exit => none

/-- `dyntick_nohz`. -/
def stepNohz (maxNohz : ℕ) (s : St) : Option St :=
  let tmp := s.nohz.tmp
  match s.nohz.loc with
  | .top => some (s.nohzTo (if s.nohz.i ≥ maxNohz then .fin else .stmt1) tmp)
  | .stmt1 => some (s.executeMainline (s.nohzTo .stmt2 s.vars.counter))
  | .stmt2 =>
    let s' := s.setCounter (tmp + 1)
    some (s.executeMainline
      ({ s' with
        nohz := { s'.nohz with
          loc := .stmt3
          oldGpIdle := s.gracePeriodState == GpState.idle } }.assert ((tmp + 1) % 2 == 1)))
  | .stmt3 => some (s.executeMainline ((s.nohzTo .stmt4 s.vars.counter).check s.nohz.oldGpIdle))
  | .stmt4 =>
    some (s.executeMainline (((s.setCounter (tmp + 1)).nohzTo .inc tmp).assert ((tmp + 1) % 2 == 0)))
  | .inc => some { s with nohz := { s.nohz with loc := .top, i := s.nohz.i + 1 } }
  | .fin => some { s.nohzTo .exit tmp with nohzDone := true }
  | .exit => none

/-- `dyntick_irq`. At the top of the loop another interrupt comes if `more`, or the last one
returns. -/
def stepIrq (maxIrq : ℕ) (more : Bool) (s : St) : Option St :=
  let tmp := s.irq.tmp
  match s.irq.loc with
  | .top =>
    if s.irq.i ≥ maxIrq ∧ s.irq.j ≥ maxIrq then some (s.irqTo .fin tmp)
    else if more = true ∧ s.irq.i < maxIrq then some (s.irqTo .enter tmp)
    else if s.irq.j < s.irq.i then some (s.irqTo .stmt6 tmp)
    else none
  | .enter =>
    some { s with
      inDyntickIrq := true
      irq := { s.irq with loc := .stmt1, outermost := !s.inDyntickIrq } }
  | .stmt1 =>
    some (s.executeIrq (if s.vars.flag ≠ 0 then s.irqTo .stmt1_1 tmp else s.irqTo .stmt2 tmp))
  | .stmt1_1 => some (s.executeIrq (s.irqTo .stmt1_2 s.vars.flag))
  | .stmt1_2 => some (s.executeIrq ((s.setFlag (tmp + 1)).irqTo .stmt2 tmp))
  | .stmt2 =>
    some (s.executeIrq (if s.vars.interrupt = 0 ∧ s.vars.counter % 2 = 0 then s.irqTo .stmt2_1 tmp
      else s.irqTo .stmt3 tmp))
  | .stmt2_1 => some (s.executeIrq (s.irqTo .stmt2_2 s.vars.counter))
  | .stmt2_2 => some (s.executeIrq ((s.setCounter (tmp + 1)).irqTo .stmt2_3 tmp))
  | .stmt2_3 => some (s.executeIrq (s.irqTo .stmt2_4 s.vars.flag))
  | .stmt2_4 => some (s.executeIrq ((s.setFlag (tmp + 1)).irqTo .stmt3 tmp))
  | .stmt3 => some (s.executeIrq (s.irqTo .stmt4 s.vars.interrupt))
  | .stmt4 => some (s.executeIrq ((s.setInterrupt (tmp + 1)).irqTo .stmt5 tmp))
  | .stmt5 =>
    -- the source goes back to `stmt4` here, and not to `stmt5`
    some (if s.inDyntickNmi then s.irqTo .stmt4 tmp
      else { s with irq := { s.irq with
        loc := .inc
        oldGpIdle := if s.irq.outermost then s.gracePeriodState == GpState.idle else s.irq.oldGpIdle } })
  | .inc => some { s with irq := { s.irq with loc := .top, i := s.irq.i + 1 } }
  | .stmt6 =>
    some (s.executeIrq (if s.irq.j + 1 = s.irq.i then (s.irqTo .stmt7 tmp).check s.irq.oldGpIdle
      else s.irqTo .stmt7 tmp))
  | .stmt7 => some (s.executeIrq (s.irqTo .stmt8 s.vars.interrupt))
  | .stmt8 => some (s.executeIrq ((s.setInterrupt (tmp - 1)).irqTo .stmt9 tmp))
  | .stmt9 =>
    some (s.executeIrq (if s.vars.flag ≠ 0 then s.irqTo .stmt9_1 tmp else s.irqTo .leave tmp))
  | .stmt9_1 => some (s.executeIrq (s.irqTo .stmt9_2 s.vars.flag))
  | .stmt9_2 => some (s.executeIrq ((s.setFlag (tmp - 1)).irqTo .stmt9_3 tmp))
  | .stmt9_3 =>
    some (s.executeIrq (if s.vars.flag = 0 then s.irqTo .stmt9_3_1 tmp else s.irqTo .leave tmp))
  | .stmt9_3_1 => some (s.executeIrq (s.irqTo .stmt9_3_2 s.vars.counter))
  | .stmt9_3_2 => some (s.executeIrq ((s.setCounter (tmp + 1)).irqTo .leave tmp))
  | .leave =>
    some { s with
      inDyntickIrq := s.irq.i != s.irq.j + 1
      irq := { s.irq with loc := .top, j := s.irq.j + 1 } }
  | .fin => some { s.irqTo .exit tmp with irqDone := true }
  | .exit => none

/-- `dyntick_nmi`. -/
def stepNmi (maxNmi : ℕ) (s : St) : Option St :=
  let tmp := s.nmi.tmp
  match s.nmi.loc with
  | .top => some (s.nmiTo (if s.nmi.i ≥ maxNmi then .fin else .enter) tmp)
  | .enter => some { s.nmiTo .stmt1 tmp with inDyntickNmi := true }
  | .stmt1 => some (if s.vars.flag > 0 then s.nmiTo .stmt1_1 tmp else s.nmiTo .stmt2 tmp)
  | .stmt1_1 => some (s.nmiTo .stmt1_2 s.vars.flag)
  | .stmt1_2 => some ((s.setFlag (tmp + 1)).nmiTo .stmt2 tmp)
  | .stmt2 =>
    some (if s.vars.interrupt = 0 ∧ s.vars.counter % 2 = 0 then s.nmiTo .stmt2_1 tmp
      else s.nmiTo .stmt3 tmp)
  | .stmt2_1 => some (s.nmiTo .stmt2_2 s.vars.counter)
  | .stmt2_2 => some ((s.setCounter (tmp + 1)).nmiTo .stmt2_3 tmp)
  | .stmt2_3 => some (s.nmiTo .stmt2_4 s.vars.flag)
  | .stmt2_4 => some ((s.setFlag (tmp + 1)).nmiTo .stmt3 tmp)
  | .stmt3 => some (s.nmiTo .stmt4 s.vars.interrupt)
  | .stmt4 => some ((s.setInterrupt (tmp + 1)).nmiTo .stmt5 tmp)
  | .stmt5 =>
    some { s with nmi := { s.nmi with
      loc := .stmt6
      oldGpIdle := s.gracePeriodState == GpState.idle } }
  | .stmt6 => some ((s.nmiTo .stmt7 tmp).check s.nmi.oldGpIdle)
  | .stmt7 => some (s.nmiTo .stmt8 s.vars.interrupt)
  | .stmt8 => some ((s.setInterrupt (tmp - 1)).nmiTo .stmt9 tmp)
  | .stmt9 => some (if s.vars.flag ≠ 0 then s.nmiTo .stmt9_1 tmp else s.nmiTo .leave tmp)
  | .stmt9_1 => some (s.nmiTo .stmt9_2 s.vars.flag)
  | .stmt9_2 => some ((s.setFlag (tmp - 1)).nmiTo .stmt9_3 tmp)
  | .stmt9_3 => some (if s.vars.flag = 0 then s.nmiTo .stmt9_3_1 tmp else s.nmiTo .leave tmp)
  | .stmt9_3_1 => some (s.nmiTo .stmt9_3_2 s.vars.counter)
  | .stmt9_3_2 => some ((s.setCounter (tmp + 1)).nmiTo .leave tmp)
  | .leave =>
    some { s with inDyntickNmi := false, nmi := { s.nmi with loc := .top, i := s.nmi.i + 1 } }
  | .fin => some { s.nmiTo .exit tmp with nmiDone := true }
  | .exit => none

/-- The bounds `MAX_DYNTICK_LOOP_NOHZ`, `MAX_DYNTICK_LOOP_IRQ` and `MAX_DYNTICK_LOOP_NMI`. -/
structure Bounds where
  nohz : ℕ
  irq : ℕ
  nmi : ℕ

inductive Act
  | gracePeriod
  | dyntickNohz
  | dyntickIrq (more : Bool)
  | dyntickNmi

def next (m : Bounds) : Act → St → Option St
  | .gracePeriod, s => stepGp s
  | .dyntickNohz, s => stepNohz m.nohz s
  | .dyntickIrq more, s => stepIrq m.irq more s
  | .dyntickNmi, s => stepNmi m.nmi s

/-- All variables are 0, and the grace period is done. -/
def start : St where
  vars := ⟨0, 0, 0⟩
  inDyntickIrq := false
  inDyntickNmi := false
  gracePeriodState := .done
  nohzDone := false
  irqDone := false
  nmiDone := false
  gp := ⟨.idle false, 0, 0, false⟩
  nohz := ⟨.top, 0, 0, false⟩
  irq := ⟨.top, 0, 0, 0, false, false⟩
  nmi := ⟨.top, 0, 0, false⟩
  failed := false
  stalled := false

def sys (m : Bounds) : Sys St Act := ⟨fun s => s = start, next m⟩

end Dyntick
end Promela
end Perfbook
