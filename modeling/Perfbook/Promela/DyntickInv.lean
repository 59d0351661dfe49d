/-
# The dynticks interface is safe

The variables that the interrupts and NMIs use are seen in two layers. `b` are
the values without the NMI that runs: what the mainline and the interrupts have
made of them (`IrqAt`). On top of that an NMI makes its own changes and takes
them back (`NmiAt`); if it comes in nohz mode it leaves the counter 2 higher,
which is even again. So whoever has read the counter before may set it back,
but never to a number of the wrong parity.

While a process that has seen the grace period idle is outside of nohz mode,
the counter is odd and does not change, and the grace period compares it with
the same number (`Watch`).

Key definitions: `Rest`, `IrqAt`, `NmiAt`, `Watch`, `Inv`.
Key theorems: `inv_gp`, `inv_nohz`, `inv_irq`, `inv_nmi`, `dyntick_safe`.
-/
import Mathlib.Data.Bool.Basic
import Mathlib.Tactic.Common
import Perfbook.Promela.Dyntick

namespace Perfbook
namespace Promela
namespace Dyntick

open Conc

/-- The mainline is outside of nohz mode. -/
def NohzLoc.busy : NohzLoc → Bool
  | .stmt3 | .stmt4 => true
  | _ => false

/-- What the grace period has told of itself. -/
def GpLoc.state : GpLoc → GpState
  | .idle _ | .exit => .done
  | .snap _ => .idle
  | .wait _ | .done _ => .waiting

/-- On the way into an interrupt. -/
def IrqLoc.entering : IrqLoc → Bool
  | .stmt1 | .stmt1_1 | .stmt1_2 | .stmt2 | .stmt2_1 | .stmt2_2 | .stmt2_3 | .stmt2_4 | .stmt3
  | .stmt4 | .stmt5 | .inc => true
  | _ => false

/-- On the way out of an interrupt, after the assertion. -/
def IrqLoc.leaving : IrqLoc → Bool
  | .stmt7 | .stmt8 | .stmt9 | .stmt9_1 | .stmt9_2 | .stmt9_3 | .stmt9_3_1 | .stmt9_3_2
  | .leave => true
  | _ => false

/-- In an NMI. -/
def NmiLoc.active : NmiLoc → Bool
  | .top | .enter | .fin | .exit => false
  | _ => true

/-- How many interrupts have been entered and not left. -/
def Irq.depth (q : Irq) : ℕ := q.i - q.j

/-- Between what `old_gp_idle` captures and the assertion about it. -/
def Irq.watching (q : Irq) : Bool :=
  if q.depth = 0 then q.loc == .inc else !(q.depth == 1 && q.loc.leaving)

/-- `k` interrupts are running, and no one is entered or left. If the mainline is
in nohz mode (`m` is false), `rcu_update_flag` counts them. -/
structure Rest (m : Bool) (b : Vars) (k : ℕ) : Prop where
  interrupt : b.interrupt = k
  flag : b.flag = if m then 0 else (k : ℤ)
  odd : m = true ∨ 0 < k → b.counter % 2 = 1
  even : m = false → k = 0 → b.counter % 2 = 0

/-- What holds of the variables where `dyntick_irq` is; `d` interrupts have been entered. -/
def IrqAt (m : Bool) (b : Vars) (d : ℕ) (tmp : ℤ) : IrqLoc → Prop
  | .top | .enter | .stmt1 | .fin | .exit => Rest m b d
  | .stmt1_1 => Rest m b d ∧ b.flag ≠ 0
  | .stmt1_2 => Rest m b d ∧ b.flag ≠ 0 ∧ tmp = b.flag
  | .stmt2 => b.interrupt = d ∧ b.flag = (if m ∨ d = 0 then 0 else (d : ℤ) + 1) ∧
      (m = true ∨ 0 < d → b.counter % 2 = 1) ∧ (m = false → d = 0 → b.counter % 2 = 0)
  | .stmt2_1 => m = false ∧ d = 0 ∧ b.interrupt = 0 ∧ b.flag = 0 ∧ b.counter % 2 = 0
  | .stmt2_2 => m = false ∧ d = 0 ∧ b.interrupt = 0 ∧ b.flag = 0 ∧ b.counter % 2 = 0 ∧ tmp % 2 = 0
  | .stmt2_3 => m = false ∧ d = 0 ∧ b.interrupt = 0 ∧ b.flag = 0 ∧ b.counter % 2 = 1
  | .stmt2_4 => m = false ∧ d = 0 ∧ b.interrupt = 0 ∧ b.flag = 0 ∧ b.counter % 2 = 1 ∧ tmp = 0
  | .stmt3 => b.interrupt = d ∧ b.flag = (if m then 0 else (d : ℤ) + 1) ∧ b.counter % 2 = 1
  | .stmt4 => (b.interrupt = d ∨ b.interrupt = d + 1) ∧ tmp = d ∧
      b.flag = (if m then 0 else (d : ℤ) + 1) ∧ b.counter % 2 = 1
  | .stmt5 => Rest m b (d + 1) ∧ tmp = d
  | .inc => Rest m b (d + 1)
  | .stmt6 | .stmt7 => 0 < d ∧ Rest m b d
  | .stmt8 => 0 < d ∧ Rest m b d ∧ tmp = d
  | .stmt9 => 0 < d ∧ b.interrupt = d - 1 ∧ b.flag = (if m then 0 else (d : ℤ)) ∧ b.counter % 2 = 1
  | .stmt9_1 => m = false ∧ 0 < d ∧ b.interrupt = d - 1 ∧ b.flag = d ∧ b.counter % 2 = 1
  | .stmt9_2 => m = false ∧ 0 < d ∧ b.interrupt = d - 1 ∧ b.flag = d ∧ b.counter % 2 = 1 ∧ tmp = d
  | .stmt9_3 => m = false ∧ 0 < d ∧ b.interrupt = d - 1 ∧ b.flag = d - 1 ∧ b.counter % 2 = 1
  | .stmt9_3_1 => m = false ∧ d = 1 ∧ b.interrupt = 0 ∧ b.flag = 0 ∧ b.counter % 2 = 1
  | .stmt9_3_2 =>
    m = false ∧ d = 1 ∧ b.interrupt = 0 ∧ b.flag = 0 ∧ b.counter % 2 = 1 ∧ tmp % 2 = 1
  | .leave => 0 < d ∧ Rest m b (d - 1)

/-- An NMI that comes now finds the CPU in nohz mode. -/
def Vars.nohz (b : Vars) : Prop := b.interrupt = 0 ∧ b.counter % 2 = 0

instance (b : Vars) : Decidable b.nohz := inferInstanceAs (Decidable (_ ∧ _))

/-- The values inside of an NMI. -/
def Vars.inner (b : Vars) : Vars :=
  if b.nohz then ⟨b.counter + 1, 1, 0⟩
  else { b with flag := if b.flag = 0 then 0 else b.flag + 1 }

/-- What an NMI has made of the values `b` that it found. -/
def NmiAt (b v : Vars) (tmp : ℤ) : NmiLoc → Prop
  | .top | .enter | .stmt1 | .fin | .exit => v = b
  | .stmt1_1 => v = b ∧ 0 < b.flag
  | .stmt1_2 => v = b ∧ 0 < b.flag ∧ tmp = b.flag
  | .stmt2 => v = { b with flag := if b.flag = 0 then 0 else b.flag + 1 }
  | .stmt2_1 => b.nohz ∧ v = b
  | .stmt2_2 => b.nohz ∧ v = b ∧ tmp = b.counter
  | .stmt2_3 => b.nohz ∧ v = { b with counter := b.counter + 1 }
  | .stmt2_4 => b.nohz ∧ v = { b with counter := b.counter + 1 } ∧ tmp = 0
  | .stmt3 | .stmt9 => v = b.inner
  | .stmt4 => v = b.inner ∧ tmp = b.interrupt
  | .stmt5 | .stmt6 | .stmt7 => v = { b.inner with interrupt := b.interrupt + 1 }
  | .stmt8 => v = { b.inner with interrupt := b.interrupt + 1 } ∧ tmp = b.interrupt + 1
  | .stmt9_1 => v = b.inner ∧ v.flag ≠ 0
  | .stmt9_2 => v = b.inner ∧ v.flag ≠ 0 ∧ tmp = v.flag
  | .stmt9_3 => b.inner.flag ≠ 0 ∧ v = { b.inner with flag := b.inner.flag - 1 }
  | .stmt9_3_1 => b.nohz ∧ v = { b with counter := b.counter + 1 }
  | .stmt9_3_2 => b.nohz ∧ v = { b with counter := b.counter + 1 } ∧ tmp = b.counter + 1
  | .leave => v = b ∨ b.nohz ∧ v = { b with counter := b.counter + 2 }

/-- A grace period that was idle has not been over since, as long as the counter stays. -/
def Watch (g : Gp) (counter : ℤ) : Prop :=
  (∃ again, g.loc = .snap again) ∨ ∃ again, g.loc = .wait again ∧ g.snap = counter

/-- The invariant, where `b` are the values without the NMI. -/
structure InvAt (b : Vars) (s : St) : Prop where
  ok : s.failed = false
  state : s.gracePeriodState = s.gp.loc.state
  le : s.irq.j ≤ s.irq.i
  irqBit : s.inDyntickIrq = (s.irq.loc.entering || decide (0 < s.irq.depth))
  nmiBit : s.inDyntickNmi = s.nmi.loc.active
  outermost : s.irq.loc.entering = true → s.irq.outermost = decide (s.irq.depth = 0)
  stmt2 : s.nohz.loc = .stmt2 → s.nohz.tmp % 2 = 0
  stmt4 : s.nohz.loc = .stmt4 → s.nohz.tmp % 2 = 1
  irq : IrqAt s.nohz.loc.busy b s.irq.depth s.irq.tmp s.irq.loc
  nmi : NmiAt b s.vars s.nmi.tmp s.nmi.loc
  watchNohz : s.nohz.loc = .stmt3 → s.nohz.oldGpIdle = true → Watch s.gp s.vars.counter
  watchIrq : s.irq.watching = true → s.irq.oldGpIdle = true → Watch s.gp s.vars.counter
  watchNmi : s.nmi.loc = .stmt6 → s.nmi.oldGpIdle = true → Watch s.gp s.vars.counter

def Inv (s : St) : Prop := ∃ b, InvAt b s

variable {m : Bool} {b v : Vars} {d : ℕ} {tmp : ℤ} {l : IrqLoc} {s s' : St}

/-- While the mainline is outside of nohz mode, or an interrupt is counted, the counter is odd. -/
theorem IrqAt.odd (h : IrqAt m b d tmp l) (hm : m = true ∨ b.interrupt ≠ 0) : b.counter % 2 = 1 := by
  cases l <;> simp only [IrqAt] at h <;> grind [Rest]

/-- In nohz mode there is nothing to count. -/
theorem IrqAt.flag (h : IrqAt m b d tmp l) (hb : b.nohz) : b.flag = 0 := by
  unfold Vars.nohz at hb
  cases l <;> simp only [IrqAt] at h <;> grind [Rest]

theorem IrqAt.flag_nonneg (h : IrqAt m b d tmp l) : 0 ≤ b.flag := by
  cases l <;> simp only [IrqAt] at h <;> grind [Rest]

/-- Only the parity of the counter matters. -/
theorem IrqAt.shift (h : IrqAt m b d tmp l) : IrqAt m { b with counter := b.counter + 2 } d tmp l := by
  cases l <;> simp only [IrqAt] at h ⊢ <;> grind [Rest]

theorem NmiAt.inactive {l : NmiLoc} (hl : l.active = false) : NmiAt b v tmp l ↔ v = b := by
  cases l <;> first | rfl | cases hl

/-- An NMI outside of nohz mode leaves the counter alone. -/
theorem NmiAt.counter {l : NmiLoc} (h : NmiAt b v tmp l) (hb : ¬ b.nohz) : v.counter = b.counter := by
  cases l <;> simp only [NmiAt] at h <;> grind [Vars.inner]

/-- In an NMI the counter is odd. -/
theorem InvAt.counter_nmi (h : InvAt b s) (hl : s.nmi.loc = .stmt6) : s.vars.counter % 2 = 1 := by
  have hn := h.nmi
  rw [hl] at hn
  rw [show s.vars = _ from hn]
  unfold Vars.inner
  split
  · rename_i hb
    have := hb.2
    dsimp only
    omega
  · rename_i hb
    by_cases hi : b.interrupt = 0
    · have := not_and.mp hb hi
      dsimp only
      omega
    · exact h.irq.odd (.inr hi)

theorem InvAt.odd_nohz (h : InvAt b s) (hl : s.nohz.loc = .stmt3) : b.counter % 2 = 1 :=
  h.irq.odd (.inl (by rw [hl]; rfl))

theorem InvAt.odd_irq (h : InvAt b s) (hw : s.irq.watching = true) : b.counter % 2 = 1 := by
  have hi := h.irq
  unfold Irq.watching at hw
  cases hl : s.irq.loc <;> rw [hl] at hi hw <;> simp only [IrqAt] at hi <;>
    grind [Rest, IrqLoc.leaving]

/-- The counter is what it was without the NMI, unless nobody watches it. -/
theorem InvAt.counter_of_odd (h : InvAt b s) (ho : b.counter % 2 = 1) : s.vars.counter = b.counter :=
  h.nmi.counter fun hb => by
    have := hb.2
    omega

/-! ### The grace period -/

/-- A grace period that compares the counter with the same odd number goes on. -/
theorem Watch.step (hw : Watch s.gp s.vars.counter) (ho : s.vars.counter % 2 = 1)
    (hn : stepGp s = some s') : Watch s'.gp s.vars.counter := by
  obtain ⟨again, hl⟩ | ⟨again, hl, hs⟩ := hw
  · simp only [stepGp, hl, Option.some.injEq] at hn
    subst hn
    exact .inr ⟨again, rfl, rfl⟩
  · simp only [stepGp, hl, Option.some.injEq] at hn
    subst hn
    refine .inr ⟨again, if_neg ?_, hs⟩
    rw [hs]
    cases again <;> simp <;> omega

theorem inv_gp (h : InvAt b s) (hn : stepGp s = some s') : InvAt b s' := by
  have hwatch : (s.vars.counter % 2 = 1) → Watch s.gp s.vars.counter → Watch s'.gp s.vars.counter :=
    fun ho hw => hw.step ho hn
  have hnohz : s.nohz.loc = .stmt3 → s.nohz.oldGpIdle = true → Watch s'.gp s.vars.counter :=
    fun hl ho => hwatch (by rw [h.counter_of_odd (h.odd_nohz hl), h.odd_nohz hl]) (h.watchNohz hl ho)
  have hirq : s.irq.watching = true → s.irq.oldGpIdle = true → Watch s'.gp s.vars.counter :=
    fun hl ho => hwatch (by rw [h.counter_of_odd (h.odd_irq hl), h.odd_irq hl]) (h.watchIrq hl ho)
  have hnmi : s.nmi.loc = .stmt6 → s.nmi.oldGpIdle = true → Watch s'.gp s.vars.counter :=
    fun hl ho => hwatch (h.counter_nmi hl) (h.watchNmi hl ho)
  have hstate := h.state
  unfold stepGp at hn
  cases hl : s.gp.loc with
  | exit => simp [hl] at hn
  | idle again | snap again =>
    rw [hl] at hn
    cases hn
    exact { h with state := rfl, watchNohz := hnohz, watchIrq := hirq, watchNmi := hnmi }
  | wait again =>
    rw [hl] at hn hstate
    cases hn
    refine { h with state := ?_, watchNohz := hnohz, watchIrq := hirq, watchNmi := hnmi }
    refine hstate.trans ?_
    dsimp only
    split <;> split <;> rfl
  | done again =>
    rw [hl] at hn
    cases hn
    refine { h with state := ?_, watchNohz := hnohz, watchIrq := hirq, watchNmi := hnmi }
    cases again <;> rfl

/-- While a grace period is watched it is not done. -/
theorem Watch.not_done (hw : Watch s.gp s.vars.counter) (hs : s.gracePeriodState = s.gp.loc.state) :
    s.gracePeriodState ≠ .done := by
  rw [hs]
  obtain ⟨again, hl⟩ | ⟨again, hl, -⟩ := hw <;> rw [hl] <;> exact nofun

/-- What is captured as idle is watched. -/
theorem watch_of_idle {c : ℤ} (hs : s.gracePeriodState = s.gp.loc.state)
    (hi : (s.gracePeriodState == GpState.idle) = true) : Watch s.gp c := by
  rw [beq_iff_eq, hs] at hi
  cases hl : s.gp.loc with
  | snap again => exact .inl ⟨again, hl⟩
  | idle again | wait again | done again | exit => rw [hl] at hi; cases hi

theorem assert_of {c : Bool} (hc : c = true) : s.assert c = s := by
  rw [St.assert, hc, Bool.not_true, Bool.or_false]

/-- The assertion holds when what it is about is watched. -/
theorem check_of {old : Bool} (hs : s.gracePeriodState = s.gp.loc.state)
    (hw : old = true → Watch s.gp s.vars.counter) : s.check old = s := by
  refine assert_of ?_
  cases old with
  | false => rfl
  | true => simpa using (hw rfl).not_done hs

/-! ### The mainline -/

/-- No interrupt and no NMI runs, so what an interrupt relies on is `Rest`. -/
structure Free (b : Vars) (s : St) : Prop where
  vars : s.vars = b
  watching : s.irq.watching = false
  nmi : s.nmi.loc.active = false
  rest : Rest s.nohz.loc.busy b 0
  irq : ∀ m c, Rest m c 0 → IrqAt m c s.irq.depth s.irq.tmp s.irq.loc

/-- The mainline moves only then. -/
theorem InvAt.free (h : InvAt b s) (hf : ¬ (s.inDyntickIrq || s.inDyntickNmi) = true) : Free b s := by
  rw [Bool.or_eq_true, not_or, h.irqBit, h.nmiBit, Bool.or_eq_true, not_or] at hf
  obtain ⟨⟨hent, hd⟩, hnmi⟩ := hf
  have hd : s.irq.depth = 0 := by simpa using hd
  have hnmi : s.nmi.loc.active = false := by simpa using hnmi
  have hi := h.irq
  rw [hd] at hi
  refine ⟨(NmiAt.inactive hnmi).mp h.nmi, ?_, hnmi, ?_, fun m c hr => ?_⟩
  · unfold Irq.watching
    cases hl : s.irq.loc <;> rw [hl] at hent <;> grind [IrqLoc.entering]
  · cases hl : s.irq.loc <;> rw [hl] at hi hent <;> simp only [IrqAt] at hi <;>
      grind [IrqLoc.entering]
  · rw [hd]
    cases hl : s.irq.loc <;> rw [hl] at hi hent <;> simp only [IrqAt] at hi ⊢ <;>
      grind [IrqLoc.entering]

/-- What the mainline leaves when it has set the counter to `c`. -/
theorem Free.set (h : Free b s) {m : Bool} {c : ℤ} (ho : m = true → c % 2 = 1)
    (he : m = false → c % 2 = 0) : Rest m { b with counter := c } 0 where
  interrupt := h.rest.interrupt
  flag := by
    have := h.rest.flag
    dsimp only
    rw [this]
    cases m <;> cases s.nohz.loc.busy <;> rfl
  odd hm := ho (hm.resolve_right (Nat.lt_irrefl 0))
  even hm _ := he hm

/-- The mainline goes on; it sets the counter only while it is alone. -/
theorem InvAt.moveNohz (h : InvAt b s) {q : Nohz} {v' b' : Vars}
    (hc : v'.counter = s.vars.counter ∨ s.irq.watching = false ∧ s.nmi.loc.active = false)
    (h2 : q.loc = .stmt2 → q.tmp % 2 = 0) (h4 : q.loc = .stmt4 → q.tmp % 2 = 1)
    (hirq : IrqAt q.loc.busy b' s.irq.depth s.irq.tmp s.irq.loc)
    (hnmi : NmiAt b' v' s.nmi.tmp s.nmi.loc)
    (hw : q.loc = .stmt3 → q.oldGpIdle = true → Watch s.gp v'.counter) :
    InvAt b' { s with vars := v', nohz := q } where
  ok := h.ok
  state := h.state
  le := h.le
  irqBit := h.irqBit
  nmiBit := h.nmiBit
  outermost := h.outermost
  stmt2 := h2
  stmt4 := h4
  irq := hirq
  nmi := hnmi
  watchNohz := hw
  watchIrq hi ho := by
    obtain hc | ⟨hc, -⟩ := hc
    · dsimp only
      rw [hc]
      exact h.watchIrq hi ho
    · rw [hc] at hi
      cases hi
  watchNmi hl ho := by
    obtain hc | ⟨-, hc⟩ := hc
    · dsimp only
      rw [hc]
      exact h.watchNmi hl ho
    · dsimp only at hl
      rw [hl] at hc
      cases hc

theorem inv_nohz {k : ℕ} (h : Inv s) (hn : stepNohz k s = some s') : Inv s' := by
  obtain ⟨b, h⟩ := h
  have hirq := h.irq
  unfold stepNohz at hn
  cases hl : s.nohz.loc with
  | exit => simp [hl] at hn
  | top =>
    rw [hl] at hn hirq
    cases hn
    refine ⟨b, h.moveNohz (.inl rfl) (fun he => ?_) (fun he => ?_) ?_ h.nmi (fun he => ?_)⟩ <;>
      dsimp only at * <;> split at * <;> first | cases he | exact hirq
  | inc =>
    rw [hl] at hn hirq
    cases hn
    refine ⟨b, h.moveNohz (.inl rfl) ?_ ?_ hirq h.nmi ?_⟩ <;> exact nofun
  | fin =>
    rw [hl] at hn hirq
    cases hn
    have hm : InvAt b (s.nohzTo .exit s.nohz.tmp) := by
      refine h.moveNohz (.inl rfl) ?_ ?_ hirq h.nmi ?_ <;> exact nofun
    exact ⟨b, { hm with }⟩
  | stmt1 =>
    rw [hl] at hn hirq
    cases hn
    unfold St.executeMainline
    split
    · exact ⟨b, h⟩
    · rename_i hf
      have hfree := h.free hf
      have hrest := hfree.rest
      rw [hl] at hrest
      refine ⟨b, h.moveNohz (.inl rfl) (fun _ => ?_) nofun hirq h.nmi nofun⟩
      show s.vars.counter % 2 = 0
      rw [hfree.vars]
      exact hrest.even rfl rfl
  | stmt2 =>
    rw [hl] at hn
    cases hn
    unfold St.executeMainline
    split
    · exact ⟨b, h⟩
    · rename_i hf
      have hfree := h.free hf
      have h2 := h.stmt2 hl
      rw [assert_of (by simp only [beq_iff_eq]; omega)]
      refine ⟨{ b with counter := s.nohz.tmp + 1 }, h.moveNohz (.inr ⟨hfree.watching, hfree.nmi⟩) nofun
        nofun (hfree.irq true _ (hfree.set (fun _ => by omega) nofun))
        ((NmiAt.inactive hfree.nmi).mpr ?_) fun _ hi => watch_of_idle h.state hi⟩
      rw [St.setCounter, hfree.vars]
  | stmt3 =>
    rw [hl] at hn hirq
    cases hn
    unfold St.executeMainline
    split
    · exact ⟨b, h⟩
    · rename_i hf
      have hfree := h.free hf
      rw [check_of (s := s.nohzTo .stmt4 s.vars.counter) h.state (h.watchNohz hl)]
      refine ⟨b, h.moveNohz (.inl rfl) nofun (fun _ => ?_) hirq h.nmi nofun⟩
      show s.vars.counter % 2 = 1
      rw [hfree.vars]
      exact h.odd_nohz hl
  | stmt4 =>
    rw [hl] at hn
    cases hn
    unfold St.executeMainline
    split
    · exact ⟨b, h⟩
    · rename_i hf
      have hfree := h.free hf
      have h4 := h.stmt4 hl
      rw [assert_of (by simp only [beq_iff_eq]; omega)]
      refine ⟨{ b with counter := s.nohz.tmp + 1 }, h.moveNohz (.inr ⟨hfree.watching, hfree.nmi⟩) nofun
        nofun (hfree.irq false _ (hfree.set nofun (fun _ => by omega)))
        ((NmiAt.inactive hfree.nmi).mpr ?_) nofun⟩
      rw [St.setCounter, hfree.vars]

/-! ### The interrupts -/

/-- `dyntick_irq` goes on; it sets the counter only in nohz mode. -/
theorem InvAt.moveIrq (h : InvAt b s) {q : Irq} {x : Bool} {v' b' : Vars} (hle : q.j ≤ q.i)
    (hx : x = (q.loc.entering || decide (0 < q.depth)))
    (hout : q.loc.entering = true → q.outermost = decide (q.depth = 0))
    (hc : v'.counter = s.vars.counter ∨ s.nohz.loc.busy = false ∧ s.nmi.loc.active = false)
    (hirq : IrqAt s.nohz.loc.busy b' q.depth q.tmp q.loc)
    (hnmi : NmiAt b' v' s.nmi.tmp s.nmi.loc)
    (hw : q.watching = true → q.oldGpIdle = true → Watch s.gp v'.counter) :
    InvAt b' { s with vars := v', irq := q, inDyntickIrq := x } where
  ok := h.ok
  state := h.state
  le := hle
  irqBit := hx
  nmiBit := h.nmiBit
  outermost := hout
  stmt2 := h.stmt2
  stmt4 := h.stmt4
  irq := hirq
  nmi := hnmi
  watchNohz hl ho := by
    obtain hc | ⟨hc, -⟩ := hc
    · dsimp only
      rw [hc]
      exact h.watchNohz hl ho
    · dsimp only at hl
      rw [hl] at hc
      cases hc
  watchIrq := hw
  watchNmi hl ho := by
    obtain hc | ⟨-, hc⟩ := hc
    · dsimp only
      rw [hc]
      exact h.watchNmi hl ho
    · dsimp only at hl
      rw [hl] at hc
      cases hc

/-- A step of `dyntick_irq` that an NMI would hold up. -/
theorem InvAt.executeIrq (h : InvAt b s) {k : St}
    (hk : s.vars = b → s.nmi.loc.active = false → Inv k) : Inv (s.executeIrq k) := by
  unfold St.executeIrq
  split
  · exact ⟨b, h⟩
  · rename_i hn
    rw [h.nmiBit, Bool.not_eq_true] at hn
    exact hk ((NmiAt.inactive hn).mp h.nmi) hn

/-- A step that captures nothing watches for nothing new. -/
theorem Irq.watching_of {q q' : Irq} (hw : q'.watching = true) (hd : q'.depth = q.depth)
    (h0 : q'.loc ≠ .inc) (h1 : q.loc.leaving = true → q'.loc.leaving = true) : q.watching = true := by
  unfold Irq.watching at *
  grind

/-- Such a step from one place to another, with the values `v'` after it. -/
theorem InvAt.irqTo (h : InvAt b s) (hn : s.nmi.loc.active = false) {l : IrqLoc} {x : ℤ} {v' : Vars}
    (he : l.entering = s.irq.loc.entering)
    (hirq : IrqAt s.nohz.loc.busy v' s.irq.depth x l)
    (hc : v'.counter = s.vars.counter ∨ s.nohz.loc.busy = false ∧
      Irq.watching { s.irq with loc := l, tmp := x } = false)
    (h0 : l ≠ .inc) (h1 : s.irq.loc.leaving = true → l.leaving = true) :
    Inv { s with vars := v', irq := { s.irq with loc := l, tmp := x } } := by
  refine ⟨v', h.moveIrq h.le ?_ (fun hent => h.outermost (he ▸ hent)) (hc.imp_right fun hb => ⟨hb.1, hn⟩)
    hirq ((NmiAt.inactive hn).mpr rfl) fun hq ho => ?_⟩
  · dsimp only
    rw [he]
    exact h.irqBit
  · obtain hc | hc := hc
    · rw [hc]
      exact h.watchIrq (Irq.watching_of hq rfl h0 h1) ho
    · rw [hc.2] at hq
      cases hq

theorem InvAt.executeIrqTo (h : InvAt b s) {l : IrqLoc} {x : ℤ} {v' : Vars}
    (he : l.entering = s.irq.loc.entering) (h0 : l ≠ .inc)
    (h1 : s.irq.loc.leaving = true → l.leaving = true)
    (hc : v'.counter = s.vars.counter ∨ s.nohz.loc.busy = false ∧
      Irq.watching { s.irq with loc := l, tmp := x } = false)
    (hirq : s.vars = b → IrqAt s.nohz.loc.busy v' s.irq.depth x l) :
    Inv (s.executeIrq { s with vars := v', irq := { s.irq with loc := l, tmp := x } }) :=
  h.executeIrq fun hv hn => h.irqTo hn he (hirq hv) hc h0 h1

/-- `inv_irq` on the way in. -/
theorem inv_entering {k : ℕ} {more : Bool} (h : InvAt b s) (hn : stepIrq k more s = some s')
    (he : s.irq.loc.entering = true) : Inv s' := by
  have hi := h.irq
  have hlv : s.irq.loc.leaving = false := by
    cases hl : s.irq.loc <;> first | rfl | (rw [hl] at he; cases he)
  have h1 : ∀ l : IrqLoc, s.irq.loc.leaving = true → l.leaving = true := by simp [hlv]
  have hout := h.outermost he
  unfold stepIrq at hn
  cases hl : s.irq.loc <;> rw [hl] at hn hi <;> dsimp only at hn <;> try (rw [hl] at he; cases he)
  case stmt1 =>
    cases hn
    refine h.executeIrq fun hv hn => ?_
    subst hv
    split <;> refine h.irqTo hn (by rw [hl]; rfl) ?_ (.inl rfl) nofun (h1 _) <;>
      simp only [IrqAt] at hi ⊢ <;> grind [Rest]
  case stmt1_1 =>
    cases hn
    refine h.executeIrqTo (by rw [hl]; rfl) nofun (h1 _) (.inl rfl) fun hv => ?_
    subst hv
    simp only [IrqAt] at hi ⊢
    grind [Rest]
  case stmt1_2 =>
    cases hn
    refine h.executeIrqTo (by rw [hl]; rfl) nofun (h1 _) (.inl rfl) fun hv => ?_
    subst hv
    simp only [IrqAt, St.setFlag] at hi ⊢
    grind [Rest]
  case stmt2 =>
    cases hn
    refine h.executeIrq fun hv hn => ?_
    subst hv
    split <;> refine h.irqTo hn (by rw [hl]; rfl) ?_ (.inl rfl) nofun (h1 _) <;>
      simp only [IrqAt] at hi ⊢ <;> grind
  case stmt2_1 =>
    cases hn
    refine h.executeIrqTo (by rw [hl]; rfl) nofun (h1 _) (.inl rfl) fun hv => ?_
    subst hv
    simp only [IrqAt] at hi ⊢
    grind [Rest]
  case stmt2_2 =>
    cases hn
    refine h.executeIrqTo (by rw [hl]; rfl) nofun (h1 _) (.inr ⟨hi.1, if_pos hi.2.1⟩) fun hv => ?_
    subst hv
    simp only [IrqAt, St.setCounter] at hi ⊢
    grind [Rest]
  case stmt2_3 =>
    cases hn
    refine h.executeIrqTo (by rw [hl]; rfl) nofun (h1 _) (.inl rfl) fun hv => ?_
    subst hv
    simp only [IrqAt] at hi ⊢
    grind [Rest]
  case stmt2_4 =>
    cases hn
    refine h.executeIrqTo (by rw [hl]; rfl) nofun (h1 _) (.inl rfl) fun hv => ?_
    subst hv
    simp only [IrqAt, St.setFlag] at hi ⊢
    grind [Rest]
  case stmt3 =>
    cases hn
    refine h.executeIrqTo (by rw [hl]; rfl) nofun (h1 _) (.inl rfl) fun hv => ?_
    subst hv
    simp only [IrqAt] at hi ⊢
    grind [Rest]
  case stmt4 =>
    cases hn
    refine h.executeIrqTo (by rw [hl]; rfl) nofun (h1 _) (.inl rfl) fun hv => ?_
    subst hv
    simp only [IrqAt, St.setInterrupt] at hi ⊢
    grind [Rest]
  case stmt5 =>
    cases hn
    split
    · -- back to `stmt4`, which does the same again
      have hi4 : IrqAt s.nohz.loc.busy b s.irq.depth s.irq.tmp .stmt4 := by
        simp only [IrqAt] at hi ⊢
        grind [Rest]
      refine ⟨b, h.moveIrq h.le ?_ (fun _ => hout) (.inl rfl) hi4 h.nmi fun hw ho =>
        h.watchIrq (Irq.watching_of hw rfl nofun (h1 _)) ho⟩
      rw [h.irqBit, hl]
      rfl
    · refine ⟨b, h.moveIrq h.le ?_ (fun _ => hout) (.inl rfl) hi.1 h.nmi fun _ ho => ?_⟩
      · rw [h.irqBit, hl]
        rfl
      · dsimp only at ho
        by_cases hd : s.irq.depth = 0
        · rw [hout, if_pos (by simpa using hd)] at ho
          exact watch_of_idle h.state ho
        · rw [hout, if_neg (by simpa using hd)] at ho
          refine h.watchIrq ?_ ho
          rw [Irq.watching, if_neg hd, hlv, Bool.and_false]
          rfl
  case inc =>
    cases hn
    have hle := h.le
    have hd : Irq.depth { s.irq with loc := .top, i := s.irq.i + 1 } = s.irq.depth + 1 := by
      unfold Irq.depth
      dsimp only
      omega
    refine ⟨b, h.moveIrq (Nat.le_succ_of_le hle) ?_ nofun (.inl rfl) ?_ h.nmi fun _ ho => ?_⟩
    · rw [h.irqBit, hl, hd, decide_eq_true (Nat.succ_pos _)]
      rfl
    · rw [hd]
      exact hi
    · refine h.watchIrq ?_ ho
      rw [Irq.watching, hl]
      simp [IrqLoc.leaving]

/-- `inv_irq` on the way out. -/
theorem inv_leaving {k : ℕ} {more : Bool} (h : InvAt b s) (hn : stepIrq k more s = some s')
    (he : s.irq.loc = .stmt6 ∨ s.irq.loc.leaving = true) : Inv s' := by
  have hi := h.irq
  unfold stepIrq at hn
  cases hl : s.irq.loc <;> rw [hl] at hn hi <;> dsimp only at hn <;>
    try (rw [hl] at he; rcases he with he | he <;> cases he; done)
  case stmt6 =>
    cases hn
    refine h.executeIrq fun hv hn => ?_
    subst hv
    split
    · rename_i hj
      rw [check_of (s := s.irqTo .stmt7 s.irq.tmp) h.state (h.watchIrq ?_)]
      · exact h.irqTo hn (by rw [hl]; rfl) hi (.inl rfl) nofun fun _ => rfl
      · have hd : s.irq.depth = 1 := by unfold Irq.depth; omega
        rw [Irq.watching, hd, hl]
        rfl
    · exact h.irqTo hn (by rw [hl]; rfl) hi (.inl rfl) nofun fun _ => rfl
  case stmt7 =>
    cases hn
    refine h.executeIrqTo (by rw [hl]; rfl) nofun (fun _ => rfl) (.inl rfl) fun hv => ?_
    subst hv
    simp only [IrqAt] at hi ⊢
    grind [Rest]
  case stmt8 =>
    cases hn
    refine h.executeIrqTo (by rw [hl]; rfl) nofun (fun _ => rfl) (.inl rfl) fun hv => ?_
    subst hv
    simp only [IrqAt, St.setInterrupt] at hi ⊢
    grind [Rest]
  case stmt9 =>
    cases hn
    refine h.executeIrq fun hv hn => ?_
    subst hv
    split <;> refine h.irqTo hn (by rw [hl]; rfl) ?_ (.inl rfl) nofun (fun _ => rfl) <;>
      simp only [IrqAt] at hi ⊢ <;> grind [Rest]
  case stmt9_1 =>
    cases hn
    refine h.executeIrqTo (by rw [hl]; rfl) nofun (fun _ => rfl) (.inl rfl) fun hv => ?_
    subst hv
    simp only [IrqAt] at hi ⊢
    grind [Rest]
  case stmt9_2 =>
    cases hn
    refine h.executeIrqTo (by rw [hl]; rfl) nofun (fun _ => rfl) (.inl rfl) fun hv => ?_
    subst hv
    simp only [IrqAt, St.setFlag] at hi ⊢
    grind [Rest]
  case stmt9_3 =>
    cases hn
    refine h.executeIrq fun hv hn => ?_
    subst hv
    split <;> refine h.irqTo hn (by rw [hl]; rfl) ?_ (.inl rfl) nofun (fun _ => rfl) <;>
      simp only [IrqAt] at hi ⊢ <;> grind [Rest]
  case stmt9_3_1 =>
    cases hn
    refine h.executeIrqTo (by rw [hl]; rfl) nofun (fun _ => rfl) (.inl rfl) fun hv => ?_
    subst hv
    simp only [IrqAt] at hi ⊢
    grind [Rest]
  case stmt9_3_2 =>
    cases hn
    refine h.executeIrqTo (by rw [hl]; rfl) nofun (fun _ => rfl) (.inr ⟨hi.1, ?_⟩) fun hv => ?_
    · have hd : Irq.depth { s.irq with loc := .leave, tmp := s.irq.tmp } = 1 := hi.2.1
      unfold Irq.watching
      rw [hd]
      rfl
    · subst hv
      simp only [IrqAt, St.setCounter] at hi ⊢
      grind [Rest]
  case leave =>
    cases hn
    obtain ⟨hpos, hrest⟩ : 0 < s.irq.depth ∧ Rest s.nohz.loc.busy b (s.irq.depth - 1) := hi
    have hd : Irq.depth { s.irq with loc := .top, j := s.irq.j + 1 } = s.irq.depth - 1 :=
      Nat.sub_add_eq ..
    have hle : s.irq.j + 1 ≤ s.irq.i := Nat.lt_of_sub_pos hpos
    refine ⟨b, h.moveIrq hle ?_ nofun (.inl rfl) ?_ h.nmi fun hw ho => h.watchIrq ?_ ho⟩
    · rw [hd, Bool.eq_iff_iff]
      simp only [bne_iff_ne, IrqLoc.entering, Bool.false_or, decide_eq_true_eq]
      unfold Irq.depth
      omega
    · rw [hd]
      exact hrest
    · unfold Irq.watching at hw ⊢
      rw [hd] at hw
      rw [hl]
      grind [IrqLoc.leaving]

theorem inv_irq {k : ℕ} {more : Bool} (h : Inv s) (hn : stepIrq k more s = some s') : Inv s' := by
  obtain ⟨b, h⟩ := h
  by_cases hent : s.irq.loc.entering = true
  · exact inv_entering h hn hent
  by_cases hlv : s.irq.loc = .stmt6 ∨ s.irq.loc.leaving = true
  · exact inv_leaving h hn hlv
  have hi := h.irq
  have hbit := h.irqBit
  unfold stepIrq at hn
  cases hl : s.irq.loc <;> rw [hl] at hn hi hent hlv hbit <;> dsimp only at hn <;>
    try first | exact absurd rfl hent | exact absurd (.inr rfl) hlv | exact absurd (.inl rfl) hlv
  case top =>
    have hwalk : ∀ l : IrqLoc, l ≠ .inc → l.entering = false →
        IrqAt s.nohz.loc.busy b s.irq.depth s.irq.tmp l → Inv (s.irqTo l s.irq.tmp) := by
      intro l h0 hl' hirq
      refine ⟨b, h.moveIrq h.le ?_ (fun he => ?_) (.inl rfl) hirq h.nmi fun hw =>
        h.watchIrq (Irq.watching_of hw rfl h0 fun he => ?_)⟩
      · dsimp only
        rw [hl', hbit]
        rfl
      · dsimp only at he
        rw [hl'] at he
        cases he
      · rw [hl] at he
        cases he
    split at hn
    · cases hn
      exact hwalk .fin nofun rfl hi
    split at hn
    · cases hn
      exact hwalk .enter nofun rfl hi
    split at hn <;> cases hn
    rename_i hlt
    exact hwalk .stmt6 nofun rfl ⟨Nat.sub_pos_of_lt hlt, hi⟩
  case enter =>
    cases hn
    refine ⟨b, h.moveIrq h.le rfl (fun _ => ?_) (.inl rfl) hi h.nmi fun hw =>
      h.watchIrq (Irq.watching_of hw rfl nofun fun he => ?_)⟩
    · dsimp only
      rw [hbit]
      unfold Irq.depth IrqLoc.entering
      grind
    · rw [hl] at he
      cases he
  case fin =>
    cases hn
    have hm : InvAt b (s.irqTo .exit s.irq.tmp) := by
      refine h.moveIrq h.le hbit nofun (.inl rfl) hi h.nmi fun hw =>
        h.watchIrq (Irq.watching_of hw rfl nofun fun he => ?_)
      rw [hl] at he
      cases he
    exact ⟨b, { hm with }⟩
  case exit => cases hn

/-! ### The NMIs -/

/-- `dyntick_nmi` goes on; it sets the counter only in nohz mode. -/
theorem InvAt.moveNmi (h : InvAt b s) {q : Nmi} {x : Bool} {v' b' : Vars} (hx : x = q.loc.active)
    (hc : v'.counter = s.vars.counter ∨ b.nohz)
    (hirq : IrqAt s.nohz.loc.busy b' s.irq.depth s.irq.tmp s.irq.loc)
    (hnmi : NmiAt b' v' q.tmp q.loc)
    (hw : q.loc = .stmt6 → q.oldGpIdle = true → Watch s.gp v'.counter) :
    InvAt b' { s with vars := v', nmi := q, inDyntickNmi := x } where
  ok := h.ok
  state := h.state
  le := h.le
  irqBit := h.irqBit
  nmiBit := hx
  outermost := h.outermost
  stmt2 := h.stmt2
  stmt4 := h.stmt4
  irq := hirq
  nmi := hnmi
  watchNohz hl ho := by
    obtain hc | hc := hc
    · dsimp only
      rw [hc]
      exact h.watchNohz hl ho
    · have h1 := h.odd_nohz hl
      have h2 := hc.2
      omega
  watchIrq hq ho := by
    obtain hc | hc := hc
    · dsimp only
      rw [hc]
      exact h.watchIrq hq ho
    · have h1 := h.odd_irq hq
      have h2 := hc.2
      omega
  watchNmi := hw

/-- A step from one place to another, with the values `v'` after it. -/
theorem InvAt.nmiTo (h : InvAt b s) {l : NmiLoc} {x : ℤ} {v' : Vars}
    (ha : l.active = s.nmi.loc.active) (h6 : l ≠ .stmt6) (hc : v'.counter = s.vars.counter ∨ b.nohz)
    (hnmi : NmiAt b v' x l) : Inv { s with vars := v', nmi := { s.nmi with loc := l, tmp := x } } := by
  refine ⟨b, h.moveNmi ?_ hc h.irq hnmi fun hl => absurd hl h6⟩
  dsimp only
  rw [ha]
  exact h.nmiBit

theorem inv_nmi {k : ℕ} (h : Inv s) (hn : stepNmi k s = some s') : Inv s' := by
  obtain ⟨b, h⟩ := h
  have hi := h.nmi
  have hflag := h.irq.flag
  have hpos := h.irq.flag_nonneg
  unfold stepNmi at hn
  cases hl : s.nmi.loc <;> rw [hl] at hn hi <;> dsimp only at hn
  case top =>
    cases hn
    split <;> exact h.nmiTo (by rw [hl]; rfl) nofun (.inl rfl) hi
  case enter =>
    cases hn
    exact ⟨b, h.moveNmi rfl (.inl rfl) h.irq hi nofun⟩
  case stmt1 =>
    cases hn
    split <;> refine h.nmiTo (by rw [hl]; rfl) nofun (.inl rfl) ?_ <;>
      simp only [NmiAt, Vars.ext_iff] at hi ⊢ <;> grind [Vars.inner, Vars.nohz]
  case stmt1_1 =>
    cases hn
    refine h.nmiTo (by rw [hl]; rfl) nofun (.inl rfl) ?_
    simp only [NmiAt] at hi ⊢
    grind [Vars.inner, Vars.nohz]
  case stmt1_2 =>
    cases hn
    refine h.nmiTo (by rw [hl]; rfl) nofun (.inl rfl) ?_
    simp only [NmiAt, St.setFlag] at hi ⊢
    grind [Vars.inner, Vars.nohz]
  case stmt2 =>
    cases hn
    split <;> refine h.nmiTo (by rw [hl]; rfl) nofun (.inl rfl) ?_ <;>
      simp only [NmiAt, Vars.ext_iff] at hi ⊢ <;> grind [Vars.inner, Vars.nohz]
  case stmt2_1 =>
    cases hn
    refine h.nmiTo (by rw [hl]; rfl) nofun (.inl rfl) ?_
    simp only [NmiAt] at hi ⊢
    grind [Vars.inner, Vars.nohz]
  case stmt2_2 =>
    cases hn
    refine h.nmiTo (by rw [hl]; rfl) nofun (.inr hi.1) ?_
    simp only [NmiAt, St.setCounter] at hi ⊢
    grind [Vars.inner, Vars.nohz]
  case stmt2_3 =>
    cases hn
    refine h.nmiTo (by rw [hl]; rfl) nofun (.inl rfl) ?_
    simp only [NmiAt] at hi ⊢
    grind [Vars.inner, Vars.nohz]
  case stmt2_4 =>
    cases hn
    refine h.nmiTo (by rw [hl]; rfl) nofun (.inl rfl) ?_
    simp only [NmiAt, St.setFlag] at hi ⊢
    grind [Vars.inner, Vars.nohz]
  case stmt3 =>
    cases hn
    refine h.nmiTo (by rw [hl]; rfl) nofun (.inl rfl) ?_
    simp only [NmiAt] at hi ⊢
    grind [Vars.inner, Vars.nohz]
  case stmt4 =>
    cases hn
    refine h.nmiTo (by rw [hl]; rfl) nofun (.inl rfl) ?_
    simp only [NmiAt, St.setInterrupt] at hi ⊢
    grind [Vars.inner, Vars.nohz]
  case stmt5 =>
    cases hn
    refine ⟨b, h.moveNmi ?_ (.inl rfl) h.irq hi fun _ ho => watch_of_idle h.state ho⟩
    rw [h.nmiBit, hl]
    rfl
  case stmt6 =>
    cases hn
    rw [check_of (s := s.nmiTo .stmt7 s.nmi.tmp) h.state (h.watchNmi hl)]
    exact h.nmiTo (by rw [hl]; rfl) nofun (.inl rfl) hi
  case stmt7 =>
    cases hn
    refine h.nmiTo (by rw [hl]; rfl) nofun (.inl rfl) ?_
    simp only [NmiAt] at hi ⊢
    grind [Vars.inner, Vars.nohz]
  case stmt8 =>
    cases hn
    refine h.nmiTo (by rw [hl]; rfl) nofun (.inl rfl) ?_
    simp only [NmiAt, St.setInterrupt] at hi ⊢
    grind [Vars.inner, Vars.nohz]
  case stmt9 =>
    cases hn
    split <;> refine h.nmiTo (by rw [hl]; rfl) nofun (.inl rfl) ?_ <;>
      simp only [NmiAt, Vars.ext_iff] at hi ⊢ <;> grind [Vars.inner, Vars.nohz]
  case stmt9_1 =>
    cases hn
    refine h.nmiTo (by rw [hl]; rfl) nofun (.inl rfl) ?_
    simp only [NmiAt] at hi ⊢
    grind [Vars.inner, Vars.nohz]
  case stmt9_2 =>
    cases hn
    refine h.nmiTo (by rw [hl]; rfl) nofun (.inl rfl) ?_
    simp only [NmiAt, St.setFlag] at hi ⊢
    grind [Vars.inner, Vars.nohz]
  case stmt9_3 =>
    cases hn
    split <;> refine h.nmiTo (by rw [hl]; rfl) nofun (.inl rfl) ?_ <;>
      simp only [NmiAt, Vars.ext_iff] at hi ⊢ <;> grind [Vars.inner, Vars.nohz]
  case stmt9_3_1 =>
    cases hn
    refine h.nmiTo (by rw [hl]; rfl) nofun (.inl rfl) ?_
    simp only [NmiAt] at hi ⊢
    grind [Vars.inner, Vars.nohz]
  case stmt9_3_2 =>
    cases hn
    refine h.nmiTo (by rw [hl]; rfl) nofun (.inr hi.1) ?_
    simp only [NmiAt, St.setCounter] at hi ⊢
    grind [Vars.inner, Vars.nohz]
  case leave =>
    cases hn
    -- what the NMI has made of the values is what the others find
    refine ⟨s.vars, h.moveNmi rfl (.inl rfl) ?_ rfl nofun⟩
    obtain hv | ⟨-, hv⟩ := hi <;> rw [hv]
    · exact h.irq
    · exact h.irq.shift
  case fin =>
    cases hn
    obtain ⟨b', hm⟩ : Inv (s.nmiTo .exit s.nmi.tmp) :=
      h.nmiTo (by rw [hl]; rfl) nofun (.inl rfl) hi
    exact ⟨b', { hm with }⟩
  case exit => cases hn

/-- **The step lemma.** -/
theorem inv_step {m : Bounds} {a : Act} (h : Inv s) (hn : next m a s = some s') : Inv s' := by
  cases a with
  | gracePeriod => exact h.imp fun b h => inv_gp h hn
  | dyntickNohz => exact inv_nohz h hn
  | dyntickIrq more => exact inv_irq h hn
  | dyntickNmi => exact inv_nmi h hn

theorem inv_start : Inv start :=
  ⟨⟨0, 0, 0⟩,
    { ok := rfl
      state := rfl
      le := Nat.le_refl 0
      irqBit := rfl
      nmiBit := rfl
      outermost := nofun
      stmt2 := nofun
      stmt4 := nofun
      irq := ⟨rfl, rfl, fun h => absurd h (by decide), fun _ _ => rfl⟩
      nmi := rfl
      watchNohz := nofun
      watchIrq := nofun
      watchNmi := nofun }⟩

/-- **The dynticks interface is safe**, for any number of rounds. -/
theorem dyntick_safe {m : Bounds} (h : (sys m).Reach Sys.always s) : s.failed = false := by
  obtain ⟨b, hb⟩ : Inv s := by
    refine Sys.Reach.inv (I := Inv) ?_ (fun _ _ _ hi _ hn => inv_step hi hn) h
    rintro s rfl
    exact inv_start
  exact hb.ok

/-- An NMI comes while the mainline is about to leave nohz mode, and the counter steps back. -/
def stepsBack : List Act :=
  [.gracePeriod, .dyntickNohz, .dyntickNohz] ++ List.replicate 21 .dyntickNmi ++
    [.dyntickNohz, .gracePeriod, .dyntickNohz]

theorem dyntick_safe_back : ∃ s, (sys ⟨1, 1, 1⟩).run Sys.always stepsBack start = some s ∧
    s.nohz.loc = .stmt4 ∧ s.vars.counter = 1 ∧ s.failed = false := by
  obtain ⟨s, hs⟩ := Option.isSome_iff_exists.mp
    (show ((sys ⟨1, 1, 1⟩).run Sys.always stepsBack start).isSome = true by decide)
  have hloc : ((sys ⟨1, 1, 1⟩).run Sys.always stepsBack start).map
    (fun s => (s.nohz.loc, s.vars.counter)) = some (.stmt4, 1) := by decide
  rw [hs, Option.map_some, Option.some.injEq, Prod.mk.injEq] at hloc
  exact ⟨s, hs, hloc.1, hloc.2, dyntick_safe (Sys.run_reach (.init rfl) hs)⟩

end Dyntick
end Promela
end Perfbook
