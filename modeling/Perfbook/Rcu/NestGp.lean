/-
# The grace period of `rcu_nest`

`synchronize_rcu` waits while the difference of two `unsigned long` is below
0, which it never is, so it waits for no one: `returns_under_reader` is a run
in which it returns while a reader is still in the section it entered before
the call. `grace_period` is what holds: the guarantee of every run in which
the wait loop does not in fact go past a nested reader whose word is behind
the counter (`GpOk`), and no reader sleeps through half the range of the
counter between its two reads of it. Any number of readers, nesting and
concurrent updaters; any interleaving.
-/
import Perfbook.Rcu.NestInv
import Mathlib.Data.Fintype.Basic

namespace Perfbook
namespace Rcu
namespace Nest

open Conc

variable {w n : ℕ}

/-- **The grace-period guarantee**, in the runs in which the wait loop does
not pass a stale reader. -/
theorem grace_period (hw : 32 ≤ w) {s : St w n} (h : (sys w n).Reach GpOk s) : GracePeriod s := by
  obtain ⟨entered, begun, hi⟩ := reach_inv hw h
  intro t ht u k hk
  exact hi.past t u k (by rw [ht]; trivial) hk

instance (a : Act n) (s : St w n) : Decidable (GpOk a s) := by
  unfold GpOk
  cases a with
  | step t =>
    dsimp only
    cases s.loc t <;> exact inferInstance
  | _ => exact .isTrue trivial

/-! ### A run, and a run that returns too early -/

/-- `rcu_init`, two threads. -/
def start : St 64 2 where
  rcuGpCtr := 0
  rcuReaderGp _ := 0
  rcuGpLock := none
  loc _ := .idle
  depth _ := 0
  exits _ := 0
  snap _ _ := none
  gps := 0
  sampled _ := 0

theorem start_init : Init start :=
  ⟨rfl, fun _ => rfl, rfl, fun _ => rfl, fun _ => rfl, rfl, fun _ => rfl⟩

/-- `k` steps of thread `t` in a row. -/
def steps (k : ℕ) (t : Fin 2) : List (Act 2) := List.replicate k (.step t)

/-- Thread 0 enters a section and thread 1 calls `synchronize_rcu`; thread 0
leaves while thread 1 scans, which then returns. -/
def leaveDuringScan : List (Act 2) :=
  [.rcuReadLock 0] ++ steps 4 0 ++ [.synchronizeRcu 1] ++ steps 3 1 ++
    [.rcuReadUnlock 0] ++ steps 2 0 ++ steps 3 1

theorem grace_period_run : ∃ s, (sys 64 2).Reach GpOk s ∧ s.loc 1 = .syncReturn ∧
    s.snap 1 0 = some 0 ∧ GracePeriod s := by
  have hrun : ((sys 64 2).run GpOk leaveDuringScan start).map (fun s => (s.loc 1, s.snap 1 0)) =
      some (.syncReturn, some 0) := by
    decide
  obtain ⟨s, hs, hd⟩ := Option.map_eq_some_iff.mp hrun
  have hr := Sys.run_reach (.init start_init) hs
  exact ⟨s, hr, (Prod.mk.inj hd).1, (Prod.mk.inj hd).2, grace_period (by decide) hr⟩

/-- Thread 0 stays in its section while thread 1 runs `synchronize_rcu`. -/
def stayInSection : List (Act 2) :=
  [.rcuReadLock 0] ++ steps 4 0 ++ [.synchronizeRcu 1] ++ steps 8 1

theorem returns_under_reader : ¬ ∀ s, (sys 64 2).Reach Sys.always s → GracePeriod s := by
  intro h
  have hrun : ((sys 64 2).run Sys.always stayInSection start).map
      (fun s => (s.loc 1, s.snap 1 0, s.exits 0)) = some (.syncReturn, some 0, 0) := by
    decide
  obtain ⟨s, hs, hd⟩ := Option.map_eq_some_iff.mp hrun
  simp only [Prod.mk.injEq] at hd
  obtain ⟨h1, h2, h3⟩ := hd
  have := h s (Sys.run_reach (.init start_init) hs) 1 h1 0 0 h2
  omega

end Nest
end Rcu
end Perfbook
