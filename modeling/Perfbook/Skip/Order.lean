/-
# The lock order of `skiplist.c`

A thread waits for the lock of a node whose key is larger than those of all the
nodes it has locked, so no threads wait for each other in a circle. This is so
while links lead to larger keys, each call releases what it has locked, and no
thread starts a call while it has a node that `skiplist_lookup_lock` has returned
locked. A deletion that races with an insertion leaves the node linked on a level that it
has not noted. When a node with the same key is deleted later, the node before
the old one is locked too, on a level above those that are unlocked, and its
lock is never released.

Key definitions: `Ordered`, `Loc.Free`, `Act.Sorts`.
Key theorems: `lock_order`, `waits_for_itself`.
-/
import Mathlib.Algebra.Order.Group.Nat
import Perfbook.Skip.ParKeep

namespace Perfbook
namespace Skip
namespace Par

open Conc

variable {n : ℕ} {ν K : Type} [DecidableEq ν] [LinearOrder K] {head : ν} {s s' : St n ν K}

/-- Who waits for a lock has locked smaller nodes only, and no thread waits for itself. -/
structure Ordered (head : ν) (s : St n ν K) : Prop where
  below : ∀ t x p, (s.loc t).wants = some x → s.lock p = some t → Below head s p x
  acyclic : ∀ t, ¬ Relation.TransGen (Waits s) t t
  notOwn : ∀ t x, (s.loc t).wants = some x → s.lock x ≠ some t

/-- The thread does not have a node that `skiplist_lookup_lock` has returned to it locked. -/
def Loc.Free : Loc ν K → Prop
  | .has _ => False
  | _ => True

instance (l : Loc ν K) : Decidable l.Free := by
  unfold Loc.Free
  split <;> infer_instance

/-- The steps of the threads sort (`Sorts`), and no thread starts a call while it has a node that was
returned to it locked. -/
def Act.Sorts : Act n ν K → St n ν K → Prop
  | .call t _, s => (s.loc t).Free
  | .step t, s => Par.Sorts s t
  | .release _ _, _ => True

instance : (a : Act n ν K) → (s : St n ν K) → Decidable (a.Sorts s)
  | .call t _, s => inferInstanceAs (Decidable (s.loc t).Free)
  | .step t, s => inferInstanceAs (Decidable (Par.Sorts s t))
  | .release _ _, _ => .isTrue trivial

omit [DecidableEq ν] in
theorem Inv.ordered (h : Inv True head s) : Ordered head s where
  below _ _ _ := h.order trivial
  acyclic := not_transGen_waits Below.trans (fun _ => Below.irrefl) fun _ _ _ => h.order trivial
  notOwn _ _ hw hx := Below.irrefl (h.order trivial hw hx)

/-- **The lock order.** In every run whose steps sort, threads wait for larger nodes only. -/
theorem lock_order (h : (sys n ν K head).Reach Act.Sorts s) : Ordered head s := by
  refine (h.inv (fun s => inv_init) fun a s s' hi hok hn => ?_ : Inv True head s).ordered
  cases a with
  | call t c =>
    refine hi.start hn fun _ => ?_
    rcases start_from hn with hloc | ⟨slp, hloc⟩
    · exact hloc
    · have hfree : (s.loc t).Free := hok
      rw [hloc] at hfree
      exact hfree.elim
  | step t => exact hi.step hn (Sorts.rises hok) fun _ => hok
  | release t slp => exact hi.release trivial hn

/-! ### Two runs -/

section

/-- An empty skiplist. -/
def blank (n : ℕ) : St n ℕ ℕ where
  key _ := 0
  toplevel p := if p = 0 then maxLevels - 1 else 0
  deleted _ := false
  next _ _ := none
  lock _ := none
  loc _ := .idle
  stage _ := .free
  valid p level := decide (p = 0 ∧ level < maxLevels)

theorem blank_init : Init 0 (blank n) :=
  ⟨rfl, fun _ _ => rfl, fun _ => rfl, fun _ => rfl, fun _ => rfl, fun _ _ => decide_eq_true_iff⟩

def steps (t : Fin 2) (m : ℕ) : List (Act 2 ℕ ℕ) := List.replicate m (.step t)

/-- Thread 0 inserts 1, and has locked it to insert 2; thread 1 deletes 1. -/
def waiting : List (Act 2 ℕ ℕ) :=
  .call 0 (.insert 1 1 0) :: steps 0 21 ++ .call 0 (.insert 2 2 0) :: steps 0 10 ++ .call 1 (.delete 1) :: steps 1 14

/-- What is compared at the end of a run. -/
def ends (t : Fin 2) (x : ℕ) (s : St 2 ℕ ℕ) : Option ℕ × Option (Fin 2) × Option (Fin 2) :=
  ((s.loc t).wants, s.lock 0, s.lock x)

theorem lock_order_run : ∃ s, (sys 2 ℕ ℕ 0).Reach Act.Sorts s ∧ ends 1 1 s = (some 1, some 1, some 0) ∧
    Ordered 0 s := by
  have hrun : ((sys 2 ℕ ℕ 0).run Act.Sorts waiting (blank 2)).map (ends 1 1) = some (some 1, some 1, some 0) := by
    decide +kernel
  obtain ⟨s, hs, hd⟩ := Option.map_eq_some_iff.mp hrun
  have hr := Sys.run_reach (.init blank_init) hs
  exact ⟨s, hr, hd, lock_order hr⟩

/-- Thread 1 looks for 2 on level 1 before thread 0 has linked it there, and deletes it after that.
Thread 0 inserts 2 again, on level 0 only, and deletes it twice. -/
def racing : List (Act 2 ℕ ℕ) :=
  .call 0 (.insert 1 1 0) :: steps 0 21 ++ .call 0 (.insert 2 2 1) :: steps 0 22 ++
    .call 1 (.delete 2) :: steps 1 7 ++ steps 0 7 ++ steps 1 21 ++
    .call 0 (.insert 3 2 0) :: steps 0 22 ++ .call 0 (.delete 2) :: steps 0 28 ++ .call 0 (.delete 2) :: steps 0 7

/-- A thread waits for a lock that it has never released. -/
theorem waits_for_itself : ¬ ∀ s, (sys 2 ℕ ℕ 0).Reach Sys.always s → Ordered 0 s := by
  have hrun : ((sys 2 ℕ ℕ 0).run Sys.always racing (blank 2)).map (ends 0 0) = some (some 0, some 0, some 0) := by
    decide +kernel
  obtain ⟨s, hs, hd⟩ := Option.map_eq_some_iff.mp hrun
  simp only [ends, Prod.mk.injEq] at hd
  intro hall
  exact (hall s (Sys.run_reach (.init blank_init) hs)).notOwn 0 0 hd.1 hd.2.1

end

end Par
end Skip
end Perfbook
