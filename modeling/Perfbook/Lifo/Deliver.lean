/-
# The stack delivers each value once, if no node is freed under its pusher

`DeliversOnce` says what the stress test of `lifo-push.c` checks, of every
state: no access to a freed node, every linked push passed to `foo` once, and
each `list_pop_all` passes what was linked since the previous exchange,
newest first.

The code does not have it: `list_push` reads `newnode->next` once more after
its `cmpxchg` linked the node, and a popper may have freed it by then
(`reads_freed_node`). `delivers_once` is the exact exception: it holds in
every run in which no node is freed between its `cmpxchg` and that read.
-/
import Perfbook.Lifo.Inv
import Mathlib.Data.Fintype.Basic

namespace Perfbook
namespace Lifo

open Conc

variable {τ V : Type}

/-- The thread has taken a batch and not passed all of it. -/
def walking : Loc V → Bool
  | .loop (some _) | .foo _ _ => true
  | .free _ nx => nx.isSome
  | _ => false

/-- No node is touched after it was freed; each push that linked its node did
so once and is passed to `foo` by one popper, once; none is lost; and a
`list_pop_all` passes what its exchange took, in that order. -/
structure DeliversOnce (s : St τ V) : Prop where
  noFreedAccess : s.bad = false
  linkedOnce : s.linked.Nodup
  once : s.doneIds.Nodup
  pushed : ∀ d ∈ s.done, d.2.1 ∈ s.linked ∧ s.arg d.2.1 = some d.2.2
  kept : ∀ i ∈ s.linked,
    i ∈ s.since.map Ptr.id ∨ (∃ t, i ∈ (s.todo t).map Ptr.id) ∨ i ∈ s.doneIds
  order : ∀ t, (s.passed t).map Prod.fst <+: (s.batch t).map Ptr.id
  whole : ∀ t, walking (s.loc t) = false → (s.passed t).map Prod.fst = (s.batch t).map Ptr.id
  passed : ∀ t, ∀ e ∈ s.passed t, (t, e) ∈ s.done

theorem todo_of_not_walking {own : Addr → Option (Owner τ)} {s : St τ V} (h : InvOf own s) {t : τ}
    (hw : walking (s.loc t) = false) : s.todo t = [] := by
  have hl := h.loc t
  revert hw hl
  cases s.loc t with
  | idle | alloc v | xchg => exact fun _ hl => hl
  | initVal v n | readTop n | setNext n old | loadNext n => exact fun _ hl => hl.2.2
  | cmpxchg n old => exact fun _ hl => hl.2.2.2
  | check n old => exact fun _ hl => hl.1
  | loop p =>
    cases p with
    | none => exact fun _ hl => List.head?_eq_none_iff.mp hl.1.symm
    | some p => simp [walking]
  | foo p nx => simp [walking]
  | free p nx =>
    intro hw hl
    exact List.head?_eq_none_iff.mp (hl.1 ▸ by simpa [walking] using hw)

theorem deliversOnce_of_inv {s : St τ V} (h : Inv s) : DeliversOnce s := by
  obtain ⟨own, h⟩ := h
  refine ⟨h.bad, h.linkedNodup, h.doneNodup, fun d hd => ⟨?_, h.doneVal d hd⟩, h.placed, ?_, ?_,
    h.passedDone⟩
  · exact h.doneLinked _ (List.mem_map.mpr ⟨d, hd, rfl⟩)
  · intro t
    rw [h.passed t]
    exact (List.take_prefix _ _).map _
  · intro t hw
    have := todo_of_not_walking h hw
    rw [h.passed t, List.take_of_length_le (List.drop_eq_nil_iff.mp this)]

variable [DecidableEq τ]

/-- **Exactly-once delivery.** In every run in which a node is freed only when
the push that linked it has made its final test, by any number of threads. -/
theorem delivers_once {s : St τ V} (h : (sys τ V).Reach FreeOk s) : DeliversOnce s :=
  deliversOnce_of_inv (reach_inv h)

instance [Fintype τ] (a : Act τ V) (s : St τ V) : Decidable (FreeOk a s) := by
  unfold FreeOk
  cases a with
  | step t junk =>
    dsimp only
    cases s.loc t <;> exact inferInstance
  | _ => exact .isTrue trivial

/-! ### A run, and the final test of `list_push` after the node was freed -/

/-- Nothing allocated, nothing running. -/
def start : St (Fin 2) ℕ where
  top := none
  mem _ := ⟨0, none⟩
  live _ := none
  loc _ := .idle
  fresh := 0
  bad := false
  arg _ := none
  linked := []
  since := []
  batch _ := []
  passed _ := []
  done := []

theorem start_init : Init start :=
  ⟨rfl, fun _ => rfl, fun _ => rfl, rfl, rfl, rfl, fun _ => rfl, fun _ => rfl, rfl⟩

/-- `n` steps of thread `t` in a row. -/
def steps (n : ℕ) (t : Fin 2) : List (Act (Fin 2) ℕ) := List.replicate n (.step t ⟨0, none⟩)

/-- Thread 0 pushes 7 and returns; thread 1 pops it and frees the node. -/
def pushThenPop : List (Act (Fin 2) ℕ) :=
  [.push 0 7, .malloc 0 1 ⟨0, none⟩] ++ steps 6 0 ++ [.popAll 1] ++ steps 5 1

theorem delivers_once_run : ∃ s, (sys (Fin 2) ℕ).Reach FreeOk s ∧ s.done = [(1, 0, 7)] ∧
    DeliversOnce s := by
  have hrun : ((sys (Fin 2) ℕ).run FreeOk pushThenPop start).map St.done = some [(1, 0, 7)] := by
    decide
  obtain ⟨s, hs, hd⟩ := Option.map_eq_some_iff.mp hrun
  have hr := Sys.run_reach (.init start_init) hs
  exact ⟨s, hr, hd, delivers_once hr⟩

/-- As `pushThenPop`, but thread 0 stops before `newnode->next != oldtop` and
goes on when the node is freed. -/
def freedUnderPusher : List (Act (Fin 2) ℕ) :=
  [.push 0 7, .malloc 0 1 ⟨0, none⟩] ++ steps 5 0 ++ [.popAll 1] ++ steps 4 1 ++ steps 1 0

theorem reads_freed_node : ¬ ∀ s, (sys (Fin 2) ℕ).Reach Sys.always s → DeliversOnce s := by
  intro h
  have hrun : ((sys (Fin 2) ℕ).run Sys.always freedUnderPusher start).map St.bad = some true := by
    decide
  obtain ⟨s, hs, hb⟩ := Option.map_eq_some_iff.mp hrun
  rw [(h s (Sys.run_reach (.init start_init) hs)).noFreedAccess] at hb
  cases hb

end Lifo
end Perfbook
