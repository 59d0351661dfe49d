/-
# The queue and the double-ended queue

The sequential objects that the concurrent containers implement. A value is
the list of the elements inside, for the deque from left to right, for the
queue in the order in which they came.

In a run of either object the elements that were pushed are those that were
popped and those still inside (`deque_perm`): none is lost, and none comes out
more often than it went in.

Key definitions: `queue`, `deque`, `poppedBy`.
Key theorems: `deque_perm`, `deque_null`.
-/
import Perfbook.Conc.Lin
import Mathlib.Data.List.Perm.Basic

namespace Perfbook
namespace Conc

/-- What an operation of a container returns. -/
inductive Res (E : Type*)
  | pushed
  | popped (e : Option E)

inductive QueueOp (E : Type*)
  | push (e : E)
  | pop

inductive DequeOp (E : Type*)
  | pushL (e : E)
  | pushR (e : E)
  | popL
  | popR

open scoped List

variable {τ E : Type*}

/-- First in, first out. -/
def queue (E : Type*) : Obj (List E) (QueueOp E) (Res E) where
  init := []
  apply
    | .push e, d => (d ++ [e], .pushed)
    | .pop, d => (d.tail, .popped d.head?)

def deque (E : Type*) : Obj (List E) (DequeOp E) (Res E) where
  init := []
  apply
    | .pushL e, d => (e :: d, .pushed)
    | .pushR e, d => (d ++ [e], .pushed)
    | .popL, d => (d.tail, .popped d.head?)
    | .popR, d => (d.dropLast, .popped d.getLast?)

/-- The element that an operation put in. -/
def QueueOp.arg : QueueOp E → Option E
  | .push e => some e
  | .pop => none

def DequeOp.arg : DequeOp E → Option E
  | .pushL e | .pushR e => some e
  | .popL | .popR => none

/-- The element that came out. -/
def Res.elem : Res E → Option E
  | .pushed => none
  | .popped e => e

/-- The elements that came out in a run, in order. -/
def poppedBy {O : Type*} (S : List (Op τ O (Res E))) : List E := S.filterMap fun x => x.res.elem

theorem filterMap_snoc {α β : Type*} (f : α → Option β) (l : List α) (x : α) :
    (l ++ [x]).filterMap f = l.filterMap f ++ (f x).toList := by
  rw [List.filterMap_append]
  cases h : f x <;> simp [h]

theorem deque_step (o : DequeOp E) (d : List E) :
    (o.arg.toList ++ d).Perm
      (((deque E).apply o d).2.elem.toList ++ ((deque E).apply o d).1) := by
  cases o with
  | pushL e => exact .refl _
  | pushR e => exact (List.perm_append_singleton e d).symm
  | popL =>
    cases d with
    | nil => exact .refl _
    | cons e d => exact .refl _
  | popR =>
    rcases List.eq_nil_or_concat d with rfl | ⟨d, e, rfl⟩
    · exact .refl _
    · simpa [deque, Res.elem, DequeOp.arg] using List.perm_append_singleton e d

/-- **The deque keeps its elements.** What went in came out or is inside. -/
theorem deque_perm {S : List (Op τ (DequeOp E) (Res E))} {d : List E} (h : Legal (deque E) S d) :
    (S.filterMap fun x => x.op.arg).Perm (poppedBy S ++ d) := by
  induction h with
  | init => exact .refl _
  | @snoc S d t o _ ih =>
    rw [poppedBy, filterMap_snoc, filterMap_snoc]
    calc
      _ ~ (poppedBy S ++ d) ++ o.arg.toList := ih.append_right _
      _ ~ poppedBy S ++ (o.arg.toList ++ d) := by
        rw [List.append_assoc]
        exact List.perm_append_comm.append_left _
      _ ~ poppedBy S ++ (((deque E).apply o d).2.elem.toList ++ ((deque E).apply o d).1) :=
        (deque_step o d).append_left _
      _ = _ := (List.append_assoc _ _ _).symm

/-- A pop of the deque that returns nothing takes effect when nothing is inside. -/
theorem deque_null {S S₁ S₂ : List (Op τ (DequeOp E) (Res E))} {d : List E} {x}
    (h : Legal (deque E) S d) (hS : S = S₁ ++ x :: S₂) (hx : x.res = .popped none) :
    Legal (deque E) S₁ [] := by
  induction h generalizing S₂ with
  | init => simp at hS
  | @snoc S d t o hl ih =>
    rcases List.eq_nil_or_concat S₂ with rfl | ⟨S₂, y, rfl⟩
    · obtain ⟨rfl, hy⟩ := List.append_inj' hS rfl
      rw [← List.singleton_inj.mp hy] at hx
      have hd : d = [] := by
        cases o with
        | pushL | pushR => cases hx
        | popL => simpa [deque] using hx
        | popR => simpa [deque] using hx
      exact hd ▸ hl
    · rw [List.concat_eq_append, ← List.cons_append, ← List.append_assoc] at hS
      exact ih (List.append_inj' hS rfl).1

end Conc
end Perfbook
