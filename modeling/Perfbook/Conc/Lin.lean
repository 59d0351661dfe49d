/-
# Linearizability

A sequential object is its first value and what an operation makes of a value
and returns (`Obj`). A concurrent implementation shows its clients calls and
returns only (`Ev`). It is linearizable if each of its histories is one of the
atomic object's: there, between its call and its return, an operation takes
effect in one indivisible step, which decides what it returns (`Lin`).

`Lin h S p d` has the operations in the order of their effects, `S`, which is
a run of the sequential object to the value `d` (`Lin.legal`). Since `Lin` is
built along the history, an operation that returned before another was called
comes before it in `S`.

Key definitions: `Obj`, `Ev`, `Lin`, `Legal`.
Key theorems: `Lin.legal`, `Lin.stay`, `Lin.called`, `Lin.effect`, `Lin.returned`.
-/
import Mathlib.Logic.Function.Basic
import Mathlib.Data.List.Basic

namespace Perfbook
namespace Conc

/-- A sequential object. -/
structure Obj (D O R : Type*) where
  init : D
  apply : O → D → D × R

/-- What the clients see. -/
inductive Ev (τ O R : Type*)
  | call (t : τ) (o : O)
  | ret (t : τ) (r : R)

/-- How far the operation of a thread is. -/
inductive Pend (O R : Type*)
  | idle
  | called (o : O)
  /-- it took effect and will return `r` -/
  | done (r : R)

/-- An operation that took effect. -/
structure Op (τ O R : Type*) where
  thread : τ
  op : O
  res : R

variable {τ D O R : Type*} (obj : Obj D O R)

/-- `S` is a run of the sequential object, to `d`. -/
inductive Legal : List (Op τ O R) → D → Prop
  | init : Legal [] obj.init
  | snoc {S : List (Op τ O R)} {d : D} (t : τ) (o : O) :
    Legal S d → Legal (S ++ [⟨t, o, (obj.apply o d).2⟩]) (obj.apply o d).1

/-- `h` is a history of the atomic object: its operations took effect in the
order `S`, the threads are at `p`, and the value is `d`. -/
inductive Lin [DecidableEq τ] : List (Ev τ O R) → List (Op τ O R) → (τ → Pend O R) → D → Prop
  | init : Lin [] [] (fun _ => .idle) obj.init
  | call {h S p d} (t : τ) (o : O) : Lin h S p d → p t = .idle →
    Lin (h ++ [.call t o]) S (Function.update p t (.called o)) d
  | commit {h S p d} (t : τ) (o : O) : Lin h S p d → p t = .called o →
    Lin h (S ++ [⟨t, o, (obj.apply o d).2⟩]) (Function.update p t (.done (obj.apply o d).2))
      (obj.apply o d).1
  | ret {h S p d} (t : τ) (r : R) : Lin h S p d → p t = .done r →
    Lin (h ++ [.ret t r]) S (Function.update p t .idle) d

variable {obj} [DecidableEq τ] {h : List (Ev τ O R)} {S : List (Op τ O R)} {p : τ → Pend O R}
  {d d' : D} {t : τ} {o : O} {r : R}

/-- The effects are a run of the sequential object. -/
theorem Lin.legal (hl : Lin obj h S p d) : Legal obj S d := by
  induction hl with
  | init => exact .init
  | call t o _ _ ih => exact ih
  | commit t o _ _ ih => exact .snoc t o ih
  | ret t r _ _ ih => exact ih

/-! ### One step of an implementation

`f` tells how far the call of a thread is from where the thread is. -/

variable {L : Type*} {f : L → Pend O R} {loc loc' : τ → L} {l : L}
  (hl : Lin obj h S (fun u => f (loc u)) d) (hloc : loc' = Function.update loc t l)

include hloc in
theorem pend_update : (fun u => f (loc' u)) = Function.update (fun u => f (loc u)) t (f l) := by
  rw [hloc]
  exact (Function.comp_update f loc t l)

include hl hloc

theorem Lin.stay (hp : f l = f (loc t)) : Lin obj h S (fun u => f (loc' u)) d := by
  rw [pend_update hloc, hp]
  exact (Function.update_eq_self t fun u => f (loc u)).symm ▸ hl

theorem Lin.called (hp : f (loc t) = .idle) (ht : f l = .called o) :
    Lin obj (h ++ [.call t o]) S (fun u => f (loc' u)) d := by
  rw [pend_update hloc, ht]
  exact hl.call t o hp

theorem Lin.effect (hp : f (loc t) = .called o) (ha : obj.apply o d = (d', r))
    (ht : f l = .done r) : Lin obj h (S ++ [⟨t, o, r⟩]) (fun u => f (loc' u)) d' := by
  have := hl.commit t o hp
  rw [ha] at this
  rw [pend_update hloc, ht]
  exact this

theorem Lin.returned (hp : f (loc t) = .done r) (ht : f l = .idle) :
    Lin obj (h ++ [.ret t r]) S (fun u => f (loc' u)) d := by
  rw [pend_update hloc, ht]
  exact hl.ret t r hp

end Conc
end Perfbook
