/-
# The routing table

The sequential object that the `route_*.c` implement: a list of addresses with their
interfaces, the newest first. An address may be there more than once; a lookup and
`route_del` go to the newest entry.

Key definitions: `RouteOp`, `answer`, `routes`.
Key theorems: `routes_del`, `routes_del_none`.
-/
import Mathlib.Algebra.Group.Int.Defs
import Mathlib.Data.Int.Notation
import Perfbook.Conc.Lin

namespace Perfbook
namespace Routes

open Conc

def ULONG_MAX : ℤ := 2 ^ 64 - 1

def ENOENT : ℤ := 2

def ENOMEM : ℤ := 12

inductive RouteOp
  | lookup (addr : ℕ)
  /-- whether there is memory for the entry -/
  | add (addr : ℕ) (iface : ℤ) (room : Bool)
  | del (addr : ℕ)
  | clear
deriving DecidableEq

/-- The interface of an address. -/
def answer (d : List (ℕ × ℤ)) (addr : ℕ) : ℤ := ((d.find? (·.1 == addr)).map (·.2)).getD ULONG_MAX

def routes : Obj (List (ℕ × ℤ)) RouteOp ℤ where
  init := []
  apply
    | .lookup addr, d => (d, answer d addr)
    | .add addr iface true, d => ((addr, iface) :: d, 0)
    | .add _ _ false, d => (d, -ENOMEM)
    | .del addr, d => if d.any (·.1 == addr) then (d.eraseP (·.1 == addr), 0) else (d, -ENOENT)
    | .clear, _ => ([], 0)

variable {d₁ d₂ : List (ℕ × ℤ)} {addr : ℕ} {iface : ℤ}

/-- The newest entry of the address is deleted. -/
theorem routes_del (h : ∀ x ∈ d₁, x.1 ≠ addr) :
    routes.apply (.del addr) (d₁ ++ (addr, iface) :: d₂) = (d₁ ++ d₂, 0) := by
  have hany : (d₁ ++ (addr, iface) :: d₂).any (·.1 == addr) = true := by simp
  show (if _ then _ else _) = _
  rw [if_pos hany, List.eraseP_append_right _ fun x hx => by simp [h x hx], List.eraseP_cons_of_pos (by simp)]

theorem routes_del_none (h : ∀ x ∈ d₁, x.1 ≠ addr) : routes.apply (.del addr) d₁ = (d₁, -ENOENT) :=
  if_neg fun hany => by
    obtain ⟨x, hx, he⟩ := List.any_eq_true.mp hany
    exact h x hx (beq_iff_eq.mp he)

theorem answer_append (h : ∀ x ∈ d₁, x.1 ≠ addr) : answer (d₁ ++ d₂) addr = answer d₂ addr := by
  have hnone : d₁.find? (·.1 == addr) = none := List.find?_eq_none.mpr fun x hx => by simp [h x hx]
  unfold answer
  rw [List.find?_append, hnone, Option.none_or]

@[simp] theorem answer_cons : answer ((addr, iface) :: d₂) addr = iface := by
  simp [answer]

/-- What the calls returned, in order. -/
def results {n : ℕ} (hist : List (Ev (Fin n) RouteOp ℤ)) : List (Fin n × ℤ) :=
  hist.filterMap fun
    | .call _ _ => none
    | .ret t v => some (t, v)

end Routes
end Perfbook
