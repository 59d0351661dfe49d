/-
# Chains of pointers

`Path next x l y`: following `next` from `x` one meets the cells of `l`, in
order, and then stands at `y`. A `NULL`-terminated list is a path to `none`,
a circular list with a sentinel a path from the sentinel's successor back to
it. A store to a cell that is not on a path leaves the path as it is
(`Path.update`).

Key definition: `Path`.
Key theorems: `Path.update`, `path_append`.
-/
import Mathlib.Data.List.Nodup
import Mathlib.Logic.Function.Basic

namespace Perfbook
namespace Conc

variable {A : Type*}

/-- From `x`, `next` leads through the cells `l` to `y`. -/
def Path (next : A → A) : A → List A → A → Prop
  | x, [], y => x = y
  | x, a :: l, y => x = a ∧ Path next (next a) l y

variable {next next' : A → A} {x y z a b : A} {l l' : List A}

@[simp] theorem path_nil : Path next x [] y ↔ x = y := Iff.rfl

@[simp] theorem path_cons : Path next x (a :: l) y ↔ x = a ∧ Path next (next a) l y := Iff.rfl

/-- A path depends on its own cells only. -/
theorem Path.congr (h : ∀ c ∈ l, next' c = next c) (hp : Path next x l y) : Path next' x l y := by
  induction l generalizing x with
  | nil => exact hp
  | cons c l ih =>
    obtain ⟨rfl, hp⟩ := hp
    refine ⟨rfl, ?_⟩
    rw [h x List.mem_cons_self]
    exact ih (fun c hc => h c (List.mem_cons_of_mem _ hc)) hp

/-- A store to a cell off the path leaves the path as it is. -/
theorem Path.update [DecidableEq A] (ha : a ∉ l) (hp : Path next x l y) :
    Path (Function.update next a b) x l y :=
  hp.congr fun _ hc => Function.update_of_ne (ne_of_mem_of_not_mem hc ha) _ _

theorem path_append : ∀ {l : List A} {x : A}, Path next x (l ++ l') z ↔
    ∃ y, Path next x l y ∧ Path next y l' z
  | [], x => by simp
  | a :: l, x => by
    simp only [List.cons_append, path_cons, path_append (l := l)]
    constructor
    · rintro ⟨rfl, y, h, h'⟩
      exact ⟨y, ⟨rfl, h⟩, h'⟩
    · rintro ⟨y, ⟨rfl, h⟩, h'⟩
      exact ⟨rfl, y, h, h'⟩

end Conc
end Perfbook
