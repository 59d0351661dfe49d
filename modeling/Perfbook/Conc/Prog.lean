/-
# Programs over a memory, access by access

A `Prog` reads and writes cells one at a time and returns a value. What it
does depends only on the cells that it accesses (`frame`). Two programs are
`Apart` in a memory if neither writes a cell that the other accesses: an access
of the one leaves them apart and changes nothing for the other (`Apart.step`),
and it does not matter which of the two runs first (`Apart.run_comm`).

`Does` says which stores a program makes, in some order, and what else it reads.

Key definitions: `Prog`, `run`, `stores`, `cells`, `step`, `Apart`, `Does`.
Key theorems: `frame`, `Apart.step`, `Apart.run_comm`, `Does.run`.
-/
import Mathlib.Data.List.Nodup
import Mathlib.Data.List.Perm.Basic
import Mathlib.Logic.Function.Basic

namespace Perfbook
namespace Conc

universe u v w

/-- A program over cells `F` that hold values `V`. -/
inductive Prog (F : Type u) (V : Type v) (A : Type w)
  | ret (a : A)
  | read (f : F) (k : V → Prog F V A)
  | write (f : F) (x : V) (p : Prog F V A)

/-- The memory after some stores. -/
def apply {F : Type u} {V : Type v} [DecidableEq F] : List (F × V) → (F → V) → F → V
  | [], h => h
  | (f, x) :: ws, h => apply ws (Function.update h f x)

namespace Prog

variable {F : Type u} {V : Type v} {A B : Type w} [DecidableEq F]

/-- What the program returns, and the memory it leaves. -/
def run : Prog F V A → (F → V) → A × (F → V)
  | ret a, h => (a, h)
  | read f k, h => (k (h f)).run h
  | write f x p, h => p.run (Function.update h f x)

/-- What the program stores, in order. -/
def stores : Prog F V A → (F → V) → List (F × V)
  | ret _, _ => []
  | read f k, h => (k (h f)).stores h
  | write f x p, h => (f, x) :: p.stores (Function.update h f x)

/-- The cells that the program accesses. -/
def cells : Prog F V A → (F → V) → List F
  | ret _, _ => []
  | read f k, h => f :: (k (h f)).cells h
  | write f x p, h => f :: p.cells (Function.update h f x)

/-- The next access. -/
def step : Prog F V A → (F → V) → Option (Prog F V A × (F → V))
  | ret _, _ => none
  | read f k, h => some (k (h f), h)
  | write f x p, h => some (p, Function.update h f x)

def bind : Prog F V A → (A → Prog F V B) → Prog F V B
  | ret a, k => k a
  | read f k', k => read f fun x => (k' x).bind k
  | write f x p, k => write f x (p.bind k)

variable {p p' : Prog F V A} {r : Prog F V B} {h h' g : F → V} {f : F} {x : V}
  {ws ws' : List (F × V)} {rs : List F}

/-! ### Stores -/

theorem apply_off (hf : f ∉ ws.map Prod.fst) : apply ws h f = h f := by
  induction ws generalizing h with
  | nil => rfl
  | cons w ws ih =>
    rw [List.map_cons, List.mem_cons, not_or] at hf
    exact (ih hf.2).trans (Function.update_of_ne hf.1 _ _)

theorem apply_congr (hf : g f = h f) : apply ws g f = apply ws h f := by
  induction ws generalizing g h with
  | nil => exact hf
  | cons w ws ih =>
    refine ih ?_
    by_cases he : f = w.1
    · rw [he, Function.update_self, Function.update_self]
    · rw [Function.update_of_ne he, Function.update_of_ne he, hf]

/-- The order of stores to different cells does not matter. -/
theorem apply_perm (hp : ws.Perm ws') (hn : (ws.map Prod.fst).Nodup) : apply ws h = apply ws' h := by
  induction hp generalizing h with
  | nil => rfl
  | cons w _ ih => exact ih (List.nodup_cons.mp hn).2
  | swap a b l =>
    have hne : b.1 ≠ a.1 := by
      intro he
      simp [he] at hn
    show apply l (Function.update (Function.update h b.1 b.2) a.1 a.2) =
      apply l (Function.update (Function.update h a.1 a.2) b.1 b.2)
    rw [Function.update_comm hne]
  | trans h₁ _ ih₁ ih₂ => exact (ih₁ hn).trans (ih₂ ((h₁.map Prod.fst).nodup_iff.mp hn))

theorem run_heap : ∀ (p : Prog F V A) (h : F → V), (p.run h).2 = apply (p.stores h) h
  | ret _, _ => rfl
  | read f k, h => run_heap (k (h f)) h
  | write _ _ p, _ => run_heap p _

theorem stores_cells : ∀ (p : Prog F V A) (h : F → V), ∀ w ∈ p.stores h, w.1 ∈ p.cells h
  | ret _, _, _, hw => nomatch hw
  | read f k, h, w, hw => List.mem_cons_of_mem _ (stores_cells (k (h f)) h w hw)
  | write f x p, h, w, hw => by
    rcases List.mem_cons.mp hw with rfl | hw
    · exact List.mem_cons_self
    · exact List.mem_cons_of_mem _ (stores_cells p _ w hw)

theorem run_off (hf : ∀ w ∈ p.stores h, w.1 ≠ f) : (p.run h).2 f = h f := by
  rw [run_heap]
  refine apply_off fun hm => ?_
  obtain ⟨w, hw, he⟩ := List.mem_map.mp hm
  exact hf w hw he

/-- **A program depends on the cells it accesses only.** -/
theorem frame (hg : ∀ f ∈ p.cells h, g f = h f) :
    p.stores g = p.stores h ∧ p.cells g = p.cells h ∧ (p.run g).1 = (p.run h).1 := by
  induction p generalizing g h with
  | ret a => exact ⟨rfl, rfl, rfl⟩
  | read f k ih =>
    simp only [stores, cells, run]
    rw [hg f List.mem_cons_self]
    obtain ⟨hs, hc, hr⟩ := ih (h f) fun f' hf' => hg f' (List.mem_cons_of_mem _ hf')
    exact ⟨hs, congrArg _ hc, hr⟩
  | write f x p ih =>
    simp only [stores, cells, run]
    obtain ⟨hs, hc, hr⟩ := ih (g := Function.update g f x) (h := Function.update h f x)
      fun f' hf' => by
        by_cases he : f' = f
        · rw [he, Function.update_self, Function.update_self]
        · rw [Function.update_of_ne he, Function.update_of_ne he]
          exact hg f' (List.mem_cons_of_mem _ hf')
    exact ⟨congrArg _ hs, congrArg _ hc, hr⟩

/-! ### One access -/

theorem step_run (hs : p.step h = some (p', h')) : p'.run h' = p.run h := by
  cases p with
  | ret => cases hs
  | read | write =>
    obtain ⟨rfl, rfl⟩ := Prod.mk.inj (Option.some.inj hs)
    rfl

theorem step_stores (hs : p.step h = some (p', h')) : ∀ w ∈ p'.stores h', w ∈ p.stores h := by
  cases p with
  | ret => cases hs
  | read =>
    obtain ⟨rfl, rfl⟩ := Prod.mk.inj (Option.some.inj hs)
    exact fun w hw => hw
  | write =>
    obtain ⟨rfl, rfl⟩ := Prod.mk.inj (Option.some.inj hs)
    exact fun w hw => List.mem_cons_of_mem _ hw

theorem step_cells (hs : p.step h = some (p', h')) : ∀ f ∈ p'.cells h', f ∈ p.cells h := by
  cases p with
  | ret => cases hs
  | read | write =>
    obtain ⟨rfl, rfl⟩ := Prod.mk.inj (Option.some.inj hs)
    exact fun w hw => List.mem_cons_of_mem _ hw

/-- An access changes a cell only by a store of the program. -/
theorem step_heap (hs : p.step h = some (p', h')) (f : F) :
    h' f = h f ∨ (f, h' f) ∈ p.stores h := by
  cases p with
  | ret => cases hs
  | read =>
    obtain ⟨rfl, rfl⟩ := Prod.mk.inj (Option.some.inj hs)
    exact .inl rfl
  | write f' x p =>
    obtain ⟨rfl, rfl⟩ := Prod.mk.inj (Option.some.inj hs)
    by_cases he : f = f'
    · rw [he, Function.update_self]
      exact .inr List.mem_cons_self
    · exact .inl (Function.update_of_ne he _ _)

/-! ### Two programs -/

/-- Neither program writes a cell that the other accesses. -/
structure Apart (p : Prog F V A) (r : Prog F V B) (h : F → V) : Prop where
  left : ∀ w ∈ p.stores h, w.1 ∉ r.cells h
  right : ∀ w ∈ r.stores h, w.1 ∉ p.cells h

theorem Apart.symm (ha : Apart p r h) : Apart r p h := ⟨ha.right, ha.left⟩

theorem apart_ret {b : B} : Apart p (ret b : Prog F V B) h :=
  ⟨fun _ _ hf => (nomatch hf), fun _ hw => (nomatch hw)⟩

/-- After the one, the other does what it would do before. -/
theorem Apart.frame_run (ha : Apart p r h) : r.stores (p.run h).2 = r.stores h ∧
    r.cells (p.run h).2 = r.cells h ∧ (r.run (p.run h).2).1 = (r.run h).1 :=
  frame fun _ hf => run_off fun w hw he => ha.left w hw (he ▸ hf)

/-- **An access of the one** leaves the two apart, and changes nothing for the other. -/
theorem Apart.step (ha : Apart p r h) (hs : p.step h = some (p', h')) : Apart p' r h' ∧
    r.stores h' = r.stores h ∧ r.cells h' = r.cells h ∧ (r.run h').1 = (r.run h).1 := by
  have hf : r.stores h' = r.stores h ∧ r.cells h' = r.cells h ∧ (r.run h').1 = (r.run h).1 := by
    refine frame fun f hc => ?_
    rcases step_heap hs f with he | hw
    · exact he
    · exact absurd hc (ha.left _ hw)
  refine ⟨⟨fun w hw => ?_, fun w hw hc => ?_⟩, hf⟩
  · rw [hf.2.1]
    exact ha.left w (step_stores hs w hw)
  · rw [hf.1] at hw
    exact ha.right w hw (step_cells hs _ hc)

/-- **Which of the two runs first** makes no difference. -/
theorem Apart.run_comm (ha : Apart p r h) : (r.run (p.run h).2).2 = (p.run (r.run h).2).2 := by
  rw [run_heap r, run_heap p (r.run h).2, ha.frame_run.1, ha.symm.frame_run.1]
  funext f
  by_cases hf : ∃ w ∈ p.stores h, w.1 = f
  · obtain ⟨w, hw, rfl⟩ := hf
    have hoff : w.1 ∉ (r.stores h).map Prod.fst := by
      intro hm
      obtain ⟨w', hw', he⟩ := List.mem_map.mp hm
      exact ha.left w hw (he ▸ stores_cells r h w' hw')
    rw [apply_off hoff, run_heap]
    refine apply_congr ?_
    rw [run_heap, apply_off hoff]
  · have hp : (p.run h).2 f = h f := run_off fun w hw he => hf ⟨w, hw, he⟩
    have hoff : f ∉ (p.stores h).map Prod.fst := by
      intro hm
      obtain ⟨w, hw, he⟩ := List.mem_map.mp hm
      exact hf ⟨w, hw, he⟩
    rw [apply_off hoff, run_heap r]
    exact apply_congr hp

/-! ### What a program does -/

/-- The program makes the stores `ws`, in some order, and accesses no cells but these and `rs`. -/
structure Does (p : Prog F V A) (h : F → V) (rs : List F) (ws : List (F × V)) : Prop where
  stores : (p.stores h).Perm ws
  cells : ∀ f ∈ p.cells h, f ∈ rs ∨ f ∈ ws.map Prod.fst

theorem Does.run (hd : Does p h rs ws) (hn : (ws.map Prod.fst).Nodup) : (p.run h).2 = apply ws h := by
  rw [run_heap]
  exact apply_perm hd.stores ((hd.stores.map Prod.fst).nodup_iff.mpr hn)

theorem run_bind : ∀ (p : Prog F V A) (k : A → Prog F V B) (h : F → V),
    (p.bind k).run h = (k (p.run h).1).run (p.run h).2
  | ret _, _, _ => rfl
  | read f k', k, h => run_bind (k' (h f)) k h
  | write _ _ p, k, _ => run_bind p k _

theorem stores_bind : ∀ (p : Prog F V A) (k : A → Prog F V B) (h : F → V),
    (p.bind k).stores h = p.stores h ++ (k (p.run h).1).stores (p.run h).2
  | ret _, _, _ => rfl
  | read f k', k, h => stores_bind (k' (h f)) k h
  | write _ _ p, k, _ => congrArg _ (stores_bind p k _)

theorem cells_bind : ∀ (p : Prog F V A) (k : A → Prog F V B) (h : F → V),
    (p.bind k).cells h = p.cells h ++ (k (p.run h).1).cells (p.run h).2
  | ret _, _, _ => rfl
  | read f k', k, h => congrArg _ (cells_bind (k' (h f)) k h)
  | write _ _ p, k, _ => congrArg _ (cells_bind p k _)

end Prog

end Conc
end Perfbook
