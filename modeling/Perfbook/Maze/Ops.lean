/-
# What the operations on a maze do

The neighbours of a cell are reached over its four sides, so the coordinates of
the source are `step`s, and each operation on a cell of the maze and one of its
neighbours is given by a side. Here each function of the source that visits a
cell or sets walls is given as a plain update of the maze, under the conditions
in which it does not abort.

Key definitions: `step`, `Maze.visit`, `Maze.setWalls`, `Maze.CanGo`.
Key theorems: `visitCell_eq`, `tryVisitCells_spec`, `buildOneCellWall_eq`,
`removeWall_eq`.
-/
import Mathlib.Algebra.Order.Ring.Int
import Mathlib.Tactic.Common
import Perfbook.Maze.Maze

namespace Perfbook
namespace Maze

def Side.opp : Side → Side
  | .up => .down
  | .down => .up
  | .right => .left
  | .left => .right

/-- The neighbour over a side. -/
def step (p : Rowcol) : Side → Rowcol
  | .up => (p.1 - 1, p.2)
  | .down => (p.1 + 1, p.2)
  | .right => (p.1, p.2 + 1)
  | .left => (p.1, p.2 - 1)

variable {p q cur prev next : Rowcol} {d e : Side} {b : Bool}

@[simp] theorem opp_opp (d : Side) : d.opp.opp = d := by
  cases d <;> rfl

@[simp] theorem step_opp (p : Rowcol) (d : Side) : step (step p d) d.opp = p := by
  cases d <;> simp [step, Side.opp]

theorem step_ne (p : Rowcol) (d : Side) : step p d ≠ p := by
  cases d <;> simp [step, Prod.ext_iff]

@[simp] theorem findWallbit_step (p : Rowcol) (d : Side) : findWallbit p (step p d) = some d := by
  cases d <;> simp [findWallbit, step] <;> omega

@[simp] theorem findWallbit_back (p : Rowcol) (d : Side) : findWallbit (step p d) p = some d.opp := by
  have := findWallbit_step (step p d) d.opp
  rwa [step_opp] at this

theorem natAbs_step (p : Rowcol) (d : Side) :
    (p.1 - (step p d).1).natAbs + (p.2 - (step p d).2).natAbs = 1 := by
  cases d <;> simp only [step] <;> omega

variable {mp : Maze}

theorem getCell_eq (h : mp.CellExists p) : mp.getCell p = some (mp.cell p) := if_pos h

theorem setCell_eq (h : mp.CellExists p) (c : Cell) :
    mp.setCell p c = some { mp with cell := Function.update mp.cell p c } := if_pos h

theorem getCellDistance_eq (h : mp.CellExists p) : mp.getCellDistance p = some (mp.cell p).cookie := by
  simp [getCellDistance, getCell_eq h]

theorem cellVisited_eq (h : mp.CellExists p) : mp.cellVisited p = some (mp.cell p).visited := by
  simp [cellVisited, getCell_eq h, h]

theorem cellVisited_of_not (h : ¬ mp.CellExists p) : mp.cellVisited p = some true := if_pos h

/-! ### Visiting a cell -/

/-- The cell `p` is visited. -/
def visit (mp : Maze) (p : Rowcol) (distance : ℕ) : Maze :=
  { mp with
    visited := Function.update mp.visited mp.vi p
    vi := mp.vi + 1
    cell := Function.update mp.cell p { mp.cell p with visited := true, cookie := distance } }

theorem visitCell_eq {distance : ℕ} (h : mp.CellExists p) (hv : (mp.cell p).visited = false)
    (hlt : (mp.vi : ℤ) < mp.nrows * mp.ncols) (hd : distance ≤ cookieMask) :
    mp.visitCell p distance = some (mp.visit p distance) := by
  unfold visitCell
  rw [getCell_eq h]
  simp only [Option.bind_eq_bind, Option.bind_some, hv, Bool.false_eq_true, if_false,
    if_neg (not_le.mpr hlt), ge_iff_le]
  rw [setCell_eq (by exact h)]
  simp only [Option.bind_some, setCellDistance]
  rw [getCell_eq (by exact h)]
  simp only [Option.bind_eq_bind, Option.bind_some, if_neg (not_lt.mpr hd), gt_iff_lt]
  rw [setCell_eq (by exact h)]
  simp [visit, Function.update_idem]

theorem cellsConnected_step (h : mp.CellExists p) (d : Side) :
    mp.cellsConnected p (step p d) =
      some (decide (mp.CellExists (step p d)) && !(mp.cell p).wall d) := by
  unfold cellsConnected
  rw [if_neg (not_not.mpr (natAbs_step p d))]
  by_cases hq : mp.CellExists (step p d)
  · simp [h, hq, getCell_eq h]
  · simp [h, hq]

/-- A segment at `p` can go on over the side `d`. -/
def CanGo (mp : Maze) (p : Rowcol) (d : Side) : Prop :=
  mp.CellExists (step p d) ∧ (mp.cell (step p d)).visited = false ∧ (mp.cell p).wall d = false

theorem tryVisitCell_of {distance : ℕ} (h : mp.CellExists p) (hgo : mp.CanGo p d)
    (hlt : (mp.vi : ℤ) < mp.nrows * mp.ncols) (hd : distance ≤ cookieMask) :
    mp.tryVisitCell p (step p d) distance = some (some (mp.visit (step p d) distance)) := by
  obtain ⟨hq, hv, hw⟩ := hgo
  simp [tryVisitCell, cellsConnected_step h, cellVisited_eq hq, visitCell_eq hq hv hlt hd, hq, hv, hw]

theorem tryVisitCell_of_not {distance : ℕ} (h : mp.CellExists p) (hgo : ¬ mp.CanGo p d) :
    mp.tryVisitCell p (step p d) distance = some none := by
  unfold tryVisitCell
  rw [cellsConnected_step h]
  by_cases hq : mp.CellExists (step p d)
  · by_cases hw : (mp.cell p).wall d = false
    · have hv : (mp.cell (step p d)).visited = true := by
        rw [← Bool.not_eq_false]
        exact fun hv => hgo ⟨hq, hv, hw⟩
      simp [hq, hw, cellVisited_eq hq, hv]
    · simp [hq, hw]
  · simp [hq]

/-- The first side over which the segment can go on is taken. -/
theorem tryVisitCells_spec {distance : ℕ} (h : mp.CellExists p)
    (hroom : ∀ d, mp.CanGo p d → (mp.vi : ℤ) < mp.nrows * mp.ncols ∧ distance ≤ cookieMask)
    (ds : List Side) :
    (mp.tryVisitCells p distance (ds.map (step p)) = some none ∧ ∀ d ∈ ds, ¬ mp.CanGo p d) ∨
      ∃ d, mp.CanGo p d ∧ mp.tryVisitCells p distance (ds.map (step p)) =
        some (some (step p d, mp.visit (step p d) distance)) := by
  induction ds with
  | nil => exact .inl ⟨rfl, nofun⟩
  | cons d ds ih =>
    rw [List.map_cons, tryVisitCells]
    by_cases hgo : mp.CanGo p d
    · exact .inr ⟨d, hgo, by simp [tryVisitCell_of h hgo (hroom d hgo).1 (hroom d hgo).2]⟩
    · simp only [tryVisitCell_of_not h hgo, Option.bind_eq_bind, Option.bind_some]
      refine ih.imp_left fun hn => ⟨hn.1, fun e he => ?_⟩
      obtain rfl | he := List.mem_cons.mp he
      · exact hgo
      · exact hn.2 e he

/-! ### Walls -/

/-- The bits on both sides of a wall. -/
def setWalls (mp : Maze) (p : Rowcol) (d : Side) (b : Bool) : Maze :=
  { mp with
    cell := fun q =>
      { mp.cell q with
        wall := fun e =>
          if q = p ∧ e = d ∨ q = step p d ∧ e = d.opp then b else (mp.cell q).wall e } }

/-- The bit on one side. -/
def setBit (mp : Maze) (p : Rowcol) (d : Side) (b : Bool) : Maze :=
  { mp with
    cell := Function.update mp.cell p
      { mp.cell p with wall := Function.update (mp.cell p).wall d b } }

theorem setWallbit_eq (mp : Maze) (h : mp.CellExists p) (d : Side) (b : Bool) :
    mp.setWallbit p (step p d) b = some (mp.setBit p d b) := by
  simp [setWallbit, getCell_eq h, setCell_eq h, setBit]

theorem setBit_self (mp : Maze) (p : Rowcol) (d : Side) (b : Bool) : (mp.setBit p d b).cell p =
    { mp.cell p with wall := Function.update (mp.cell p).wall d b } := Function.update_self ..

theorem setBit_ne (h : q ≠ p) : (mp.setBit p d b).cell q = mp.cell q := Function.update_of_ne h ..

/-- Setting the bit on one side and then on the other. -/
theorem setBit_both (mp : Maze) (p : Rowcol) (d : Side) (b : Bool) :
    (mp.setBit p d b).setBit (step p d) d.opp b = mp.setWalls p d b := by
  have hcell : ((mp.setBit p d b).setBit (step p d) d.opp b).cell = (mp.setWalls p d b).cell := by
    funext q
    unfold setWalls
    by_cases hq : q = step p d
    · subst hq
      rw [setBit_self, setBit_ne (step_ne p d)]
      refine Cell.ext (funext fun e => ?_) rfl rfl rfl
      by_cases he : e = d.opp <;> simp [he, step_ne]
    · rw [setBit_ne hq]
      by_cases hp : q = p
      · subst hp
        rw [setBit_self]
        refine Cell.ext (funext fun e => ?_) rfl rfl rfl
        by_cases he : e = d <;> simp [he, hq]
      · rw [setBit_ne hp]
        simp [hp, hq]
  exact congrArg (fun c => { mp with cell := c }) hcell

theorem setWallbit_both (mp : Maze) (h : mp.CellExists p) (hq : mp.CellExists (step p d)) :
    ((mp.setWallbit p (step p d) b).bind fun mp => mp.setWallbit (step p d) p b) =
      some (mp.setWalls p d b) := by
  have hback := setWallbit_eq (mp.setBit p d b) (p := step p d) hq d.opp b
  rw [step_opp] at hback
  rw [setWallbit_eq mp h, Option.bind_some, hback, setBit_both]

theorem setWalls_opp (mp : Maze) (p : Rowcol) (d : Side) (b : Bool) :
    mp.setWalls (step p d) d.opp b = mp.setWalls p d b := by
  unfold setWalls
  simp only [step_opp, opp_opp]
  congr 2
  funext q
  congr 1
  funext e
  exact if_congr or_comm rfl rfl

theorem removeWall_eq (h : mp.CellExists p) (hq : mp.CellExists (step p d)) :
    mp.removeWall p (step p d) = some (mp.setWalls p d false) := setWallbit_both mp h hq

theorem buildOneCellWall_eq (h : mp.CellExists cur) (hq : mp.CellExists (step cur d))
    (hprev : step cur d ≠ prev) (hnext : step cur d ≠ next) :
    mp.buildOneCellWall (step cur d) prev cur next = some (mp.setWalls cur d true) := by
  unfold buildOneCellWall
  rw [if_neg hprev, if_neg hnext, if_pos hq, ← setWalls_opp]
  have := setWallbit_both mp (p := step cur d) (d := d.opp) (b := true) hq (by rwa [step_opp])
  rwa [step_opp] at this

theorem buildOneCellWall_of (h : step cur d = prev ∨ step cur d = next ∨ ¬ mp.CellExists (step cur d)) :
    mp.buildOneCellWall (step cur d) prev cur next = some mp := by
  unfold buildOneCellWall
  split
  · rfl
  split
  · rfl
  rename_i h1 h2
  exact if_neg ((h.resolve_left h1).resolve_left h2)

end Maze
end Perfbook
