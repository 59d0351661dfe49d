/-
# `SMPdesign/maze/maze_part.c` and `maze_parallel.h`: a maze in partitions

Several threads solve the maze, each from a start of its own. A visited cell has the ID of its thread in its
cookie, and the distance from that thread's start is in an array next to the maze.

As in the model of `maze.c`, the functions have the names of the source without `maze_`, and `none` is `ABORT`.

Key definitions: `Child`, `MazePart`, `getCellTid`, `getCellDistance`, `setCellDistance`, `sameTids`.
-/
import Perfbook.Maze.Ops

namespace Perfbook

/-- The fields of `struct maze_child` that have a thread's own cells. -/
structure MazePart.Child where
  /-- `startrow` and `startcol`; the row is -1 if there is no start -/
  start : Maze.Rowcol
  visited : ℕ → Maze.Rowcol
  vi : ℕ

/-- A maze with its `struct maze_solve_private`. -/
structure MazePart extends Maze where
  distance : Maze.Rowcol → ℕ
  mcp : ℕ → MazePart.Child

namespace MazePart

open Maze (Rowcol Cell)

variable (mp : MazePart)

/-- `maze_get_cell_addr` and a store there. -/
def setCell (p : Rowcol) (c : Cell) : Option MazePart := do
  let maze ← mp.toMaze.setCell p c
  some { mp with toMaze := maze }

def getCellDistance (p : Rowcol) : Option ℕ := if mp.CellExists p then some (mp.distance p) else none

def setCellDistance (p : Rowcol) (distance : ℕ) : Option MazePart :=
  if mp.CellExists p then some { mp with distance := Function.update mp.distance p distance } else none

def getCellTid (p : Rowcol) : Option ℕ := do
  let c ← mp.getCell p
  some c.cookie

def sameTids (p q : Rowcol) : Option Bool := do
  let t ← mp.getCellTid p
  let u ← mp.getCellTid q
  some (t == u)

variable {mp} {p q : Rowcol}

theorem setCell_eq (h : mp.CellExists p) (c : Cell) :
    mp.setCell p c = some { mp with cell := Function.update mp.cell p c } := by
  simp [setCell, Maze.setCell_eq h]

theorem getCellDistance_eq (h : mp.CellExists p) : mp.getCellDistance p = some (mp.distance p) := if_pos h

theorem setCellDistance_eq (h : mp.CellExists p) (distance : ℕ) : mp.setCellDistance p distance =
    some { mp with distance := Function.update mp.distance p distance } := if_pos h

theorem getCellTid_eq (h : mp.CellExists p) : mp.getCellTid p = some (mp.cell p).cookie := by
  simp [getCellTid, Maze.getCell_eq h]

theorem sameTids_eq (hp : mp.CellExists p) (hq : mp.CellExists q) :
    mp.sameTids p q = some ((mp.cell p).cookie == (mp.cell q).cookie) := by
  simp [sameTids, getCellTid_eq hp, getCellTid_eq hq]

end MazePart
end Perfbook
