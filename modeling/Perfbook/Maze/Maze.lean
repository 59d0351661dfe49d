/-
# `SMPdesign/maze/maze.c` and `maze_seq.c`: creating a maze

A maze is an array of cells, each with a wall bit for its four sides and a bit
that says it was visited. `maze_create` starts at a cell and grows segments: a
segment goes on to a neighbour that was not visited and puts walls on all other
sides of the cell that it leaves. It turns and ends at random, or it is stuck.
Then a wall is removed somewhere between the cells that were visited and the
rest, and the next segment starts there.

The functions have the names of the source without `maze_`. `none` is `ABORT`.
A cell is given by its row and column. Random numbers are drawn from a sequence
`Rnd`: a comparison with a weight is one bit of such a number, and an index
below `vi` is its remainder, so a sequence stands for one outcome of all draws.
Loops without a bound have fuel.

Key definitions: `Maze`, `visitCell`, `buildCellWalls`, `chooseNextCell`,
`constructSegment`, `findBoundary`, `newEmptyMaze`, `mazeCreate`.
-/
import Mathlib.Data.Int.Notation
import Mathlib.Data.Nat.Notation
import Mathlib.Logic.Function.Basic

namespace Perfbook
namespace Maze

/-- A row and a column. -/
abbrev Rowcol := ℤ × ℤ

instance rowcol_lawfulBEq : LawfulBEq Rowcol := inferInstance

/-- `WALL_UP`, `WALL_DOWN`, `WALL_RIGHT` and `WALL_LEFT`. -/
inductive Side
  | up
  | down
  | right
  | left
deriving DecidableEq

/-- The mask `COOKIE`. -/
def cookieMask : ℕ := 0x03ffffff

/-- The bits of a cell; the cookie is the distance. -/
@[ext]
structure Cell where
  wall : Side → Bool
  visited : Bool
  solution : Bool
  cookie : ℕ

end Maze

structure Maze where
  nrows : ℤ
  ncols : ℤ
  /-- the cells visited, in order; the first `vi` entries are in use -/
  visited : ℕ → Maze.Rowcol
  vi : ℕ
  /-- `none` is -1 -/
  lastvi : Option ℕ
  cell : Maze.Rowcol → Maze.Cell

namespace Maze

/-- The random numbers to come. -/
abbrev Rnd := ℕ → ℕ

/-- A number has been drawn. -/
def Rnd.rest (r : Rnd) : Rnd := fun k => r (k + 1)

/-- `pmrandom`. -/
def pmrandom (x : ℕ) : ℤ := (if x &&& 0x8000 = 0 then 1 else 0) * 2 - 1

/-- `maze_find_wallbit`. -/
def findWallbit (cur other : Rowcol) : Option Side :=
  if cur.1 = other.1 then
    if cur.2 - 1 = other.2 then some .left
    else if cur.2 + 1 = other.2 then some .right
    else none
  else if cur.1 - 1 = other.1 then some .up
  else if cur.1 + 1 = other.1 then some .down
  else none

section

variable (mp : Maze)

def CellExists (p : Rowcol) : Prop := 0 ≤ p.1 ∧ p.1 < mp.nrows ∧ 0 ≤ p.2 ∧ p.2 < mp.ncols

instance (p : Rowcol) : Decidable (mp.CellExists p) := inferInstanceAs (Decidable (_ ∧ _))

def getCell (p : Rowcol) : Option Cell := if mp.CellExists p then some (mp.cell p) else none

def setCell (p : Rowcol) (c : Cell) : Option Maze :=
  if mp.CellExists p then some { mp with cell := Function.update mp.cell p c } else none

def cellsConnected (p q : Rowcol) : Option Bool :=
  if (p.1 - q.1).natAbs + (p.2 - q.2).natAbs ≠ 1 then none
  else if ¬ mp.CellExists p ∨ ¬ mp.CellExists q then some false
  else do
    let bit ← findWallbit p q
    let c ← mp.getCell p
    some (!c.wall bit)

def cellVisited (p : Rowcol) : Option Bool :=
  if ¬ mp.CellExists p then some true
  else do
    let c ← mp.getCell p
    some c.visited

def getCellDistance (p : Rowcol) : Option ℕ := do
  let c ← mp.getCell p
  some c.cookie

def setCellDistance (p : Rowcol) (distance : ℕ) : Option Maze := do
  let t ← mp.getCell p
  if distance > cookieMask then none else mp.setCell p { t with cookie := distance }

def visitCell (p : Rowcol) (distance : ℕ) : Option Maze := do
  let c ← mp.getCell p
  if c.visited then none
  else if (mp.vi : ℤ) ≥ mp.nrows * mp.ncols then none
  else
    let mp := { mp with visited := Function.update mp.visited mp.vi p, vi := mp.vi + 1 }
    let mp ← mp.setCell p { c with visited := true }
    mp.setCellDistance p distance

/-- `maze_try_visit_cell` of `maze_seq.c`; `some none` is that it returns 1. -/
def tryVisitCell (cur t : Rowcol) (distance : ℕ) : Option (Option Maze) := do
  let connected ← mp.cellsConnected cur t
  if !connected then some none
  else
    let visited ← mp.cellVisited t
    if visited then some none
    else
      let mp ← mp.visitCell t distance
      some (some mp)

/-- Calls of `maze_try_visit_cell` for one cell after the other, until one visits. -/
def tryVisitCells (cur : Rowcol) (distance : ℕ) : List Rowcol → Option (Option (Rowcol × Maze))
  | [] => some none
  | t :: ts => do
    match ← mp.tryVisitCell cur t distance with
    | some mp' => some (some (t, mp'))
    | none => tryVisitCells cur distance ts

def findAnyNextCell (cur : Rowcol) : Option (Option (Rowcol × Maze)) := do
  let d ← mp.getCellDistance cur
  mp.tryVisitCells cur (d + 1)
    [(cur.1, cur.2 - 1), (cur.1, cur.2 + 1), (cur.1 - 1, cur.2), (cur.1 + 1, cur.2)]

/-- A wall bit of `p` toward `q` is set to `b`. -/
def setWallbit (p q : Rowcol) (b : Bool) : Option Maze := do
  let bit ← findWallbit p q
  let c ← mp.getCell p
  mp.setCell p { c with wall := Function.update c.wall bit b }

def buildOneCellWall (wall prev cur next : Rowcol) : Option Maze :=
  if wall = prev then some mp
  else if wall = next then some mp
  else if mp.CellExists wall then do
    let mp ← mp.setWallbit wall cur true
    mp.setWallbit cur wall true
  else some mp

def buildCellWalls (prev cur next : Rowcol) : Option Maze := do
  let mp ← mp.buildOneCellWall (cur.1 - 1, cur.2) prev cur next
  let mp ← mp.buildOneCellWall (cur.1 + 1, cur.2) prev cur next
  let mp ← mp.buildOneCellWall (cur.1, cur.2 - 1) prev cur next
  mp.buildOneCellWall (cur.1, cur.2 + 1) prev cur next

/-- `MAZE_CONTINUE_SEGMENT` with the next cell, `MAZE_STUCK_SEGMENT` and `MAZE_END_SEGMENT`. -/
inductive Segment
  | continueSegment (next : Rowcol)
  | stuckSegment
  | endSegment

def chooseNextCell (prev cur : Rowcol) (r : Rnd) : Option (Segment × Maze × Rnd) := do
  let w := r 0
  let r := r.rest
  let d ← mp.getCellDistance cur
  if w.testBit 0 then some (.endSegment, mp, r)
  else
    -- both turns are tried before the way straight on
    let turn := w.testBit 1 ∧ prev ≠ cur
    let flip := pmrandom (r 0) ≠ 0
    let r := if turn then r.rest else r
    let dr := if flip then cur.2 - prev.2 else -(cur.2 - prev.2)
    let dc := if flip then -(cur.1 - prev.1) else cur.1 - prev.1
    let turns := if turn then [(cur.1 + dr, cur.2 + dc), (cur.1 - dr, cur.2 - dc)] else []
    let straight := (cur.1 + (cur.1 - prev.1), cur.2 + (cur.2 - prev.2))
    match ← mp.tryVisitCells cur (d + 1) (turns ++ [straight]) with
    | some (next, mp') => some (.continueSegment next, mp', r)
    | none =>
      match ← mp.findAnyNextCell cur with
      | some (next, mp') => some (.continueSegment next, mp', r)
      | none => some (.stuckSegment, mp, r)

end

/-- The loop of `maze_construct_segment`. -/
def segmentLoop : ℕ → Maze → Rowcol → Rowcol → Rnd → Option (Maze × Rnd)
  | 0, _, _, _, _ => none
  | fuel + 1, mp, prev, cur, r => do
    match ← mp.chooseNextCell prev cur r with
    | (.continueSegment next, mp, r) =>
      let mp ← mp.buildCellWalls prev cur next
      segmentLoop fuel mp cur next r
    | (.endSegment, mp, r) =>
      let mp ← mp.buildCellWalls prev cur prev
      some (mp, r)
    | (.stuckSegment, mp, r) => some (mp, r)

def constructSegment (fuel : ℕ) (mp : Maze) (prev cur : Rowcol) (r : Rnd) : Option (Maze × Rnd) :=
  if prev = cur then do
    match ← mp.findAnyNextCell cur with
    | none => some (mp, r)
    | some (next, mp) =>
      let mp ← mp.buildCellWalls prev cur next
      segmentLoop fuel mp cur next r
  else segmentLoop fuel mp prev cur r

section

variable (mp : Maze)

def removeWall (cur other : Rowcol) : Option Maze := do
  let mp ← mp.setWallbit cur other false
  mp.setWallbit other cur false

/-- What `maze_find_boundary` does with one neighbour `q`; `c` is its choice so far, `none` if
`cr` is -1. -/
def boundaryCell (q : Rowcol) (c : Option Rowcol) (r : Rnd) : Option (Option Rowcol × Rnd) := do
  let visited ← mp.cellVisited q
  if visited then some (c, r)
  else if c = none then some (some q, r)
  else some (if (r 0).testBit 0 then some q else c, r.rest)

/-- The loop of `maze_find_boundary`. -/
def boundaryLoop (viLim viStart : ℕ) :
    ℕ → ℕ → Rnd → Option (Option (Rowcol × Rowcol) × Maze × Rnd)
  | 0, _, _ => none
  | fuel + 1, vi, r => do
    let p := mp.visited vi
    let (c, r) ← mp.boundaryCell (p.1 - 1, p.2) none r
    let (c, r) ← mp.boundaryCell (p.1 + 1, p.2) c r
    let (c, r) ← mp.boundaryCell (p.1, p.2 - 1) c r
    let (c, r) ← mp.boundaryCell (p.1, p.2 + 1) c r
    match c with
    | some q =>
      let d ← mp.getCellDistance p
      let mp ← mp.removeWall p q
      let mp ← mp.visitCell q (d + 1)
      some (some (p, q), { mp with lastvi := some vi }, r)
    | none =>
      let vi := if vi + 1 ≥ mp.vi then 0 else vi + 1
      if viLim ≠ mp.vi then none
      else if vi ≠ viStart then boundaryLoop viLim viStart fuel vi r
      else some (none, mp, r)

/-- `maze_find_boundary`; it looks at each of the `vi` cells once at most. -/
def findBoundary (r : Rnd) : Option (Option (Rowcol × Rowcol) × Maze × Rnd) :=
  let (vi, r) := match mp.lastvi with
    | none => (r 0 % mp.vi, r.rest)
    | some k => if (r 0).testBit 0 then (r.rest 0 % mp.vi, r.rest.rest) else (k, r.rest)
  mp.boundaryLoop mp.vi vi mp.vi vi r

end

/-- `for (i = a; i < b; i++)`. -/
def upto (a b : ℤ) : List ℤ := (List.range (b - a).toNat).map fun k : ℕ => a + (k : ℤ)

/-- A cell with walls and no more. -/
def emptyCell (walls : List Side) : Cell := ⟨fun d => decide (d ∈ walls), false, false, 0⟩

/-- The calls of `maze_set_cell` in `new_empty_maze`, in order. -/
def emptyCells (nrows ncols : ℤ) : List (Rowcol × List Side) :=
  [((0, 0), [.up, .left]), ((nrows - 1, 0), [.down, .left]), ((0, ncols - 1), [.up, .right]),
    ((nrows - 1, ncols - 1), [.down, .right])] ++
  (upto 1 (nrows - 1)).flatMap (fun i =>
    [((i, 0), [.left]), ((i, ncols - 1), [.right])] ++
      (upto 1 (ncols - 1)).map fun j => ((i, j), [])) ++
  (upto 1 (ncols - 1)).flatMap fun i => [((0, i), [.up]), ((nrows - 1, i), [.down])]

/-- `new_empty_maze`; `visited` and `cell` are what `malloc` has left there. The weights of
the random draws are not part of the model, but that their setup aborts if a length is not positive. -/
def newEmptyMaze (visited : ℕ → Rowcol) (cell : Rowcol → Cell) (nrows ncols : ℤ) : Option Maze :=
  if ncols ≤ 0 ∨ nrows ≤ 0 then none
  else
    (emptyCells nrows ncols).foldlM (fun (mp : Maze) w => mp.setCell w.1 (emptyCell w.2))
      ⟨nrows, ncols, visited, 0, none, cell⟩

/-- `maze_unvisit_all`. -/
def unvisitAll (mp : Maze) : Option Maze := do
  let mp ← ((upto 0 mp.nrows).flatMap fun i => (upto 0 mp.ncols).map fun j => (i, j)).foldlM
    (fun (mp : Maze) p => do
      let c ← mp.getCell p
      let mp ← mp.setCell p { c with visited := false, solution := false, cookie := 0 }
      mp.setCellDistance p 0) mp
  some { mp with vi := 0 }

/-- The loop of `maze_create`. -/
def createLoop (segFuel : ℕ) : ℕ → Maze → Rnd → Option (Maze × Rnd)
  | 0, _, _ => none
  | fuel + 1, mp, r => do
    match ← mp.findBoundary r with
    | (some (prev, cur), mp, r) =>
      let (mp, r) ← constructSegment segFuel mp prev cur r
      createLoop segFuel fuel mp r
    | (none, mp, r) => some (mp, r)

def mazeCreate (fuel : ℕ) (visited : ℕ → Rowcol) (cell : Rowcol → Cell) (nrows ncols : ℤ)
    (start : Rowcol) (r : Rnd) : Option Maze := do
  let mp ← newEmptyMaze visited cell nrows ncols
  let mp ← mp.visitCell start 1
  let (mp, r) ← constructSegment fuel mp start start r
  let (mp, _) ← createLoop fuel fuel mp r
  -- `Leftover`
  if (mp.vi : ℤ) ≠ mp.nrows * mp.ncols then none else unvisitAll mp

end Maze
end Perfbook
