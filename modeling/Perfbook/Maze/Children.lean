/-
# `SMPdesign/maze/maze_part.c`: the threads that solve a maze in partitions

Each thread explores the maze from a start of its own. It visits a cell by a compare-and-exchange that leaves its
ID there, and lists the cell in its own `visited[]`. It goes on from neighbour to neighbour as far as it gets, comes
back to the entry it had started from, and takes the next entry when that has no neighbour left. A neighbour that
another thread has visited is an encounter, which the thread records in its own `adj[]`.

With two threads the first encounter ends the search. With more, a thread knows whether it can see the start of
the maze and whether it can see its end, tells those that it encounters, and passes on what it has been told each
time it is back at an entry, and when it has nothing left to explore. `done` is set by one that makes another see
both.

Each access to what the threads share is one step; what only one thread uses goes with its next step, and so do the
three stores that complete an encounter, which are read when all threads have returned. `none` is `ABORT`, or an
access outside of an array. The walls are in the maze that the system starts with.

Key definitions: `Goal`, `Call`, `Cont`, `Loc`, `St`, `stepThread`, `Ready`, `sys`.
-/
import Perfbook.Conc.Sections
import Perfbook.Conc.Sys
import Perfbook.Maze.FgInv
import Perfbook.Maze.Stitch
import Perfbook.Maze.Start

namespace Perfbook
namespace MazePart

open Maze (Rowcol Cell)

/-- What the threads tell each other about. -/
inductive Goal
  /-- `see_start` -/
  | start
  /-- `see_end` -/
  | finish
deriving DecidableEq

def Goal.other : Goal → Goal
  | .start => .finish
  | .finish => .start

/-- The thread that starts there. -/
def Goal.root : Goal → ℕ
  | .start => 0
  | .finish => 1

/-- A cell holds the word that was read there. -/
def sameWord (c d : Cell) : Bool :=
  c.wall .up == d.wall .up && c.wall .down == d.wall .down && c.wall .right == d.wall .right &&
    c.wall .left == d.wall .left && c.visited == d.visited && c.solution == d.solution && c.cookie == d.cookie

/-- `mcp->visited[mcp->vi++]` is `p`; thread 0 uses the array of the maze. -/
def append (mp : MazePart) (t : ℕ) (p : Rowcol) : MazePart :=
  { mp with
    visited := if t = 0 then Function.update mp.visited (mp.mcp t).vi p else mp.visited
    mcp := Function.update mp.mcp t { mp.mcp t with
      visited := Function.update (mp.mcp t).visited (mp.mcp t).vi p
      vi := (mp.mcp t).vi + 1 } }

namespace Children

/-- A call of `maze_find_any_next_cell` for `cur`, in the inner loop or the outer one; `rest` are the neighbours
left to try. -/
structure Call where
  vi : ℕ
  inner : Bool
  cur : Rowcol
  d : ℕ
  rest : List Rowcol

/-- Where a call of `maze_solve_propagate` returns to. -/
inductive Cont (n : ℕ)
  /-- `record_encounter` with `theirtid`, its first or second call -/
  | meet (c : Call) (second : Bool) (j : Fin n)
  /-- the loop of `maze_solve_child_done_check`, at `i` -/
  | check (k : Option ℕ) (i : Fin n)

/-- Where a thread is. `vi` is the entry it explores; a check of `done` is in the last loop if its `k` is `none`. -/
inductive Loc (n : ℕ)
  /-- in `maze_find_any_next_cell`, before `maze_get_cell_distance` -/
  | dist (vi : ℕ) (inner : Bool) (cur : Rowcol)
  /-- before the next call of `maze_try_visit_cell` -/
  | try_ (c : Call)
  /-- before `READ_ONCE(*tp)` -/
  | read (c : Call) (p : Rowcol)
  /-- before the compare-and-exchange -/
  | cas (c : Call) (p : Rowcol) (old : Cell)
  /-- before `maze_set_cell_distance` -/
  | setDist (c : Call) (p : Rowcol)
  /-- before `vi = mymcp->vi++` -/
  | extend (vi : ℕ) (p : Rowcol)
  /-- before `READ_ONCE(mcsp->done)` of the inner loop -/
  | onward (vi : ℕ) (p : Rowcol)
  /-- before `++vi >= mcp->vi || READ_ONCE(mcsp->done)` -/
  | nextCell (vi : ℕ)
  /-- in `record_encounter`, before `maze_get_cell_tid` -/
  | tid (c : Call) (p : Rowcol)
  /-- before the store to `adj[theirtid].mr` -/
  | setMr (c : Call) (p : Rowcol) (j : Fin n)
  /-- before the stores to the rest of `adj[theirtid]` -/
  | setRest (c : Call) (p : Rowcol) (j : Fin n)
  /-- before `WRITE_ONCE(mcsp->done, 1)` of `record_encounter` -/
  | setDone (c : Call) (j : Fin n)
  /-- in `maze_solve_propagate` from `a` to `b`, before the goal of `a` is read -/
  | look (g : Goal) (a b : Fin n) (k : Cont n)
  /-- before the goal of `b` is set -/
  | tell (g : Goal) (a b : Fin n) (k : Cont n)
  /-- before the other goal of `b` is read -/
  | both (g : Goal) (a b : Fin n) (k : Cont n)
  /-- before `WRITE_ONCE(mcsp->done, 1)` there -/
  | found (g : Goal) (a b : Fin n) (k : Cont n)
  /-- in `maze_solve_child_done_check`, before the goal is compared with its snapshot -/
  | snapshot (g : Goal) (k : Option ℕ) (needPropagate : Bool)
  /-- before `mymcp->adj[i].mr` is read -/
  | mine (k : Option ℕ) (i : Fin n)
  /-- before `theirmcp->adj[myid].mr` is read -/
  | theirs (k : Option ℕ) (i : Fin n)
  /-- before `return READ_ONCE(mcsp->done)` -/
  | readDone (k : Option ℕ)
  | returned

structure St (n : ℕ) where
  mp : MazePart
  adj : Adj
  /-- `see_start` and `see_end` of each thread -/
  see : Goal → Fin n → Bool
  /-- `see_start_snap` and `see_end_snap` -/
  snap : Goal → Fin n → Bool
  done : Bool
  loc : Fin n → Loc n

variable {n : ℕ}

namespace St

variable (s : St n)

/-- The thread goes to another place. -/
def goto (t : Fin n) (l : Loc n) : St n := { s with loc := Function.update s.loc t l }

/-- `mcp->visited[i]`. -/
def entry (t : Fin n) (i : ℕ) : Option Rowcol := peek s.mp.size (s.mp.mcp t).visited i

end St

/-- A goal of one thread. -/
def setGoal (f : Goal → Fin n → Bool) (g : Goal) (t : Fin n) (b : Bool) : Goal → Fin n → Bool :=
  Function.update f g (Function.update (f g) t b)

/-- A call of `maze_solve_child_done_check`. -/
def doneCheck (n : ℕ) (k : Option ℕ) : Loc n := if n ≤ 2 then .readDone k else .snapshot .start k false

/-- `goto done`. -/
def stop (n : ℕ) : Loc n := if 2 < n then doneCheck n none else .returned

/-- The loop of `maze_solve_child_done_check`, with its next `i`. -/
def checkFrom (k : Option ℕ) (i : ℕ) : Loc n := Conc.scan (.mine k) (.readDone k) i

/-- A call of `maze_solve_propagate`. -/
def propagate (a b : Fin n) (k : Cont n) : Loc n := .look .start a b k

/-- After `maze_solve_propagate`; `t` is the thread. -/
def resume (t : Fin n) : Cont n → Loc n
  | .meet c false j => propagate j t (.meet c true j)
  | .meet c true _ => .try_ c
  | .check k i => checkFrom k (i + 1)

/-- After what `maze_solve_propagate` does for one goal. -/
def nextGoal (t : Fin n) (a b : Fin n) (k : Cont n) : Goal → Loc n
  | .start => .look .finish a b k
  | .finish => resume t k

/-- After the comparison with a snapshot. -/
def nextSnapshot (k : Option ℕ) (needPropagate : Bool) : Goal → Loc n
  | .start => .snapshot .finish k needPropagate
  | .finish => if needPropagate then checkFrom k 0 else .readDone k

/-- The next step of thread `t`. -/
def stepThread (end_ : Rowcol) (t : Fin n) (s : St n) : Option (St n) :=
  match s.loc t with
  | .dist vi inner cur => do
    let d ← s.mp.getCellDistance cur
    some (s.goto t (.try_ ⟨vi, inner, cur, d + 1, Maze.Visited.anyNextCell cur⟩))
  | .try_ ⟨vi, inner, _, _, []⟩ => some (s.goto t (if inner then doneCheck n (some vi) else .nextCell vi))
  | .try_ ⟨vi, inner, cur, d, p :: ps⟩ => do
    let connected ← s.mp.cellsConnected cur p
    some (s.goto t (if connected then .read ⟨vi, inner, cur, d, ps⟩ p else .try_ ⟨vi, inner, cur, d, ps⟩))
  | .read c p => do
    let w ← s.mp.getCell p
    -- with one thread, `record_encounter` returns at once
    some (s.goto t (if w.visited then if n = 1 then .try_ c else .tid c p else .cas c p w))
  | .cas c p old => do
    let w ← s.mp.getCell p
    if sameWord w old then
      let mp ← s.mp.setCell p (orTid old t)
      some ({ s with mp := mp }.goto t (.setDist c p))
    else some (s.goto t (.read c p))
  | .setDist c p => do
    let mp ← s.mp.setCellDistance p c.d
    some ({ s with mp := mp }.goto t (.extend c.vi p))
  | .extend vi p =>
    if (s.mp.mcp t).vi < s.mp.size then
      some ({ s with mp := append s.mp t p, done := s.done || (decide (n = 1) && decide (p = end_)) }.goto t
        (.onward vi p))
    else none
  | .onward vi p => some (s.goto t (if s.done then stop n else .dist vi true p))
  | .nextCell vi =>
    if vi + 1 ≥ (s.mp.mcp t).vi ∨ s.done then some (s.goto t (stop n))
    else do
      let cur ← s.entry t (vi + 1)
      some (s.goto t (.dist (vi + 1) false cur))
  | .tid c p => do
    let theirtid ← s.mp.getCellTid p
    if theirtid = t then some (s.goto t (.try_ c))
    else if h : theirtid < n then some (s.goto t (.setMr c p ⟨theirtid, h⟩))
    else none
  | .setMr c p j =>
    some ({ s with adj := s.adj.set t j { s.adj t j with mr := c.cur.1 } }.goto t (.setRest c p j))
  | .setRest c p j =>
    some ({ s with adj := s.adj.set t j { s.adj t j with mc := c.cur.2, tr := p.1, tc := p.2 } }.goto t
      (if n = 2 then .setDone c j else propagate t j (.meet c false j)))
  | .setDone c j => some ({ s with done := true }.goto t (propagate t j (.meet c false j)))
  | .look g a b k => some (s.goto t (if s.see g a then .tell g a b k else nextGoal t a b k g))
  | .tell g a b k => some ({ s with see := setGoal s.see g b true }.goto t (.both g a b k))
  | .both g a b k => some (s.goto t (if s.see g.other b then .found g a b k else nextGoal t a b k g))
  | .found g a b k => some ({ s with done := true }.goto t (nextGoal t a b k g))
  | .snapshot g k need =>
    some ({ s with snap := setGoal s.snap g t (s.snap g t || s.see g t) }.goto t
      (nextSnapshot k (need || !s.snap g t && s.see g t) g))
  | .mine k i =>
    if i = t then some (s.goto t (checkFrom k (i + 1)))
    else some (s.goto t (if (s.adj t i).mr ≠ -1 then propagate t i (.check k i) else .theirs k i))
  | .theirs k i =>
    some (s.goto t (if (s.adj i t).mr ≠ -1 then propagate t i (.check k i) else checkFrom k (i + 1)))
  | .readDone none => some (s.goto t (if s.done then .returned else doneCheck n none))
  | .readDone (some vi) =>
    if s.done then some (s.goto t (stop n))
    else do
      let cur ← s.entry t vi
      some (s.goto t (.dist vi false cur))
  | .returned => none

/-- What `maze_unvisit_all` and `maze_solve_start` leave (`solveStart_ready`): no cell is visited but the starts, and
each thread has listed its own. -/
structure Ready (n : ℕ) (mp : MazePart) (end_ : Rowcol) : Prop where
  symm : mp.Symmetric
  ids : n ≤ Maze.cookieMask + 1
  started : AllStarted n mp
  end_ : 1 < n → (mp.mcp 1).start = end_
  only : ∀ p, mp.CellExists p → (mp.cell p).visited = true → ∃ t < n, (mp.mcp t).start = p
  cookie : ∀ p, mp.CellExists p → (mp.cell p).visited = false → (mp.cell p).cookie = 0
  distance : ∀ p, mp.CellExists p → (mp.cell p).visited = false → mp.distance p = 0
  solution : ∀ p, mp.CellExists p → (mp.cell p).solution = false
  listed : ∀ t < n, (mp.mcp t).vi = 1 ∧ (mp.mcp t).visited 0 = (mp.mcp t).start

/-- As `maze_solve_init` leaves it. -/
structure Init (mp : MazePart) (s : St n) : Prop where
  maze : s.mp = mp
  adj : ∀ i j, s.adj i j = .unset
  see : ∀ g t, s.see g t = decide (t.val = g.root)
  snap : ∀ g t, s.snap g t = decide (t.val = g.root)
  done : s.done = false
  loc : ∀ t, s.loc t = .dist 0 false ((mp.mcp t).visited 0)

/-- An action is the next step of a thread. -/
def sys (n : ℕ) (mp : MazePart) (end_ : Rowcol) : Conc.Sys (St n) (Fin n) := ⟨Init mp, stepThread end_⟩

end Children
end MazePart
end Perfbook
