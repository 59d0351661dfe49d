/-
# `SMPdesign/maze/maze_fg.c`: threads that solve a maze together

The list of visited cells is the work of all threads. A thread claims the next
entry of the list with `mcsp->vi`, whether it is there yet or not, and waits for
it. Then it explores the cell: it goes on from neighbour to neighbour as far as
it gets, comes back to the cell, and claims another entry when the cell has no
neighbour left that was not visited. A cell is visited by a compare-and-exchange
on its `VISITED` bit, and then gets the next entry of the list: `mp->vi` is the
index of the last entry, and an entry is there when its `col` is not negative.
A thread that finds the end sets `done` to 1. One that claims an entry as far
behind the last one as there are threads sets it to -1: then each thread waits
for an entry.

Each access to what the threads share is one step. The walls do not change, so
they are in `mp`, and of a cell `bit` is its `VISITED`. `claims` is
`mcsp->vi + 1`, and `outside` records an access to `visited` behind its end.
`cellOf` is the history of the list: the cell that an entry is for, from the
time when `mp->vi` counts it.

Key definitions: `Loc`, `St`, `stepThread`, `sys`.
-/
import Perfbook.Conc.Sys
import Perfbook.Maze.Solve

namespace Perfbook
namespace Maze
namespace Fg

/-- Where a thread is, with the locals it still needs; `vi` is the entry it has claimed. -/
inductive Loc
  /-- before `__sync_add_and_fetch(&mcsp->vi, 1)` -/
  | claim
  /-- before `vi >= READ_ONCE(mp->vi) + nthreads` -/
  | check (vi : ℕ)
  /-- before `WRITE_ONCE(mcsp->done, -1)` -/
  | giveUp (vi : ℕ)
  /-- before `vi > READ_ONCE(mp->vi)` -/
  | waitVi (vi : ℕ)
  /-- before `READ_ONCE(mp->visited[vi].col) < 0` -/
  | waitCol (vi : ℕ)
  /-- before `!READ_ONCE(mcsp->done)` of the loop -/
  | waitDone (vi : ℕ)
  /-- before `READ_ONCE(mcsp->done)` after the loop -/
  | ready (vi : ℕ)
  /-- before `cr = mp->visited[vi].row` -/
  | readRow (vi : ℕ)
  /-- before `cc = mp->visited[vi].col` -/
  | readCol (vi : ℕ) (row : ℤ)
  /-- in `maze_find_any_next_cell`, called by the `do` loop if `inner`, before reading the distance -/
  | dist (vi : ℕ) (inner : Bool) (cur : Rowcol)
  /-- before the next call of `maze_try_visit_cell`, for the cells `ps` -/
  | try_ (vi : ℕ) (inner : Bool) (cur : Rowcol) (d : ℕ) (ps : List Rowcol)
  /-- before the compare-and-exchange on the cell `p` -/
  | cas (vi : ℕ) (inner : Bool) (cur : Rowcol) (d : ℕ) (p : Rowcol) (ps : List Rowcol)
  /-- before `maze_set_cell_distance` -/
  | setDist (vi : ℕ) (p : Rowcol) (d : ℕ)
  /-- before `__sync_add_and_fetch(&mp->vi, 1)` -/
  | incVi (vi : ℕ) (p : Rowcol)
  /-- before the store to `mp->visited[k].row` -/
  | storeRow (vi : ℕ) (p : Rowcol) (k : ℕ)
  /-- before the store to `mp->visited[k].col` -/
  | storeCol (vi : ℕ) (p : Rowcol) (k : ℕ)
  /-- before `WRITE_ONCE(mcsp->done, 1)` -/
  | setDone (vi : ℕ)
  /-- returned, if `found` because it has set `done` to 1 -/
  | stopped (vi : ℕ) (found : Bool)

structure St (n : ℕ) where
  bit : Rowcol → Bool
  distance : Rowcol → ℕ
  visited : ℕ → Rowcol
  vi : ℕ
  claims : ℕ
  done : ℤ
  loc : Fin n → Loc
  cellOf : ℕ → Rowcol
  outside : Bool

variable {n : ℕ}

namespace St

variable (s : St n)

/-- The thread goes to another place. -/
def goto (t : Fin n) (l : Loc) : St n := { s with loc := Function.update s.loc t l }

/-- An access to `visited[i]`. -/
def access (mp : Maze) (i : ℕ) : St n := { s with outside := s.outside || mp.size ≤ i }

end St

/-- The next step of thread `t`. -/
def stepThread (mp : Maze) (end_ : Rowcol) (t : Fin n) (s : St n) : Option (St n) :=
  match s.loc t with
  | .claim => some ({ s with claims := s.claims + 1 }.goto t (.check s.claims))
  | .check vi => some (s.goto t (if vi ≥ s.vi + n then .giveUp vi else .waitVi vi))
  | .giveUp vi => some ({ s with done := -1 }.goto t (.stopped vi false))
  | .waitVi vi => some (s.goto t (if vi > s.vi then .waitDone vi else .waitCol vi))
  | .waitCol vi =>
    some ((s.access mp vi).goto t (if (s.visited vi).2 < 0 then .waitDone vi else .ready vi))
  | .waitDone vi => some (s.goto t (if s.done = 0 then .waitVi vi else .ready vi))
  | .ready vi => some (s.goto t (if s.done ≠ 0 then .stopped vi false else .readRow vi))
  | .readRow vi => some ((s.access mp vi).goto t (.readCol vi (s.visited vi).1))
  | .readCol vi row =>
    some ((s.access mp vi).goto t (if row = -1 then .claim else .dist vi false (row, (s.visited vi).2)))
  | .dist vi inner cur =>
    if mp.CellExists cur then
      some (s.goto t (.try_ vi inner cur (s.distance cur + 1) (Visited.anyNextCell cur)))
    else none
  | .try_ vi inner _ _ [] => some (s.goto t (if inner then .readRow vi else .claim))
  | .try_ vi inner cur d (p :: ps) =>
    match mp.cellsConnected cur p with
    | none => none
    | some false => some (s.goto t (.try_ vi inner cur d ps))
    | some true => some (s.goto t (if s.bit p then .try_ vi inner cur d ps else .cas vi inner cur d p ps))
  | .cas vi inner cur d p ps =>
    if s.bit p then some (s.goto t (.try_ vi inner cur d (p :: ps)))
    else some ({ s with bit := Function.update s.bit p true }.goto t (.setDist vi p d))
  | .setDist vi p d =>
    some ({ s with distance := Function.update s.distance p d }.goto t (.incVi vi p))
  | .incVi vi p =>
    some ({ s with vi := s.vi + 1, cellOf := Function.update s.cellOf (s.vi + 1) p }.goto t
      (.storeRow vi p (s.vi + 1)))
  | .storeRow vi p k =>
    some (({ s with visited := Function.update s.visited k (p.1, (s.visited k).2) }.access mp k).goto t
      (.storeCol vi p k))
  | .storeCol vi p k =>
    some (({ s with visited := Function.update s.visited k ((s.visited k).1, p.2) }.access mp k).goto t
      (if p = end_ then .setDone vi else .dist vi true p))
  | .setDone vi => some ({ s with done := 1 }.goto t (.stopped vi true))
  | .stopped _ _ => none

/-- What `maze_solve` has prepared. -/
structure Init (mp : Maze) (start : Rowcol) (s : St n) : Prop where
  bit : ∀ p, s.bit p = decide (p = start)
  distance : ∀ p, s.distance p = if p = start then 1 else 0
  visited : ∀ k < mp.size, s.visited k = if k = 0 then start else (-1, -1)
  vi : s.vi = 0
  claims : s.claims = 0
  done : s.done = 0
  loc : ∀ t, s.loc t = .claim
  cellOf : s.cellOf 0 = start
  outside : s.outside = false

/-- An action is the next step of a thread. -/
def sys (n : ℕ) (mp : Maze) (start end_ : Rowcol) : Conc.Sys (St n) (Fin n) :=
  ⟨Init mp start, stepThread mp end_⟩

end Fg
end Maze
end Perfbook
