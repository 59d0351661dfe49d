/-
# `SMPdesign/maze/maze_part.c`: where the threads start

Thread 0 starts at the start of the maze and thread 1 at its end. The starts of all others are assigned by a
strategy, in a stripe or a pattern, and those that find their cell taken get a random one.

A computation ends with the maze, or it is halted: by `ABORT`, by one that C does not define (an `int` too large),
or because the random numbers given to it are used up. Such a number stands for a row as its remainder.

Key definitions: `rowColFrac`, `startAssign`, `startRandom`, `Strategy`, `solveStart`, `Started`.
Key theorems: `startAssign_spec`, `startRandom_spec`, `startRandom_some`, `stripe_spec`.
-/
import Perfbook.Maze.Inv
import Perfbook.Maze.Part

namespace Perfbook
namespace MazePart

open Maze (Rowcol Cell Side Rnd cookieMask)

/-- Why there is no result. -/
inductive Halt
  | abort
  | undefined
  | fuel
deriving DecidableEq

def INT_MAX : ℤ := 2147483647

/-- `maze_row_col_frac`. -/
def rowColFrac (rc num den : ℤ) : Except Halt ℤ :=
  if rc ≤ 0 ∨ num < 0 ∨ den ≤ 0 then .error .abort
  else if INT_MAX < (rc - 1) * num + den then .error .undefined
  else .ok (((rc - 1) * num + den - 1) / den)

/-- The bit of a wall in a cell. -/
def wallBit : Side → ℕ
  | .up => 31
  | .down => 30
  | .right => 29
  | .left => 28

/-- `*cp |= VISITED | tid`. -/
def orTid (c : Cell) (tid : ℕ) : Cell where
  wall d := c.wall d || tid.testBit (wallBit d)
  visited := true
  solution := c.solution || tid.testBit 26
  cookie := (c.cookie ||| tid) &&& cookieMask

/-- What `ABORT` leaves. -/
def orAbort {A : Type} : Option A → Except Halt A
  | some a => .ok a
  | none => .error .abort

/-- `mcp[tid].visited[0]` is `p`, and the start; thread 0 uses the array of the maze. -/
def setStart (mp : MazePart) (tid : ℕ) (p : Rowcol) : MazePart :=
  { mp with
    visited := if tid = 0 then Function.update mp.visited 0 p else mp.visited
    mcp := Function.update mp.mcp tid ⟨p, Function.update (mp.mcp tid).visited 0 p, 1⟩ }

/-- How many of the threads have no start. -/
def without (mp : MazePart) (l : List ℕ) : ℕ := l.countP fun j => (mp.mcp j).start.1 = -1

section

variable (nthreads : ℕ)

/-- `maze_solve_start_assign`. -/
def startAssign (mp : MazePart) (tid : ℕ) (p : Rowcol) : Except Halt (Bool × MazePart) :=
  if ¬ mp.CellExists p ∨ nthreads ≤ tid then .error .abort
  else do
    let c ← orAbort (mp.getCell p)
    if c.visited ∨ (mp.mcp tid).start.1 ≠ -1 then .ok (false, mp)
    else
      let mp := setStart mp tid p
      let mp ← orAbort (mp.setCell p (orTid c tid))
      let mp ← orAbort (mp.setCellDistance p 1)
      .ok (true, mp)

/-- The loop of `maze_solve_start_random` for one thread. -/
def randomLoop (i : ℕ) : ℕ → MazePart → Rnd → Except Halt (MazePart × Rnd)
  | 0, _, _ => .error .fuel
  | fuel + 1, mp, rnd => do
    let (assigned, mp) ← startAssign nthreads mp i ((rnd 0 : ℤ) % mp.nrows, (rnd 1 : ℤ) % mp.ncols)
    if assigned then .ok (mp, rnd.rest.rest) else randomLoop i fuel mp rnd.rest.rest

/-- `maze_solve_start_random`. -/
def startRandom (fuel : ℕ) (mp : MazePart) (rnd : Rnd) : Except Halt (MazePart × Rnd) :=
  (List.range nthreads).foldlM (fun (mp, rnd) i =>
    if (mp.mcp i).start.1 = -1 then randomLoop nthreads i fuel mp rnd else .ok (mp, rnd)) (mp, rnd)

/-- The number of threads without a start, but `lim` at most. -/
def unassigned (mp : MazePart) (lim : ℤ) : ℤ := min (without mp (List.range nthreads) : ℤ) lim

/-- The loop of a stripe: the `i`th thread without a start gets `place i`, if that is free. -/
def stripe (place : ℤ → Except Halt Rowcol) (mp : MazePart) : Except Halt MazePart := do
  let (mp, _) ← (List.range nthreads).foldlM (fun ((mp, i) : MazePart × ℤ) j =>
    if (mp.mcp j).start.1 ≠ -1 then .ok (mp, i)
    else do
      let p ← place i
      let (_, mp) ← startAssign nthreads mp j p
      .ok (mp, i + 1)) (mp, 1)
  .ok mp

/-- The `i`th start of `n` on the diagonal from the upper right to the lower left. -/
def antidiagonalPlace (mp : MazePart) (n i : ℤ) : Except Halt Rowcol := do
  let row ← rowColFrac mp.nrows i (n + 1)
  let col ← rowColFrac mp.ncols i (n + 1)
  .ok (mp.nrows - row, col)

def startAntidiagonal (fuel : ℕ) (mp : MazePart) (rnd : Rnd) : Except Halt (MazePart × Rnd) := do
  let mp ← stripe nthreads (antidiagonalPlace mp (unassigned nthreads mp mp.ncols)) mp
  startRandom nthreads fuel mp rnd

def diagonalPlace (mp : MazePart) (n i : ℤ) : Except Halt Rowcol := do
  let row ← rowColFrac mp.nrows i (n + 1)
  let col ← rowColFrac mp.ncols i (n + 1)
  .ok (row, col)

def startDiagonal (fuel : ℕ) (mp : MazePart) (rnd : Rnd) : Except Halt (MazePart × Rnd) := do
  let mp ← stripe nthreads (diagonalPlace mp (unassigned nthreads mp mp.ncols)) mp
  startRandom nthreads fuel mp rnd

def horizontalPlace (mp : MazePart) (row n i : ℤ) : Except Halt Rowcol := do
  let col ← rowColFrac mp.ncols i (n + 1)
  .ok (row, col)

def startHorizontal (fuel : ℕ) (mp : MazePart) (rnd : Rnd) : Except Halt (MazePart × Rnd) := do
  let row ← rowColFrac mp.nrows 1 2
  let mp ← stripe nthreads (horizontalPlace mp row (unassigned nthreads mp mp.ncols)) mp
  startRandom nthreads fuel mp rnd

def verticalPlace (mp : MazePart) (col n i : ℤ) : Except Halt Rowcol := do
  let row ← rowColFrac mp.nrows i (n + 1)
  .ok (row, col)

def startVertical (fuel : ℕ) (mp : MazePart) (rnd : Rnd) : Except Halt (MazePart × Rnd) := do
  let col ← rowColFrac mp.ncols 1 2
  let mp ← stripe nthreads (verticalPlace mp col (unassigned nthreads mp mp.nrows)) mp
  startRandom nthreads fuel mp rnd

def pos12359 : List (ℕ × ℕ) := [(0, 0), (4, 4), (2, 2), (4, 0), (0, 4), (2, 1), (3, 2), (2, 3), (1, 2)]

def pos48 : List (ℕ × ℕ) := [(0, 0), (4, 4), (0, 4), (4, 0), (2, 1), (3, 2), (2, 3), (1, 2)]

def pos67 : List (ℕ × ℕ) := [(0, 0), (4, 4), (2, 1), (3, 2), (2, 3), (1, 2), (2, 2)]

def pos : List (List (ℕ × ℕ)) :=
  [pos12359, pos12359, pos12359, pos48, pos12359, pos67, pos67, pos48, pos12359]

/-- An entry of an array; there is nothing outside of it. -/
def entry {A : Type} (a : List A) (i : ℕ) : Except Halt A :=
  match a[i]? with
  | some x => .ok x
  | none => .error .undefined

/-- `rowspread[]` or `colspread[]`. -/
def spread (rc : ℤ) : Except Halt (List ℤ) := (List.range 5).mapM fun i : ℕ => rowColFrac rc i 4

/-- The start of thread `i` in a pattern. -/
def spreadPlace (rowspread colspread : List ℤ) (rc : List (ℕ × ℕ)) (i : ℕ) : Except Halt Rowcol := do
  let k ← entry rc i
  let r ← entry rowspread k.1
  let c ← entry colspread k.2
  .ok (r, c)

/-- The loop of `maze_solve_start_spread`. -/
def spreadLoop (place : ℕ → Except Halt Rowcol) (n : ℕ) (mp : MazePart) : Except Halt MazePart :=
  (List.range n).foldlM (fun mp i => do
    let p ← place i
    let (_, mp) ← startAssign nthreads mp i p
    .ok mp) mp

def startSpread (fuel : ℕ) (mp : MazePart) (rnd : Rnd) : Except Halt (MazePart × Rnd) := do
  let rowspread ← spread mp.nrows
  let colspread ← spread mp.ncols
  let n := min nthreads 9
  let rc ← entry pos (n - 1)
  let mp ← spreadLoop nthreads (spreadPlace rowspread colspread rc) n mp
  startRandom nthreads fuel mp rnd

end

/-- The values of `threadstartfunc` but the random one. -/
inductive Strategy
  | antidiagonal
  | diagonal
  | horizontal
  | vertical
  | spread

def Strategy.start : Strategy → ℕ → ℕ → MazePart → Rnd → Except Halt (MazePart × Rnd)
  | .antidiagonal => startAntidiagonal
  | .diagonal => startDiagonal
  | .horizontal => startHorizontal
  | .vertical => startVertical
  | .spread => startSpread

/-- A start that is assigned, or `ABORT`. -/
def assignOrAbort (nthreads : ℕ) (mp : MazePart) (tid : ℕ) (p : Rowcol) : Except Halt MazePart := do
  let (assigned, mp) ← startAssign nthreads mp tid p
  if assigned then .ok mp else .error .abort

/-- The start of thread 1, if there is one. -/
def assignEnd (nthreads : ℕ) (mp : MazePart) (end_ : Rowcol) : Except Halt MazePart :=
  if 1 < nthreads then assignOrAbort nthreads mp 1 end_ else .ok mp

/-- `maze_solve_start`. -/
def solveStart (strategy : Strategy) (nthreads fuel : ℕ) (mp : MazePart) (start end_ : Rowcol) (rnd : Rnd) :
    Except Halt MazePart := do
  let mp ← assignOrAbort nthreads mp 0 start
  let mp ← assignEnd nthreads mp end_
  let (mp, _) ← strategy.start nthreads fuel mp rnd
  .ok mp

/-- A maze before `maze_solve_start`: it was built, with an `int` for the number of its cells, no cell is visited,
as `maze_unvisit_all` leaves it, and no thread has a start, as `maze_solve_init` leaves them. -/
structure Fresh (n : ℕ) (mp : MazePart) : Prop where
  built : mp.nrows * mp.ncols ≤ INT_MAX
  visited : ∀ p, mp.CellExists p → (mp.cell p).visited = false
  cookie : ∀ p, mp.CellExists p → (mp.cell p).cookie = 0
  start : ∀ t < n, (mp.mcp t).start.1 = -1

/-- Thread `t` has a start. -/
def Has (mp : MazePart) (t : ℕ) : Prop := (mp.mcp t).start.1 ≠ -1

instance (mp : MazePart) (t : ℕ) : Decidable (Has mp t) := inferInstanceAs (Decidable (_ ≠ _))

/-- Every thread has a start of its own, which is marked as its. -/
def AllStarted (n : ℕ) (mp : MazePart) : Prop :=
  ∀ t < n, mp.CellExists (mp.mcp t).start ∧ (mp.cell (mp.mcp t).start).visited = true ∧
    (mp.cell (mp.mcp t).start).cookie = t ∧ mp.distance (mp.mcp t).start = 1 ∧
    ∀ u < n, u ≠ t → (mp.mcp u).start ≠ (mp.mcp t).start

section

variable {n t u i fuel : ℕ} {mp mp' mp'' : MazePart} {p q : Rowcol}

/-- The starts assigned so far. -/
structure Started (n : ℕ) (mp : MazePart) : Prop where
  cookie : ∀ p, mp.CellExists p → (mp.cell p).visited = false → (mp.cell p).cookie = 0
  thread : ∀ p, mp.CellExists p → (mp.cell p).visited = true → ∃ t < n, Has mp t ∧ (mp.mcp t).start = p
  start : ∀ t < n, Has mp t → mp.CellExists (mp.mcp t).start ∧ (mp.cell (mp.mcp t).start).visited = true ∧
    (mp.cell (mp.mcp t).start).cookie = t &&& cookieMask ∧ mp.distance (mp.mcp t).start = 1
  ne : ∀ t < n, ∀ u < n, Has mp t → Has mp u → u ≠ t → (mp.mcp u).start ≠ (mp.mcp t).start

/-- More starts are assigned. -/
structure Later (n : ℕ) (mp mp' : MazePart) : Prop where
  started : Started n mp'
  nrows : mp'.nrows = mp.nrows
  ncols : mp'.ncols = mp.ncols
  keep : ∀ t, Has mp t → Has mp' t

theorem Later.refl (h : Started n mp) : Later n mp mp := ⟨h, rfl, rfl, fun _ ht => ht⟩

theorem Later.trans (h : Later n mp mp') (h' : Later n mp' mp'') : Later n mp mp'' :=
  ⟨h'.started, h'.nrows.trans h.nrows, h'.ncols.trans h.ncols, fun t ht => h'.keep t (h.keep t ht)⟩

theorem Later.cellExists (h : Later n mp mp') : mp'.CellExists p ↔ mp.CellExists p := by
  simp only [Maze.CellExists, h.nrows, h.ncols]

/-- So the index of a cell in the array is an `int`. -/
theorem Fresh.index_lt (h : Fresh n mp) {p : Rowcol} (hp : mp.CellExists p) :
    p.1 * mp.ncols + p.2 < INT_MAX := by
  obtain ⟨-, hrow, hcol0, hcol⟩ := hp
  have hle : (p.1 + 1) * mp.ncols ≤ mp.nrows * mp.ncols :=
    mul_le_mul_of_nonneg_right (by omega) (by omega)
  calc p.1 * mp.ncols + p.2 < p.1 * mp.ncols + mp.ncols := by omega
    _ = (p.1 + 1) * mp.ncols := by rw [add_mul, one_mul]
    _ ≤ mp.nrows * mp.ncols := hle
    _ ≤ INT_MAX := h.built

theorem Fresh.started (h : Fresh n mp) : Started n mp where
  cookie p hp _ := h.cookie p hp
  thread p hp hv := by rw [h.visited p hp] at hv; cases hv
  start t ht hs := absurd (h.start t ht) hs
  ne t ht _ _ hs := absurd (h.start t ht) hs

/-! ### One start -/

/-- The start of thread `t` is assigned. -/
def assign (mp : MazePart) (t : ℕ) (p : Rowcol) : MazePart :=
  { setStart mp t p with
    cell := Function.update mp.cell p (orTid (mp.cell p) t)
    distance := Function.update mp.distance p 1 }

theorem startAssign_eq (ht : t < n) (hp : mp.CellExists p) : startAssign n mp t p =
    .ok (if (mp.cell p).visited = true ∨ Has mp t then (false, mp) else (true, mp.assign t p)) := by
  have hp' : (setStart mp t p).CellExists p := hp
  unfold startAssign
  rw [if_neg (not_or.mpr ⟨not_not.mpr hp, not_le.mpr ht⟩), Maze.getCell_eq hp]
  by_cases hfree : (mp.cell p).visited = true ∨ Has mp t
  · rw [if_pos hfree]
    exact if_pos hfree
  · rw [if_neg hfree]
    refine (if_neg hfree).trans ?_
    rw [setCell_eq hp']
    change (orAbort (setCellDistance _ p 1) >>= fun mp => Except.ok (true, mp)) = _
    rw [setCellDistance_eq (by exact hp)]
    rfl

theorem startAssign_outside (h : ¬ mp.CellExists p) : startAssign n mp t p = .error .abort := if_pos (.inl h)

theorem assign_mcp_self (mp : MazePart) (t : ℕ) (p : Rowcol) : ((mp.assign t p).mcp t).start = p := by
  simp [assign, setStart]

theorem assign_mcp_ne (h : u ≠ t) : (mp.assign t p).mcp u = mp.mcp u := Function.update_of_ne h ..

theorem assign_cell_self : (mp.assign t p).cell p = orTid (mp.cell p) t := Function.update_self ..

theorem assign_cell_ne (h : q ≠ p) : (mp.assign t p).cell q = mp.cell q := Function.update_of_ne h ..

theorem assign_distance_self : (mp.assign t p).distance p = 1 := Function.update_self ..

theorem assign_distance_ne (h : q ≠ p) : (mp.assign t p).distance q = mp.distance q := Function.update_of_ne h ..

theorem has_assign_self (hp : mp.CellExists p) : Has (mp.assign t p) t := by
  unfold Has
  rw [assign_mcp_self]
  have := hp.1
  omega

theorem has_assign_ne (h : u ≠ t) : Has (mp.assign t p) u ↔ Has mp u := by
  unfold Has
  rw [assign_mcp_ne h]

theorem Started.assign (h : Started n mp) (ht : t < n) (hp : mp.CellExists p) (hfree : (mp.cell p).visited = false)
    (hno : ¬ Has mp t) : Started n (mp.assign t p) := by
  have hne : ∀ u < n, Has mp u → (mp.mcp u).start ≠ p := by
    rintro u hu hs rfl
    rw [(h.start u hu hs).2.1] at hfree
    cases hfree
  refine ⟨fun q hq hv => ?_, fun q hq hv => ?_, fun u hu hs => ?_, fun u hu v hv hsu hsv hvu => ?_⟩
  · by_cases hqp : q = p
    · subst hqp
      rw [assign_cell_self] at hv
      cases hv
    · rw [assign_cell_ne hqp] at hv ⊢
      exact h.cookie q hq hv
  · by_cases hqp : q = p
    · subst hqp
      exact ⟨t, ht, has_assign_self hp, assign_mcp_self ..⟩
    · rw [assign_cell_ne hqp] at hv
      obtain ⟨u, hu, hs, hstart⟩ := h.thread q hq hv
      have hut : u ≠ t := fun heq => hno (heq ▸ hs)
      exact ⟨u, hu, (has_assign_ne hut).mpr hs, by rw [assign_mcp_ne hut]; exact hstart⟩
  · by_cases hut : u = t
    · subst hut
      rw [assign_mcp_self, assign_cell_self, assign_distance_self]
      refine ⟨hp, rfl, ?_, rfl⟩
      simp [orTid, h.cookie p hp hfree]
    · have hs := (has_assign_ne hut).mp hs
      rw [assign_mcp_ne hut, assign_cell_ne (hne u hu hs), assign_distance_ne (hne u hu hs)]
      exact h.start u hu hs
  · by_cases hut : u = t
    · subst hut
      rw [assign_mcp_self, assign_mcp_ne hvu]
      exact hne v hv ((has_assign_ne hvu).mp hsv)
    · have hu' := (has_assign_ne hut).mp hsu
      rw [assign_mcp_ne hut]
      by_cases hvt : v = t
      · rw [hvt, assign_mcp_self]
        exact (hne u hu hu').symm
      · rw [assign_mcp_ne hvt]
        exact h.ne u hu v hv hu' ((has_assign_ne hvt).mp hsv) hvu

theorem Started.later_assign (h : Started n mp) (ht : t < n) (hp : mp.CellExists p)
    (hfree : (mp.cell p).visited = false) (hno : ¬ Has mp t) : Later n mp (mp.assign t p) := by
  refine ⟨h.assign ht hp hfree hno, rfl, rfl, fun u hu => ?_⟩
  by_cases hut : u = t
  · subst hut
    exact has_assign_self hp
  · exact (has_assign_ne hut).mpr hu

/-- A start inside the maze is assigned, or the maze stays as it is. -/
theorem startAssign_spec (h : Started n mp) (ht : t < n) (hp : mp.CellExists p) :
    (startAssign n mp t p = .ok (false, mp) ∧ ((mp.cell p).visited = true ∨ Has mp t)) ∨
      (startAssign n mp t p = .ok (true, mp.assign t p) ∧ Later n mp (mp.assign t p)) := by
  rw [startAssign_eq ht hp]
  by_cases hfree : (mp.cell p).visited = true ∨ Has mp t
  · exact .inl ⟨by rw [if_pos hfree], hfree⟩
  · refine .inr ⟨by rw [if_neg hfree], ?_⟩
    rw [not_or, Bool.not_eq_true] at hfree
    exact h.later_assign ht hp hfree.1 hfree.2

/-! ### Random starts -/

theorem cellExists_rnd (hr : 1 ≤ mp.nrows) (hc : 1 ≤ mp.ncols) (x y : ℕ) :
    mp.CellExists ((x : ℤ) % mp.nrows, (y : ℤ) % mp.ncols) :=
  ⟨Int.emod_nonneg _ (by omega), Int.emod_lt_of_pos _ (by omega), Int.emod_nonneg _ (by omega),
    Int.emod_lt_of_pos _ (by omega)⟩

/-- The thread gets a start, or the random numbers are used up. -/
theorem randomLoop_spec (h : Started n mp) (ht : t < n) (hr : 1 ≤ mp.nrows) (hc : 1 ≤ mp.ncols) (fuel : ℕ)
    (rnd : Rnd) : randomLoop n t fuel mp rnd = .error .fuel ∨
      ∃ mp' rnd', randomLoop n t fuel mp rnd = .ok (mp', rnd') ∧ Later n mp mp' ∧ Has mp' t := by
  induction fuel generalizing rnd with
  | zero => exact .inl rfl
  | succ fuel ih =>
    have hp := cellExists_rnd hr hc (rnd 0) (rnd 1)
    unfold randomLoop
    obtain ⟨hrun, _⟩ | ⟨hrun, hlater⟩ := startAssign_spec h ht hp
    · rw [hrun]
      exact ih rnd.rest.rest
    · rw [hrun]
      exact .inr ⟨_, _, rfl, hlater, has_assign_self hp⟩

/-- What `maze_solve_start_random` does with one thread. -/
def randomBody (n fuel : ℕ) (s : MazePart × Rnd) (i : ℕ) : Except Halt (MazePart × Rnd) :=
  if (s.1.mcp i).start.1 = -1 then randomLoop n i fuel s.1 s.2 else .ok s

theorem randomBody_spec (h : Started n mp) (ht : t < n) (hr : 1 ≤ mp.nrows) (hc : 1 ≤ mp.ncols) (fuel : ℕ)
    (rnd : Rnd) : randomBody n fuel (mp, rnd) t = .error .fuel ∨
      ∃ mp' rnd', randomBody n fuel (mp, rnd) t = .ok (mp', rnd') ∧ Later n mp mp' ∧ Has mp' t := by
  unfold randomBody
  split
  · exact randomLoop_spec h ht hr hc fuel rnd
  · rename_i hs
    exact .inr ⟨mp, rnd, rfl, .refl h, hs⟩

theorem random_fold (l : List ℕ) (hl : ∀ j ∈ l, j < n) (h : Started n mp) (hr : 1 ≤ mp.nrows) (hc : 1 ≤ mp.ncols)
    (fuel : ℕ) (rnd : Rnd) : l.foldlM (randomBody n fuel) (mp, rnd) = .error .fuel ∨
      ∃ mp' rnd', l.foldlM (randomBody n fuel) (mp, rnd) = .ok (mp', rnd') ∧ Later n mp mp' ∧
        ∀ j ∈ l, Has mp' j := by
  induction l generalizing mp rnd with
  | nil => exact .inr ⟨mp, rnd, rfl, .refl h, nofun⟩
  | cons j l ih =>
    rw [List.foldlM_cons]
    obtain hrun | ⟨mp₁, rnd₁, hrun, hlater, hj⟩ := randomBody_spec h (hl j List.mem_cons_self) hr hc fuel rnd
    · rw [hrun]
      exact .inl rfl
    · rw [hrun]
      obtain hrest | ⟨mp₂, rnd₂, hrest, hlater', hall⟩ := ih (fun k hk => hl k (List.mem_cons_of_mem _ hk))
        hlater.started (by rw [hlater.nrows]; exact hr) (by rw [hlater.ncols]; exact hc) rnd₁
      · exact .inl hrest
      · refine .inr ⟨mp₂, rnd₂, hrest, hlater.trans hlater', fun k hk => ?_⟩
        obtain rfl | hk := List.mem_cons.mp hk
        · exact hlater'.keep k hj
        · exact hall k hk

/-- **Random starts.** With enough random numbers every thread has a start in the end. -/
theorem startRandom_spec (h : Started n mp) (hr : 1 ≤ mp.nrows) (hc : 1 ≤ mp.ncols) (fuel : ℕ) (rnd : Rnd) :
    startRandom n fuel mp rnd = .error .fuel ∨
      ∃ mp' rnd', startRandom n fuel mp rnd = .ok (mp', rnd') ∧ Later n mp mp' ∧ ∀ j < n, Has mp' j := by
  obtain hrun | ⟨mp', rnd', hrun, hlater, hall⟩ :=
    random_fold (List.range n) (fun j hj => List.mem_range.mp hj) h hr hc fuel rnd
  · exact .inl hrun
  · exact .inr ⟨mp', rnd', hrun, hlater, fun j hj => hall j (List.mem_range.mpr hj)⟩

/-- With fewer threads than cells there is a cell for one more. -/
theorem Started.exists_free (h : Started n mp) (hr : 1 ≤ mp.nrows) (hc : 1 ≤ mp.ncols)
    (hn : (n : ℤ) < mp.nrows * mp.ncols) : ∃ p, mp.CellExists p ∧ (mp.cell p).visited = false := by
  by_contra hno
  simp only [not_exists, not_and, Bool.not_eq_false] at hno
  have hsub : mp.cells ⊆ (Finset.range n).image fun t => (mp.mcp t).start := by
    intro p hp
    have hp := Maze.mem_cells.mp hp
    obtain ⟨t, ht, _, hstart⟩ := h.thread p hp (hno p hp)
    exact Finset.mem_image.mpr ⟨t, Finset.mem_range.mpr ht, hstart⟩
  have hcard := (Finset.card_le_card hsub).trans Finset.card_image_le
  rw [Finset.card_range] at hcard
  have : (mp.cells.card : ℤ) = mp.nrows * mp.ncols := Maze.card_cells (by omega) (by omega)
  omega

/-- The random numbers that stand for `p`, and then others. -/
def draw (p : Rowcol) (rnd : Rnd) : Rnd
  | 0 => p.1.toNat
  | 1 => p.2.toNat
  | k + 2 => rnd k

theorem randomLoop_draw (ht : t < n) (hp : mp.CellExists p) (hfree : (mp.cell p).visited = false) (hno : ¬ Has mp t)
    (rnd : Rnd) : randomLoop n t 1 mp (draw p rnd) = .ok (mp.assign t p, rnd) := by
  have hdraw : ((draw p rnd 0 : ℤ) % mp.nrows, (draw p rnd 1 : ℤ) % mp.ncols) = p := by
    obtain ⟨h0, h1, h2, h3⟩ := hp
    simp only [draw, Int.toNat_of_nonneg h0, Int.toNat_of_nonneg h2, Int.emod_eq_of_lt h0 h1,
      Int.emod_eq_of_lt h2 h3]
  unfold randomLoop
  rw [hdraw, startAssign_eq ht hp, if_neg (by simp [hfree, hno])]
  rfl

theorem random_fold_some (l : List ℕ) (hl : ∀ j ∈ l, j < n) (h : Started n mp) (hr : 1 ≤ mp.nrows)
    (hc : 1 ≤ mp.ncols) (hn : (n : ℤ) < mp.nrows * mp.ncols) :
    ∃ rnd mp' rnd', l.foldlM (randomBody n 1) (mp, rnd) = .ok (mp', rnd') := by
  induction l generalizing mp with
  | nil => exact ⟨fun _ => 0, mp, _, rfl⟩
  | cons j l ih =>
    have hl' : ∀ k ∈ l, k < n := fun k hk => hl k (List.mem_cons_of_mem _ hk)
    by_cases hj : Has mp j
    · obtain ⟨rnd, mp', rnd', hrun⟩ := ih hl' h hr hc hn
      refine ⟨rnd, mp', rnd', ?_⟩
      rw [List.foldlM_cons, randomBody, if_neg hj]
      exact hrun
    · have hjn := hl j List.mem_cons_self
      obtain ⟨p, hp, hfree⟩ := h.exists_free hr hc hn
      obtain ⟨rnd, mp', rnd', hrun⟩ := ih hl' (h.assign hjn hp hfree hj) hr hc hn
      refine ⟨draw p rnd, mp', rnd', ?_⟩
      rw [List.foldlM_cons, randomBody, if_pos (not_not.mp hj), randomLoop_draw hjn hp hfree hj]
      exact hrun

/-- Some random numbers give every thread a start. -/
theorem startRandom_some (h : Started n mp) (hr : 1 ≤ mp.nrows) (hc : 1 ≤ mp.ncols)
    (hn : (n : ℤ) < mp.nrows * mp.ncols) : ∃ rnd mp' rnd', startRandom n 1 mp rnd = .ok (mp', rnd') :=
  random_fold_some _ (fun _ hj => List.mem_range.mp hj) h hr hc hn

/-! ### Stripes -/

/-- What the loop of a stripe does with one thread. -/
def stripeBody (n : ℕ) (place : ℤ → Except Halt Rowcol) (s : MazePart × ℤ) (j : ℕ) : Except Halt (MazePart × ℤ) :=
  if (s.1.mcp j).start.1 ≠ -1 then .ok s
  else do
    let p ← place s.2
    let (_, mp) ← startAssign n s.1 j p
    .ok (mp, s.2 + 1)

/-- The place is one in the maze. -/
def Inside (mp : MazePart) (x : Except Halt Rowcol) : Prop := ∃ p, x = .ok p ∧ mp.CellExists p

theorem stripeBody_has {place : ℤ → Except Halt Rowcol} (h : Has mp t) (i : ℤ) :
    stripeBody n place (mp, i) t = .ok (mp, i) := if_pos h

theorem stripeBody_ok {place : ℤ → Except Halt Rowcol} {i : ℤ} {b : Bool} (hno : ¬ Has mp t)
    (hp : place i = .ok p) (hrun : startAssign n mp t p = .ok (b, mp')) :
    stripeBody n place (mp, i) t = .ok (mp', i + 1) := by
  refine (if_neg hno).trans ?_
  simp only [hp, hrun, bind, Except.bind]

theorem stripeBody_error {place : ℤ → Except Halt Rowcol} {i : ℤ} {e : Halt} (hno : ¬ Has mp t)
    (hp : place i = .error e) : stripeBody n place (mp, i) t = .error e := by
  refine (if_neg hno).trans ?_
  simp only [hp, bind, Except.bind]

theorem stripeBody_outside {place : ℤ → Except Halt Rowcol} {i : ℤ} (hno : ¬ Has mp t) (hp : place i = .ok p)
    (hout : ¬ mp.CellExists p) : stripeBody n place (mp, i) t = .error .abort := by
  refine (if_neg hno).trans ?_
  simp only [hp, startAssign_outside hout, bind, Except.bind]

theorem without_congr {l : List ℕ} (h : ∀ j ∈ l, mp'.mcp j = mp.mcp j) : without mp' l = without mp l :=
  List.countP_congr fun j hj => by rw [h j hj]

/-- All places that the loop needs are in the maze. -/
def Room (mp : MazePart) (place : ℤ → Except Halt Rowcol) (i : ℤ) (m : ℕ) : Prop :=
  ∀ k < m, Inside mp (place (i + (k : ℕ)))

theorem room_succ {place : ℤ → Except Halt Rowcol} {i : ℤ} {m : ℕ} :
    Room mp place i (m + 1) ↔ Inside mp (place i) ∧ Room mp place (i + 1) m := by
  unfold Room
  have hshift : ∀ k : ℕ, i + (k + 1 : ℕ) = i + 1 + k := fun k => by omega
  constructor
  · intro h
    refine ⟨by simpa using h 0 (Nat.succ_pos m), fun k hk => ?_⟩
    rw [← hshift]
    exact h (k + 1) (by omega)
  · rintro ⟨h0, hrest⟩ k hk
    cases k with
    | zero => simpa using h0
    | succ k =>
      rw [hshift]
      exact hrest k (by omega)

theorem Later.room (h : Later n mp mp') {place : ℤ → Except Halt Rowcol} {i : ℤ} {m : ℕ} :
    Room mp' place i m ↔ Room mp place i m :=
  forall_congr' fun _ => imp_congr_right fun _ => exists_congr fun _ => and_congr_right fun _ => h.cellExists

/-- The loop ends, and all places it needs are in the maze; or it is halted, and one of them is not. -/
theorem stripe_fold {place : ℤ → Except Halt Rowcol} (hfuel : ∀ i, place i ≠ .error .fuel) (l : List ℕ)
    (hl : ∀ j ∈ l, j < n) (hnodup : l.Nodup) (h : Started n mp) (i : ℤ) :
    (∃ mp' i', l.foldlM (stripeBody n place) (mp, i) = .ok (mp', i') ∧ Later n mp mp' ∧
        Room mp place i (without mp l)) ∨
      ∃ e ≠ .fuel, l.foldlM (stripeBody n place) (mp, i) = .error e ∧ ¬ Room mp place i (without mp l) := by
  induction l generalizing mp i with
  | nil => exact .inl ⟨mp, i, rfl, .refl h, nofun⟩
  | cons j l ih =>
    have hl' : ∀ k ∈ l, k < n := fun k hk => hl k (List.mem_cons_of_mem _ hk)
    obtain ⟨hjl, hnodup⟩ := List.nodup_cons.mp hnodup
    rw [List.foldlM_cons]
    by_cases hj : Has mp j
    · have hcount : without mp (j :: l) = without mp l := List.countP_cons_of_neg (by simpa [Has] using hj)
      rw [stripeBody_has hj, hcount]
      exact ih hl' hnodup h i
    have hcount : without mp (j :: l) = without mp l + 1 :=
      List.countP_cons_of_pos (by simpa [Has] using hj)
    rw [hcount, room_succ]
    cases hp : place i with
    | error e =>
      rw [stripeBody_error hj hp]
      exact .inr ⟨e, fun he => hfuel i (he ▸ hp), rfl, fun ⟨⟨_, hq, _⟩, _⟩ => by cases hq⟩
    | ok p =>
      by_cases hcell : mp.CellExists p
      · -- the start of `j` does not change who of the others has one
        have hnext : ∀ mp₁ b, startAssign n mp j p = .ok (b, mp₁) → Later n mp mp₁ →
            (∀ k ≠ j, mp₁.mcp k = mp.mcp k) →
            (∃ mp' i', (stripeBody n place (mp, i) j >>= fun s => l.foldlM (stripeBody n place) s) = .ok (mp', i') ∧
              Later n mp mp' ∧ Inside mp (.ok p) ∧ Room mp place (i + 1) (without mp l)) ∨
            ∃ e ≠ .fuel, (stripeBody n place (mp, i) j >>= fun s => l.foldlM (stripeBody n place) s) = .error e ∧
              ¬ (Inside mp (.ok p) ∧ Room mp place (i + 1) (without mp l)) := by
          intro mp₁ b hrun hlater hsame
          have hrest := ih hl' hnodup hlater.started (i + 1)
          rw [without_congr fun k hk => hsame k (ne_of_mem_of_not_mem hk hjl), hlater.room] at hrest
          rw [stripeBody_ok hj hp hrun]
          exact hrest.imp
            (fun ⟨mp', i', hfold, hlater', hall⟩ => ⟨mp', i', hfold, hlater.trans hlater', ⟨p, rfl, hcell⟩, hall⟩)
            fun ⟨e, he, hfold, hout⟩ => ⟨e, he, hfold, fun hand => hout hand.2⟩
        obtain ⟨hrun, _⟩ | ⟨hrun, hlater⟩ := startAssign_spec h (hl j List.mem_cons_self) hcell
        · exact hnext mp false hrun (.refl h) fun _ _ => rfl
        · exact hnext _ true hrun hlater fun k hk => assign_mcp_ne hk
      · rw [stripeBody_outside hj hp hcell]
        refine .inr ⟨.abort, nofun, rfl, fun ⟨⟨q, hq, hqc⟩, _⟩ => hcell ?_⟩
        cases hq
        exact hqc

/-- **A stripe** ends if its places are in the maze. -/
theorem stripe_spec {place : ℤ → Except Halt Rowcol} (hfuel : ∀ i, place i ≠ .error .fuel) (h : Started n mp) :
    (∃ mp', stripe n place mp = .ok mp' ∧ Later n mp mp' ∧ Room mp place 1 (without mp (List.range n))) ∨
      ∃ e ≠ .fuel, stripe n place mp = .error e ∧ ¬ Room mp place 1 (without mp (List.range n)) := by
  have hstripe : stripe n place mp = (List.range n).foldlM (stripeBody n place) (mp, 1) >>= fun s => .ok s.1 := rfl
  rw [hstripe]
  obtain ⟨mp', i', hrun, hlater, hroom⟩ | ⟨e, he, hrun, hout⟩ :=
    stripe_fold hfuel (List.range n) (fun j hj => List.mem_range.mp hj) List.nodup_range h 1
  · exact .inl ⟨mp', by rw [hrun]; rfl, hlater, hroom⟩
  · exact .inr ⟨e, he, by rw [hrun]; rfl, hout⟩

end

end MazePart
end Perfbook
