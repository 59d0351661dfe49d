/-
# The list of visited cells while a maze is created

`maze_create` is linked with one of the solvers, which supplies
`maze_try_visit_cell` and the distances: `maze_seq.c`, `maze_fg.c` or
`maze_part.c` (which has no thread of its own yet, `mymcp == NULL`). The cells
that were visited are listed in `visited`, and `vi` counts them.

Here `maze_create` takes one step for each call that can visit a cell, and what
is drawn at random is up to the action. `stores` are the indexes that were
stored to.

`maze_visit_cell` stores at `vi` and then increments it, and so do
`maze_try_visit_cell` of `maze_seq.c` and `maze_part.c`. That of `maze_fg.c`
increments first, which suits its own solver, whose `vi` is the index of the
last cell. So it leaves out an index, and the last cell is stored behind the
end. The list is exact as long as no call of it visits a cell.

Key definitions: `File`, `Creating`, `Loc`, `next`, `sys`, `Exact`, `Good`.
Key theorems: `Exact.append`, `Exact.lt_size`, `tryVisitCell_appended`, `visited_exact`.
-/
import Perfbook.Conc.Sys
import Perfbook.Maze.Create

namespace Perfbook
namespace Maze
namespace Visited

open Conc

/-- The file that supplies `maze_try_visit_cell`. -/
inductive File
  | seq
  | fg
  | part
deriving DecidableEq

/-- Where `maze_create` is. -/
inductive Loc
  /-- before `maze_visit_cell` for the start cell -/
  | start (p : Rowcol)
  /-- calls of `maze_try_visit_cell` for the cells `ts`, with distance `d`, until one visits -/
  | tryCells (prev cur : Rowcol) (d : ℕ) (ts : List Rowcol)
  /-- before `maze_build_cell_walls` -/
  | walls (prev cur next : Rowcol)
  /-- before `maze_choose_next_cell` -/
  | choose (prev cur : Rowcol)
  /-- before `maze_find_boundary` -/
  | boundary
  /-- in its loop -/
  | look (viLim viStart vi : ℕ)
  /-- after the loop of `maze_create` -/
  | finished

structure Creating extends Maze where
  /-- the distances of `maze_parallel.h` -/
  distance : Rowcol → ℕ
  /-- the indexes of `visited` that were stored to -/
  stores : List ℕ
  loc : Loc

/-- What is drawn at random: at the choice of a next cell to stop, to turn, or neither (`step`),
and for a new segment the place where the search begins and the cell. -/
inductive Act
  | step
  | stop
  | turn (flip : Bool)
  | search (vi : ℕ)
  | pick (q : Rowcol)

variable (file : File) (s : Creating)

def getDistance (p : Rowcol) : Option ℕ :=
  match file with
  | .seq => s.getCellDistance p
  | _ => if s.CellExists p then some (s.distance p) else none

def setDistance (p : Rowcol) (d : ℕ) : Option Creating :=
  match file with
  | .seq => (s.setCellDistance p d).map fun mp => { s with toMaze := mp }
  | _ => if s.CellExists p then some { s with distance := Function.update s.distance p d } else none

/-- The store of `p` to `visited[i]`. -/
def store (i : ℕ) (p : Rowcol) : Creating :=
  { s with visited := Function.update s.visited i p, stores := i :: s.stores }

/-- `VISITED` is set in a cell. -/
def mark (p : Rowcol) : Option Creating := do
  let c ← s.getCell p
  let mp ← s.setCell p { c with visited := true }
  some { s with toMaze := mp }

/-- `maze_visit_cell`. -/
def visitCell (p : Rowcol) (d : ℕ) : Option Creating := do
  let c ← s.getCell p
  if c.visited then none
  else if (s.vi : ℤ) ≥ s.nrows * s.ncols then none
  else
    let s := { store s s.vi p with vi := s.vi + 1 }
    let s ← mark s p
    setDistance file s p d

/-- `maze_try_visit_cell`; `some none` is that it visits nothing. -/
def tryVisitCell (cur t : Rowcol) (d : ℕ) : Option (Option Creating) := do
  let connected ← s.cellsConnected cur t
  if !connected then some none
  else
    let visited ← s.cellVisited t
    if visited then some none
    else
      match file with
      | .seq =>
        let s ← visitCell .seq s t d
        some (some s)
      | .fg =>
        let s ← mark s t
        let s ← setDistance .fg s t d
        -- the index is the incremented one
        some (some (store { s with vi := s.vi + 1 } (s.vi + 1) t))
      | .part =>
        let s ← mark s t
        let s ← setDistance .part s t d
        some (some (store { s with vi := s.vi + 1 } s.vi t))

/-- The neighbours, in the order of `maze_find_any_next_cell`. -/
def anyNextCell (cur : Rowcol) : List Rowcol :=
  [(cur.1, cur.2 - 1), (cur.1, cur.2 + 1), (cur.1 - 1, cur.2), (cur.1 + 1, cur.2)]

/-- The neighbours in the order of `maze_find_boundary`. -/
def boundaryCells (p : Rowcol) : List Rowcol :=
  [(p.1 - 1, p.2), (p.1 + 1, p.2), (p.1, p.2 - 1), (p.1, p.2 + 1)]

def goto (l : Loc) : Creating := { s with loc := l }

/-- `maze_choose_next_cell`, when it does not stop: the cells `turns` before the way straight on,
and then any. -/
def chooseFrom (prev cur : Rowcol) (turns : List Rowcol) : Option Creating := do
  let d ← getDistance file s cur
  let straight := (cur.1 + (cur.1 - prev.1), cur.2 + (cur.2 - prev.2))
  some (goto s (.tryCells prev cur (d + 1) (turns ++ [straight] ++ anyNextCell cur)))

/-- What `maze_create` does next. -/
def next (a : Act) (s : Creating) : Option Creating :=
  match s.loc, a with
  | .start p, .step => do
    let s ← visitCell file s p 1
    let d ← getDistance file s p
    some (goto s (.tryCells p p (d + 1) (anyNextCell p)))
  | .tryCells _ _ _ [], .step => some (goto s .boundary)
  | .tryCells prev cur d (t :: ts), .step => do
    match ← tryVisitCell file s cur t d with
    | some s => some (goto s (.walls prev cur t))
    | none => some (goto s (.tryCells prev cur d ts))
  | .walls prev cur next, .step => do
    let mp ← s.buildCellWalls prev cur next
    some (goto { s with toMaze := mp } (.choose cur next))
  | .choose prev cur, .stop => do
    let mp ← s.buildCellWalls prev cur prev
    some (goto { s with toMaze := mp } .boundary)
  | .choose prev cur, .turn flip =>
    let dr := if flip then cur.2 - prev.2 else -(cur.2 - prev.2)
    let dc := if flip then -(cur.1 - prev.1) else cur.1 - prev.1
    if prev ≠ cur then
      chooseFrom file s prev cur [(cur.1 + dr, cur.2 + dc), (cur.1 - dr, cur.2 - dc)]
    else none
  | .choose prev cur, .step => chooseFrom file s prev cur []
  | .boundary, .search vi =>
    if vi < s.vi ∨ s.lastvi = some vi then some (goto s (.look s.vi vi vi)) else none
  | .look _ _ vi, .pick q => do
    let p := s.visited vi
    let visited ← s.cellVisited q
    if q ∉ boundaryCells p ∨ visited then none
    else
      let d ← getDistance file s p
      let mp ← s.removeWall p q
      let s ← visitCell file { s with toMaze := mp } q (d + 1)
      some (goto { s with lastvi := some vi } (.choose p q))
  | .look viLim viStart vi, .step =>
    if ∃ q ∈ boundaryCells (s.visited vi), s.cellVisited q ≠ some true then none
    else
      let vi := if vi + 1 ≥ s.vi then 0 else vi + 1
      if viLim ≠ s.vi then none
      else some (goto s (if vi ≠ viStart then .look viLim viStart vi else .finished))
  | _, _ => none

/-- `maze_create` has an empty maze. -/
def Init (s : Creating) : Prop :=
  ∃ visited cell nrows ncols p, newEmptyMaze visited cell nrows ncols = some s.toMaze ∧
    s.stores = [] ∧ s.loc = .start p

def sys : Sys Creating Act := ⟨Init, next file⟩

/-- The first `vi` entries list exactly the cells that were visited, each once. -/
structure Exact (mp : Maze) : Prop where
  inside : ∀ i < mp.vi, mp.CellExists (mp.visited i)
  inj : ∀ i < mp.vi, ∀ j < mp.vi, mp.visited i = mp.visited j → i = j
  bit : ∀ p, mp.CellExists p → ((mp.cell p).visited = true ↔ ∃ i < mp.vi, mp.visited i = p)

/-- The list is exact, and all stores were inside the array. -/
structure Good (s : Creating) : Prop where
  exact : Exact s.toMaze
  stores : ∀ i ∈ s.stores, (i : ℤ) < s.nrows * s.ncols

/-- The step is a call of `maze_try_visit_cell` that visits a cell. -/
def visits : Act → Creating → Bool
  | .step, s =>
    match s.loc with
    | .tryCells _ cur _ (t :: _) => s.cellsConnected cur t = some true && s.cellVisited t = some false
    | _ => false
  | _, _ => false

/-- In `maze_fg.c` no call of `maze_try_visit_cell` visits a cell. -/
def Spared (file : File) (a : Act) (s : Creating) : Prop := file = .fg → visits a s = false

instance (a : Act) (s : Creating) : Decidable (Spared file a s) :=
  inferInstanceAs (Decidable (_ → _))

variable {file : File} {s s' : Creating} {mp mp' : Maze} {p q cur prev next' : Rowcol} {d : ℕ}

/-! ### Appending a cell -/

theorem Exact.append (h : Exact mp) (hp : mp.CellExists p) (hv : (mp.cell p).visited = false)
    (hr : mp'.nrows = mp.nrows) (hc : mp'.ncols = mp.ncols) (hvi : mp'.vi = mp.vi + 1)
    (hvis : mp'.visited = Function.update mp.visited mp.vi p)
    (hbit : ∀ q, (mp'.cell q).visited = if q = p then true else (mp.cell q).visited) : Exact mp' := by
  have hexists : ∀ q, mp'.CellExists q ↔ mp.CellExists q := fun q => by
    rw [CellExists, CellExists, hr, hc]
  have hold : ∀ i < mp.vi, mp'.visited i = mp.visited i := fun i hi => by
    rw [hvis, Function.update_of_ne (Nat.ne_of_lt hi)]
  have hnew : mp'.visited mp.vi = p := by rw [hvis, Function.update_self]
  have hne : ∀ i < mp.vi, mp.visited i ≠ p := fun i hi he => by
    have := (h.bit p hp).mpr ⟨i, hi, he⟩
    rw [hv] at this
    cases this
  have hcases : ∀ i < mp'.vi, i < mp.vi ∨ i = mp.vi := fun i hi => by omega
  refine ⟨fun i hi => ?_, fun i hi j hj he => ?_, fun q hq => ?_⟩
  · rw [hexists]
    rcases hcases i hi with hi | rfl
    · rw [hold i hi]
      exact h.inside i hi
    · rwa [hnew]
  · rcases hcases i hi with hi | rfl <;> rcases hcases j hj with hj | rfl
    · rw [hold i hi, hold j hj] at he
      exact h.inj i hi j hj he
    · rw [hold i hi, hnew] at he
      exact absurd he (hne i hi)
    · rw [hold j hj, hnew] at he
      exact absurd he.symm (hne j hj)
    · rfl
  · rw [hbit]
    split
    · rename_i hqp
      exact iff_of_true rfl ⟨mp.vi, by omega, hnew.trans hqp.symm⟩
    · rename_i hqp
      rw [h.bit q ((hexists q).mp hq)]
      constructor
      · rintro ⟨i, hi, rfl⟩
        exact ⟨i, by omega, hold i hi⟩
      · rintro ⟨i, hi, rfl⟩
        rcases hcases i hi with hi | rfl
        · exact ⟨i, hi, (hold i hi).symm⟩
        · exact absurd hnew hqp

/-- With a cell that was not visited, there is room for one more entry. -/
theorem Exact.lt_size (h : Exact mp) (hp : mp.CellExists p) (hv : (mp.cell p).visited = false) :
    (mp.vi : ℤ) < mp.nrows * mp.ncols := by
  refine vi_lt_size h.inside h.inj hp fun i hi hip => ?_
  have := (h.bit p hp).mpr ⟨i, hi, hip⟩
  rw [hv] at this
  cases this

/-! ### What the calls do -/

/-- No cell was visited, and nothing was stored. -/
structure Same (s s' : Creating) : Prop where
  nrows : s'.nrows = s.nrows
  ncols : s'.ncols = s.ncols
  visited : s'.visited = s.visited
  vi : s'.vi = s.vi
  bit : ∀ q, (s'.cell q).visited = (s.cell q).visited
  stores : s'.stores = s.stores

/-- The cell `p` was visited, and stored at `vi`. -/
structure Appended (p : Rowcol) (s s' : Creating) : Prop where
  inside : s.CellExists p
  fresh : (s.cell p).visited = false
  nrows : s'.nrows = s.nrows
  ncols : s'.ncols = s.ncols
  visited : s'.visited = Function.update s.visited s.vi p
  vi : s'.vi = s.vi + 1
  bit : ∀ q, (s'.cell q).visited = if q = p then true else (s.cell q).visited
  stores : s'.stores = s.vi :: s.stores

theorem Same.trans {s'' : Creating} (h : Same s s') (h' : Same s' s'') : Same s s'' :=
  ⟨h'.nrows.trans h.nrows, h'.ncols.trans h.ncols, h'.visited.trans h.visited, h'.vi.trans h.vi,
    fun q => (h'.bit q).trans (h.bit q), h'.stores.trans h.stores⟩

theorem Good.same (h : Good s) (hs : Same s s') : Good s' := by
  have hexists : ∀ q, s'.CellExists q ↔ s.CellExists q := fun q => by
    rw [CellExists, CellExists, hs.nrows, hs.ncols]
  refine ⟨⟨fun i hi => ?_, fun i hi j hj he => ?_, fun p hp => ?_⟩, fun i hi => ?_⟩
  · rw [hs.visited, hexists]
    exact h.exact.inside i (hs.vi ▸ hi)
  · rw [hs.visited] at he
    exact h.exact.inj i (hs.vi ▸ hi) j (hs.vi ▸ hj) he
  · rw [hs.visited, hs.vi, hs.bit]
    exact h.exact.bit p ((hexists p).mp hp)
  · rw [hs.nrows, hs.ncols]
    exact h.stores i (hs.stores ▸ hi)

theorem Good.append (h : Good s) (hs : Appended p s s') : Good s' where
  exact := h.exact.append hs.inside hs.fresh hs.nrows hs.ncols hs.vi hs.visited hs.bit
  stores i hi := by
    rw [hs.nrows, hs.ncols]
    rw [hs.stores] at hi
    rcases List.mem_cons.mp hi with rfl | hi
    · exact h.exact.lt_size hs.inside hs.fresh
    · exact h.stores i hi

theorem same_setCell {c : Cell} (hc : c.visited = (mp.cell p).visited)
    (h : mp.setCell p c = some mp') : Same { s with toMaze := mp } { s with toMaze := mp' } := by
  rw [setCell, Option.ite_none_right_eq_some] at h
  obtain rfl := Option.some.inj h.2
  refine ⟨rfl, rfl, rfl, rfl, fun q => ?_, rfl⟩
  by_cases hq : q = p
  · subst hq
    simpa using hc
  · simp [hq]

theorem same_setWallbit {b : Bool} (h : mp.setWallbit p q b = some mp') :
    Same { s with toMaze := mp } { s with toMaze := mp' } := by
  rw [setWallbit] at h
  obtain ⟨bit, -, h⟩ := Option.bind_eq_some_iff.mp h
  obtain ⟨c, hc, h⟩ := Option.bind_eq_some_iff.mp h
  rw [getCell, Option.ite_none_right_eq_some] at hc
  exact same_setCell (by rw [← Option.some.inj hc.2]) h

theorem same_removeWall (h : mp.removeWall p q = some mp') :
    Same { s with toMaze := mp } { s with toMaze := mp' } := by
  obtain ⟨m, h1, h2⟩ := Option.bind_eq_some_iff.mp h
  exact (same_setWallbit h1).trans (same_setWallbit h2)

theorem same_buildOneCellWall (h : mp.buildOneCellWall p prev cur next' = some mp') :
    Same { s with toMaze := mp } { s with toMaze := mp' } := by
  have hrefl : Same { s with toMaze := mp } { s with toMaze := mp } :=
    ⟨rfl, rfl, rfl, rfl, fun _ => rfl, rfl⟩
  rw [buildOneCellWall] at h
  split at h
  · exact Option.some.inj h ▸ hrefl
  split at h
  · exact Option.some.inj h ▸ hrefl
  split at h
  · obtain ⟨m, h1, h2⟩ := Option.bind_eq_some_iff.mp h
    exact (same_setWallbit h1).trans (same_setWallbit h2)
  · exact Option.some.inj h ▸ hrefl

theorem same_buildCellWalls (h : mp.buildCellWalls prev cur next' = some mp') :
    Same { s with toMaze := mp } { s with toMaze := mp' } := by
  obtain ⟨m1, h1, h⟩ := Option.bind_eq_some_iff.mp h
  obtain ⟨m2, h2, h⟩ := Option.bind_eq_some_iff.mp h
  obtain ⟨m3, h3, h⟩ := Option.bind_eq_some_iff.mp h
  exact ((same_buildOneCellWall h1).trans (same_buildOneCellWall h2)).trans
    ((same_buildOneCellWall h3).trans (same_buildOneCellWall h))

theorem same_setDistance (h : setDistance file s p d = some s') : Same s s' := by
  cases file with
  | seq =>
    obtain ⟨mp, hm, rfl⟩ := Option.map_eq_some_iff.mp h
    obtain ⟨c, hc, hm⟩ := Option.bind_eq_some_iff.mp hm
    rw [Option.ite_none_left_eq_some] at hm
    rw [getCell, Option.ite_none_right_eq_some] at hc
    exact same_setCell (s := s) (by rw [← Option.some.inj hc.2]) hm.2
  | fg | part =>
    rw [setDistance, Option.ite_none_right_eq_some] at h
    · exact Option.some.inj h.2 ▸ ⟨rfl, rfl, rfl, rfl, fun _ => rfl, rfl⟩
    · exact nofun

/-- Setting `VISITED` in a cell. -/
theorem mark_eq (h : mark s p = some s') : s.CellExists p ∧ s' = { s with
    cell := Function.update s.cell p { s.cell p with visited := true } } := by
  obtain ⟨c, hc, h⟩ := Option.bind_eq_some_iff.mp h
  obtain ⟨mp, hm, h⟩ := Option.bind_eq_some_iff.mp h
  rw [getCell, Option.ite_none_right_eq_some] at hc
  rw [setCell, if_pos hc.1] at hm
  obtain rfl := Option.some.inj hc.2
  obtain rfl := Option.some.inj hm
  exact ⟨hc.1, (Option.some.inj h).symm⟩

theorem mark_bit (h : mark s p = some s') (q : Rowcol) :
    (s'.cell q).visited = if q = p then true else (s.cell q).visited := by
  rw [(mark_eq h).2]
  by_cases hq : q = p
  · simp [hq]
  · simp [hq]

/-- **`maze_visit_cell` appends the cell.** -/
theorem visitCell_appended (h : visitCell file s p d = some s') : Appended p s s' := by
  obtain ⟨c, hc, h⟩ := Option.bind_eq_some_iff.mp h
  rw [getCell, Option.ite_none_right_eq_some] at hc
  obtain ⟨hp, hc⟩ := hc
  obtain rfl := Option.some.inj hc
  rw [Option.ite_none_left_eq_some, Option.ite_none_left_eq_some] at h
  obtain ⟨hv, -, h⟩ := h
  obtain ⟨s₁, h1, h2⟩ := Option.bind_eq_some_iff.mp h
  have hs := same_setDistance h2
  have hm := (mark_eq h1).2
  exact ⟨hp, Bool.eq_false_iff.mpr hv, by rw [hs.nrows, hm]; rfl, by rw [hs.ncols, hm]; rfl,
    by rw [hs.visited, hm]; rfl, by rw [hs.vi, hm], fun q => (hs.bit q).trans (mark_bit h1 q),
    by rw [hs.stores, hm]; rfl⟩

/-- **`maze_try_visit_cell` appends the cell that it visits**, but in `maze_fg.c`. -/
theorem tryVisitCell_appended {t : Rowcol} (h : tryVisitCell file s cur t d = some (some s')) :
    s.cellsConnected cur t = some true ∧ s.cellVisited t = some false ∧
      (file ≠ .fg → Appended t s s') := by
  obtain ⟨connected, hconn, h⟩ := Option.bind_eq_some_iff.mp h
  cases connected with
  | false => cases h
  | true =>
    rw [if_neg (by decide)] at h
    obtain ⟨visited, hvis, h⟩ := Option.bind_eq_some_iff.mp h
    cases visited with
    | true => cases h
    | false =>
      refine ⟨hconn, hvis, fun hfile => ?_⟩
      rw [if_neg (by decide)] at h
      cases file with
      | fg => exact absurd rfl hfile
      | seq =>
        obtain ⟨s₁, h1, h⟩ := Option.bind_eq_some_iff.mp h
        obtain rfl := Option.some.inj (Option.some.inj h)
        exact visitCell_appended h1
      | part =>
        obtain ⟨s₁, h1, h⟩ := Option.bind_eq_some_iff.mp h
        obtain ⟨s₂, h2, h⟩ := Option.bind_eq_some_iff.mp h
        obtain rfl := Option.some.inj (Option.some.inj h)
        have hs := same_setDistance h2
        obtain ⟨hp, hm⟩ := mark_eq h1
        have hv : (s.cell t).visited = false := by
          rw [cellVisited_eq hp] at hvis
          exact Option.some.inj hvis
        exact ⟨hp, hv, by rw [store]; exact hs.nrows.trans (by rw [hm]),
          by rw [store]; exact hs.ncols.trans (by rw [hm]),
          by simp only [store, hs.visited, hs.vi, hm], by simp only [store, hs.vi, hm],
          fun q => (hs.bit q).trans (mark_bit h1 q), by simp only [store, hs.stores, hs.vi, hm]⟩

/-! ### A whole creation -/

/-- **Every step keeps the list exact.** -/
theorem good_next {a : Act} (h : Good s) (hok : Spared file a s) (hn : next file a s = some s') :
    Good s' := by
  have hgoto : ∀ {s : Creating} {l : Loc}, Good s → Good (goto s l) := fun h =>
    h.same ⟨rfl, rfl, rfl, rfl, fun _ => rfl, rfl⟩
  have hchoose : ∀ {prev cur turns}, chooseFrom file s prev cur turns = some s' → Good s' :=
    fun hc => by
      obtain ⟨d, -, hc⟩ := Option.bind_eq_some_iff.mp hc
      exact Option.some.inj hc ▸ hgoto h
  unfold next at hn
  split at hn
  · obtain ⟨s₁, h1, hn⟩ := Option.bind_eq_some_iff.mp hn
    obtain ⟨d, -, hn⟩ := Option.bind_eq_some_iff.mp hn
    exact Option.some.inj hn ▸ hgoto (h.append (visitCell_appended h1))
  · exact Option.some.inj hn ▸ hgoto h
  · rename_i prev cur d t ts hl
    obtain ⟨r, h1, hn⟩ := Option.bind_eq_some_iff.mp hn
    cases r with
    | none => exact Option.some.inj hn ▸ hgoto h
    | some s₁ =>
      obtain ⟨hconn, hvis, happ⟩ := tryVisitCell_appended h1
      have hfile : file ≠ .fg := fun hf => by
        have hno := hok hf
        rw [visits, hl] at hno
        dsimp only at hno
        rw [hconn, hvis] at hno
        cases hno
      exact Option.some.inj hn ▸ hgoto (h.append (happ hfile))
  · obtain ⟨mp, h1, hn⟩ := Option.bind_eq_some_iff.mp hn
    exact Option.some.inj hn ▸ hgoto (h.same (same_buildCellWalls (s := s) h1))
  · obtain ⟨mp, h1, hn⟩ := Option.bind_eq_some_iff.mp hn
    exact Option.some.inj hn ▸ hgoto (h.same (same_buildCellWalls (s := s) h1))
  · dsimp only at hn
    split at hn
    · exact hchoose hn
    · cases hn
  · exact hchoose hn
  · split at hn
    · exact Option.some.inj hn ▸ hgoto h
    · cases hn
  · obtain ⟨b, -, hn⟩ := Option.bind_eq_some_iff.mp hn
    rw [Option.ite_none_left_eq_some] at hn
    obtain ⟨d, -, hn⟩ := Option.bind_eq_some_iff.mp hn.2
    obtain ⟨mp, h1, hn⟩ := Option.bind_eq_some_iff.mp hn
    obtain ⟨s₁, h2, hn⟩ := Option.bind_eq_some_iff.mp hn
    have h1 := h.same (same_removeWall (s := s) h1)
    have h2 := h1.append (visitCell_appended h2)
    exact Option.some.inj hn ▸ h2.same ⟨rfl, rfl, rfl, rfl, fun _ => rfl, rfl⟩
  · rw [Option.ite_none_left_eq_some] at hn
    dsimp only at hn
    rw [Option.ite_none_left_eq_some] at hn
    exact Option.some.inj hn.2.2 ▸ hgoto h
  · cases hn

theorem good_init (h : Init s) : Good s := by
  obtain ⟨visited, cell, nrows, ncols, p, hnew, hstores, -⟩ := h
  have hsize : 1 ≤ nrows ∧ 1 ≤ ncols := by
    rw [newEmptyMaze, Option.ite_none_left_eq_some] at hnew
    omega
  obtain ⟨mp, hnew', hr, hc, hvi, -, hb⟩ := newEmptyMaze_spec visited cell hsize.1 hsize.2
  obtain rfl := Option.some.inj (hnew'.symm.trans hnew)
  refine ⟨⟨fun i hi => ?_, fun i hi => ?_, fun p hp => ?_⟩, fun i hi => ?_⟩
  · omega
  · omega
  · rw [(hb p hp).1]
    exact iff_of_false nofun fun ⟨i, hi, _⟩ => by omega
  · rw [hstores] at hi
    cases hi

/-- **The list of visited cells is exact** in every run in which no call of
`maze_try_visit_cell` of `maze_fg.c` visits a cell. -/
theorem visited_exact (h : (sys file).Reach (Spared file) s) : Good s :=
  h.inv (fun _ => good_init) fun _ _ _ hi hok hn => good_next hi hok hn

/-! ### Two runs -/

/-- A maze of one row and two columns, in fresh memory. -/
def fresh : Option Creating :=
  (newEmptyMaze (fun _ => (7, 7)) (fun _ => ⟨fun _ => true, true, true, 9⟩) 1 2).map fun mp =>
    ⟨mp, fun _ => 0, [], .start (0, 0)⟩

theorem reach_of_fresh (file : File) (ok : Act → Creating → Prop) [∀ a s, Decidable (ok a s)]
    (as : List Act) {α : Type} (f : Creating → α) (x : α)
    (h : (fresh.bind fun s => (sys file).run ok as s).map f = some x) :
    ∃ s, (sys file).Reach ok s ∧ f s = x := by
  obtain ⟨s, hs, hx⟩ := Option.map_eq_some_iff.mp h
  obtain ⟨s₀, h0, hs⟩ := Option.bind_eq_some_iff.mp hs
  obtain ⟨mp, hmp, rfl⟩ := Option.map_eq_some_iff.mp h0
  exact ⟨s, Sys.run_reach (.init ⟨_, _, _, _, _, hmp, rfl, rfl⟩) hs, hx⟩

/-- With `maze_part.c`: the second cell is listed second. -/
theorem visited_exact_run : ∃ s, (sys .part).Reach (Spared .part) s ∧
    (s.stores, s.vi, s.visited 1) = ([1, 0], 2, (0, 1)) ∧ Good s := by
  obtain ⟨s, hs, hd⟩ := reach_of_fresh .part (Spared .part) [.step, .step, .step]
    (fun s => (s.stores, s.vi, s.visited 1)) ([1, 0], 2, (0, 1)) (by decide)
  exact ⟨s, hs, hd, visited_exact hs⟩

/-- With `maze_fg.c`: it is stored behind the end, and the entry before that is what memory held. -/
theorem visited_off : ∃ s, (sys .fg).Reach Sys.always s ∧
    (s.stores, s.nrows * s.ncols, s.vi, s.visited 1) = ([2, 0], 2, 2, (7, 7)) ∧
      ¬ Exact s.toMaze ∧ ¬ Good s := by
  obtain ⟨s, hs, hd⟩ := reach_of_fresh .fg Sys.always [.step, .step, .step]
    (fun s => (s.stores, s.nrows * s.ncols, s.vi, s.visited 1, s.nrows)) ([2, 0], 2, 2, (7, 7), 1)
    (by decide)
  obtain ⟨hstores, hsize, hvi, hvis, hrows⟩ : s.stores = [2, 0] ∧ s.nrows * s.ncols = 2 ∧ s.vi = 2 ∧
      s.visited 1 = (7, 7) ∧ s.nrows = 1 := by simpa using hd
  refine ⟨s, hs, by rw [hstores, hsize, hvi, hvis], fun h => ?_, fun h => ?_⟩
  · have hin := h.inside 1 (by rw [hvi]; omega)
    rw [hvis, CellExists, hrows] at hin
    omega
  · have hin := h.stores 2 (by rw [hstores]; simp)
    rw [hsize] at hin
    omega

end Visited
end Maze
end Perfbook
