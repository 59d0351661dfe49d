/-
# `SMPdesign/maze/maze_seq.c`: solving a maze

`maze_solve` visits the start and goes on from cell to cell. From a cell it goes
to any neighbour that was not visited (`findAnyNextCell`) as far as it gets, and
then comes back to the cell in the list of visited cells where it had started
from; when that has no more neighbours to visit, the next cell of the list is
taken. Each visited cell has the distance of the one it was visited from, and
one more. At the end cell `maze_mark_solution` goes back along the distances.

`maze_same_tids` is always 1 in this file. The functions have the names of the
source without `maze_`, `none` is `ABORT`, and loops without a bound have fuel.

Key definitions: `isPrevCell`, `markLoop`, `solveLoop`, `solve`.
-/
import Perfbook.Maze.Visited

namespace Perfbook
namespace Maze

section

variable (mp : Maze)

/-- `maze_is_prev_cell`. -/
def isPrevCell (p q : Rowcol) : Option Bool := do
  let connected ← mp.cellsConnected p q
  if !connected then some false
  else
    let d₁ ← mp.getCellDistance p
    let d₂ ← mp.getCellDistance q
    some ((d₁ : ℤ) - d₂ = 1)

/-- Calls of `maze_is_prev_cell` for one cell after the other, until one holds. -/
def prevCell (cur : Rowcol) : List Rowcol → Option (Option Rowcol)
  | [] => some none
  | q :: qs => do
    if ← mp.isPrevCell cur q then some (some q) else prevCell cur qs

/-- `SOLUTION` is set in a cell. -/
def markCell (p : Rowcol) : Option Maze := do
  let c ← mp.getCell p
  mp.setCell p { c with solution := true }

end

/-- The loop of `maze_mark_solution`; it returns the distance of the end. -/
def markLoop (start end_ : Rowcol) : ℕ → Maze → Rowcol → Option (ℕ × Maze)
  | 0, _, _ => none
  | fuel + 1, mp, cur => do
    let mp ← mp.markCell cur
    if cur = start then
      let d ← mp.getCellDistance end_
      some (d, mp)
    else
      match ← mp.prevCell cur
        [(cur.1 - 1, cur.2), (cur.1 + 1, cur.2), (cur.1, cur.2 - 1), (cur.1, cur.2 + 1)] with
      | some q => markLoop start end_ fuel mp q
      | none => none

/-- The loops of `maze_solve`, before a call of `maze_find_any_next_cell` for `cur`: that of the
`do` loop if `inner`, else that of the `while` loop. -/
def solveLoop (start end_ : Rowcol) : ℕ → Maze → ℕ → Rowcol → Bool → Option (ℕ × Maze)
  | 0, _, _, _, _ => none
  | fuel + 1, mp, vi, cur, inner => do
    match ← mp.findAnyNextCell cur with
    | some (next, mp) =>
      if next = end_ then markLoop start end_ fuel mp end_
      else solveLoop start end_ fuel mp vi next true
    | none =>
      if inner then solveLoop start end_ fuel mp vi (mp.visited vi) false
      else if vi + 1 ≥ mp.vi then some (0, mp)
      else solveLoop start end_ fuel mp (vi + 1) (mp.visited (vi + 1)) false

/-- `maze_solve`. -/
def solve (fuel : ℕ) (mp : Maze) (start end_ : Rowcol) : Option (ℕ × Maze) := do
  let mp ← mp.visitCell start 1
  solveLoop start end_ fuel mp 0 start false

/-! ### The search -/

/-- `q` is next to `p`, and there is no wall in between. -/
def Opens (mp : Maze) (p q : Rowcol) : Prop :=
  ∃ d, q = step p d ∧ mp.CellExists p ∧ mp.CellExists q ∧ (mp.cell p).wall d = false

variable {mp mp' : Maze} {p q cur start end_ : Rowcol} {d : Side} {i j vi fuel : ℕ}

theorem Opens.symm (h : mp.Opens p q) (hs : mp.Symmetric) : mp.Opens q p := by
  obtain ⟨d, rfl, hp, hq, hw⟩ := h
  exact ⟨d.opp, (step_opp p d).symm, hq, hp, (hs p d hp hq).trans hw⟩

/-- The list of visited cells is exact, each but the first was visited from an earlier one, and the
cells that were not visited have no distance. -/
structure Search (start : Rowcol) (mp : Maze) : Prop where
  size : mp.nrows * mp.ncols ≤ cookieMask
  symm : mp.Symmetric
  exact : Visited.Exact mp
  pos : 0 < mp.vi
  first : mp.visited 0 = start
  one : (mp.cell start).cookie = 1
  fresh : ∀ p, mp.CellExists p → (mp.cell p).visited = false → Cleared (mp.cell p)
  unmarked : ∀ p, mp.CellExists p → (mp.cell p).solution = false
  dist : ∀ i < mp.vi, (mp.cell (mp.visited i)).cookie ≤ i + 1
  parent : ∀ i < mp.vi, 0 < i → ∃ j < i, mp.Opens (mp.visited j) (mp.visited i) ∧
    (mp.cell (mp.visited i)).cookie = (mp.cell (mp.visited j)).cookie + 1

/-- All neighbours of `p` that can be reached from it were visited. -/
def Explored (mp : Maze) (p : Rowcol) : Prop := ∀ d, ¬ mp.CanGo p d

/-- The order of the calls in `maze_find_any_next_cell`. -/
def nextSides : List Side := [.left, .right, .up, .down]

theorem findAnyNextCell_eq (h : mp.CellExists cur) : mp.findAnyNextCell cur =
    mp.tryVisitCells cur ((mp.cell cur).cookie + 1) (nextSides.map (step cur)) := by
  rw [findAnyNextCell, getCellDistance_eq h]
  rfl

namespace Search

theorem cookie_le (h : Search start mp) (hi : i < mp.vi) :
    (mp.cell (mp.visited i)).cookie ≤ mp.vi := (h.dist i hi).trans hi

/-- A call of `maze_find_any_next_cell` for a visited cell. -/
theorem findAnyNextCell (h : Search start mp) (hi : i < mp.vi) :
    (mp.findAnyNextCell (mp.visited i) = some none ∧ mp.Explored (mp.visited i)) ∨
      ∃ d, mp.CanGo (mp.visited i) d ∧ mp.findAnyNextCell (mp.visited i) =
        some (some (step (mp.visited i) d,
          mp.visit (step (mp.visited i) d) ((mp.cell (mp.visited i)).cookie + 1))) := by
  rw [findAnyNextCell_eq (h.exact.inside i hi)]
  refine (tryVisitCells_spec (h.exact.inside i hi) (fun d hd => ?_) nextSides).imp
    (fun hn => ⟨hn.1, fun d => hn.2 d (by cases d <;> decide)⟩) id
  have hlt := h.exact.lt_size hd.1 hd.2.1
  have hle := h.cookie_le hi
  have hsize := h.size
  exact ⟨hlt, by omega⟩

theorem opens_visit {n : ℕ} {a b c : Rowcol} : (mp.visit c n).Opens a b ↔ mp.Opens a b := by
  unfold Opens
  rw [visit_wall]
  exact Iff.rfl

/-- **A visit keeps the search in order.** -/
theorem visit (h : Search start mp) (hi : i < mp.vi) (hgo : mp.CanGo (mp.visited i) d) :
    Search start (mp.visit (step (mp.visited i) d) ((mp.cell (mp.visited i)).cookie + 1)) := by
  obtain ⟨hq, hv, hw⟩ := hgo
  have hopen : mp.Opens (mp.visited i) (step (mp.visited i) d) :=
    ⟨d, rfl, h.exact.inside i hi, hq, hw⟩
  generalize step (mp.visited i) d = q at hq hv hw hopen
  set n := (mp.cell (mp.visited i)).cookie + 1 with hn
  have hne : ∀ j < mp.vi, mp.visited j ≠ q := fun j hj he => by
    have := (h.exact.bit q hq).mpr ⟨j, hj, he⟩
    rw [hv] at this
    cases this
  have hold : ∀ j < mp.vi, (mp.visit q n).visited j = mp.visited j := fun j hj =>
    visit_visited_old hj n
  have hcell : ∀ j < mp.vi, (mp.visit q n).cell (mp.visited j) = mp.cell (mp.visited j) :=
    fun j hj => visit_cell_ne (hne j hj) n
  have hcases : ∀ j < mp.vi + 1, j < mp.vi ∨ j = mp.vi := fun j hj => by omega
  refine
    { size := h.size, symm := fun p e hp hpe => ?_
      exact := h.exact.append hq hv rfl rfl rfl rfl fun p => ?_
      pos := Nat.succ_pos _, first := (hold 0 h.pos).trans h.first, one := ?_
      fresh := fun p hp hv' => ?_, unmarked := fun p hp => ?_
      dist := fun j hj => ?_, parent := fun j hj h0 => ?_ }
  · rw [visit_wall, visit_wall]
    exact h.symm p e hp hpe
  · by_cases hpq : p = q
    · rw [hpq, visit_cell_self, if_pos rfl]
    · rw [visit_cell_ne hpq, if_neg hpq]
  · rw [← h.first, hcell 0 h.pos, h.first]
    exact h.one
  · by_cases hpq : p = q
    · rw [hpq, visit_cell_self] at hv'
      cases hv'
    · rw [visit_cell_ne hpq] at hv' ⊢
      exact h.fresh p hp hv'
  · by_cases hpq : p = q
    · rw [hpq, visit_cell_self]
      exact h.unmarked q hq
    · rw [visit_cell_ne hpq]
      exact h.unmarked p hp
  · rcases hcases j hj with hj | rfl
    · rw [hold j hj, hcell j hj]
      exact h.dist j hj
    · rw [visit_visited_new, visit_cell_self]
      have := h.cookie_le hi
      show n ≤ mp.vi + 1
      omega
  · rcases hcases j hj with hj | rfl
    · obtain ⟨k, hk, ho, hc⟩ := h.parent j hj h0
      refine ⟨k, hk, ?_, ?_⟩
      · rw [hold j hj, hold k (hk.trans hj), opens_visit]
        exact ho
      · rw [hold j hj, hold k (hk.trans hj), hcell j hj, hcell k (hk.trans hj)]
        exact hc
    · refine ⟨i, hi, ?_, ?_⟩
      · rw [visit_visited_new, hold i hi, opens_visit]
        exact hopen
      · rw [visit_visited_new, visit_cell_self, hold i hi, hcell i hi]

/-- What was explored stays so. -/
theorem explored_visit {n : ℕ} (h : mp.Explored p) : (mp.visit q n).Explored p := by
  rintro d ⟨hd, hv, hw⟩
  rw [visit_wall] at hw
  refine h d ⟨hd, ?_, hw⟩
  by_cases hq : step p d = q
  · rw [hq, visit_cell_self] at hv
    cases hv
  · rwa [visit_cell_ne hq] at hv

/-- Once all visited cells are explored, every cell that can be reached was visited. -/
theorem visited_of_reach (h : Search start mp) (hall : ∀ i < mp.vi, mp.Explored (mp.visited i))
    (hr : Relation.ReflTransGen mp.Opens start p) : ∃ i < mp.vi, mp.visited i = p := by
  induction hr with
  | refl => exact ⟨0, h.pos, h.first⟩
  | tail _ ho ih =>
    obtain ⟨i, hi, rfl⟩ := ih
    obtain ⟨d, rfl, -, hq, hw⟩ := ho
    refine (h.exact.bit _ hq).mp ?_
    by_contra hv
    exact hall i hi d ⟨hq, Bool.eq_false_iff.mpr hv, hw⟩

/-- The distance of a visited cell is at least 1, and 1 for the start only. -/
theorem cookie_pos (h : Search start mp) (hi : i < mp.vi) :
    1 ≤ (mp.cell (mp.visited i)).cookie ∧
      (0 < i → 2 ≤ (mp.cell (mp.visited i)).cookie) := by
  induction i using Nat.strong_induction_on with
  | _ i ih =>
    rcases Nat.eq_zero_or_pos i with rfl | h0
    · rw [h.first, h.one]
      exact ⟨le_rfl, fun h => absurd h (lt_irrefl _)⟩
    · obtain ⟨j, hj, -, hc⟩ := h.parent i hi h0
      have := (ih j hj (hj.trans hi)).1
      omega

end Search

/-! ### Marking the solution -/

/-- A path from the start to `p` with distances 1, 2, .... -/
structure Path (mp : Maze) (start p : Rowcol) (path : List Rowcol) : Prop where
  head : path.head? = some start
  last : path.getLast? = some p
  chain : path.IsChain mp.Opens
  inside : ∀ q ∈ path, mp.CellExists q
  dist : ∀ i (hi : i < path.length), (mp.cell path[i]).cookie = i + 1

namespace Path

variable {path : List Rowcol}

theorem ne_nil (h : Path mp start p path) : path ≠ [] := fun hn => by
  have := h.head
  rw [hn] at this
  cases this

/-- The path is as long as its end is far. -/
theorem length (h : Path mp start p path) : path.length = (mp.cell p).cookie := by
  have hne := h.ne_nil
  have hpos := List.length_pos_of_ne_nil hne
  have hlast := h.last
  rw [List.getLast?_eq_some_getLast hne, Option.some.injEq, List.getLast_eq_getElem hne] at hlast
  have := h.dist (path.length - 1) (by omega)
  rw [hlast] at this
  omega

/-- No cell comes twice, as its distance would. -/
theorem nodup (h : Path mp start p path) : path.Nodup := by
  refine List.nodup_iff_injective_get.mpr fun i j hij => Fin.ext ?_
  have hi := h.dist i i.2
  have hj := h.dist j j.2
  rw [List.get_eq_getElem, List.get_eq_getElem] at hij
  rw [hij] at hi
  omega

theorem single (hs : mp.CellExists start) (h1 : (mp.cell start).cookie = 1) :
    Path mp start start [start] := by
  refine ⟨rfl, rfl, List.isChain_singleton _, fun q hq => ?_, fun i hi => ?_⟩
  · rwa [List.mem_singleton.mp hq]
  · have hi0 : i = 0 := Nat.lt_one_iff.mp hi
    subst hi0
    exact h1

/-- One cell more. -/
theorem snoc (h : Path mp start p path) (ho : mp.Opens p q)
    (hd : (mp.cell q).cookie = (mp.cell p).cookie + 1) : Path mp start q (path ++ [q]) := by
  have hq : mp.CellExists q := by
    obtain ⟨d, -, -, hq, -⟩ := ho
    exact hq
  refine ⟨?_, by simp, ?_, fun r hr => ?_, fun i hi => ?_⟩
  · rw [List.head?_append_of_ne_nil _ h.ne_nil]
    exact h.head
  · refine List.isChain_append.mpr ⟨h.chain, List.isChain_singleton _, fun a ha b hb => ?_⟩
    rw [h.last, Option.mem_some_iff] at ha
    rw [List.head?_cons, Option.mem_some_iff] at hb
    exact ha ▸ hb ▸ ho
  · rcases List.mem_append.mp hr with hr | hr
    · exact h.inside r hr
    · rwa [List.mem_singleton.mp hr]
  · rw [List.length_append, List.length_singleton] at hi
    rcases Nat.lt_or_eq_of_le (Nat.lt_succ_iff.mp hi) with hi | rfl
    · rw [List.getElem_append_left hi]
      exact h.dist i hi
    · rw [List.getElem_concat_length rfl, hd, ← h.length]

end Path

/-- The cells of `l` are marked. -/
def markAll (mp : Maze) (l : List Rowcol) : Maze :=
  { mp with
    cell := fun p => { mp.cell p with solution := (mp.cell p).solution || decide (p ∈ l) } }

theorem markCell_eq {l : List Rowcol} (hp : mp.CellExists p) :
    (mp.markAll l).markCell p = some (mp.markAll (l ++ [p])) := by
  have hp' : (mp.markAll l).CellExists p := hp
  rw [markCell, getCell_eq hp']
  simp only [Option.bind_eq_bind, Option.bind_some]
  rw [setCell_eq hp']
  refine congrArg some (congrArg (fun c => ({ mp with cell := c } : Maze)) (funext fun q => ?_))
  by_cases hq : q = p
  · subst hq
    rw [Function.update_self]
    simp [markAll]
  · rw [Function.update_of_ne hq]
    simp [markAll, hq]

/-- `q` is the neighbour over the side `d`, not behind a wall, and one step nearer to the start. -/
def Nearer (mp : Maze) (p : Rowcol) (d : Side) : Prop :=
  mp.CellExists (step p d) ∧ (mp.cell p).wall d = false ∧
    (mp.cell p).cookie = (mp.cell (step p d)).cookie + 1

theorem isPrevCell_step (hp : mp.CellExists p) :
    ∃ b, mp.isPrevCell p (step p d) = some b ∧ (b = true ↔ mp.Nearer p d) := by
  rw [isPrevCell, cellsConnected_step hp]
  simp only [Option.bind_eq_bind, Option.bind_some]
  by_cases hq : mp.CellExists (step p d)
  · cases hw : (mp.cell p).wall d with
    | true => exact ⟨false, by simp, by simp [Nearer, hw]⟩
    | false =>
      refine ⟨decide (((mp.cell p).cookie : ℤ) - (mp.cell (step p d)).cookie = 1), ?_, ?_⟩
      · simp [hq, getCellDistance_eq hp, getCellDistance_eq hq]
      · rw [decide_eq_true_iff, Nearer, hw]
        constructor
        · exact fun h => ⟨hq, rfl, by omega⟩
        · rintro ⟨-, -, h⟩
          omega
  · exact ⟨false, by simp [hq], by simp [Nearer, hq]⟩

/-- The first neighbour that is nearer is taken, if there is one. -/
theorem prevCell_spec (hp : mp.CellExists p) (ds : List Side) (hd : ∃ d ∈ ds, mp.Nearer p d) :
    ∃ d, mp.Nearer p d ∧ mp.prevCell p (ds.map (step p)) = some (some (step p d)) := by
  induction ds with
  | nil =>
    obtain ⟨d, hd, -⟩ := hd
    cases hd
  | cons e ds ih =>
    obtain ⟨b, hb, hiff⟩ := isPrevCell_step (d := e) hp
    rw [List.map_cons, prevCell, hb]
    simp only [Option.bind_eq_bind, Option.bind_some]
    cases b with
    | true => exact ⟨e, hiff.mp rfl, rfl⟩
    | false =>
      refine ih ?_
      obtain ⟨d, hmem, hd⟩ := hd
      rcases List.mem_cons.mp hmem with rfl | hmem
      · exact absurd (hiff.mpr hd) nofun
      · exact ⟨d, hmem, hd⟩

/-- **`maze_mark_solution` marks a path** from the start to `cur`, and no more. -/
theorem markLoop_spec (h : Search start mp) (hi : i < mp.vi) (he : mp.CellExists end_)
    {l : List Rowcol} (hfuel : (mp.cell (mp.visited i)).cookie ≤ fuel) :
    ∃ path, Path mp start (mp.visited i) path ∧
      markLoop start end_ fuel (mp.markAll l) (mp.visited i) =
        some ((mp.cell end_).cookie, mp.markAll (l ++ path.reverse)) := by
  induction fuel generalizing i l with
  | zero =>
    have := (h.cookie_pos hi).1
    omega
  | succ fuel ih =>
    have hp := h.exact.inside i hi
    rw [markLoop, markCell_eq hp]
    simp only [Option.bind_eq_bind, Option.bind_some]
    by_cases hs : mp.visited i = start
    · rw [if_pos hs, getCellDistance_eq (by exact he), hs]
      exact ⟨[start], Path.single (hs ▸ hp) h.one, rfl⟩
    · have h0 : 0 < i := by
        rcases Nat.eq_zero_or_pos i with rfl | h0
        · exact absurd h.first hs
        · exact h0
      have htwo := (h.cookie_pos hi).2 h0
      -- the cell it was visited from is nearer
      obtain ⟨j, hj, ho, hc⟩ := h.parent i hi h0
      obtain ⟨e, hje, -, hj', hw⟩ := ho.symm h.symm
      have hnear : ∃ d ∈ [Side.up, .down, .left, .right],
          (mp.markAll (l ++ [mp.visited i])).Nearer (mp.visited i) d :=
        ⟨e, by cases e <;> decide, hje ▸ hj', hw, by rw [← hje]; exact hc⟩
      have hp' : (mp.markAll (l ++ [mp.visited i])).CellExists (mp.visited i) := hp
      obtain ⟨d, hd, hprev⟩ := prevCell_spec hp' _ hnear
      obtain ⟨hq, hw, hd⟩ : mp.Nearer (mp.visited i) d := hd
      rw [if_neg hs]
      have hlist : [((mp.visited i).1 - 1, (mp.visited i).2), ((mp.visited i).1 + 1, (mp.visited i).2),
          ((mp.visited i).1, (mp.visited i).2 - 1), ((mp.visited i).1, (mp.visited i).2 + 1)] =
          [Side.up, .down, .left, .right].map (step (mp.visited i)) := rfl
      rw [hlist, hprev]
      simp only [Option.bind_some]
      -- and so is any cell with that distance, which was visited
      have hv : (mp.cell (step (mp.visited i) d)).visited = true := by
        rw [← Bool.not_eq_false]
        intro hf
        have := (h.fresh _ hq hf).2.2
        omega
      obtain ⟨k, hk, hkq⟩ := (h.exact.bit _ hq).mp hv
      rw [← hkq] at hd ⊢
      obtain ⟨path, hpath, hrun⟩ := ih (l := l ++ [mp.visited i]) hk (by omega)
      have hopen : mp.Opens (mp.visited i) (mp.visited k) := ⟨d, hkq, hp, hkq ▸ hq, hw⟩
      refine ⟨path ++ [mp.visited i], hpath.snoc (hopen.symm h.symm) hd, ?_⟩
      rw [hrun, List.reverse_append, List.append_assoc]
      rfl

/-! ### The whole run -/

/-- What a solved maze looks like: `path` is marked, and nothing else. -/
structure Solution (mp mp' : Maze) (start end_ : Rowcol) (n : ℕ) (path : List Rowcol) : Prop where
  head : path.head? = some start
  last : path.getLast? = some end_
  nodup : path.Nodup
  inside : ∀ p ∈ path, mp.CellExists p
  /-- consecutive cells are neighbours without a wall in between -/
  chain : path.IsChain mp.Opens
  length : path.length = n
  marked : ∀ p, mp.CellExists p → ((mp'.cell p).solution = true ↔ p ∈ path)
  dist : ∀ i (hi : i < path.length), (mp'.cell path[i]).cookie = i + 1

/-- What `maze_solve` says about a maze: it returns 0 and the end is out of reach, or the number of
cells that it has marked. -/
def Solved (mp : Maze) (start end_ : Rowcol) (n : ℕ) (mp' : Maze) : Prop :=
  n = 0 ∧ ¬ Relation.ReflTransGen mp.Opens start end_ ∨ ∃ path, mp.Solution mp' start end_ n path

theorem Solved.of_visit {n c : ℕ} (h : (mp.visit q c).Solved start end_ n mp') :
    mp.Solved start end_ n mp' := by
  have hopen : (mp.visit q c).Opens = mp.Opens := by
    funext a b
    exact propext Search.opens_visit
  rcases h with ⟨rfl, hr⟩ | ⟨path, h⟩
  · rw [hopen] at hr
    exact .inl ⟨rfl, hr⟩
  · exact .inr ⟨path, { h with chain := hopen ▸ h.chain, inside := h.inside, marked := h.marked }⟩

/-- At the end cell. -/
theorem markLoop_solved (h : Search start mp) (hi : i < mp.vi) (he : mp.visited i = end_)
    (hfuel : (mp.cell end_).cookie ≤ fuel) :
    ∃ n mp', markLoop start end_ fuel mp end_ = some (n, mp') ∧ mp.Solved start end_ n mp' := by
  subst he
  have hp := h.exact.inside i hi
  obtain ⟨path, hpath, hrun⟩ := markLoop_spec (l := []) h hi hp hfuel
  have hnil : mp.markAll [] = mp := by simp [markAll]
  rw [hnil] at hrun
  refine ⟨_, _, hrun, .inr ⟨path, hpath.head, hpath.last, hpath.nodup, hpath.inside, hpath.chain,
    hpath.length, fun p hp => ?_, fun i hi => hpath.dist i hi⟩⟩
  simp [markAll, h.unmarked p hp]

/-- The number of cells. -/
def size (mp : Maze) : ℕ := (mp.nrows * mp.ncols).toNat

/-- **The search terminates**, and finds the end if it can be reached. -/
theorem solveLoop_spec {inner : Bool} (h : Search start mp) (hvi : vi < mp.vi)
    (hcur : ∃ i < mp.vi, mp.visited i = cur) (houter : inner = false → mp.visited vi = cur)
    (hexp : ∀ i < vi, mp.Explored (mp.visited i)) (hend : ∀ i < mp.vi, mp.visited i ≠ end_)
    (hfuel : 2 * (mp.size - mp.vi) + (mp.size - vi) + inner.toNat + mp.size + 1 ≤ fuel) :
    ∃ n mp', solveLoop start end_ fuel mp vi cur inner = some (n, mp') ∧
      mp.Solved start end_ n mp' := by
  have hle : ∀ {mp : Maze}, Search start mp → mp.vi ≤ mp.size := fun {mp} hs => by
    have hr := hs.exact.inside 0 hs.pos
    have hcard : ((Finset.range mp.vi).image mp.visited).card = mp.vi := card_visited hs.exact.inj
    have hsub : (Finset.range mp.vi).image mp.visited ⊆ mp.cells := visited_subset hs.exact.inside
    unfold CellExists at hr
    have hcells : (mp.cells.card : ℤ) = mp.nrows * mp.ncols := card_cells (by omega) (by omega)
    have := Finset.card_le_card hsub
    rw [size]
    omega
  induction fuel generalizing mp vi cur inner with
  | zero => omega
  | succ fuel ih =>
    obtain ⟨i, hi, rfl⟩ := hcur
    have hroom := hle h
    rw [solveLoop]
    rcases h.findAnyNextCell hi with ⟨hnone, hdone⟩ | ⟨d, hgo, hsome⟩
    · rw [hnone]
      simp only [Option.bind_eq_bind, Option.bind_some]
      cases inner with
      | true =>
        rw [if_pos rfl]
        refine ih h hvi ⟨vi, hvi, rfl⟩ (fun _ => rfl) hexp hend ?_
        simp only [Bool.toNat_true, Bool.toNat_false] at hfuel ⊢
        omega
      | false =>
        have hvis := houter rfl
        rw [if_neg (by decide)]
        -- the cell of the list is explored, like those before it
        have hexp' : ∀ k < vi + 1, mp.Explored (mp.visited k) := fun k hk => by
          rcases Nat.lt_succ_iff_lt_or_eq.mp hk with hk | rfl
          · exact hexp k hk
          · rwa [hvis]
        split
        · refine ⟨_, _, rfl, .inl ⟨rfl, fun hr => ?_⟩⟩
          obtain ⟨k, hk, hke⟩ := h.visited_of_reach (fun k hk => hexp' k (by omega)) hr
          exact hend k hk hke
        · refine ih h (by omega) ⟨vi + 1, by omega, rfl⟩ (fun _ => rfl) hexp' hend ?_
          simp only [Bool.toNat_false] at hfuel ⊢
          omega
    · rw [hsome]
      simp only [Option.bind_eq_bind, Option.bind_some]
      have hs := h.visit hi hgo
      have hroom' := hle hs
      set mp₁ := mp.visit (step (mp.visited i) d) ((mp.cell (mp.visited i)).cookie + 1) with hmp₁
      have hvi₁ : mp₁.vi = mp.vi + 1 := rfl
      have hsize₁ : mp₁.size = mp.size := rfl
      have hnew : mp₁.visited mp.vi = step (mp.visited i) d := visit_visited_new _
      have hold : ∀ k < mp.vi, mp₁.visited k = mp.visited k := fun k hk => visit_visited_old hk _
      by_cases he : step (mp.visited i) d = end_
      · rw [if_pos he]
        have hcookie := hs.cookie_le (i := mp.vi) (by omega)
        rw [hnew, he] at hcookie
        have hfar : (mp₁.cell end_).cookie ≤ fuel := by omega
        obtain ⟨n, mp', hrun, hsol⟩ := markLoop_solved hs (i := mp.vi) (by omega) (hnew.trans he) hfar
        exact ⟨n, mp', hrun, hsol.of_visit⟩
      · rw [if_neg he]
        obtain ⟨n, mp', hrun, hsol⟩ : ∃ n mp', solveLoop start end_ fuel mp₁ vi
            (step (mp.visited i) d) true = some (n, mp') ∧ mp₁.Solved start end_ n mp' := ih hs (by omega)
          ⟨mp.vi, by omega, hnew⟩ nofun
          (fun k hk => by rw [hold k (by omega)]; exact Search.explored_visit (hexp k hk))
          (fun k hk => by
            rcases Nat.lt_succ_iff_lt_or_eq.mp hk with hk | rfl
            · rw [hold k hk]
              exact hend k hk
            · rw [hnew]
              exact he)
          (by
            rw [Bool.toNat_true]
            omega)
        exact ⟨n, mp', hrun, hsol.of_visit⟩

/-- The first visit, in a maze that was cleared. -/
theorem search_start (hsize : mp.nrows * mp.ncols ≤ cookieMask) (hsymm : mp.Symmetric)
    (hvi : mp.vi = 0) (hclear : ∀ p, mp.CellExists p → Cleared (mp.cell p))
    (hs : mp.CellExists start) : Search start (mp.visit start 1) := by
  have hzero : ∀ i < (mp.visit start 1).vi, i = mp.vi := fun i hi => by
    have hi' : i < mp.vi + 1 := hi
    omega
  have hnew : (mp.visit start 1).visited mp.vi = start := visit_visited_new 1
  have hempty : Visited.Exact mp :=
    ⟨fun i hi => by omega, fun i hi => by omega, fun p hp => iff_of_false
      (by rw [(hclear p hp).1]; exact nofun) fun ⟨i, hi, _⟩ => by omega⟩
  refine
    { size := hsize, symm := fun p e hp hpe => ?_
      exact := hempty.append hs (hclear start hs).1 rfl rfl rfl rfl fun p => ?_
      pos := Nat.succ_pos _, first := hvi ▸ hnew, one := by rw [visit_cell_self]
      fresh := fun p hp hv => ?_, unmarked := fun p hp => ?_
      dist := fun i hi => ?_, parent := fun i hi h0 => ?_ }
  · rw [visit_wall, visit_wall]
    exact hsymm p e hp hpe
  · by_cases hp : p = start
    · rw [hp, visit_cell_self, if_pos rfl]
    · rw [visit_cell_ne hp, if_neg hp]
  · by_cases hps : p = start
    · rw [hps, visit_cell_self] at hv
      cases hv
    · rw [visit_cell_ne hps]
      exact hclear p hp
  · by_cases hps : p = start
    · rw [hps, visit_cell_self]
      exact (hclear start hs).2.1
    · rw [visit_cell_ne hps]
      exact (hclear p hp).2.1
  · rw [hzero i hi, hnew, visit_cell_self]
    exact Nat.le_add_left 1 _
  · have := hzero i hi
    omega

theorem Untagged.opens (h : Untagged mp mp') : mp'.Opens = mp.Opens := by
  funext p q
  unfold Opens
  simp only [h.wall, h.cellExists]

/-- Consecutive cells of a path are joined. -/
theorem Solution.reach {n : ℕ} {path : List Rowcol} (h : mp.Solution mp' start end_ n path) :
    Relation.ReflTransGen mp.Opens start end_ := by
  have hne : path ≠ [] := fun hn => by
    have := h.head
    rw [hn] at this
    cases this
  have hhead := h.head
  have hlast := h.last
  rw [List.head?_eq_some_head hne, Option.some.injEq] at hhead
  rw [List.getLast?_eq_some_getLast hne, Option.some.injEq] at hlast
  exact hhead ▸ hlast ▸ List.relationReflTransGen_of_exists_isChain path h.chain hne

/-- As many cells are marked as the path has. -/
theorem card_marked {path : List Rowcol} {marked : Rowcol → Bool} (hin : ∀ p ∈ path, mp.CellExists p)
    (hnodup : path.Nodup) (hmark : ∀ p, mp.CellExists p → (marked p = true ↔ p ∈ path)) :
    (mp.cells.filter fun p => marked p = true).card = path.length := by
  have heq : mp.cells.filter (fun p => marked p = true) = path.toFinset := by
    ext p
    rw [Finset.mem_filter, mem_cells, List.mem_toFinset]
    constructor
    · rintro ⟨hp, hm⟩
      exact (hmark p hp).mp hm
    · intro hp
      exact ⟨hin p hp, (hmark p (hin p hp)).mpr hp⟩
  rw [heq, List.toFinset_card_of_nodup hnodup]

/-- The cells that are marked are those of the path. -/
theorem Solution.card {n : ℕ} {path : List Rowcol} (h : mp.Solution mp' start end_ n path) :
    (mp.cells.filter fun p => (mp'.cell p).solution = true).card = n :=
  (card_marked h.inside h.nodup h.marked).trans h.length

/-- **`maze_solve` finds the end if it can be reached**: it returns 0 if not, and else the number of
cells that it has marked, which are a path from the start to the end with distances 1, 2, .... -/
theorem solve_complete (fuel : ℕ) (mp : Maze) (start end_ : Rowcol)
    (hsize : mp.nrows * mp.ncols ≤ cookieMask) (hsymm : mp.Symmetric) (hs : mp.CellExists start)
    (hne : start ≠ end_) (hfuel : 4 * mp.size ≤ fuel) :
    ∃ mp₀ n mp', unvisitAll mp = some mp₀ ∧ solve fuel mp₀ start end_ = some (n, mp') ∧
      (n = 0 ↔ ¬ Relation.ReflTransGen mp.Opens start end_) ∧
      (n ≠ 0 → (mp.cells.filter fun p => (mp'.cell p).solution = true).card = n ∧
        ∃ path, mp.Solution mp' start end_ n path) := by
  obtain ⟨mp₀, hclear, hu, hvi, hall⟩ := unvisitAll_clear mp
  have hsize₀ : mp₀.nrows * mp₀.ncols ≤ cookieMask := by rwa [hu.nrows, hu.ncols]
  have hs₀ : mp₀.CellExists start := hu.cellExists.mpr hs
  have hcells := fun p hp => hall p (hu.cellExists.mp hp)
  have hlt : (mp₀.vi : ℤ) < mp₀.nrows * mp₀.ncols := by
    unfold CellExists at hs₀
    rw [hvi]
    exact mul_pos (by omega) (by omega)
  have hvisit : mp₀.visitCell start 1 = some (mp₀.visit start 1) :=
    visitCell_eq hs₀ (hcells start hs₀).1 hlt (by decide)
  have hsearch := search_start hsize₀ (hu.symm hsymm) hvi hcells hs₀
  have hfirst : (mp₀.visit start 1).visited 0 = start := hsearch.first
  have hvi₁ : (mp₀.visit start 1).vi = 1 := congrArg (· + 1) hvi
  have hsz : (mp₀.visit start 1).size = mp.size := by
    rw [size, size, ← hu.nrows, ← hu.ncols]
    rfl
  have hpos : 1 ≤ mp.size := by
    rw [hu.nrows, hu.ncols, hvi] at hlt
    rw [size]
    omega
  obtain ⟨n, mp', hrun, hsol⟩ : ∃ n mp', solveLoop start end_ fuel (mp₀.visit start 1) 0 start false =
      some (n, mp') ∧ (mp₀.visit start 1).Solved start end_ n mp' := solveLoop_spec
    hsearch (by omega) ⟨0, by omega, hfirst⟩ (fun _ => hfirst)
    (fun i hi => absurd hi (Nat.not_lt_zero i))
    (fun i hi hie => by
      obtain rfl : i = 0 := by omega
      exact hne (hfirst.symm.trans hie))
    (by rw [hsz, hvi₁, Bool.toNat_false]; omega)
  refine ⟨mp₀, n, mp', hclear, by rw [solve, hvisit]; exact hrun, ?_⟩
  have hopens := hu.opens
  rcases hsol.of_visit with ⟨rfl, hr⟩ | ⟨path, hpath⟩
  · rw [hopens] at hr
    exact ⟨iff_of_true rfl hr, fun h => absurd rfl h⟩
  · have hpath' : mp.Solution mp' start end_ n path :=
      ⟨hpath.head, hpath.last, hpath.nodup, fun p hp => hu.cellExists.mp (hpath.inside p hp),
        hopens ▸ hpath.chain, hpath.length, fun p hp => hpath.marked p (hu.cellExists.mpr hp),
        hpath.dist⟩
    have hn : n ≠ 0 := by
      rw [← hpath'.length]
      intro h0
      have := hpath'.head
      rw [List.length_eq_zero_iff.mp h0] at this
      cases this
    exact ⟨iff_of_false hn (not_not.mpr hpath'.reach), fun _ => ⟨hpath'.card, path, hpath'⟩⟩

/-- Two rows and two columns, without a wall inside. -/
def square : Maze where
  nrows := 2
  ncols := 2
  visited _ := (0, 0)
  vi := 0
  lastvi := none
  cell _ := ⟨fun _ => false, true, true, 9⟩

theorem solve_complete_square : ∃ mp₀ n mp', unvisitAll square = some mp₀ ∧
    solve 16 mp₀ (0, 0) (1, 1) = some (n, mp') ∧
    (n = 0 ↔ ¬ Relation.ReflTransGen square.Opens (0, 0) (1, 1)) ∧
    (n ≠ 0 → (square.cells.filter fun p => (mp'.cell p).solution = true).card = n ∧
      ∃ path, square.Solution mp' (0, 0) (1, 1) n path) :=
  solve_complete 16 square (0, 0) (1, 1) (by decide) (fun _ _ _ _ => rfl) (by decide) (by decide)
    (by decide)

end Maze
end Perfbook
