/-
# `SMPdesign/maze/maze_part.c`: stitching the solution together

With a route through the partitions, `maze_solve_stitch_partitions` marks the solution. In the first and in the last
partition it goes from the encounter back to the start of the thread. In each partition between, two legs go from
the two encounters toward the start of the thread, the one that is farther away first, until they meet
(`markSubsolution`). A leg goes to any neighbour of the same thread that is one nearer to its start. A cell that the
other leg has passed is farther away than both ends, or as far as the end that stands next to it, so the legs have
no cell in common but the last.

Key definitions: `isPrevCell`, `markSolution`, `markSubsolution`, `stitchPartitions`, `Partitioned`, `Encounter`.
Key theorems: `prevCell_spec`, `markLoop_spec`, `subsolutionLoop_spec`, `stitchPartitions_path`.
-/
import Mathlib.Tactic.IntervalCases
import Perfbook.Maze.Part
import Perfbook.Maze.Route
import Perfbook.Maze.Solve

namespace Perfbook
namespace MazePart

open Maze (Rowcol Side step)

section

variable (mp : MazePart)

/-- `maze_is_prev_cell`. -/
def isPrevCell (p q : Rowcol) : Option Bool := do
  let connected ← mp.cellsConnected p q
  if !connected then some false
  else do
    let same ← mp.sameTids p q
    if !same then some false
    else do
      let d₁ ← mp.getCellDistance p
      let d₂ ← mp.getCellDistance q
      some (decide ((d₁ : ℤ) - d₂ = 1))

/-- Calls of `maze_is_prev_cell` for one cell after the other, until one holds. -/
def prevCell (cur : Rowcol) : List Rowcol → Option (Option Rowcol)
  | [] => some none
  | q :: qs => do
    if ← mp.isPrevCell cur q then some (some q) else prevCell cur qs

/-- The cells around one, in the order in which they are tried. -/
def around (p : Rowcol) : List Rowcol := [(p.1 - 1, p.2), (p.1 + 1, p.2), (p.1, p.2 - 1), (p.1, p.2 + 1)]

/-- `SOLUTION` is set in a cell. -/
def markCell (p : Rowcol) : Option MazePart := do
  let c ← mp.getCell p
  mp.setCell p { c with solution := true }

/-- `maze_mark_advance_cell`, with the next cell. -/
def markAdvanceCell (p : Rowcol) : Option (Rowcol × MazePart) := do
  let mp ← mp.markCell p
  let d ← mp.getCellDistance p
  if d = 1 then none
  else do
    let q ← ← mp.prevCell p (around p)
    some (q, mp)

end

/-- The loop of `maze_mark_solution`; it returns the distance of the end. -/
def markLoop (start end_ : Rowcol) : ℕ → MazePart → Rowcol → Option (ℕ × MazePart)
  | 0, _, _ => none
  | fuel + 1, mp, cur => do
    let mp ← mp.markCell cur
    if cur = start then do
      let d ← mp.getCellDistance end_
      some (d, mp)
    else do
      let q ← ← mp.prevCell cur (around cur)
      markLoop start end_ fuel mp q

def markSolution (fuel : ℕ) (mp : MazePart) (start end_ : Rowcol) : Option (ℕ × MazePart) :=
  markLoop start end_ fuel mp end_

/-- The loop of `maze_mark_subsolution`. -/
def subsolutionLoop : ℕ → MazePart → Rowcol → Rowcol → ℕ → ℕ → ℕ → Option (ℕ × MazePart)
  | 0, _, _, _, _, _, _ => none
  | fuel + 1, mp, p₁, p₂, d₁, d₂, s => do
    let same ← mp.sameTids p₁ p₂
    if !same then none
    else if p₁ = p₂ then do
      let mp ← mp.markCell p₁
      some (s + 1, mp)
    else if d₁ > d₂ then do
      let (p₁, mp) ← mp.markAdvanceCell p₁
      let d₁ ← mp.getCellDistance p₁
      subsolutionLoop fuel mp p₁ p₂ d₁ d₂ (s + 1)
    else if d₁ ≤ d₂ ∧ d₂ ≠ 1 then do
      let (p₂, mp) ← mp.markAdvanceCell p₂
      let d₂ ← mp.getCellDistance p₂
      subsolutionLoop fuel mp p₁ p₂ d₁ d₂ (s + 1)
    else none

def markSubsolution (fuel : ℕ) (mp : MazePart) (p₁ p₂ : Rowcol) : Option (ℕ × MazePart) := do
  let d₁ ← mp.getCellDistance p₁
  let d₂ ← mp.getCellDistance p₂
  subsolutionLoop fuel mp p₁ p₂ d₁ d₂ 0

namespace Rowcolpair

def m (e : Rowcolpair) : Rowcol := (e.mr, e.mc)

def t (e : Rowcolpair) : Rowcol := (e.tr, e.tc)

end Rowcolpair

section

variable (nthreads : ℕ) (adj : Adj) (path : ℕ → ℕ)

/-- `&mcp[path[i]].adj[path[i + 1]]`. -/
def pathAdj (i : ℕ) : Option Rowcolpair := do
  let a ← peek nthreads path i
  let b ← peek nthreads path (i + 1)
  let row ← peek nthreads adj a
  peek nthreads row b

/-- The loop of `maze_solve_stitch_partitions`, with `d` and `rcpp`. -/
def stitchLoop (markFuel : ℕ) : ℕ → ℕ → MazePart → ℕ → Rowcolpair → Option (ℕ × Rowcolpair × MazePart)
  | 0, _, _, _, _ => none
  | fuel + 1, i, mp, d, rcpp => do
    let c ← peek nthreads path i
    if c = 1 then some (d, rcpp, mp)
    else do
      let next ← pathAdj nthreads adj path i
      let (s, mp) ← markSubsolution markFuel mp rcpp.t next.m
      stitchLoop markFuel fuel (i + 1) mp (d + s) next

/-- `maze_solve_stitch_partitions`. -/
def stitchPartitions (fuel : ℕ) (mp : MazePart) (start end_ : Rowcol) : Option (ℕ × MazePart) :=
  if nthreads = 1 then markSolution fuel mp start end_
  else do
    let rcpp ← pathAdj nthreads adj path 0
    let (d, mp) ← markSolution fuel mp start rcpp.m
    let (d, rcpp, mp) ← stitchLoop nthreads adj path fuel fuel 1 mp d rcpp
    let (d', mp) ← markSolution fuel mp end_ rcpp.t
    some (d + d', mp)

end

/-- A cell that thread `t` has visited. -/
def InPart (mp : MazePart) (t : ℕ) (p : Rowcol) : Prop :=
  mp.CellExists p ∧ (mp.cell p).visited = true ∧ (mp.cell p).cookie = t

/-- What the threads leave behind: thread `t` has started from `start t`, and it has come to each of its other cells
from a neighbour that is one nearer. -/
structure Partitioned (n : ℕ) (start : ℕ → Rowcol) (mp : MazePart) : Prop where
  symm : mp.Symmetric
  first : ∀ t < n, InPart mp t (start t) ∧ mp.distance (start t) = 1
  prev : ∀ t < n, ∀ p, InPart mp t p → p ≠ start t →
    ∃ q, InPart mp t q ∧ mp.Opens p q ∧ mp.distance p = mp.distance q + 1
  /-- as `maze_unvisit_all` leaves it -/
  fresh : ∀ p, mp.CellExists p → (mp.cell p).visited = false → mp.distance p = 0

/-- Two adjacent cells of `a` and `b`, without a wall between them. -/
structure Encounter (mp : MazePart) (a b : ℕ) (e : Rowcolpair) : Prop where
  mine : InPart mp a e.m
  theirs : InPart mp b e.t
  opens : mp.Opens e.m e.t

section

variable {n t fuel : ℕ} {start : ℕ → Rowcol} {mp : MazePart} {p q : Rowcol} {l l' : List Rowcol}

/-- The cells of `l` are marked. -/
def markAll (mp : MazePart) (l : List Rowcol) : MazePart := { mp with toMaze := mp.toMaze.markAll l }

theorem markAll_congr (h : ∀ p, p ∈ l' ↔ p ∈ l) : mp.markAll l' = mp.markAll l := by
  simp only [markAll, Maze.markAll, h]

theorem markCell_eq (hp : mp.CellExists p) : (mp.markAll l).markCell p = some (mp.markAll (l ++ [p])) := by
  have hp' : (mp.toMaze.markAll l).CellExists p := hp
  have hmaze := Maze.markCell_eq (l := l) hp
  rw [Maze.markCell, Maze.getCell_eq hp'] at hmaze
  simp only [Option.bind_eq_bind, Option.bind_some] at hmaze
  have hget : (mp.markAll l).getCell p = some ((mp.toMaze.markAll l).cell p) := Maze.getCell_eq hp'
  rw [markCell, hget]
  simp only [Option.bind_eq_bind, Option.bind_some, setCell, markAll]
  rw [hmaze]
  rfl

theorem Partitioned.markAll (h : Partitioned n start mp) (l : List Rowcol) : Partitioned n start (mp.markAll l) :=
  ⟨h.symm, h.first, h.prev, h.fresh⟩

/-- Only the start of a thread has distance 1, and none of its cells less. -/
theorem Partitioned.distance_spec (h : Partitioned n start mp) (ht : t < n) (hp : InPart mp t p) :
    1 ≤ mp.distance p ∧ (mp.distance p = 1 → p = start t) := by
  induction hd : mp.distance p using Nat.strong_induction_on generalizing p with
  | _ d ih =>
    by_cases hs : p = start t
    · rw [hs, (h.first t ht).2] at hd
      exact ⟨hd.le, fun _ => hs⟩
    · obtain ⟨q, hq, -, hpq⟩ := h.prev t ht p hp hs
      have := (ih (mp.distance q) (by omega) hq rfl).1
      omega

/-- `q` is the neighbour over the side `d`, not behind a wall, of the same thread and one nearer to its start. -/
def Nearer (mp : MazePart) (p : Rowcol) (d : Side) : Prop :=
  mp.CellExists (step p d) ∧ (mp.cell p).wall d = false ∧ (mp.cell p).cookie = (mp.cell (step p d)).cookie ∧
    mp.distance p = mp.distance (step p d) + 1

theorem isPrevCell_step (hp : mp.CellExists p) (d : Side) :
    ∃ b, mp.isPrevCell p (step p d) = some b ∧ (b = true ↔ mp.Nearer p d) := by
  rw [isPrevCell, Maze.cellsConnected_step hp]
  simp only [Option.bind_eq_bind, Option.bind_some]
  by_cases hq : mp.CellExists (step p d)
  · cases hw : (mp.cell p).wall d with
    | true => exact ⟨false, by simp, by simp [Nearer, hw]⟩
    | false =>
      refine ⟨decide ((mp.cell p).cookie = (mp.cell (step p d)).cookie ∧
        ((mp.distance p : ℤ) - mp.distance (step p d) = 1)), ?_, ?_⟩
      · by_cases hc : (mp.cell p).cookie = (mp.cell (step p d)).cookie
        · simp [hq, sameTids_eq hp hq, hc, getCellDistance_eq hp, getCellDistance_eq hq]
        · simp [hq, sameTids_eq hp hq, hc]
      · rw [decide_eq_true_iff, Nearer, hw]
        constructor
        · exact fun hand => ⟨hq, rfl, hand.1, by omega⟩
        · rintro ⟨-, -, hc, hd⟩
          exact ⟨hc, by omega⟩
  · exact ⟨false, by simp [hq], by simp [Nearer, hq]⟩

/-- The first neighbour that is nearer is taken, if there is one. -/
theorem prevCell_step (hp : mp.CellExists p) (ds : List Side) (hd : ∃ d ∈ ds, mp.Nearer p d) :
    ∃ d, mp.Nearer p d ∧ mp.prevCell p (ds.map (step p)) = some (some (step p d)) := by
  induction ds with
  | nil =>
    obtain ⟨d, hd, -⟩ := hd
    cases hd
  | cons e ds ih =>
    obtain ⟨b, hb, hiff⟩ := isPrevCell_step hp e
    rw [List.map_cons, prevCell, hb]
    simp only [Option.bind_eq_bind, Option.bind_some]
    cases b with
    | true => exact ⟨e, hiff.mp rfl, rfl⟩
    | false =>
      refine ih ?_
      obtain ⟨d, hmem, hd⟩ := hd
      obtain rfl | hmem := List.mem_cons.mp hmem
      · exact absurd (hiff.mpr hd) nofun
      · exact ⟨d, hmem, hd⟩

/-- From each cell but its start, a thread's cells lead on. -/
theorem Partitioned.prevCell_spec (h : Partitioned n start mp) (ht : t < n) (hp : InPart mp t p)
    (hs : p ≠ start t) : ∃ q, InPart mp t q ∧ mp.Opens p q ∧ mp.distance p = mp.distance q + 1 ∧
      mp.prevCell p (around p) = some (some q) := by
  obtain ⟨q, hq, ⟨d, rfl, -, hcell, hw⟩, hdist⟩ := h.prev t ht p hp hs
  have hnear : mp.Nearer p d := ⟨hcell, hw, hp.2.2.trans hq.2.2.symm, hdist⟩
  have haround : around p = [Side.up, .down, .left, .right].map (step p) := rfl
  obtain ⟨e, ⟨hcell', hw', hc', hdist'⟩, hrun⟩ := prevCell_step hp.1 [Side.up, .down, .left, .right]
    ⟨d, by cases d <;> decide, hnear⟩
  have hpos := (h.distance_spec ht hq).1
  refine ⟨step p e, ⟨hcell', ?_, hc'.symm.trans hp.2.2⟩, ⟨e, rfl, hp.1, hcell', hw'⟩, hdist', haround ▸ hrun⟩
  -- a cell that was not visited has distance 0
  rw [← Bool.not_eq_false]
  intro hv
  have := h.fresh _ hcell' hv
  omega

/-! ### A leg to the start -/

/-- The cells from `p` to `q`, all of thread `t`. -/
structure Segment (mp : MazePart) (t : ℕ) (p q : Rowcol) (cells : List Rowcol) : Prop where
  head : cells.head? = some p
  last : cells.getLast? = some q
  chain : cells.IsChain mp.Opens
  inside : ∀ c ∈ cells, InPart mp t c
  nodup : cells.Nodup

namespace Segment

variable {c : Rowcol} {cells : List Rowcol}

theorem single (hp : InPart mp t p) : Segment mp t p p [p] :=
  ⟨rfl, rfl, List.isChain_singleton _, by simpa using hp, List.nodup_singleton p⟩

theorem cons (h : Segment mp t q c cells) (hp : InPart mp t p) (ho : mp.Opens p q) (hno : p ∉ cells) :
    Segment mp t p c (p :: cells) := by
  refine ⟨rfl, ?_, List.isChain_cons.mpr ⟨fun b hb => ?_, h.chain⟩, List.forall_mem_cons.mpr ⟨hp, h.inside⟩,
    List.nodup_cons.mpr ⟨hno, h.nodup⟩⟩
  · rw [List.getLast?_cons, h.last]
    rfl
  · rw [h.head] at hb
    cases hb
    exact ho

theorem reverse (h : Segment mp t p q cells) (hs : mp.Symmetric) : Segment mp t q p cells.reverse := by
  refine ⟨by rw [List.head?_reverse, h.last], by rw [List.getLast?_reverse, h.head], ?_,
    fun c hc => h.inside c (List.mem_reverse.mp hc), List.nodup_reverse.mpr h.nodup⟩
  exact List.isChain_reverse.mpr (h.chain.imp fun _ _ ho => ho.symm hs)

end Segment

theorem InPart.markAll (hp : InPart mp t p) (l : List Rowcol) : InPart (mp.markAll l) t p := hp

/-- **`maze_mark_solution`** marks a leg from `p` to the start of the thread. -/
theorem markLoop_spec (h : Partitioned n start mp) (ht : t < n) (hp : InPart mp t p) (hq : mp.CellExists q)
    (hfuel : mp.distance p ≤ fuel) : ∃ cells, Segment mp t p (start t) cells ∧
      (∀ c ∈ cells, mp.distance c ≤ mp.distance p) ∧ cells.length = mp.distance p ∧
      markLoop (start t) q fuel (mp.markAll l) p = some (mp.distance q, mp.markAll (l ++ cells)) := by
  induction fuel generalizing p l with
  | zero =>
    have := (h.distance_spec ht hp).1
    omega
  | succ fuel ih =>
    rw [markLoop, markCell_eq hp.1]
    simp only [Option.bind_eq_bind, Option.bind_some]
    by_cases hs : p = start t
    · rw [if_pos hs, getCellDistance_eq (by exact hq)]
      have hd : mp.distance p = 1 := by rw [hs, (h.first t ht).2]
      exact ⟨[p], hs ▸ Segment.single hp, by simp, hd.symm, rfl⟩
    · obtain ⟨c, hc, ho, hd, hprev⟩ := (h.markAll (l ++ [p])).prevCell_spec ht (hp.markAll _) hs
      replace hd : mp.distance p = mp.distance c + 1 := hd
      obtain ⟨cells, hseg, hle, hlen, hrun⟩ := ih (l := l ++ [p]) (p := c) hc (by omega)
      rw [if_neg hs, hprev]
      simp only [Option.bind_some]
      refine ⟨p :: cells, hseg.cons hp ho fun hmem => ?_, List.forall_mem_cons.mpr ⟨le_rfl, fun b hb => ?_⟩, ?_, ?_⟩
      · have := hle p hmem
        omega
      · have := hle b hb
        omega
      · rw [List.length_cons, hlen, hd]
      · rw [hrun, List.append_assoc]
        rfl

/-- One step of a leg in a partition between. -/
theorem Partitioned.markAdvanceCell_spec (h : Partitioned n start mp) (ht : t < n) (hp : InPart mp t p)
    (hs : p ≠ start t) : ∃ q, InPart mp t q ∧ mp.Opens p q ∧ mp.distance p = mp.distance q + 1 ∧
      (mp.markAll l).markAdvanceCell p = some (q, mp.markAll (l ++ [p])) := by
  obtain ⟨q, hq, ho, hd, hprev⟩ := (h.markAll (l ++ [p])).prevCell_spec ht (hp.markAll _) hs
  refine ⟨q, hq, ho, hd, ?_⟩
  have hone : mp.distance p ≠ 1 := fun h1 => hs ((h.distance_spec ht hp).2 h1)
  have hcell : (mp.markAll (l ++ [p])).CellExists p := hp.1
  rw [markAdvanceCell, markCell_eq hp.1]
  simp only [Option.bind_eq_bind, Option.bind_some]
  rw [getCellDistance_eq hcell, Option.bind_some, hprev]
  exact if_neg hone

theorem sameTids_markAll {p₁ p₂ : Rowcol} (hp₁ : InPart mp t p₁) (hp₂ : InPart mp t p₂) :
    (mp.markAll l).sameTids p₁ p₂ = some true := by
  have hcell₁ : (mp.markAll l).CellExists p₁ := hp₁.1
  rw [sameTids_eq hcell₁ hp₂.1]
  have : (mp.cell p₁).cookie = (mp.cell p₂).cookie := hp₁.2.2.trans hp₂.2.2.symm
  simpa [markAll, Maze.markAll] using this

theorem getCellDistance_markAll (hp : InPart mp t p) :
    (mp.markAll l).getCellDistance p = some (mp.distance p) := if_pos hp.1

/-- **The two legs meet**, and what is marked is a path from one end to the other. Of its cells, all but the ends are
nearer to the start than the end that is farther away. -/
theorem subsolutionLoop_spec (h : Partitioned n start mp) (ht : t < n) {p₁ p₂ : Rowcol} (hp₁ : InPart mp t p₁)
    (hp₂ : InPart mp t p₂) (hfuel : mp.distance p₁ + mp.distance p₂ ≤ fuel) (s : ℕ) :
    ∃ cells, Segment mp t p₁ p₂ cells ∧
      (∀ c ∈ cells, c = p₁ ∨ c = p₂ ∨ mp.distance c < max (mp.distance p₁) (mp.distance p₂)) ∧
      subsolutionLoop fuel (mp.markAll l) p₁ p₂ (mp.distance p₁) (mp.distance p₂) s =
        some (s + cells.length, mp.markAll (l ++ cells)) := by
  induction fuel generalizing p₁ p₂ l s with
  | zero =>
    have := (h.distance_spec ht hp₁).1
    omega
  | succ fuel ih =>
    obtain ⟨hpos₁, hone₁⟩ := h.distance_spec ht hp₁
    obtain ⟨hpos₂, hone₂⟩ := h.distance_spec ht hp₂
    rw [subsolutionLoop, sameTids_markAll hp₁ hp₂]
    simp only [Option.bind_eq_bind, Option.bind_some, Bool.not_true, Bool.false_eq_true, if_false]
    by_cases heq : p₁ = p₂
    · subst heq
      rw [if_pos rfl, markCell_eq hp₁.1]
      exact ⟨[p₁], .single hp₁, by simp, rfl⟩
    rw [if_neg heq]
    by_cases hgt : mp.distance p₁ > mp.distance p₂
    · -- the first leg goes on
      have hs : p₁ ≠ start t := fun hs => by
        rw [hs, (h.first t ht).2] at hgt
        omega
      obtain ⟨q, hq, ho, hd, hrun⟩ := h.markAdvanceCell_spec (l := l) ht hp₁ hs
      obtain ⟨cells, hseg, hle, hrest⟩ := ih (l := l ++ [p₁]) hq hp₂ (by omega) (s + 1)
      rw [if_pos hgt, hrun]
      simp only [Option.bind_some]
      rw [getCellDistance_markAll hq, Option.bind_some, hrest]
      refine ⟨p₁ :: cells, hseg.cons hp₁ ho fun hmem => ?_, List.forall_mem_cons.mpr ⟨.inl rfl, fun c hc => ?_⟩, ?_⟩
      · obtain rfl | hp | hp := hle p₁ hmem
        · omega
        · exact heq hp
        · omega
      · obtain rfl | hp | hp := hle c hc
        · omega
        · exact .inr (.inl hp)
        · omega
      · rw [List.append_assoc, List.length_cons, Nat.add_assoc, Nat.add_comm 1]
        rfl
    · -- the second leg goes on
      have hs : p₂ ≠ start t := fun hs => by
        rw [hs, (h.first t ht).2] at hgt
        exact heq (hone₁ (by omega) |>.trans hs.symm)
      have hne : mp.distance p₂ ≠ 1 := fun h1 => hs (hone₂ h1)
      obtain ⟨q, hq, ho, hd, hrun⟩ := h.markAdvanceCell_spec (l := l) ht hp₂ hs
      obtain ⟨cells, hseg, hle, hrest⟩ := ih (l := l ++ [p₂]) hp₁ hq (by omega) (s + 1)
      rw [if_neg hgt, if_pos ⟨by omega, hne⟩, hrun]
      simp only [Option.bind_some]
      rw [getCellDistance_markAll hq, Option.bind_some, hrest]
      have hno : p₂ ∉ cells := fun hmem => by
        obtain hp | rfl | hp := hle p₂ hmem
        · exact heq hp.symm
        · omega
        · omega
      have hback : Segment mp t p₁ p₂ (cells ++ [p₂]) := by
        have := ((hseg.reverse h.symm).cons hp₂ ho (by simpa using hno)).reverse h.symm
        simpa using this
      refine ⟨cells ++ [p₂], hback, fun c hc => ?_, ?_⟩
      · obtain hc | hc := List.mem_append.mp hc
        · obtain hp | rfl | hp := hle c hc
          · exact .inl hp
          · omega
          · omega
        · exact .inr (.inl (List.mem_singleton.mp hc))
      · rw [List.length_append, List.length_singleton, Nat.add_assoc, Nat.add_comm 1]
        refine congrArg (fun mp => some (_, mp)) (markAll_congr fun c => ?_)
        simp only [List.mem_append, List.mem_singleton]
        tauto

/-! ### The route -/

section

variable {a b : ℕ} {e : Rowcolpair} {adj : Adj}

theorem Encounter.swap (h : Encounter mp b a e) (hs : mp.Symmetric) : Encounter mp a b e.swap :=
  ⟨h.theirs, h.mine, h.opens.symm hs⟩

theorem Encounter.entered (h : Encounter mp a b e) : 0 ≤ e.mr ∧ 0 ≤ e.mc ∧ 0 ≤ e.tr ∧ 0 ≤ e.tc :=
  ⟨h.mine.1.1, h.mine.1.2.2.1, h.theirs.1.1, h.theirs.1.2.2.1⟩

/-- Whoever has recorded the encounter of two threads, the entry of each has its own cell first. -/
theorem mapAdj_encounter (hs : mp.Symmetric)
    (hadj : ∀ a < n, ∀ b < n, adj a b = Rowcolpair.unset ∨ Encounter mp a b (adj a b)) (hmet : Met n adj a b) :
    Encounter mp a b (mapAdj n adj a b) := by
  obtain ⟨ha, hb, hmet⟩ := hmet
  rw [mapAdj_eq (fun a ha b hb => (hadj a ha b hb).imp_right Encounter.entered) ha hb]
  unfold mirror
  by_cases hm : (adj a b).mr = -1
  · rw [if_pos hm]
    obtain hun | henc := hadj b hb a ha
    · rw [hun] at hmet
      exact absurd hm (hmet.resolve_right fun h => h rfl)
    · exact henc.swap hs
  · rw [if_neg hm]
    refine (hadj a ha b hb).resolve_left fun hun => hm ?_
    rw [hun]
    rfl

end

/-- What a stitched solution is: `cells` is marked, and nothing else. -/
structure Stitched (mp mp' : MazePart) (start end_ : Rowcol) (count : ℕ) (cells : List Rowcol) : Prop where
  head : cells.head? = some start
  last : cells.getLast? = some end_
  nodup : cells.Nodup
  inside : ∀ p ∈ cells, mp.CellExists p
  /-- consecutive cells are neighbours without a wall in between -/
  chain : cells.IsChain mp.Opens
  marked : ∀ p, mp.CellExists p → ((mp'.cell p).solution = true ↔ p ∈ cells)
  length : cells.length = count

/-- The cells from `p` to `q` go through partitions `i`, …, `k` of the route. -/
structure Through (mp : MazePart) (path : ℕ → ℕ) (i k : ℕ) (p q : Rowcol) (cells : List Rowcol) : Prop where
  head : cells.head? = some p
  last : cells.getLast? = some q
  chain : cells.IsChain mp.Opens
  inside : ∀ c ∈ cells, ∃ j, i ≤ j ∧ j ≤ k ∧ InPart mp (path j) c
  nodup : cells.Nodup

section

variable {path : ℕ → ℕ} {adj : Adj} {i last d : ℕ} {c c' : Rowcol} {cells cells' : List Rowcol}

theorem Segment.through (h : Segment mp (path i) p q cells) (hi : i ≤ last) : Through mp path i last p q cells :=
  ⟨h.head, h.last, h.chain, fun c hc => ⟨i, le_rfl, hi, h.inside c hc⟩, h.nodup⟩

/-- One partition more. The partitions of a route are different, so no cell comes twice. -/
theorem Through.cons (h : Through mp path (i + 1) last c' q cells') (hseg : Segment mp (path i) p c cells)
    (ho : mp.Opens c c') (hi : i ≤ last) (hne : ∀ j, i < j → j ≤ last → path i ≠ path j) :
    Through mp path i last p q (cells ++ cells') := by
  have hnil : cells ≠ [] := fun hn => by
    have := hseg.head
    rw [hn] at this
    cases this
  have hnil' : cells' ≠ [] := fun hn => by
    have := h.head
    rw [hn] at this
    cases this
  refine ⟨?_, ?_, ?_, fun x hx => ?_, ?_⟩
  · rw [List.head?_append_of_ne_nil _ hnil, hseg.head]
  · rw [List.getLast?_append_of_ne_nil _ hnil', h.last]
  · refine List.isChain_append.mpr ⟨hseg.chain, h.chain, fun x hx y hy => ?_⟩
    rw [hseg.last, Option.mem_some_iff] at hx
    rw [h.head, Option.mem_some_iff] at hy
    exact hx ▸ hy ▸ ho
  · obtain hx | hx := List.mem_append.mp hx
    · exact ⟨i, le_rfl, hi, hseg.inside x hx⟩
    · obtain ⟨j, hj, hjl, hx⟩ := h.inside x hx
      exact ⟨j, by omega, hjl, hx⟩
  · refine List.nodup_append.mpr ⟨hseg.nodup, h.nodup, fun x hx y hy hxy => ?_⟩
    subst hxy
    obtain ⟨j, hj, hjl, hy⟩ := h.inside x hy
    exact hne j hj hjl ((hseg.inside x hx).2.2.symm.trans hy.2.2)

variable (h : Partitioned n start mp)
  (hadj : ∀ a < n, ∀ b < n, adj a b = Rowcolpair.unset ∨ Encounter mp a b (adj a b))
  (hroute : Route n (Met n adj) path last)

include hroute

theorem pathAdj_eq (adj' : Adj) (hi : i < last) : pathAdj n adj' path i = some (adj' (path i) (path (i + 1))) := by
  have hlt := hroute.lt
  simp [pathAdj, hroute.bound i hi.le, hroute.bound (i + 1) hi, show i < n by omega, show i + 1 < n by omega]

include h hadj

/-- From the encounter before partition `i` of the route, the loop and what follows it mark a path to the end. -/
theorem stitchLoop_spec {D markFuel : ℕ} (hD : ∀ p, mp.CellExists p → mp.distance p ≤ D) (hmark : 2 * D ≤ markFuel)
    {e : Rowcolpair} (hi : i ≤ last) (he : InPart mp (path i) e.t) (hfuel : last - i < fuel) :
    ∃ cells, Through mp path i last e.t (start 1) cells ∧
      ((stitchLoop n (mapAdj n adj) path markFuel fuel i (mp.markAll l) d e).bind fun x =>
        (markSolution markFuel x.2.2 (start 1) x.2.1.t).bind fun y => some (x.1 + y.1, y.2)) =
        some (d + cells.length, mp.markAll (l ++ cells)) := by
  induction fuel generalizing i l d e with
  | zero => omega
  | succ fuel ih =>
    have hlast := hroute.lt
    have hDe := hD e.t he.1
    rw [stitchLoop, peek_of_lt (by omega)]
    simp only [Option.bind_eq_bind, Option.bind_some]
    obtain hlt | rfl := Nat.lt_or_eq_of_le hi
    · rw [if_neg (hroute.first i hlt), pathAdj_eq hroute _ hlt, Option.bind_some]
      have henc := mapAdj_encounter h.symm hadj (hroute.step i hlt)
      have hDn := hD _ henc.mine.1
      obtain ⟨cells, hseg, -, hrun⟩ := subsolutionLoop_spec (l := l) h (hroute.bound i hi) he henc.mine
        (by omega : _ ≤ markFuel) 0
      obtain ⟨cells', hrest, hrun'⟩ := ih (l := l ++ cells) (d := d + cells.length)
        (Nat.succ_le_of_lt hlt) henc.theirs (by omega)
      refine ⟨cells ++ cells', hrest.cons hseg henc.opens hi fun j hij hj => hroute.ne i j hij hj, ?_⟩
      rw [markSubsolution, getCellDistance_markAll he, getCellDistance_markAll henc.mine]
      simp only [Option.bind_eq_bind, Option.bind_some]
      rw [hrun]
      simp only [Option.bind_some, Nat.zero_add]
      rw [hrun', List.append_assoc, List.length_append, Nat.add_assoc]
    · rw [if_pos hroute.end_]
      have hone : path i < n := hroute.bound i le_rfl
      rw [hroute.end_] at he hone
      obtain ⟨cells, hseg, -, hlen, hrun⟩ := markLoop_spec (l := l) h hone he he.1 (by omega : _ ≤ markFuel)
      refine ⟨cells, (hroute.end_ ▸ hseg : Segment mp (path i) _ _ _).through le_rfl, ?_⟩
      simp only [Option.bind_some, markSolution]
      rw [hrun, hlen]
      rfl

end

/-- **Stitching marks a path from the start to the end.** With any partitions and any route through their encounters,
`maze_solve_stitch_partitions` ends without an `ABORT`, and returns how many cells it has marked, which are a path
without walls in which no cell comes twice. -/
theorem stitchPartitions_path {path : ℕ → ℕ} {adj : Adj} {last : ℕ} (h : Partitioned n start mp)
    (hadj : ∀ a < n, ∀ b < n, adj a b = Rowcolpair.unset ∨ Encounter mp a b (adj a b))
    (hroute : Route n (Met n adj) path last) (hclean : ∀ p, mp.CellExists p → (mp.cell p).solution = false) :
    ∃ bound, ∀ fuel ≥ bound, ∃ count mp' cells,
      stitchPartitions n (mapAdj n adj) path fuel mp (start 0) (start 1) = some (count, mp') ∧
      Stitched mp mp' (start 0) (start 1) count cells ∧
      (mp.cells.filter fun p => (mp'.cell p).solution = true).card = count := by
  have hD : ∀ p, mp.CellExists p → mp.distance p ≤ mp.cells.sup mp.distance :=
    fun p hp => Finset.le_sup (Maze.mem_cells.mpr hp)
  refine ⟨2 * mp.cells.sup mp.distance + n + 1, fun fuel hfuel => ?_⟩
  have hlt := hroute.lt
  have hpos := hroute.pos
  have h0 : path 0 < n := hroute.bound 0 (Nat.zero_le _)
  have henc := mapAdj_encounter h.symm hadj (hroute.step 0 hpos)
  obtain ⟨leg, hleg, -, hlen, hrun⟩ := markLoop_spec (l := []) h h0 henc.mine henc.mine.1
    ((hD _ henc.mine.1).trans (by omega) : _ ≤ fuel)
  have hmark : 2 * mp.cells.sup mp.distance ≤ fuel := by omega
  have hloop : last - 1 < fuel := by omega
  obtain ⟨cells, hrest, hrun'⟩ := stitchLoop_spec (l := leg) (d := leg.length) h hadj hroute hD hmark hpos henc.theirs
    hloop
  have hthrough := hrest.cons (hleg.reverse h.symm) henc.opens (Nat.zero_le _) fun j hj hjl => hroute.ne 0 j hj hjl
  have hstart : start (path 0) = start 0 := by rw [hroute.start]
  have hnil : mp.markAll [] = mp := by simp [markAll, Maze.markAll]
  rw [hstart] at hthrough hrun
  rw [hnil, List.nil_append] at hrun
  have hin : ∀ p ∈ leg.reverse ++ cells, mp.CellExists p := fun p hp => by
    obtain ⟨j, -, -, hin⟩ := hthrough.inside p hp
    exact hin.1
  have hmarked : ∀ p, mp.CellExists p →
      (((mp.markAll (leg ++ cells)).cell p).solution = true ↔ p ∈ leg.reverse ++ cells) := fun p hp => by
    simp [markAll, Maze.markAll, hclean p hp]
  refine ⟨(leg.reverse ++ cells).length, mp.markAll (leg ++ cells), leg.reverse ++ cells, ?_,
    ⟨hthrough.head, hthrough.last, hthrough.nodup, hin, hthrough.chain, hmarked, rfl⟩,
    Maze.card_marked hin hthrough.nodup hmarked⟩
  rw [stitchPartitions, if_neg (by omega), pathAdj_eq hroute _ hpos]
  simp only [Option.bind_eq_bind, Option.bind_some, markSolution]
  rw [hrun]
  simp only [Option.bind_some]
  rw [← hlen]
  simp only [markSolution] at hrun'
  rw [hrun', List.length_append, List.length_reverse]

/-- One row: two cells of thread 0, two of thread 2 and two of thread 1. -/
def row6 : MazePart where
  nrows := 1
  ncols := 6
  visited _ := (0, 0)
  vi := 6
  lastvi := none
  cell p := ⟨fun _ => false, true, false, if p.2 ≤ 1 then 0 else if p.2 ≤ 3 then 2 else 1⟩
  distance p := if p.2 = 0 ∨ p.2 = 2 ∨ p.2 = 5 then 1 else 2
  mcp _ := ⟨(-1, -1), fun _ => (0, 0), 0⟩

def starts6 (t : ℕ) : Rowcol := if t = 0 then (0, 0) else if t = 1 then (0, 5) else (0, 2)

/-- Thread 0 has met thread 2, and thread 1 has met it too. -/
def adj6 (a b : ℕ) : Rowcolpair :=
  if (a, b) = (0, 2) then ⟨0, 1, 0, 2⟩ else if (a, b) = (1, 2) then ⟨0, 4, 0, 3⟩ else .unset

def path6 (i : ℕ) : ℕ := if i = 0 then 0 else if i = 1 then 2 else 1

theorem partitioned_row6 : Partitioned 3 starts6 row6 where
  symm _ _ _ _ := rfl
  first t ht := by
    interval_cases t <;> exact ⟨⟨by decide, rfl, rfl⟩, rfl⟩
  prev t ht p hp hs := by
    obtain ⟨r, c⟩ := p
    obtain ⟨⟨hr0, hr1, hc0, hc1⟩, -, hcookie⟩ := hp
    obtain rfl : r = 0 := by
      simp only [row6] at hr0 hr1
      omega
    simp only [row6] at hc0 hc1
    interval_cases c <;> obtain rfl := hcookie
    · exact absurd rfl hs
    · exact ⟨(0, 0), ⟨by decide, rfl, rfl⟩, ⟨.left, rfl, by decide, by decide, rfl⟩, rfl⟩
    · exact absurd rfl hs
    · exact ⟨(0, 2), ⟨by decide, rfl, rfl⟩, ⟨.left, rfl, by decide, by decide, rfl⟩, rfl⟩
    · exact ⟨(0, 5), ⟨by decide, rfl, rfl⟩, ⟨.right, rfl, by decide, by decide, rfl⟩, rfl⟩
    · exact absurd rfl hs
  fresh _ _ hv := by cases hv

theorem encounter_row6 (a b : ℕ) : adj6 a b = .unset ∨ Encounter row6 a b (adj6 a b) := by
  by_cases h02 : (a, b) = (0, 2)
  · cases h02
    exact .inr ⟨⟨by decide, rfl, rfl⟩, ⟨by decide, rfl, rfl⟩, ⟨.right, rfl, by decide, by decide, rfl⟩⟩
  by_cases h12 : (a, b) = (1, 2)
  · cases h12
    exact .inr ⟨⟨by decide, rfl, rfl⟩, ⟨by decide, rfl, rfl⟩, ⟨.left, rfl, by decide, by decide, rfl⟩⟩
  · exact .inl ((if_neg h02).trans (if_neg h12))

theorem route_row6 : Route 3 (Met 3 adj6) path6 2 where
  start := rfl
  pos := by decide
  lt := by decide
  end_ := rfl
  first := by decide
  bound := by decide
  ne i j hij hj := by
    interval_cases j <;> interval_cases i <;> decide
  step i hi := by
    interval_cases i
    · exact ⟨by decide, by decide, .inl (by decide)⟩
    · exact ⟨by decide, by decide, .inr (by decide)⟩

theorem stitchPartitions_path_row6 : ∃ bound, ∀ fuel ≥ bound, ∃ count mp' cells,
    stitchPartitions 3 (mapAdj 3 adj6) path6 fuel row6 (starts6 0) (starts6 1) = some (count, mp') ∧
    Stitched row6 mp' (starts6 0) (starts6 1) count cells ∧
    (row6.cells.filter fun p => (mp'.cell p).solution = true).card = count :=
  stitchPartitions_path partitioned_row6 (fun a _ b _ => encounter_row6 a b) route_row6 fun _ _ => rfl

example : (stitchPartitions 3 (mapAdj 3 adj6) path6 9 row6 (0, 0) (0, 5)).map Prod.fst = some 6 := by
  decide

end

end MazePart
end Perfbook
