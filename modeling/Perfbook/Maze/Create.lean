/-
# A perfect maze

`maze_create` starts with an empty maze in which every cell has the walls of the
border and no other. It ends when no cell that was visited has a neighbour that
was not, and the cells of a grid are connected, so all of them have been visited
then. Each cell but the first was joined to exactly one of those before it, so
the order of the visits makes the cells a tree.

Key definitions: `Blank`, `passages`.
Key theorems: `newEmptyMaze_spec`, `Inv.isTree`, `mazeCreate_perfect`.
-/
import Perfbook.Graph.Rank
import Perfbook.Maze.Boundary

namespace Perfbook
namespace Maze

variable {mp mp' mp'' : Maze} {p q start : Rowcol} {d : Side} {nrows ncols : ℤ}

/-! ### The grid is connected -/

/-- A set of cells that has the neighbours of its cells has all cells. -/
theorem grid_all {S : Rowcol → Prop} (hstep : ∀ p d, mp.CellExists p → S p → mp.CellExists (step p d) →
    S (step p d)) (hp : mp.CellExists p) (hS : S p) : ∀ q, mp.CellExists q → S q := by
  have hdist : ∀ n q, mp.CellExists q → (p.1 - q.1).natAbs + (p.2 - q.2).natAbs = n → S q := by
    intro n
    induction n using Nat.strong_induction_on with
    | _ n ih =>
      intro q hq hn
      by_cases he : q = p
      · rwa [he]
      -- one step toward `p`
      have hcloser : ∀ d, mp.CellExists (step q d) →
          (p.1 - (step q d).1).natAbs + (p.2 - (step q d).2).natAbs < n → S q := by
        intro d hd hlt
        have := hstep (step q d) d.opp hd (ih _ hlt _ hd rfl)
        rw [step_opp] at this
        exact this hq
      obtain ⟨hq1, hq2, hq3, hq4⟩ := hq
      obtain ⟨hp1, hp2, hp3, hp4⟩ := hp
      obtain h1 | h1 | h1 := lt_trichotomy q.1 p.1
      · exact hcloser .down ⟨by simp only [step]; omega, by simp only [step]; omega, hq3, hq4⟩
          (by simp only [step]; omega)
      · obtain h2 | h2 | h2 := lt_trichotomy q.2 p.2
        · exact hcloser .right ⟨hq1, hq2, by simp only [step]; omega, by simp only [step]; omega⟩
            (by simp only [step]; omega)
        · exact absurd (Prod.ext h1 h2) he
        · exact hcloser .left ⟨hq1, hq2, by simp only [step]; omega, by simp only [step]; omega⟩
            (by simp only [step]; omega)
      · exact hcloser .up ⟨by simp only [step]; omega, by simp only [step]; omega, hq3, hq4⟩
          (by simp only [step]; omega)
  exact fun q hq => hdist _ q hq rfl

/-- Where no segment can start any more, all cells were visited. -/
theorem Inv.all_visited (h : Inv mp) (hn : ∀ i < mp.vi, ∀ d, ¬ mp.Fresh (mp.visited i) d) :
    ∀ p, mp.CellExists p → (mp.cell p).visited = true := by
  refine grid_all (fun p d hp hv hd => ?_) (h.inside 0 h.pos) (h.visited_bit h.pos)
  obtain ⟨i, hi, rfl⟩ := (h.bit p hp).mp hv
  rw [← Bool.not_eq_false]
  exact fun hf => hn i hi d ⟨hd, hf⟩

/-! ### An empty maze -/

theorem mem_upto {a b i : ℤ} : i ∈ upto a b ↔ a ≤ i ∧ i < b := by
  unfold upto
  rw [List.mem_map]
  constructor
  · rintro ⟨k, hk, rfl⟩
    have := List.mem_range.mp hk
    omega
  · rintro ⟨h1, h2⟩
    exact ⟨(i - a).toNat, List.mem_range.mpr (by omega), by omega⟩

/-- A cell that was not visited, with no walls but those of the border. -/
def Blank (mp : Maze) (p : Rowcol) : Prop :=
  (mp.cell p).visited = false ∧ ∀ d, mp.CellExists (step p d) → (mp.cell p).wall d = false

/-- The cells of the list are written. -/
theorem setCells_spec (ws : List (Rowcol × List Side)) : ∀ mp : Maze,
    (∀ w ∈ ws, mp.CellExists w.1 ∧ ∀ d ∈ w.2, ¬ mp.CellExists (step w.1 d)) →
    ∃ mp', ws.foldlM (fun (mp : Maze) w => mp.setCell w.1 (emptyCell w.2)) mp = some mp' ∧
      mp'.nrows = mp.nrows ∧ mp'.ncols = mp.ncols ∧ mp'.vi = mp.vi ∧ mp'.lastvi = mp.lastvi ∧
      ∀ p, mp.Blank p ∨ p ∈ ws.map Prod.fst → mp'.Blank p := by
  induction ws with
  | nil => exact fun _ _ => ⟨_, rfl, rfl, rfl, rfl, rfl, fun p hp => by simpa using hp⟩
  | cons w ws ih =>
    intro mp hws
    obtain ⟨hw, hwalls⟩ := hws w (List.mem_cons_self ..)
    obtain ⟨mp', hf, hr, hc, hvi, hl, hb⟩ := ih { mp with
      cell := Function.update mp.cell w.1 (emptyCell w.2) } fun w' hw' => hws w' (List.mem_cons_of_mem _ hw')
    refine ⟨mp', ?_, hr, hc, hvi, hl, fun p hp => ?_⟩
    · rw [List.foldlM_cons, setCell_eq hw]
      exact hf
    · have hself : p = w.1 → mp'.Blank p := by
        rintro rfl
        refine hb w.1 (.inl ⟨?_, fun d hd => ?_⟩)
        · simp [emptyCell]
        · have : d ∉ w.2 := fun hm => hwalls d hm hd
          simp [emptyCell, this]
      by_cases hpw : p = w.1
      · exact hself hpw
      obtain ⟨hv, hwd⟩ | hm := hp
      · exact hb p (.inl ⟨by simpa [hpw] using hv, fun d hd => by simpa [hpw] using hwd d hd⟩)
      · exact hb p (.inr (by simpa [hpw] using hm))

/-- The corners, the first and the last column, the inside, and the first and the last row. -/
theorem mem_emptyCells {i j : ℤ} (hi : 0 ≤ i ∧ i < nrows) (hj : 0 ≤ j ∧ j < ncols) :
    (i, j) ∈ (emptyCells nrows ncols).map Prod.fst := by
  simp only [emptyCells, List.map_append, List.mem_append, List.map_flatMap, List.mem_flatMap,
    List.map_map, List.mem_map, List.map_cons, List.map_nil, List.mem_cons, List.not_mem_nil,
    or_false, mem_upto, Prod.mk.injEq, Function.comp_apply]
  by_cases hi0 : i = 0 ∨ i = nrows - 1
  · by_cases hj0 : j = 0 ∨ j = ncols - 1
    · exact .inl (.inl (by omega))
    · exact .inr ⟨j, by omega, by omega⟩
  · refine .inl (.inr ⟨i, by omega, ?_⟩)
    by_cases hj0 : j = 0 ∨ j = ncols - 1
    · exact .inl (by omega)
    · exact .inr ⟨j, by omega, rfl, rfl⟩

/-- Every write is to a cell of the maze, with walls on the border. -/
theorem emptyCells_border (hr : 1 ≤ nrows) (hc : 1 ≤ ncols) (hmr : mp.nrows = nrows)
    (hmc : mp.ncols = ncols) : ∀ w ∈ emptyCells nrows ncols,
    mp.CellExists w.1 ∧ ∀ d ∈ w.2, ¬ mp.CellExists (step w.1 d) := by
  intro w hw
  unfold CellExists
  rw [hmr, hmc]
  simp only [emptyCells, List.mem_append, List.mem_flatMap, List.mem_map, List.mem_cons,
    List.not_mem_nil, or_false, mem_upto] at hw
  rcases hw with (((rfl | rfl | rfl | rfl) | ⟨i, hi, (rfl | rfl) | ⟨j, hj, rfl⟩⟩)) |
    ⟨j, hj, rfl | rfl⟩ <;> simp [step] <;> omega

theorem newEmptyMaze_spec (visited : ℕ → Rowcol) (cell : Rowcol → Cell) (hr : 1 ≤ nrows)
    (hc : 1 ≤ ncols) : ∃ mp, newEmptyMaze visited cell nrows ncols = some mp ∧ mp.nrows = nrows ∧
      mp.ncols = ncols ∧ mp.vi = 0 ∧ mp.lastvi = none ∧ ∀ p, mp.CellExists p → mp.Blank p := by
  unfold newEmptyMaze
  rw [if_neg (by omega)]
  obtain ⟨mp, hf, hmr, hmc, hvi, hl, hb⟩ := setCells_spec (emptyCells nrows ncols)
    ⟨nrows, ncols, visited, 0, none, cell⟩ (emptyCells_border hr hc rfl rfl)
  refine ⟨mp, hf, hmr, hmc, hvi, hl, fun p hp => hb p (.inr ?_)⟩
  obtain ⟨h1, h2, h3, h4⟩ := hp
  rw [hmr] at h2
  rw [hmc] at h4
  exact mem_emptyCells ⟨h1, h2⟩ ⟨h3, h4⟩

/-- The first visit. -/
theorem start_active (hr : 1 ≤ mp.nrows) (hc : 1 ≤ mp.ncols) (hsize : mp.nrows * mp.ncols ≤ cookieMask)
    (hvi : mp.vi = 0) (hl : mp.lastvi = none) (hb : ∀ p, mp.CellExists p → mp.Blank p)
    (hs : mp.CellExists start) : Active (mp.visit start 1) start start := by
  have hvi' : (mp.visit start 1).vi = 1 := congrArg (· + 1) hvi
  have hnew : (mp.visit start 1).visited 0 = start := by
    rw [← hvi]
    exact visit_visited_new 1
  have hzero : ∀ i < (mp.visit start 1).vi, i = 0 := fun i hi => by omega
  have hbit : ∀ p, mp.CellExists p → (((mp.visit start 1).cell p).visited = true ↔ p = start) := by
    intro p hp
    by_cases he : p = start
    · rw [he, visit_cell_self]
      exact iff_of_true rfl rfl
    · rw [visit_cell_ne he, (hb p hp).1]
      exact iff_of_false Bool.false_ne_true he
  refine
    { inv :=
        { nrows := hr, ncols := hc, size := hsize, pos := by omega
          inside := fun i hi => ?_, inj := fun i hi j hj _ => (hzero i hi).trans (hzero j hj).symm
          bit := fun p hp => (hbit p hp).trans ⟨?_, ?_⟩
          symm := fun p d hp hd => ?_, dist := fun i hi => ?_
          parent := fun i hi h0 => absurd (hzero i hi) h0.ne'
          lastvi := fun k hk => ?_ }
      last := ?_, closed := fun i hi => by omega
      prevVisited := (hbit start hs).mpr rfl, only := fun d hd hv _ => (hbit _ hd).mp hv }
  · rw [hzero i hi, hnew]
    exact hs
  · rintro rfl
    exact ⟨0, by omega, hnew⟩
  · rintro ⟨i, hi, rfl⟩
    rw [hzero i hi, hnew]
  · rw [visit_wall, visit_wall, (hb p hp).2 d hd, (hb _ hd).2 d.opp (by rwa [step_opp])]
  · rw [hzero i hi, hnew, visit_cell_self]
  · have hk : mp.lastvi = some k := hk
    rw [hl] at hk
    cases hk
  · rw [hvi', hnew]

/-! ### The end -/

/-- Nothing but the tags of the cells has changed, and the count of the visits. -/
structure Untagged (mp mp' : Maze) : Prop where
  nrows : mp'.nrows = mp.nrows
  ncols : mp'.ncols = mp.ncols
  visited : mp'.visited = mp.visited
  wall : ∀ p, (mp'.cell p).wall = (mp.cell p).wall

theorem Untagged.trans (h : Untagged mp mp') (h' : Untagged mp' mp'') : Untagged mp mp'' where
  nrows := h'.nrows.trans h.nrows
  ncols := h'.ncols.trans h.ncols
  visited := h'.visited.trans h.visited
  wall p := (h'.wall p).trans (h.wall p)

theorem Untagged.cellExists (h : Untagged mp mp') : mp'.CellExists p ↔ mp.CellExists p := by
  unfold CellExists
  rw [h.nrows, h.ncols]

/-- What is left in a cell but its walls. -/
def Cleared (c : Cell) : Prop := c.visited = false ∧ c.solution = false ∧ c.cookie = 0

/-- The tags of one cell. -/
theorem untag_spec (hp : mp.CellExists p) :
    ∃ mp', (do
      let c ← mp.getCell p
      let mp ← mp.setCell p { c with visited := false, solution := false, cookie := 0 }
      mp.setCellDistance p 0) = some mp' ∧ Untagged mp mp' ∧ Cleared (mp'.cell p) ∧
        ∀ q ≠ p, mp'.cell q = mp.cell q := by
  rw [getCell_eq hp]
  simp only [Option.bind_eq_bind, Option.bind_some]
  rw [setCell_eq hp]
  simp only [Option.bind_some, setCellDistance]
  rw [getCell_eq (by exact hp)]
  simp only [Option.bind_eq_bind, Option.bind_some, gt_iff_lt, Nat.not_lt_zero, if_false]
  rw [setCell_eq (by exact hp)]
  refine ⟨_, rfl, ⟨rfl, rfl, rfl, fun q => ?_⟩, ?_, fun q hq => ?_⟩
  · by_cases hq : q = p
    · simp [hq]
    · simp [hq]
  · simp [Cleared]
  · simp [hq]

/-- `maze_unvisit_all` clears all cells of the maze. -/
theorem unvisitAll_clear (mp : Maze) : ∃ mp', unvisitAll mp = some mp' ∧ Untagged mp mp' ∧
    mp'.vi = 0 ∧ ∀ p, mp.CellExists p → Cleared (mp'.cell p) := by
  have hfold : ∀ (ps : List Rowcol) (mp : Maze), (∀ p ∈ ps, mp.CellExists p) →
      ∃ mp', ps.foldlM (fun (mp : Maze) p => do
        let c ← mp.getCell p
        let mp ← mp.setCell p { c with visited := false, solution := false, cookie := 0 }
        mp.setCellDistance p 0) mp = some mp' ∧ Untagged mp mp' ∧
          ∀ p, Cleared (mp.cell p) ∨ p ∈ ps → Cleared (mp'.cell p) := by
    intro ps
    induction ps with
    | nil => exact fun mp _ => ⟨mp, rfl, ⟨rfl, rfl, rfl, fun _ => rfl⟩, fun p hp => by simpa using hp⟩
    | cons p ps ih =>
      intro mp hps
      obtain ⟨m, hm, hu, hc, hk⟩ := untag_spec (hps p (List.mem_cons_self ..))
      obtain ⟨mp', hf, hu', hc'⟩ := ih m fun q hq =>
        hu.cellExists.mpr (hps q (List.mem_cons_of_mem _ hq))
      refine ⟨mp', ?_, hu.trans hu', fun q hq => hc' q ?_⟩
      · rw [List.foldlM_cons, hm]
        exact hf
      · by_cases hqp : q = p
        · exact .inl (hqp ▸ hc)
        · rw [hk q hqp]
          simpa [hqp] using hq
  obtain ⟨m, hm, hu, hc⟩ := hfold ((upto 0 mp.nrows).flatMap fun i => (upto 0 mp.ncols).map fun j => (i, j))
    mp fun p hp => by
      obtain ⟨i, hi, hp⟩ := List.mem_flatMap.mp hp
      obtain ⟨j, hj, rfl⟩ := List.mem_map.mp hp
      have hi := mem_upto.mp hi
      have hj := mem_upto.mp hj
      exact ⟨hi.1, hi.2, hj.1, hj.2⟩
  refine ⟨{ m with vi := 0 }, by rw [unvisitAll, hm]; rfl, ⟨hu.nrows, hu.ncols, hu.visited, hu.wall⟩,
    rfl, fun p hp => hc p (.inr ?_)⟩
  obtain ⟨h1, h2, h3, h4⟩ := hp
  exact List.mem_flatMap.mpr ⟨p.1, mem_upto.mpr ⟨h1, h2⟩,
    List.mem_map.mpr ⟨p.2, mem_upto.mpr ⟨h3, h4⟩, rfl⟩⟩

theorem unvisitAll_spec (mp : Maze) : ∃ mp', unvisitAll mp = some mp' ∧ Untagged mp mp' :=
  let ⟨mp', hm, hu, _⟩ := unvisitAll_clear mp
  ⟨mp', hm, hu⟩

/-! ### The tree -/

/-- Neighbours with no wall between them. -/
def passages (mp : Maze) : SimpleGraph { p // mp.CellExists p } where
  Adj p q := ∃ d, q.1 = step p.1 d ∧ (mp.cell p.1).wall d = false ∧ (mp.cell q.1).wall d.opp = false
  symm := ⟨fun _ _ ⟨d, hq, h1, h2⟩ => ⟨d.opp, by rw [hq, step_opp], h2, by rwa [opp_opp]⟩⟩
  loopless := ⟨fun p ⟨d, hp, _⟩ => step_ne p.1 d hp.symm⟩

/-- The order of the visits makes the cells a tree. -/
theorem Inv.isTree (h : Inv mp) (hall : ∀ p, mp.CellExists p → (mp.cell p).visited = true) :
    mp.passages.IsTree := by
  choose rank hlt hrank using fun p : { p // mp.CellExists p } => (h.bit p.1 p.2).mp (hall p.1 p.2)
  have hinj : Function.Injective rank := fun p q he => Subtype.ext (by rw [← hrank p, he, hrank q])
  have hnum : ∀ p i, i < mp.vi → mp.visited i = p.1 → rank p = i := fun p i hi he =>
    h.inj _ (hlt p) i hi ((hrank p).trans he.symm)
  have hroot := hnum ⟨mp.visited 0, h.inside 0 h.pos⟩ 0 h.pos rfl
  -- to be joined is to be linked
  have hadj : ∀ p q, mp.passages.Adj p q ↔ mp.Linked (rank p) (rank q) := by
    intro p q
    unfold Linked
    rw [hrank, hrank]
    refine exists_congr fun d => and_congr_right fun hq => and_iff_left_of_imp fun hw => ?_
    have hsymm := h.symm p.1 d p.2 (hq ▸ q.2)
    rw [← hq] at hsymm
    rw [hsymm, hw]
  refine Graph.isTree_of_rank hinj hroot fun p hp => ?_
  have hpos : 0 < rank p := by
    refine Nat.pos_of_ne_zero fun h0 => hp (hinj ?_)
    rw [h0, hroot]
  obtain ⟨j, ⟨hj, hl⟩, hu⟩ := h.parent (rank p) (hlt p) hpos
  have hjvi := lt_trans hj (hlt p)
  have hrj := hnum ⟨mp.visited j, h.inside j hjvi⟩ j hjvi rfl
  refine ⟨⟨mp.visited j, h.inside j hjvi⟩, ⟨?_, hrj.trans_lt hj⟩, fun q ⟨hq, hqp⟩ => ?_⟩
  · rwa [hadj, hrj]
  · exact hinj ((hu (rank q) ⟨hqp, (hadj p q).mp hq⟩).trans hrj.symm)

theorem Untagged.symm (h : Untagged mp mp') (hs : mp.Symmetric) : mp'.Symmetric := by
  intro p d hp hd
  rw [h.wall, h.wall]
  exact hs p d (h.cellExists.mp hp) (h.cellExists.mp hd)

/-- The tags do not matter for the walls. -/
theorem Untagged.isTree (h : Untagged mp mp') (ht : mp.passages.IsTree) : mp'.passages.IsTree := by
  have hiso : mp'.passages ≃g mp.passages :=
    { toEquiv := Equiv.subtypeEquivRight fun _ => h.cellExists
      map_rel_iff' := by
        intro p q
        unfold passages
        simp only [Equiv.subtypeEquivRight_apply_coe, h.wall] }
  exact hiso.isTree_iff.mpr ht

/-- From any junk in memory, with any outcome of the random draws: the maze is created, each of
its cells has exactly one place in the order of the visits, and its passages are a tree. -/
theorem mazeCreate_perfect (fuel : ℕ) (visited : ℕ → Rowcol) (cell : Rowcol → Cell) (nrows ncols : ℤ)
    (start : Rowcol) (r : Rnd) (hr : 1 ≤ nrows) (hc : 1 ≤ ncols)
    (hsize : nrows * ncols ≤ cookieMask) (hrow : 0 ≤ start.1 ∧ start.1 < nrows)
    (hcol : 0 ≤ start.2 ∧ start.2 < ncols) (hfuel : nrows * ncols < fuel) :
    ∃ mp, mazeCreate fuel visited cell nrows ncols start r = some mp ∧ mp.nrows = nrows ∧
      mp.ncols = ncols ∧
      (∀ p, mp.CellExists p → ∃! i : ℕ, (i : ℤ) < nrows * ncols ∧ mp.visited i = p) ∧
      mp.Symmetric ∧ mp.passages.IsTree := by
  obtain ⟨m0, h0, hr0, hc0, hvi0, hl0, hb0⟩ := newEmptyMaze_spec visited cell hr hc
  have hs : m0.CellExists start := ⟨hrow.1, hr0 ▸ hrow.2, hcol.1, hc0 ▸ hcol.2⟩
  have hcells : 0 < nrows * ncols := mul_pos (by omega) (by omega)
  have ha := start_active (by omega) (by omega) (by rwa [hr0, hc0]) hvi0 hl0 hb0 hs
  have h1 : m0.visitCell start 1 = some (m0.visit start 1) :=
    visitCell_eq hs (hb0 start hs).1 (by rw [hvi0, hr0, hc0]; exact hcells) (by decide)
  have hf : ∀ m, Grown (m0.visit start 1) m → m.nrows * m.ncols < (fuel : ℤ) + m.vi := by
    intro m hg
    have hr1 : m.nrows = nrows := hg.nrows.trans hr0
    have hc1 : m.ncols = ncols := hg.ncols.trans hc0
    rw [hr1, hc1]
    omega
  obtain ⟨m2, r2, h2, hg2, hi2⟩ := constructSegment_start ha (hf _ (Grown.refl _)) r
  obtain ⟨m3, r3, h3, hg3, hi3, hn⟩ := createLoop_spec fuel r2 hi2 (hf _ hg2) (hf _ hg2)
  have hg := hg2.trans hg3
  have hall := hi3.inv.all_visited hn
  have hvi := hi3.inv.vi_eq hall
  obtain ⟨mp, h4, hu⟩ := unvisitAll_spec m3
  have hnr : m3.nrows = nrows := hg.nrows.trans hr0
  have hnc : m3.ncols = ncols := hg.ncols.trans hc0
  rw [hnr, hnc] at hvi
  refine ⟨mp, ?_, hu.nrows.trans hnr, hu.ncols.trans hnc, fun p hp => ?_,
    hu.symm hi3.inv.symm, hu.isTree (hi3.inv.isTree hall)⟩
  · rw [mazeCreate, h0]
    simp only [Option.bind_eq_bind, Option.bind_some, h1, h2, h3]
    rw [if_neg (by rw [hvi, hnr, hnc]; exact not_not.mpr rfl), h4]
  · rw [hu.visited]
    have hp := hu.cellExists.mp hp
    obtain ⟨i, hi, hip⟩ := (hi3.inv.bit p hp).mp (hall p hp)
    refine ⟨i, ⟨by omega, hip⟩, fun j ⟨hj, hjp⟩ => ?_⟩
    exact hi3.inv.inj j (by omega) i hi (hjp.trans hip.symm)

theorem mazeCreate_perfect_square : ∃ mp,
    mazeCreate 5 (fun _ => (7, 7)) (fun _ => ⟨fun _ => true, true, true, 9⟩) 2 2 (1, 0) id = some mp ∧
      mp.nrows = 2 ∧ mp.ncols = 2 ∧
      (∀ p, mp.CellExists p → ∃! i : ℕ, (i : ℤ) < 2 * 2 ∧ mp.visited i = p) ∧
      mp.Symmetric ∧ mp.passages.IsTree :=
  mazeCreate_perfect 5 _ _ 2 2 (1, 0) id (by decide) (by decide) (by decide) (by decide) (by decide)
    (by decide)

end Maze
end Perfbook
