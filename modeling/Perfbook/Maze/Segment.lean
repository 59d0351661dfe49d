/-
# A segment of the maze

`Active` is the state in which a segment grows: `cur` was visited last, its only
open neighbour among the cells that were visited is `prev`, and all others are
closed. A step to a next cell closes `cur` and makes the next cell the last one.
The segment ends with all cells closed (`Idle`): at the end of a segment walls
are built on all sides but `prev`, and a segment that is stuck has no open side
toward a cell that was not visited.

Key definitions: `Active`, `Idle`, `Walled`.
Key theorems: `buildCellWalls_spec`, `chooseNextCell_spec`, `Active.grow`,
`constructSegment_spec`.
-/
import Perfbook.Maze.Inv

namespace Perfbook
namespace Maze

variable {mp mp' mp'' : Maze} {p q cur prev next : Rowcol} {d e : Side} {i j : ℕ}

/-- Walls have been built, and nothing else has changed. -/
structure Walled (mp mp' : Maze) : Prop where
  nrows : mp'.nrows = mp.nrows
  ncols : mp'.ncols = mp.ncols
  visited : mp'.visited = mp.visited
  vi : mp'.vi = mp.vi
  bit : ∀ p, (mp'.cell p).visited = (mp.cell p).visited
  wall : ∀ p d, (mp.cell p).wall d = true → (mp'.cell p).wall d = true

namespace Walled

theorem refl (mp : Maze) : Walled mp mp := ⟨rfl, rfl, rfl, rfl, fun _ => rfl, fun _ _ => id⟩

theorem trans (h : Walled mp mp') (h' : Walled mp' mp'') : Walled mp mp'' where
  nrows := h'.nrows.trans h.nrows
  ncols := h'.ncols.trans h.ncols
  visited := h'.visited.trans h.visited
  vi := h'.vi.trans h.vi
  bit p := (h'.bit p).trans (h.bit p)
  wall p d hw := h'.wall p d (h.wall p d hw)

theorem cellExists (h : Walled mp mp') : mp'.CellExists p ↔ mp.CellExists p := by
  unfold CellExists
  rw [h.nrows, h.ncols]

theorem open_of (h : Walled mp mp') (hw : (mp'.cell p).wall d = false) : (mp.cell p).wall d = false := by
  rw [← Bool.not_eq_true]
  intro ht
  rw [h.wall p d ht] at hw
  cases hw

theorem closed (h : Walled mp mp') (hc : mp.Closed p) : mp'.Closed p := fun d hd hv =>
  h.wall p d (hc d (h.cellExists.mp hd) ((h.bit _).symm.trans hv))

end Walled

theorem walled_setWalls (mp : Maze) (p : Rowcol) (d : Side) : Walled mp (mp.setWalls p d true) where
  nrows := rfl
  ncols := rfl
  visited := rfl
  vi := rfl
  bit _ := rfl
  wall q e hw := by
    rw [setWalls_wall]
    split
    · rfl
    · exact hw

/-- The neighbours of `cur` that were visited are behind walls, but for `prev` and `next`. -/
def Meets (mp : Maze) (cur prev next : Rowcol) : Prop :=
  ∀ d, mp.CellExists (step cur d) → (mp.cell (step cur d)).visited = true →
    (mp.cell cur).wall d = false → step cur d = prev ∨ step cur d = next

theorem Walled.meets (h : Walled mp mp') (hm : mp.Meets cur prev next) : mp'.Meets cur prev next :=
  fun d hd hv hw => hm d (h.cellExists.mp hd) ((h.bit _).symm.trans hv) (h.open_of hw)

/-- One wall around `cur`. -/
theorem buildOneCellWall_spec (h : Inv mp) (hcur : mp.CellExists cur) (hm : mp.Meets cur prev next)
    (d : Side) : ∃ mp', mp.buildOneCellWall (step cur d) prev cur next = some mp' ∧ Inv mp' ∧
      Walled mp mp' ∧ (mp.CellExists (step cur d) → step cur d ≠ prev → step cur d ≠ next →
        (mp'.cell cur).wall d = true) := by
  by_cases hc : step cur d = prev ∨ step cur d = next ∨ ¬ mp.CellExists (step cur d)
  · refine ⟨mp, buildOneCellWall_of hc, h, Walled.refl mp, fun he h1 h2 => ?_⟩
    exact absurd he ((hc.resolve_left h1).resolve_left h2)
  · obtain ⟨h1, h2, he⟩ : step cur d ≠ prev ∧ step cur d ≠ next ∧ mp.CellExists (step cur d) := by
      simpa [not_or] using hc
    refine ⟨_, buildOneCellWall_eq hcur he h1 h2, h.setWalls hcur he ?_, walled_setWalls mp cur d,
      fun _ _ _ => if_pos (.inl ⟨rfl, rfl⟩)⟩
    by_contra hn
    obtain ⟨hv, hw⟩ := not_or.mp hn
    obtain hp | hp := hm d he (by simpa using hv) (by simpa using hw)
    · exact h1 hp
    · exact h2 hp

/-- All walls around `cur`. -/
theorem buildCellWalls_spec (prev next : Rowcol) (h : Inv mp) (hcur : mp.CellExists cur)
    (hm : mp.Meets cur prev next) :
    ∃ mp', mp.buildCellWalls prev cur next = some mp' ∧ Inv mp' ∧ Walled mp mp' ∧
      ∀ d, mp.CellExists (step cur d) → step cur d ≠ prev → step cur d ≠ next →
        (mp'.cell cur).wall d = true := by
  obtain ⟨m1, h1, i1, w1, b1⟩ := buildOneCellWall_spec h hcur hm .up
  obtain ⟨m2, h2, i2, w2, b2⟩ :=
    buildOneCellWall_spec i1 (w1.cellExists.mpr hcur) (w1.meets hm) .down
  have w12 := w1.trans w2
  obtain ⟨m3, h3, i3, w3, b3⟩ :=
    buildOneCellWall_spec i2 (w12.cellExists.mpr hcur) (w12.meets hm) .left
  have w13 := w12.trans w3
  obtain ⟨m4, h4, i4, w4, b4⟩ :=
    buildOneCellWall_spec i3 (w13.cellExists.mpr hcur) (w13.meets hm) .right
  simp only [step] at h1 h2 h3 h4
  refine ⟨m4, by simp [buildCellWalls, h1, h2, h3, h4], i4, w13.trans w4, fun d hd hp hn => ?_⟩
  cases d with
  | up => exact ((w2.trans w3).trans w4).wall _ _ (b1 hd hp hn)
  | down => exact (w3.trans w4).wall _ _ (b2 (w1.cellExists.mpr hd) hp hn)
  | left => exact w4.wall _ _ (b3 (w12.cellExists.mpr hd) hp hn)
  | right => exact b4 (w13.cellExists.mpr hd) hp hn

/-! ### The two states of a segment -/

/-- No segment grows. -/
structure Idle (mp : Maze) : Prop where
  inv : Inv mp
  closed : ∀ i < mp.vi, mp.Closed (mp.visited i)

/-- A segment grows at `cur`. -/
structure Active (mp : Maze) (prev cur : Rowcol) : Prop where
  inv : Inv mp
  last : mp.visited (mp.vi - 1) = cur
  closed : ∀ i, i + 1 < mp.vi → mp.Closed (mp.visited i)
  prevVisited : (mp.cell prev).visited = true
  only : ∀ d, mp.CellExists (step cur d) → (mp.cell (step cur d)).visited = true →
    (mp.cell cur).wall d = false → step cur d = prev

namespace Active

theorem last_lt (h : Active mp prev cur) : mp.vi - 1 < mp.vi := Nat.sub_lt h.inv.pos Nat.one_pos

theorem cellExists (h : Active mp prev cur) : mp.CellExists cur := by
  rw [← h.last]
  exact h.inv.inside _ h.last_lt

theorem closed_of_ne (h : Active mp prev cur) : ∀ i < mp.vi, i ≠ mp.vi - 1 → mp.Closed (mp.visited i) :=
  fun i hi hne => h.closed i (by omega)

/-- With `cur` closed too, nothing grows. -/
theorem idle (h : Active mp prev cur) (hw : Walled mp mp') (hi : Inv mp') (hc : mp'.Closed cur) :
    Idle mp' := by
  refine ⟨hi, fun i hi => ?_⟩
  rw [hw.vi] at hi
  rw [hw.visited]
  by_cases hlast : i = mp.vi - 1
  · rw [hlast, h.last]
    exact hc
  · exact hw.closed (h.closed_of_ne i hi hlast)

/-- `MAZE_STUCK_SEGMENT`. -/
theorem stuck (h : Active mp prev cur) (hn : ∀ d, ¬ mp.CanGo cur d) : Idle mp := by
  refine h.idle (Walled.refl mp) h.inv fun d hd hv => ?_
  rw [← Bool.not_eq_false]
  exact fun hw => hn d ⟨hd, hv, hw⟩

/-- `MAZE_END_SEGMENT`. -/
theorem stop (h : Active mp prev cur) :
    ∃ mp', mp.buildCellWalls prev cur prev = some mp' ∧ Walled mp mp' ∧ Idle mp' := by
  obtain ⟨mp', hb, hi, hw, hwall⟩ := buildCellWalls_spec prev prev h.inv h.cellExists
    fun d hd hv hw => .inl (h.only d hd hv hw)
  refine ⟨mp', hb, hw, h.idle hw hi fun d hd hv => ?_⟩
  have hne : step cur d ≠ prev := fun he => by
    rw [he, hw.bit, h.prevVisited] at hv
    cases hv
  exact hwall d (hw.cellExists.mp hd) hne hne

/-- The distance of the next cell. -/
theorem dist_le (h : Active mp prev cur) : (mp.cell cur).cookie ≤ mp.vi := by
  have hd := h.inv.dist _ h.last_lt
  have hpos := h.inv.pos
  rw [h.last] at hd
  omega

/-- `MAZE_CONTINUE_SEGMENT`: the segment has gone on over the side `d`. -/
theorem grow (h : Active mp prev cur) (hgo : mp.CanGo cur d) :
    ∃ mp', (mp.visit (step cur d) ((mp.cell cur).cookie + 1)).buildCellWalls prev cur (step cur d) =
        some mp' ∧ mp'.nrows = mp.nrows ∧ mp'.ncols = mp.ncols ∧ mp'.vi = mp.vi + 1 ∧
      Active mp' cur (step cur d) := by
  obtain ⟨hd, hv, hw⟩ := hgo
  generalize hn : (mp.cell cur).cookie + 1 = n
  have hlt := h.last_lt
  have hcl := h.closed_of_ne
  have hi : Inv (mp.visit (step cur d) n) := by
    have := h.inv.visit (d := d) (n := n) hlt
    rw [h.last] at this
    exact this hd hv hw hcl (by rw [← hn]; exact Nat.succ_le_succ h.dist_le)
  have hold : ∀ {p}, p ≠ step cur d → ((mp.visit (step cur d) n).cell p).visited = (mp.cell p).visited :=
    fun hp => by rw [visit_cell_ne hp]
  have hnew : ((mp.visit (step cur d) n).cell (step cur d)).visited = true := by rw [visit_cell_self]
  have hprev : prev ≠ step cur d := fun he => by
    rw [← he, h.prevVisited] at hv
    cases hv
  obtain ⟨mp', hb, hi', hwd, hwall⟩ := buildCellWalls_spec prev (step cur d) hi h.cellExists fun e he hve hwe => by
      by_cases hne : step cur e = step cur d
      · exact .inr hne
      · rw [hold hne] at hve
        rw [visit_wall] at hwe
        exact .inl (h.only e he hve hwe)
  refine ⟨mp', hb, hwd.nrows, hwd.ncols, hwd.vi, hi', ?_, fun i hlti => ?_, ?_, fun e he hve hwe => ?_⟩
  · rw [hwd.visited, hwd.vi]
    exact visit_visited_new n
  · have hlti : i < mp.vi := by
      rw [hwd.vi] at hlti
      exact Nat.lt_of_succ_lt_succ hlti
    rw [hwd.visited, visit_visited_old hlti]
    by_cases hlast : i = mp.vi - 1
    · -- the walls around `cur` are built
      rw [hlast, h.last]
      intro e he hve
      rw [hwd.bit] at hve
      refine hwall e (hwd.cellExists.mp he) (fun hp => ?_) fun hp => ?_
      · rw [hp, hold hprev, h.prevVisited] at hve
        cases hve
      · rw [hp, hnew] at hve
        cases hve
    · exact hwd.closed ((hcl i hlti hlast).visit n)
  · rw [hwd.bit, hold (Ne.symm (step_ne cur d)), ← h.last]
    exact h.inv.visited_bit hlt
  · have hne : step (step cur d) e ≠ step cur d := step_ne _ _
    have hex := hwd.cellExists.mp he
    rw [hwd.bit, hold hne] at hve
    have hwe := hwd.open_of hwe
    rw [visit_wall] at hwe
    obtain ⟨i, hlti, hie⟩ := (h.inv.bit _ hex).mp hve
    have := h.inv.only hd hv hcl hlti hie hwe
    rw [← hie, this, h.last]

end Active

/-! ### The next cell of a segment -/

/-- The cells that the segment may turn to, and the one straight on, are neighbours. -/
theorem ahead_eq (cur : Rowcol) (e : Side) (turn flip : Prop) [Decidable turn] [Decidable flip] :
    ∃ ds : List Side,
      (if turn then
        [(cur.1 + (if flip then cur.2 - (step cur e).2 else -(cur.2 - (step cur e).2)),
          cur.2 + (if flip then -(cur.1 - (step cur e).1) else cur.1 - (step cur e).1)),
         (cur.1 - (if flip then cur.2 - (step cur e).2 else -(cur.2 - (step cur e).2)),
          cur.2 - (if flip then -(cur.1 - (step cur e).1) else cur.1 - (step cur e).1))]
       else []) ++
        [(cur.1 + (cur.1 - (step cur e).1), cur.2 + (cur.2 - (step cur e).2))] =
      ds.map (step cur) := by
  have hstraight : (cur.1 + (cur.1 - (step cur e).1), cur.2 + (cur.2 - (step cur e).2)) =
      step cur e.opp := by
    cases e <;> simp [step, Side.opp] <;> rfl
  rw [hstraight]
  by_cases ht : turn
  · by_cases hf : flip
    · cases e with
      | up => exact ⟨[.left, .right, .down], by simp [ht, hf, step, Side.opp]; omega⟩
      | down => exact ⟨[.right, .left, .up], by simp [ht, hf, step, Side.opp]⟩
      | right => exact ⟨[.up, .down, .left], by simp [ht, hf, step, Side.opp]; omega⟩
      | left => exact ⟨[.down, .up, .right], by simp [ht, hf, step, Side.opp]⟩
    · cases e with
      | up => exact ⟨[.right, .left, .down], by simp [ht, hf, step, Side.opp, sub_eq_add_neg]⟩
      | down => exact ⟨[.left, .right, .up], by simp [ht, hf, step, Side.opp, sub_eq_add_neg]⟩
      | right => exact ⟨[.down, .up, .left], by simp [ht, hf, step, Side.opp, sub_eq_add_neg]⟩
      | left => exact ⟨[.up, .down, .right], by simp [ht, hf, step, Side.opp, sub_eq_add_neg]⟩
  · exact ⟨[e.opp], by simp [ht]⟩

namespace Active

theorem room (h : Active mp prev cur) (hgo : mp.CanGo cur d) :
    (mp.vi : ℤ) < mp.nrows * mp.ncols ∧ (mp.cell cur).cookie + 1 ≤ cookieMask := by
  have hlt := h.inv.vi_lt hgo.1 hgo.2.1
  have hsize := h.inv.size
  have hdist := h.dist_le
  exact ⟨hlt, by omega⟩

theorem findAnyNextCell_spec (h : Active mp prev cur) :
    (mp.findAnyNextCell cur = some none ∧ ∀ d, ¬ mp.CanGo cur d) ∨
      ∃ d, mp.CanGo cur d ∧ mp.findAnyNextCell cur =
        some (some (step cur d, mp.visit (step cur d) ((mp.cell cur).cookie + 1))) := by
  have hfind : mp.findAnyNextCell cur = mp.tryVisitCells cur ((mp.cell cur).cookie + 1)
      ([.left, .right, .up, .down].map (step cur)) := by
    simp [findAnyNextCell, getCellDistance_eq h.cellExists, step]
  rw [hfind]
  refine (tryVisitCells_spec h.cellExists (fun d => h.room) _).imp_left fun hn => ⟨hn.1, fun d => ?_⟩
  exact hn.2 d (by cases d <;> simp)

/-- The segment goes on to a cell over an open side, ends, or is stuck for good. -/
theorem chooseNextCell_spec (h : Active mp (step cur e) cur) (r : Rnd) :
    ∃ r', (∃ d, mp.CanGo cur d ∧ mp.chooseNextCell (step cur e) cur r =
        some (.continueSegment (step cur d), mp.visit (step cur d) ((mp.cell cur).cookie + 1), r')) ∨
      mp.chooseNextCell (step cur e) cur r = some (.endSegment, mp, r') ∨
      (mp.chooseNextCell (step cur e) cur r = some (.stuckSegment, mp, r') ∧
        ∀ d, ¬ mp.CanGo cur d) := by
  unfold chooseNextCell
  rw [getCellDistance_eq h.cellExists]
  simp only [Option.bind_eq_bind, Option.bind_some]
  by_cases hend : (r 0).testBit 0
  · exact ⟨_, .inr (.inl (if_pos hend))⟩
  obtain ⟨ds, hds⟩ := ahead_eq cur e ((r 0).testBit 1 ∧ step cur e ≠ cur) (pmrandom (r.rest 0) ≠ 0)
  rw [hds]
  simp only [hend, Bool.false_eq_true, if_false]
  obtain ⟨ha, -⟩ | ⟨d, hgo, ha⟩ := tryVisitCells_spec h.cellExists (fun d => h.room) ds
  · obtain ⟨hf, hn⟩ | ⟨d, hgo, hf⟩ := h.findAnyNextCell_spec
    · exact ⟨_, .inr (.inr ⟨by rw [ha]; simp only [Option.bind_some]; rw [hf]; rfl, hn⟩)⟩
    · exact ⟨_, .inl ⟨d, hgo, by rw [ha]; simp only [Option.bind_some]; rw [hf]; rfl⟩⟩
  · exact ⟨_, .inl ⟨d, hgo, by rw [ha]; rfl⟩⟩

end Active

/-! ### A whole segment -/

/-- A maze of the same size in which no fewer cells were visited. -/
structure Grown (mp mp' : Maze) : Prop where
  nrows : mp'.nrows = mp.nrows
  ncols : mp'.ncols = mp.ncols
  vi : mp.vi ≤ mp'.vi

namespace Grown

theorem refl (mp : Maze) : Grown mp mp := ⟨rfl, rfl, le_rfl⟩

theorem trans (h : Grown mp mp') (h' : Grown mp' mp'') : Grown mp mp'' where
  nrows := h'.nrows.trans h.nrows
  ncols := h'.ncols.trans h.ncols
  vi := h.vi.trans h'.vi

/-- The fuel that was enough for the smaller maze is enough for the rest. -/
theorem fuel (h : Grown mp mp') {fuel : ℕ} (hf : mp.nrows * mp.ncols < fuel + mp.vi) :
    mp'.nrows * mp'.ncols < fuel + mp'.vi := by
  have hvi := h.vi
  rw [h.nrows, h.ncols]
  omega

end Grown

theorem Walled.grown (h : Walled mp mp') : Grown mp mp' := ⟨h.nrows, h.ncols, h.vi.ge⟩

/-- Each round but the last visits a cell. -/
theorem segmentLoop_spec (fuel : ℕ) : ∀ {mp : Maze} {cur : Rowcol} {e : Side} (r : Rnd),
    Active mp (step cur e) cur → mp.nrows * mp.ncols < fuel + mp.vi →
    ∃ mp' r', segmentLoop fuel mp (step cur e) cur r = some (mp', r') ∧ Grown mp mp' ∧ Idle mp' := by
  induction fuel with
  | zero =>
    intro mp cur e r h hf
    have hle := h.inv.vi_le
    omega
  | succ fuel ih =>
    intro mp cur e r h hf
    rw [segmentLoop]
    obtain ⟨r', ⟨d, hgo, hc⟩ | hc | ⟨hc, hn⟩⟩ := h.chooseNextCell_spec r
    · obtain ⟨m, hb, hr, hcol, hvi, ha⟩ := h.grow hgo
      have ha : Active m (step (step cur d) d.opp) (step cur d) := by rwa [step_opp]
      obtain ⟨mp', r'', hl, hg, hi⟩ := ih r' ha (by rw [hr, hcol, hvi]; push_cast at hf ⊢; omega)
      rw [step_opp] at hl
      refine ⟨mp', r'', ?_, Grown.trans ⟨hr, hcol, hvi ▸ Nat.le_succ _⟩ hg, hi⟩
      rw [hc]
      simp only [Option.bind_eq_bind, Option.bind_some, hb, hl]
    · obtain ⟨m, hb, hw, hi⟩ := h.stop
      refine ⟨m, r', ?_, hw.grown, hi⟩
      rw [hc]
      simp only [Option.bind_eq_bind, Option.bind_some, hb]
    · exact ⟨mp, r', by rw [hc]; rfl, Grown.refl mp, h.stuck hn⟩

/-- A segment from `prev` over `cur`. -/
theorem constructSegment_spec {fuel : ℕ} (h : Active mp (step cur e) cur)
    (hf : mp.nrows * mp.ncols < fuel + mp.vi) (r : Rnd) :
    ∃ mp' r', constructSegment fuel mp (step cur e) cur r = some (mp', r') ∧ Grown mp mp' ∧ Idle mp' := by
  rw [constructSegment, if_neg (step_ne cur e)]
  exact segmentLoop_spec fuel r h hf

/-- The first segment starts with its first two cells the same. -/
theorem constructSegment_start {fuel : ℕ} (h : Active mp cur cur)
    (hf : mp.nrows * mp.ncols < fuel + mp.vi) (r : Rnd) :
    ∃ mp' r', constructSegment fuel mp cur cur r = some (mp', r') ∧ Grown mp mp' ∧ Idle mp' := by
  rw [constructSegment, if_pos rfl]
  obtain ⟨hc, hn⟩ | ⟨d, hgo, hc⟩ := h.findAnyNextCell_spec
  · exact ⟨mp, r, by rw [hc]; rfl, Grown.refl mp, h.stuck hn⟩
  · obtain ⟨m, hb, hr, hcol, hvi, ha⟩ := h.grow hgo
    have ha : Active m (step (step cur d) d.opp) (step cur d) := by rwa [step_opp]
    have hg : Grown mp m := ⟨hr, hcol, hvi ▸ Nat.le_succ _⟩
    obtain ⟨mp', r', hl, hg', hi⟩ := segmentLoop_spec fuel r ha (hg.fuel hf)
    rw [step_opp] at hl
    refine ⟨mp', r', ?_, hg.trans hg', hi⟩
    rw [hc]
    simp only [Option.bind_eq_bind, Option.bind_some, hb, hl]

end Maze
end Perfbook
