/-
# Where the next segment starts

`maze_find_boundary` looks at the cells that were visited, one after the other
from a random one, in a ring. When it finds one with a neighbour that was not
visited it removes the wall and visits the neighbour, and a segment grows there.
It finds none only if there is none, so every segment but the last is followed
by another, and each visits a cell.

Key definitions: `Fresh`, `openWall`.
Key theorems: `Idle.open`, `boundaryLoop_spec`, `findBoundary_spec`,
`createLoop_spec`.
-/
import Perfbook.Maze.Segment

namespace Perfbook
namespace Maze

variable {mp mp' : Maze} {p q : Rowcol} {d e : Side} {i k n start : ℕ}

/-- A neighbour that was not visited. -/
def Fresh (mp : Maze) (p : Rowcol) (d : Side) : Prop :=
  mp.CellExists (step p d) ∧ (mp.cell (step p d)).visited = false

/-! ### A ring of indices -/

/-- The next index of the ring. -/
theorem ring_next (hn : 0 < n) (v : ℕ) : (if v % n + 1 ≥ n then 0 else v % n + 1) = (v + 1) % n := by
  have hlt := Nat.mod_lt v hn
  rw [← Nat.mod_add_mod v n 1]
  by_cases he : v % n + 1 = n
  · rw [he, if_pos le_rfl, Nat.mod_self]
  · rw [if_neg (by omega), Nat.mod_eq_of_lt (by omega : v % n + 1 < n)]

/-- The index is the first one again after a whole round. -/
theorem ring_start (hs : start < n) (hk : 0 < k) (hkn : k ≤ n) : (start + k) % n = start ↔ k = n := by
  by_cases hlt : start + k < n
  · rw [Nat.mod_eq_of_lt hlt]
    omega
  · rw [Nat.mod_eq_sub_mod (by omega), Nat.mod_eq_of_lt (by omega)]
    omega

/-- A round meets every index. -/
theorem ring_all (hs : start < n) (hi : i < n) : ∃ k < n, (start + k) % n = i := by
  by_cases hle : start ≤ i
  · refine ⟨i - start, by omega, ?_⟩
    rw [Nat.add_sub_cancel' hle, Nat.mod_eq_of_lt hi]
  · refine ⟨i + n - start, by omega, ?_⟩
    rw [Nat.add_sub_cancel' (by omega), Nat.add_mod_right, Nat.mod_eq_of_lt hi]

/-! ### The neighbours of one cell -/

/-- What `maze_find_boundary` has found is a neighbour that was not visited. -/
def Found (mp : Maze) (p : Rowcol) (c : Option Rowcol) : Prop := ∀ q ∈ c, ∃ d, q = step p d ∧ mp.Fresh p d

theorem boundaryCell_spec (d : Side) {c : Option Rowcol} (hc : mp.Found p c) (r : Rnd) :
    ∃ c' r', mp.boundaryCell (step p d) c r = some (c', r') ∧ mp.Found p c' ∧
      (c' = none → c = none ∧ ¬ mp.Fresh p d) := by
  unfold boundaryCell
  by_cases hf : mp.Fresh p d
  · have hstep : mp.Found p (some (step p d)) := by
      intro q hq
      obtain rfl : step p d = q := by simpa using hq
      exact ⟨d, rfl, hf⟩
    rw [cellVisited_eq hf.1, hf.2]
    simp only [Option.bind_eq_bind, Option.bind_some, Bool.false_eq_true, if_false]
    by_cases hn : c = none
    · exact ⟨_, _, if_pos hn, hstep, nofun⟩
    · refine ⟨_, _, if_neg hn, ?_, fun he => ?_⟩
      · split
        · exact hstep
        · exact hc
      · split at he
        · cases he
        · exact absurd he hn
  · refine ⟨c, r, ?_, hc, fun hn => ⟨hn, hf⟩⟩
    by_cases hex : mp.CellExists (step p d)
    · have hv : (mp.cell (step p d)).visited = true := by
        rw [← Bool.not_eq_false]
        exact fun hv => hf ⟨hex, hv⟩
      rw [cellVisited_eq hex, hv]
      rfl
    · rw [cellVisited_of_not hex]
      rfl

/-! ### A wall is removed -/

theorem Inv.setLastvi (h : Inv mp) (hi : i < mp.vi) : Inv { mp with lastvi := some i } :=
  { h with
    lastvi := fun k hk => by
      obtain rfl : i = k := by simpa using hk
      exact hi }

/-- A neighbour of cell number `i` is visited, which had a wall to all other cells. -/
theorem Inv.visit_active (h : Inv mp) (hi : i < mp.vi) (hf : mp.Fresh (mp.visited i) d)
    (hw : (mp.cell (mp.visited i)).wall d = false)
    (hself : ∀ e, e ≠ d → mp.Fresh (mp.visited i) e → (mp.cell (mp.visited i)).wall e = true)
    (hother : ∀ j < mp.vi, j ≠ i → mp.Closed (mp.visited j)) (hn : n ≤ mp.vi + 1) :
    Active (mp.visit (step (mp.visited i) d) n) (mp.visited i) (step (mp.visited i) d) := by
  obtain ⟨hq, hv⟩ := hf
  refine ⟨h.visit hi hq hv hw hother hn, visit_visited_new n, fun j hj => ?_, ?_, fun e he hve hwe => ?_⟩
  · have hj : j < mp.vi := Nat.lt_of_succ_lt_succ hj
    rw [visit_visited_old hj]
    by_cases hji : j = i
    · subst hji
      intro e he hve
      have hne : step (mp.visited j) e ≠ step (mp.visited j) d := fun hs => by
        rw [hs, visit_cell_self] at hve
        cases hve
      rw [visit_cell_ne hne] at hve
      rw [visit_wall]
      exact hself e (fun hed => hne (hed ▸ rfl)) ⟨he, hve⟩
    · exact (hother j hj hji).visit n
  · rw [visit_cell_ne (step_ne _ d).symm]
    exact h.visited_bit hi
  · rw [visit_cell_ne (step_ne _ e)] at hve
    rw [visit_wall] at hwe
    obtain ⟨j, hj, hje⟩ := (h.bit _ he).mp hve
    obtain rfl := h.only hq hv hother hj hje hwe
    exact hje.symm

/-- The neighbour of cell number `i` is visited, with no wall to it. -/
def openWall (mp : Maze) (i : ℕ) (d : Side) : Maze :=
  (mp.setWalls (mp.visited i) d false).visit (step (mp.visited i) d)
    ((mp.cell (mp.visited i)).cookie + 1)

theorem Idle.visitCell_open (h : Idle mp) (hi : i < mp.vi) (hf : mp.Fresh (mp.visited i) d) :
    (mp.setWalls (mp.visited i) d false).visitCell (step (mp.visited i) d)
      ((mp.cell (mp.visited i)).cookie + 1) = some (mp.openWall i d) := by
  have hroom := h.inv.vi_lt hf.1 hf.2
  have hsize := h.inv.size
  have hdist := h.inv.dist i hi
  exact visitCell_eq hf.1 hf.2 hroom (by omega)

theorem Idle.open (h : Idle mp) (hi : i < mp.vi) (hf : mp.Fresh (mp.visited i) d) :
    Active (mp.openWall i d) (mp.visited i) (step (mp.visited i) d) := by
  have hwall : ∀ j < mp.vi, ∀ e, ¬ (j = i ∧ e = d) →
      ((mp.setWalls (mp.visited i) d false).cell (mp.visited j)).wall e =
        (mp.cell (mp.visited j)).wall e := by
    intro j hj e hne
    rw [setWalls_wall, if_neg]
    rintro (⟨h1, h2⟩ | ⟨h1, -⟩)
    · exact hne ⟨h.inv.inj j hj i hi h1, h2⟩
    · have := h.inv.visited_bit hj
      rw [h1, hf.2] at this
      cases this
  refine (h.inv.setWalls (h.inv.inside i hi) hf.1 (.inl hf.2)).visit_active hi hf
    (if_pos (.inl ⟨rfl, rfl⟩)) (fun e he hfe => ?_) (fun j hj hji e he hve => ?_) ?_
  · exact (hwall i hi e fun hc => he hc.2).trans (h.closed i hi e hfe.1 hfe.2)
  · exact (hwall j hj e fun hc => hji hc.1).trans (h.closed j hj e he hve)
  · exact Nat.succ_le_succ ((h.inv.dist i hi).trans hi)

theorem Active.setLastvi {prev cur : Rowcol} (h : Active mp prev cur) (hi : i < mp.vi) :
    Active { mp with lastvi := some i } prev cur :=
  { h with inv := h.inv.setLastvi hi }

/-! ### The search -/

/-- A cell was visited next to another one, and a segment starts there. -/
def Opened (mp : Maze) (res : Option (Option (Rowcol × Rowcol) × Maze × Rnd)) : Prop :=
  ∃ cur e mp' r', res = some (some (step cur e, cur), mp', r') ∧ Grown mp mp' ∧ mp.vi < mp'.vi ∧
    Active mp' (step cur e) cur

/-- The cells up to index `start + k` of the ring have no neighbour that was not visited. -/
theorem boundaryLoop_spec (h : Idle mp) (hs : start < mp.vi) (fuel : ℕ) : ∀ (k : ℕ) (r : Rnd),
    k + fuel = mp.vi → 0 < fuel →
    (∀ j < k, ∀ d, ¬ mp.Fresh (mp.visited ((start + j) % mp.vi)) d) →
    mp.Opened (mp.boundaryLoop mp.vi start fuel ((start + k) % mp.vi) r) ∨
      ∃ r', mp.boundaryLoop mp.vi start fuel ((start + k) % mp.vi) r = some (none, mp, r') ∧
        ∀ i < mp.vi, ∀ d, ¬ mp.Fresh (mp.visited i) d := by
  have hpos := h.inv.pos
  induction fuel with
  | zero => exact fun _ _ _ h0 => absurd h0 (lt_irrefl 0)
  | succ fuel ih =>
    intro k r hk _ hdone
    have hi := Nat.mod_lt (start + k) hpos
    have hp := h.inv.inside _ hi
    have f0 : mp.Found (mp.visited ((start + k) % mp.vi)) none := nofun
    obtain ⟨c1, r1, h1, f1, n1⟩ := boundaryCell_spec .up f0 r
    obtain ⟨c2, r2, h2, f2, n2⟩ := boundaryCell_spec .down f1 r1
    obtain ⟨c3, r3, h3, f3, n3⟩ := boundaryCell_spec .left f2 r2
    obtain ⟨c4, r4, h4, f4, n4⟩ := boundaryCell_spec .right f3 r3
    simp only [step] at h1 h2 h3 h4
    rw [boundaryLoop]
    simp only [Option.bind_eq_bind, Option.bind_some, h1, h2, h3, h4]
    cases c4 with
    | some q =>
      obtain ⟨d, rfl, hf⟩ := f4 q rfl
      have ho := (h.open hi hf).setLastvi (Nat.lt_succ_of_lt hi)
      refine .inl ⟨step (mp.visited ((start + k) % mp.vi)) d, d.opp, { mp.openWall ((start + k) % mp.vi) d with
          lastvi := some ((start + k) % mp.vi) }, r4, ?_, ⟨rfl, rfl, Nat.le_succ _⟩, Nat.lt_succ_self _, ?_⟩
      · simp only [getCellDistance_eq hp, removeWall_eq hp hf.1, Option.bind_some,
          h.visitCell_open hi hf, step_opp]
      · rw [step_opp]
        exact ho
    | none =>
      have hnone : ∀ d, ¬ mp.Fresh (mp.visited ((start + k) % mp.vi)) d := by
        obtain ⟨e3, g4⟩ := n4 rfl
        obtain ⟨e2, g3⟩ := n3 e3
        obtain ⟨e1, g2⟩ := n2 e2
        obtain ⟨-, g1⟩ := n1 e1
        intro d
        cases d with
        | up => exact g1
        | down => exact g2
        | right => exact g4
        | left => exact g3
      have hdone' : ∀ j < k + 1, ∀ d, ¬ mp.Fresh (mp.visited ((start + j) % mp.vi)) d := by
        intro j hj
        obtain hj | rfl := Nat.lt_succ_iff_lt_or_eq.mp hj
        · exact hdone j hj
        · exact hnone
      rw [ring_next hpos, if_neg (not_not.mpr rfl), Nat.add_assoc]
      by_cases hround : k + 1 = mp.vi
      · -- the whole ring was looked at
        rw [if_neg (not_not.mpr ((ring_start hs k.succ_pos hround.le).mpr hround))]
        refine .inr ⟨r4, rfl, fun i hi => ?_⟩
        obtain ⟨j, hj, rfl⟩ := ring_all hs hi
        exact hdone' j (by omega)
      · rw [if_pos fun he => hround ((ring_start hs k.succ_pos (by omega)).mp he)]
        exact ih (k + 1) r4 (by omega) (by omega) hdone'

theorem findBoundary_spec (h : Idle mp) (r : Rnd) :
    mp.Opened (mp.findBoundary r) ∨ ∃ r', mp.findBoundary r = some (none, mp, r') ∧
      ∀ i < mp.vi, ∀ d, ¬ mp.Fresh (mp.visited i) d := by
  have hloop : ∀ i < mp.vi, ∀ r, mp.Opened (mp.boundaryLoop mp.vi i mp.vi i r) ∨
      ∃ r', mp.boundaryLoop mp.vi i mp.vi i r = some (none, mp, r') ∧
        ∀ i < mp.vi, ∀ d, ¬ mp.Fresh (mp.visited i) d := by
    intro i hi r
    have := boundaryLoop_spec h hi mp.vi 0 r (Nat.zero_add _) h.inv.pos nofun
    rwa [Nat.add_zero, Nat.mod_eq_of_lt hi] at this
  have hmod : ∀ x, x % mp.vi < mp.vi := fun x => Nat.mod_lt x h.inv.pos
  unfold findBoundary
  cases hl : mp.lastvi with
  | none => exact hloop _ (hmod _) _
  | some k =>
    by_cases hb : (r 0).testBit 0
    · simp only [hb, if_true]
      exact hloop _ (hmod _) _
    · simp only [hb, Bool.false_eq_true, if_false]
      exact hloop k (h.inv.lastvi k hl) _

/-- Each round but the last visits a cell. -/
theorem createLoop_spec {segFuel : ℕ} (fuel : ℕ) : ∀ {mp : Maze} (r : Rnd), Idle mp →
    mp.nrows * mp.ncols < fuel + mp.vi → mp.nrows * mp.ncols < segFuel + mp.vi →
    ∃ mp' r', createLoop segFuel fuel mp r = some (mp', r') ∧ Grown mp mp' ∧ Idle mp' ∧
      ∀ i < mp'.vi, ∀ d, ¬ mp'.Fresh (mp'.visited i) d := by
  induction fuel with
  | zero =>
    intro mp r h hf
    have hle := h.inv.vi_le
    omega
  | succ fuel ih =>
    intro mp r h hf hseg
    rw [createLoop]
    obtain ⟨cur, e, m, r1, hb, hg, hlt, ha⟩ | ⟨r1, hb, hn⟩ := findBoundary_spec h r
    · obtain ⟨m', r2, hc, hg', hi⟩ := constructSegment_spec ha (hg.fuel hseg) r1
      have hgrown := hg.trans hg'
      have hvi := hg'.vi
      obtain ⟨mp', r3, hl, hg'', hi', hn⟩ := ih r2 hi
        (by rw [hgrown.nrows, hgrown.ncols]; push_cast at hf; omega) (hgrown.fuel hseg)
      refine ⟨mp', r3, ?_, hgrown.trans hg'', hi', hn⟩
      rw [hb]
      simp only [Option.bind_eq_bind, Option.bind_some, hc, hl]
    · exact ⟨mp, r1, by rw [hb]; rfl, Grown.refl mp, h, hn⟩

end Maze
end Perfbook
