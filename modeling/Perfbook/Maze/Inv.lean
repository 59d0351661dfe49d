/-
# The invariant of a maze that grows

The cells that were visited are numbered in the order of their visits. Each but
the first has an open side toward exactly one of those before it (`Inv.parent`),
and every cell that a segment has left has walls toward all that were not
visited (`Closed`). So a cell is joined to one cell when it is visited, and the
walls that are built or removed later do not change what is joined.

Key definitions: `Linked`, `Closed`, `Inv`.
Key theorems: `Inv.vi_lt`, `Inv.setWalls`, `Inv.visit`.
-/
import Mathlib.Data.Finset.Prod
import Perfbook.Maze.Ops

namespace Perfbook
namespace Maze

variable {mp mp' : Maze} {p q cur prev next : Rowcol} {d e : Side} {i j : ℕ}

/-- Over an open side of cell number `i` is cell number `j`. -/
def Linked (mp : Maze) (i j : ℕ) : Prop :=
  ∃ d, mp.visited j = step (mp.visited i) d ∧ (mp.cell (mp.visited i)).wall d = false

/-- Walls toward all neighbours that were not visited. -/
def Closed (mp : Maze) (p : Rowcol) : Prop :=
  ∀ d, mp.CellExists (step p d) → (mp.cell (step p d)).visited = false → (mp.cell p).wall d = true

/-- Both cells have the wall between them, or none of them. -/
def Symmetric (mp : Maze) : Prop :=
  ∀ p d, mp.CellExists p → mp.CellExists (step p d) →
    (mp.cell (step p d)).wall d.opp = (mp.cell p).wall d

structure Inv (mp : Maze) : Prop where
  nrows : 1 ≤ mp.nrows
  ncols : 1 ≤ mp.ncols
  size : mp.nrows * mp.ncols ≤ cookieMask
  pos : 0 < mp.vi
  inside : ∀ i < mp.vi, mp.CellExists (mp.visited i)
  inj : ∀ i < mp.vi, ∀ j < mp.vi, mp.visited i = mp.visited j → i = j
  bit : ∀ p, mp.CellExists p → ((mp.cell p).visited = true ↔ ∃ i < mp.vi, mp.visited i = p)
  symm : mp.Symmetric
  dist : ∀ i < mp.vi, (mp.cell (mp.visited i)).cookie ≤ i + 1
  parent : ∀ i < mp.vi, 0 < i → ∃! j, j < i ∧ mp.Linked i j
  lastvi : ∀ k, mp.lastvi = some k → k < mp.vi

/-! ### Counting -/

/-- The cells of the maze. -/
def cells (mp : Maze) : Finset Rowcol :=
  (Finset.range mp.nrows.toNat ×ˢ Finset.range mp.ncols.toNat).image fun k => (↑k.1, ↑k.2)

theorem mem_cells : p ∈ mp.cells ↔ mp.CellExists p := by
  simp only [cells, Finset.mem_image, Finset.mem_product, Finset.mem_range, CellExists]
  constructor
  · rintro ⟨k, hk, rfl⟩
    exact ⟨by omega, by omega, by omega, by omega⟩
  · rintro ⟨h1, h2, h3, h4⟩
    exact ⟨(p.1.toNat, p.2.toNat), by omega, Prod.ext (by omega) (by omega)⟩

theorem card_cells (hr : 0 ≤ mp.nrows) (hc : 0 ≤ mp.ncols) : (mp.cells.card : ℤ) = mp.nrows * mp.ncols := by
  have hinj : Function.Injective fun k : ℕ × ℕ => ((k.1 : ℤ), (k.2 : ℤ)) := fun k l he =>
    Prod.ext (Int.ofNat_inj.mp (congrArg Prod.fst he)) (Int.ofNat_inj.mp (congrArg Prod.snd he))
  rw [cells, Finset.card_image_of_injective _ hinj, Finset.card_product, Finset.card_range,
    Finset.card_range]
  push_cast
  rw [Int.toNat_of_nonneg hr, Int.toNat_of_nonneg hc]

/-- The cells that were listed. -/
theorem card_visited (hinj : ∀ i < mp.vi, ∀ j < mp.vi, mp.visited i = mp.visited j → i = j) :
    ((Finset.range mp.vi).image mp.visited).card = mp.vi := by
  rw [Finset.card_image_of_injOn, Finset.card_range]
  intro i hi j hj he
  exact hinj i (by simpa using hi) j (by simpa using hj) he

theorem visited_subset (hinside : ∀ i < mp.vi, mp.CellExists (mp.visited i)) :
    (Finset.range mp.vi).image mp.visited ⊆ mp.cells := by
  intro p hp
  obtain ⟨i, hi, rfl⟩ := Finset.mem_image.mp hp
  exact mem_cells.mpr (hinside i (Finset.mem_range.mp hi))

/-- With a cell that is not listed, there is room for one more entry. -/
theorem vi_lt_size (hinside : ∀ i < mp.vi, mp.CellExists (mp.visited i))
    (hinj : ∀ i < mp.vi, ∀ j < mp.vi, mp.visited i = mp.visited j → i = j) (hp : mp.CellExists p)
    (hnot : ∀ i < mp.vi, mp.visited i ≠ p) : (mp.vi : ℤ) < mp.nrows * mp.ncols := by
  have hpos := hp
  unfold CellExists at hpos
  have hcard : (mp.cells.card : ℤ) = mp.nrows * mp.ncols := card_cells (by omega) (by omega)
  rw [← hcard, ← card_visited hinj]
  refine Int.ofNat_lt.mpr (Finset.card_lt_card (Finset.ssubset_iff_subset_ne.mpr
    ⟨visited_subset hinside, fun he => ?_⟩))
  have hmem := mem_cells.mpr hp
  rw [← he] at hmem
  obtain ⟨i, hi, hip⟩ := Finset.mem_image.mp hmem
  exact hnot i (Finset.mem_range.mp hi) hip

namespace Inv

theorem card (h : Inv mp) : (mp.cells.card : ℤ) = mp.nrows * mp.ncols :=
  card_cells (le_trans zero_le_one h.nrows) (le_trans zero_le_one h.ncols)

theorem vi_le (h : Inv mp) : (mp.vi : ℤ) ≤ mp.nrows * mp.ncols := by
  rw [← h.card, ← card_visited h.inj]
  exact_mod_cast Finset.card_le_card (visited_subset h.inside)

/-- There is room for a cell that was not visited. -/
theorem vi_lt (h : Inv mp) (hp : mp.CellExists p) (hv : (mp.cell p).visited = false) :
    (mp.vi : ℤ) < mp.nrows * mp.ncols := by
  refine vi_lt_size h.inside h.inj hp fun i hi hip => ?_
  have := (h.bit p hp).mpr ⟨i, hi, hip⟩
  rw [hv] at this
  cases this

theorem vi_eq (h : Inv mp) (hall : ∀ p, mp.CellExists p → (mp.cell p).visited = true) :
    (mp.vi : ℤ) = mp.nrows * mp.ncols := by
  refine le_antisymm h.vi_le ?_
  rw [← h.card, ← card_visited h.inj]
  refine Int.ofNat_le.mpr (Finset.card_le_card fun p hp => ?_)
  obtain ⟨i, hi, hip⟩ := (h.bit p (mem_cells.mp hp)).mp (hall p (mem_cells.mp hp))
  exact Finset.mem_image.mpr ⟨i, Finset.mem_range.mpr hi, hip⟩

theorem visited_bit (h : Inv mp) (hi : i < mp.vi) : (mp.cell (mp.visited i)).visited = true :=
  (h.bit _ (h.inside i hi)).mpr ⟨i, hi, rfl⟩

end Inv

/-! ### Walls -/

@[simp] theorem setWalls_visited (b : Bool) : ((mp.setWalls p d b).cell q).visited = (mp.cell q).visited :=
  rfl

theorem setWalls_wall (b : Bool) : ((mp.setWalls p d b).cell q).wall e =
    if q = p ∧ e = d ∨ q = step p d ∧ e = d.opp then b else (mp.cell q).wall e := rfl

theorem setWalls_symm (h : mp.Symmetric) (b : Bool) : (mp.setWalls p d b).Symmetric := by
  intro q e hq hqe
  rw [setWalls_wall, setWalls_wall]
  have hiff : (step q e = p ∧ e.opp = d ∨ step q e = step p d ∧ e.opp = d.opp) ↔
      (q = p ∧ e = d ∨ q = step p d ∧ e = d.opp) := by
    constructor
    · rintro (⟨rfl, rfl⟩ | ⟨h1, h2⟩)
      · exact .inr ⟨(step_opp q e).symm, (opp_opp e).symm⟩
      · have he : e = d := by rw [← opp_opp e, h2, opp_opp]
        subst he
        refine .inl ⟨?_, rfl⟩
        rw [← step_opp q e, h1, step_opp]
    · rintro (⟨rfl, rfl⟩ | ⟨rfl, rfl⟩)
      · exact .inr ⟨rfl, rfl⟩
      · exact .inl ⟨step_opp p d, opp_opp d⟩
  by_cases hc : q = p ∧ e = d ∨ q = step p d ∧ e = d.opp
  · rw [if_pos (hiff.mpr hc), if_pos hc]
  · rw [if_neg (hiff.not.mpr hc), if_neg hc]
    exact h q e hq hqe

/-- A wall toward a cell that was not visited, or one that is there already, changes nothing
about what is joined. -/
theorem Inv.setWalls (h : Inv mp) {b : Bool} (hp : mp.CellExists p) (hq : mp.CellExists (step p d))
    (hb : (mp.cell (step p d)).visited = false ∨ (mp.cell p).wall d = b) : Inv (mp.setWalls p d b) := by
  have hwall : ∀ i < mp.vi, ∀ j < mp.vi, ∀ e, mp.visited j = step (mp.visited i) e →
      ((mp.setWalls p d b).cell (mp.visited i)).wall e = (mp.cell (mp.visited i)).wall e := by
    intro i hi j hj e hje
    rw [setWalls_wall]
    split
    · rename_i hc
      obtain hv | hw := hb
      · -- one of the two was not visited
        exfalso
        obtain ⟨h1, h2⟩ | ⟨h1, h2⟩ := hc
        · have := h.visited_bit hj
          rw [hje, h1, h2, hv] at this
          cases this
        · have := h.visited_bit hi
          rw [h1, hv] at this
          cases this
      · obtain ⟨h1, h2⟩ | ⟨h1, h2⟩ := hc
        · rw [h1, h2, hw]
        · rw [h1, h2, h.symm p d hp hq, hw]
    · rfl
  have hlink : ∀ i < mp.vi, ∀ j < mp.vi, (mp.setWalls p d b).Linked i j ↔ mp.Linked i j := by
    intro i hi j hj
    refine exists_congr fun e => and_congr_right fun hje => ?_
    rw [← hwall i hi j hj e hje]
    rfl
  refine { h with symm := setWalls_symm h.symm b, parent := fun i hi h0 => ?_ }
  obtain ⟨j, ⟨hji, hl⟩, hu⟩ := h.parent i hi h0
  refine ⟨j, ⟨hji, (hlink i hi j (lt_trans hji hi)).mpr hl⟩, fun k ⟨hki, hk⟩ => hu k ⟨hki, ?_⟩⟩
  exact (hlink i hi k (lt_trans hki hi)).mp hk

/-! ### A visit -/

/-- Only `j` can be joined to a new cell if all others are closed. -/
theorem Inv.only (h : Inv mp) (hq : mp.CellExists q) (hv : (mp.cell q).visited = false)
    (hclosed : ∀ i < mp.vi, i ≠ j → mp.Closed (mp.visited i)) (hi : i < mp.vi)
    (he : mp.visited i = step q e) (hw : (mp.cell q).wall e = false) : i = j := by
  by_contra hij
  have hback : step (mp.visited i) e.opp = q := by rw [he, step_opp]
  have := hclosed i hi hij e.opp (by rwa [hback]) (by rwa [hback])
  rw [he, h.symm q e hq (by rw [← he]; exact h.inside i hi), hw] at this
  cases this

theorem visit_visited_old (hi : i < mp.vi) (n : ℕ) : (mp.visit q n).visited i = mp.visited i :=
  Function.update_of_ne (Nat.ne_of_lt hi) ..

@[simp] theorem visit_visited_new (n : ℕ) : (mp.visit q n).visited mp.vi = q := Function.update_self ..

theorem visit_cell_ne (hp : p ≠ q) (n : ℕ) : (mp.visit q n).cell p = mp.cell p :=
  Function.update_of_ne hp ..

theorem visit_cell_self (n : ℕ) :
    (mp.visit q n).cell q = { mp.cell q with visited := true, cookie := n } := Function.update_self ..

@[simp] theorem visit_wall (n : ℕ) : ((mp.visit q n).cell p).wall = (mp.cell p).wall := by
  by_cases hp : p = q
  · rw [hp, visit_cell_self]
  · rw [visit_cell_ne hp]

/-- A neighbour of cell number `j` is visited, over an open side. -/
theorem Inv.visit (h : Inv mp) {n : ℕ} (hj : j < mp.vi) (hq : mp.CellExists (step (mp.visited j) d))
    (hv : (mp.cell (step (mp.visited j) d)).visited = false)
    (hw : (mp.cell (mp.visited j)).wall d = false)
    (hclosed : ∀ i < mp.vi, i ≠ j → mp.Closed (mp.visited i)) (hn : n ≤ mp.vi + 1) :
    Inv (mp.visit (step (mp.visited j) d) n) := by
  generalize hqd : step (mp.visited j) d = q at *
  have hne : ∀ i < mp.vi, mp.visited i ≠ q := fun i hi he => by
    have := h.visited_bit hi
    rw [he, hv] at this
    cases this
  have hlt : ∀ {i}, i < mp.vi + 1 → i ≠ mp.vi → i < mp.vi := fun hi hne => by omega
  refine
    { nrows := h.nrows, ncols := h.ncols, size := h.size, pos := Nat.succ_pos _
      inside := fun i hi => ?_, inj := fun i hi k hk he => ?_, bit := fun p hp => ?_
      symm := fun p e hp hpe => ?_, dist := fun i hi => ?_, parent := fun i hi h0 => ?_
      lastvi := fun k hk => Nat.lt_succ_of_lt (h.lastvi k hk) }
  · by_cases hi' : i = mp.vi
    · rw [hi', visit_visited_new]
      exact hq
    · rw [visit_visited_old (hlt hi hi')]
      exact h.inside i (hlt hi hi')
  · by_cases hi' : i = mp.vi <;> by_cases hk' : k = mp.vi
    · rw [hi', hk']
    · rw [hi', visit_visited_new, visit_visited_old (hlt hk hk')] at he
      exact absurd he.symm (hne k (hlt hk hk'))
    · rw [hk', visit_visited_new, visit_visited_old (hlt hi hi')] at he
      exact absurd he (hne i (hlt hi hi'))
    · rw [visit_visited_old (hlt hi hi'), visit_visited_old (hlt hk hk')] at he
      exact h.inj i (hlt hi hi') k (hlt hk hk') he
  · by_cases hpq : p = q
    · rw [hpq, visit_cell_self]
      exact iff_of_true rfl ⟨mp.vi, Nat.lt_succ_self _, visit_visited_new n⟩
    · rw [visit_cell_ne hpq, h.bit p hp]
      constructor
      · rintro ⟨i, hi, hip⟩
        exact ⟨i, Nat.lt_succ_of_lt hi, (visit_visited_old hi n).trans hip⟩
      · rintro ⟨i, hi, hip⟩
        by_cases hi' : i = mp.vi
        · rw [hi', visit_visited_new] at hip
          exact absurd hip.symm hpq
        · rw [visit_visited_old (hlt hi hi')] at hip
          exact ⟨i, hlt hi hi', hip⟩
  · rw [visit_wall, visit_wall]
    exact h.symm p e hp hpe
  · by_cases hi' : i = mp.vi
    · rw [hi', visit_visited_new, visit_cell_self]
      exact hn
    · rw [visit_visited_old (hlt hi hi'), visit_cell_ne (hne i (hlt hi hi'))]
      exact h.dist i (hlt hi hi')
  · by_cases hi' : i = mp.vi
    · subst hi'
      have hback : step q d.opp = mp.visited j := by rw [← hqd, step_opp]
      refine ⟨j, ⟨hj, d.opp, ?_, ?_⟩, fun k ⟨hk, e, hke, hwe⟩ => ?_⟩
      · rw [visit_visited_new, visit_visited_old hj, hback]
      · have := h.symm _ d (h.inside j hj) (by rwa [hqd])
        rw [hqd] at this
        rw [visit_visited_new, visit_wall, this, hw]
      · rw [visit_visited_new, visit_visited_old hk] at hke
        rw [visit_visited_new, visit_wall] at hwe
        exact h.only hq hv hclosed hk hke hwe
    · have hi'' := hlt hi hi'
      have hlink : ∀ k < mp.vi, (mp.visit q n).Linked i k ↔ mp.Linked i k := by
        intro k hk
        unfold Linked
        rw [visit_visited_old hi'', visit_visited_old hk, visit_wall]
      obtain ⟨k, ⟨hki, hl⟩, hu⟩ := h.parent i hi'' h0
      refine ⟨k, ⟨hki, (hlink k (lt_trans hki hi'')).mpr hl⟩, fun k' ⟨hki', hl'⟩ => hu k' ⟨hki', ?_⟩⟩
      exact (hlink k' (lt_trans hki' hi'')).mp hl'

/-- A cell stays closed when another one is visited. -/
theorem Closed.visit (h : mp.Closed p) (n : ℕ) : (mp.visit q n).Closed p := by
  intro d hd hv
  rw [visit_wall]
  refine h d hd ?_
  by_cases hq : step p d = q
  · rw [hq, visit_cell_self] at hv
    cases hv
  · rwa [visit_cell_ne hq] at hv

end Maze
end Perfbook
