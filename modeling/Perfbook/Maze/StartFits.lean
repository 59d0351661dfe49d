/-
# Which start strategies find a place for each thread

Thread `i` of those without a start gets the `i`th of `n + 1` parts of a side, where `n` is at most the number of
columns. A part is on the side if `i` is at most `n + 1`, or the side has one cell (`frac_lt_iff`). So the loop of
a stripe has room for one thread more than it reckons with, and the next is placed outside of the maze. In the
pattern all parts are quarters.

An `int` that gets too large and an ID that does not fit into the cookie are the other ways for a start to fail.

Key definitions: `frac`, `OnSide`, `Valid`, `Fits`.
Key theorems: `frac_lt_iff`, `onSide_all`, `room_antidiagonal`, `start_assigns`, `solveStart_iff`.
-/
import Mathlib.Tactic.Ring
import Perfbook.Maze.Start

namespace Perfbook
namespace MazePart

open Maze (Rowcol Rnd cookieMask)

section

variable {n t : ℕ} {mp mp' : MazePart} {p : Rowcol}

/-! ### The fractions -/

section

variable {rc num den : ℤ} {m : ℕ}

/-- The value of `maze_row_col_frac`. -/
def frac (rc num den : ℤ) : ℤ := ((rc - 1) * num + den - 1) / den

theorem rowColFrac_eq (hrc : 1 ≤ rc) (hnum : 0 ≤ num) (hden : 1 ≤ den) : rowColFrac rc num den =
    if (rc - 1) * num + den ≤ INT_MAX then .ok (frac rc num den) else .error .undefined := by
  unfold rowColFrac
  rw [if_neg (by omega)]
  by_cases h : (rc - 1) * num + den ≤ INT_MAX
  · rw [if_neg (not_lt.mpr h), if_pos h]
    rfl
  · rw [if_pos (not_le.mp h), if_neg h]

theorem frac_nonneg (hrc : 1 ≤ rc) (hnum : 0 ≤ num) (hden : 1 ≤ den) : 0 ≤ frac rc num den := by
  have : 0 ≤ (rc - 1) * num := mul_nonneg (by omega) hnum
  exact Int.ediv_nonneg (by omega) (by omega)

/-- A fraction of `rc` is below `rc` if it is not more than all. -/
theorem frac_lt_iff (hrc : 1 ≤ rc) (hden : 1 ≤ den) : frac rc num den < rc ↔ rc = 1 ∨ num ≤ den := by
  unfold frac
  rw [Int.ediv_lt_iff_lt_mul (by omega)]
  have hmul : rc * den = (rc - 1) * den + den := by ring
  constructor
  · intro h
    by_contra hno
    rw [not_or] at hno
    have : (rc - 1) * (den + 1) ≤ (rc - 1) * num := Int.mul_le_mul_of_nonneg_left (by omega) (by omega)
    have hone : (rc - 1) * (den + 1) = (rc - 1) * den + (rc - 1) := by ring
    omega
  · rintro (rfl | h)
    · omega
    · have : (rc - 1) * num ≤ (rc - 1) * den := Int.mul_le_mul_of_nonneg_left h (by omega)
      omega

theorem frac_pos_iff (hrc : 1 ≤ rc) (hnum : 1 ≤ num) (hden : 1 ≤ den) : 1 ≤ frac rc num den ↔ 2 ≤ rc := by
  unfold frac
  rw [Int.le_ediv_iff_mul_le (by omega)]
  constructor
  · intro h
    by_contra hno
    obtain rfl : rc = 1 := by omega
    omega
  · intro h
    have : 1 * 1 ≤ (rc - 1) * num := Int.mul_le_mul (by omega) hnum (by omega) (by omega)
    omega

theorem rowColFrac_ne_fuel (rc num den : ℤ) : rowColFrac rc num den ≠ .error .fuel := by
  unfold rowColFrac
  split
  · nofun
  · split <;> nofun

/-- The largest number computed for `m` places on a side of `rc` cells, in `n + 1` parts, fits into an `int`. -/
def Small (rc n : ℤ) (m : ℕ) : Prop := (rc - 1) * m + (n + 1) ≤ INT_MAX

/-- Place `k` is on the side, and computed without an overflow. -/
def OnSide (rc n : ℤ) (k : ℕ) : Prop :=
  (rc - 1) * (1 + (k : ℤ)) + (n + 1) ≤ INT_MAX ∧ (rc = 1 ∨ 1 + (k : ℤ) ≤ n + 1)

/-- All `m` places are on the side if the last one is. -/
theorem onSide_all {n : ℤ} (hrc : 1 ≤ rc) :
    (∀ k < m, OnSide rc n k) ↔ m = 0 ∨ Small rc n m ∧ (rc = 1 ∨ (m : ℤ) ≤ n + 1) := by
  constructor
  · intro h
    cases m with
    | zero => exact .inl rfl
    | succ m =>
      have hlast := h m (Nat.lt_succ_self m)
      have hcast : 1 + (m : ℤ) = (m + 1 : ℕ) := by omega
      unfold OnSide at hlast
      rw [hcast] at hlast
      exact .inr hlast
  · rintro (rfl | ⟨hsmall, hle⟩) k hk
    · exact absurd hk (Nat.not_lt_zero k)
    · have : (rc - 1) * (1 + (k : ℤ)) ≤ (rc - 1) * m := Int.mul_le_mul_of_nonneg_left (by omega) (by omega)
      exact ⟨le_trans (by omega) hsmall, hle.imp_right fun hle => by omega⟩

/-- The fraction for place `k`, if it fits. -/
theorem rowColFrac_place {n : ℤ} (hrc : 1 ≤ rc) (hn : 0 ≤ n) (k : ℕ) : rowColFrac rc (1 + (k : ℤ)) (n + 1) =
    if (rc - 1) * (1 + (k : ℤ)) + (n + 1) ≤ INT_MAX then .ok (frac rc (1 + (k : ℤ)) (n + 1))
    else .error .undefined :=
  rowColFrac_eq hrc (by omega) (by omega)

end

/-! ### Which places are in the maze -/

section

variable {n : ℤ} {m : ℕ} (hr : 1 ≤ mp.nrows) (hc : 1 ≤ mp.ncols) (hn : 0 ≤ n)

include hc hn

theorem inside_horizontal {row : ℤ} (hrow : 0 ≤ row ∧ row < mp.nrows) (k : ℕ) :
    Inside mp (horizontalPlace mp row n (1 + (k : ℤ))) ↔ OnSide mp.ncols n k := by
  unfold horizontalPlace OnSide
  rw [rowColFrac_place hc hn, ← frac_lt_iff hc (by omega)]
  have : 0 ≤ frac mp.ncols (1 + (k : ℤ)) (n + 1) := frac_nonneg hc (by omega) (by omega)
  split
  · simp [Inside, Maze.CellExists, bind, Except.bind, *]
  · simp [Inside, bind, Except.bind, *]

include hr

omit hc in
theorem inside_vertical {col : ℤ} (hcol : 0 ≤ col ∧ col < mp.ncols) (k : ℕ) :
    Inside mp (verticalPlace mp col n (1 + (k : ℤ))) ↔ OnSide mp.nrows n k := by
  unfold verticalPlace OnSide
  rw [rowColFrac_place hr hn, ← frac_lt_iff hr (by omega)]
  have : 0 ≤ frac mp.nrows (1 + (k : ℤ)) (n + 1) := frac_nonneg hr (by omega) (by omega)
  split
  · simp [Inside, Maze.CellExists, bind, Except.bind, *]
  · simp [Inside, bind, Except.bind, *]

theorem inside_diagonal (k : ℕ) :
    Inside mp (diagonalPlace mp n (1 + (k : ℤ))) ↔ OnSide mp.nrows n k ∧ OnSide mp.ncols n k := by
  unfold diagonalPlace OnSide
  rw [rowColFrac_place hr hn, rowColFrac_place hc hn, ← frac_lt_iff hr (by omega), ← frac_lt_iff hc (by omega)]
  have : 0 ≤ frac mp.nrows (1 + (k : ℤ)) (n + 1) := frac_nonneg hr (by omega) (by omega)
  have : 0 ≤ frac mp.ncols (1 + (k : ℤ)) (n + 1) := frac_nonneg hc (by omega) (by omega)
  split
  · split
    · simp [Inside, Maze.CellExists, bind, Except.bind, *]
    · simp [Inside, bind, Except.bind, *]
  · simp [Inside, bind, Except.bind, *]

theorem inside_antidiagonal (k : ℕ) : Inside mp (antidiagonalPlace mp n (1 + (k : ℤ))) ↔
    ((mp.nrows - 1) * (1 + (k : ℤ)) + (n + 1) ≤ INT_MAX ∧ 2 ≤ mp.nrows ∧
      frac mp.nrows (1 + (k : ℤ)) (n + 1) ≤ mp.nrows) ∧ OnSide mp.ncols n k := by
  have hpos : 1 ≤ frac mp.nrows (1 + (k : ℤ)) (n + 1) ↔ 2 ≤ mp.nrows := frac_pos_iff hr (by omega) (by omega)
  unfold antidiagonalPlace OnSide
  rw [rowColFrac_place hr hn, rowColFrac_place hc hn, ← frac_lt_iff hc (by omega), ← hpos]
  have : 0 ≤ frac mp.ncols (1 + (k : ℤ)) (n + 1) := frac_nonneg hc (by omega) (by omega)
  have hsub : ∀ v : ℤ, mp.nrows - v < mp.nrows ↔ 1 ≤ v := fun v => by omega
  split
  · split
    · simp [Inside, Maze.CellExists, bind, Except.bind, *]
      tauto
    · simp [Inside, bind, Except.bind, *]
  · simp [Inside, bind, Except.bind, *]

end

/-! ### The strategies -/

/-- Every start is assigned and marked, however the random numbers come. -/
def Valid (n : ℕ) (run : ℕ → Rnd → Except Halt MazePart) : Prop :=
  ∀ fuel rnd, (∀ e, run fuel rnd = .error e → e = .fuel) ∧ ∀ mp', run fuel rnd = .ok mp' → AllStarted n mp'

/-- When every thread has a start, it is marked with its ID if that fits into the cookie. -/
theorem Started.allStarted (h : Started n mp) (hall : ∀ t < n, Has mp t) : AllStarted n mp ↔ n ≤ cookieMask + 1 := by
  have hmask : ∀ t, t &&& cookieMask = t % 2 ^ 26 := fun t => Nat.and_two_pow_sub_one_eq_mod t 26
  constructor
  · intro hs
    by_contra hn
    have ht : cookieMask + 1 < n := not_le.mp hn
    have hcookie := (h.start _ ht (hall _ ht)).2.2.1
    rw [(hs _ ht).2.2.1, hmask] at hcookie
    exact absurd hcookie (by decide)
  · intro hn t ht
    obtain ⟨hcell, hv, hcookie, hd⟩ := h.start t ht (hall t ht)
    refine ⟨hcell, hv, ?_, hd, fun u hu hut => h.ne t ht u hu (hall t ht) (hall u hu) hut⟩
    rw [hcookie, hmask]
    refine Nat.mod_eq_of_lt ?_
    have : cookieMask = 2 ^ 26 - 1 := by decide
    omega

/-- The starts up to the random ones: they are assigned, or there is a halt. -/
def Assigns (n : ℕ) (mp : MazePart) (x : Except Halt MazePart) (ok : Prop) : Prop :=
  (∃ mp', x = .ok mp' ∧ Later n mp mp' ∧ ok) ∨ ∃ e ≠ .fuel, x = .error e ∧ ¬ ok

theorem Assigns.congr {x : Except Halt MazePart} {ok ok' : Prop} (h : Assigns n mp x ok) (hok : ok ↔ ok') :
    Assigns n mp x ok' := by
  unfold Assigns
  rw [← hok]
  exact h

theorem Assigns.valid {x : Except Halt MazePart} {ok : Prop} (h : Assigns n mp x ok) (hr : 1 ≤ mp.nrows)
    (hc : 1 ≤ mp.ncols) (hn : (n : ℤ) < mp.nrows * mp.ncols) :
    Valid n (fun fuel rnd => x >>= fun mp => startRandom n fuel mp rnd >>= fun s => .ok s.1) ↔
      ok ∧ n ≤ cookieMask + 1 := by
  obtain ⟨mp₁, rfl, hlater, hok⟩ | ⟨e, he, rfl, hok⟩ := h
  · have hr₁ : 1 ≤ mp₁.nrows := by rw [hlater.nrows]; exact hr
    have hc₁ : 1 ≤ mp₁.ncols := by rw [hlater.ncols]; exact hc
    simp only [hok, true_and]
    constructor
    · intro hv
      obtain ⟨rnd, mp₂, rnd', hrun⟩ := startRandom_some hlater.started hr₁ hc₁
        (by rw [hlater.nrows, hlater.ncols]; exact hn)
      obtain hfuel | ⟨mp₃, rnd₃, hrun', hlater', hall⟩ := startRandom_spec hlater.started hr₁ hc₁ 1 rnd
      · rw [hrun] at hfuel
        cases hfuel
      · have hs := (hv 1 rnd).2 mp₃ (by simp only [bind, Except.bind, hrun'])
        exact (hlater'.started.allStarted hall).mp hs
    · intro hsmall fuel rnd
      obtain hfuel | ⟨mp₂, rnd', hrun, hlater', hall⟩ := startRandom_spec hlater.started hr₁ hc₁ fuel rnd
      · simp [bind, Except.bind, hfuel]
      · simp only [bind, Except.bind, hrun, reduceCtorEq, IsEmpty.forall_iff, implies_true, true_and]
        intro mp' hmp'
        cases hmp'
        exact (hlater'.started.allStarted hall).mpr hsmall
  · simp only [hok, false_and, iff_false]
    exact fun hv => he ((hv 0 fun _ => 0).1 e rfl)

theorem stripe_assigns {place : ℤ → Except Halt Rowcol} (hfuel : ∀ i, place i ≠ .error .fuel) (h : Started n mp) :
    Assigns n mp (stripe n place mp) (∀ k < without mp (List.range n), Inside mp (place (1 + (k : ℕ)))) :=
  stripe_spec hfuel h

end

/-- The strategy finds a place for each of the threads but the first two, in a maze that was built (`Fresh.built`).
With `m` of these, `c` columns and `n`
the smaller of `m` and `c`, a stripe over the columns holds `n + 1`. -/
def Fits (strategy : Strategy) (nrows ncols : ℤ) (nthreads : ℕ) : Prop :=
  let m := nthreads - 2
  match strategy with
  | .antidiagonal => m = 0 ∨ 2 ≤ nrows ∧ (m : ℤ) ≤ ncols + 1 ∧ Small nrows (min m ncols) m ∧ Small ncols (min m ncols) m
  | .diagonal => m = 0 ∨ (m : ℤ) ≤ ncols + 1 ∧ Small nrows (min m ncols) m ∧ Small ncols (min m ncols) m
  | .horizontal => nrows < INT_MAX ∧ (m = 0 ∨ (ncols = 1 ∨ (m : ℤ) ≤ ncols + 1) ∧ Small ncols (min m ncols) m)
  | .vertical => ncols < INT_MAX ∧ (m = 0 ∨ (nrows = 1 ∨ (m : ℤ) ≤ nrows + 1) ∧ Small nrows (min m nrows) m)
  | .spread => 4 * nrows ≤ INT_MAX ∧ 4 * ncols ≤ INT_MAX

section

variable {n m : ℕ} {mp mp' : MazePart}

theorem bind_ne_fuel {A B : Type} {x : Except Halt A} {f : A → Except Halt B} (hx : x ≠ .error .fuel)
    (hf : ∀ a, f a ≠ .error .fuel) : x >>= f ≠ .error .fuel := by
  cases x with
  | error e => exact fun h => hx (by cases h; rfl)
  | ok a => exact hf a

theorem le_min_add_iff {lim : ℤ} : (m : ℤ) ≤ min (m : ℤ) lim + 1 ↔ (m : ℤ) ≤ lim + 1 := by
  omega

theorem room_horizontal (hc : 1 ≤ mp.ncols) {row : ℤ} (hrow : 0 ≤ row ∧ row < mp.nrows) :
    (∀ k < m, Inside mp (horizontalPlace mp row (min (m : ℤ) mp.ncols) (1 + (k : ℕ)))) ↔
      m = 0 ∨ (mp.ncols = 1 ∨ (m : ℤ) ≤ mp.ncols + 1) ∧ Small mp.ncols (min m mp.ncols) m := by
  have hn : 0 ≤ min (m : ℤ) mp.ncols := by omega
  simp only [inside_horizontal hc hn hrow]
  rw [onSide_all hc, le_min_add_iff, and_comm]

theorem room_vertical (hr : 1 ≤ mp.nrows) {col : ℤ} (hcol : 0 ≤ col ∧ col < mp.ncols) :
    (∀ k < m, Inside mp (verticalPlace mp col (min (m : ℤ) mp.nrows) (1 + (k : ℕ)))) ↔
      m = 0 ∨ (mp.nrows = 1 ∨ (m : ℤ) ≤ mp.nrows + 1) ∧ Small mp.nrows (min m mp.nrows) m := by
  have hn : 0 ≤ min (m : ℤ) mp.nrows := by omega
  simp only [inside_vertical hr hn hcol]
  rw [onSide_all hr, le_min_add_iff, and_comm]

/-- A maze has more cells than threads, so not both of its sides can be 1. -/
theorem room_diagonal (hr : 1 ≤ mp.nrows) (hc : 1 ≤ mp.ncols) (hsize : (m : ℤ) + 2 < mp.nrows * mp.ncols) :
    (∀ k < m, Inside mp (diagonalPlace mp (min (m : ℤ) mp.ncols) (1 + (k : ℕ)))) ↔
      m = 0 ∨ (m : ℤ) ≤ mp.ncols + 1 ∧ Small mp.nrows (min m mp.ncols) m ∧ Small mp.ncols (min m mp.ncols) m := by
  have hn : 0 ≤ min (m : ℤ) mp.ncols := by omega
  simp only [inside_diagonal hr hc hn, forall_and]
  rw [onSide_all hr, onSide_all hc, le_min_add_iff]
  by_cases hone : mp.nrows = 1 ∧ mp.ncols = 1
  · rw [hone.1, hone.2] at hsize
    omega
  · tauto

theorem room_antidiagonal (hr : 1 ≤ mp.nrows) (hc : 1 ≤ mp.ncols) (hsize : (m : ℤ) + 2 < mp.nrows * mp.ncols) :
    (∀ k < m, Inside mp (antidiagonalPlace mp (min (m : ℤ) mp.ncols) (1 + (k : ℕ)))) ↔
      m = 0 ∨ 2 ≤ mp.nrows ∧ (m : ℤ) ≤ mp.ncols + 1 ∧ Small mp.nrows (min m mp.ncols) m ∧
        Small mp.ncols (min m mp.ncols) m := by
  have hn : 0 ≤ min (m : ℤ) mp.ncols := by omega
  simp only [inside_antidiagonal hr hc hn, forall_and]
  rw [onSide_all hc, le_min_add_iff]
  cases m with
  | zero => simp
  | succ k =>
    have hcast : 1 + (k : ℤ) = (k + 1 : ℕ) := by omega
    simp only [Nat.succ_ne_zero, false_or]
    constructor
    · rintro ⟨⟨hsmall, htwo, hle⟩, hsmall', hside⟩
      have hsmall := hsmall k (Nat.lt_succ_self k)
      have hle := hle k (Nat.lt_succ_self k)
      rw [hcast] at hsmall hle
      refine ⟨htwo 0 (Nat.succ_pos k), ?_, hsmall, hsmall'⟩
      refine hside.elim (fun hone => ?_) id
      -- one column: the rows are used up by three more threads
      by_contra hno
      rw [hone] at hsize hno hle
      rw [show min ((k + 1 : ℕ) : ℤ) 1 = 1 by omega] at hle
      unfold frac at hle
      have hmul : (mp.nrows - 1) * 3 ≤ (mp.nrows - 1) * ((k + 1 : ℕ) : ℤ) :=
        Int.mul_le_mul_of_nonneg_left (by omega) (by omega)
      omega
    · rintro ⟨htwo, hle, hsmall, hsmall'⟩
      refine ⟨⟨fun j hj => ?_, fun _ _ => htwo, fun j hj => ?_⟩, hsmall', .inr hle⟩
      · exact ((onSide_all hr).mpr (.inr ⟨hsmall, .inr (le_min_add_iff.mpr hle)⟩) j hj).1
      · exact le_of_lt ((frac_lt_iff hr (by omega)).mpr (.inr (by omega)))

/-! ### The pattern -/

theorem entry_eq {A : Type} {a : List A} {i : ℕ} (h : i < a.length) : entry a i = .ok a[i] := by
  simp [entry, h]

theorem mapM_ite {f : ℕ → Except Halt ℤ} {g : ℕ → ℤ} {P : ℕ → Prop} [DecidablePred P]
    (h : ∀ i, f i = if P i then .ok (g i) else .error .undefined) (l : List ℕ) :
    l.mapM f = if ∀ i ∈ l, P i then .ok (l.map g) else .error .undefined := by
  induction l with
  | nil => rfl
  | cons i l ih =>
    rw [List.mapM_cons, h, ih]
    by_cases hi : P i
    · by_cases hl : ∀ j ∈ l, P j
      · rw [if_pos hi, if_pos hl, if_pos (List.forall_mem_cons.mpr ⟨hi, hl⟩)]
        rfl
      · rw [if_pos hi, if_neg hl, if_neg fun hall => hl (List.forall_mem_cons.mp hall).2]
        rfl
    · rw [if_neg hi, if_neg fun hall => hi (List.forall_mem_cons.mp hall).1]
      rfl

theorem spread_eq {rc : ℤ} (hrc : 1 ≤ rc) : spread rc =
    if 4 * rc ≤ INT_MAX then .ok ((List.range 5).map fun i : ℕ => frac rc i 4) else .error .undefined := by
  have hall : (∀ i ∈ List.range 5, (rc - 1) * (i : ℕ) + 4 ≤ INT_MAX) ↔ 4 * rc ≤ INT_MAX := by
    constructor
    · intro h
      have := h 4 (by decide)
      omega
    · intro h i hi
      have : (rc - 1) * (i : ℤ) ≤ (rc - 1) * 4 :=
        Int.mul_le_mul_of_nonneg_left (by have := List.mem_range.mp hi; omega) (by omega)
      omega
  have hfrac : ∀ i : ℕ, rowColFrac rc i 4 =
      if (rc - 1) * (i : ℕ) + 4 ≤ INT_MAX then .ok (frac rc i 4) else .error .undefined :=
    fun i => rowColFrac_eq hrc (by omega) (by omega)
  unfold spread
  rw [mapM_ite hfrac]
  by_cases h : 4 * rc ≤ INT_MAX
  · rw [if_pos h, if_pos (hall.mpr h)]
  · rw [if_neg h, if_neg fun hno => h (hall.mp hno)]

/-- The tables have an entry for each thread, and each entry is one of the five positions. -/
theorem pos_spec : ∀ n < 9, ∃ h : n < pos.length, n + 1 ≤ pos[n].length ∧ ∀ k ∈ pos[n], k.1 < 5 ∧ k.2 < 5 := by
  decide

theorem spreadPlace_inside (hr : 1 ≤ mp.nrows) (hc : 1 ≤ mp.ncols) {rc : List (ℕ × ℕ)} {i : ℕ} (hi : i < rc.length)
    (hrc : ∀ k ∈ rc, k.1 < 5 ∧ k.2 < 5) :
    Inside mp (spreadPlace ((List.range 5).map fun i : ℕ => frac mp.nrows i 4)
      ((List.range 5).map fun i : ℕ => frac mp.ncols i 4) rc i) := by
  obtain ⟨hk₁, hk₂⟩ := hrc rc[i] (List.getElem_mem hi)
  unfold spreadPlace
  rw [entry_eq hi]
  dsimp only [bind, Except.bind]
  rw [entry_eq (by simpa using hk₁)]
  dsimp only
  rw [entry_eq (by simpa using hk₂)]
  simp only [List.getElem_map, List.getElem_range]
  exact ⟨_, rfl, frac_nonneg hr (by omega) (by omega), (frac_lt_iff hr (by omega)).mpr (.inr (by omega)),
    frac_nonneg hc (by omega) (by omega), (frac_lt_iff hc (by omega)).mpr (.inr (by omega))⟩

theorem spread_fold {place : ℕ → Except Halt Rowcol} (l : List ℕ) (hl : ∀ i ∈ l, i < n ∧ Inside mp (place i))
    (h : Started n mp) : ∃ mp', l.foldlM (fun mp i => do
        let p ← place i
        let (_, mp) ← startAssign n mp i p
        .ok mp) mp = Except.ok mp' ∧ Later n mp mp' := by
  induction l generalizing mp with
  | nil => exact ⟨mp, rfl, .refl h⟩
  | cons i l ih =>
    obtain ⟨hi, p, hp, hcell⟩ := hl i List.mem_cons_self
    have hl' : ∀ mp₁, Later n mp mp₁ → ∀ j ∈ l, j < n ∧ Inside mp₁ (place j) := fun mp₁ hlater j hj => by
      obtain ⟨hjn, q, hq, hqc⟩ := hl j (List.mem_cons_of_mem _ hj)
      exact ⟨hjn, q, hq, hlater.cellExists.mpr hqc⟩
    rw [List.foldlM_cons, hp]
    obtain ⟨hrun, _⟩ | ⟨hrun, hlater⟩ := startAssign_spec h hi hcell
    · simp only [bind, Except.bind, hrun]
      exact ih (hl' mp (.refl h)) h
    · obtain ⟨mp', hfold, hlater'⟩ := ih (hl' _ hlater) hlater.started
      simp only [bind, Except.bind, hrun]
      exact ⟨mp', hfold, hlater.trans hlater'⟩

/-! ### The whole -/

theorem half_inside {rc : ℤ} (hrc : 1 ≤ rc) : 0 ≤ frac rc 1 2 ∧ frac rc 1 2 < rc :=
  ⟨frac_nonneg hrc (by omega) (by omega), (frac_lt_iff hrc (by omega)).mpr (.inr (by omega))⟩

/-- What comes before the random starts is a stripe on a row or a column that is computed first. -/
theorem half_assigns {rc : ℤ} (hrc : 1 ≤ rc) {place : ℤ → ℤ → Except Halt Rowcol} {ok : Prop} (h : Started n mp)
    (hfuel : ∀ i j, place i j ≠ .error .fuel)
    (hroom : (∀ k < without mp (List.range n), Inside mp (place (frac rc 1 2) (1 + (k : ℕ)))) ↔ ok) :
    Assigns n mp (rowColFrac rc 1 2 >>= fun v => stripe n (place v) mp) (rc < INT_MAX ∧ ok) := by
  rw [rowColFrac_eq hrc (by omega) (by omega)]
  by_cases hbig : (rc - 1) * 1 + 2 ≤ INT_MAX
  · rw [if_pos hbig]
    have hlt : rc < INT_MAX := by omega
    exact (stripe_assigns (hfuel _) h).congr (hroom.trans (by simp [hlt]))
  · rw [if_neg hbig]
    exact .inr ⟨.undefined, nofun, rfl, fun hok => by omega⟩

theorem spread_assigns (h : Started n mp) (hr : 1 ≤ mp.nrows) (hc : 1 ≤ mp.ncols) (hn : 1 ≤ n) :
    Assigns n mp (spread mp.nrows >>= fun rowspread => spread mp.ncols >>= fun colspread =>
      entry pos (min n 9 - 1) >>= fun rc => spreadLoop n (spreadPlace rowspread colspread rc) (min n 9) mp)
      (4 * mp.nrows ≤ INT_MAX ∧ 4 * mp.ncols ≤ INT_MAX) := by
  rw [spread_eq hr, spread_eq hc]
  by_cases hrow : 4 * mp.nrows ≤ INT_MAX
  · by_cases hcol : 4 * mp.ncols ≤ INT_MAX
    · obtain ⟨hlt, hlen, hpos⟩ := pos_spec (min n 9 - 1) (by omega)
      rw [if_pos hrow, if_pos hcol, entry_eq hlt]
      have hplace : ∀ i ∈ List.range (min n 9), i < n ∧ Inside mp (spreadPlace
          ((List.range 5).map fun i : ℕ => frac mp.nrows i 4) ((List.range 5).map fun i : ℕ => frac mp.ncols i 4)
          pos[min n 9 - 1] i) := fun i hi => by
        have hi := List.mem_range.mp hi
        exact ⟨by omega, spreadPlace_inside hr hc (by omega) hpos⟩
      obtain ⟨mp', hrun, hlater⟩ := spread_fold (List.range (min n 9)) hplace h
      exact .inl ⟨mp', hrun, hlater, hrow, hcol⟩
    · rw [if_pos hrow, if_neg hcol]
      exact .inr ⟨.undefined, nofun, rfl, fun hand => hcol hand.2⟩
  · rw [if_neg hrow]
    exact .inr ⟨.undefined, nofun, rfl, fun hand => hrow hand.1⟩

/-- A strategy assigns starts, and then come the random ones. -/
theorem start_assigns (strategy : Strategy) (h : Started n mp) (hr : 1 ≤ mp.nrows) (hc : 1 ≤ mp.ncols) (hn : 1 ≤ n)
    (hsize : (n : ℤ) < mp.nrows * mp.ncols) (hm : without mp (List.range n) = n - 2) :
    ∃ x, (∀ fuel rnd, strategy.start n fuel mp rnd = x >>= fun mp => startRandom n fuel mp rnd) ∧
      Assigns n mp x (Fits strategy mp.nrows mp.ncols n) := by
  have hone : ∀ rc num den (f : ℤ → Rowcol),
      (rowColFrac rc num den >>= fun v => Except.ok (f v)) ≠ .error .fuel :=
    fun rc num den f => bind_ne_fuel (rowColFrac_ne_fuel rc num den) fun _ => nofun
  have hanti : ∀ m i, antidiagonalPlace mp m i ≠ .error .fuel :=
    fun m i => bind_ne_fuel (rowColFrac_ne_fuel _ _ _) fun _ => hone _ _ _ _
  have hdiag : ∀ m i, diagonalPlace mp m i ≠ .error .fuel :=
    fun m i => bind_ne_fuel (rowColFrac_ne_fuel _ _ _) fun _ => hone _ _ _ _
  have hun : ∀ lim, unassigned n mp lim = min ((n - 2 : ℕ) : ℤ) lim := fun lim => by rw [unassigned, hm]
  have hsize' : n - 2 ≠ 0 → ((n - 2 : ℕ) : ℤ) + 2 < mp.nrows * mp.ncols := fun h0 => by omega
  cases strategy with
  | antidiagonal =>
    refine ⟨_, fun fuel rnd => rfl, (stripe_assigns (hanti _) h).congr ?_⟩
    rw [hm, hun]
    by_cases h0 : n - 2 = 0
    · simp [Fits, h0]
    · exact room_antidiagonal hr hc (hsize' h0)
  | diagonal =>
    refine ⟨_, fun fuel rnd => rfl, (stripe_assigns (hdiag _) h).congr ?_⟩
    rw [hm, hun]
    by_cases h0 : n - 2 = 0
    · simp [Fits, h0]
    · exact room_diagonal hr hc (hsize' h0)
  | horizontal =>
    refine ⟨_, fun fuel rnd => (bind_assoc ..).symm, half_assigns hr h (fun row i => hone _ _ _ _) ?_⟩
    rw [hm, hun]
    exact room_horizontal hc (half_inside hr)
  | vertical =>
    refine ⟨_, fun fuel rnd => (bind_assoc ..).symm, half_assigns hc h (fun col i => hone _ _ _ _) ?_⟩
    rw [hm, hun]
    exact room_vertical hr (half_inside hc)
  | spread =>
    refine ⟨_, fun fuel rnd => ?_, spread_assigns h hr hc hn⟩
    simp only [bind_assoc]
    rfl

theorem without_range {a : ℕ} (ha : a ≤ n) (hlo : ∀ t < a, Has mp t) (hhi : ∀ t, a ≤ t → t < n → ¬ Has mp t) :
    without mp (List.range n) = n - a := by
  obtain ⟨m, rfl⟩ := Nat.exists_eq_add_of_le ha
  rw [without, List.range_add, List.countP_append, List.countP_eq_zero.mpr fun t ht => ?_,
    List.countP_eq_length.mpr fun t ht => ?_]
  · simp
  · obtain ⟨k, hk, rfl⟩ := List.mem_map.mp ht
    have := List.mem_range.mp hk
    simpa [Has] using hhi (a + k) (by omega) (by omega)
  · simpa [Has] using hlo t (List.mem_range.mp ht)

/-- The starts of the first two threads are assigned. -/
theorem first_two {start end_ : Rowcol} (h : Fresh n mp) (hn : 1 ≤ n) (hs : mp.CellExists start)
    (he : mp.CellExists end_) (hne : start ≠ end_) :
    ∃ mp', (assignOrAbort n mp 0 start >>= fun mp => assignEnd n mp end_) = .ok mp' ∧ Later n mp mp' ∧
      without mp' (List.range n) = n - 2 := by
  have hno : ∀ t < n, ¬ Has mp t := fun t ht => not_not.mpr (h.start t ht)
  have hfirst : startAssign n mp 0 start = .ok (true, mp.assign 0 start) := by
    rw [startAssign_eq hn hs, if_neg (by simp [h.visited start hs, hno 0 hn])]
  have hlater : Later n mp (mp.assign 0 start) := h.started.later_assign hn hs (h.visited start hs) (hno 0 hn)
  have hrun : assignOrAbort n mp 0 start = .ok (mp.assign 0 start) := by
    simp only [assignOrAbort, hfirst, bind, Except.bind, if_true]
  rw [hrun]
  change ∃ mp', assignEnd n (mp.assign 0 start) end_ = .ok mp' ∧ _
  unfold assignEnd
  by_cases htwo : 1 < n
  · have he' : (mp.assign 0 start).CellExists end_ := he
    have hfree : ((mp.assign 0 start).cell end_).visited = false := by
      rw [assign_cell_ne hne.symm, h.visited end_ he]
    have hno' : ¬ Has (mp.assign 0 start) 1 := fun hhas => hno 1 htwo ((has_assign_ne Nat.one_ne_zero).mp hhas)
    have hsecond : assignOrAbort n (mp.assign 0 start) 1 end_ = .ok ((mp.assign 0 start).assign 1 end_) := by
      rw [assignOrAbort, startAssign_eq htwo he', if_neg (by simp [hfree, hno'])]
      rfl
    refine ⟨_, (if_pos htwo).trans hsecond, hlater.trans (hlater.started.later_assign htwo he' hfree hno'), ?_⟩
    refine without_range htwo (fun t ht => ?_) fun t ht htn hhas => ?_
    · obtain rfl | rfl : t = 0 ∨ t = 1 := by omega
      · exact (has_assign_ne Nat.zero_ne_one).mpr (has_assign_self hs)
      · exact has_assign_self he'
    · exact hno t htn ((has_assign_ne (by omega)).mp ((has_assign_ne (by omega)).mp hhas))
  · obtain rfl : n = 1 := by omega
    refine ⟨_, if_neg htwo, hlater, ?_⟩
    change without _ _ = 1 - 1
    refine without_range le_rfl (fun t ht => ?_) fun t ht htn => by omega
    obtain rfl : t = 0 := by omega
    exact has_assign_self hs

/-- **The starts are valid if and only if** the IDs fit into the cookie and the strategy has a place for each
thread. -/
theorem solveStart_iff (strategy : Strategy) (n : ℕ) (mp : MazePart) (start end_ : Rowcol)
    (hr : 1 ≤ mp.nrows) (hc : 1 ≤ mp.ncols) (hfresh : Fresh n mp) (hs : mp.CellExists start)
    (he : mp.CellExists end_) (hne : start ≠ end_) (hn : 1 ≤ n) (hsize : (n : ℤ) < mp.nrows * mp.ncols) :
    Valid n (fun fuel rnd => solveStart strategy n fuel mp start end_ rnd) ↔
      Fits strategy mp.nrows mp.ncols n ∧ n ≤ cookieMask + 1 := by
  obtain ⟨mp₁, hfirst, hlater, hm⟩ := first_two hfresh hn hs he hne
  have hr₁ : 1 ≤ mp₁.nrows := by rw [hlater.nrows]; exact hr
  have hc₁ : 1 ≤ mp₁.ncols := by rw [hlater.ncols]; exact hc
  have hsize₁ : (n : ℤ) < mp₁.nrows * mp₁.ncols := by rw [hlater.nrows, hlater.ncols]; exact hsize
  obtain ⟨x, hx, hassigns⟩ := start_assigns strategy hlater.started hr₁ hc₁ hn hsize₁ hm
  have hrun : (fun fuel rnd => solveStart strategy n fuel mp start end_ rnd) =
      fun fuel rnd => x >>= fun mp => startRandom n fuel mp rnd >>= fun s => .ok s.1 := by
    funext fuel rnd
    have hsplit : solveStart strategy n fuel mp start end_ rnd =
        (assignOrAbort n mp 0 start >>= fun mp => assignEnd n mp end_) >>= fun mp =>
          strategy.start n fuel mp rnd >>= fun s => .ok s.1 := by
      simp only [bind_assoc]
      rfl
    rw [hsplit, hfirst]
    change (strategy.start n fuel mp₁ rnd >>= fun s => .ok s.1) = _
    rw [hx, bind_assoc]
  rw [hrun, hassigns.valid hr₁ hc₁ hsize₁, hlater.nrows, hlater.ncols]

/-- A maze of one row and five columns. -/
def corridor : MazePart where
  nrows := 1
  ncols := 5
  visited _ := (0, 0)
  vi := 0
  lastvi := none
  cell _ := ⟨fun _ => false, false, false, 0⟩
  distance _ := 0
  mcp _ := ⟨(-1, -1), fun _ => (0, 0), 0⟩

theorem fresh_corridor : Fresh 3 corridor := ⟨by decide, fun _ _ => rfl, fun _ _ => rfl, fun _ _ => rfl⟩

theorem solveStart_iff_corridor :
    Valid 3 (fun fuel rnd => solveStart .antidiagonal 3 fuel corridor (0, 0) (0, 4) rnd) ↔
      Fits .antidiagonal 1 5 3 ∧ 3 ≤ cookieMask + 1 :=
  solveStart_iff .antidiagonal 3 corridor (0, 0) (0, 4) (by decide) (by decide) fresh_corridor (by decide) (by decide)
    (by decide) (by decide) (by decide)

/-- In one row there is no cell on the diagonal for a third thread. -/
theorem antidiagonal_corridor : Fresh 3 corridor ∧ corridor.CellExists (0, 0) ∧ corridor.CellExists (0, 4) ∧
    (3 : ℤ) < corridor.nrows * corridor.ncols ∧
    ∀ fuel rnd, solveStart .antidiagonal 3 fuel corridor (0, 0) (0, 4) rnd = .error .abort :=
  ⟨fresh_corridor, by decide, by decide, by decide, fun _ _ => rfl⟩

end

end MazePart
end Perfbook
