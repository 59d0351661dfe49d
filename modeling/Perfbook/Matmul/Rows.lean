/-
# Matrix multiplication by rows (SMPdesign/matmul.c and matmul_block.c)

Both programs multiply two `dim` by `dim` matrices with `nthread` threads that each
compute some rows of `c`. In `matmul.c` a thread finds its rows from its number, in
`matmul_block.c` `main` writes them into `bands`. The first assignment deals out each
row once and nothing else (`stripe_partition`), and then the product comes out in
whatever order the threads run (`multiply_eq`). The second computes the first row of every band
from `nthread` and not from the thread's number, so that all bands start behind the
last row (`mem_bandRows`), and no row of the product is computed
(`band_multiply_eq`). The `int`s and `long`s are integers here: a matrix that fits memory keeps them small.

Key definitions: `blocksize`, `stripeRows`, `bands`, `bandRows`, `matmulThread`, `multiply`, `RowsPartitioned`.
Key theorems: `stripe_partition`, `multiply_eq`, `mem_bandRows`, `band_multiply_eq`, `not_band_partition`.
-/
import Mathlib.Algebra.Ring.Defs
import Mathlib.Data.Int.Range
import Mathlib.Data.List.Nodup
import Mathlib.Tactic.Linarith

namespace Perfbook
namespace Matmul

variable {R : Type*} [Add R] [Mul R] [Zero R]

/-! ### The threads -/

/-- `(dim + nthread - 1) / nthread`, with which both programs start. -/
def blocksize (dim nthread : ℤ) : ℤ := (dim + nthread - 1) / nthread

/-- The rows of thread `me` of `matmul.c`. -/
def stripeRows (dim nthread me : ℤ) : List ℤ :=
  let startidx := me * blocksize dim nthread
  let stopidx := startidx + blocksize dim nthread
  let stopidx := if stopidx > dim then dim else stopidx
  Int.range startidx stopidx

/-- `struct band`. -/
structure Band where
  first : ℤ
  last : ℤ
  deriving DecidableEq, Repr

/-- `bands[i]` as `main` of `matmul_block.c` fills it in. -/
def bands (dim nthread i : ℤ) : Band :=
  let bandsize := blocksize dim nthread
  let last := bandsize * (nthread + 1) - 1
  { first := bandsize * nthread, last := if i = nthread - 1 then dim - 1 else last }

/-- The rows of thread `i` of `matmul_block.c`. -/
def bandRows (dim nthread i : ℤ) : List ℤ :=
  let myband := bands dim nthread i
  Int.range myband.first myband.last

/-- `IDX(i, j)`. -/
def idx (dim i j : ℤ) : ℤ := i * dim + j

/-- What the loop over `k` adds up in one cell of `c`. -/
def dot (dim : ℤ) (a b : ℤ → R) (i j : ℤ) : R :=
  (Int.range 0 dim).foldl (fun acc k => acc + a (idx dim i k) * b (idx dim k j)) 0

/-- The loop over `j`. -/
def mulRow (dim : ℤ) (a b c : ℤ → R) (i : ℤ) : ℤ → R :=
  (Int.range 0 dim).foldl (fun c j => Function.update c (idx dim i j) (dot dim a b i j)) c

/-- `matmul_thread` on its rows. -/
def matmulThread (dim : ℤ) (a b c : ℤ → R) (rows : List ℤ) : ℤ → R :=
  rows.foldl (mulRow dim a b) c

/-- `c` after the threads have run in some order. They write different cells, so only the order counts. -/
def multiply (dim : ℤ) (rows : ℤ → List ℤ) (a b c : ℤ → R) (order : List ℤ) : ℤ → R :=
  order.foldl (fun c t => matmulThread dim a b c (rows t)) c

/-- Each row of the matrix is computed by one thread, once, and no thread leaves the matrix. -/
structure RowsPartitioned (dim nthread : ℤ) (rows : ℤ → List ℤ) : Prop where
  once : ∀ r, 0 ≤ r → r < dim → ∃! t, (0 ≤ t ∧ t < nthread) ∧ r ∈ rows t
  nodup : ∀ t, 0 ≤ t → t < nthread → (rows t).Nodup
  inside : ∀ t, 0 ≤ t → t < nthread → ∀ r ∈ rows t, 0 ≤ r ∧ r < dim

variable {dim nthread r t : ℤ}

/-! ### What the loops write -/

section

variable {A B ι : Type*} {g : (A → B) → ι → A → B} {P : ι → A → Prop} {v : A → B}

/-- A loop leaves alone what no pass of it writes. -/
theorem foldl_of_miss (hmiss : ∀ c x p, ¬ P x p → g c x p = c p) {p : A} :
    ∀ (l : List ι) (c : A → B), (∀ x ∈ l, ¬ P x p) → l.foldl g c p = c p
  | [], _, _ => rfl
  | x :: l, c, h => by
    rw [List.foldl_cons, foldl_of_miss hmiss l _ fun y hy => h y (List.mem_cons_of_mem x hy)]
    exact hmiss c x p (h x List.mem_cons_self)

/-- Where every pass that writes a cell writes the same into it, that is there after the loop. -/
theorem foldl_of_hit (hhit : ∀ c x p, P x p → g c x p = v p) (hmiss : ∀ c x p, ¬ P x p → g c x p = c p)
    {p : A} : ∀ (l : List ι) (c : A → B), (∃ x ∈ l, P x p) → l.foldl g c p = v p
  | x :: l, c, h => by
    rw [List.foldl_cons]
    by_cases hl : ∃ y ∈ l, P y p
    · exact foldl_of_hit hhit hmiss l _ hl
    · obtain ⟨y, hy, hp⟩ := h
      have hx : P x p := by
        rcases List.mem_cons.mp hy with rfl | hy
        · exact hp
        · exact absurd ⟨y, hy, hp⟩ hl
      rw [foldl_of_miss hmiss l _ fun z hz hzp => hl ⟨z, hz, hzp⟩]
      exact hhit c x p hx

end

theorem idx_ediv (i : ℤ) {j : ℤ} (h0 : 0 ≤ j) (hj : j < dim) : idx dim i j / dim = i := by
  rw [idx, add_comm, Int.add_mul_ediv_right _ _ (by omega), Int.ediv_eq_zero_of_lt h0 hj, zero_add]

/-- The product at a place of the array. -/
def cell (dim : ℤ) (a b : ℤ → R) (p : ℤ) : R := dot dim a b (p / dim) (p % dim)

section

variable (a b : ℤ → R)

/-- A row's loop writes the cells of that row. -/
theorem mulRow_apply (hdim : 0 < dim) (c : ℤ → R) (i p : ℤ) :
    mulRow dim a b c i p = if p / dim = i then cell dim a b p else c p := by
  have hmiss : ∀ (c : ℤ → R) (j p : ℤ), idx dim i j ≠ p →
      Function.update c (idx dim i j) (dot dim a b i j) p = c p :=
    fun c j p h => Function.update_of_ne h.symm _ c
  split
  next h =>
    subst h
    have hcol : p - p / dim * dim = p % dim := by rw [Int.emod_def, mul_comm]
    rw [cell, ← hcol]
    refine foldl_of_hit (P := fun j p' => idx dim (p / dim) j = p')
      (v := fun p' => dot dim a b (p / dim) (p' - p / dim * dim)) (fun c j p' h => ?_) hmiss _ _ ⟨p % dim, ?_, ?_⟩
    · subst h
      rw [Function.update_self, idx, add_sub_cancel_left]
    · exact Int.mem_range_iff.mpr ⟨Int.emod_nonneg p hdim.ne', Int.emod_lt_of_pos p hdim⟩
    · rw [idx, mul_comm]
      exact Int.mul_ediv_add_emod p dim
  next h =>
    refine foldl_of_miss (P := fun j p' => idx dim i j = p') hmiss _ _ fun j hj he => h ?_
    obtain ⟨h0, hj⟩ := Int.mem_range_iff.mp hj
    rw [← he, idx_ediv i h0 hj]

/-- A thread writes the cells of its rows. -/
theorem matmulThread_apply (hdim : 0 < dim) (c : ℤ → R) (rows : List ℤ) (p : ℤ) :
    matmulThread dim a b c rows p = if p / dim ∈ rows then cell dim a b p else c p := by
  have hmiss : ∀ (c : ℤ → R) (i p : ℤ), p / dim ≠ i → mulRow dim a b c i p = c p := fun c i p h => by
    rw [mulRow_apply a b hdim, if_neg h]
  split
  next h =>
    refine foldl_of_hit (P := fun i p => p / dim = i) (fun c i p h => ?_) hmiss _ _ ⟨_, h, rfl⟩
    rw [mulRow_apply a b hdim, if_pos h]
  next h => exact foldl_of_miss (P := fun i p => p / dim = i) hmiss _ _ fun i hi he => h (he ▸ hi)

/-- All threads together write the cells of all their rows. -/
theorem multiply_apply (hdim : 0 < dim) (rows : ℤ → List ℤ) (c : ℤ → R) (order : List ℤ) (p : ℤ) :
    multiply dim rows a b c order p = if ∃ t ∈ order, p / dim ∈ rows t then cell dim a b p else c p := by
  have hmiss : ∀ (c : ℤ → R) (t p : ℤ), p / dim ∉ rows t → matmulThread dim a b c (rows t) p = c p :=
    fun c t p h => by rw [matmulThread_apply a b hdim, if_neg h]
  split
  next h =>
    refine foldl_of_hit (P := fun t p => p / dim ∈ rows t) (fun c t p h => ?_) hmiss _ _ h
    rw [matmulThread_apply a b hdim, if_pos h]
  next h => exact foldl_of_miss (P := fun t p => p / dim ∈ rows t) hmiss _ _ fun t ht hp => h ⟨t, ht, hp⟩

end

/-! ### The assignments -/

theorem le_blocksize_mul (hn : 1 ≤ nthread) : dim ≤ blocksize dim nthread * nthread := by
  have := Int.lt_ediv_add_one_mul_self (dim + nthread - 1) (by omega : 0 < nthread)
  rw [blocksize]
  linarith

theorem blocksize_pos (hdim : 1 ≤ dim) (hn : 1 ≤ nthread) : 1 ≤ blocksize dim nthread :=
  (Int.le_ediv_iff_mul_le (by omega)).mpr (by omega)

theorem mem_stripeRows :
    r ∈ stripeRows dim nthread t ↔ t * blocksize dim nthread ≤ r ∧ r < (t + 1) * blocksize dim nthread ∧ r < dim := by
  simp only [stripeRows, Int.mem_range_iff, add_mul, one_mul]
  split <;> omega

theorem range_nodup (m n : ℤ) : (Int.range m n).Nodup :=
  List.Nodup.map (fun _ _ h => by simpa using h) List.nodup_range

/-- **`matmul.c` deals out every row once**, whether or not `nthread` divides `dim`. -/
theorem stripe_partition (hdim : 1 ≤ dim) (hn : 1 ≤ nthread) :
    RowsPartitioned dim nthread (stripeRows dim nthread) where
  once r h0 hr := by
    have hb := blocksize_pos hdim hn
    have hlast : r < nthread * blocksize dim nthread := by
      rw [mul_comm]
      exact hr.trans_le (le_blocksize_mul hn)
    have hlo := Int.ediv_mul_le r (by omega : blocksize dim nthread ≠ 0)
    have hhi := Int.lt_ediv_add_one_mul_self r (by omega : 0 < blocksize dim nthread)
    refine ⟨r / blocksize dim nthread, ⟨⟨Int.ediv_nonneg h0 (by omega), ?_⟩, mem_stripeRows.mpr ⟨hlo, hhi, hr⟩⟩,
      fun t ht => ?_⟩
    · exact Int.ediv_lt_of_lt_mul (by omega) hlast
    · obtain ⟨h1, h2, -⟩ := mem_stripeRows.mp ht.2
      exact ((Int.ediv_eq_iff_of_pos (by omega)).mpr ⟨h1, by rwa [add_one_mul] at h2⟩).symm
  nodup t _ _ := range_nodup _ _
  inside t h0 _ r hr := by
    obtain ⟨hlo, -, hhi⟩ := mem_stripeRows.mp hr
    have := mul_nonneg h0 (by have := blocksize_pos hdim hn; omega : 0 ≤ blocksize dim nthread)
    omega

/-- **All bands start behind the matrix**, and the last of them is empty. -/
theorem mem_bandRows (hn : 1 ≤ nthread) : r ∈ bandRows dim nthread t ↔ t ≠ nthread - 1 ∧
    blocksize dim nthread * nthread ≤ r ∧ r < blocksize dim nthread * (nthread + 1) - 1 := by
  have hle : dim ≤ blocksize dim nthread * nthread := le_blocksize_mul hn
  simp only [bandRows, bands, Int.mem_range_iff]
  split <;> omega

theorem le_of_mem_bandRows (hn : 1 ≤ nthread) (hr : r ∈ bandRows dim nthread t) : dim ≤ r :=
  (le_blocksize_mul hn).trans ((mem_bandRows hn).mp hr).2.1

/-! ### What the programs compute -/

/-- **A partition of the rows gives the product**, in whatever order the threads run. -/
theorem multiply_eq {rows : ℤ → List ℤ} (h : RowsPartitioned dim nthread rows) (a b c : ℤ → R) {order : List ℤ}
    (horder : ∀ t, t ∈ order ↔ 0 ≤ t ∧ t < nthread) {i j : ℤ} (hi : 0 ≤ i ∧ i < dim) (hj : 0 ≤ j ∧ j < dim) :
    multiply dim rows a b c order (idx dim i j) = dot dim a b i j := by
  have hdim : 0 < dim := by omega
  have hdiv := idx_ediv i hj.1 hj.2
  have hmod : idx dim i j % dim = j := by
    rw [idx, add_comm, Int.add_mul_emod_self_right, Int.emod_eq_of_lt hj.1 hj.2]
  obtain ⟨t, ⟨ht, hr⟩, -⟩ := h.once i hi.1 hi.2
  rw [multiply_apply a b hdim, if_pos ⟨t, (horder t).mpr ht, hdiv.symm ▸ hr⟩, cell, hdiv, hmod]

/-- **`matmul_block.c` computes nothing of the product.** -/
theorem band_multiply_eq (hn : 1 ≤ nthread) (a b c : ℤ → R) (order : List ℤ) {i j : ℤ}
    (hi : 0 ≤ i ∧ i < dim) (hj : 0 ≤ j ∧ j < dim) :
    multiply dim (bandRows dim nthread) a b c order (idx dim i j) = c (idx dim i j) := by
  have hdim : 0 < dim := by omega
  rw [multiply_apply a b hdim, idx_ediv i hj.1 hj.2, if_neg]
  rintro ⟨t, -, hr⟩
  have := le_of_mem_bandRows hn hr
  omega

/-- **No choice of sizes makes the bands of `matmul_block.c` a partition**: nobody gets row 0. -/
theorem not_band_partition (hdim : 1 ≤ dim) (hn : 1 ≤ nthread) :
    ¬ RowsPartitioned dim nthread (bandRows dim nthread) := fun h => by
  obtain ⟨t, ⟨-, hr⟩, -⟩ := h.once 0 (by omega) (by omega)
  have := le_of_mem_bandRows hn hr
  omega

theorem not_band_partition_one : (1 : ℤ) ≤ 1 ∧ ¬ RowsPartitioned 1 1 (bandRows 1 1) :=
  ⟨by decide, not_band_partition (by decide) (by decide)⟩

/-- Four rows and two threads: the first thread works on row 4, and the second on none. -/
theorem bands_four_two : bandRows 4 2 0 = [4] ∧ bandRows 4 2 1 = [] ∧
    ¬ ∀ dim nthread : ℤ, 1 ≤ dim → 1 ≤ nthread → RowsPartitioned dim nthread (bandRows dim nthread) := by
  refine ⟨by decide, by decide, fun h => ?_⟩
  have hin := (h 4 2 (by decide) (by decide)).inside 0 (by decide) (by decide) 4 (by decide)
  omega

end Matmul
end Perfbook
