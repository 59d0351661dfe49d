/-
# The books of a limit counter

A limit counter splits one bounded number over a global part and a local part
for each thread. A thread may move its local part `c` between 0 and its
allowance `cm` on its own; the allowances are reserved at the global part,
so whatever the threads do with them, the total stays within the limit.

`Balanced` is what holds of such books. All bookkeeping is one operation,
`post`: give thread `t` the local part `c` and the allowance `cm`, and write
`count` and `reserve` at the global part. It keeps the books balanced when
the reserve follows the allowance (`Balanced.post`), and it changes the total
by what the two parts change together (`total_post`). When no thread has an
allowance, the global part is the total (`Balanced.total_of_no_reserve`).

Key definitions: `Books`, `Books.total`, `Books.Balanced`, `Books.post`.
Key theorems: `total_post`, `Balanced.post`, `Balanced.total_of_no_reserve`.
-/
import Mathlib.Algebra.BigOperators.Ring.Finset
import Mathlib.Algebra.Order.BigOperators.Group.Finset
import Mathlib.Algebra.Order.Ring.Int

namespace Perfbook
namespace Count

/-- The global part, what is reserved, and each thread's part and allowance. -/
structure Books (τ : Type*) where
  count : ℤ
  reserve : ℤ
  c : τ → ℤ
  cm : τ → ℤ

namespace Books

variable {τ : Type*} [Fintype τ] {b : Books τ} {limit cap : ℤ} {t : τ}

/-- The number counted. -/
def total (b : Books τ) : ℤ := b.count + ∑ t, b.c t

/-- Every part is within its allowance, the allowances are reserved, and the
global part with the reserve is within the limit. -/
structure Balanced (limit cap : ℤ) (b : Books τ) : Prop where
  count : 0 ≤ b.count
  low : ∀ t, 0 ≤ b.c t
  high : ∀ t, b.c t ≤ b.cm t
  cap : ∀ t, b.cm t ≤ cap
  reserve : ∑ t, b.cm t = b.reserve
  limit : b.count + b.reserve ≤ limit

namespace Balanced

/-- One allowance is part of the reserve. -/
theorem cm_le_reserve (h : Balanced limit cap b) (t : τ) : b.cm t ≤ b.reserve := by
  rw [← h.reserve]
  exact Finset.single_le_sum (fun u _ => (h.low u).trans (h.high u)) (Finset.mem_univ t)

theorem reserve_nonneg (h : Balanced limit cap b) : 0 ≤ b.reserve := by
  rw [← h.reserve]
  exact Finset.sum_nonneg fun u _ => (h.low u).trans (h.high u)

theorem c_eq_zero (h : Balanced limit cap b) (h0 : b.cm t = 0) : b.c t = 0 := by
  have h1 := h.low t
  have h2 := h.high t
  omega

/-- With no allowance left, the global part is all there is. -/
theorem total_of_no_reserve (h : Balanced limit cap b) (h0 : ∀ t, b.cm t = 0) :
    b.total = b.count ∧ b.reserve = 0 := by
  constructor
  · rw [total, Finset.sum_eq_zero fun u _ => h.c_eq_zero (h0 u), add_zero]
  · rw [← h.reserve]
    exact Finset.sum_eq_zero fun u _ => h0 u

end Balanced

variable [DecidableEq τ]

/-- Changing one term of a sum. -/
theorem sum_update (f : τ → ℤ) (t : τ) (x : ℤ) :
    ∑ u, Function.update f t x u = ∑ u, f u + (x - f t) := by
  have hf := Finset.sum_eq_add_sum_sdiff_singleton t f (s := Finset.univ) fun h =>
    absurd (Finset.mem_univ t) h
  rw [Finset.sum_update_of_mem (Finset.mem_univ t)]
  omega

/-- Write new numbers for thread `t` and for the global part. -/
def post (b : Books τ) (t : τ) (c cm count reserve : ℤ) : Books τ where
  count := count
  reserve := reserve
  c := Function.update b.c t c
  cm := Function.update b.cm t cm

/-- The total changes by what the two parts change together. -/
theorem total_post (b : Books τ) (t : τ) (c cm count reserve : ℤ) :
    (b.post t c cm count reserve).total = b.total + (c - b.c t) + (count - b.count) := by
  simp only [total, post, sum_update]
  omega

/-- **Posting keeps the books balanced**, if the reserve follows the allowance. -/
theorem Balanced.post {c cm count reserve : ℤ} (h : Balanced limit cap b) (h0 : 0 ≤ c)
    (hc : c ≤ cm) (hcm : cm ≤ cap) (hr : reserve = b.reserve + (cm - b.cm t)) (hcount : 0 ≤ count)
    (hl : count + reserve ≤ limit) : Balanced limit cap (b.post t c cm count reserve) where
  count := hcount
  low u := by
    rw [Books.post]
    by_cases hu : u = t
    · subst hu
      simpa using h0
    · simpa [Function.update_of_ne hu] using h.low u
  high u := by
    rw [Books.post]
    by_cases hu : u = t
    · subst hu
      simpa using hc
    · simpa [Function.update_of_ne hu] using h.high u
  cap u := by
    rw [Books.post]
    by_cases hu : u = t
    · subst hu
      simpa using hcm
    · simpa [Function.update_of_ne hu] using h.cap u
  reserve := by
    rw [Books.post, sum_update, h.reserve, hr]
  limit := hl

end Books
end Count
end Perfbook
