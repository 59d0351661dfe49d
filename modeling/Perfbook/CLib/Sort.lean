/-
# Sorting and searching with a comparison function

C's `qsort` and `bsearch` call a function that says how two elements compare by
the sign of an `int`. What they return is documented where that function
orders the elements it is given (`Orders`), and only there (`Lib.Documented`).
`listLib` is one library that does as documented, by insertion and by looking
at each element.

Key definitions: `Orders`, `Lib`, `Lib.Documented`, `listLib`.
Key theorems: `Orders.exists_min`, `listLib_documented`.
-/
import Mathlib.Data.Int.Notation
import Mathlib.Data.List.Perm.Basic

namespace Perfbook
namespace CLib

variable {α : Type*} {cmp : α → α → ℤ} {l l' : List α} {x y z : α}

/-- `cmp` is a total order of the elements of `l`. -/
structure Orders (cmp : α → α → ℤ) (l : List α) : Prop where
  zero : ∀ x ∈ l, ∀ y ∈ l, (cmp x y = 0 ↔ x = y)
  anti : ∀ x ∈ l, ∀ y ∈ l, (cmp x y < 0 ↔ 0 < cmp y x)
  trans : ∀ x ∈ l, ∀ y ∈ l, ∀ z ∈ l, cmp x y < 0 → cmp y z < 0 → cmp x z < 0

theorem Orders.subset (h : Orders cmp l) (hs : ∀ x ∈ l', x ∈ l) : Orders cmp l' where
  zero x hx y hy := h.zero x (hs x hx) y (hs y hy)
  anti x hx y hy := h.anti x (hs x hx) y (hs y hy)
  trans x hx y hy z hz := h.trans x (hs x hx) y (hs y hy) z (hs z hz)

theorem Orders.le_trans (h : Orders cmp l) (hx : x ∈ l) (hy : y ∈ l) (hz : z ∈ l)
    (hxy : cmp x y ≤ 0) (hyz : cmp y z ≤ 0) : cmp x z ≤ 0 := by
  rcases Int.le_iff_lt_or_eq.mp hxy with hlt | heq
  · rcases Int.le_iff_lt_or_eq.mp hyz with hlt' | heq'
    · exact Int.le_of_lt (h.trans x hx y hy z hz hlt hlt')
    · rwa [← (h.zero y hy z hz).mp heq']
  · rwa [(h.zero x hx y hy).mp heq]

/-- The elements of a list that is ordered have a first one. -/
theorem Orders.exists_min : ∀ {l : List α}, l ≠ [] → Orders cmp l →
    ∃ w ∈ l, ∀ x ∈ l, x = w ∨ cmp w x < 0
  | [], h, _ => absurd rfl h
  | [a], _, _ => ⟨a, List.mem_singleton.mpr rfl, fun _ hx => .inl (List.mem_singleton.mp hx)⟩
  | a :: b :: l, _, h => by
    have hsub : ∀ x ∈ b :: l, x ∈ a :: b :: l := fun x => List.mem_cons_of_mem a
    have ha : a ∈ a :: b :: l := List.mem_cons_self
    obtain ⟨w, hw, hmin⟩ := (h.subset hsub).exists_min (List.cons_ne_nil b l)
    have hw' := hsub w hw
    by_cases haw : cmp w a < 0
    · refine ⟨w, hw', fun x hx => ?_⟩
      rcases List.mem_cons.mp hx with rfl | hx
      · exact .inr haw
      · exact hmin x hx
    · refine ⟨a, ha, fun x hx => ?_⟩
      by_cases hxa : x = a
      · exact .inl hxa
      · have hx' : x ∈ b :: l := (List.mem_cons.mp hx).resolve_left hxa
        have hle : cmp a w ≤ 0 := by
          have := (h.anti w hw' a ha).not.mp haw
          omega
        have hwx : cmp w x ≤ 0 := by
          rcases hmin x hx' with rfl | hlt
          · exact Int.le_of_eq ((h.zero x hw' x hw').mpr rfl)
          · exact Int.le_of_lt hlt
        have hax := h.le_trans ha hw' hx hle hwx
        exact .inr (Int.lt_iff_le_and_ne.mpr ⟨hax, fun h0 => hxa ((h.zero a ha x hx).mp h0).symm⟩)

/-- The two functions of `stdlib.h`; `bsearch` says whether it found something. -/
structure Lib (α : Type*) where
  qsort : (α → α → ℤ) → List α → List α
  bsearch : (α → α → ℤ) → α → List α → Bool

/-- What their manual says. -/
structure Lib.Documented (lib : Lib α) : Prop where
  perm : ∀ cmp l, Orders cmp l → (lib.qsort cmp l).Perm l
  sorted : ∀ cmp l, Orders cmp l → (lib.qsort cmp l).Pairwise fun x y => cmp x y ≤ 0
  found : ∀ cmp k l, Orders cmp (k :: l) → (l.Pairwise fun x y => cmp x y ≤ 0) →
    (lib.bsearch cmp k l = true ↔ ∃ x ∈ l, cmp k x = 0)

/-! ### A library -/

def insertBy (cmp : α → α → ℤ) (x : α) : List α → List α
  | [] => [x]
  | y :: l => if cmp x y ≤ 0 then x :: y :: l else y :: insertBy cmp x l

def sortBy (cmp : α → α → ℤ) : List α → List α
  | [] => []
  | x :: l => insertBy cmp x (sortBy cmp l)

theorem insertBy_perm (x : α) : ∀ l, (insertBy cmp x l).Perm (x :: l)
  | [] => .refl _
  | y :: l => by
    unfold insertBy
    split
    · exact .refl _
    · exact ((insertBy_perm x l).cons y).trans (.swap x y l)

theorem sortBy_perm : ∀ l, (sortBy cmp l).Perm l
  | [] => .refl _
  | x :: l => (insertBy_perm x _).trans ((sortBy_perm l).cons x)

theorem insertBy_sorted : ∀ {l : List α}, Orders cmp (x :: l) →
    (l.Pairwise fun x y => cmp x y ≤ 0) → (insertBy cmp x l).Pairwise fun x y => cmp x y ≤ 0
  | [], _, _ => List.pairwise_singleton _ _
  | y :: l, h, hl => by
    obtain ⟨hy, hl⟩ := List.pairwise_cons.mp hl
    have hx : x ∈ x :: y :: l := List.mem_cons_self
    have hym : y ∈ x :: y :: l := List.mem_cons_of_mem _ List.mem_cons_self
    have hsub : ∀ z ∈ l, z ∈ x :: y :: l := fun z hz =>
      List.mem_cons_of_mem _ (List.mem_cons_of_mem _ hz)
    unfold insertBy
    split
    · rename_i hxy
      refine List.pairwise_cons.mpr ⟨fun z hz => ?_, List.pairwise_cons.mpr ⟨hy, hl⟩⟩
      rcases List.mem_cons.mp hz with rfl | hz
      · exact hxy
      · exact h.le_trans hx hym (hsub z hz) hxy (hy z hz)
    · rename_i hxy
      have hyx : cmp y x ≤ 0 := by
        have := (h.anti y hym x hx).mpr (by omega)
        omega
      have ho : Orders cmp (x :: l) := h.subset fun z hz => by
        rcases List.mem_cons.mp hz with rfl | hz
        · exact hx
        · exact hsub z hz
      refine List.pairwise_cons.mpr ⟨fun z hz => ?_, insertBy_sorted ho hl⟩
      rcases List.mem_cons.mp ((insertBy_perm x l).mem_iff.mp hz) with rfl | hz
      · exact hyx
      · exact hy z hz

theorem sortBy_sorted : ∀ {l : List α}, Orders cmp l →
    (sortBy cmp l).Pairwise fun x y => cmp x y ≤ 0
  | [], _ => .nil
  | x :: l, h => by
    refine insertBy_sorted (h.subset fun z hz => ?_)
      (sortBy_sorted (h.subset fun z => List.mem_cons_of_mem x))
    exact List.mem_cons.mpr ((List.mem_cons.mp hz).imp id (sortBy_perm l).mem_iff.mp)

/-- A library that sorts by insertion and searches all elements. -/
def listLib (α : Type*) : Lib α where
  qsort := sortBy
  bsearch cmp k l := l.any fun x => cmp k x = 0

theorem listLib_documented : (listLib α).Documented where
  perm _ _ _ := sortBy_perm _
  sorted _ _ h := sortBy_sorted h
  found cmp k l _ _ := by simp [listLib]

end CLib
end Perfbook
