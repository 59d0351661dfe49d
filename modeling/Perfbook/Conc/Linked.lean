/-
# Lists in memory

`Linked next p l`: the link of `p` leads to the first cell of `l`, the link of
each cell to the next one, and that of the last one to nothing. The list is
searched from a cell in it (`Linked.mid`), a cell is put in behind another
(`Linked.insert`), and one is taken out (`Linked.erase`). `Through next p l` does not
say what the last link is (`Linked.iff_through`), so it can be set to go on
(`Through.set_last`).

Key definitions: `Linked`, `Through`, `before`.
Key theorems: `Linked.mid`, `Linked.insert`, `Linked.erase`, `Linked.iff_through`, `Through.set_last`.
-/
import Mathlib.Data.List.Basic
import Mathlib.Data.List.Nodup
import Mathlib.Logic.Function.Basic

namespace Perfbook
namespace Conc

variable {A : Type*}

/-- From `p`, `next` leads through the cells `l`. -/
def Linked (next : A → Option A) : A → List A → Prop
  | p, [] => next p = none
  | p, q :: l => next p = some q ∧ Linked next q l

/-- So it does, wherever the last cell leads. -/
def Through (next : A → Option A) : A → List A → Prop
  | _, [] => True
  | p, q :: l => next p = some q ∧ Through next q l

/-- The last cell of `l`, or the one before the list. -/
def before (p : A) (l : List A) : A := l.getLast?.getD p

variable {next next' : A → Option A} {p q x : A} {l l' m : List A}

@[simp] theorem before_nil : before p [] = p := rfl

@[simp] theorem before_cons : before p (q :: l) = before q l := by
  unfold before
  rw [List.getLast?_cons]
  rfl

@[simp] theorem before_append : before p (l ++ l') = before (before p l) l' := by
  induction l generalizing p with
  | nil => rfl
  | cons q l ih => rw [List.cons_append, before_cons, before_cons, ih]

theorem before_mem : before p l ∈ p :: l := by
  induction l generalizing p with
  | nil => exact List.mem_cons_self
  | cons q l ih =>
    rw [before_cons]
    exact List.mem_cons_of_mem _ ih

theorem ne_before (hq : q ∉ p :: l) : q ≠ before p l := fun he => hq (he ▸ before_mem)

namespace Linked

theorem head (h : Linked next p l) : next p = l.head? := by
  cases l with
  | nil => exact h
  | cons q l => exact h.1

/-- A list depends on its own links only. -/
theorem congr (hc : ∀ q ∈ p :: l, next' q = next q) (h : Linked next p l) : Linked next' p l := by
  induction l generalizing p with
  | nil => exact (hc p List.mem_cons_self).trans h
  | cons q l ih =>
    exact ⟨(hc p List.mem_cons_self).trans h.1, ih (fun r hr => hc r (List.mem_cons_of_mem _ hr)) h.2⟩

/-- The rest of a list. -/
theorem mid (h : Linked next p (l ++ l')) : Linked next (before p l) l' := by
  induction l generalizing p with
  | nil => exact h
  | cons q l ih =>
    rw [before_cons]
    exact ih h.2

/-- Another cell takes the place of the one before the list. -/
theorem moved (h : Linked next p l) (hx : next' x = next p) (hc : ∀ q ∈ l, next' q = next q) :
    Linked next' x l := by
  cases l with
  | nil => exact hx.trans h
  | cons q l => exact ⟨hx.trans h.1, h.2.congr hc⟩

/-- The list goes on otherwise from one of its cells. -/
theorem splice (h : Linked next p (l ++ l')) (h' : Linked next' (before p l) m)
    (hc : ∀ q ∈ p :: l, q ≠ before p l → next' q = next q) (hn : (p :: l).Nodup) :
    Linked next' p (l ++ m) := by
  induction l generalizing p with
  | nil => exact h'
  | cons q l ih =>
    rw [before_cons] at h' hc
    have hp : p ≠ before q l := ne_before (List.nodup_cons.mp hn).1
    exact ⟨(hc p List.mem_cons_self hp).trans h.1,
      ih h.2 h' (fun r hr => hc r (List.mem_cons_of_mem _ hr)) (List.nodup_cons.mp hn).2⟩

/-- A cell is put in behind `before p l`. -/
theorem insert (h : Linked next p (l ++ l')) (hx : next' x = next (before p l))
    (hp : next' (before p l) = some x) (hc : ∀ q ∈ p :: (l ++ l'), q ≠ before p l → next' q = next q)
    (hn : (p :: (l ++ l')).Nodup) : Linked next' p (l ++ x :: l') := by
  rw [← List.cons_append] at hn
  have hout : ∀ q ∈ l', q ≠ before p l := fun q hq he =>
    List.disjoint_of_nodup_append hn before_mem (he ▸ hq)
  exact h.splice ⟨hp, h.mid.moved hx fun q hq =>
      hc q (List.mem_cons_of_mem _ (List.mem_append_right _ hq)) (hout q hq)⟩
    (fun q hq => hc q (by rw [← List.cons_append]; exact List.mem_append_left _ hq)) hn.of_append_left

/-- The cell behind `before p l` is taken out. -/
theorem erase (h : Linked next p (l ++ x :: l')) (hp : next' (before p l) = next x)
    (hc : ∀ q ∈ p :: (l ++ x :: l'), q ≠ before p l → next' q = next q)
    (hn : (p :: (l ++ x :: l')).Nodup) : Linked next' p (l ++ l') := by
  rw [← List.cons_append] at hn
  have hout : ∀ q ∈ l', q ≠ before p l := fun q hq he =>
    List.disjoint_of_nodup_append hn before_mem (he ▸ List.mem_cons_of_mem _ hq)
  exact h.splice (h.mid.2.moved hp fun q hq =>
      hc q (List.mem_cons_of_mem _ (List.mem_append_right _ (List.mem_cons_of_mem _ hq))) (hout q hq))
    (fun q hq => hc q (by rw [← List.cons_append]; exact List.mem_append_left _ hq)) hn.of_append_left

/-- A list does not lead out of itself. -/
theorem next_mem (h : Linked next p l) (hq : q ∈ p :: l) (hx : next q = some x) : x ∈ l := by
  induction l generalizing p with
  | nil =>
    rw [List.mem_singleton.mp hq] at hx
    exact nomatch h.symm.trans hx
  | cons r l ih =>
    rcases List.mem_cons.mp hq with rfl | hq
    · exact Option.some.inj (h.1.symm.trans hx) ▸ List.mem_cons_self
    · exact List.mem_cons_of_mem _ (ih h.2 hq)

/-- It leads from each cell to the one behind it. -/
theorem idxOf_next [DecidableEq A] (h : Linked next p l) (hn : (p :: l).Nodup) (hq : q ∈ p :: l)
    (hx : next q = some x) : (p :: l).idxOf x = (p :: l).idxOf q + 1 := by
  induction l generalizing p with
  | nil =>
    rw [List.mem_singleton.mp hq] at hx
    exact nomatch h.symm.trans hx
  | cons r l ih =>
    obtain ⟨hp, hn⟩ := List.nodup_cons.mp hn
    rcases List.mem_cons.mp hq with rfl | hq
    · obtain rfl := Option.some.inj (h.1.symm.trans hx)
      have hne : q ≠ r := fun he => hp (he ▸ List.mem_cons_self)
      rw [List.idxOf_cons_self, List.idxOf_cons_ne _ hne, List.idxOf_cons_self]
    · have hxl : x ∈ r :: l := List.mem_cons_of_mem _ (h.2.next_mem hq hx)
      have hne : ∀ y ∈ r :: l, p ≠ y := fun y hy he => hp (he ▸ hy)
      rw [List.idxOf_cons_ne _ (hne x hxl), List.idxOf_cons_ne _ (hne q hq), ih h.2 hn hq]

theorem iff_through : Linked next p l ↔ Through next p l ∧ next (before p l) = none := by
  induction l generalizing p with
  | nil => exact ⟨fun h => ⟨trivial, h⟩, And.right⟩
  | cons q l ih =>
    rw [Linked, Through, before_cons, ih, and_assoc]

end Linked

namespace Through

/-- The last link does not matter. -/
theorem congr (hc : ∀ q ∈ (p :: l).dropLast, next' q = next q) (h : Through next p l) : Through next' p l := by
  induction l generalizing p with
  | nil => trivial
  | cons q l ih =>
    rw [List.dropLast_cons_cons] at hc
    exact ⟨(hc p List.mem_cons_self).trans h.1, ih (fun r hr => hc r (List.mem_cons_of_mem _ hr)) h.2⟩

theorem snoc (h : Through next p l) (hx : next (before p l) = some x) : Through next p (l ++ [x]) := by
  induction l generalizing p with
  | nil => exact ⟨hx, trivial⟩
  | cons q l ih => exact ⟨h.1, ih h.2 (by rwa [before_cons] at hx)⟩

/-- The last link leads on to `x`. -/
theorem set_last (h : Through next p l) (hx : next' (before p l) = some x)
    (hc : ∀ q ∈ p :: l, q ≠ before p l → next' q = next q) (hn : (p :: l).Nodup) :
    Through next' p (l ++ [x]) := by
  refine snoc (h.congr fun q hq => hc q ((List.dropLast_sublist _).subset hq) fun he => ?_) hx
  -- the last cell is not among those before it
  have hlast : (p :: l).dropLast ++ [before p l] = p :: l := by
    have hb : before p l = (p :: l).getLast (List.cons_ne_nil _ _) := by
      rw [List.getLast_eq_getLastD, List.getLastD_eq_getLast?]
      rfl
    rw [hb, List.dropLast_concat_getLast]
  rw [← hlast] at hn
  exact List.disjoint_of_nodup_append hn (he ▸ hq) List.mem_cons_self

end Through
end Conc
end Perfbook
