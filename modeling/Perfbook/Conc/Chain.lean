/-
# Chains with gaps

A singly linked queue whose pushes first take the place of the last cell and
link their predecessor later: between the two there is a gap before the new
cell. The cells `q` from the first to the `last` one are a chain (`Chain`) when
each cell's link is its successor, or is still `NULL` and the push of the
successor is about to store it (`gap`). Any number of gaps may be open.

Key definition: `Chain`.
Key theorems: `Chain.congr`, `Chain.snoc`, `Chain.link_gap`, `Chain.drop`, `Chain.next_split`.
-/
import Mathlib.Data.List.Nodup
import Mathlib.Logic.Function.Basic
import Mathlib.Logic.Relation

namespace Perfbook
namespace Conc

variable {A : Type*}

/-- The cells `q` are linked from the first one to `last`, but for the gaps. -/
structure Chain (next : A → Option A) (gap : A → A → Prop) (q : List A) (last : A) : Prop where
  nodup : q.Nodup
  tail : q.getLast? = some last
  link : ∀ l₁ a b l₂, q = l₁ ++ a :: b :: l₂ → next a = some b ∨ next a = none ∧ gap a b
  last : next last = none

namespace Chain

variable {next next' : A → Option A} {gap gap' : A → A → Prop} {q l₁ l₂ l₃ l₄ : List A}
  {last a b c : A}

theorem mem_last (h : Chain next gap q last) : last ∈ q := List.mem_of_getLast? h.tail

/-- A cell has one successor in a chain. -/
theorem succ_unique (h : q.Nodup) (h₁ : q = l₁ ++ a :: b :: l₂) (h₂ : q = l₃ ++ a :: c :: l₄) :
    b = c := by
  subst h₁
  induction l₁ generalizing l₃ with
  | nil =>
    cases l₃ with
    | nil =>
      simp only [List.nil_append, List.cons.injEq, true_and] at h₂
      exact h₂.1
    | cons x l₃ =>
      simp only [List.nil_append, List.cons_append, List.cons.injEq] at h₂
      obtain ⟨rfl, h₂⟩ := h₂
      have : a ∈ b :: l₂ := h₂ ▸ by simp
      exact absurd this (List.nodup_cons.mp h).1
  | cons x l₁ ih =>
    cases l₃ with
    | nil =>
      simp only [List.nil_append, List.cons_append, List.cons.injEq] at h₂
      obtain ⟨rfl, -⟩ := h₂
      exact absurd (by simp) (List.nodup_cons.mp h).1
    | cons y l₃ =>
      simp only [List.cons_append, List.cons.injEq] at h₂
      exact ih (List.nodup_cons.mp h).2 h₂.2

theorem last_ne (h : Chain next gap (l₁ ++ a :: c :: l₂) last) : last ≠ a := by
  rintro rfl
  have ht := h.tail
  rw [List.getLast?_append_cons, List.getLast?_cons_cons] at ht
  have hn := (List.nodup_append.mp h.nodup).2.1
  exact (List.nodup_cons.mp hn).1 (List.mem_of_getLast? ht)

/-- A chain depends on its own cells and on the gaps. -/
theorem congr (h : Chain next gap q last) (hnext : ∀ c ∈ q, next' c = next c)
    (hgap : ∀ a b, gap a b → gap' a b) : Chain next' gap' q last where
  nodup := h.nodup
  tail := h.tail
  link l₁ a b l₂ heq := by
    rw [hnext a (heq ▸ by simp)]
    exact (h.link l₁ a b l₂ heq).imp id fun ⟨hx, hg⟩ => ⟨hx, hgap a b hg⟩
  last := (hnext _ h.mem_last).trans h.last

/-- A new last cell, with a gap before it. -/
theorem snoc (h : Chain next gap q last) (hc : c ∉ q) (hn : next c = none)
    (hgap : ∀ a b, gap a b → gap' a b) (hnew : gap' last c) : Chain next gap' (q ++ [c]) c where
  nodup := List.nodup_append.mpr ⟨h.nodup, List.nodup_singleton c, fun x hx y hy =>
    List.mem_singleton.mp hy ▸ ne_of_mem_of_not_mem hx hc⟩
  tail := by rw [List.getLast?_append]; rfl
  link l₁ a b l₂ heq := by
    rcases List.eq_nil_or_concat l₂ with rfl | ⟨l₂, x, rfl⟩
    · have heq' : q ++ [c] = (l₁ ++ [a]) ++ [b] := by rw [heq]; simp
      obtain ⟨hq, hb⟩ := List.append_inj' heq' rfl
      obtain rfl : c = b := List.singleton_inj.mp hb
      have hlast : last = a := by
        have := h.tail
        rw [hq, List.getLast?_append] at this
        exact (Option.some.inj this).symm
      exact .inr ⟨hlast ▸ h.last, hlast ▸ hnew⟩
    · have heq' : q ++ [c] = (l₁ ++ a :: b :: l₂) ++ [x] := by rw [heq]; simp
      obtain ⟨hq, -⟩ := List.append_inj' heq' rfl
      exact (h.link l₁ a b l₂ hq).imp id fun ⟨hn, hg⟩ => ⟨hn, hgap a b hg⟩
  last := hn

/-- A gap is closed. -/
theorem link_gap [DecidableEq A] (h : Chain next gap q last) (hq : q = l₁ ++ a :: c :: l₂)
    (hgap : ∀ x y, x ≠ a → gap x y → gap' x y) :
    Chain (Function.update next a (some c)) gap' q last where
  nodup := h.nodup
  tail := h.tail
  link l₃ x b l₄ heq := by
    by_cases hxa : x = a
    · subst hxa
      rw [Function.update_self, succ_unique h.nodup heq hq]
      exact .inl rfl
    · rw [Function.update_of_ne hxa]
      exact (h.link l₃ x b l₄ heq).imp id fun ⟨hx, hg⟩ => ⟨hx, hgap x b hxa hg⟩
  last := (Function.update_of_ne (last_ne (hq ▸ h)) _ _).trans h.last

/-- The first cell is taken off. -/
theorem drop (h : Chain next gap (c :: b :: q) last) (hgap : ∀ a b, gap a b → gap' a b) :
    Chain next gap' (b :: q) last where
  nodup := (List.nodup_cons.mp h.nodup).2
  tail := by rw [← h.tail, List.getLast?_cons_cons]
  link l₁ x y l₂ heq :=
    (h.link (c :: l₁) x y l₂ (by rw [heq]; rfl)).imp id fun ⟨hn, hg⟩ => ⟨hn, hgap x y hg⟩
  last := h.last

/-- A link leads to the next cell of the chain. -/
theorem next_split (h : Chain next gap q last) (ha : a ∈ q) (hn : next a = some b) :
    ∃ l₁ l₂, q = l₁ ++ a :: b :: l₂ := by
  obtain ⟨l₁, l₂, rfl⟩ := List.append_of_mem ha
  cases l₂ with
  | nil =>
    have hlast : last = a := by
      have ht := h.tail
      rw [List.getLast?_append] at ht
      exact (Option.some.inj ht).symm
    rw [← hlast, h.last] at hn
    cases hn
  | cons x l₂ =>
    rcases h.link l₁ a x l₂ rfl with hx | ⟨hx, -⟩
    · obtain rfl := Option.some.inj (hx.symm.trans hn)
      exact ⟨l₁, l₂, rfl⟩
    · rw [hx] at hn
      cases hn

/-- From the first cell the links and the gaps lead to all cells. -/
theorem leads (h : Chain next gap (c :: q) last) {d : A} (hd : d ∈ c :: q) :
    Relation.ReflTransGen (fun a b => next a = some b ∨ gap a b) c d := by
  obtain ⟨l₁, l₂, heq⟩ := List.append_of_mem hd
  clear hd
  induction l₁ generalizing c q with
  | nil =>
    obtain ⟨rfl, -⟩ := List.cons.inj heq
    exact .refl
  | cons x l₁ ih =>
    obtain ⟨rfl, hq⟩ := List.cons.inj heq
    cases hl : l₁ ++ d :: l₂ with
    | nil => simp at hl
    | cons y l =>
      have hq' : q = y :: l := hq.trans hl
      rw [hq'] at h
      have hstep : next c = some y ∨ gap c y := (h.link [] c y l rfl).imp id And.right
      exact .head hstep (ih (h.drop fun _ _ hg => hg) hl.symm)

end Chain

end Conc
end Perfbook
