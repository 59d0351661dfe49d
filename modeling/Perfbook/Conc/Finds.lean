/-
# Searching a list that changes

A search follows `next` from cell to cell, and stops at the first element that it looks for, or
back at the head. If nothing were to change any more, a search that has come to the cell `c`
would find `r` (`Finds`). It comes past elements that are safe only, `ok`: linked, or unlinked
and not to be used again before the search is through.

Adding an element does not change what a search finds that is under way, and unlinking one
either does not change it, or makes it what a new search would find (`Finds.del`). So what
a search finds is always what a new one has found at some instant since it began.

Key definition: `Finds`.
Key theorems: `Finds.of_ring`, `Finds.congr`, `Finds.add`, `Finds.del`.
-/
import Perfbook.Conc.Ring

namespace Perfbook
namespace Conc

variable {A E : Type*}

/-- A search that has come to a cell finds this, past elements that are `ok`. -/
inductive Finds (f : E → A) (h : A) (next : A → A) (sought : E → Bool) (ok : E → Prop) :
    A → Option E → Prop
  | stop : Finds f h next sought ok h none
  | hit {e : E} : ok e → sought e = true → Finds f h next sought ok (f e) (some e)
  | go {e : E} {r : Option E} : ok e → sought e = false → Finds f h next sought ok (next (f e)) r →
    Finds f h next sought ok (f e) r

namespace Finds

variable {f : E → A} {h : A} {next next' : A → A} {sought sought' : E → Bool} {ok ok' : E → Prop}
  {c : A} {e : E} {r r' : Option E}

/-- What is found is sought, and safe. -/
theorem found (hr : Finds f h next sought ok c r) (he : r = some e) : ok e ∧ sought e = true := by
  induction hr with
  | stop => cases he
  | hit hok hs =>
    obtain rfl := Option.some.inj he
    exact ⟨hok, hs⟩
  | go _ _ _ ih => exact ih he

/-- A search depends on what it comes past only. -/
theorem congr (hr : Finds f h next sought ok c r)
    (hk : ∀ e, ok e → ok' e ∧ sought' e = sought e ∧ next' (f e) = next (f e)) :
    Finds f h next' sought' ok' c r := by
  induction hr with
  | stop => exact .stop
  | hit hok hs =>
    obtain ⟨hok', hs', -⟩ := hk _ hok
    exact .hit hok' (hs'.trans hs)
  | go hok hs _ ih =>
    obtain ⟨hok', hs', hn⟩ := hk _ hok
    exact .go hok' (hs'.trans hs) (hn ▸ ih)

section Distinct

variable (hf : Function.Injective f) (hh : ∀ e, f e ≠ h)

include hh in
theorem at_head (hr : Finds f h next sought ok c r) (hc : c = h) : r = none := by
  cases hr with
  | stop => rfl
  | hit => exact absurd hc (hh _)
  | go => exact absurd hc (hh _)

include hf hh

theorem at_cell (hr : Finds f h next sought ok (f e) r) :
    ok e ∧ (sought e = true ∧ r = some e ∨
      sought e = false ∧ Finds f h next sought ok (next (f e)) r) := by
  generalize hc : f e = c at hr
  cases hr with
  | stop => exact absurd hc (hh e)
  | hit hok hs =>
    obtain rfl := hf hc
    exact ⟨hok, .inl ⟨hs, rfl⟩⟩
  | go hok hs hr =>
    obtain rfl := hf hc
    exact ⟨hok, .inr ⟨hs, hr⟩⟩

/-- There is one answer. -/
theorem unique (hr : Finds f h next sought ok c r) (hr' : Finds f h next sought ok' c r') : r = r' := by
  induction hr with
  | stop => exact (hr'.at_head hh rfl).symm
  | hit _ hs =>
    rcases (hr'.at_cell hf hh).2 with ⟨-, hr'⟩ | ⟨hn, -⟩
    · exact hr'.symm
    · exact absurd hs (by rw [hn]; exact Bool.false_ne_true)
  | go _ hs _ ih =>
    rcases (hr'.at_cell hf hh).2 with ⟨hn, -⟩ | ⟨-, hr'⟩
    · exact absurd hn (by rw [hs]; exact Bool.false_ne_true)
    · exact ih hr'

end Distinct

variable {m : Links A} {l l₁ l₂ : List E}

variable (l₁) in
/-- **A search among the linked elements** finds the first of them that is sought. -/
theorem of_ring (hr : Ring f h m (l₁ ++ l₂)) (hok : ∀ e ∈ l₂, ok e) :
    Finds f h m.next sought ok (first f h l₂) (l₂.find? sought) := by
  induction l₂ generalizing l₁ with
  | nil => exact .stop
  | cons e l₂ ih =>
    cases hs : sought e with
    | true =>
      rw [List.find?_cons_of_pos hs]
      exact .hit (hok e List.mem_cons_self) hs
    | false =>
      rw [List.find?_cons_of_neg (by simp [hs])]
      refine .go (hok e List.mem_cons_self) hs ?_
      rw [hr.next_mem]
      exact ih (l₁ ++ [e]) (by simpa using hr) fun a ha => hok a (List.mem_cons_of_mem e ha)

variable [DecidableEq A]

/-- Adding a cell changes `next` of no other one. -/
theorem add_next (m : Links A) {c x : A} (hh : x ≠ h) (hc : x ≠ c) : (m.add c h).next x = m.next x :=
  (Function.update_of_ne hh _ _).trans (Function.update_of_ne hc _ _)

variable (hf : Function.Injective f) (hh : ∀ e, f e ≠ h)

include hf hh

/-- **An element is added**, and searches find what they would have found. -/
theorem add (hr : Finds f h m.next sought ok c r) (he : ¬ ok e) :
    Finds f h (m.add (f e) h).next sought ok c r :=
  hr.congr fun a ha => by
    have hae : f a ≠ f e := fun hx => he (hf hx ▸ ha)
    exact ⟨ha, rfl, add_next m (hh a) hae⟩

/-- **An element is unlinked.** If it is the first that a search looks for, the search finds what it
would have found, or what a new one finds; else it finds what it would have found. -/
theorem del (hr : Finds f h m.next sought ok c r) (hring : Ring f h m (l₁ ++ e :: l₂))
    (hok : ∀ a ∈ l₁ ++ e :: l₂, ok a) (hfirst : sought e = true → ∀ a ∈ l₁, sought a = false) :
    ∃ r', Finds f h (m.del (f e)).next sought ok c r' ∧
      (r' = r ∨ r' = (l₁ ++ l₂).find? sought) := by
  have hring' := hring.del hf hh
  induction hr with
  | stop => exact ⟨none, .stop, .inl rfl⟩
  | @hit a ha hs => exact ⟨some a, .hit ha hs, .inl rfl⟩
  | @go a r ha hs hr ih =>
    by_cases hlast : f a = m.prev (f e)
    · -- the search is led past `e`
      rw [hring.prev_mem] at hlast
      have hrest : Finds f h (m.del (f e)).next sought ok (first f h l₂) (l₂.find? sought) :=
        of_ring l₁ hring' fun b hb => hok b (by simp [hb])
      refine ⟨l₂.find? sought, .go ha hs ?_, ?_⟩
      · have hn : (m.del (f e)).next (f a) = first f h l₂ := by
          show Function.update m.next (m.prev (f e)) (m.next (f e)) (f a) = _
          rw [hring.prev_mem, hlast, Function.update_self, hring.next_mem]
        rwa [hn]
      · cases he : sought e with
        | true =>
          refine .inr ?_
          have hl : l₁.find? sought = none := List.find?_eq_none.mpr fun b hb => by
            simp [hfirst he b hb]
          rw [List.find?_append, hl, Option.none_or]
        | false =>
          refine .inl ?_
          have hx : m.next (f a) = f e := by
            rw [hlast]
            exact (hring.link l₁ (e :: l₂) rfl).1
          rw [hx] at hr
          rcases (hr.at_cell hf hh).2 with ⟨hn, -⟩ | ⟨-, hr⟩
          · exact absurd hn (by rw [he]; exact Bool.false_ne_true)
          · rw [hring.next_mem] at hr
            have hold : Ring f h m ((l₁ ++ [e]) ++ l₂) := by simpa using hring
            exact unique hf hh (of_ring (l₁ ++ [e]) hold fun b hb => hok b (by simp [hb])) hr
    · obtain ⟨r', hr', hor⟩ := ih
      refine ⟨r', .go ha hs ?_, hor⟩
      have hn : (m.del (f e)).next (f a) = m.next (f a) := Function.update_of_ne hlast _ _
      rwa [hn]

end Finds

end Conc
end Perfbook
