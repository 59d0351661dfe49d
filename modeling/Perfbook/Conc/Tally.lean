/-
# A counter in parts

Each part of the count grows, and a reader adds the parts up one after the other. What it has so
far and what is left bound the sum from both sides (`Tally`). The total grows by one at a time, so
each number between the total at the call and the one now was the total at some instant of the
call: such a reader reads an exact counter (`Counting`).

Whose increments took effect can be read off the history: those of a thread that have returned,
and the one that is about to (`Counted`).

Key definitions: `counter`, `Tally`, `Counting`, `Counted`.
Key theorems: `Tally.start`, `Tally.grow`, `Tally.visit`, `Tally.skip`, `Tally.total`,
`Counting.effect`, `Counting.answered`, `Lin.counted`.
-/
import Mathlib.Algebra.BigOperators.Group.Finset.Basic
import Mathlib.Algebra.Order.BigOperators.Group.Finset
import Perfbook.Conc.Glimpse
import Perfbook.Conc.Lock

namespace Perfbook
namespace Conc

variable {τ V : Type*}

/-! ### Adding up -/

section

variable [Fintype τ] [DecidableEq τ]

/-- One more increment. -/
theorem sum_inc (f : τ → ℕ) (t : τ) : ∑ u, Function.update f t (f t + 1) u = ∑ u, f u + 1 := by
  have h := sum_move (t := t) (Function.update f t (f t + 1)) f fun u hu => Function.update_of_ne hu ..
  rw [Function.update_self] at h
  omega

omit [Fintype τ] in
theorem le_inc (f : τ → ℕ) (t u : τ) : f u ≤ Function.update f t (f t + 1) u := by
  by_cases hu : u = t
  · rw [hu, Function.update_self]
    omega
  · rw [Function.update_of_ne hu]

/-- The parts in `D` have been added, and `lo` was the total before. -/
structure Tally (f : τ → ℕ) (D : Finset τ) (lo acc : ℕ) : Prop where
  low : lo ≤ acc + ∑ t ∈ Dᶜ, f t
  high : acc ≤ ∑ t ∈ D, f t

namespace Tally

variable {f f' : τ → ℕ} {D D' : Finset τ} {lo lo' acc : ℕ} {u : τ}

theorem start (f : τ → ℕ) (D : Finset τ) (hlo : lo ≤ ∑ t, f t) : Tally f D lo (∑ t ∈ D, f t) where
  low := hlo.trans (Finset.sum_add_sum_compl D f).ge
  high := le_rfl

variable (h : Tally f D lo acc)
include h

/-- The parts grow. -/
theorem grow (hf : ∀ t, f t ≤ f' t) : Tally f' D lo acc where
  low := h.low.trans (Nat.add_le_add_left (Finset.sum_le_sum fun t _ => hf t) acc)
  high := h.high.trans (Finset.sum_le_sum fun t _ => hf t)

/-- One more part is added. -/
theorem visit (hu : u ∉ D) : Tally f (insert u D) lo (acc + f u) where
  low := by
    have hmem : u ∈ Dᶜ := Finset.mem_compl.mpr hu
    have hsum := Finset.add_sum_erase Dᶜ f hmem
    rw [Finset.compl_insert, Nat.add_assoc, hsum]
    exact h.low
  high := by
    rw [Finset.sum_insert hu, Nat.add_comm]
    exact Nat.add_le_add_left h.high _

/-- Parts where nothing was counted need not be added. -/
theorem skip (hD : D ⊆ D') (h0 : ∀ t ∈ D', t ∉ D → f t = 0) : Tally f D' lo acc where
  low := by
    refine h.low.trans (Nat.add_le_add_left ?_ acc)
    have hsum : ∑ t ∈ D'ᶜ, f t = ∑ t ∈ Dᶜ, f t :=
      Finset.sum_subset (Finset.compl_subset_compl.mpr hD) fun t ht ht' =>
        h0 t (not_not.mp fun hn => ht' (Finset.mem_compl.mpr hn)) (Finset.mem_compl.mp ht)
    exact hsum.ge
  high := h.high.trans (Finset.sum_le_sum_of_subset hD)

/-- All parts are added. -/
theorem total (h0 : ∀ t, t ∉ D → f t = 0) : lo ≤ acc ∧ acc ≤ ∑ t, f t := by
  have hall := h.skip (Finset.subset_univ D) fun t _ => h0 t
  have hlow := hall.low
  rw [Finset.compl_univ, Finset.sum_empty] at hlow
  exact ⟨hlow, hall.high⟩

end Tally
end

/-! ### The counter -/

inductive CountOp
  | inc
  | read
deriving DecidableEq

/-- An exact counter, of which `out` can be read. -/
def counter (out : ℕ → V) : Obj ℕ CountOp (Option V) where
  init := 0
  apply
    | .inc, d => (d + 1, none)
    | .read, d => (d, some (out d))

theorem counter_looks (out : ℕ → V) : Looks (counter out) .read := fun _ => rfl

/-- What a reader saw that was called when the total was `lo`. -/
def Saw (out : ℕ → V) (p : τ → Pend CountOp (Option V)) (lo : τ → ℕ) (d : ℕ) (t : τ) (r : Option V) : Prop :=
  p t = .called .read ∧ ∃ k, lo t ≤ k ∧ k ≤ d ∧ r = some (out k)

/-- `h` is a history of the counter, when a reader returns any total since it was called, `lo`. -/
def Counting [DecidableEq τ] (out : ℕ → V) (h : List (Ev τ CountOp (Option V))) (p : τ → Pend CountOp (Option V))
    (lo : τ → ℕ) (d : ℕ) : Prop :=
  Seen (counter out) h p (Saw out p lo d) d

namespace Counting

variable [DecidableEq τ] {out : ℕ → V} {h : List (Ev τ CountOp (Option V))} {p : τ → Pend CountOp (Option V)}
  {lo : τ → ℕ} {d k : ℕ} {t : τ} {L : Type*} {f : L → Pend CountOp (Option V)} {loc loc' : τ → L} {l : L}

theorem start (out : ℕ → V) (lo : τ → ℕ) : Counting out [] (fun _ : τ => .idle) lo 0 where
  lin q hq := (Seen.start (counter out)).lin q fun t => (hq t).imp_right fun hr => by
    obtain ⟨r, ⟨hp, -⟩, -⟩ := hr
    cases hp
  looks _ _ hr := nomatch hr.1

/-- The calls under way need not have looked. -/
theorem lin (hc : Counting out h p lo d) : ∃ S, Lin (counter out) h S p d := Seen.lin hc p fun _ => .inl rfl

/-- What is seen by those that have not moved. -/
theorem saw_others (hloc : loc' = Function.update loc t l) (hl : f l ≠ .called .read) (u : τ) (r : Option V)
    (hr : Saw out (fun u => f (loc' u)) lo d u r) : u ≠ t ∧ Saw out (fun u => f (loc u)) lo d u r := by
  obtain ⟨hp, hk⟩ := hr
  change f (loc' u) = .called .read at hp
  by_cases hu : u = t
  · rw [hu, hloc, Function.update_self] at hp
    exact absurd hp hl
  · rw [hloc, Function.update_of_ne hu] at hp
    exact ⟨hu, hp, hk⟩

variable (hc : Counting out h (fun u => f (loc u)) lo d) (hloc : loc' = Function.update loc t l)
include hc hloc

theorem stay (hp : f l = f (loc t)) : Counting out h (fun u => f (loc' u)) lo d := by
  have hsame : (fun u => f (loc' u)) = fun u => f (loc u) := by
    rw [pend_update hloc, hp]
    exact Function.update_eq_self t fun u => f (loc u)
  unfold Counting
  rw [hsame]
  exact hc

/-- An increment is called. -/
theorem called (hp : f (loc t) = .idle) (ht : f l = .called .inc) :
    Counting out (h ++ [.call t .inc]) (fun u => f (loc' u)) lo d :=
  Seen.called hc hloc (saw_others hloc (by rw [ht]; nofun)) hp ht

/-- A reader is called, and sees the total. -/
theorem calledRead [Fintype τ] (hp : f (loc t) = .idle) (ht : f l = .called .read) :
    Counting out (h ++ [.call t .read]) (fun u => f (loc' u)) (Function.update lo t d) d := by
  refine (Seen.called hc hloc (fun _ _ => id) hp ht).observe fun u r hr => ?_
  obtain ⟨hp', k, hlo, hk, rfl⟩ := hr
  change f (loc' u) = .called .read at hp'
  by_cases hu : u = t
  · rw [hu, Function.update_self] at hlo
    obtain rfl := le_antisymm hlo hk
    exact .inr ⟨.read, hp', counter_looks out, rfl⟩
  · rw [Function.update_of_ne hu] at hlo
    rw [hloc, Function.update_of_ne hu] at hp'
    exact .inl ⟨hu, hp', k, hlo, hk, rfl⟩

/-- **An increment takes effect**, and each reader sees the new total. -/
theorem effect [Fintype τ] (hp : f (loc t) = .called .inc) (ht : f l = .done none) :
    Counting out h (fun u => f (loc' u)) lo (d + 1) := by
  refine (Seen.effect hc hloc (fun _ _ => id) hp rfl ht).observe fun u r hr => ?_
  obtain ⟨hp', k, hlo, hk, rfl⟩ := hr
  rcases Nat.lt_or_eq_of_le hk with hk | rfl
  · have hold : Saw out (fun u => f (loc' u)) lo d u (some (out k)) := ⟨hp', k, hlo, by omega, rfl⟩
    exact .inl (saw_others hloc (by rw [ht]; nofun) u _ hold)
  · exact .inr ⟨.read, hp', counter_looks out, rfl⟩

/-- An increment returns. -/
theorem returned (hp : f (loc t) = .done none) (ht : f l = .idle) :
    Counting out (h ++ [.ret t none]) (fun u => f (loc' u)) lo d :=
  Seen.returned hc hloc (saw_others hloc (by rw [ht]; nofun)) hp ht

/-- **A reader returns** one of the totals since it was called. -/
theorem answered (hp : f (loc t) = .called .read) (hlo : lo t ≤ k) (hk : k ≤ d) (ht : f l = .idle) :
    Counting out (h ++ [.ret t (some (out k))]) (fun u => f (loc' u)) lo d :=
  Seen.answered hc hloc (saw_others hloc (by rw [ht]; nofun)) ⟨hp, k, hlo, hk, rfl⟩ ht

end Counting

/-! ### Whose increments -/

/-- An increment of `t` returns. -/
def Ev.incOf [DecidableEq τ] (t : τ) : Ev τ CountOp (Option V) → Bool
  | .ret u none => u = t
  | _ => false

/-- An increment of `t` took effect. -/
def Op.incOf [DecidableEq τ] (t : τ) (x : Op τ CountOp (Option V)) : Bool := x.thread = t ∧ x.op = .inc

/-- The increments of a call under way that took effect. -/
def Pend.counted : Pend CountOp (Option V) → ℕ
  | .done none => 1
  | _ => 0

/-- `g` are the increments of the threads that took effect. -/
def Counted [DecidableEq τ] (h : List (Ev τ CountOp (Option V))) (p : τ → Pend CountOp (Option V)) (g : τ → ℕ) : Prop :=
  ∀ t, g t = h.countP (Ev.incOf t) + (p t).counted

namespace Counted

variable [DecidableEq τ] {h h' : List (Ev τ CountOp (Option V))} {p : τ → Pend CountOp (Option V)} {g g' : τ → ℕ} {t : τ}
  {o : CountOp} {v : V} {L : Type*} {f : L → Pend CountOp (Option V)} {loc loc' : τ → L} {l : L}

theorem unique (hm : Counted h p g) (hm' : Counted h p g') : g = g' := funext fun t => (hm t).trans (hm' t).symm

theorem countP_snoc (h : List (Ev τ CountOp (Option V))) (e : Ev τ CountOp (Option V)) (u : τ) :
    (h ++ [e]).countP (Ev.incOf u) = h.countP (Ev.incOf u) + if Ev.incOf u e then 1 else 0 := by
  rw [List.countP_append, List.countP_singleton]

theorem incOf_ret_of_ne {u : τ} (hu : u ≠ t) (r : Option V) : (Ev.ret t r : Ev τ CountOp (Option V)).incOf u = false := by
  cases r with
  | none => exact decide_eq_false hu.symm
  | some v => rfl

variable (hm : Counted h (fun u => f (loc u)) g) (hloc : loc' = Function.update loc t l)
include hm hloc

/-- The thread `t` has gone on, and the history with it. -/
theorem move (hh : ∀ u, u ≠ t → h'.countP (Ev.incOf u) = h.countP (Ev.incOf u)) (hg : ∀ u, u ≠ t → g' u = g u)
    (ht : g' t + (h.countP (Ev.incOf t) + (f (loc t)).counted) = g t + (h'.countP (Ev.incOf t) + (f l).counted)) :
    Counted h' (fun u => f (loc' u)) g' := by
  intro u
  have hmu : g u = h.countP (Ev.incOf u) + (f (loc u)).counted := hm u
  show g' u = h'.countP (Ev.incOf u) + (f (loc' u)).counted
  rw [hloc]
  by_cases hu : u = t
  · subst hu
    rw [Function.update_self]
    omega
  · rw [Function.update_of_ne hu, hh u hu, hg u hu, hmu]

theorem stay (hp : f l = f (loc t)) : Counted h (fun u => f (loc' u)) g :=
  hm.move hloc (fun _ _ => rfl) (fun _ _ => rfl) (by rw [hp])

theorem called (hp : f (loc t) = .idle) (ht : f l = .called o) : Counted (h ++ [.call t o]) (fun u => f (loc' u)) g := by
  refine hm.move hloc (fun u _ => countP_snoc h _ u) (fun _ _ => rfl) ?_
  rw [hp, ht, countP_snoc]
  rfl

/-- **An increment takes effect.** -/
theorem effect (hp : f (loc t) = .called .inc) (ht : f l = .done none) :
    Counted h (fun u => f (loc' u)) (Function.update g t (g t + 1)) := by
  refine hm.move hloc (fun _ _ => rfl) (fun u hu => Function.update_of_ne hu ..) ?_
  rw [Function.update_self, hp, ht, Nat.add_right_comm]
  rfl

/-- An increment returns. -/
theorem returned (hp : f (loc t) = .done none) (ht : f l = .idle) : Counted (h ++ [.ret t none]) (fun u => f (loc' u)) g := by
  refine hm.move hloc (fun u hu => ?_) (fun _ _ => rfl) ?_
  · rw [countP_snoc, incOf_ret_of_ne hu]
    rfl
  · rw [hp, ht, countP_snoc, show (Ev.ret t none : Ev τ CountOp (Option V)).incOf t = true from decide_eq_true rfl]
    rfl

/-- A reader returns. -/
theorem answered (hp : (f (loc t)).counted = 0) (ht : f l = .idle) :
    Counted (h ++ [.ret t (some v)]) (fun u => f (loc' u)) g := by
  refine hm.move hloc (fun u _ => countP_snoc h _ u) (fun _ _ => rfl) ?_
  rw [hp, ht, countP_snoc]
  rfl

end Counted

theorem countP_incOf_snoc [DecidableEq τ] (S : List (Op τ CountOp (Option V))) (t u : τ) (o : CountOp) (r : Option V) :
    (S ++ [Op.mk t o r]).countP (Op.incOf u) = S.countP (Op.incOf u) + if t = u ∧ o = .inc then 1 else 0 := by
  rw [List.countP_append, List.countP_singleton]
  simp [Op.incOf]

/-- **The history tells whose increments took effect.** -/
theorem Lin.counted [DecidableEq τ] {out : ℕ → V} {h : List (Ev τ CountOp (Option V))} {S : List (Op τ CountOp (Option V))}
    {p : τ → Pend CountOp (Option V)} {d : ℕ} (hl : Lin (counter out) h S p d) :
    Counted h p fun t => S.countP (Op.incOf t) := by
  induction hl with
  | init => exact fun _ => rfl
  | call t o _ hp ih => exact ih.called (f := id) rfl hp rfl
  | @commit h S p d t o _ hp ih =>
    refine ih.move (f := id) rfl (fun _ _ => rfl) (fun u hu => ?_) ?_
    · rw [countP_incOf_snoc, if_neg fun he => hu he.1.symm]
      rfl
    · rw [countP_incOf_snoc, id, hp]
      cases o with
      | inc =>
        rw [if_pos ⟨rfl, rfl⟩, Nat.add_right_comm]
        rfl
      | read =>
        rw [if_neg (by nofun)]
        rfl
  | @ret h S p d t r _ hp ih =>
    cases r with
    | none => exact ih.returned (f := id) rfl hp rfl
    | some v => exact ih.answered (f := id) rfl (congrArg Pend.counted hp) rfl

end Conc
end Perfbook
