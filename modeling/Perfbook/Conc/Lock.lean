/-
# Locks, and one thread that moves

`loc` says where each thread is. A step moves one thread, so what holds of all
places has to be shown of the new place and kept for the others
(`forall_update`), and a sum over the threads changes by what the one thread
adds to it (`sum_move`; `sum_below_succ` for a loop that adds them up). A lock is taken and released at given places,
so who holds it is a matter of where the threads are (`LockedBy`; `LocksBy` for many locks). When
each thread waits for a lock that is larger than all it holds, no thread waits for
itself (`not_transGen_waits`).

Key definitions: `LockedBy`, `LocksBy`.
Key theorems: `forall_update`, `proj_update`, `sum_move`, `LockedBy.stay`, `LockedBy.take`, `LockedBy.drop`,
`LocksBy.stay`, `LocksBy.keep`, `LocksBy.take`, `LocksBy.drop`, `not_transGen_waits`.
-/
import Mathlib.Algebra.BigOperators.Group.Finset.Basic
import Mathlib.Data.Fintype.Basic
import Mathlib.Logic.Relation

namespace Perfbook
namespace Conc

variable {τ L : Type*} {loc loc' : τ → L} {lock : Option τ} {holds : L → Bool} {t u : τ} {l : L}

/-- The lock is with the thread that is at one of the places `holds`. -/
def LockedBy (holds : L → Bool) (lock : Option τ) (loc : τ → L) : Prop :=
  ∀ t, lock = some t ↔ holds (loc t) = true

/-- Two threads cannot both have the lock. -/
theorem LockedBy.eq (h : LockedBy holds lock loc) (ht : holds (loc t) = true)
    (hu : holds (loc u) = true) : u = t :=
  Option.some.inj (((h u).mpr hu).symm.trans ((h t).mpr ht))

theorem LockedBy.free (h : LockedBy holds lock loc) (hn : lock = none) (t : τ) :
    holds (loc t) = false := by
  rw [← Bool.not_eq_true, ← h t, hn]
  exact Option.some_ne_none t ∘ Eq.symm

variable [DecidableEq τ] (hloc : loc' = Function.update loc t l)

include hloc

theorem update_self : loc' t = l := by
  rw [hloc, Function.update_self]

theorem update_ne (hu : u ≠ t) : loc' u = loc u := by
  rw [hloc, Function.update_of_ne hu]

theorem forall_update {P : τ → L → Prop} (ht : P t l) (hu : ∀ u, u ≠ t → P u (loc u)) (u : τ) :
    P u (loc' u) := by
  by_cases h : u = t
  · rw [h, update_self hloc]
    exact ht
  · rw [update_ne hloc h]
    exact hu u h

/-- A thread goes on, and what `f` says of the threads is as before. -/
theorem proj_update {β : Type*} (f : L → β) (hf : f l = f (loc t)) (u : τ) : f (loc' u) = f (loc u) :=
  forall_update (P := fun u x => f x = f (loc u)) hloc hf (fun _ _ => rfl) u

/-- A thread goes on, and it keeps what it has or gives it up. -/
theorem some_update {β : Type*} (f : L → Option β) (hf : f l = f (loc t) ∨ f l = none) (u : τ) (b : β)
    (hb : f (loc' u) = some b) : f (loc u) = some b := by
  refine forall_update (P := fun u x => f x = some b → f (loc u) = some b) hloc (fun hl => ?_) (fun _ _ => id) u hb
  rcases hf with hf | hf
  · rw [← hf, hl]
  · rw [hf] at hl
    cases hl

omit hloc

/-- A sum over the threads, when one of them goes on. -/
theorem sum_move {M : Type} [AddCommMonoid M] [Fintype τ] (φ ψ : τ → M)
    (hf : ∀ u, u ≠ t → φ u = ψ u) : ∑ u, φ u + ψ t = ∑ u, ψ u + φ t := by
  rw [← Finset.add_sum_erase _ φ (Finset.mem_univ t), ← Finset.add_sum_erase _ ψ (Finset.mem_univ t),
    Finset.sum_congr rfl fun u hu => hf u (Finset.ne_of_mem_erase hu)]
  ac_rfl

/-- A loop over the threads comes to one more. -/
theorem sum_below_succ {M : Type} [AddCommMonoid M] {n : ℕ} (f : Fin n → M) (i : Fin n) :
    ∑ u with u.1 < i.1 + 1, f u = ∑ u with u.1 < i.1, f u + f i := by
  have h : Finset.univ.filter (fun u : Fin n => u.1 < i.1 + 1) =
      insert i (Finset.univ.filter fun u : Fin n => u.1 < i.1) := by
    ext u
    simp only [Finset.mem_filter, Finset.mem_univ, true_and, Finset.mem_insert, Fin.ext_iff]
    omega
  rw [h, Finset.sum_insert (by simp), add_comm]

/-- A step that neither takes nor releases the lock. -/
theorem LockedBy.stay (h : LockedBy holds lock loc) (hloc : loc' = Function.update loc t l)
    (hl : holds l = holds (loc t)) : LockedBy holds lock loc' :=
  forall_update (P := fun u x => lock = some u ↔ holds x = true) hloc (hl ▸ h t) fun u _ => h u

theorem LockedBy.take (h : LockedBy holds none loc) (hloc : loc' = Function.update loc t l)
    (hl : holds l = true) : LockedBy holds (some t) loc' :=
  forall_update (P := fun u x => some t = some u ↔ holds x = true) hloc (iff_of_true rfl hl)
    fun u hu => iff_of_false (fun he => hu (Option.some.inj he).symm) (by simp [h.free rfl u])

theorem LockedBy.drop (h : LockedBy holds lock loc) (hloc : loc' = Function.update loc t l)
    (ht : holds (loc t) = true) (hl : holds l = false) : LockedBy holds none loc' :=
  forall_update (P := fun u x => none = some u ↔ holds x = true) hloc
    (iff_of_false (Option.some_ne_none t ∘ Eq.symm) (by simp [hl]))
    fun _ hu => iff_of_false (Option.some_ne_none _ ∘ Eq.symm) fun hh => hu (h.eq ht hh)

/-! ### Many locks -/

section

variable {A : Type*} {locks : A → Option τ} {held : L → A → Prop} {a : A} {E : Prop}

/-- Each lock that a place holds is with the thread that is there. When `E`, a thread has no other locks. -/
structure LocksBy (E : Prop) (held : L → A → Prop) (locks : A → Option τ) (loc : τ → L) : Prop where
  has : ∀ t a, held (loc t) a → locks a = some t
  only : E → ∀ t a, locks a = some t → held (loc t) a

omit [DecidableEq τ] in
theorem LocksBy.eq (h : LocksBy E held locks loc) (ht : held (loc t) a) (hu : held (loc u) a) : u = t :=
  Option.some.inj ((h.has u a hu).symm.trans (h.has t a ht))

omit [DecidableEq τ] in
theorem LocksBy.not_held (h : LocksBy E held locks loc) (hn : locks a = none) : ¬ held (loc t) a := fun ht =>
  nomatch hn.symm.trans (h.has t a ht)

variable [DecidableEq A] (h : LocksBy E held locks loc) (hloc : loc' = Function.update loc t l)
include h hloc

omit [DecidableEq A] in
theorem LocksBy.stay (hl : ∀ a, held l a → held (loc t) a) (hl' : E → ∀ a, held (loc t) a → held l a) :
    LocksBy E held locks loc' where
  has := forall_update (P := fun u x => ∀ a, held x a → locks a = some u) hloc (fun a ha => h.has t a (hl a ha))
    fun u _ => h.has u
  only hE := forall_update (P := fun u x => ∀ a, locks a = some u → held x a) hloc
    (fun a ha => hl' hE a (h.only hE t a ha)) fun u _ => h.only hE u

omit [DecidableEq A] in
theorem LocksBy.keep (hl : ∀ a, held l a ↔ held (loc t) a) : LocksBy E held locks loc' :=
  h.stay hloc (fun a => (hl a).mp) fun _ a => (hl a).mpr

theorem LocksBy.take (hn : ∀ u, ¬ held (loc u) a) (hl : ∀ b, held l b ↔ held (loc t) b ∨ b = a) :
    LocksBy E held (Function.update locks a (some t)) loc' where
  has := by
    refine forall_update (P := fun u x => ∀ b, held x b → Function.update locks a (some t) b = some u) hloc
      (fun b hb => ?_) fun u _ b hb => ?_
    · by_cases hba : b = a
      · rw [hba, Function.update_self]
      · rw [Function.update_of_ne hba]
        exact h.has t b (((hl b).mp hb).resolve_right hba)
    · have hba : b ≠ a := fun he => hn u (he ▸ hb)
      rw [Function.update_of_ne hba]
      exact h.has u b hb
  only hE := by
    refine forall_update (P := fun u x => ∀ b, Function.update locks a (some t) b = some u → held x b) hloc
      (fun b hb => (hl b).mpr ?_) fun u hu b hb => ?_
    · by_cases hba : b = a
      · exact .inr hba
      · rw [Function.update_of_ne hba] at hb
        exact .inl (h.only hE t b hb)
    · by_cases hba : b = a
      · rw [hba, Function.update_self] at hb
        exact absurd (Option.some.inj hb).symm hu
      · rw [Function.update_of_ne hba] at hb
        exact h.only hE u b hb

theorem LocksBy.drop (ht : held (loc t) a) (hl : ∀ b, held l b ↔ held (loc t) b ∧ b ≠ a) :
    LocksBy E held (Function.update locks a none) loc' where
  has := by
    refine forall_update (P := fun u x => ∀ b, held x b → Function.update locks a none b = some u) hloc
      (fun b hb => ?_) fun u hu b hb => ?_
    · obtain ⟨hb, hba⟩ := (hl b).mp hb
      rw [Function.update_of_ne hba]
      exact h.has t b hb
    · have hba : b ≠ a := fun he => hu (h.eq ht (he ▸ hb))
      rw [Function.update_of_ne hba]
      exact h.has u b hb
  only hE := by
    refine forall_update (P := fun u x => ∀ b, Function.update locks a none b = some u → held x b) hloc
      (fun b hb => (hl b).mpr ?_) fun u _ b hb => ?_
    · by_cases hba : b = a
      · rw [hba, Function.update_self] at hb
        cases hb
      · rw [Function.update_of_ne hba] at hb
        exact ⟨h.only hE t b hb, hba⟩
    · by_cases hba : b = a
      · rw [hba, Function.update_self] at hb
        cases hb
      · rw [Function.update_of_ne hba] at hb
        exact h.only hE u b hb

end

omit [DecidableEq τ] in
/-- **No thread waits for itself**, not even through others, when each waits for a lock behind those it
holds. -/
theorem not_transGen_waits {A : Type*} {wants : τ → Option A} {locks : A → Option τ} {lt : A → A → Prop}
    (htrans : ∀ {p q r}, lt p q → lt q r → lt p r) (hirrefl : ∀ p, ¬ lt p p)
    (horder : ∀ t x p, wants t = some x → locks p = some t → lt p x) (t : τ) :
    ¬ Relation.TransGen (fun t u => ∃ x, wants t = some x ∧ locks x = some u) t t := by
  -- along the waits, the locks get larger
  have hchain : ∀ {u}, Relation.TransGen (fun t u => ∃ x, wants t = some x ∧ locks x = some u) t u →
      ∃ x y, wants t = some x ∧ locks y = some u ∧ (x = y ∨ lt x y) := fun hw => by
    induction hw with
    | single hw =>
      obtain ⟨x, hx, hu⟩ := hw
      exact ⟨x, x, hx, hu, .inl rfl⟩
    | tail _ hw ih =>
      obtain ⟨x, y, hx, hy, hxy⟩ := ih
      obtain ⟨z, hz, hu⟩ := hw
      have hyz : lt y z := horder _ z y hz hy
      refine ⟨x, z, hx, hu, .inr ?_⟩
      rcases hxy with rfl | hxy
      · exact hyz
      · exact htrans hxy hyz
  intro hw
  obtain ⟨x, y, hx, hy, hxy⟩ := hchain hw
  have hyx : lt y x := horder t x y hx hy
  rcases hxy with rfl | hxy
  · exact hirrefl x hyx
  · exact hirrefl x (htrans hxy hyx)

end Conc
end Perfbook
