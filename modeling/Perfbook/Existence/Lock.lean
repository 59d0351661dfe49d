/-
# The locks of the heads

A thread holds `eh_lock` of a head exactly while it is between the
`spin_lock` and the `spin_unlock` of a call on it (`LockInv`), in
`existence_head_set_outgoing` or in `existence_cleanup_gone`. So two threads
are never between them with the same head (`LockInv.unique`).

Key definitions: `Loc.holds`, `LockInv`.
Key theorems: `lock_stepThread`, `LockInv.unique`.
-/
import Perfbook.Existence.Group

namespace Perfbook
namespace Existence

/-- The head whose lock a thread at this place holds. -/
def Loc.holds {H : Type} : Loc H → Option H
  | .gone h _ | .egi h _ | .bugTag h _ | .setTag h _ | .unlock h _ => some h
  | .add .outgoing h _ _ => some h
  | .cleanBug _ _ h | .cleanGone _ _ h | .cleanUnlock _ _ h => some h
  | _ => none

variable {τ H : Type} {s s' : St τ H} {t u : τ} {h : H} {l : Loc H}

/-- A head's lock is held by the thread that is between its `spin_lock` and
`spin_unlock`. -/
def LockInv (s : St τ H) : Prop := ∀ h u, s.lock h = some u ↔ (s.loc u).holds = some h

theorem LockInv.unique (hi : LockInv s) (ht : (s.loc t).holds = some h)
    (hu : (s.loc u).holds = some h) : t = u := by
  have h1 := (hi h t).mpr ht
  rw [(hi h u).mpr hu] at h1
  exact (Option.some.inj h1).symm

variable [DecidableEq τ]

/-- A step from one place to another that holds the same lock. -/
theorem LockInv.keep (hi : LockInv s) (hl : s'.lock = s.lock)
    (hloc : s'.loc = Function.update s.loc t l) (hh : l.holds = (s.loc t).holds) : LockInv s' := by
  intro h u
  rw [hl, hloc, hi h u]
  by_cases hu : u = t
  · subst hu
    rw [Function.update_self, hh]
  · rw [Function.update_of_ne hu]

variable [DecidableEq H]

theorem LockInv.take (hi : LockInv s) (hn : s.lock h = none)
    (hl : s'.lock = Function.update s.lock h (some t))
    (hloc : s'.loc = Function.update s.loc t l) (h0 : (s.loc t).holds = none)
    (hh : l.holds = some h) : LockInv s' := by
  intro h' u
  rw [hl, hloc]
  by_cases hu : u = t
  · subst hu
    rw [Function.update_self, hh]
    by_cases hh' : h' = h
    · subst hh'
      rw [Function.update_self]
      exact iff_of_true rfl rfl
    · rw [Function.update_of_ne hh', hi, h0]
      exact iff_of_false nofun fun he => hh' (Option.some.inj he).symm
  · rw [Function.update_of_ne hu]
    by_cases hh' : h' = h
    · subst hh'
      rw [Function.update_self, ← hi, hn]
      exact iff_of_false (fun he => hu (Option.some.inj he).symm) nofun
    · rw [Function.update_of_ne hh', hi]

theorem LockInv.drop (hi : LockInv s) (hl : s'.lock = Function.update s.lock h none)
    (hloc : s'.loc = Function.update s.loc t l) (h0 : (s.loc t).holds = some h)
    (hh : l.holds = none) : LockInv s' := by
  intro h' u
  rw [hl, hloc]
  by_cases hu : u = t
  · subst hu
    rw [Function.update_self, hh]
    by_cases hh' : h' = h
    · subst hh'
      rw [Function.update_self]
      exact iff_of_false nofun nofun
    · rw [Function.update_of_ne hh', hi, h0]
      exact iff_of_false (fun he => hh' (Option.some.inj he).symm) nofun
  · rw [Function.update_of_ne hu]
    by_cases hh' : h' = h
    · subst hh'
      rw [Function.update_self]
      exact iff_of_false nofun fun he => hu (hi.unique he h0)
    · rw [Function.update_of_ne hh', hi]

/-- **Every step keeps the locks with the threads that are inside.** -/
theorem lock_stepThread (hi : LockInv s) (hn : stepThread t s = some s') : LockInv s' := by
  unfold stepThread at hn
  cases hl : s.loc t with
  | idle | ehAdd => simp [hl] at hn
  | add d h g pc =>
    cases pc with
    | setFirst =>
      cases d <;> simp only [hl, Option.some.injEq] at hn <;> subst hn
      · exact hi.keep (l := .idle) rfl rfl (by rw [hl]; rfl)
      · exact hi.keep (l := .unlock h 0) rfl rfl (by rw [hl]; rfl)
    | _ =>
      simp only [hl, Option.some.injEq] at hn
      subst hn
      exact hi.keep rfl rfl (by rw [hl]; cases d <;> rfl)
  | lock h g =>
    simp only [hl] at hn
    cases hk : s.lock h with
    | some _ => simp [hk] at hn
    | none =>
      simp only [hk, Option.some.injEq] at hn
      subst hn
      exact hi.take hk rfl rfl (by rw [hl]; rfl) rfl
  | gone h g =>
    simp only [hl, Option.some.injEq] at hn
    subst hn
    exact hi.keep rfl rfl (by rw [hl]; split <;> rfl)
  | egi h g =>
    simp only [hl, Option.some.injEq] at hn
    subst hn
    exact hi.keep rfl rfl (by rw [hl]; split <;> rfl)
  | bugTag h g =>
    simp only [hl, Option.ite_none_left_eq_some, Option.some.injEq] at hn
    obtain ⟨-, rfl⟩ := hn
    exact hi.keep rfl rfl (by rw [hl]; rfl)
  | setTag h g =>
    simp only [hl, Option.some.injEq] at hn
    subst hn
    exact hi.keep rfl rfl (by rw [hl]; rfl)
  | unlock h ret =>
    simp only [hl, Option.some.injEq] at hn
    subst hn
    exact hi.drop rfl rfl (by rw [hl]; rfl) rfl
  | bug k g =>
    cases k <;> simp only [hl, Option.ite_none_left_eq_some, Option.some.injEq] at hn <;>
      obtain ⟨-, rfl⟩ := hn <;> exact hi.keep rfl rfl (by rw [hl]; rfl)
  | setState g =>
    simp only [hl, Option.some.injEq] at hn
    subst hn
    exact hi.keep rfl rfl (by rw [hl]; rfl)
  | clearNext k g x =>
    simp only [hl, Option.some.injEq] at hn
    subst hn
    exact hi.keep rfl rfl (by rw [hl]; split <;> rfl)
  | clear k g x =>
    cases x with
    | list => simp [hl] at hn
    | head h =>
      simp only [hl, Option.some.injEq] at hn
      subst hn
      exact hi.keep rfl rfl (by rw [hl]; rfl)
  | cleanNext k g x =>
    simp only [hl] at hn
    split at hn <;> simp only [Option.some.injEq] at hn <;> subst hn <;>
      exact hi.keep rfl rfl (by rw [hl]; rfl)
  | cleanLock k g x =>
    cases x with
    | list => simp [hl] at hn
    | head h =>
      simp only [hl] at hn
      cases hk : s.lock h with
      | some _ => simp [hk] at hn
      | none =>
        simp only [hk, Option.some.injEq] at hn
        subst hn
        exact hi.take hk rfl rfl (by rw [hl]; rfl) rfl
  | cleanBug k g h =>
    simp only [hl, Option.ite_none_left_eq_some, Option.some.injEq] at hn
    obtain ⟨-, rfl⟩ := hn
    exact hi.keep rfl rfl (by rw [hl]; rfl)
  | cleanGone k g h =>
    simp only [hl, Option.some.injEq] at hn
    subst hn
    exact hi.keep rfl rfl (by rw [hl]; rfl)
  | cleanUnlock k g h =>
    simp only [hl, Option.some.injEq] at hn
    subst hn
    exact hi.drop rfl rfl (by rw [hl]; rfl) rfl
  | loadEgi h =>
    simp only [hl] at hn
    split at hn <;> simp only [Option.some.injEq] at hn <;> subst hn <;>
      exact hi.keep rfl rfl (by rw [hl]; rfl)
  | loadState h v =>
    simp only [hl, Option.some.injEq] at hn
    subst hn
    exact hi.keep rfl rfl (by rw [hl]; rfl)

end Existence
end Perfbook
