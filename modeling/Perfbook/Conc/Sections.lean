/-
# Sections that are waited for

Threads enter and leave nested sections. A thread that waits for the others has
to wait for every section that runs when its call begins: `pre t u` says that
the section of `u` that ran when the last call of `t` began is still running.
A call waits long enough if `pre t` is empty when it returns.

The waiting thread looks at the others one after the other; `scan` is where it
goes for the next one.

Key definitions: `Sections`, `Sections.Ok`, `scan`.
Key theorems: `Sections.Ok.enter`, `Sections.Ok.leave`, `Sections.Ok.observe`,
`Sections.pre_of_leave`, `Sections.Waited.mono`, `Sections.waited_of_le`.
-/
import Mathlib.Data.Nat.Notation
import Mathlib.Logic.Function.Basic

namespace Perfbook
namespace Conc

/-- Sections are counted under one of two indices. -/
theorem mod_two_lt (k : ℕ) : k % 2 < 2 := Nat.mod_lt k Nat.two_pos

/-- How deep each thread is nested, and which sections a call waits for. -/
structure Sections (τ : Type*) where
  depth : τ → ℕ
  pre : τ → τ → Bool

namespace Sections

variable {τ : Type*}

/-- What a call waits for is a section that runs. -/
def Ok (s : Sections τ) : Prop := ∀ t u, s.pre t u = true → 0 < s.depth u

/-- The sections that ran when the call of `t` began have ended. -/
def Waited (s : Sections τ) (t : τ) : Prop := ∀ u, s.pre t u = false

/-- No section is waited for that was not waited for before. -/
theorem Waited.mono {s s' : Sections τ} {t : τ} (h : s.Waited t)
    (hp : ∀ u, s'.pre t u = true → s.pre t u = true) : s'.Waited t := by
  intro u
  rw [← Bool.not_eq_true]
  intro hu
  have := hp u hu
  rw [h u] at this
  cases this

/-- A scan has passed all threads. -/
theorem waited_of_le {n : ℕ} {s : Sections (Fin n)} {t : Fin n}
    (h : ∀ u, s.pre t u = true → n ≤ u.val) : s.Waited t := by
  intro u
  rw [← Bool.not_eq_true]
  exact fun hu => absurd (h u hu) (Nat.not_le.mpr u.isLt)

/-- A scan goes past a thread that is not waited for. -/
theorem succ_le_of_pre {n : ℕ} {s : Sections (Fin n)} {t u v : Fin n} (hu : s.pre t u = false)
    (hv : s.pre t v = true) (hle : u.val ≤ v.val) : u.val + 1 ≤ v.val := by
  have hne : u.val ≠ v.val := fun heq => by
    obtain rfl := Fin.ext heq
    rw [hu] at hv
    cases hv
  omega

variable [DecidableEq τ] (s : Sections τ) (t : τ)

/-- One level deeper. -/
def enter : Sections τ := { s with depth := Function.update s.depth t (s.depth t + 1) }

/-- One level back; the section ends with its outermost level. -/
def leave : Sections τ where
  depth := Function.update s.depth t (s.depth t - 1)
  pre v u := if u = t ∧ s.depth t = 1 then false else s.pre v u

/-- A call begins. -/
def observe : Sections τ :=
  { s with pre := Function.update s.pre t fun u => decide (0 < s.depth u) }

variable {s t} {u v : τ}

@[simp] theorem enter_pre : (s.enter t).pre = s.pre := rfl

@[simp] theorem enter_depth : (s.enter t).depth t = s.depth t + 1 := Function.update_self ..

@[simp] theorem leave_depth : (s.leave t).depth t = s.depth t - 1 := Function.update_self ..

@[simp] theorem observe_depth : (s.observe t).depth = s.depth := rfl

theorem enter_depth_ne (h : u ≠ t) : (s.enter t).depth u = s.depth u := Function.update_of_ne h ..

theorem leave_depth_ne (h : u ≠ t) : (s.leave t).depth u = s.depth u := Function.update_of_ne h ..

theorem observe_pre_ne (h : v ≠ t) : (s.observe t).pre v = s.pre v := Function.update_of_ne h ..

@[simp] theorem observe_pre : (s.observe t).pre t u = true ↔ 0 < s.depth u := by
  simp [observe]

/-- Leaving a section ends the wait for it, and nothing else. -/
theorem pre_of_leave (h : (s.leave t).pre v u = true) :
    s.pre v u = true ∧ (u = t → s.depth t ≠ 1) := by
  unfold leave at h
  dsimp only at h
  split at h
  · cases h
  · rename_i hn
    exact ⟨h, fun hu hd => hn ⟨hu, hd⟩⟩

/-- The others are still in their sections. -/
theorem pos_of_leave (hd : s.depth t = 1) (h : 0 < (s.leave t).depth u) : u ≠ t ∧ 0 < s.depth u := by
  by_cases hu : u = t
  · rw [hu, leave_depth] at h
    omega
  · exact ⟨hu, by rwa [leave_depth_ne hu] at h⟩

omit [DecidableEq τ] in
theorem Ok.not_pre (h : s.Ok) (hd : s.depth u = 0) (v : τ) : s.pre v u = false := by
  by_contra hp
  have := h v u (by simpa using hp)
  omega

theorem Ok.enter (h : s.Ok) (t : τ) : (s.enter t).Ok := by
  intro v u hp
  by_cases hu : u = t
  · rw [hu, enter_depth]
    exact Nat.succ_pos _
  · rw [enter_depth_ne hu]
    exact h v u hp

theorem Ok.leave (h : s.Ok) (t : τ) : (s.leave t).Ok := by
  intro v u hp
  obtain ⟨hp, hd⟩ := pre_of_leave hp
  have hu := h v u hp
  by_cases hut : u = t
  · rw [hut, leave_depth]
    rw [hut] at hu
    have := hd hut
    omega
  · rwa [leave_depth_ne hut]

theorem Ok.observe (h : s.Ok) (t : τ) : (s.observe t).Ok := by
  intro v u hp
  by_cases hv : v = t
  · rw [hv] at hp
    exact (observe_pre (s := s)).mp hp
  · rw [observe_pre_ne hv] at hp
    exact h v u hp

end Sections

/-- Where a loop over the threads goes with thread `i`, and when it is over. -/
def scan {n : ℕ} {L : Type*} (at' : Fin n → L) (done : L) (i : ℕ) : L :=
  if h : i < n then at' ⟨i, h⟩ else done

theorem scan_rec {n : ℕ} {L : Type*} {at' : Fin n → L} {done : L} {i : ℕ} {P : L → Prop}
    (ha : ∀ v : Fin n, v.val = i → P (at' v)) (hd : n ≤ i → P done) : P (scan at' done i) := by
  unfold scan
  split
  · exact ha _ rfl
  · exact hd (by omega)

end Conc
end Perfbook
