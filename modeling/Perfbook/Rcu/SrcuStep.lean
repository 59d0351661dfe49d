/-
# The steps of `srcu.c`

A load keeps the condition that the count is not being changed, and so a store adds to what
the count is, or takes from it. When the loop over the counts ends with 0 nothing uses the old
index, and the sections that have it are over.

Key theorems: `Inv.lockStore`, `Inv.unlockStore`, `Inv.scanTo`, `Inv.flip`, `Inv.next`, `srcu_grace_period`,
`loses_a_count`.
-/
import Perfbook.Rcu.SrcuInv

namespace Perfbook
namespace Rcu
namespace Srcu

open Conc

variable {n m : ℕ} {s s' : St n m} {t u : Fin n} {L L₀ : Loc m} {i : Fin 2} {k o cpu : ℕ} {g : Stage} {sum v : ℤ}
  {d : Fin m}

theorem goto_loc : (s.goto t L).loc t = L := Function.update_self ..

theorem goto_ne (hu : u ≠ t) : (s.goto t L).loc u = s.loc u := Function.update_of_ne hu ..

namespace Inv

variable (hi : Inv s)
include hi

/-- A thread goes on, and neither counts nor holds anything else than before. -/
theorem goto (hl : s.loc t = L₀) (hin : inRcu L = inRcu L₀) (hhold : holding L = holding L₀) (hst : storing L = none)
    (hleaving : leaving L = leaving L₀) (hcounts : counts L = counts L₀)
    (hscan : scanning L = scanning L₀ ∨ Drained s s.old) (hent : entering L = some s.old → entering L₀ = some s.old)
    (hsnap : snapshot L = none ∨ snapshot L = snapshot L₀) (hL : LocInv (s.goto t L) t L) : Inv (s.goto t L) := by
  subst hl
  exact hi.move rfl rfl rfl rfl rfl rfl hi.rcu (fun _ _ => rfl) (by rw [hin]; exact hi.depth t) (fun _ _ _ h _ => h)
    (hi.mutex.stay rfl hhold) (fun cpu i h => by rw [hst] at h; cases h) hleaving hcounts hscan hent hsnap hL

/-- A thread enters an RCU section. -/
theorem enter (hl : s.loc t = L₀) (hin : inRcu L₀ = false) (hin' : inRcu L = true) (hhold : holding L = holding L₀)
    (hst : storing L = none) (hleaving : leaving L = leaving L₀) (hcounts : counts L = counts L₀)
    (hscan : scanning L = scanning L₀) (hent : entering L = none) (hsnap : snapshot L = none)
    (hL : LocInv ({ s with rcu := s.rcu.enter t }.goto t L) t L) : Inv ({ s with rcu := s.rcu.enter t }.goto t L) := by
  subst hl
  refine hi.move rfl rfl rfl rfl rfl rfl (hi.rcu.enter t) (fun _ hu => Sections.enter_depth_ne hu) ?_
    (fun _ _ _ h _ => h) (hi.mutex.stay rfl hhold) (fun cpu i h => by rw [hst] at h; cases h) hleaving hcounts
    (.inl hscan) (fun h => by rw [hent] at h; cases h) (.inl hsnap) hL
  change (s.rcu.enter t).depth t = _
  rw [Sections.enter_depth, hi.depth t, hin, hin']
  rfl

omit hi in
/-- It leaves it. -/
theorem leave_pre {v : Fin n} (hv : v ≠ t) (h : s.rcu.pre u v = true) : (s.rcu.leave t).pre u v = true :=
  (if_neg fun hh => hv hh.1).trans h

theorem unlockLeave (hl : s.loc t = .unlockLeave) : Inv ({ s with rcu := s.rcu.leave t }.goto t .idle) := by
  have hrpre : ∀ u v, u ≠ t → s.rcu.pre u v = true →
      entering (({ s with rcu := s.rcu.leave t }.goto t .idle).loc v) = some s.old →
      (s.rcu.leave t).pre u v = true := by
    refine fun u v _ h hv => leave_pre (fun he => ?_) h
    rw [he, goto_loc] at hv
    cases hv
  refine hi.move rfl rfl rfl rfl rfl rfl (hi.rcu.leave t) (fun _ hu => Sections.leave_depth_ne hu) ?_ hrpre
    (hi.mutex.stay rfl (by rw [hl]; rfl)) nofun (by rw [hl]; rfl) (by rw [hl]; rfl) (.inl (by rw [hl]; rfl)) nofun
    (.inl rfl) trivial
  change (s.rcu.leave t).depth t = _
  rw [Sections.leave_depth, hi.depth t, hl]
  rfl

/-- A count is loaded. -/
theorem load (hl : s.loc t = L₀) (hloads : loads L₀ = some i) (halone : Alone (.step t) s)
    (hst : storing L = some (s.smpProcessorId t, i)) (hv : value L = s.c (s.smpProcessorId t) i)
    (hin : inRcu L = inRcu L₀)
    (hhold : holding L = holding L₀) (hleaving : leaving L = leaving L₀) (hcounts : counts L = counts L₀)
    (hscan : scanning L = scanning L₀) (hent : entering L = entering L₀) (hsnap : snapshot L = none)
    (hL : LocInv (s.goto t L) t L) : Inv (s.goto t L) := by
  subst hl
  refine hi.move rfl rfl rfl rfl rfl rfl hi.rcu (fun _ _ => rfl) (by rw [hin]; exact hi.depth t) (fun _ _ _ h _ => h)
    (hi.mutex.stay rfl hhold) (fun cpu j h => ?_) hleaving hcounts (.inl hscan) (fun h => hent ▸ h) (.inl hsnap) hL
  rw [hst] at h
  cases h
  exact ⟨hv, fun u _ => halone.1 i hloads u⟩

/-! ### Counts -/

omit hi in
theorem setCount_ne {cpu : Fin m} {j : Fin 2} (h : (cpu, j) ≠ (d, i)) : (s.setCount d i v).c cpu j = s.c cpu j := by
  change Function.update s.c d (Function.update (s.c d) i v) cpu j = s.c cpu j
  by_cases hc : cpu = d
  · subst hc
    rw [Function.update_self, Function.update_of_ne fun hj => h (by rw [hj])]
  · rw [Function.update_of_ne hc]

omit hi in
theorem setCount_self : (s.setCount d i v).c d i = v := by
  change Function.update s.c d (Function.update (s.c d) i v) d i = v
  rw [Function.update_self, Function.update_self]

omit hi in
/-- The counts of an index add up to what they were, and what was stored. -/
theorem sum_setCount (j : Fin 2) :
    ∑ cpu, (s.setCount d i v).c cpu j = ∑ cpu, s.c cpu j + if j = i then v - s.c d i else 0 := by
  have h := sum_move (t := d) (fun cpu => (s.setCount d i v).c cpu j) (fun cpu => s.c cpu j) fun cpu hc =>
    setCount_ne fun he => hc (Prod.mk.inj he).1
  split
  · next hj =>
    subst hj
    rw [setCount_self] at h
    omega
  · next hj =>
    rw [setCount_ne fun he => hj (Prod.mk.inj he).2] at h
    omega

omit hi in
/-- So do the operations in progress. -/
theorem sum_counts {a b : Option (Fin 2)} (hloc : s'.loc = Function.update s.loc t L) (ha : counts (s.loc t) = a)
    (hb : counts L = b) (j : Fin 2) :
    (∑ u, if counts (s'.loc u) = some j then (1 : ℤ) else 0) + (if a = some j then 1 else 0) =
      (∑ u, if counts (s.loc u) = some j then (1 : ℤ) else 0) + if b = some j then 1 else 0 := by
  have h := sum_move (t := t) (fun u => if counts (s'.loc u) = some j then (1 : ℤ) else 0)
    (fun u => if counts (s.loc u) = some j then (1 : ℤ) else 0) fun u hu => by rw [update_ne hloc hu]
  rwa [update_self hloc, ha, hb] at h

/-- The other threads keep what they have loaded. -/
theorem loaded_store (hst : storing (s.loc t) = some (d, i)) (hloc : s'.loc = Function.update s.loc t L)
    (hL : storing L = none) (hc : s'.c = (s.setCount d i v).c) (u : Fin n) (cpu : Fin m) (j : Fin 2)
    (h : storing (s'.loc u) = some (cpu, j)) : value (s'.loc u) = s'.c cpu j := by
  by_cases hu : u = t
  · rw [hu, update_self hloc, hL] at h
    cases h
  · rw [update_ne hloc hu] at h ⊢
    have hne : (cpu, j) ≠ (d, i) := fun he => hu (hi.alone t u (d, i) hst (he ▸ h))
    rw [hc, setCount_ne hne]
    exact hi.loaded u cpu j h

theorem alone_none (hloc : s'.loc = Function.update s.loc t L) (hL : storing L = none) (u v : Fin n) (x : Fin m × Fin 2)
    (hu : storing (s'.loc u) = some x) (hv : storing (s'.loc v) = some x) : v = u := by
  have hsame : ∀ {w}, storing (s'.loc w) = some x → storing (s.loc w) = some x := fun {w} h => by
    by_cases hw : w = t
    · rw [hw, update_self hloc, hL] at h
      cases h
    · rwa [update_ne hloc hw] at h
  exact hi.alone u v x (hsame hu) (hsame hv)

theorem loaded_stay (hloc : s'.loc = Function.update s.loc t L) (hL : storing L = none) :
    ∀ u cpu j, storing (s'.loc u) = some (cpu, j) → value (s'.loc u) = s.c cpu j :=
  forall_update (P := fun _ x => ∀ cpu j, storing x = some (cpu, j) → value x = s.c cpu j) hloc
    (fun cpu j h => by rw [hL] at h; cases h) fun u _ => hi.loaded u

theorem depth_stay (hloc : s'.loc = Function.update s.loc t L) (hin : inRcu L = inRcu (s.loc t)) :
    ∀ u, s.rcu.depth u = if inRcu (s'.loc u) then 1 else 0 :=
  forall_update (P := fun u x => s.rcu.depth u = if inRcu x then 1 else 0) hloc (by rw [hin]; exact hi.depth t)
    fun u _ => hi.depth u

/-- No section is counted, entered or left. -/
theorem sum_stay (hloc : s'.loc = Function.update s.loc t L) (hL : counts L = counts (s.loc t)) (j : Fin 2) :
    ∑ cpu, s.c cpu j = (s.held j).card + ∑ u, if counts (s'.loc u) = some j then 1 else 0 := by
  have hc := sum_counts hloc rfl hL j
  have hsum := hi.sum j
  omega

omit hi in
theorem runs_stay (hloc : s'.loc = Function.update s.loc t L) (hheld : s'.held = s.held)
    (hL : leaving L = leaving (s.loc t)) (k : ℕ) (j : Fin 2) : s'.Runs k j ↔ s.Runs k j := by
  have hleaving : ∀ u, leaving (s'.loc u) = leaving (s.loc u) := proj_update hloc leaving hL
  simp only [St.Runs, hheld, hleaving]

/-- **A section is counted.** -/
theorem lockStore (hl : s.loc t = .lockStore i d v) : Inv ((s.setCount d i (v + 1)).goto t (.lockLeave i)) := by
  have hst : storing (s.loc t) = some (d, i) := by rw [hl]; rfl
  have hv : v = s.c d i := by
    have h := hi.loaded t d i hst
    rwa [hl] at h
  set s' := (s.setCount d i (v + 1)).goto t (.lockLeave i) with hs'
  have hloc : s'.loc = Function.update s.loc t (.lockLeave i) := rfl
  have hruns : ∀ k j, s'.Runs k j ↔ s.Runs k j := runs_stay hloc rfl (by rw [hl]; rfl)
  refine hi.update hloc rfl hi.rcu ?_ (fun _ _ _ h _ => h) (hi.mutex.stay rfl (by rw [hl]; rfl)) (fun hno cpu => ?_)
    (fun j => ?_) (hi.loaded_store hst hloc rfl rfl) (hi.alone_none hloc rfl)
    (fun k j h => hi.made k j ((hruns k j).mp h))
    (fun u k hk => ?_) (fun _ _ _ h => h) (fun u k j _ => (hruns k j).mp) (.inl (by rw [hl]; rfl)) Drained.held
    (fun h => by rw [hl]; exact h) (fun h => .inl (by rw [hl]; exact h)) (.inl rfl) trivial
  · exact hi.depth_stay hloc (by rw [hl]; rfl)
  · have hne : i ≠ s.old := fun he => hno t (by rw [hl, ← he]; rfl)
    exact (setCount_ne fun he => hne (Prod.mk.inj he).2.symm).le
  · have hc := sum_counts (a := none) (b := some i) hloc (by rw [hl]; rfl) rfl j
    have hs := sum_setCount (s := s) (d := d) (i := i) (v := v + 1) j
    have hsum := hi.sum j
    rw [if_neg nofun] at hc
    change (∑ cpu, (s.setCount d i (v + 1)).c cpu j) = ((s.held j).card : ℤ) + _
    rw [hs]
    by_cases hj : j = i
    · rw [if_pos (by rw [hj])] at hc
      rw [if_pos hj]
      omega
    · rw [if_neg fun he => hj (Option.some.inj he).symm] at hc
      rw [if_neg hj]
      omega
  · obtain ⟨j, hr⟩ := hi.runs u k hk
    exact ⟨j, (hruns k j).mpr hr⟩

/-- `__srcu_read_lock` returns. -/
theorem lockLeave (hl : s.loc t = .lockLeave i) : Inv ({ s with
    rcu := s.rcu.leave t
    held := Function.update s.held i (insert s.made (s.held i))
    made := s.made + 1 }.goto t .idle) := by
  set s' := { s with
    rcu := s.rcu.leave t
    held := Function.update s.held i (insert s.made (s.held i))
    made := s.made + 1 }.goto t .idle with hs'
  have hloc : s'.loc = Function.update s.loc t .idle := rfl
  have hself : s'.held i = insert s.made (s.held i) := Function.update_self ..
  have hother : ∀ j, j ≠ i → s'.held j = s.held j := fun j hj => Function.update_of_ne hj ..
  have hleaving : ∀ u, leaving (s'.loc u) = leaving (s.loc u) := proj_update hloc leaving (by rw [hl]; rfl)
  have hmem : ∀ k j, k ∈ s'.held j ↔ k ∈ s.held j ∨ k = s.made ∧ j = i := fun k j => by
    by_cases hj : j = i
    · subst hj
      rw [hself, Finset.mem_insert, or_comm, and_iff_left rfl]
    · rw [hother j hj, or_iff_left fun h => hj h.2]
  have hruns : ∀ k j, s'.Runs k j ↔ s.Runs k j ∨ k = s.made ∧ j = i := fun k j => by
    rw [St.Runs, St.Runs, hmem]
    simp only [hleaving]
    tauto
  have hnew : ∀ j, ¬ s.Runs s.made j := fun j h => absurd (hi.made _ j h) (lt_irrefl _)
  refine hi.update hloc rfl (hi.rcu.leave t) ?_ (fun u v _ h hv => leave_pre (fun he => ?_) h)
    (hi.mutex.stay rfl (by rw [hl]; rfl)) (fun _ _ => le_rfl) (fun j => ?_) ?_ (hi.alone_none hloc rfl)
    (fun k j h => ?_) (fun u k hk => ?_) (fun _ _ _ h => h) (fun u k j hk h => ?_) (.inl (by rw [hl]; rfl))
    (fun hd => ?_) nofun nofun (.inl rfl) trivial
  · refine forall_update (P := fun u x => (s.rcu.leave t).depth u = if inRcu x then 1 else 0) hloc ?_ fun u hu => ?_
    · rw [Sections.leave_depth, hi.depth t, hl]
      rfl
    · rw [Sections.leave_depth_ne hu]
      exact hi.depth u
  · rw [he, update_self hloc] at hv
    cases hv
  · have hc := sum_counts (a := some i) (b := none) hloc (by rw [hl]; rfl) rfl j
    have hsum := hi.sum j
    change (∑ cpu, s.c cpu j) = _
    rw [if_neg (c := none = some j) nofun] at hc
    by_cases hj : j = i
    · subst hj
      rw [if_pos rfl] at hc
      rw [hself, Finset.card_insert_of_notMem fun h => hnew j (.inl h)]
      push_cast
      omega
    · rw [if_neg fun he => hj (Option.some.inj he).symm] at hc
      rw [hother j hj]
      omega
  · exact hi.loaded_stay hloc rfl
  · rcases (hruns k j).mp h with h | ⟨rfl, -⟩
    · exact (hi.made k j h).trans (Nat.lt_succ_self _)
    · exact Nat.lt_succ_self _
  · obtain ⟨j, hr⟩ := hi.runs u k hk
    exact ⟨j, (hruns k j).mpr (.inl hr)⟩
  · refine ((hruns k j).mp h).resolve_right fun ⟨he, _⟩ => ?_
    obtain ⟨j', hr⟩ := hi.runs u k hk
    exact hnew j' (he ▸ hr)
  · rw [hother _ fun he => hd.entering t (by rw [hl, ← he]; rfl)]
    exact hd.held

/-- **A section is left.** -/
theorem unlockCall (hl : s.loc t = .idle) (hk : k ∈ s.held i) :
    Inv ({ s with held := Function.update s.held i ((s.held i).erase k) }.goto t (.unlockEnter k i)) := by
  set s' := { s with held := Function.update s.held i ((s.held i).erase k) }.goto t (.unlockEnter k i) with hs'
  have hloc : s'.loc = Function.update s.loc t (.unlockEnter k i) := rfl
  have hself : s'.held i = (s.held i).erase k := Function.update_self ..
  have hother : ∀ j, j ≠ i → s'.held j = s.held j := fun j hj => Function.update_of_ne hj ..
  have hleaving : ∀ u x, leaving (s'.loc u) = some x ↔ leaving (s.loc u) = some x ∨ u = t ∧ x = (k, i) := fun u x => by
    by_cases hu : u = t
    · subst hu
      rw [update_self hloc, hl]
      exact ⟨fun h => .inr ⟨rfl, (Option.some.inj h).symm⟩, fun h => h.elim nofun fun h => congrArg some h.2.symm⟩
    · rw [update_ne hloc hu, or_iff_left fun h => hu h.1]
  have hruns : ∀ k' j, s'.Runs k' j ↔ s.Runs k' j := fun k' j => by
    rw [St.Runs, St.Runs]
    constructor
    · rintro (h | ⟨u, h⟩)
      · refine .inl ?_
        by_cases hj : j = i
        · subst hj
          rw [hself] at h
          exact Finset.mem_of_mem_erase h
        · rwa [hother j hj] at h
      · rcases (hleaving u _).mp h with h | ⟨-, h⟩
        · exact .inr ⟨u, h⟩
        · obtain ⟨rfl, rfl⟩ := Prod.mk.inj h
          exact .inl hk
    · rintro (h | ⟨u, h⟩)
      · by_cases he : (k', j) = (k, i)
        · exact .inr ⟨t, (hleaving t _).mpr (.inr ⟨rfl, he⟩)⟩
        · refine .inl ?_
          by_cases hj : j = i
          · subst hj
            rw [hself]
            exact Finset.mem_erase.mpr ⟨fun hk => he (by rw [hk]), h⟩
          · rwa [hother j hj]
      · exact .inr ⟨u, (hleaving u _).mpr (.inl h)⟩
  refine hi.update hloc rfl hi.rcu ?_ (fun _ _ _ h _ => h) (hi.mutex.stay rfl (by rw [hl]; rfl)) (fun _ _ => le_rfl)
    (fun j => ?_) ?_ (hi.alone_none hloc rfl) (fun k' j h => hi.made k' j ((hruns k' j).mp h)) (fun u k' hk' => ?_)
    (fun _ _ _ h => h) (fun u k' j _ => (hruns k' j).mp) (.inl (by rw [hl]; rfl)) (fun hd => ?_) nofun (fun h => ?_)
    (.inl rfl) trivial
  · exact hi.depth_stay hloc (by rw [hl]; rfl)
  · have hc := sum_counts (a := none) (b := some i) hloc (by rw [hl]; rfl) rfl j
    have hsum := hi.sum j
    change (∑ cpu, s.c cpu j) = _
    rw [if_neg (c := none = some j) nofun] at hc
    by_cases hj : j = i
    · subst hj
      rw [if_pos rfl] at hc
      have hcard := Finset.card_erase_add_one hk
      rw [hself]
      omega
    · rw [if_neg fun he => hj (Option.some.inj he).symm] at hc
      rw [hother j hj]
      omega
  · exact hi.loaded_stay hloc rfl
  · obtain ⟨j, hr⟩ := hi.runs u k' hk'
    exact ⟨j, (hruns k' j).mpr hr⟩
  · refine Finset.subset_empty.mp fun x hx => ?_
    have hr := (hruns x s.old).mp (.inl hx)
    exact absurd hr hd.not_runs
  · refine .inr (.inr fun hempty => ?_)
    rw [← Option.some.inj h] at hempty
    rw [hempty] at hk
    cases hk

/-- **Its count is gone.** -/
theorem unlockStore (hl : s.loc t = .unlockStore k i d v) : Inv ({ s.setCount d i (v - 1) with
    pre := fun u j => if j = k then false else s.pre u j }.goto t .unlockLeave) := by
  have hst : storing (s.loc t) = some (d, i) := by rw [hl]; rfl
  have hv : v = s.c d i := by
    have h := hi.loaded t d i hst
    rwa [hl] at h
  set s' := { s.setCount d i (v - 1) with
    pre := fun u j => if j = k then false else s.pre u j }.goto t .unlockLeave with hs'
  have hloc : s'.loc = Function.update s.loc t .unlockLeave := rfl
  have hpre : ∀ {u j}, s'.pre u j = true → j ≠ k ∧ s.pre u j = true := fun {u j} h => by
    change (if j = k then false else s.pre u j) = true at h
    split at h
    · cases h
    · next hj => exact ⟨hj, h⟩
  have hleaving : ∀ u x, leaving (s'.loc u) = some x ↔ leaving (s.loc u) = some x ∧ u ≠ t := fun u x => by
    by_cases hu : u = t
    · rw [hu, update_self hloc]
      exact iff_of_false nofun fun h => h.2 rfl
    · rw [update_ne hloc hu, and_iff_left hu]
  have hruns : ∀ k' j, s'.Runs k' j → s.Runs k' j := fun k' j h => h.imp id fun ⟨u, h⟩ => ⟨u, ((hleaving u _).mp h).1⟩
  refine hi.update hloc rfl hi.rcu ?_ (fun _ _ _ h _ => h) (hi.mutex.stay rfl (by rw [hl]; rfl)) (fun _ cpu => ?_)
    (fun j => ?_) (hi.loaded_store hst hloc rfl rfl) (hi.alone_none hloc rfl)
    (fun k' j h => hi.made k' j (hruns k' j h))
    (fun u k' hk => ?_) (fun u k' _ h => (hpre h).2) (fun u k' j _ => hruns k' j) (.inl (by rw [hl]; rfl)) Drained.held
    nofun nofun (.inl rfl) trivial
  · exact hi.depth_stay hloc (by rw [hl]; rfl)
  · change (s.setCount d i (v - 1)).c cpu s.old ≤ _
    by_cases he : (cpu, s.old) = (d, i)
    · obtain ⟨rfl, rfl⟩ := Prod.mk.inj he
      rw [setCount_self, hv]
      omega
    · exact (setCount_ne he).le
  · have hc := sum_counts (a := some i) (b := none) hloc (by rw [hl]; rfl) rfl j
    have hs := sum_setCount (s := s) (d := d) (i := i) (v := v - 1) j
    have hsum := hi.sum j
    rw [if_neg (c := none = some j) nofun] at hc
    change (∑ cpu, (s.setCount d i (v - 1)).c cpu j) = ((s.held j).card : ℤ) + _
    rw [hs]
    by_cases hj : j = i
    · rw [if_pos (by rw [hj])] at hc
      rw [if_pos hj]
      omega
    · rw [if_neg fun he => hj (Option.some.inj he).symm] at hc
      rw [if_neg hj]
      omega
  · obtain ⟨hne, hk⟩ := hpre hk
    obtain ⟨j, hr⟩ := hi.runs u k' hk
    refine ⟨j, hr.imp id fun ⟨w, hw⟩ => ⟨w, (hleaving w _).mpr ⟨hw, fun he => hne ?_⟩⟩⟩
    rw [he, hl] at hw
    exact (Prod.mk.inj (Option.some.inj hw)).1.symm

/-! ### `synchronize_srcu` -/

/-- A call of `synchronize_srcu` begins. -/
theorem syncCall (hl : s.loc t = .idle) :
    Inv ({ s with pre := Function.update s.pre t fun k => decide (∃ i, s.Runs k i) }.goto t .syncIdx) := by
  set s' := { s with pre := Function.update s.pre t fun k => decide (∃ i, s.Runs k i) }.goto t .syncIdx with hs'
  have hloc : s'.loc = Function.update s.loc t .syncIdx := rfl
  have hruns : ∀ k j, s'.Runs k j ↔ s.Runs k j := runs_stay hloc rfl (by rw [hl]; rfl)
  have hself : s'.pre t = fun k => decide (∃ i, s.Runs k i) := Function.update_self ..
  have hother : ∀ u, u ≠ t → s'.pre u = s.pre u := fun u hu => Function.update_of_ne hu ..
  refine hi.update hloc rfl hi.rcu ?_ (fun _ _ _ h _ => h) (hi.mutex.stay rfl (by rw [hl]; rfl)) (fun _ _ => le_rfl)
    (fun j => ?_) ?_ (hi.alone_none hloc rfl) (fun k j h => hi.made k j ((hruns k j).mp h)) (fun u k hk => ?_)
    (fun u k hu hk => ?_) (fun u k j _ => (hruns k j).mp) (.inl (by rw [hl]; rfl)) Drained.held
    nofun nofun (.inl rfl) trivial
  · exact hi.depth_stay hloc (by rw [hl]; rfl)
  · exact hi.sum_stay hloc (by rw [hl]; rfl) j
  · exact hi.loaded_stay hloc rfl
  · have hs : ∃ j, s.Runs k j := by
      by_cases hu : u = t
      · rw [hu, hself] at hk
        exact of_decide_eq_true hk
      · rw [hother u hu] at hk
        exact hi.runs u k hk
    exact hs.imp fun j => (hruns k j).mpr
  · rcases hu with hu | hu
    · rwa [hother u hu] at hk
    · exact absurd rfl hu

/-- **The snapshot**: a flip that is over has left no section with the old index. -/
theorem syncIdx (hl : s.loc t = .syncIdx) : Inv (s.goto t (.syncLock s.completed)) := by
  -- but for the snapshot, nothing changes
  have hg : Inv (s.goto t .idle) := hi.goto hl rfl rfl rfl rfl rfl (.inl rfl) nofun (.inl rfl) trivial
  have hsame : ∀ {α : Type} (f : Loc m → α), f (.syncLock s.completed) = f .idle →
      ∀ u, f ((s.goto t (.syncLock s.completed)).loc u) = f ((s.goto t .idle).loc u) := fun f hf u => by
    by_cases hu : u = t
    · rw [hu, goto_loc, goto_loc, hf]
    · rw [goto_ne hu, goto_ne hu]
  have hruns : ∀ k i, (s.goto t (.syncLock s.completed)).Runs k i ↔ (s.goto t .idle).Runs k i := fun k i =>
    or_congr Iff.rfl (exists_congr fun u => by rw [hsame leaving rfl u])
  refine
    { rcu := hg.rcu
      depth := fun u => by rw [hsame inRcu rfl u]; exact hg.depth u
      mutex := fun u => by rw [hsame holding rfl u]; exact hg.mutex u
      sum := fun i => ?_
      loaded := fun u cpu i h => ?_
      alone := fun u v x hu hv => ?_
      made := fun k i h => hg.made k i ((hruns k i).mp h)
      runs := fun u k hk => (hg.runs u k hk).imp fun i => (hruns k i).mpr
      drained := fun hno => ?_
      flips := fun u o hsn k i hk hr f hf hle hp => ?_
      loc := ?_ }
  · have h := hg.sum i
    simp only [hsame counts rfl]
    exact h
  · rw [hsame value rfl u]
    rw [hsame storing rfl u] at h
    exact hg.loaded u cpu i h
  · rw [hsame storing rfl] at hu hv
    exact hg.alone u v x hu hv
  · obtain ⟨h1, h2, h3⟩ := hg.drained fun u => by rw [← hsame scanning rfl u]; exact hno u
    exact ⟨h1, fun u => by rw [hsame Srcu.entering rfl u]; exact h2 u,
      fun u => by rw [hsame Srcu.counts rfl u]; exact h3 u⟩
  · by_cases hu : u = t
    · rw [hu, goto_loc] at hsn
      cases hsn
      have hfe : f = s.completed := Nat.le_antisymm hle hf
      refine ⟨hfe, ?_⟩
      by_contra hno
      have hd := hg.drained fun u => by
        rw [← hsame scanning rfl u]
        exact Bool.eq_false_iff.mpr fun h => hno ⟨u, h⟩
      rw [← hp, hfe] at hr
      exact hd.not_runs ((hruns _ _).mp hr)
    · have hsn' : snapshot ((s.goto t .idle).loc u) = some o := by
        rw [← hsn]
        rw [goto_ne hu, goto_ne hu]
      obtain ⟨h1, v, hv⟩ := hg.flips u o hsn' k i hk ((hruns k i).mp hr) f hf hle hp
      exact ⟨h1, v, by rw [hsame scanning rfl v]; exact hv⟩
  · refine forall_update (P := fun u x => LocInv (s.goto t (.syncLock s.completed)) u x) rfl (le_refl s.completed)
      fun u hu => ?_
    refine (hi.loc u).keep rfl (fun _ _ => le_rfl) (fun _ h _ => h) (fun _ => id) fun v hv => ?_
    by_cases hvt : v = t
    · rw [hvt, goto_loc] at hv
      cases hv
    · rwa [goto_ne hvt] at hv

/-- **The flip.** -/
theorem flip (hl : s.loc t = .flip o i) : Inv ({ s with completed := s.completed + 1 }.goto t (.rcu (.scan o i))) := by
  obtain ⟨ho, rfl⟩ : o ≤ s.completed ∧ i = parity s.completed := by
    have h := hi.loc t
    rwa [hl] at h
  have hhold : holding (s.loc t) = true := by rw [hl]; rfl
  set s' := { s with completed := s.completed + 1 }.goto t (.rcu (.scan o (parity s.completed))) with hs'
  have hloc : s'.loc = Function.update s.loc t (.rcu (.scan o (parity s.completed))) := rfl
  have hself : scanning (s'.loc t) = true := by
    rw [update_self hloc]
    rfl
  have hruns : ∀ k j, s'.Runs k j ↔ s.Runs k j := runs_stay hloc rfl (by rw [hl]; rfl)
  refine
    { rcu := hi.rcu
      depth := ?_
      mutex := hi.mutex.stay hloc (by rw [hl]; rfl)
      sum := fun j => ?_
      loaded := ?_
      alone := hi.alone_none hloc rfl
      made := fun k j h => hi.made k j ((hruns k j).mp h)
      runs := fun u k hk => (hi.runs u k hk).imp fun j => (hruns k j).mpr
      drained := fun hno => absurd hself (by rw [hno t]; nofun)
      flips := fun u o' hsn k j hk hr f hf hle hp => ?_
      loc := ?_ }
  · exact hi.depth_stay hloc (by rw [hl]; rfl)
  · exact hi.sum_stay hloc (by rw [hl]; rfl) j
  · exact hi.loaded_stay hloc rfl
  · rcases Nat.lt_or_ge s.completed f with hlt | hge
    · exact ⟨Nat.le_antisymm hle hlt, t, hself⟩
    · have hsn' : snapshot (s.loc u) = some o' := by
        by_cases hu : u = t
        · rw [hu, update_self hloc] at hsn
          rw [hu, hl]
          exact hsn
        · rwa [update_ne hloc hu] at hsn
      obtain ⟨-, v, hv⟩ := hi.flips u o' hsn' k j hk ((hruns k j).mp hr) f hf hge hp
      rw [hi.not_scanning hhold (by rw [hl]; rfl) v] at hv
      cases hv
  · refine forall_update (P := fun u x => LocInv s' u x) hloc ⟨Nat.lt_succ_of_le ho, ?_⟩ fun u hu => ?_
    · exact (parity_add_two s.completed).symm
    · -- the others do not hold the mutex
      have hno : holding (s.loc u) = false := Bool.eq_false_iff.mpr fun h => hu (hi.mutex.eq hhold h)
      have hlu := hi.loc u
      revert hno hlu
      cases s.loc u with
      | syncLock o' => exact fun _ h => Nat.le_succ_of_le h
      | syncReturn => exact fun _ h => h
      | syncCheck _ | rcu _ | wait _ | flipIdx _ | flip _ _ | scan _ _ _ _ | poll _ _ | syncUnlock _ =>
        exact fun h => nomatch h
      | _ => exact fun _ _ => trivial

/-- **The loop over the counts** comes to `cpu`, or ends. -/
theorem scanTo (hl : s.loc t = L₀) (hL₀ : (∃ g, L₀ = .wait g) ∨ (∃ a b c d, L₀ = .scan a b c d) ∨ ∃ a b, L₀ = .poll a b)
    (hscan : scanning L₀ = true) (hsn : snapshot L₀ = some o) (ho : o < s.completed) (hold : i = s.old)
    (hent : ∀ u, entering (s.loc u) ≠ some i) (hsum : ∑ d with d.1 < cpu, s.c d i ≤ sum) :
    Inv (s.goto t (scanFrom o i cpu sum)) := by
  subst hold
  have hfacts : inRcu L₀ = false ∧ holding L₀ = true ∧ leaving L₀ = none ∧ counts L₀ = none := by
    rcases hL₀ with ⟨g, rfl⟩ | ⟨a, b, c, d, rfl⟩ | ⟨a, b, rfl⟩ <;> exact ⟨rfl, rfl, rfl, rfl⟩
  obtain ⟨hin, hhold, hlv, hct⟩ := hfacts
  have hent' : ∀ {L : Loc m}, entering L = none → ∀ u, entering ((s.goto t L).loc u) ≠ some s.old := fun {L} hL u => by
    by_cases hu : u = t
    · rw [hu, goto_loc, hL]
      nofun
    · rw [goto_ne hu]
      exact hent u
  refine scan_rec (P := fun L => Inv (s.goto t L)) (fun v hv => ?_) fun hm => ?_
  · exact hi.goto hl hin.symm hhold.symm rfl hlv.symm hct.symm (.inl hscan.symm) nofun (.inr hsn.symm)
      ⟨ho, rfl, hent' rfl, by rw [hv]; exact hsum⟩
  · split
    · next hzero =>
      -- all counts have been read, and they have only decreased since
      have hd : Drained s s.old := by
        refine hi.drained_of_sum hent ?_
        have hall : (Finset.univ.filter fun d : Fin m => d.1 < cpu) = Finset.univ :=
          Finset.filter_true_of_mem fun d _ => d.isLt.trans_le hm
        rw [hall, hzero] at hsum
        exact hsum
      exact hi.goto hl hin.symm hhold.symm rfl hlv.symm hct.symm (.inr hd) nofun (.inr hsn.symm) ho
    · exact hi.goto hl hin.symm hhold.symm rfl hlv.symm hct.symm (.inl hscan.symm) nofun (.inr hsn.symm)
        ⟨ho, rfl, hent' rfl⟩

/-- A `synchronize_rcu` begins: the operations that still have the old index are waited for. -/
theorem rcuBegin (hl : s.loc t = .rcu g) : Inv ({ s with rcu := s.rcu.observe t }.goto t (.wait g)) := by
  have hloc := hi.loc t
  rw [hl] at hloc
  have hin : inRcu (s.loc t) = false := by rw [hl]; rfl
  have hwait : LocInv ({ s with rcu := s.rcu.observe t }.goto t (.wait g)) t (.wait g) := by
    cases g with
    | flip o | unlock o => exact hloc
    | scan o i =>
      refine ⟨hloc.1, hloc.2, fun u hu => ?_⟩
      refine Sections.observe_pre.mpr ?_
      have hut : u ≠ t := fun he => by
        rw [he, goto_loc] at hu
        cases hu
      rw [goto_ne hut] at hu
      change entering (s.loc u) = some i at hu
      rw [hi.depth u]
      revert hu
      cases s.loc u with
      | lockLoad _ | lockStore _ _ _ | lockLeave _ => exact fun _ => Nat.one_pos
      | _ => exact fun h => nomatch h
  refine hi.move rfl rfl rfl rfl rfl rfl (hi.rcu.observe t) (fun _ _ => rfl) ?_
    (fun u v hu h _ => (congrFun (Sections.observe_pre_ne hu) v).trans h) (hi.mutex.stay rfl (by rw [hl]; rfl)) nofun
    (by rw [hl]; rfl) (by rw [hl]; rfl) (.inl (by rw [hl]; cases g <;> rfl))
    nofun (.inr (by rw [hl]; cases g <;> rfl)) hwait
  change s.rcu.depth t = _
  rw [hi.depth t, hin]
  rfl

/-- It returns. -/
theorem rcuEnd (hl : s.loc t = .wait g) (hw : ∀ u, s.rcu.pre t u = false) : Inv (s.goto t g.loc) := by
  have hloc := hi.loc t
  rw [hl] at hloc
  cases g with
  | flip o => exact hi.goto hl rfl rfl rfl rfl rfl (.inl rfl) nofun (.inr rfl) hloc
  | unlock o => exact hi.goto hl rfl rfl rfl rfl rfl (.inl rfl) nofun (.inr rfl) hloc
  | scan o i =>
    obtain ⟨ho, hold, hpre⟩ := hloc
    refine hi.scanTo hl (.inl ⟨_, rfl⟩) rfl rfl ho hold (fun u hu => ?_) ?_
    · have h := hpre u hu
      rw [hw u] at h
      cases h
    · exact (Finset.sum_eq_zero fun d hd => absurd (Finset.mem_filter.mp hd).2 (Nat.not_lt_zero _)).le

/-- **A step of an operation.** -/
theorem stepRead (hok : Alone (.step t) s) (hn : stepThread t s = some s') (hh : holding (s.loc t) = false)
    (hsnap : snapshot (s.loc t) = none) : Inv s' := by
  unfold stepThread at hn
  cases hl : s.loc t with
  | lockEnter =>
    rw [hl] at hn
    cases hn
    exact hi.enter hl rfl rfl rfl rfl rfl rfl rfl rfl rfl trivial
  | lockIdx =>
    rw [hl] at hn
    cases hn
    exact hi.goto hl rfl rfl rfl rfl rfl (.inl rfl) (fun h => absurd (Option.some.inj h).symm (old_ne s)) (.inl rfl)
      trivial
  | lockLoad i | unlockLoad k i =>
    rw [hl] at hn
    cases hn
    exact hi.load hl rfl hok rfl rfl rfl rfl rfl rfl rfl rfl rfl trivial
  | lockStore i d v =>
    rw [hl] at hn
    cases hn
    exact hi.lockStore hl
  | lockLeave i =>
    rw [hl] at hn
    cases hn
    exact hi.lockLeave hl
  | unlockEnter k i =>
    rw [hl] at hn
    cases hn
    exact hi.enter hl rfl rfl rfl rfl rfl rfl rfl rfl rfl trivial
  | unlockStore k i d v =>
    rw [hl] at hn
    cases hn
    exact hi.unlockStore hl
  | unlockLeave =>
    rw [hl] at hn
    cases hn
    exact hi.unlockLeave hl
  | syncIdx =>
    rw [hl] at hn
    cases hn
    exact hi.syncIdx hl
  | syncReturn =>
    rw [hl] at hn
    cases hn
    exact hi.goto hl rfl rfl rfl rfl rfl (.inl rfl) nofun (.inl rfl) trivial
  | idle =>
    rw [hl] at hn
    cases hn
  | syncLock idx =>
    rw [hl] at hsnap
    cases hsnap
  | _ =>
    rw [hl] at hh
    cases hh

/-- **A step of `synchronize_srcu`** from its snapshot to the end. -/
theorem stepSync (hn : stepThread t s = some s') (hh : holding (s.loc t) = true ∨ ∃ o, s.loc t = .syncLock o) :
    Inv s' := by
  have hloc := hi.loc t
  unfold stepThread at hn
  cases hl : s.loc t with
  | syncLock o =>
    rw [hl] at hn hloc
    dsimp only at hn
    split at hn
    · next hnone =>
      cases hn
      have hmutex := hi.mutex
      rw [hnone] at hmutex
      refine hi.move rfl rfl rfl rfl rfl rfl hi.rcu (fun _ _ => rfl) ?_ (fun _ _ _ h _ => h) (hmutex.take rfl rfl) nofun
        (by rw [hl]; rfl) (by rw [hl]; rfl) (.inl (by rw [hl]; rfl)) nofun (.inr (by rw [hl]; rfl)) hloc
      change s.rcu.depth t = _
      rw [hi.depth t, hl]
      rfl
    · cases hn
  | syncCheck o =>
    rw [hl] at hn hloc
    cases hn
    split
    · next hge =>
      have ho : o < s.completed := by omega
      exact hi.goto hl rfl rfl rfl rfl rfl (.inl rfl) nofun (.inr rfl) ho
    · exact hi.goto hl rfl rfl rfl rfl rfl (.inl rfl) nofun (.inr rfl) hloc
  | rcu g =>
    rw [hl] at hn
    cases hn
    exact hi.rcuBegin hl
  | wait g =>
    rw [hl] at hn
    dsimp only at hn
    split at hn
    · next hw =>
      cases hn
      exact hi.rcuEnd hl hw
    · cases hn
  | flipIdx o =>
    rw [hl] at hn hloc
    cases hn
    exact hi.goto hl rfl rfl rfl rfl rfl (.inl rfl) nofun (.inr rfl) ⟨hloc, rfl⟩
  | flip o i =>
    rw [hl] at hn
    cases hn
    exact hi.flip hl
  | scan o i d sum =>
    rw [hl] at hn hloc
    cases hn
    obtain ⟨ho, hold, hent, hsum⟩ := hloc
    refine hi.scanTo hl (.inr (.inl ⟨_, _, _, _, rfl⟩)) rfl rfl ho hold hent ?_
    rw [sum_below_succ]
    omega
  | poll o i =>
    rw [hl] at hn hloc
    cases hn
    obtain ⟨ho, hold, hent⟩ := hloc
    refine hi.scanTo hl (.inr (.inr ⟨_, _, rfl⟩)) rfl rfl ho hold hent ?_
    exact (Finset.sum_eq_zero fun d hd => absurd (Finset.mem_filter.mp hd).2 (Nat.not_lt_zero _)).le
  | syncUnlock o =>
    rw [hl] at hn hloc
    cases hn
    have hw := hi.waited (t := t) (o := o) (by rw [hl]; rfl) (by rw [hl]; rfl) (by rw [hl]; rfl) hloc
    refine hi.move rfl rfl rfl rfl rfl rfl hi.rcu (fun _ _ => rfl) ?_ (fun _ _ _ h _ => h)
      (hi.mutex.drop rfl (by rw [hl]; rfl) rfl) nofun (by rw [hl]; rfl) (by rw [hl]; rfl) (.inl (by rw [hl]; rfl)) nofun
      (.inl rfl) hw
    change s.rcu.depth t = _
    rw [hi.depth t, hl]
    rfl
  | _ =>
    rw [hl] at hh
    rcases hh with hh | ⟨o, hh⟩ <;> cases hh

/-- **Every step keeps the invariant**, if no two operations on a count overlap. -/
theorem next {a : Act n m} (hok : Alone a s) (hn : next a s = some s') : Inv s' := by
  cases a with
  | setSmpProcessorId t cpu =>
    rw [Srcu.next] at hn
    split at hn
    · next hl =>
      cases hn
      have hloc : s.loc = Function.update s.loc t .idle := by rw [← hl, Function.update_eq_self]
      refine hi.move (L := .idle) (t := t) hloc rfl rfl rfl rfl rfl hi.rcu
        (fun _ _ => rfl) ?_ (fun _ _ _ h _ => h) hi.mutex
        nofun (by rw [hl]) (by rw [hl]) (.inl (by rw [hl])) nofun (.inl rfl) trivial
      change s.rcu.depth t = _
      rw [hi.depth t, hl]
    · cases hn
  | srcuReadLock t =>
    rw [Srcu.next] at hn
    split at hn
    · next hl =>
      cases hn
      exact hi.goto hl rfl rfl rfl rfl rfl (.inl rfl) nofun (.inl rfl) trivial
    · cases hn
  | srcuReadUnlock t k i =>
    rw [Srcu.next] at hn
    split at hn
    · next hg =>
      cases hn
      exact hi.unlockCall hg.1 hg.2
    · cases hn
  | synchronizeSrcu t =>
    rw [Srcu.next] at hn
    split at hn
    · next hl =>
      cases hn
      exact hi.syncCall hl
    · cases hn
  | step t =>
    by_cases hh : holding (s.loc t) = true ∨ ∃ o, s.loc t = .syncLock o
    · exact hi.stepSync hn hh
    · have hnot : holding (s.loc t) = false := Bool.eq_false_iff.mpr fun h => hh (.inl h)
      refine hi.stepRead hok hn hnot ?_
      revert hnot hh
      cases s.loc t with
      | syncLock o => exact fun h => absurd (.inr ⟨o, rfl⟩) h
      | syncCheck _ | rcu _ | wait _ | flipIdx _ | flip _ _ | scan _ _ _ _ | poll _ _ | syncUnlock _ =>
        exact fun _ h => nomatch h
      | _ => exact fun _ _ => rfl

end Inv

theorem inv_init (h : Init s) : Inv s := by
  have hno : ∀ k i, ¬ s.Runs k i := fun k i => by
    rintro (hk | ⟨u, hu⟩)
    · rw [h.held i] at hk
      cases hk
    · rw [h.loc u] at hu
      cases hu
  refine
    { rcu := fun t u hp => ?_
      depth := fun t => ?_
      mutex := fun t => ?_
      sum := fun i => ?_
      loaded := fun t cpu i hs => ?_
      alone := fun t u x hs => ?_
      made := fun k i hr => absurd hr (hno k i)
      runs := fun t k hk => ?_
      drained := fun _ => ⟨h.held _, fun u => ?_, fun u => ?_⟩
      flips := fun t o hs => ?_
      loc := fun t => ?_ }
  · rw [h.rcuPre t u] at hp
    cases hp
  · rw [h.depth t, h.loc t]
    rfl
  · rw [h.mutex, h.loc t]
    exact iff_of_false nofun nofun
  · rw [Finset.sum_eq_zero fun cpu _ => h.c cpu i, h.held i,
      Finset.sum_eq_zero fun t _ => if_neg (by rw [h.loc t]; nofun)]
    rfl
  · rw [h.loc t] at hs
    cases hs
  · rw [h.loc t] at hs
    cases hs
  · rw [h.pre t k] at hk
    cases hk
  · rw [h.loc u]
    nofun
  · rw [h.loc u]
    nofun
  · rw [h.loc t] at hs
    cases hs
  · rw [h.loc t]
    trivial

/-- **The guarantee holds** in the runs in which no two operations on a count overlap. -/
theorem srcu_grace_period (h : (sys n m).Reach Alone s) : Guarantee s :=
  (h.inv (I := Inv) (fun _ => inv_init) fun _ _ _ hi hok hn => hi.next hok hn).guarantee

instance (s : St n m) : (l : Loc m) → Decidable (InRange s l)
  | .lockStore _ _ v => inferInstanceAs (Decidable (v < INT_MAX))
  | .unlockStore _ _ _ v => inferInstanceAs (Decidable (-INT_MAX ≤ v))
  | .flip _ _ => inferInstanceAs (Decidable ((s.completed : ℤ) < INT_MAX))
  | .scan _ i cpu sum =>
    inferInstanceAs (Decidable (-INT_MAX - 1 ≤ sum + s.c cpu i ∧ sum + s.c cpu i ≤ INT_MAX))
  | .idle | .lockEnter | .lockIdx | .lockLoad _ | .lockLeave _ | .unlockEnter _ _ | .unlockLoad _ _ | .unlockLeave
  | .syncIdx | .syncLock _ | .syncCheck _ | .rcu _ | .wait _ | .flipIdx _ | .poll _ _ | .syncUnlock _
  | .syncReturn => .isTrue trivial

instance (a : Act n m) (s : St n m) : Decidable (Alone a s) := by
  cases a <;> first | exact inferInstanceAs (Decidable ((∀ i, _) ∧ _)) | exact .isTrue trivial

def empty (n m : ℕ) (smpProcessorId : Fin n → Fin m) : St n m where
  completed := 0
  c _ _ := 0
  mutex := none
  smpProcessorId := smpProcessorId
  rcu := ⟨fun _ => 0, fun _ _ => false⟩
  loc _ := .idle
  held _ := ∅
  made := 0
  pre _ _ := false

theorem init_empty (smpProcessorId : Fin n → Fin m) : Init (empty n m smpProcessorId) :=
  ⟨rfl, fun _ _ => rfl, rfl, fun _ => rfl, fun _ _ => rfl, fun _ => rfl, fun _ => rfl, fun _ _ => rfl⟩

/-- Thread 0 enters a section on CPU 0 and leaves it on CPU 1, while thread 1 waits for it. -/
def leavesElsewhere : List (Act 2 2) :=
  .srcuReadLock 0 :: List.replicate 5 (.step 0) ++ .synchronizeSrcu 1 :: List.replicate 6 (.step 1) ++
    .setSmpProcessorId 0 1 :: .srcuReadUnlock 0 0 0 :: List.replicate 4 (.step 0) ++ List.replicate 8 (.step 1)

theorem srcu_grace_period_run : ∃ s, (sys 2 2).Reach Alone s ∧ s.loc 1 = .syncReturn ∧ s.c 0 0 = 1 ∧ s.c 1 0 = -1 ∧
    Guarantee s := by
  have hrun : ((sys 2 2).run Alone leavesElsewhere (empty 2 2 fun _ => 0)).map (fun s => (s.loc 1, s.c 0 0, s.c 1 0)) =
      some (.syncReturn, 1, -1) := by decide +kernel
  obtain ⟨s, hs, hd⟩ := Option.map_eq_some_iff.mp hrun
  obtain ⟨h1, hd⟩ := Prod.mk.inj hd
  obtain ⟨h2, h3⟩ := Prod.mk.inj hd
  have hreach := Sys.run_reach (.init (init_empty _)) hs
  exact ⟨s, hreach, h1, h2, h3, srcu_grace_period hreach⟩

/-- Threads 0 and 1 enter sections on the same CPU, and both store 1. Thread 0 leaves its section and waits. -/
def bothStoreOne : List (Act 2 1) :=
  [.srcuReadLock 0, .srcuReadLock 1, .step 0, .step 0, .step 0, .step 1, .step 1, .step 1, .step 0, .step 1, .step 0,
    .step 1, .srcuReadUnlock 0 0 0, .step 0, .step 0, .step 0, .step 0, .synchronizeSrcu 0] ++
  List.replicate 13 (.step 0)

/-- **A count is lost**, and the call returns while thread 1 is in its section. -/
theorem loses_a_count : ¬ ∀ s, (sys 2 1).Reach Sys.always s → Guarantee s := by
  intro hall
  have hrun : ((sys 2 1).run Sys.always bothStoreOne (empty 2 1 fun _ => 0)).map (fun s => (s.loc 0, s.pre 0 1)) =
      some (.syncReturn, true) := by decide +kernel
  obtain ⟨s, hs, hd⟩ := Option.map_eq_some_iff.mp hrun
  obtain ⟨h0, h1⟩ := Prod.mk.inj hd
  have hreach := Sys.run_reach (S := sys 2 1) (.init (init_empty _)) hs
  have hw := (hall s hreach).waited 0 h0 1
  rw [h1] at hw
  cases hw

end Srcu
end Rcu
end Perfbook
