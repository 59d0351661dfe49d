/-
# The grace period of `srcu.c`

If no two operations on a count overlap, a count is not lost, and the counts of an index add
up to what uses it (`Inv.sum`). While `completed` stands still no new section has the other
index, and when nothing uses that index it stays so (`Drained`). After the flip the
operations that still have the old index are in RCU sections, and so over when the loop over
the counts begins: from then on they only decrease, and what has been added up is no less
than what there is (`LocInv`).

A call that read `idx` may rely on every flip to `idx` and above (`Flips`), whoever does it.

Key definitions: `Drained`, `LocInv`, `Flips`, `Inv`.
Key theorems: `Inv.waited`, `Inv.drained_of_sum`, `Inv.move`.
-/
import Mathlib.Algebra.BigOperators.Intervals
import Mathlib.Algebra.Order.BigOperators.Group.Finset
import Mathlib.Tactic.Ring
import Perfbook.Rcu.Srcu

namespace Perfbook
namespace Rcu
namespace Srcu

open Conc

variable {n m : ℕ}

/-- The thread holds `sp->mutex`. -/
def holding : Loc m → Bool
  | .syncCheck _ | .rcu _ | .wait _ | .flipIdx _ | .flip _ _ | .scan _ _ _ _ | .poll _ _ | .syncUnlock _ => true
  | _ => false

/-- The thread is in an RCU section. -/
def inRcu : Loc m → Bool
  | .lockIdx | .lockLoad _ | .lockStore _ _ _ | .lockLeave _ | .unlockLoad _ _ | .unlockStore _ _ _ _
  | .unlockLeave => true
  | _ => false

/-- The thread has flipped, and not seen a sum of 0 since. -/
def scanning : Loc m → Bool
  | .rcu (.scan _ _) | .wait (.scan _ _) | .scan _ _ _ _ | .poll _ _ => true
  | _ => false

/-- The index of the section that the thread is entering. -/
def entering : Loc m → Option (Fin 2)
  | .lockLoad i | .lockStore i _ _ | .lockLeave i => some i
  | _ => none

/-- What `completed` was when the call read it. -/
def snapshot : Loc m → Option ℕ
  | .syncLock idx | .syncCheck idx | .rcu (.flip idx) | .wait (.flip idx) | .flipIdx idx | .flip idx _
  | .rcu (.scan idx _)
  | .wait (.scan idx _) | .scan idx _ _ _ | .poll idx _ | .rcu (.unlock idx) | .wait (.unlock idx)
  | .syncUnlock idx => some idx
  | _ => none

/-- What the thread has loaded. -/
def value : Loc m → ℤ
  | .lockStore _ _ v | .unlockStore _ _ _ v => v
  | _ => 0

/-- The index that no new section gets. -/
def St.old (s : St n m) : Fin 2 := parity (s.completed + 1)

/-- Nothing uses the index. -/
structure Drained (s : St n m) (i : Fin 2) : Prop where
  held : s.held i = ∅
  entering : ∀ u, entering (s.loc u) ≠ some i
  counts : ∀ u, counts (s.loc u) ≠ some i

/-- What holds at each place of the code. -/
def LocInv (s : St n m) (t : Fin n) : Loc m → Prop
  | .syncLock o | .syncCheck o | .rcu (.flip o) | .wait (.flip o) | .flipIdx o => o ≤ s.completed
  | .flip o i => o ≤ s.completed ∧ i = parity s.completed
  | .rcu (.scan o i) => o < s.completed ∧ i = s.old
  | .wait (.scan o i) => o < s.completed ∧ i = s.old ∧ ∀ u, entering (s.loc u) = some i → s.rcu.pre t u = true
  | .scan o i cpu sum => o < s.completed ∧ i = s.old ∧ (∀ u, entering (s.loc u) ≠ some i) ∧
      ∑ d with d.1 < cpu.1, s.c d i ≤ sum
  | .poll o i => o < s.completed ∧ i = s.old ∧ ∀ u, entering (s.loc u) ≠ some i
  | .rcu (.unlock o) | .wait (.unlock o) | .syncUnlock o => o < s.completed
  | .syncReturn => ∀ k, s.pre t k = false
  | _ => True

/-- A section that a call waits for has outlived no flip after its snapshot, but for the last one, whose wait runs. -/
def Flips (s : St n m) : Prop :=
  ∀ t o, snapshot (s.loc t) = some o → ∀ k i, s.pre t k = true → s.Runs k i →
    ∀ f, o ≤ f → f ≤ s.completed → parity (f + 1) = i → f = s.completed ∧ ∃ u, scanning (s.loc u) = true

structure Inv (s : St n m) : Prop where
  rcu : s.rcu.Ok
  depth : ∀ t, s.rcu.depth t = if inRcu (s.loc t) then 1 else 0
  mutex : LockedBy holding s.mutex s.loc
  sum : ∀ i, ∑ cpu, s.c cpu i = (s.held i).card + ∑ t, if counts (s.loc t) = some i then 1 else 0
  loaded : ∀ t cpu i, storing (s.loc t) = some (cpu, i) → value (s.loc t) = s.c cpu i
  alone : ∀ t u x, storing (s.loc t) = some x → storing (s.loc u) = some x → u = t
  made : ∀ k i, s.Runs k i → k < s.made
  runs : ∀ t k, s.pre t k = true → ∃ i, s.Runs k i
  drained : (∀ t, scanning (s.loc t) = false) → Drained s s.old
  flips : Flips s
  loc : ∀ t, LocInv s t (s.loc t)

variable {s s' : St n m} {t u : Fin n} {L : Loc m} {i : Fin 2} {k o : ℕ} {g : Stage}

theorem parity_succ_ne (k : ℕ) : parity (k + 1) ≠ parity k := fun h => by
  have := congrArg Fin.val h
  simp only [parity] at this
  omega

theorem parity_add_two (k : ℕ) : parity (k + 2) = parity k :=
  Fin.ext (show (k + 2) % 2 = k % 2 by omega)

theorem old_ne (s : St n m) : s.old ≠ parity s.completed := parity_succ_ne _

theorem parity_or (k : ℕ) (i : Fin 2) : parity k = i ∨ parity (k + 1) = i := by
  have hi := i.isLt
  by_cases h : k % 2 = i.val
  · exact .inl (Fin.ext h)
  · exact .inr (Fin.ext (show (k + 1) % 2 = i.val by omega))

theorem holding_of_scanning (h : scanning L = true) : holding L = true := by
  cases L <;> first | rfl | cases h

theorem counts_of_leaving (h : leaving L = some (k, i)) : counts L = some i := by
  cases L <;> first | cases h; rfl | cases h

/-- What uses no index has no section. -/
theorem Drained.not_runs (h : Drained s i) : ¬ s.Runs k i := by
  rintro (hk | ⟨u, hu⟩)
  · rw [h.held] at hk
    cases hk
  · exact h.counts u (counts_of_leaving hu)

namespace Inv

variable (hi : Inv s)
include hi

/-- While one thread has the mutex, it is the one that scans. -/
theorem not_scanning (ht : holding (s.loc t) = true) (hs : scanning (s.loc t) = false) (u : Fin n) :
    scanning (s.loc u) = false := Bool.eq_false_iff.mpr fun hu => by
  rw [hi.mutex.eq ht (holding_of_scanning hu), hs] at hu
  cases hu

/-- **One flip is enough** for who has the mutex. -/
theorem waited (hl : snapshot (s.loc t) = some o) (ht : holding (s.loc t) = true) (hs : scanning (s.loc t) = false)
    (ho : o < s.completed) (k : ℕ) : s.pre t k = false := by
  refine Bool.eq_false_iff.mpr fun hk => ?_
  obtain ⟨i, hr⟩ := hi.runs t k hk
  -- one of the last two flips has the index of the section
  obtain ⟨f, hf, hle, hp⟩ : ∃ f, o ≤ f ∧ f ≤ s.completed ∧ parity (f + 1) = i := by
    rcases parity_or s.completed i with h | h
    · refine ⟨s.completed - 1, by omega, by omega, ?_⟩
      rwa [show s.completed - 1 + 1 = s.completed by omega]
    · exact ⟨s.completed, by omega, le_rfl, h⟩
  obtain ⟨-, u, hu⟩ := hi.flips t o hl k i hk hr f hf hle hp
  rw [hi.not_scanning ht hs u] at hu
  cases hu

/-- **A sum of 0** means that nothing uses the index, if nothing enters with it. -/
theorem drained_of_sum (hent : ∀ u, entering (s.loc u) ≠ some i) (hsum : ∑ cpu, s.c cpu i ≤ 0) : Drained s i := by
  have hs := hi.sum i
  have hpos : ∀ u : Fin n, (0 : ℤ) ≤ if counts (s.loc u) = some i then 1 else 0 := fun u => by
    split
    · exact zero_le_one
    · exact le_rfl
  have hnn := Finset.sum_nonneg fun u (_ : u ∈ Finset.univ) => hpos u
  refine ⟨Finset.card_eq_zero.mp (by omega), hent, fun u hu => ?_⟩
  have hle := Finset.single_le_sum (fun v _ => hpos v) (Finset.mem_univ u)
  rw [if_pos hu] at hle
  omega

/-- The guarantee. -/
theorem guarantee : Guarantee s where
  waited t ht := by
    have h := hi.loc t
    rwa [ht] at h
  sum := hi.sum

end Inv

/-! ### Steps that do not flip -/

/-- What a place relies on, when another thread moves. -/
theorem LocInv.keep (h : LocInv s u L) (hcompleted : s'.completed = s.completed)
    (hc : (∀ v, entering (s.loc v) ≠ some s.old) → ∀ cpu, s'.c cpu s.old ≤ s.c cpu s.old)
    (hrcu : ∀ v, s.rcu.pre u v = true → entering (s'.loc v) = some s.old → s'.rcu.pre u v = true)
    (hpre : ∀ k, s'.pre u k = true → s.pre u k = true)
    (hent : ∀ v, entering (s'.loc v) = some s.old → entering (s.loc v) = some s.old) : LocInv s' u L := by
  have hold : s'.old = s.old := congrArg (fun k => parity (k + 1)) hcompleted
  have hnone : ∀ i, i = s.old → (∀ v, entering (s.loc v) ≠ some i) → ∀ v, entering (s'.loc v) ≠ some i := by
    rintro _ rfl hn v hv
    exact hn v (hent v hv)
  cases L with
  | rcu g =>
    cases g <;> simpa only [LocInv, hcompleted, hold] using h
  | wait g =>
    cases g with
    | scan o i =>
      obtain ⟨ho, rfl, hw⟩ := h
      exact ⟨hcompleted ▸ ho, hold.symm, fun v hv => hrcu v (hw v (hent v hv)) hv⟩
    | flip o | unlock o => simpa only [LocInv, hcompleted] using h
  | scan o i cpu sum =>
    obtain ⟨ho, rfl, hn, hs⟩ := h
    exact ⟨hcompleted ▸ ho, hold.symm, hnone _ rfl hn, (Finset.sum_le_sum fun d _ => hc hn d).trans hs⟩
  | poll o i =>
    obtain ⟨ho, hio, hn⟩ := h
    exact ⟨hcompleted ▸ ho, hio.trans hold.symm, hnone i hio hn⟩
  | syncReturn => exact fun k => Bool.eq_false_iff.mpr fun hk => Bool.eq_false_iff.mp (h k) (hpre k hk)
  | syncLock o | syncCheck o | flipIdx o | flip o i | syncUnlock o => simpa only [LocInv, hcompleted] using h
  | _ => trivial

/-- **A thread takes a step** that does not flip. -/
theorem Inv.update (hi : Inv s) (hloc : s'.loc = Function.update s.loc t L) (hcompleted : s'.completed = s.completed)
    (hrcu : s'.rcu.Ok) (hdepth : ∀ u, s'.rcu.depth u = if inRcu (s'.loc u) then 1 else 0)
    (hrpre : ∀ u v, u ≠ t → s.rcu.pre u v = true → entering (s'.loc v) = some s.old → s'.rcu.pre u v = true)
    (hmutex : LockedBy holding s'.mutex s'.loc)
    (hc : (∀ v, entering (s.loc v) ≠ some s.old) → ∀ cpu, s'.c cpu s.old ≤ s.c cpu s.old)
    (hsum : ∀ i, ∑ cpu, s'.c cpu i = (s'.held i).card + ∑ t, if counts (s'.loc t) = some i then 1 else 0)
    (hloaded : ∀ t cpu i, storing (s'.loc t) = some (cpu, i) → value (s'.loc t) = s'.c cpu i)
    (halone : ∀ t u x, storing (s'.loc t) = some x → storing (s'.loc u) = some x → u = t)
    (hmade : ∀ k i, s'.Runs k i → k < s'.made) (hruns : ∀ u k, s'.pre u k = true → ∃ i, s'.Runs k i)
    (hpre : ∀ u k, u ≠ t ∨ snapshot L ≠ none → s'.pre u k = true → s.pre u k = true)
    (hruns' : ∀ u k i, s.pre u k = true → s'.Runs k i → s.Runs k i)
    (hscan : scanning L = scanning (s.loc t) ∨ Drained s s.old) (hheld : Drained s s.old → s'.held s.old = ∅)
    (hent : entering L = some s.old → entering (s.loc t) = some s.old)
    (hcounts : counts L = some s.old →
      entering (s.loc t) = some s.old ∨ counts (s.loc t) = some s.old ∨ s.held s.old ≠ ∅)
    (hsnap : snapshot L = none ∨ snapshot L = snapshot (s.loc t)) (hL : LocInv s' t L) : Inv s' where
  rcu := hrcu
  depth := hdepth
  mutex := hmutex
  sum := hsum
  loaded := hloaded
  alone := halone
  made := hmade
  runs := hruns
  drained hno := by
    have hold : s'.old = s.old := congrArg (fun k => parity (k + 1)) hcompleted
    have hdrained : Drained s s.old := by
      rcases hscan with hscan | hd
      · refine hi.drained fun u => ?_
        by_cases hu : u = t
        · rw [hu, ← hscan, ← update_self hloc]
          exact hno t
        · rw [← update_ne hloc hu]
          exact hno u
      · exact hd
    have hempty := hheld hdrained
    obtain ⟨h1, h2, h3⟩ := hdrained
    rw [hold]
    refine ⟨hempty, ?_, ?_⟩
    · exact forall_update (P := fun u x => entering x ≠ some s.old) hloc (fun h => h2 t (hent h)) fun u _ => h2 u
    · refine forall_update (P := fun u x => counts x ≠ some s.old) hloc (fun h => ?_) fun u _ => h3 u
      rcases hcounts h with h | h | h
      · exact h2 t h
      · exact h3 t h
      · exact h h1
  flips u o hsn k i hk hr f hf hle hp := by
    rw [hcompleted] at hle ⊢
    have hsn' : snapshot (s.loc u) = some o ∧ (u ≠ t ∨ snapshot L ≠ none) := by
      by_cases hu : u = t
      · rw [hu, update_self hloc] at hsn
        rw [hu]
        rcases hsnap with h | h
        · rw [h] at hsn
          cases hsn
        · exact ⟨h.symm.trans hsn, .inr (by rw [hsn]; nofun)⟩
      · rw [update_ne hloc hu] at hsn
        exact ⟨hsn, .inl hu⟩
    have hk' := hpre u k hsn'.2 hk
    obtain ⟨rfl, v, hv⟩ := hi.flips u o hsn'.1 k i hk' (hruns' u k i hk' hr) f hf hle hp
    refine ⟨rfl, v, ?_⟩
    rcases hscan with hscan | hd
    · by_cases hvt : v = t
      · rw [hvt] at hv
        rw [hvt, update_self hloc, hscan]
        exact hv
      · rwa [update_ne hloc hvt]
    · exact absurd (hruns' u k i hk' hr) (by rw [← hp]; exact hd.not_runs)
  loc := by
    refine forall_update (P := fun u x => LocInv s' u x) hloc hL fun u hu => ?_
    refine (hi.loc u).keep hcompleted hc (fun v => hrpre u v hu) (fun k => hpre u k (.inl hu)) ?_
    exact forall_update (P := fun v x => entering x = some s.old → entering (s.loc v) = some s.old) hloc hent
      fun _ _ => id

/-- **A thread goes on**, and changes no count. -/
theorem Inv.move (hi : Inv s) (hloc : s'.loc = Function.update s.loc t L) (hcompleted : s'.completed = s.completed)
    (hc : s'.c = s.c) (hheld : s'.held = s.held) (hmade : s'.made = s.made) (hpre : s'.pre = s.pre) (hrcu : s'.rcu.Ok)
    (hdepth : ∀ u, u ≠ t → s'.rcu.depth u = s.rcu.depth u) (hdepth' : s'.rcu.depth t = if inRcu L then 1 else 0)
    (hrpre : ∀ u v, u ≠ t → s.rcu.pre u v = true → entering (s'.loc v) = some s.old → s'.rcu.pre u v = true)
    (hmutex : LockedBy holding s'.mutex s'.loc)
    (hstoring : ∀ cpu i, storing L = some (cpu, i) →
      value L = s.c cpu i ∧ ∀ u, u ≠ t → storing (s.loc u) ≠ some (cpu, i))
    (hleaving : leaving L = leaving (s.loc t)) (hcounts : counts L = counts (s.loc t))
    (hscan : scanning L = scanning (s.loc t) ∨ Drained s s.old)
    (hent : entering L = some s.old → entering (s.loc t) = some s.old)
    (hsnap : snapshot L = none ∨ snapshot L = snapshot (s.loc t)) (hL : LocInv s' t L) : Inv s' := by
  have hruns : ∀ k i, s'.Runs k i ↔ s.Runs k i := fun k i => by
    refine or_congr (by rw [hheld]) (exists_congr fun u => ?_)
    have : leaving (s'.loc u) = leaving (s.loc u) :=
      proj_update hloc leaving hleaving u
    rw [this]
  have hcount : ∀ u, counts (s'.loc u) = counts (s.loc u) := proj_update hloc counts hcounts
  refine hi.update hloc hcompleted hrcu ?_ hrpre hmutex (fun _ _ => by rw [hc]) (fun i => ?_) ?_ ?_ (fun k i hr => ?_)
    (fun u k hk => ?_) (fun u k _ hk => by rwa [hpre] at hk) (fun u k i _ => (hruns k i).mp) hscan
    (fun h => by rw [hheld]; exact h.held) hent (fun h => .inr (.inl (hcounts.symm.trans h))) hsnap hL
  · exact forall_update (P := fun u x => s'.rcu.depth u = if inRcu x then 1 else 0) hloc hdepth' fun u hu =>
      (hdepth u hu).trans (hi.depth u)
  · rw [hc, hheld, hi.sum i]
    simp only [hcount]
  · refine forall_update (P := fun u x => ∀ cpu i, storing x = some (cpu, i) → value x = s'.c cpu i) hloc
      (fun cpu i h => ?_) fun u _ cpu i h => ?_
    · rw [hc]
      exact (hstoring cpu i h).1
    · rw [hc]
      exact hi.loaded u cpu i h
  · intro v u x hv hu
    by_cases hvt : v = t
    · by_cases hut : u = t
      · rw [hvt, hut]
      · rw [hvt, update_self hloc] at hv
        rw [update_ne hloc hut] at hu
        exact absurd hu ((hstoring x.1 x.2 hv).2 u hut)
    · rw [update_ne hloc hvt] at hv
      by_cases hut : u = t
      · rw [hut, update_self hloc] at hu
        exact absurd hv ((hstoring x.1 x.2 hu).2 v hvt)
      · rw [update_ne hloc hut] at hu
        exact hi.alone v u x hv hu
  · rw [hmade]
    exact hi.made k i ((hruns k i).mp hr)
  · rw [hpre] at hk
    obtain ⟨i, hr⟩ := hi.runs u k hk
    exact ⟨i, (hruns k i).mpr hr⟩

end Srcu
end Rcu
end Perfbook
