/-
# The calls, and the map that a skiplist is

`Call.spec` says what a call does to a map from keys to nodes. A skiplist is the
map `m` when the nodes with their keys are its entries, and no lock is held
(`Ok`). A new node, and one node less, change the map at one key (`Ok.inserted`,
`Ok.erased`).

Key definitions: `File`, `Call`, `Call.spec`, `Ok`.
Key theorems: `Ok.split`, `Ok.inserted`, `Ok.erased`, `hits_found`, `hits_missing`.
-/
import Perfbook.Skip.Links

namespace Perfbook
namespace Skip

variable {ν K : Type} [DecidableEq ν] [LinearOrder K]

/-- The functions of a file. -/
structure File (ν K : Type) where
  insert : ℕ → Mem ν K → ν → ν → K → ℕ → Option (Mem ν K × Ret ν)
  delete : ℕ → Mem ν K → ν → K → Option (Mem ν K × Ret ν)

/-- `skiplist.c`. -/
def fine : File ν K := ⟨Fine.insert, Fine.delete⟩

/-- `skiplist_glock.c`. -/
def glock : File ν K := ⟨Global.insert, Global.delete⟩

/-- A call, with the node that is inserted and its random level. -/
inductive Call (ν K : Type)
  | insert (new : ν) (key : K) (level : ℕ)
  | delete (key : K)

/-- The caller gives a new node its key. -/
def withKey (s : Mem ν K) (new : ν) (key : K) : Mem ν K := { s with key := Function.update s.key new key }

def File.call (file : File ν K) (fuel : ℕ) (head : ν) : Call ν K → Mem ν K → Option (Mem ν K × Ret ν)
  | .insert new key level, s => file.insert fuel (withKey s new key) new head key level
  | .delete key, s => file.delete fuel s head key

/-- The calls, one after the other, and what they return. -/
def File.calls (file : File ν K) (fuel : ℕ) (head : ν) :
    List (Call ν K) → Mem ν K → Option (Mem ν K × List (Ret ν))
  | [], s => some (s, [])
  | c :: cs, s => do
    let (s, r) ← file.call fuel head c s
    let (s, rs) ← calls file fuel head cs s
    some (s, r :: rs)

/-- What a call does to a finite map. -/
def Call.spec : Call ν K → (K → Option ν) → (K → Option ν) × Ret ν
  | .insert new key _, m =>
    if (m key).isSome then (m, .eexist) else (Function.update m key (some new), .ok)
  | .delete key, m => (Function.update m key none, .ptr (m key))

def Call.specs : List (Call ν K) → (K → Option ν) → (K → Option ν) × List (Ret ν)
  | [], m => (m, [])
  | c :: cs, m => ((specs cs (c.spec m).1).1, (c.spec m).2 :: (specs cs (c.spec m).1).2)

/-- The node to insert is not in the list, and its level is one of those there are. -/
def Call.Fits (head : ν) (m : K → Option ν) : Call ν K → Prop
  | .insert new _ level => new ≠ head ∧ (∀ k, m k ≠ some new) ∧ level < maxLevels
  | .delete _ => True

def Call.FitAll (head : ν) : List (Call ν K) → (K → Option ν) → Prop
  | [], _ => True
  | c :: cs, m => c.Fits head m ∧ FitAll head cs (c.spec m).1

/-- The skiplist has the nodes `ns`, which are the map `m`, and no lock is held. -/
structure Ok (s : Mem ν K) (head : ν) (ns : List ν) (m : K → Option ν) : Prop extends Levels s head ns where
  holds : ∀ k p, m k = some p ↔ p ∈ ns ∧ s.key p = k
  free : ∀ p ∈ head :: ns, s.locked p = false
  even : s.seq % 2 = 0

variable {s s' : Mem ν K} {head new x p : ν} {ns lo hi : List ν} {m : K → Option ν} {key : K}
  {t fuel level : ℕ}

omit [DecidableEq ν] in
/-- A key is new, and its place is behind `lo`, or it is the one of the first node behind. -/
theorem Ok.split (h : Ok s head ns m) (key : K) :
    ∃ lo hi, ns = lo ++ hi ∧ (∀ p ∈ lo, s.key p < key) ∧
      (m key = none ∧ (∀ p ∈ hi, key < s.key p) ∨
        ∃ x hi', hi = x :: hi' ∧ m key = some x ∧ s.key x = key ∧ ∀ p ∈ hi', key < s.key p) := by
  obtain ⟨lo, hi, rfl, hlo, hhi⟩ := exists_split h.sorted key
  refine ⟨lo, hi, rfl, hlo, ?_⟩
  have hsort := (List.pairwise_append.mp h.sorted).2.1
  cases hi with
  | nil =>
    refine .inl ⟨Option.eq_none_iff_forall_ne_some.mpr fun p hp => ?_, nofun⟩
    obtain ⟨hm, hk⟩ := (h.holds key p).mp hp
    exact absurd hk (hlo p (by simpa using hm)).ne
  | cons x hi' =>
    have hrest : ∀ p ∈ hi', key < s.key p := fun p hp =>
      (hhi x List.mem_cons_self).trans_lt ((List.pairwise_cons.mp hsort).1 p hp)
    rcases (hhi x List.mem_cons_self).eq_or_lt with he | hlt
    · exact .inr ⟨x, hi', rfl, (h.holds key x).mpr ⟨by simp, he.symm⟩, he.symm, hrest⟩
    · have hall : ∀ p ∈ x :: hi', key < s.key p := List.forall_mem_cons.mpr ⟨hlt, hrest⟩
      refine .inl ⟨Option.eq_none_iff_forall_ne_some.mpr fun p hp => ?_, hall⟩
      obtain ⟨hm, hk⟩ := (h.holds key p).mp hp
      rcases List.mem_append.mp hm with hm | hm
      · exact absurd hk (hlo p hm).ne
      · exact absurd hk (hall p hm).ne'

/-- The caller may give a key to a node that is not in the list. -/
theorem Ok.withKey (h : Ok s head ns m) (hnew : new ∉ head :: ns) : Ok (withKey s new key) head ns m := by
  have hkey : ∀ p ∈ ns, (Skip.withKey s new key).key p = s.key p := fun p hp =>
    Function.update_of_ne (fun he : p = new => hnew (List.mem_cons_of_mem _ (he ▸ hp))) ..
  refine ⟨⟨h.top_head, h.top_lt, ?_, h.head_notMem, h.linked, h.above, h.live, h.owner⟩, fun k p => ?_,
    h.free, h.even⟩
  · exact h.sorted.imp_of_mem fun hp hq hlt => by rwa [hkey _ hp, hkey _ hq]
  · rw [h.holds]
    exact and_congr_right fun hp => by rw [hkey p hp]

omit [DecidableEq ν] in
/-- The node to insert is not in the list. -/
theorem Ok.notMem (h : Ok s head ns m) (hne : new ≠ head) (hm : ∀ k, m k ≠ some new) : new ∉ head :: ns :=
  fun hn => (List.mem_cons.mp hn).elim hne fun hn => hm (s.key new) ((h.holds _ _).mpr ⟨hn, rfl⟩)

theorem Ok.inserted (h : Ok s head (lo ++ hi) m) (hlo : ∀ p ∈ lo, s.key p < s.key new)
    (hhi : ∀ p ∈ hi, s.key new < s.key p) (hnew : new ∉ head :: (lo ++ hi)) (ht : t < maxLevels) :
    Ok (inserted s head lo new t) head (lo ++ new :: hi) (Function.update m (s.key new) (some new)) := by
  have hlocked : (Skip.inserted s head lo new t).locked = Function.update s.locked new false := rfl
  refine ⟨h.toLevels.inserted hlo hhi hnew ht, fun k p => ?_, fun p hp => ?_, h.even⟩
  · change _ ↔ _ ∧ s.key p = k
    by_cases hk : k = s.key new
    · subst hk
      rw [Function.update_self, Option.some.injEq]
      refine ⟨fun he => ⟨by simp [he], by rw [he]⟩, fun ⟨hp, he⟩ => ?_⟩
      rcases List.mem_append.mp hp with hp | hp
      · exact absurd he (hlo p hp).ne
      · rcases List.mem_cons.mp hp with rfl | hp
        · rfl
        · exact absurd he (hhi p hp).ne'
    · rw [Function.update_of_ne hk, h.holds]
      refine and_congr_left fun he => ?_
      have hpn : p ≠ new := fun hpn => hk (he ▸ hpn ▸ rfl)
      simp [hpn]
  · by_cases hpn : p = new
    · rw [hlocked, hpn, Function.update_self]
    · rw [hlocked, Function.update_of_ne hpn]
      exact h.free p (by simpa [hpn] using hp)

theorem Ok.erased (h : Ok s head (lo ++ x :: hi) m) :
    Ok (erased s head lo x) head (lo ++ hi) (Function.update m (s.key x) none) := by
  have hx : x ∉ lo ++ hi := by
    have hnd := (List.nodup_cons.mp h.nodup).2
    exact (List.nodup_cons.mp (List.nodup_middle.mp hnd)).1
  have hmem : ∀ p, p ∈ lo ++ x :: hi ↔ p = x ∨ p ∈ lo ++ hi := fun p => by
    simp only [List.mem_append, List.mem_cons]
    tauto
  refine ⟨h.toLevels.erased, fun k p => ?_, fun p hp => h.free p ?_, h.even⟩
  · change _ ↔ _ ∧ s.key p = k
    by_cases hk : k = s.key x
    · subst hk
      rw [Function.update_self]
      refine ⟨nofun, fun ⟨hp, he⟩ => ?_⟩
      have hmx := (h.holds (s.key x) x).mpr ⟨(hmem x).mpr (.inl rfl), rfl⟩
      have hmp := (h.holds (s.key x) p).mpr ⟨(hmem p).mpr (.inr hp), he⟩
      rw [hmx, Option.some.injEq] at hmp
      exact absurd (hmp ▸ hp) hx
    · rw [Function.update_of_ne hk, h.holds, hmem]
      refine and_congr_left fun he => or_iff_right fun hpx => hk (he ▸ hpx ▸ rfl)
  · rcases List.mem_cons.mp hp with rfl | hp
    · exact List.mem_cons_self
    · exact List.mem_cons_of_mem _ ((hmem p).mpr (.inr hp))

omit [LinearOrder K] in
theorem initNode_holding {l : List ν} (hl : new ∉ l) :
    initNode (s.holding l) new head t = (initNode s new head t).holding l := by
  simp only [initNode, Mem.holding, Mem.mk.injEq, true_and, and_true]
  funext p
  by_cases hp : p = new
  · simp [hp, hl]
  · simp [hp]

theorem linkLevels_inserted {update : ℕ → Option ν} (h : Levels s head (lo ++ hi))
    (hpred : ∀ j, pred s head lo j ≠ new) (ht : t < maxLevels)
    (hu : ∀ j ≤ t, update j = some (pred s head lo j)) (l : List ν) :
    linkLevels new update (List.range (t + 1)) (clearAbove ((initNode s new head t).holding l) new t) =
      some ((inserted s head lo new t).holding l) := by
  have hle : ∀ {j}, j ∈ List.range (t + 1) → j ≤ t := fun hj => Nat.lt_succ_iff.mp (List.mem_range.mp hj)
  refine linkLevels_eq (b := pred s head lo) List.nodup_range (fun j hj => hu j (hle hj)) (fun j hj => ?_)
    fun j _ => hpred j
  change j ≤ Function.update s.toplevel new t (pred s head lo j)
  rw [Function.update_of_ne (hpred j)]
  rcases pred_mem s head lo j with he | ⟨-, htop⟩
  · rw [he, h.top_head]
    exact Nat.le_pred_of_lt ((hle hj).trans_lt ht)
  · exact htop

omit [DecidableEq ν] in
theorem hits_found (h : Levels s head (lo ++ x :: hi)) (hx : s.key x = key) (hhi : ∀ p ∈ hi, key < s.key p) :
    Hits s (x :: hi) key x (s.toplevel x + 1) where
  le := h.top_lt x (by simp)
  hit level hl := ⟨by simp [onLevel, Nat.lt_succ_iff.mp hl], compare_eq_iff_eq.mpr hx⟩
  miss level hl _ q hq := by
    have hoff : onLevel s level (x :: hi) = onLevel s level hi := by
      simp [onLevel, Nat.not_le.mpr (Nat.lt_of_succ_le hl)]
    rw [hoff] at hq
    exact fun he => (hhi q (mem_onLevel.mp (List.mem_of_mem_head? hq)).1).ne' (compare_eq_iff_eq.mp he)

omit [DecidableEq ν] in
theorem hits_missing (hhi : ∀ p ∈ hi, key < s.key p) : Hits s hi key x 0 where
  le := Nat.zero_le _
  hit _ := nofun
  miss _ _ _ q hq he := (hhi q (mem_onLevel.mp (List.mem_of_mem_head? hq)).1).ne' (compare_eq_iff_eq.mp he)

end Skip
end Perfbook
