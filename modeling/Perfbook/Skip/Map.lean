/-
# Both skiplists are a finite map

In both files a call does what it does to the map (`Does.call`), so any calls,
one after the other, return what they return of the map. No `goto retry` is
taken, no `assert` or `BUG_ON` fails, no lock is taken or released twice, and
none is held in the end (`skiplists_refine_map`).

Key definition: `Does`.
Key theorems: `Does.call`, `Does.calls`, `skiplists_refine_map`.
-/
import Perfbook.Skip.Fine
import Perfbook.Skip.Fsck
import Perfbook.Skip.Global

namespace Perfbook
namespace Skip

variable {ν K : Type} [DecidableEq ν] [LinearOrder K] {s s' : Mem ν K} {head new x p : ν} {ns lo hi : List ν}
  {m : K → Option ν} {key : K} {t fuel level : ℕ}

/-- What each function of a file does; `tick` is what a deletion does to `sl_seq`. -/
structure Does (file : File ν K) (tick : Mem ν K → Mem ν K) : Prop where
  ok : ∀ {s head ns m}, Ok s head ns m → Ok (tick s) head ns m
  retries : ∀ s, (tick s).retries = s.retries
  locked : ∀ s, (tick s).locked = s.locked
  insert_new : ∀ {s head lo hi m new t fuel}, Ok s head (lo ++ hi) m → (∀ p ∈ lo, s.key p < s.key new) →
    (∀ p ∈ hi, s.key new < s.key p) → lo.length < fuel → t < maxLevels → new ∉ head :: (lo ++ hi) →
    file.insert fuel s new head (s.key new) t = some (inserted s head lo new t, .ok)
  insert_found : ∀ {s head lo x hi m new key t fuel}, Ok s head (lo ++ x :: hi) m →
    (∀ p ∈ lo, s.key p < key) → (∀ p ∈ x :: hi, key ≤ s.key p) → s.key x = key → lo.length < fuel →
    t < maxLevels → file.insert fuel s new head key t = some (s, .eexist)
  delete_missing : ∀ {s head lo hi m key fuel}, Ok s head (lo ++ hi) m → (∀ p ∈ lo, s.key p < key) →
    (∀ p ∈ hi, key < s.key p) → lo.length < fuel → file.delete fuel s head key = some (tick s, .ptr none)
  delete_found : ∀ {s head lo x hi m key fuel}, Ok s head (lo ++ x :: hi) m → (∀ p ∈ lo, s.key p < key) →
    s.key x = key → (∀ p ∈ hi, key < s.key p) → lo.length < fuel →
    file.delete fuel s head key = some (tick (erased s head lo x), .ptr (some x))

theorem does_fine : Does (fine : File ν K) id where
  ok h := h
  retries _ := rfl
  locked _ := rfl
  insert_new := Fine.insert_new
  insert_found := Fine.insert_found
  delete_missing := Fine.delete_missing
  delete_found := Fine.delete_found

theorem does_glock : Does (glock : File ν K) (fun s => Global.nextSeq (Global.nextSeq s)) where
  ok h := Global.ok_nextSeq h
  retries _ := rfl
  locked _ := rfl
  insert_new := Global.insert_new
  insert_found := Global.insert_found
  delete_missing := Global.delete_missing
  delete_found := Global.delete_found

/-- **A call does what it does to the map**, in one pass, and releases the locks that it takes. -/
theorem Does.call {file : File ν K} {tick : Mem ν K → Mem ν K} (d : Does file tick) (c : Call ν K)
    (h : Ok s head ns m) (hfit : c.Fits head m) (hf : ns.length < fuel) :
    ∃ s' ns', file.call fuel head c s = some (s', (c.spec m).2) ∧ Ok s' head ns' (c.spec m).1 ∧
      ns'.length ≤ ns.length + 1 ∧ s'.retries = s.retries ∧
      ∀ p, s'.locked p = true → s.locked p = true := by
  cases c with
  | insert new key t =>
    obtain ⟨hne, hm, ht⟩ := hfit
    have hnew := h.notMem hne hm
    have hs : Ok (Skip.withKey s new key) head ns m := h.withKey hnew
    have hkey : (Skip.withKey s new key).key new = key := Function.update_self ..
    obtain ⟨lo, hi, rfl, hlo, ⟨hmk, hhi⟩ | ⟨x, hi, rfl, hmk, hx, hhi⟩⟩ := hs.split key
    · have hspec : (Call.insert new key t).spec m = (Function.update m key (some new), .ok) :=
        if_neg (by rw [hmk]; exact Bool.false_ne_true)
      rw [hspec]
      have hlo' : ∀ p ∈ lo, (Skip.withKey s new key).key p < (Skip.withKey s new key).key new := by rwa [hkey]
      have hhi' : ∀ p ∈ hi, (Skip.withKey s new key).key new < (Skip.withKey s new key).key p := by rwa [hkey]
      have hins : file.insert fuel (Skip.withKey s new key) new head ((Skip.withKey s new key).key new) t =
          some (inserted (Skip.withKey s new key) head lo new t, .ok) :=
        d.insert_new hs hlo' hhi' (by simp at hf; omega) ht hnew
      have hok := hs.inserted hlo' hhi' hnew ht
      rw [hkey] at hins hok
      refine ⟨inserted (Skip.withKey s new key) head lo new t, lo ++ new :: hi, hins, hok, by simp; omega, rfl,
        fun p hp => ?_⟩
      have hlocked : (inserted (Skip.withKey s new key) head lo new t).locked = Function.update s.locked new false :=
        rfl
      by_cases hpn : p = new
      · rw [hlocked, hpn, Function.update_self] at hp
        cases hp
      · rwa [hlocked, Function.update_of_ne hpn] at hp
    · have hspec : (Call.insert new key t).spec m = (m, .eexist) := if_pos (by rw [hmk]; rfl)
      rw [hspec]
      have hle : ∀ p ∈ x :: hi, key ≤ (Skip.withKey s new key).key p :=
        List.forall_mem_cons.mpr ⟨hx.ge, fun p hp => (hhi p hp).le⟩
      exact ⟨_, _, d.insert_found hs hlo hle hx (by simp at hf; omega) ht, hs, Nat.le_succ _, rfl, fun _ => id⟩
  | delete key =>
    obtain ⟨lo, hi, rfl, hlo, ⟨hmk, hhi⟩ | ⟨x, hi, rfl, hmk, hx, hhi⟩⟩ := h.split key
    · have hm : Function.update m key none = m := by rw [← hmk, Function.update_eq_self]
      rw [Call.spec, hmk, hm]
      exact ⟨_, _, d.delete_missing h hlo hhi (by simp at hf; omega), d.ok h, Nat.le_succ _, d.retries s,
        fun p hp => d.locked s ▸ hp⟩
    · rw [Call.spec, hmk]
      refine ⟨_, lo ++ hi, d.delete_found h hlo hx hhi (by simp at hf; omega), d.ok (hx ▸ h.erased), by simp; omega,
        d.retries _, fun p hp => ?_⟩
      rw [d.locked] at hp
      exact hp

/-- Calls do what they do to the map. -/
theorem Does.calls {file : File ν K} {tick : Mem ν K → Mem ν K} (d : Does file tick) (cs : List (Call ν K))
    (h : Ok s head ns m) (hfit : Call.FitAll head cs m) (hf : ns.length + cs.length < fuel) :
    ∃ s' ns', file.calls fuel head cs s = some (s', (Call.specs cs m).2) ∧ Ok s' head ns' (Call.specs cs m).1 ∧
      ns'.length ≤ ns.length + cs.length ∧ s'.retries = s.retries ∧
      ∀ p, s'.locked p = true → s.locked p = true := by
  induction cs generalizing s ns m with
  | nil => exact ⟨s, ns, rfl, h, le_rfl, rfl, fun _ => id⟩
  | cons c cs ih =>
    rw [List.length_cons] at hf
    obtain ⟨s₁, ns₁, hc, h₁, hlen, hr₁, hl₁⟩ := d.call c h hfit.1 (by omega : ns.length < fuel)
    obtain ⟨s₂, ns₂, hcs, h₂, hlen₂, hr₂, hl₂⟩ := ih h₁ hfit.2 (by omega)
    refine ⟨s₂, ns₂, ?_, h₂, by rw [List.length_cons]; omega, hr₂.trans hr₁, fun p hp => hl₁ p (hl₂ p hp)⟩
    simp only [File.calls, hc, hcs, Option.bind_eq_bind, Option.bind_some, Call.specs]

theorem ok_init (s : Mem ν K) (head : ν) : Ok (init s head) head [] fun _ => none where
  top_head := Function.update_self ..
  top_lt _ := nofun
  sorted := List.Pairwise.nil
  head_notMem := nofun
  linked level hl := by
    change Function.update s.next head _ head level = none
    rw [Function.update_self]
    exact if_pos hl
  above _ := nofun
  live p hp := by
    rw [List.mem_singleton.mp hp]
    exact Function.update_self ..
  owner p hp := by
    rw [List.mem_singleton.mp hp]
    exact Function.update_self ..
  holds _ _ := ⟨nofun, fun h => nomatch h.1⟩
  free p hp := by
    rw [List.mem_singleton.mp hp]
    exact Function.update_self ..
  even := rfl

/-- **Both skiplists are a finite map.** From `skiplist_init` on, any calls return in both files what
they return of the map, without a `goto retry`. Then the nodes `ns` are the values of the map, each on
the levels up to its own; `skiplist_fsck` finds nothing; and no lock is held that was not before. -/
theorem skiplists_refine_map (head : ν) (s : Mem ν K) (cs : List (Call ν K))
    (hfit : Call.FitAll head cs fun _ => none) (fuel : ℕ) (hf : cs.length < fuel) :
    ∀ file ∈ [fine, glock], ∃ s' ns,
      file.calls fuel head cs (init s head) = some (s', (Call.specs cs fun _ => none).2) ∧
      Levels s' head ns ∧ (∀ k p, (Call.specs cs fun _ => none).1 k = some p ↔ p ∈ ns ∧ s'.key p = k) ∧
      fsck fuel s' head = some () ∧ s'.retries = 0 ∧
      (∀ p ∈ head :: ns, s'.locked p = false) ∧ ∀ p, s'.locked p = true → s.locked p = true := by
  have hrun : ∀ {file : File ν K} {tick}, Does file tick → ∃ s' ns,
      file.calls fuel head cs (init s head) = some (s', (Call.specs cs fun _ => none).2) ∧
      Levels s' head ns ∧ (∀ k p, (Call.specs cs fun _ => none).1 k = some p ↔ p ∈ ns ∧ s'.key p = k) ∧
      fsck fuel s' head = some () ∧ s'.retries = 0 ∧
      (∀ p ∈ head :: ns, s'.locked p = false) ∧ ∀ p, s'.locked p = true → s.locked p = true := by
    intro file tick d
    obtain ⟨s', ns, hc, h, hlen, hr, hl⟩ := d.calls cs (ok_init s head) hfit (by simpa using hf)
    have hlen' : ns.length < fuel := hlen.trans_lt (by simpa using hf)
    refine ⟨s', ns, hc, h.toLevels, h.holds, h.fsck hlen', hr, h.free, fun p hp => ?_⟩
    have hp' : Function.update s.locked head false p = true := hl p hp
    by_cases hph : p = head
    · rw [hph, Function.update_self] at hp'
      cases hp'
    · rwa [Function.update_of_ne hph] at hp'
  intro file hfile
  rcases List.mem_cons.mp hfile with rfl | hfile
  · exact hrun does_fine
  · rw [List.mem_singleton.mp hfile]
    exact hrun does_glock

/-- A memory in which nothing is set. -/
def blank : Mem ℕ ℕ where
  key _ := 0
  toplevel _ := 0
  deleted _ := false
  head _ := none
  next _ _ := none
  locked _ := false
  seq := 0
  retries := 0

/-- Two nodes are inserted, one a second time, and one is deleted. -/
def fourCalls : List (Call ℕ ℕ) := [.insert 1 10 2, .insert 2 5 0, .insert 3 10 1, .delete 5]

theorem fourCalls_fit : Call.FitAll 0 fourCalls fun _ => none :=
  ⟨⟨by decide, fun _ => nofun, by decide⟩,
    ⟨by decide, fun k => by simp [Call.spec, Function.update_apply], by decide⟩,
    ⟨by decide, fun k => by simp [Call.spec, Function.update_apply]; grind, by decide⟩, trivial, trivial⟩

theorem skiplists_refine_map_run :
    (∃ s' ns, fine.calls 5 0 fourCalls (init blank 0) = some (s', [.ok, .ok, .eexist, .ptr (some 2)]) ∧
      Levels s' 0 ns ∧ (∀ k p, Function.update (Function.update (Function.update (fun _ => none) 10 (some 1)) 5
        (some 2)) 5 none k = some p ↔ p ∈ ns ∧ s'.key p = k) ∧ fsck 5 s' 0 = some () ∧ s'.retries = 0 ∧
      (∀ p ∈ 0 :: ns, s'.locked p = false) ∧ ∀ p, s'.locked p = true → blank.locked p = true) ∧
    ∃ s' ns, glock.calls 5 0 fourCalls (init blank 0) = some (s', [.ok, .ok, .eexist, .ptr (some 2)]) ∧
      Levels s' 0 ns ∧ (∀ k p, Function.update (Function.update (Function.update (fun _ => none) 10 (some 1)) 5
        (some 2)) 5 none k = some p ↔ p ∈ ns ∧ s'.key p = k) ∧ fsck 5 s' 0 = some () ∧ s'.retries = 0 ∧
      (∀ p ∈ 0 :: ns, s'.locked p = false) ∧ ∀ p, s'.locked p = true → blank.locked p = true :=
  ⟨skiplists_refine_map 0 blank fourCalls fourCalls_fit 5 (by decide) fine (by simp),
    skiplists_refine_map 0 blank fourCalls fourCalls_fit 5 (by decide) glock (by simp)⟩

end Skip
end Perfbook
