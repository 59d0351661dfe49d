/-
# What the threads know of the levels

The nodes that an insertion has noted, after its checks, are not deleted and stay so
while they are locked (`Lives`), and those that a deletion has noted lead to the node
it has found (`Checked`, `Points`). So a node that is copied to a new one is larger
(`Shape.rises`).

Key definitions: `LocShape`, `Shape`, `Quiet`, `Change`.
Key theorems: `Shape.alive`, `LocShape.frame`, `Shape.of_step`, `Shape.rises`.
-/
import Perfbook.Skip.Shape

namespace Perfbook
namespace Skip
namespace Relaxed

open Par Conc

variable {n : ℕ} {ν K : Type} [LinearOrder K] {E : Prop} {head : ν} {s s' : St n ν K}
  {on on' : ν → ℕ → Bool} {t u : Fin n} {l : Loc ν K} {p q x y cur slp new : ν} {key : K}
  {level i j m toplevel : ℕ} {c : Call ν K} {v : Vars ν} {o next last : Option ν} {after : After ν K}
  {update : ℕ → Option ν}

/-- The calls that there are. -/
def Updates : Call ν K → Prop
  | .insert _ _ _ | .delete _ => True
  | _ => False

def AfterUpdates : After ν K → Prop
  | .retry c => Updates c
  | .hold _ => False
  | .unlock _ | .done => True

section

variable (s : St n ν K) (on : ν → ℕ → Bool)

/-- The nodes that were noted from level `i` on and below level `m` are not deleted, and those behind them
are not smaller. -/
def Lives (key : K) (v : Vars ν) (i m : ℕ) : Prop :=
  ∀ j, i ≤ j → j < m → ∃ p, v.update j = some p ∧ s.deleted p = false ∧ ∀ q, s.next p j = some q → key ≤ s.key q

/-- The first node behind is larger. -/
def Misses (key : K) (v : Vars ν) : Prop := ∀ p q, v.update 0 = some p → s.next p 0 = some q → key < s.key q

/-- They lead to the node that was found. -/
def Points (cur : ν) (v : Vars ν) (m : ℕ) : Prop :=
  ∀ j < m, ∃ p, v.update j = some p ∧ s.deleted p = false ∧ s.next p j = some cur

/-- The check of `skiplist_delete`, from `level` on. -/
def Checked (cur : ν) (v : Vars ν) (level : ℕ) : Prop :=
  ∀ j p, level ≤ j → j ≤ s.toplevel cur → v.update j = some p → s.deleted p = false ∧ s.next p j = some cur

def LocShape : Loc ν K → Prop
  | .idle | .checkTop _ _ _ => True
  | .walk c _ _ _ | .lock c _ _ _ _ | .look c _ _ _ _ | .lookUp c _ _ _ _ => Updates c
  | .check _ cur level v => Checked s cur v level
  | .lockCur cur v | .unlinkTop cur v => Checked s cur v 0
  | .unlinkRead cur level v => level ≤ s.toplevel cur + 1 ∧ (∀ j, on cur j = decide (j < level)) ∧
      Points s cur v level
  | .unlinkStore cur level _ next v => level ≤ s.toplevel cur ∧ (∀ j, on cur j = decide (j < level + 1)) ∧
      Points s cur v (level + 1) ∧ next = s.next cur level
  | .setDeleted cur _ => ∀ j, on cur j = false
  | .unlockTop after _ _ | .unlock after _ _ _ _ | .unlockOne _ after => AfterUpdates after
  | .verify _ key _ level v => Lives s key v 0 level
  | .first _ key toplevel v => Lives s key v 0 (toplevel + 1)
  | .initNew _ key toplevel v => Lives s key v 0 (toplevel + 1) ∧ Misses s key v
  | .linkRead new toplevel level v => (Lives s (s.key new) v level (toplevel + 1) ∧
      (level = 0 → Misses s (s.key new) v)) ∧ s.deleted new = false ∧
      s.toplevel new = toplevel ∧ (∀ j, on new j = decide (j < level)) ∧
      ∀ j, level ≤ j → j ≤ toplevel → s.valid new j = false
  | .linkStore new toplevel level slp v => (Lives s (s.key new) v (level + 1) (toplevel + 1) ∧
      s.deleted slp = false) ∧ s.deleted new = false ∧
      s.toplevel new = toplevel ∧ (∀ j, on new j = decide (j < level)) ∧
      (∀ j, level + 1 ≤ j → j ≤ toplevel → s.valid new j = false) ∧ s.next new level = s.next slp level
  | _ => False

end

/-- The thread links or unlinks the node. -/
def Busy (p : ν) : Loc ν K → Prop
  | .unlinkRead x _ _ | .unlinkStore x _ _ _ _ | .setDeleted x _ | .linkRead x _ _ _ | .linkStore x _ _ _ _ => p = x
  | _ => False

omit [LinearOrder K] in
theorem Busy.held (h : Busy p l) : l.held p := by
  cases l with
  | unlinkRead x level v | unlinkStore x level slp next v | setDeleted x v | linkRead x toplevel level v
  | linkStore x toplevel level slp v => exact .inr h
  | _ => exact h.elim

structure Shape (head : ν) (s : St n ν K) (on : ν → ℕ → Bool) : Prop where
  chains : Chains head s on
  whole : ∀ p, s.stage p = .inList → s.deleted p = false → (∀ t, ¬ Busy p (s.loc t)) →
    ∀ i ≤ s.toplevel p, on p i = true
  loc : ∀ t, LocShape s on (s.loc t)

/-- **A node that a thread has locked is linked**, unless it is deleted or the thread itself is at it. -/
theorem Shape.alive (hi : Inv E head s) (h : Shape head s on) (hp : (s.loc t).held p) (hb : ¬ Busy p (s.loc t))
    (hd : s.deleted p = false) (hlevel : i ≤ s.toplevel p) : on p i = true := by
  rcases (hi.loc t).node hp with rfl | hin
  · rw [hi.top] at hlevel
    exact h.chains.headOn i (by unfold maxLevels at *; omega)
  · refine h.whole p hin hd (fun u hu => ?_) i hlevel
    rw [hi.held_eq hp hu.held] at hu
    exact hb hu

/-- What a thread knows is about nodes that it has locked. -/
theorem LocShape.frame (hi : Inv E head s) (hl : LocInv E head s u l) (h : LocShape s on l)
    (hsame : ∀ p, l.held p →
      s'.next p = s.next p ∧ s'.deleted p = s.deleted p ∧ on' p = on p ∧ s'.valid p = s.valid p)
    (htop : ∀ p, Node head s p → s'.toplevel p = s.toplevel p)
    (hkey : ∀ p, Node head s p → s'.key p = s.key p) : LocShape s' on' l := by
  -- the node behind one that was noted was inserted
  have hbehind : ∀ {v : Vars ν} {key j p q}, Entries head s key v.update → v.update j = some p →
      s.next p j = some q → s'.key q = s.key q := fun he hj hq =>
    hkey _ (.inr (hi.link _ _ _ (he.upto _ _ hj _ le_rfl) hq).1)
  have hlives : ∀ {v : Vars ν} {key key' i m}, (∀ p, v.Notes p → l.held p) → Entries head s key' v.update →
      Lives s key v i m → Lives s' key v i m := fun hh he h j hij hj => by
    obtain ⟨p, hp, hd, hq⟩ := h j hij hj
    obtain ⟨h1, h2, -⟩ := hsame p (hh p ⟨j, hp⟩)
    refine ⟨p, hp, by rw [h2, hd], fun q hn => ?_⟩
    rw [h1] at hn
    rw [hbehind he hp hn]
    exact hq q hn
  have hmisses : ∀ {v : Vars ν} {key key'}, (∀ p, v.Notes p → l.held p) → Entries head s key' v.update →
      Misses s key v → Misses s' key v := fun hh he h p q hp hn => by
    rw [(hsame p (hh p ⟨0, hp⟩)).1] at hn
    rw [hbehind he hp hn]
    exact h p q hp hn
  have hpoints : ∀ {v : Vars ν} {m} {cur}, (∀ p, v.Notes p → l.held p) → Points s cur v m → Points s' cur v m :=
    fun hh h j hj => by
      obtain ⟨p, hp, hd, hn⟩ := h j hj
      obtain ⟨h1, h2, -⟩ := hsame p (hh p ⟨j, hp⟩)
      exact ⟨p, hp, by rw [h2, hd], by rw [h1, hn]⟩
  have hchecked : ∀ {v : Vars ν} {m} {cur}, (∀ p, v.Notes p → l.held p) → s.stage cur = .inList →
      Checked s cur v m → Checked s' cur v m := fun hh hin h j p hmj hj hp => by
    rw [htop _ (.inr hin)] at hj
    obtain ⟨hd, hn⟩ := h j p hmj hj hp
    obtain ⟨h1, h2, -⟩ := hsame p (hh p ⟨j, hp⟩)
    exact ⟨by rw [h2, hd], by rw [h1, hn]⟩
  cases l with
  | idle | checkTop key cur v => trivial
  | walk c level slp v | lock c level slp next v | look c level slp next v | lookUp c level slp next v => exact h
  | check key cur level v => exact hchecked (fun p hp => hp) hl.2.1 h
  | lockCur cur v => exact hchecked (fun p hp => hp) hl.2 h
  | unlinkTop cur v => exact hchecked (fun p hp => .inl hp) hl.stage h
  | unlinkRead cur level v =>
    have hcur := hsame cur (.inr rfl)
    refine ⟨by rw [htop cur (.inr hl.stage)]; exact h.1, fun j => ?_, hpoints (fun p hp => .inl hp) h.2.2⟩
    rw [hcur.2.2.1, h.2.1]
  | unlinkStore cur level slp next v =>
    have hcur := hsame cur (.inr rfl)
    refine ⟨by rw [htop cur (.inr hl.1.stage)]; exact h.1, fun j => ?_, hpoints (fun p hp => .inl hp) h.2.2.1, ?_⟩
    · rw [hcur.2.2.1, h.2.1]
    · rw [hcur.1, h.2.2.2]
  | setDeleted cur v =>
    intro j
    rw [(hsame cur (.inr rfl)).2.2.1, h j]
  | unlockTop after cur v | unlock after level toplevel last update | unlockOne slp after => exact h
  | verify new key toplevel level v | first new key toplevel v => exact hlives (fun p hp => hp) hl.1 h
  | initNew new key toplevel v => exact ⟨hlives (fun p hp => hp) hl.1 h.1, hmisses (fun p hp => hp) hl.1 h.2⟩
  | linkRead new toplevel level v =>
    obtain ⟨⟨h1, hm⟩, h2, h3, h4, h5⟩ := h
    obtain ⟨e1, e2, e3, e4⟩ := hsame new (.inr rfl)
    have he := hl.1.entries
    refine ⟨?_, by rw [e2, h2], by rw [htop new (.inr hl.1.stage), h3], fun j => by rw [e3, h4],
      fun j hj hjt => by rw [e4, h5 j hj hjt]⟩
    rw [hkey new (.inr hl.1.stage)]
    exact ⟨hlives (fun p hp => .inl hp) he h1, fun h0 => hmisses (fun p hp => .inl hp) he (hm h0)⟩
  | linkStore new toplevel level slp v =>
    obtain ⟨⟨h1, hd⟩, h2, h3, h4, h5, h6⟩ := h
    obtain ⟨e1, e2, e3, e4⟩ := hsame new (.inr rfl)
    obtain ⟨d1, d2, -⟩ := hsame slp (.inl ⟨level, hl.2.2.2⟩)
    refine ⟨?_, by rw [e2, h2], by rw [htop new (.inr hl.1.stage), h3], fun j => by rw [e3, h4],
      fun j hj hjt => by rw [e4, h5 j hj hjt], by rw [e1, d1, h6]⟩
    rw [hkey new (.inr hl.1.stage), d2]
    exact ⟨hlives (fun p hp => .inl hp) hl.1.entries h1, hd⟩
  | _ => exact h.elim

/-- A step of a thread changes only nodes that others have not locked. -/
theorem Shape.of_step (hi : Inv E head s) (h : Shape head s on) (hloc : s'.loc = Function.update s.loc t l)
    (hc : Chains head s' on') (hkey : ∀ p, Node head s p → s'.key p = s.key p)
    (htop : ∀ p, Node head s p → s'.toplevel p = s.toplevel p)
    (hsame : ∀ p, ¬ (s.loc t).held p → Node head s p →
      s'.next p = s.next p ∧ s'.deleted p = s.deleted p ∧ on' p = on p ∧ s'.valid p = s.valid p)
    (hwhole : ∀ p, s'.stage p = .inList → s'.deleted p = false → ¬ Busy p l →
      (s.stage p = .inList ∧ s.deleted p = false ∧ ¬ Busy p (s.loc t) ∧ on' p = on p) ∨
        ∀ i ≤ s'.toplevel p, on' p i = true)
    (hl : LocShape s' on' l) : Shape head s' on' := by
  refine ⟨hc, fun p hin hd hb => ?_, fun u => ?_⟩
  · have hbl : ¬ Busy p l := by
      have := hb t
      rwa [hloc, Function.update_self] at this
    rcases hwhole p hin hd hbl with ⟨h1, h2, h3, h4⟩ | hall
    · rw [htop p (.inr h1), h4]
      refine h.whole p h1 h2 fun u => ?_
      by_cases hut : u = t
      · rw [hut]
        exact h3
      · have := hb u
        rwa [hloc, Function.update_of_ne hut] at this
    · exact hall
  · refine forall_update (P := fun _ x => LocShape s' on' x) hloc hl (fun u hu => ?_) u
    exact (h.loc u).frame hi (hi.loc u) (fun p hp => hsame p (fun ht => hu (hi.held_eq ht hp)) ((hi.loc u).node hp))
      htop hkey

/-- **An insertion copies links to larger nodes only.** -/
theorem Shape.rises (hi : Inv E head s) (h : Shape head s on) : Rises s t := by
  unfold Rises
  split
  · next new toplevel level v hloc =>
    intro hle slp hu q hq
    obtain ⟨⟨hlive, hmiss⟩, -, -, hon, -⟩ : LocShape s on (.linkRead new toplevel level v) := hloc ▸ h.loc t
    obtain ⟨hlk, -, -⟩ : LocInv E head s t (.linkRead new toplevel level v) := hloc ▸ hi.loc t
    obtain ⟨p, hp, hd, hge⟩ := hlive level le_rfl (Nat.lt_succ_of_le hle)
    obtain rfl : slp = p := Option.some.inj (Eq.trans (Eq.symm hu) hp)
    refine (hge q hq).lt_of_ne fun he => ?_
    rcases Nat.eq_zero_or_pos level with h0 | hpos
    · subst h0
      exact (hmiss rfl slp q hp hq).ne he
    · -- a node with the same key would be linked where the new one is
      have hne : slp ≠ new := fun he => Below.irrefl (he ▸ hlk.entries.below hlk.ne rfl hp)
      have hls : level ≤ s.toplevel slp := not_lt.mp fun hlt => by
        have := h.chains.above slp level (hlk.entries.node level slp hp) hlt (hlk.entries.lt level slp hp)
        exact nomatch this.symm.trans hq
      have hslp : on slp level = true :=
        h.alive hi (by rw [hloc]; exact .inl ⟨level, hp⟩) (by rw [hloc]; exact hne) hd hls
      have hqo : on q level = true := h.chains.next slp level q hslp hq
      have hqh : q ≠ head := hi.ne_head (hi.link slp level q (h.chains.valid slp level hslp) hq).1
      have hqn : new = q := h.chains.inj new q ((hon 0).trans (decide_eq_true hpos))
        (h.chains.down q level 0 hqo (Nat.zero_le level)) hlk.ne hqh he
      rw [← hqn, hon, decide_eq_false (lt_irrefl _)] at hqo
      cases hqo
  · next x newlevel level v hloc =>
    exact (hloc ▸ h.loc t : LocShape s on (.balUp x newlevel level v)).elim
  · trivial

/-! ### What a step does to the levels -/

/-- Links that were stored stay as they are. -/
structure Quiet (head : ν) (s s' : St n ν K) : Prop where
  key : ∀ p, Node head s p → s'.key p = s.key p
  node : ∀ p, Node head s p → Node head s' p
  valid : ∀ p i, s.valid p i = true → s'.valid p i = true
  next : ∀ p i, s.valid p i = true → s'.next p i = s.next p i

/-- A step stores no link in the list, or links or unlinks one node on one level. -/
inductive Change [DecidableEq ν] (head : ν) (s : St n ν K) (on : ν → ℕ → Bool) (s' : St n ν K) :
    (ν → ℕ → Bool) → Prop
  | quiet : Quiet head s s' → Change head s on s' on
  | link (slp new : ν) (level : ℕ) : s'.key = s.key → s'.stage = s.stage → s'.valid = s.valid →
      (∀ p i, s'.next p i = if p = slp ∧ i = level then some new else s.next p i) → on slp level = true →
      Below head s slp new → s.next new level = s.next slp level → s.valid new level = true →
      (∀ j < level, on new j = true) → Change head s on s' (setOn on new level true)
  | unlink (slp cur : ν) (level : ℕ) : s'.key = s.key → s'.stage = s.stage → s'.valid = s.valid →
      (∀ p i, s'.next p i = if p = slp ∧ i = level then s.next cur level else s.next p i) → on slp level = true →
      on cur level = true → s.next slp level = some cur → Change head s on s' (setOn on cur level false)

/-- After a step of a thread. -/
structure Next [DecidableEq ν] (head : ν) (s : St n ν K) (on : ν → ℕ → Bool) (s' : St n ν K) (on' : ν → ℕ → Bool) :
    Prop where
  shape : Shape head s' on'
  change : Change head s on s' on'

end Relaxed
end Skip
end Perfbook
