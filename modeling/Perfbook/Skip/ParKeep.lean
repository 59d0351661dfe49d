/-
# Each step keeps the invariant

The searches, the checks and the unlocks are the threads going on. The stores come
after the locks: the link that is copied leads to a larger key, and the node that
is stored is behind the node that was noted.

Key theorems: `Inv.stores`, `Inv.settled_next`, `Inv.step`, `Inv.start`, `Inv.release`, `inv_init`.
-/
import Perfbook.Skip.ParStep

namespace Perfbook
namespace Skip
namespace Par

open Conc

variable {n : ℕ} {ν K : Type} [DecidableEq ν] [LinearOrder K] {E : Prop} {head : ν} {s s' : St n ν K} {t u : Fin n}
  {l : Loc ν K} {p q x cur slp new : ν} {key : K} {level newlevel toplevel : ℕ} {c : Call ν K} {v : Vars ν}
  {update : ℕ → Option ν} {after : After ν K} {next o last : Option ν}

omit [LinearOrder K] in
theorem setNext_next (i : ℕ) : (s.setNext slp level o).next p i = if p = slp ∧ i = level then o else s.next p i := by
  simp only [St.setNext, Function.update_apply]
  by_cases hp : p = slp
  · subst hp
    simp [Function.update_apply]
  · simp [hp]

omit [DecidableEq ν] [LinearOrder K] in
theorem linking_held (hl : l.linking = some (x, v)) : l.held x ∧ ∀ p, v.Notes p → l.held p := by
  cases l with
  | linkRead new toplevel level v' | linkStore new toplevel level slp v' =>
    cases hl
    exact ⟨.inr rfl, fun p hp => .inl hp⟩
  | _ => cases hl

namespace Inv

variable (h : Inv E head s)
include h

/-- A thread stores a link. -/
theorem stores (hl : LocInv E head s t l) (hlinking : l.linking = (s.loc t).linking)
    (hheld : ∀ p, l.held p ↔ (s.loc t).held p)
    (hlink : ∀ q, o = some q → s.stage q = .inList ∧ (∀ l ≤ level, s.valid q l = true) ∧ Below head s slp q)
    (hfirst : level = 0 → ∀ q, o = some q → ∀ u v, (s.loc u).linking = some (q, v) → v.update 0 = some slp) :
    Inv E head ((s.setNext slp level o).goto t l) := by
  refine h.of_step rfl rfl rfl rfl rfl (fun p i q hp hq => ?_) (.inl hlinking) (fun u x v hu p hp hx => ?_)
    (h.lock.keep rfl hheld) hl
  · have hq : (s.setNext slp level o).next p i = some q := hq
    rw [setNext_next] at hq
    split at hq
    · next he => exact he.1 ▸ he.2 ▸ hlink q hq
    · exact h.link p i q hp hq
  · have hx : (s.setNext slp level o).next p 0 = some x := hx
    rw [setNext_next] at hx
    split at hx
    · next he => exact he.1 ▸ hfirst he.2.symm x hx u v hu
    · exact h.linking u x v hu p hp hx

omit [DecidableEq ν] in
theorem held_eq (ht : (s.loc t).held p) (hu : (s.loc u).held p) : u = t := h.lock.eq ht hu

omit [DecidableEq ν] in
/-- The first node behind one that a thread has locked is not being linked by another one. -/
theorem settled_next (hnone : (s.loc t).linking = none) (hp : (s.loc t).held p) (hvalid : s.valid p 0 = true)
    (hx : s.next p 0 = some x) : Settled s x := by
  refine ⟨(h.link p 0 x hvalid hx).1, fun u v hu => ?_⟩
  have hup : (s.loc u).held p := (linking_held hu).2 p ⟨0, h.linking u x v hu p hvalid hx⟩
  rw [h.held_eq hp hup, hnone] at hu
  cases hu

omit [DecidableEq ν] in
/-- A node that no thread has locked is not being linked. -/
theorem settled_free (hx : s.lock x = none) (hin : s.stage x = .inList) : Settled s x :=
  ⟨hin, fun _ _ hu => h.lock.not_held hx (linking_held hu).1⟩

end Inv

/-! ### Searches -/

namespace Inv

variable (h : Inv E head s) (hs : stepThread head s t = some s')
include h hs

theorem step_walk (hloc : s.loc t = .walk c level slp v) : Inv E head s' := by
  obtain ⟨hse, hv, hlevel⟩ : LocInv E head s t (.walk c level slp v) := hloc ▸ h.loc t
  rw [stepThread, hloc] at hs
  dsimp only at hs
  cases hnext : s.next slp level with
  | none =>
    rw [hnext] at hs
    cases hs
    exact h.goes hloc rfl (body_stands h hse hv hlevel fun q hq => nomatch hq)
  | some q =>
    obtain ⟨hq, hvq, hbelow⟩ := h.link slp level q (hv level le_rfl) hnext
    rw [hnext] at hs
    cases hs
    refine h.goes hloc rfl ?_
    split
    · next hlt =>
      have hse' : Search head s t c (level + 1) q v :=
        { hse with
          node := .inr hq
          low := .inr hlt
          above := fun j p hj => (hse.above j p hj).imp_right fun hle => .inr (hle.below hbelow) }
      exact ⟨⟨hse', hvq, hlevel⟩, fun p => Iff.rfl, rfl⟩
    · exact body_stands h hse hv hlevel fun q' hq' => Option.some.inj hq' ▸ hq

theorem step_lock (hloc : s.loc t = .lock c level slp next v) : Inv E head s' := by
  obtain ⟨hse, hv, hlevel, hn, -⟩ : LocInv E head s t (.lock c level slp next v) := hloc ▸ h.loc t
  rw [stepThread, hloc] at hs
  dsimp only at hs
  split at hs
  · cases hs
  · next hfree =>
    cases hs
    exact h.takes hloc rfl (not_not.mp hfree) (locked_stands h hse hv hlevel hn)

theorem step_look (hloc : s.loc t = .look c level slp next v) : Inv E head s' := by
  have hl : LocInv E head s t (.look c level slp next v) := hloc ▸ h.loc t
  rw [stepThread, hloc] at hs
  dsimp only at hs
  split at hs
  · obtain ⟨l, ha, rfl⟩ := Option.map_eq_some_iff.mp hs
    exact h.goes hloc rfl (again_stands hl.1 ha)
  · cases hs
    exact h.goes hloc rfl ⟨hl, fun p => Iff.rfl, rfl⟩

theorem step_lookUp (hloc : s.loc t = .lookUp c level slp next v) : Inv E head s' := by
  obtain ⟨hse, hv, hlevel⟩ : LocInv E head s t (.lookUp c level slp next v) := hloc ▸ h.loc t
  rw [stepThread, hloc] at hs
  dsimp only at hs
  split at hs
  · obtain ⟨l, ha, rfl⟩ := Option.map_eq_some_iff.mp hs
    exact h.goes hloc rfl (again_stands hse ha)
  · cases hs
    exact h.goes hloc rfl (advance_stands h hse hv hlevel)

/-! ### Unlocking -/

theorem step_unlockTop (hloc : s.loc t = .unlockTop after cur v) (hsorts : E → Sorts s t) : Inv E head s' := by
  obtain ⟨⟨key, he⟩, ha⟩ : LocInv E head s t (.unlockTop after cur v) := hloc ▸ h.loc t
  rw [stepThread, hloc] at hs
  cases hs
  refine h.goes hloc rfl (unlock_stands he (fun hE j p hj => ?_) ha)
  have htop : ∀ level < maxLevels, s.toplevel cur < level → v.update level = none := by
    have := hsorts hE
    rw [Sorts, hloc] at this
    exact this
  by_contra hlt
  rw [htop j (he.lt j p hj) (not_le.mp hlt)] at hj
  cases hj

theorem step_unlock (hloc : s.loc t = .unlock after level toplevel last update) : Inv E head s' := by
  obtain ⟨⟨key, he⟩, htop, hlast, ha⟩ : LocInv E head s t (.unlock after level toplevel last update) :=
    hloc ▸ h.loc t
  -- what is still locked is above this level
  have hup : (∀ p, update level = some p → some p = last) → Stands E head s t
      (Loc.unlock after level toplevel last update).held (.unlock after (level + 1) toplevel last update) :=
    fun hno => by
      refine ⟨⟨⟨key, he⟩, htop, fun q hq => ⟨(hlast q hq).1, fun j p hj hp =>
        (hlast q hq).2 j p (Nat.le_of_succ_le hj) hp⟩, ha⟩, fun p => or_congr_left ⟨?_, ?_⟩, rfl⟩
      · rintro ⟨j, hj, hp, hne⟩
        exact ⟨j, Nat.le_of_succ_le hj, hp, hne⟩
      · rintro ⟨j, hj, hp, hne⟩
        rcases hj.eq_or_lt with rfl | hj
        · exact absurd (hno p hp) hne
        · exact ⟨j, hj, hp, hne⟩
  rw [stepThread, hloc] at hs
  dsimp only at hs
  split at hs
  · cases hl : update level with
    | none =>
      rw [hl] at hs
      cases hs
      exact h.goes hloc rfl (hup fun p hp => nomatch hl.symm.trans hp)
    | some slp =>
      rw [hl] at hs
      dsimp only at hs
      split at hs
      · next hne =>
        cases hs
        refine h.drops hloc rfl (.inl ⟨level, le_rfl, hl, hne⟩) ⟨⟨⟨key, he⟩, htop, fun q hq => ?_, ha⟩,
          fun p => ⟨?_, ?_⟩, rfl⟩
        · cases hq
          exact ⟨he.node level slp hl, fun j p hj hp => he.desc level j slp p (Nat.le_of_succ_le hj) hl hp⟩
        · rintro (⟨j, hj, hp, hne'⟩ | hp)
          · refine ⟨.inl ⟨j, Nat.le_of_succ_le hj, hp, fun hq => ?_⟩, fun hps => hne' (congrArg some hps)⟩
            -- the last one unlocked is not behind this one
            have hle := he.desc level j slp p (Nat.le_of_succ_le hj) hl hp
            have hge := (hlast p hq.symm).2 level slp le_rfl hl
            exact hne' (congrArg some (hle.antisymm hge))
          · refine ⟨.inr hp, ?_⟩
            cases after with
            | unlock x | hold x =>
              have hpx : p = x := hp
              exact fun hps => ha.2 slp ⟨level, hl⟩ (hps.symm.trans hpx)
            | _ => exact hp.elim
        · rintro ⟨⟨j, hj, hp, hne'⟩ | hp, hps⟩
          · rcases hj.eq_or_lt with rfl | hj
            · exact absurd (Option.some.inj (hp.symm.trans hl)) hps
            · exact .inl ⟨j, hj, hp, fun he => hps (Option.some.inj he)⟩
          · exact .inr hp
      · next hsame =>
        cases hs
        exact h.goes hloc rfl (hup fun p hp => Option.some.inj (hl.symm.trans hp) ▸ not_not.mp hsame)
  · next hgt =>
    cases hs
    have hafter := after_stands h ha
    refine h.leaves hloc rfl hafter.loc hafter.linking (fun p hp => .inr ((hafter.held p).mp hp)) fun hE p hp => ?_
    rcases hp with ⟨j, hj, hp, -⟩ | hp
    · exact absurd (hj.trans (htop hE j p hp)) hgt
    · exact (hafter.held p).mpr hp

theorem step_unlockOne (hloc : s.loc t = .unlockOne slp after) : Inv E head s' := by
  obtain ⟨hn, ha⟩ : LocInv E head s t (.unlockOne slp after) := hloc ▸ h.loc t
  rw [stepThread, hloc] at hs
  cases hs
  refine h.drops hloc rfl (.inl rfl) ((after_stands h ha).congr fun p => ⟨fun hp => ⟨.inr hp, ?_⟩, ?_⟩)
  · cases after with
    | unlock x | hold x =>
      have hpx : p = x := hp
      exact fun hps => ha.2 slp rfl (hps.symm.trans hpx)
    | _ => exact hp.elim
  · rintro ⟨hp, hps⟩
    exact hp.resolve_left hps

/-! ### Deletions -/

theorem step_checkTop (hloc : s.loc t = .checkTop key cur v) : Inv E head s' := by
  have hl : LocInv E head s t (.checkTop key cur v) := hloc ▸ h.loc t
  rw [stepThread, hloc] at hs
  cases hs
  exact h.goes hloc rfl ⟨hl, fun p => Iff.rfl, rfl⟩

theorem step_check (hloc : s.loc t = .check key cur level v) : Inv E head s' := by
  obtain ⟨he, hin, hkey⟩ : LocInv E head s t (.check key cur level v) := hloc ▸ h.loc t
  rw [stepThread, hloc] at hs
  cases level with
  | zero =>
    cases hs
    exact h.goes hloc rfl ⟨⟨by rw [hkey]; exact he, hin⟩, fun p => Iff.rfl, rfl⟩
  | succ level =>
    dsimp only at hs
    split at hs
    · cases hs
      exact h.goes hloc rfl ⟨⟨⟨key, he⟩, trivial⟩, fun p => or_iff_left id, rfl⟩
    · cases hs
      exact h.goes hloc rfl ⟨⟨he, hin, hkey⟩, fun p => Iff.rfl, rfl⟩

theorem step_lockCur (hloc : s.loc t = .lockCur cur v) : Inv E head s' := by
  obtain ⟨he, hin⟩ : LocInv E head s t (.lockCur cur v) := hloc ▸ h.loc t
  rw [stepThread, hloc] at hs
  dsimp only at hs
  split at hs
  · cases hs
  · next hfree =>
    cases hs
    -- who links a node has its lock, so all links of this one were stored
    have hc : Complete s cur := h.complete cur (h.settled_free (not_not.mp hfree) hin)
    exact h.takes hloc rfl (not_not.mp hfree) ⟨⟨he, hin, hc⟩, fun p => Iff.rfl, rfl⟩

theorem step_unlinkTop (hloc : s.loc t = .unlinkTop cur v) : Inv E head s' := by
  have hl : LocInv E head s t (.unlinkTop cur v) := hloc ▸ h.loc t
  rw [stepThread, hloc] at hs
  cases hs
  exact h.goes hloc rfl ⟨hl, fun p => Iff.rfl, rfl⟩

theorem step_unlinkRead (hloc : s.loc t = .unlinkRead cur level v) : Inv E head s' := by
  have hf : Found head s cur v := (hloc ▸ h.loc t : LocInv E head s t (.unlinkRead cur level v))
  rw [stepThread, hloc] at hs
  cases level with
  | zero =>
    cases hs
    exact h.goes hloc rfl ⟨hf, fun p => Iff.rfl, rfl⟩
  | succ level =>
    dsimp only at hs
    cases hu : v.update level with
    | none =>
      rw [hu] at hs
      cases hs
      exact h.goes hloc rfl ⟨hf, fun p => Iff.rfl, rfl⟩
    | some slp =>
      rw [hu] at hs
      cases hs
      have hlt : level < maxLevels := hf.entries.lt level slp hu
      have hheld : (s.loc t).held cur := by
        rw [hloc]
        exact .inr rfl
      refine h.goes hloc rfl ⟨⟨hf, hu, fun q hq => ?_⟩, fun p => Iff.rfl, rfl⟩
      obtain ⟨h1, h2, h3⟩ := h.link cur level q (hf.complete level hlt) hq
      refine ⟨h1, h2, h3, fun h0 => ?_⟩
      subst h0
      exact h.settled_next (by rw [hloc]; rfl) hheld (hf.complete 0 hlt) hq

theorem step_unlinkStore (hloc : s.loc t = .unlinkStore cur level slp next v) : Inv E head s' := by
  obtain ⟨hf, hu, hq⟩ : LocInv E head s t (.unlinkStore cur level slp next v) := hloc ▸ h.loc t
  have hslp : Below head s slp cur := hf.entries.below (h.ne_head hf.stage) rfl hu
  rw [stepThread, hloc] at hs
  cases hs
  refine h.stores hf (by rw [hloc]; rfl) (fun p => by rw [hloc]; rfl) (fun q hn => ?_) fun h0 q hn u v hl => ?_
  · obtain ⟨h1, h2, h3, -⟩ := hq q hn
    exact ⟨h1, h2, hslp.trans h3⟩
  · exact absurd hl (((hq q hn).2.2.2 h0).2 u v)

theorem step_setDeleted (hloc : s.loc t = .setDeleted cur v) : Inv E head s' := by
  have hf : Found head s cur v := (hloc ▸ h.loc t : LocInv E head s t (.setDeleted cur v))
  have hne : ∀ p, v.Notes p → p ≠ cur := fun p ⟨j, hj⟩ he => by
    subst he
    exact Below.irrefl (hf.entries.below (h.ne_head hf.stage) rfl hj)
  rw [stepThread, hloc] at hs
  cases hs
  refine h.of_next rfl rfl rfl rfl rfl rfl (.inl (by rw [hloc]; rfl)) (h.lock.keep rfl fun p => ?_)
    ⟨⟨_, hf.entries⟩, .inr hf.stage, hne⟩
  rw [hloc]
  rfl

/-! ### Insertions -/

theorem step_verify (hloc : s.loc t = .verify new key toplevel level v) : Inv E head s' := by
  have hl : LocInv E head s t (.verify new key toplevel level v) := hloc ▸ h.loc t
  obtain ⟨he, hm, htop⟩ := hl
  rw [stepThread, hloc] at hs
  dsimp only at hs
  split at hs
  · obtain ⟨slp, -, hs⟩ := Option.bind_eq_some_iff.mp hs
    split at hs
    · cases hs
      have hretry : AfterInv head s t v.Notes (.retry (.insert new key toplevel)) := hm
      exact h.goes hloc rfl ((unlock_stands he (fun _ => htop) hretry).congr fun p => or_iff_left id)
    · cases hs
      exact h.goes hloc rfl ⟨⟨he, hm, htop⟩, fun p => Iff.rfl, rfl⟩
  · cases hs
    exact h.goes hloc rfl ⟨⟨he, hm, htop⟩, fun p => Iff.rfl, rfl⟩

theorem step_first (hloc : s.loc t = .first new key toplevel v) : Inv E head s' := by
  obtain ⟨he, hm, htop⟩ : LocInv E head s t (.first new key toplevel v) := hloc ▸ h.loc t
  rw [stepThread, hloc] at hs
  obtain ⟨slp, -, hs⟩ := Option.bind_eq_some_iff.mp hs
  split at hs
  · cases hs
    exact h.goes hloc rfl ⟨⟨he, hm, htop⟩, fun p => Iff.rfl, rfl⟩
  · cases hs
    have hdone : AfterInv head s t v.Notes .done := trivial
    exact h.goes hloc rfl ((unlock_stands he (fun _ => htop) hdone).congr fun p => or_iff_left id)

/-- The new node gets its fields and its lock. -/
theorem step_initNew (hloc : s.loc t = .initNew new key toplevel v) : Inv E head s' := by
  obtain ⟨he, ⟨hgiven, hkey, hne, hlt⟩, htop⟩ : LocInv E head s t (.initNew new key toplevel v) := hloc ▸ h.loc t
  rw [stepThread, hloc] at hs
  have hs' := (Option.some.inj hs).symm
  have hloc' : s'.loc = Function.update s.loc t (.linkRead new toplevel 0 v) := by rw [hs']; rfl
  have hkey' : s'.key = s.key := by rw [hs']; rfl
  have hstage' : s'.stage = Function.update s.stage new .inList := by rw [hs']; rfl
  have hvalid' : s'.valid = Function.update s.valid new fun level => decide (toplevel < level ∧ level < maxLevels) := by
    rw [hs']; rfl
  have hnext' : s'.next = Function.update s.next new fun level =>
      if toplevel < level ∧ level < maxLevels then none else s.next new level := by rw [hs']; rfl
  have hstage : ∀ p, p ≠ new → s'.stage p = s.stage p := fun p hp => by rw [hstage', Function.update_of_ne hp]
  have hin : ∀ p, s.stage p = .inList → p ≠ new := fun p hp he => nomatch (he ▸ hp).symm.trans hgiven
  have hnode : ∀ p, Node head s p → p ≠ new := fun p hp => hp.elim (fun he hn => hne (hn.symm.trans he)) (hin p)
  -- no other node is linked, or not linked, by the step
  have hlinking : ∀ u x v', x ≠ new → ((s'.loc u).linking = some (x, v') ↔ (s.loc u).linking = some (x, v')) :=
    fun u x v' hx => by
      rw [hloc']
      by_cases hut : u = t
      · subst hut
        rw [Function.update_self, hloc]
        exact iff_of_false (fun hu => hx (congrArg Prod.fst (Option.some.inj hu)).symm) nofun
      · rw [Function.update_of_ne hut]
  have hg : Grows s s' := by
    refine ⟨fun p _ => by rw [hkey'], fun p hp => (hstage p (hin p hp)).trans hp, fun p level hp => ?_,
      fun p hp => ⟨(hstage p (hin p hp.1)).trans hp.1, fun u v' hu => ?_⟩⟩
    · rw [hvalid', Function.update_of_ne (hnode p (h.validNode p level hp)), hp]
    · exact hp.2 u v' ((hlinking u p v' (hin p hp.1)).mp hu)
  have hzero : s'.valid new 0 = false := by
    rw [hvalid', Function.update_self]
    exact decide_eq_false fun hc => Nat.not_lt_zero _ hc.1
  have hfree : ∀ u, ¬ (s.loc u).held new := fun u hu => hnode new ((h.loc u).node hu) rfl
  refine h.of_grows hg hloc' (by rw [hs']; exact Function.update_of_ne hne.symm ..) (hstage head hne.symm)
    (fun p level hp => ?_) (fun p level q hp hq => ?_) (fun p hp => .inl ?_) (fun u x v' hu p hp hx => ?_) ?_
    (fun u hu p hp => ?_) ?_
  · by_cases hpn : p = new
    · exact .inr (by rw [hpn, hstage', Function.update_self])
    · rw [hvalid', Function.update_of_ne hpn] at hp
      exact (h.validNode p level hp).grows hg
  · by_cases hpn : p = new
    · subst hpn
      rw [hvalid', Function.update_self] at hp
      rw [hnext', Function.update_self, if_pos (of_decide_eq_true hp)] at hq
      cases hq
    · rw [hvalid', Function.update_of_ne hpn] at hp
      rw [hnext', Function.update_of_ne hpn] at hq
      exact .inl ⟨hp, hq⟩
  · have hpn : p ≠ new := fun hpn => hp.2 t v (by rw [hloc', Function.update_self, hpn]; rfl)
    exact ⟨(hstage p hpn).symm.trans hp.1, fun u v' hu => hp.2 u v' ((hlinking u p v' hpn).mpr hu)⟩
  · by_cases hpn : p = new
    · rw [hpn, hzero] at hp
      cases hp
    · rw [hvalid', Function.update_of_ne hpn] at hp
      rw [hnext', Function.update_of_ne hpn] at hx
      have hxn : x ≠ new := hin x (h.link p 0 x hp hx).1
      exact h.linking u x v' ((hlinking u x v' hxn).mp hu) p hp hx
  · have hlock' : s'.lock = Function.update s.lock new (some t) := by rw [hs']; rfl
    rw [hlock']
    exact h.lock.take hloc' hfree fun p => by rw [hloc]; rfl
  · have hpn : p ≠ new := fun hpn => by
      rw [hpn, hgiven] at hp
      exact hu (Stage.given.inj hp).symm
    exact (hstage p hpn).trans hp
  · have hne' : Entries head s' (s'.key new) v.update := by
      rw [hkey', hkey]
      exact he.grows hg
    refine ⟨⟨hne', by rw [hstage', Function.update_self], hne, hlt, htop, fun level h1 h2 => ?_⟩,
      fun l hl => absurd hl (Nat.not_lt_zero l), Nat.zero_le _⟩
    rw [hvalid', Function.update_self]
    exact decide_eq_true ⟨h1, h2⟩

/-- A link of the new node is copied. -/
theorem step_linkRead (hloc : s.loc t = .linkRead new toplevel level v) (hrises : Rises s t) : Inv E head s' := by
  obtain ⟨hlk, hvn, hlevel⟩ : LocInv E head s t (.linkRead new toplevel level v) := hloc ▸ h.loc t
  have hbelow : ∀ j p, v.update j = some p → Below head s p new := fun j p hj =>
    hlk.entries.below hlk.ne rfl hj
  rw [stepThread, hloc] at hs
  dsimp only at hs
  split at hs
  · next hle =>
    obtain ⟨slp, hu, hs⟩ := Option.bind_eq_some_iff.mp hs
    have hlarger : ∀ q, s.next slp level = some q → s.key new < s.key q := by
      rw [Rises, hloc] at hrises
      exact hrises hle slp hu
    have hvs : s.valid slp level = true := hlk.entries.upto level slp hu level le_rfl
    have hs' := (Option.some.inj hs).symm
    have hloc' : s'.loc = Function.update s.loc t (.linkStore new toplevel level slp v) := by rw [hs']; rfl
    have hvalid' : ∀ p i, s'.valid p i = true ↔ p = new ∧ i = level ∨ s.valid p i = true := fun p i => by
      rw [hs']
      change Function.update s.valid new (Function.update (s.valid new) level true) p i = true ↔ _
      by_cases hp : p = new
      · subst hp
        by_cases hi : i = level <;> simp [hi]
      · simp [hp]
    have hnext' : ∀ p i, s'.next p i = if p = new ∧ i = level then s.next slp level else s.next p i := fun p i => by
      rw [hs']
      exact setNext_next i
    have hlinking : ∀ u, (s'.loc u).linking = (s.loc u).linking :=
      proj_update hloc' Loc.linking (by rw [hloc]; rfl)
    have hg : Grows s s' := by
      refine ⟨fun p _ => by rw [hs']; rfl, fun p hp => by rw [hs']; exact hp,
        fun p i hp => (hvalid' p i).mpr (.inr hp), fun p hp => ⟨by rw [hs']; exact hp.1, fun u v' hu => ?_⟩⟩
      exact hp.2 u v' ((hlinking u).symm.trans hu)
    have hlock' : s'.lock = s.lock := by rw [hs']; rfl
    refine h.of_grows hg hloc' (by rw [hs']; rfl) (by rw [hs']; rfl) (fun p i hp => ?_) (fun p i q hp hq => ?_)
      (fun p hp => .inl ⟨by have := hp.1; rwa [hs'] at this, fun u v' hu => hp.2 u v' ((hlinking u).trans hu)⟩)
      (fun w x v' hw p hp hx => ?_) (hlock' ▸ h.lock.keep hloc' fun p => by rw [hloc]; rfl)
      (fun u _ p hp => by rw [hs']; exact hp) ?_
    · rcases (hvalid' p i).mp hp with ⟨rfl, -⟩ | hp
      · exact .inr (hg.inList p hlk.stage)
      · exact (h.validNode p i hp).grows hg
    · rw [hnext'] at hq
      split at hq
      · next he =>
        obtain ⟨rfl, rfl⟩ := he
        obtain ⟨h1, h2, -⟩ := h.link slp i q hvs hq
        have hpq : Below head s p q := ⟨h.ne_head h1, .inr (hlarger q hq)⟩
        exact .inr ⟨hg.inList q h1, fun l hl => hg.valid q l (h2 l hl), hpq.grows hg (.inr hlk.stage) h1⟩
      · next he =>
        rcases (hvalid' p i).mp hp with hp | hp
        · exact absurd hp he
        · exact .inl ⟨hp, hq⟩
    · rw [hlinking] at hw
      rw [hnext'] at hx
      split at hx
      · next he =>
        obtain ⟨rfl, h0⟩ := he
        subst h0
        -- who links the node behind has locked the node before, so it is this thread
        have hup : (s.loc w).held slp := (linking_held hw).2 slp ⟨0, h.linking w x v' hw slp hvs hx⟩
        have htp : (s.loc t).held slp := by
          rw [hloc]
          exact .inl ⟨0, hu⟩
        rw [h.held_eq htp hup, hloc] at hw
        cases hw
        exact absurd (hlarger _ hx) (lt_irrefl _)
      · next he =>
        rcases (hvalid' p 0).mp hp with hp | hp
        · exact absurd hp he
        · exact h.linking w x v' hw p hp hx
    · refine ⟨hlk.grows hg, fun l hl => ?_, hle, hu⟩
      rcases hl.eq_or_lt with rfl | hl
      · exact (hvalid' new l).mpr (.inl ⟨rfl, rfl⟩)
      · exact hg.valid new l (hvn l hl)
  · next hgt =>
    cases hs
    have hafter : AfterInv head s t v.Notes (.unlock new) := by
      refine ⟨.inr hlk.stage, fun p ⟨j, hj⟩ he => ?_⟩
      exact Below.irrefl (he ▸ hbelow j p hj)
    have hstands : Stands E head s t (fun p => v.Notes p ∨ p = new) (.unlock (.unlock new) 0 toplevel none v.update) :=
      unlock_stands hlk.entries (fun _ => hlk.le) hafter
    refine h.of_next rfl rfl rfl rfl rfl rfl (.inr ⟨rfl, fun x v' hx level hl => ?_⟩)
      (h.lock.keep rfl fun p => (hstands.held p).trans (by rw [hloc]; rfl)) hstands.loc
    rw [hloc] at hx
    cases hx
    by_cases hlt : level ≤ toplevel
    · exact hvn level (by omega)
    · exact hlk.above level (not_le.mp hlt) hl

/-- The new node is stored behind the one that was noted. -/
theorem step_linkStore (hloc : s.loc t = .linkStore new toplevel level slp v) : Inv E head s' := by
  obtain ⟨hlk, hvn, hle, hu⟩ : LocInv E head s t (.linkStore new toplevel level slp v) := hloc ▸ h.loc t
  have hbelow : Below head s slp new := hlk.entries.below hlk.ne rfl hu
  have hvnext : ∀ l < level + 1, s.valid new l = true := fun l hl => hvn l (Nat.le_of_lt_succ hl)
  rw [stepThread, hloc] at hs
  dsimp only at hs
  split at hs
  · cases hs
  · cases hs
    refine h.stores ⟨hlk, hvnext, Nat.succ_le_succ hle⟩ (by rw [hloc]; rfl) (fun p => by rw [hloc]; rfl)
      (fun q hq => ?_) fun h0 q hq w v' hw => ?_
    · cases hq
      exact ⟨hlk.stage, hvn, hbelow⟩
    · -- no other thread links the same node
      cases hq
      have hheld : (s.loc t).held new := by
        rw [hloc]
        exact .inr rfl
      rw [h.held_eq hheld (linking_held hw).1, hloc] at hw
      cases hw
      exact h0 ▸ hu

/-! ### Balancing -/

theorem step_balFirst (hloc : s.loc t = .balFirst key newlevel v) : Inv E head s' := by
  obtain ⟨he, hn⟩ : LocInv E head s t (.balFirst key newlevel v) := hloc ▸ h.loc t
  rw [stepThread, hloc] at hs
  obtain ⟨slp, hu, hs⟩ := Option.bind_eq_some_iff.mp hs
  have hheld : (s.loc t).held slp := by
    rw [hloc]
    exact ⟨0, hu⟩
  cases hx : s.next slp 0 with
  | none =>
    rw [hx] at hs
    cases hs
    exact h.goes hloc rfl (unlock_done h he)
  | some x =>
    rw [hx] at hs
    cases hs
    refine h.goes hloc rfl ?_
    split
    · next hkey =>
      have hsx : Settled s x := h.settled_next (by rw [hloc]; rfl) hheld (he.upto 0 slp hu 0 le_rfl) hx
      exact ⟨⟨⟨by rw [hkey]; exact he, hsx.1, h.complete x hsx⟩, hn⟩, fun p => Iff.rfl, rfl⟩
    · exact unlock_done h he

theorem step_balTop (hloc : s.loc t = .balTop x newlevel v) : Inv E head s' := by
  obtain ⟨hf, hn⟩ : LocInv E head s t (.balTop x newlevel v) := hloc ▸ h.loc t
  rw [stepThread, hloc] at hs
  cases hs
  refine h.goes hloc rfl ?_
  split
  · exact unlock_done h hf.entries
  · split
    · exact ⟨⟨hf, hn⟩, fun p => Iff.rfl, rfl⟩
    · exact ⟨⟨hf, hn, Nat.succ_pos _⟩, fun p => Iff.rfl, rfl⟩

theorem step_balDown (hloc : s.loc t = .balDown x newlevel level v) : Inv E head s' := by
  obtain ⟨hf, hn⟩ : LocInv E head s t (.balDown x newlevel level v) := hloc ▸ h.loc t
  rw [stepThread, hloc] at hs
  dsimp only at hs
  split at hs
  · next hgt =>
    obtain ⟨slp, hu, hs⟩ := Option.bind_eq_some_iff.mp hs
    cases hs
    refine h.stores ⟨hf, hn⟩ (by rw [hloc]; rfl) (fun p => by rw [hloc]; rfl) (fun q hq => ?_)
      fun h0 => absurd (h0 ▸ hgt) (Nat.not_lt_zero _)
    obtain ⟨h1, h2, h3⟩ := h.link x level q (hf.complete level (hf.entries.lt level slp hu)) hq
    exact ⟨h1, h2, (hf.entries.below (h.ne_head hf.stage) rfl hu).trans h3⟩
  · cases hs
    exact h.goes hloc rfl ⟨⟨hf, hn⟩, fun p => Iff.rfl, rfl⟩

theorem step_balUp (hloc : s.loc t = .balUp x newlevel level v) (hrises : Rises s t) : Inv E head s' := by
  obtain ⟨hf, hn, h0⟩ : LocInv E head s t (.balUp x newlevel level v) := hloc ▸ h.loc t
  rw [stepThread, hloc] at hs
  dsimp only at hs
  split at hs
  · next hle =>
    obtain ⟨slp, hu, hs⟩ := Option.bind_eq_some_iff.mp hs
    have hlarger : ∀ q, s.next slp level = some q → s.key x < s.key q := by
      rw [Rises, hloc] at hrises
      exact hrises hle slp hu
    cases hs
    refine h.stores ⟨hf, hn, h0, hle, hu⟩ (by rw [hloc]; rfl) (fun p => by rw [hloc]; rfl) (fun q hq => ?_)
      fun hz => absurd hz h0.ne'
    obtain ⟨h1, h2, -⟩ := h.link slp level q (hf.entries.upto level slp hu level le_rfl) hq
    exact ⟨h1, h2, h.ne_head h1, .inr (hlarger q hq)⟩
  · cases hs
    exact h.goes hloc rfl ⟨⟨hf, hn⟩, fun p => Iff.rfl, rfl⟩

theorem step_balStore (hloc : s.loc t = .balStore x newlevel level slp v) : Inv E head s' := by
  obtain ⟨hf, hn, h0, hle, hu⟩ : LocInv E head s t (.balStore x newlevel level slp v) := hloc ▸ h.loc t
  rw [stepThread, hloc] at hs
  cases hs
  refine h.stores ⟨hf, hn, Nat.succ_pos _⟩ (by rw [hloc]; rfl) (fun p => by rw [hloc]; rfl) (fun q hq => ?_)
    fun hz => absurd hz h0.ne'
  cases hq
  exact ⟨hf.stage, fun l hl => hf.complete l (hl.trans_lt (hf.entries.lt level slp hu)),
    hf.entries.below (h.ne_head hf.stage) rfl hu⟩

theorem step_balSet (hloc : s.loc t = .balSet x newlevel v) : Inv E head s' := by
  obtain ⟨hf, -⟩ : LocInv E head s t (.balSet x newlevel v) := hloc ▸ h.loc t
  rw [stepThread, hloc] at hs
  cases hs
  have hstands : Stands E head s t v.Notes (.unlock .done 0 (s.toplevel head) none v.update) :=
    unlock_done h hf.entries
  refine h.of_next rfl rfl rfl rfl (Function.update_of_ne (h.ne_head hf.stage).symm ..) rfl
    (.inl (by rw [hloc]; rfl)) (h.lock.keep rfl fun p => ?_) hstands.loc
  rw [hloc]
  exact hstands.held p

/-! ### Lookups -/

theorem step_prevLock (hloc : s.loc t = .prevLock key slp) : Inv E head s' := by
  have hl : LocInv E head s t (.prevLock key slp) := hloc ▸ h.loc t
  rw [stepThread, hloc] at hs
  dsimp only at hs
  split at hs
  · cases hs
  · next hfree =>
    cases hs
    exact h.takes hloc rfl (not_not.mp hfree) ⟨hl, fun p => (or_iff_right id).symm, rfl⟩

theorem step_prevDeleted (hloc : s.loc t = .prevDeleted key slp) : Inv E head s' := by
  have hl : LocInv E head s t (.prevDeleted key slp) := hloc ▸ h.loc t
  rw [stepThread, hloc] at hs
  cases hs
  refine h.goes hloc rfl ?_
  split
  · exact ⟨⟨hl.1, trivial⟩, fun p => or_iff_left id, rfl⟩
  · exact ⟨hl, fun p => Iff.rfl, rfl⟩

theorem step_prevNext (hloc : s.loc t = .prevNext key slp) : Inv E head s' := by
  have hl : LocInv E head s t (.prevNext key slp) := hloc ▸ h.loc t
  rw [stepThread, hloc] at hs
  dsimp only at hs
  cases hnext : s.next slp 0 with
  | none =>
    rw [hnext] at hs
    cases hs
    exact h.goes hloc rfl ⟨⟨hl.1, trivial⟩, fun p => or_iff_left id, rfl⟩
  | some cur =>
    obtain ⟨h1, -, h3⟩ := h.link slp 0 cur hl.2 hnext
    rw [hnext] at hs
    cases hs
    exact h.goes hloc rfl ⟨⟨hl.1, h1, h3⟩, fun p => Iff.rfl, rfl⟩

theorem step_curDeleted (hloc : s.loc t = .curDeleted key slp cur) : Inv E head s' := by
  have hl : LocInv E head s t (.curDeleted key slp cur) := hloc ▸ h.loc t
  have hdone : Stands E head s t (fun p => p = slp) (.unlockOne slp .done) :=
    ⟨⟨hl.1, trivial⟩, fun p => or_iff_left id, rfl⟩
  rw [stepThread, hloc] at hs
  cases hs
  refine h.goes hloc rfl ?_
  split
  · exact hdone
  · split
    · exact ⟨⟨hl.1, trivial⟩, fun p => or_iff_left id, rfl⟩
    · split
      · exact ⟨hl, fun p => Iff.rfl, rfl⟩
      · exact hdone

theorem step_curLock (hloc : s.loc t = .curLock slp cur) : Inv E head s' := by
  obtain ⟨hn, hin, hbelow⟩ : LocInv E head s t (.curLock slp cur) := hloc ▸ h.loc t
  have hne : slp ≠ cur := fun he => Below.irrefl (he ▸ hbelow)
  rw [stepThread, hloc] at hs
  dsimp only at hs
  split at hs
  · cases hs
  · next hfree =>
    cases hs
    exact h.takes hloc rfl (not_not.mp hfree)
      ⟨⟨hn, .inr hin, fun p hp => hp ▸ hne⟩, fun p => Iff.rfl, rfl⟩

/-! ### All steps -/

/-- **A step keeps the invariant**, when it keeps the order, and all that was locked is released. -/
theorem step (hrises : Rises s t) (hsorts : E → Sorts s t) : Inv E head s' := by
  cases hloc : s.loc t with
  | idle | has =>
    rw [stepThread, hloc] at hs
    cases hs
  | walk => exact h.step_walk hs hloc
  | lock => exact h.step_lock hs hloc
  | look => exact h.step_look hs hloc
  | lookUp => exact h.step_lookUp hs hloc
  | checkTop => exact h.step_checkTop hs hloc
  | check => exact h.step_check hs hloc
  | lockCur => exact h.step_lockCur hs hloc
  | unlinkTop => exact h.step_unlinkTop hs hloc
  | unlinkRead => exact h.step_unlinkRead hs hloc
  | unlinkStore => exact h.step_unlinkStore hs hloc
  | setDeleted => exact h.step_setDeleted hs hloc
  | unlockTop => exact h.step_unlockTop hs hloc hsorts
  | unlock => exact h.step_unlock hs hloc
  | unlockOne => exact h.step_unlockOne hs hloc
  | verify => exact h.step_verify hs hloc
  | first => exact h.step_first hs hloc
  | initNew => exact h.step_initNew hs hloc
  | linkRead => exact h.step_linkRead hs hloc hrises
  | linkStore => exact h.step_linkStore hs hloc
  | balFirst => exact h.step_balFirst hs hloc
  | balTop => exact h.step_balTop hs hloc
  | balDown => exact h.step_balDown hs hloc
  | balUp => exact h.step_balUp hs hloc hrises
  | balStore => exact h.step_balStore hs hloc
  | balSet => exact h.step_balSet hs hloc
  | prevLock => exact h.step_prevLock hs hloc
  | prevDeleted => exact h.step_prevDeleted hs hloc
  | prevNext => exact h.step_prevNext hs hloc
  | curDeleted => exact h.step_curDeleted hs hloc
  | curLock => exact h.step_curLock hs hloc

end Inv

/-! ### Calls -/

theorem Inv.start_insert (h : Inv E head s) (hnone : (s.loc t).linking = none)
    (hE : E → ∀ p, ¬ (s.loc t).held p) (hfree : s.stage new = .free) (hne : new ≠ head) (hlt : toplevel < maxLevels) :
    Inv E head ({ s with
      key := Function.update s.key new key
      stage := Function.update s.stage new (.given t) }.goto t (search head s (.insert new key toplevel))) := by
  generalize hs' : ({ s with
    key := Function.update s.key new key
    stage := Function.update s.stage new (.given t) } : St n ν K).goto t
      (search head s (.insert new key toplevel)) = s'
  have hloc' : s'.loc = Function.update s.loc t (search head s (.insert new key toplevel)) := by rw [← hs']; rfl
  have hstage' : s'.stage = Function.update s.stage new (.given t) := by rw [← hs']; rfl
  have hkey' : s'.key = Function.update s.key new key := by rw [← hs']; rfl
  have hold : ∀ p a, s.stage p = a → a ≠ .free → s'.stage p = a := fun p a hp ha => by
    have hpn : p ≠ new := fun he => ha (hp.symm.trans (he ▸ hfree))
    rw [hstage', Function.update_of_ne hpn, hp]
  have hlinking : ∀ u, (s'.loc u).linking = (s.loc u).linking :=
    proj_update hloc' Loc.linking hnone.symm
  have hg : Grows s s' := by
    refine ⟨fun p hp => ?_, fun p hp => hold p _ hp nofun, fun p level hp => by rw [← hs']; exact hp,
      fun p hp => ⟨hold p _ hp.1 nofun, fun u v hu => hp.2 u v ((hlinking u).symm.trans hu)⟩⟩
    have hpn : p ≠ new := fun he => hp (he ▸ hfree)
    rw [hkey', Function.update_of_ne hpn]
  have hvalid : ∀ p level, s'.valid p level = true → s.valid p level = true := fun p level hp => by
    rwa [← hs'] at hp
  have hnext : ∀ p level, s'.next p level = s.next p level := fun p level => by rw [← hs']; rfl
  have hmine : Mine head s' t (.insert new key toplevel) :=
    ⟨by rw [hstage', Function.update_self], by rw [hkey', Function.update_self], hne, hlt⟩
  have htop : s'.toplevel = s.toplevel := by rw [← hs']; rfl
  have hstands : Stands E head s' t (fun _ => False) (search head s' (.insert new key toplevel)) :=
    search_stands ((congrFun htop head).trans h.top) (fun l hl => hg.valid head l (h.headValid l hl)) hmine
  have hsearch : search head s' (.insert new key toplevel) = search head s (.insert new key toplevel) := by
    rw [search, search, htop]
  have hlock' : s'.lock = s.lock := by rw [← hs']; rfl
  refine h.of_grows hg hloc' (congrFun htop head) (by rw [hstage', Function.update_of_ne hne.symm])
    (fun p level hp => (h.validNode p level (hvalid p level hp)).grows hg)
    (fun p level q hp hq => .inl ⟨hvalid p level hp, (hnext p level).symm.trans hq⟩) (fun p hp => .inl ?_)
    (fun u x v hu p hp hx => h.linking u x v ((hlinking u).symm.trans hu) p (hvalid p 0 hp)
      ((hnext p 0).symm.trans hx))
    (hlock' ▸ h.lock.stay hloc' (fun p hp => ((hstands.held p).mp (hsearch ▸ hp)).elim)
      fun he p hp => (hE he p hp).elim) (fun u _ p hp => hold p _ hp nofun) (hsearch ▸ hstands.loc)
  · refine ⟨?_, fun u v hu => hp.2 u v ((hlinking u).trans hu)⟩
    have hin := hp.1
    rw [hstage'] at hin
    by_cases hpn : p = new
    · rw [hpn, Function.update_self] at hin
      cases hin
    · rwa [Function.update_of_ne hpn] at hin

omit [LinearOrder K] in
/-- A thread that starts a call is between two calls. -/
theorem start_from (hs : Par.start head s t c = some s') :
    s.loc t = .idle ∨ ∃ slp, s.loc t = .has slp := by
  unfold Par.start at hs
  split at hs
  · next hloc => exact .inl hloc
  · next slp hloc => exact .inr ⟨slp, hloc⟩
  · cases hs

omit [LinearOrder K] in
theorem start_deleted (hs : Par.start head s t c = some s') : s'.deleted = s.deleted := by
  unfold Par.start at hs
  split at hs
  all_goals try cases hs
  all_goals
    cases c with
    | insert new key toplevel | balance key newlevel =>
      dsimp only at hs
      split at hs <;> cases hs
      rfl
    | _ =>
      cases hs
      rfl

/-- **A call keeps the invariant**, when a thread that calls has locked nothing. -/
theorem Inv.start (h : Inv E head s) (hs : Par.start head s t c = some s') (hE : E → s.loc t = .idle) :
    Inv E head s' := by
  have hfrom := start_from hs
  have hnone : (s.loc t).linking = none := by
    rcases hfrom with hloc | ⟨slp, hloc⟩ <;> rw [hloc] <;> rfl
  have hfree : E → ∀ p, ¬ (s.loc t).held p := fun he p hp => by
    rw [hE he] at hp
    exact hp
  have hgo : ∀ {c}, Mine head s t c → Inv E head (s.goto t (search head s c)) := fun hm => by
    have hstands := search_stands (E := E) h.top h.headValid hm
    exact h.leaves rfl hnone hstands.loc hstands.linking (fun p hp => ((hstands.held p).mp hp).elim)
      fun he p hp => (hfree he p hp).elim
  cases c with
  | insert new key toplevel =>
    obtain ⟨hnew, rfl⟩ : (s.stage new = .free ∧ new ≠ head ∧ toplevel < maxLevels) ∧
        ({ s with
          key := Function.update s.key new key
          stage := Function.update s.stage new (.given t) } : St n ν K).goto t
            (search head s (.insert new key toplevel)) = s' := by
      unfold Par.start at hs
      rcases hfrom with hloc | ⟨slp, hloc⟩ <;>
      · rw [hloc] at hs
        dsimp only at hs
        split at hs
        · next hnew => exact ⟨hnew, Option.some.inj hs⟩
        · cases hs
    exact h.start_insert hnone hfree hnew.1 hnew.2.1 hnew.2.2
  | delete key | lookupLock key =>
    unfold Par.start at hs
    rcases hfrom with hloc | ⟨slp, hloc⟩ <;>
    · rw [hloc] at hs
      cases hs
      exact hgo trivial
  | balance key newlevel =>
    unfold Par.start at hs
    rcases hfrom with hloc | ⟨slp, hloc⟩ <;>
    · rw [hloc] at hs
      dsimp only at hs
      split at hs
      · next hlt =>
        cases hs
        exact hgo hlt
      · cases hs

/-- A thread unlocks the node that was returned to it: it has no other locks. -/
theorem Inv.release (h : Inv E head s) (hE : E) (hs : Par.release s t slp = some s') : Inv E head s' := by
  unfold Par.release at hs
  split at hs
  · next hlock =>
    have hheld : (s.loc t).held slp := h.lock.only hE t slp hlock
    split at hs
    · next hloc =>
      rw [hloc] at hheld
      exact hheld.elim
    · next cur hloc =>
      have hcur : slp = cur := by
        rw [hloc] at hheld
        exact hheld
      rw [if_pos hcur] at hs
      cases hs
      have hidle : LocInv E head s t .idle := trivial
      exact h.drops hloc rfl hcur ⟨hidle, fun p => ⟨False.elim, fun hp => hp.2 (hp.1.trans hcur.symm)⟩, rfl⟩
    · cases hs
  · cases hs

omit [DecidableEq ν] in
theorem inv_init (h : Init head s) : Inv E head s where
  top := h.toplevel
  headFree := h.stage head
  headValid level hl := (h.valid head level).mpr ⟨rfl, hl⟩
  validNode p level hp := .inl ((h.valid p level).mp hp).1
  link p level q hp hq := by
    obtain ⟨rfl, hl⟩ := (h.valid p level).mp hp
    rw [h.next level hl] at hq
    cases hq
  complete p hp := nomatch (h.stage p).symm.trans hp.1
  linking t x v hx := by
    rw [h.loc t] at hx
    cases hx
  lock := by
    refine ⟨fun t p hp => ?_, fun _ t p hp => ?_⟩
    · rw [h.loc t] at hp
      exact hp.elim
    · rw [h.lock p] at hp
      cases hp
  loc t := by
    rw [h.loc t]
    trivial

end Par
end Skip
end Perfbook
