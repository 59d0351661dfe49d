/-
# Each step of a thread keeps the levels in order

Most steps store nothing (`Shape.moves`, `Shape.goes`). A deletion that has noted a
node for each level finds its node linked on all of them (`Shape.step_unlinkTop`),
and takes it off level by level; an insertion puts its node on, from level 0 up.

Key theorems: `Shape.goes`, `Shape.step`, `Shape.start`.
-/
import Perfbook.Skip.ShapeInv

namespace Perfbook
namespace Skip
namespace Relaxed

open Par Conc

variable {n : ℕ} {ν K : Type} [DecidableEq ν] [LinearOrder K] {E : Prop} {head : ν} {s s' : St n ν K}
  {on on' : ν → ℕ → Bool} {t u : Fin n} {l place : Loc ν K} {p q x y cur slp new : ν} {key : K}
  {level i j m toplevel : ℕ} {c : Call ν K} {v : Vars ν} {o next last : Option ν} {after : After ν K}
  {update : ℕ → Option ν}

/-! ### Where a thread goes -/

section

omit [DecidableEq ν]

theorem after_shape (h : AfterUpdates after) : LocShape s on (after.loc head s) := by
  cases after with
  | retry c => exact h
  | unlock x => exact trivial
  | hold x => exact h.elim
  | done => exact trivial

theorem advance_shape (hc : Updates c) : LocShape s on (advance head s c level slp v) := by
  cases level with
  | succ level => exact hc
  | zero =>
    cases c with
    | insert new key toplevel => exact fun j _ hj => absurd hj (Nat.not_lt_zero j)
    | delete key =>
      rw [advance, finish]
      split
      · exact trivial
      · split <;> exact trivial
    | _ => exact hc.elim

theorem locked_shape (hc : Updates c) : LocShape s on (locked head s c level slp next v) := by
  cases c with
  | insert new key toplevel => exact trivial
  | delete key => exact trivial
  | _ => exact hc.elim

theorem again_shape (ha : again c next v = some l) (hc : Updates c) : LocShape s on l := by
  cases c with
  | insert new key toplevel =>
    cases ha
    exact hc
  | delete key =>
    obtain ⟨cur, -, rfl⟩ := Option.map_eq_some_iff.mp ha
    exact hc
  | _ => cases ha

end

theorem body_shape (hc : Updates c) : LocShape s on (body head s c level slp next v) := by
  cases c with
  | insert new key toplevel =>
    rw [body]
    split
    · exact advance_shape hc
    · split
      · exact hc
      · exact advance_shape hc
  | delete key =>
    rw [body]
    split
    · split
      · exact hc
      · exact advance_shape hc
    · exact advance_shape hc
  | _ => exact hc.elim

/-! ### Steps that store nothing -/

section

variable (hi : Inv E head s) (h : Shape head s on)
include hi h

/-- A thread goes on, or takes or releases a lock. -/
theorem Shape.goes {lock : ν → Option (Fin n)} (hloc : s.loc t = place) (hl : LocShape s on l)
    (hbusy : ∀ p, Busy p place → Busy p l ∨ ∀ i ≤ s.toplevel p, on p i = true) :
    Next head s on ({ s with lock := lock }.goto t l) on := by
  subst hloc
  refine ⟨?_, .quiet ⟨fun _ _ => rfl, fun _ => id, fun _ _ => id, fun _ _ _ => rfl⟩⟩
  refine h.of_step hi rfl (h.chains.keeps hi (fun _ _ => rfl) (fun _ _ hp => hp) (fun _ _ => rfl) (fun _ _ _ => rfl)
    h.chains.above) (fun _ _ => rfl) (fun _ _ => rfl) (fun _ _ _ => ⟨rfl, rfl, rfl, rfl⟩) (fun p h1 h2 h3 => ?_) hl
  by_cases hb : Busy p (s.loc t)
  · exact .inr ((hbusy p hb).resolve_left h3)
  · exact .inl ⟨h1, h2, hb, rfl⟩

theorem Shape.moves (hloc : s.loc t = place) (hb : ∀ p, ¬ Busy p place) (hl : LocShape s on l) :
    Next head s on (s.goto t l) on :=
  h.goes hi hloc hl fun p hp => absurd hp (hb p)

variable (hs : stepThread head s t = some s')
include hs

theorem Shape.step_walk (hloc : s.loc t = .walk c level slp v) : Next head s on s' on := by
  have hc : Updates c := (hloc ▸ h.loc t : LocShape s on (.walk c level slp v))
  rw [stepThread, hloc] at hs
  dsimp only at hs
  cases hnext : s.next slp level with
  | none =>
    rw [hnext] at hs
    cases hs
    exact h.moves hi hloc (fun _ => id) (body_shape hc)
  | some q =>
    rw [hnext] at hs
    cases hs
    refine h.moves hi hloc (fun _ => id) ?_
    split
    · exact hc
    · exact body_shape hc

theorem Shape.step_look (hloc : s.loc t = .look c level slp next v) : Next head s on s' on := by
  have hc : Updates c := (hloc ▸ h.loc t : LocShape s on (.look c level slp next v))
  rw [stepThread, hloc] at hs
  dsimp only at hs
  split at hs
  · obtain ⟨l, ha, rfl⟩ := Option.map_eq_some_iff.mp hs
    exact h.moves hi hloc (fun _ => id) (again_shape ha hc)
  · cases hs
    exact h.moves hi hloc (fun _ => id) hc

theorem Shape.step_lookUp (hloc : s.loc t = .lookUp c level slp next v) : Next head s on s' on := by
  have hc : Updates c := (hloc ▸ h.loc t : LocShape s on (.lookUp c level slp next v))
  rw [stepThread, hloc] at hs
  dsimp only at hs
  split at hs
  · obtain ⟨l, ha, rfl⟩ := Option.map_eq_some_iff.mp hs
    exact h.moves hi hloc (fun _ => id) (again_shape ha hc)
  · cases hs
    exact h.moves hi hloc (fun _ => id) (advance_shape hc)

theorem Shape.step_lock (hloc : s.loc t = .lock c level slp next v) : Next head s on s' on := by
  have hc : Updates c := (hloc ▸ h.loc t : LocShape s on (.lock c level slp next v))
  rw [stepThread, hloc] at hs
  dsimp only at hs
  split at hs
  · cases hs
  · cases hs
    exact h.goes hi hloc (locked_shape hc) fun p hp => hp.elim

theorem Shape.step_unlock (hloc : s.loc t = .unlock after level toplevel last update) : Next head s on s' on := by
  have ha : AfterUpdates after := (hloc ▸ h.loc t : LocShape s on (.unlock after level toplevel last update))
  rw [stepThread, hloc] at hs
  dsimp only at hs
  split at hs
  · cases hl : update level with
    | none =>
      rw [hl] at hs
      cases hs
      exact h.moves hi hloc (fun _ => id) ha
    | some slp =>
      rw [hl] at hs
      dsimp only at hs
      split at hs
      · cases hs
        exact h.goes hi hloc ha fun p hp => hp.elim
      · cases hs
        exact h.moves hi hloc (fun _ => id) ha
  · cases hs
    exact h.moves hi hloc (fun _ => id) (after_shape ha)

/-! ### Deletions -/

theorem Shape.step_check (hloc : s.loc t = .check key cur level v) : Next head s on s' on := by
  have hc : Checked s cur v level := (hloc ▸ h.loc t : LocShape s on (.check key cur level v))
  rw [stepThread, hloc] at hs
  cases level with
  | zero =>
    cases hs
    exact h.moves hi hloc (fun _ => id) hc
  | succ level =>
    dsimp only at hs
    split at hs
    · cases hs
      exact h.moves hi hloc (fun _ => id) trivial
    · next hany =>
      cases hs
      refine h.moves hi hloc (fun _ => id) fun j p hj hjt hp => ?_
      rcases hj.eq_or_lt with rfl | hlt
      · rw [hp] at hany
        simpa using hany
      · exact hc j p hlt hjt hp

/-- With a node noted for each level, the node is linked on all of them. -/
theorem Shape.step_unlinkTop (hloc : s.loc t = .unlinkTop cur v)
    (hall : ∀ level < s.toplevel cur + 1, v.update level ≠ none) : Next head s on s' on := by
  have hc : Checked s cur v 0 := (hloc ▸ h.loc t : LocShape s on (.unlinkTop cur v))
  have hf : Found head s cur v := (hloc ▸ hi.loc t : LocInv E head s t (.unlinkTop cur v))
  have hpoints : Points s cur v (s.toplevel cur + 1) := fun j hj => by
    obtain ⟨p, hp⟩ := Option.ne_none_iff_exists'.mp (hall j hj)
    exact ⟨p, hp, hc j p (Nat.zero_le j) (Nat.le_of_lt_succ hj) hp⟩
  rw [stepThread, hloc] at hs
  cases hs
  refine h.moves hi hloc (fun _ => id) ⟨le_rfl, fun j => ?_, hpoints⟩
  by_cases hj : j < s.toplevel cur + 1
  · obtain ⟨p, hp, hd, hn⟩ := hpoints j hj
    have hjp : j ≤ s.toplevel p := not_lt.mp fun hlt => by
      rw [h.chains.above p j (hf.entries.node j p hp) hlt (hf.entries.lt j p hp)] at hn
      cases hn
    have hpo : on p j = true := h.alive hi (by rw [hloc]; exact .inl ⟨j, hp⟩) (by rw [hloc]; exact id) hd hjp
    rw [h.chains.next p j cur hpo hn, decide_eq_true hj]
  · rw [decide_eq_false hj]
    exact Bool.eq_false_iff.mpr fun ho => hj (Nat.lt_succ_of_le (h.chains.top cur j ho))

theorem Shape.step_unlinkRead (hloc : s.loc t = .unlinkRead cur level v) : Next head s on s' on := by
  obtain ⟨hlt, hon, hpoints⟩ : LocShape s on (.unlinkRead cur level v) := hloc ▸ h.loc t
  rw [stepThread, hloc] at hs
  cases level with
  | zero =>
    cases hs
    exact h.goes hi hloc (fun j => (hon j).trans (decide_eq_false (Nat.not_lt_zero j))) fun p hp => .inl hp
  | succ level =>
    obtain ⟨slp, hu, -⟩ := hpoints level (Nat.lt_succ_self level)
    dsimp only at hs
    rw [hu] at hs
    cases hs
    exact h.goes hi hloc ⟨Nat.le_of_succ_le_succ hlt, hon, hpoints, rfl⟩ fun p hp => .inl hp

theorem Shape.step_unlinkStore (hloc : s.loc t = .unlinkStore cur level slp next v) :
    Next head s on s' (setOn on cur level false) := by
  obtain ⟨hlt, hon, hpoints, hnext⟩ : LocShape s on (.unlinkStore cur level slp next v) := hloc ▸ h.loc t
  obtain ⟨hf, hu, -⟩ : LocInv E head s t (.unlinkStore cur level slp next v) := hloc ▸ hi.loc t
  obtain ⟨p, hp, hd, hlink⟩ := hpoints level (Nat.lt_succ_self level)
  obtain rfl : slp = p := Option.some.inj (hu.symm.trans hp)
  have hne : slp ≠ cur := fun he => Below.irrefl (he ▸ hf.entries.below (hi.ne_head hf.stage) rfl hu)
  have hjp : level ≤ s.toplevel slp := not_lt.mp fun hlt => by
    rw [h.chains.above slp level (hf.entries.node level slp hu) hlt (hf.entries.lt level slp hu)] at hlink
    cases hlink
  have hslp : on slp level = true :=
    h.alive hi (by rw [hloc]; exact .inl ⟨level, hu⟩) (by rw [hloc]; exact hne) hd hjp
  have hcur : on cur level = true := (hon level).trans (decide_eq_true (Nat.lt_succ_self level))
  rw [stepThread, hloc] at hs
  cases hs
  have hset : ∀ p i, ((s.setNext slp level next).goto t (.unlinkRead cur level v)).next p i =
      if p = slp ∧ i = level then s.next cur level else s.next p i := fun p i => by
    rw [← hnext]
    exact setNext_next i
  refine ⟨h.of_step hi rfl (h.chains.unlink hi hslp rfl rfl rfl rfl hset hcur hlink (hi.ne_head hf.stage)
    fun j hj => (hon j).trans (decide_eq_false (not_lt.mpr hj))) (fun _ _ => rfl) (fun _ _ => rfl) (fun p hp _ => ?_)
    (fun p h1 h2 h3 => .inl ⟨h1, h2, by rw [hloc]; exact h3, ?_⟩) ⟨Nat.le_succ_of_le hlt, fun j => ?_, fun j hj => ?_⟩,
    .unlink slp cur level rfl rfl rfl hset hslp hcur hlink⟩
  · have hps : p ≠ slp := fun he => hp (by rw [hloc]; exact .inl (he ▸ ⟨level, hu⟩))
    have hpc : p ≠ cur := fun he => hp (by rw [hloc]; exact .inr he)
    exact ⟨Function.update_of_ne hps .., rfl, Function.update_of_ne hpc .., rfl⟩
  · exact Function.update_of_ne h3 ..
  · rw [setOn_apply]
    split
    · next he => exact (decide_eq_false (he.2 ▸ lt_irrefl _)).symm
    · next he =>
      have hjl : j ≠ level := fun hj => he ⟨rfl, hj⟩
      rw [hon j]
      exact decide_eq_decide.mpr (by omega)
  · obtain ⟨p, hp, hd, hl⟩ := hpoints j (Nat.lt_succ_of_lt hj)
    refine ⟨p, hp, hd, ?_⟩
    rw [← hl]
    exact (setNext_next j).trans (if_neg fun hc => hj.ne hc.2)

theorem Shape.step_setDeleted (hloc : s.loc t = .setDeleted cur v) : Next head s on s' on := by
  rw [stepThread, hloc] at hs
  cases hs
  refine ⟨h.of_step hi rfl (h.chains.keeps hi (fun _ _ => rfl) (fun _ _ hp => hp) (fun _ _ => rfl) (fun _ _ _ => rfl)
    h.chains.above) (fun _ _ => rfl) (fun _ _ => rfl) (fun p hp _ => ?_) (fun p h1 h2 h3 => .inl ?_) trivial,
    .quiet ⟨fun _ _ => rfl, fun _ => id, fun _ _ => id, fun _ _ _ => rfl⟩⟩
  · have hpc : p ≠ cur := fun he => hp (by rw [hloc]; exact .inr he)
    exact ⟨rfl, Function.update_of_ne hpc .., rfl, rfl⟩
  · have hpc : p ≠ cur := fun he => by
      rw [he] at h2
      cases h2.symm.trans (Function.update_self ..)
    exact ⟨h1, (Function.update_of_ne hpc ..).symm.trans h2, by rw [hloc]; exact hpc, rfl⟩

/-! ### Insertions -/

theorem Shape.step_verify (hloc : s.loc t = .verify new key toplevel level v) : Next head s on s' on := by
  have hlive : Lives s key v 0 level := (hloc ▸ h.loc t : LocShape s on (.verify new key toplevel level v))
  rw [stepThread, hloc] at hs
  dsimp only at hs
  split at hs
  · obtain ⟨slp, hu, hs⟩ := Option.bind_eq_some_iff.mp hs
    split at hs
    · cases hs
      exact h.moves hi hloc (fun _ => id) trivial
    · next hno =>
      cases hs
      refine h.moves hi hloc (fun _ => id) fun j h0 hj => ?_
      rcases (Nat.le_of_lt_succ hj).eq_or_lt with rfl | hlt
      · refine ⟨slp, hu, Bool.eq_false_iff.mpr fun hd => hno (.inl hd), fun q hq => not_lt.mp fun hlt => ?_⟩
        refine hno (.inr ?_)
        rw [hq]
        exact decide_eq_true hlt
      · exact hlive j h0 hlt
  · next hgt =>
    cases hs
    exact h.moves hi hloc (fun _ => id) fun j h0 hj => hlive j h0 (by omega)

theorem Shape.step_first (hloc : s.loc t = .first new key toplevel v) : Next head s on s' on := by
  have hlive : Lives s key v 0 (toplevel + 1) := (hloc ▸ h.loc t : LocShape s on (.first new key toplevel v))
  rw [stepThread, hloc] at hs
  obtain ⟨slp, hu, hs⟩ := Option.bind_eq_some_iff.mp hs
  split at hs
  · next hall =>
    cases hs
    refine h.moves hi hloc (fun _ => id) ⟨hlive, fun p q hp hq => ?_⟩
    obtain rfl : slp = p := Option.some.inj (hu.symm.trans hp)
    rw [hq] at hall
    exact of_decide_eq_true hall
  · cases hs
    exact h.moves hi hloc (fun _ => id) trivial

theorem Shape.step_initNew (hloc : s.loc t = .initNew new key toplevel v) : Next head s on s' on := by
  obtain ⟨hlive, hmiss⟩ : LocShape s on (.initNew new key toplevel v) := hloc ▸ h.loc t
  obtain ⟨he, ⟨hgiven, hkey, hne, -⟩, -⟩ : LocInv E head s t (.initNew new key toplevel v) := hloc ▸ hi.loc t
  have hnode : ∀ p, Node head s p → p ≠ new := fun p hp he => hp.elim (fun hh => hne (he.symm.trans hh))
    fun hin => nomatch (he ▸ hin).symm.trans hgiven
  rw [stepThread, hloc] at hs
  have hs' := (Option.some.inj hs).symm
  have hstage : ∀ p, p ≠ new → s'.stage p = s.stage p := fun p hp => by rw [hs']; exact Function.update_of_ne hp ..
  have htop : ∀ p, p ≠ new → s'.toplevel p = s.toplevel p := fun p hp => by rw [hs']; exact Function.update_of_ne hp ..
  have hdel : ∀ p, p ≠ new → s'.deleted p = s.deleted p := fun p hp => by rw [hs']; exact Function.update_of_ne hp ..
  have hnext : ∀ p, p ≠ new → s'.next p = s.next p := fun p hp => by rw [hs']; exact Function.update_of_ne hp ..
  have hvalid : ∀ p, p ≠ new → s'.valid p = s.valid p := fun p hp => by rw [hs']; exact Function.update_of_ne hp ..
  have htopNew : s'.toplevel new = toplevel := by rw [hs']; exact Function.update_self ..
  have hnextNew : ∀ i, toplevel < i → i < maxLevels → s'.next new i = none := fun i h1 h2 => by
    rw [hs']
    exact (congrFun (Function.update_self ..) i).trans (if_pos ⟨h1, h2⟩)
  have hvalidNew : ∀ i, i ≤ toplevel → s'.valid new i = false := fun i hi => by
    rw [hs']
    exact (congrFun (Function.update_self ..) i).trans (decide_eq_false fun hc => absurd hi (not_le.mpr hc.1))
  have hloc' : s'.loc = Function.update s.loc t (.linkRead new toplevel 0 v) := by rw [hs']; rfl
  have hkey' : s'.key = s.key := by rw [hs']; rfl
  have hquiet : Quiet head s s' := by
    refine ⟨fun p _ => by rw [hkey'], fun p hp => hp.imp_right (hstage p (hnode p hp)).trans, fun p i hp => ?_,
      fun p i hp => by rw [hnext p (hnode p (hi.validNode p i hp))]⟩
    rwa [hvalid p (hnode p (hi.validNode p i hp))]
  refine ⟨h.of_step hi hloc' (h.chains.keeps hi hquiet.key hquiet.valid (fun p hp => htop p (hnode p hp))
    (fun p i hp => hquiet.next p i (h.chains.valid p i hp)) fun p i hp hpi him => ?_)
    hquiet.key (fun p hp => htop p (hnode p hp)) (fun p _ hp => ?_) (fun p h1 h2 h3 => .inl ?_)
    ⟨⟨fun j h0 hj => ?_, fun _ p q hp hq => ?_⟩, by rw [hs']; exact Function.update_self .., htopNew, fun j => ?_,
      fun j _ hj => hvalidNew j hj⟩, .quiet hquiet⟩
  · by_cases hpn : p = new
    · rw [hpn, htopNew] at hpi
      rw [hpn]
      exact hnextNew i hpi him
    · rw [htop p hpn] at hpi
      rw [hnext p hpn]
      exact h.chains.above p i (hp.imp_right fun hin => (hstage p hpn).symm.trans hin) hpi him
  · have hpn := hnode p hp
    exact ⟨hnext p hpn, hdel p hpn, rfl, hvalid p hpn⟩
  · have hpn : p ≠ new := h3
    exact ⟨(hstage p hpn).symm.trans h1, (hdel p hpn).symm.trans h2, by rw [hloc]; exact id, rfl⟩
  · obtain ⟨p, hp, hd, hq⟩ := hlive j h0 hj
    have hpn := hnode p (he.node j p hp)
    refine ⟨p, hp, (hdel p hpn).trans hd, fun q hn => ?_⟩
    rw [hnext p hpn] at hn
    rw [hkey', hkey]
    exact hq q hn
  · rw [hnext p (hnode p (he.node 0 p hp))] at hq
    rw [hkey', hkey]
    exact hmiss p q hp hq
  · rw [decide_eq_false (Nat.not_lt_zero j)]
    exact Bool.eq_false_iff.mpr fun ho => hnode new (h.chains.node hi ho) rfl

theorem Shape.step_linkRead (hloc : s.loc t = .linkRead new toplevel level v) : Next head s on s' on := by
  obtain ⟨⟨hlive, -⟩, hdel, htop, hon, hvn⟩ : LocShape s on (.linkRead new toplevel level v) := hloc ▸ h.loc t
  obtain ⟨hlk, -, -⟩ : LocInv E head s t (.linkRead new toplevel level v) := hloc ▸ hi.loc t
  rw [stepThread, hloc] at hs
  dsimp only at hs
  split at hs
  · next hle =>
    obtain ⟨slp, hu, hs⟩ := Option.bind_eq_some_iff.mp hs
    have hne : slp ≠ new := fun he => Below.irrefl (he ▸ hlk.entries.below hlk.ne rfl hu)
    generalize hs' : ({ s.setNext new level (s.next slp level) with
      valid := Function.update s.valid new (Function.update (s.valid new) level true) } : St n ν K).goto t
        (.linkStore new toplevel level slp v) = s' at hs
    cases hs
    have hquiet : Quiet head s s' := by
      refine ⟨fun _ _ => by rw [← hs']; rfl, fun p hp => by rw [← hs']; exact hp, fun p i hp => ?_, fun p i hp => ?_⟩
      · rw [← hs']
        change Function.update s.valid new (Function.update (s.valid new) level true) p i = true
        by_cases hp' : p = new
        · subst hp'
          by_cases hi' : i = level <;> simp [hi', hp]
        · simp [hp', hp]
      · rw [← hs']
        refine (setNext_next i).trans (if_neg fun hc => ?_)
        rw [hc.1, hc.2, hvn level le_rfl hle] at hp
        cases hp
    subst hs'
    refine ⟨h.of_step hi rfl (h.chains.keeps hi hquiet.key hquiet.valid (fun _ _ => rfl)
      (fun p i hp => hquiet.next p i (h.chains.valid p i hp)) fun p i hp hpi him => ?_) (fun _ _ => rfl)
      (fun _ _ => rfl) (fun p hp _ => ?_) (fun p h1 h2 h3 => .inl ⟨h1, h2, by rw [hloc]; exact h3, rfl⟩)
      ⟨⟨fun j hj hjt => ?_, ?_⟩, hdel, htop, hon, fun j hj hjt => ?_, ?_⟩, .quiet hquiet⟩
    · refine (setNext_next i).trans ((if_neg fun hc => ?_).trans (h.chains.above p i hp hpi him))
      have hpi' : s.toplevel p < i := hpi
      rw [hc.1, htop, hc.2] at hpi'
      exact absurd hle (not_le.mpr hpi')
    · have hpn : p ≠ new := fun he => hp (by rw [hloc]; exact .inr he)
      exact ⟨Function.update_of_ne hpn .., rfl, rfl, Function.update_of_ne hpn ..⟩
    · obtain ⟨p, hp, hd, hq⟩ := hlive j (Nat.le_of_succ_le hj) hjt
      have hpn : p ≠ new := fun he => Below.irrefl (he ▸ hlk.entries.below hlk.ne rfl hp)
      exact ⟨p, hp, hd, fun q hn => hq q (((setNext_next j).trans (if_neg fun hc => hpn hc.1)).symm.trans hn)⟩
    · obtain ⟨p, hp, hd, -⟩ := hlive level le_rfl (Nat.lt_succ_of_le hle)
      obtain rfl : slp = p := Option.some.inj (hu.symm.trans hp)
      exact hd
    · have hjl : j ≠ level := Nat.ne_of_gt hj
      refine (congrFun (Function.update_self ..) j).trans ((Function.update_of_ne hjl ..).trans (hvn j (by omega) hjt))
    · refine ((setNext_next level).trans (if_pos ⟨rfl, rfl⟩)).trans ?_
      exact ((setNext_next level).trans (if_neg fun hc => hne hc.1)).symm
  · next hgt =>
    cases hs
    refine h.goes hi hloc trivial fun p hp => .inr fun i hi => ?_
    obtain rfl : p = new := hp
    rw [htop] at hi
    rw [hon, decide_eq_true (by omega)]

theorem Shape.step_linkStore (hloc : s.loc t = .linkStore new toplevel level slp v) :
    Next head s on s' (setOn on new level true) := by
  obtain ⟨⟨hlive, hd⟩, hdel, htop, hon, hvn, hcopy⟩ : LocShape s on (.linkStore new toplevel level slp v) :=
    hloc ▸ h.loc t
  obtain ⟨hlk, hvl, hle, hu⟩ : LocInv E head s t (.linkStore new toplevel level slp v) := hloc ▸ hi.loc t
  have hbelow : Below head s slp new := hlk.entries.below hlk.ne rfl hu
  have hne : slp ≠ new := fun he => Below.irrefl (he ▸ hbelow)
  rw [stepThread, hloc] at hs
  dsimp only at hs
  split at hs
  · cases hs
  · next htl =>
    cases hs
    have hslp : on slp level = true :=
      h.alive hi (by rw [hloc]; exact .inl ⟨level, hu⟩) (by rw [hloc]; exact hne) hd (not_lt.mp htl)
    have hlow : ∀ j < level, on new j = true := fun j hj => (hon j).trans (decide_eq_true hj)
    refine ⟨h.of_step hi rfl (h.chains.link hi hslp rfl rfl rfl rfl (fun p i => setNext_next i) hbelow hcopy
      (hvl level le_rfl) hlow (htop ▸ hle)) (fun _ _ => rfl) (fun _ _ => rfl) (fun p hp _ => ?_)
      (fun p h1 h2 h3 => .inl ⟨h1, h2, by rw [hloc]; exact h3, Function.update_of_ne h3 ..⟩)
      ⟨⟨fun j hj hjt => ?_, fun h => by cases h⟩, hdel, htop, fun j => ?_, fun j hj hjt => hvn j hj hjt⟩,
      .link slp new level rfl rfl rfl (fun p i => setNext_next i) hslp hbelow hcopy (hvl level le_rfl) hlow⟩
    · have hps : p ≠ slp := fun he => hp (by rw [hloc]; exact .inl (he ▸ ⟨level, hu⟩))
      have hpn : p ≠ new := fun he => hp (by rw [hloc]; exact .inr he)
      exact ⟨Function.update_of_ne hps .., rfl, Function.update_of_ne hpn .., rfl⟩
    · obtain ⟨p, hp, hdp, hq⟩ := hlive j hj hjt
      have hjl : j ≠ level := Nat.ne_of_gt hj
      exact ⟨p, hp, hdp, fun q hn => hq q (((setNext_next j).trans (if_neg fun hc => hjl hc.2)).symm.trans hn)⟩
    · rw [setOn_apply]
      split
      · next he => exact (decide_eq_true (he.2 ▸ Nat.lt_succ_self _)).symm
      · next he =>
        have hjl : j ≠ level := fun hj => he ⟨rfl, hj⟩
        rw [hon j]
        exact decide_eq_decide.mpr (by omega)

/-! ### All steps -/

/-- **A step of a thread keeps the levels in order.** -/
theorem Shape.step (hall : NotesAll s t) : Next head s on s' (linksTo on (s.loc t)) := by
  have hl := h.loc t
  cases hloc : s.loc t with
  | idle =>
    rw [stepThread, hloc] at hs
    cases hs
  | walk => exact h.step_walk hi hs hloc
  | lock => exact h.step_lock hi hs hloc
  | look => exact h.step_look hi hs hloc
  | lookUp => exact h.step_lookUp hi hs hloc
  | checkTop key cur v =>
    rw [stepThread, hloc] at hs
    cases hs
    exact h.moves hi hloc (fun _ => id) fun j p hj hjt => absurd hj (not_le.mpr (Nat.lt_succ_of_le hjt))
  | check => exact h.step_check hi hs hloc
  | lockCur cur v =>
    rw [hloc] at hl
    rw [stepThread, hloc] at hs
    dsimp only at hs
    split at hs
    · cases hs
    · cases hs
      exact h.goes hi hloc hl fun p hp => hp.elim
  | unlinkTop =>
    rw [NotesAll, hloc] at hall
    exact h.step_unlinkTop hi hs hloc hall
  | unlinkRead => exact h.step_unlinkRead hi hs hloc
  | unlinkStore => exact h.step_unlinkStore hi hs hloc
  | setDeleted => exact h.step_setDeleted hi hs hloc
  | unlockTop after cur v =>
    rw [hloc] at hl
    rw [stepThread, hloc] at hs
    cases hs
    exact h.moves hi hloc (fun _ => id) hl
  | unlock => exact h.step_unlock hi hs hloc
  | unlockOne slp after =>
    rw [hloc] at hl
    rw [stepThread, hloc] at hs
    cases hs
    exact h.goes hi hloc (after_shape hl) fun p hp => hp.elim
  | verify => exact h.step_verify hi hs hloc
  | first => exact h.step_first hi hs hloc
  | initNew => exact h.step_initNew hi hs hloc
  | linkRead => exact h.step_linkRead hi hs hloc
  | linkStore => exact h.step_linkStore hi hs hloc
  | _ =>
    rw [hloc] at hl
    exact hl.elim

omit hs in
/-- A call starts. -/
theorem Shape.start (hc : Updates c) (hs : Par.start head s t c = some s') : Next head s on s' on := by
  unfold Par.start at hs
  split at hs
  · next hloc =>
    cases c with
    | insert new key toplevel =>
      dsimp only at hs
      split at hs
      · next hnew =>
        cases hs
        have hpn : ∀ p, Node head s p → p ≠ new := fun p hp he => hp.elim (fun hh => hnew.2.1 (he.symm.trans hh))
          fun hin => nomatch (he ▸ hin).symm.trans hnew.1
        have hin : ∀ p, Function.update s.stage new (.given t) p = .inList → s.stage p = .inList := fun p hp => by
          by_cases hpn : p = new
          · rw [hpn, Function.update_self] at hp
            cases hp
          · rwa [Function.update_of_ne hpn] at hp
        refine ⟨h.of_step hi rfl (h.chains.keeps hi (fun p hp => Function.update_of_ne (hpn p hp) ..)
          (fun _ _ hp => hp) (fun _ _ => rfl) (fun _ _ _ => rfl)
          fun p i hp => h.chains.above p i (hp.imp_right (hin p))) (fun p hp => Function.update_of_ne (hpn p hp) ..)
          (fun _ _ => rfl) (fun _ _ _ => ⟨rfl, rfl, rfl, rfl⟩)
          (fun p h1 h2 h3 => .inl ⟨hin p h1, h2, by rw [hloc]; exact id, rfl⟩) trivial,
          .quiet ⟨fun p hp => Function.update_of_ne (hpn p hp) .., fun p hp => hp.imp_right
            (Function.update_of_ne (hpn p hp) ..).trans, fun _ _ => id, fun _ _ _ => rfl⟩⟩
      · cases hs
    | delete key =>
      cases hs
      exact h.moves hi hloc (fun _ => id) trivial
    | _ => exact hc.elim
  · next slp hloc => exact (hloc ▸ h.loc t : LocShape s on (.has slp)).elim
  · cases hs

end

end Relaxed
end Skip
end Perfbook
