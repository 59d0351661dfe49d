/-
# The steps of the threads of `skiplist.c`

A step goes on (`Inv.goes`), takes a lock (`Inv.takes`), or releases one
(`Inv.drops`), to a place where the thread can stand with its locks (`Stands`). What
a search notes keeps what it knows (`Search.noteSome`, `Search.noteNone`), on to the
next level or to what follows the last one (`advance_stands`).

Key theorems: `Inv.of_grows`, `Inv.of_step`, `Inv.goes`, `Inv.takes`, `Inv.drops`, `Search.noteSome`,
`body_stands`.
-/
import Perfbook.Skip.ParInv

namespace Perfbook
namespace Skip
namespace Par

open Conc

variable {n : ℕ} {ν K : Type} [LinearOrder K] {E : Prop} {head : ν} {s s' : St n ν K} {t u : Fin n}
  {l : Loc ν K} {p q x slp new : ν} {key : K} {level toplevel : ℕ} {c : Call ν K} {v v' : Vars ν}
  {update : ℕ → Option ν} {after : After ν K} {next : Option ν}

namespace Inv

variable (h : Inv E head s)
include h

/-- A step of a thread that changes no node but its own. -/
theorem of_grows (hg : Grows s s') (hloc : s'.loc = Function.update s.loc t l)
    (htop : s'.toplevel head = s.toplevel head) (hfree : s'.stage head = s.stage head)
    (hnode : ∀ p level, s'.valid p level = true → Node head s' p)
    (hlink : ∀ p level q, s'.valid p level = true → s'.next p level = some q →
      s.valid p level = true ∧ s.next p level = some q ∨
        s'.stage q = .inList ∧ (∀ l ≤ level, s'.valid q l = true) ∧ Below head s' p q)
    (hsettled : ∀ p, Settled s' p → Settled s p ∨ Complete s' p)
    (hfirst : ∀ u x v, (s'.loc u).linking = some (x, v) → ∀ p, s'.valid p 0 = true →
      s'.next p 0 = some x → v.update 0 = some p)
    (hlock : LocksBy E Loc.held s'.lock s'.loc)
    (hgiven : ∀ u, u ≠ t → ∀ p, s.stage p = .given u → s'.stage p = .given u)
    (hl : LocInv E head s' t l) : Inv E head s' := by
  refine ⟨htop.trans h.top, hfree.trans h.headFree, fun level hlv => hg.valid head level (h.headValid level hlv),
    hnode, fun p level q hp hq => ?_, fun p hp => ?_, hfirst, hlock, fun u => ?_⟩
  · rcases hlink p level q hp hq with ⟨hp, hq⟩ | hnew
    · obtain ⟨h1, h2, h3⟩ := h.link p level q hp hq
      exact ⟨hg.inList q h1, fun l hl => hg.valid q l (h2 l hl), h3.grows hg (h.validNode p level hp) h1⟩
    · exact hnew
  · rcases hsettled p hp with hp | hp
    · exact fun level hlv => hg.valid p level (h.complete p hp level hlv)
    · exact hp
  · exact forall_update (P := fun u x => LocInv E head s' u x) hloc hl
      (fun u hu => (h.loc u).grows hg (hgiven u hu)) u

/-- A step that changes neither keys nor stages, and no link that was stored but to larger nodes. -/
theorem of_step (hloc : s'.loc = Function.update s.loc t l) (hkey : s'.key = s.key)
    (hstage : s'.stage = s.stage) (hvalid : s'.valid = s.valid) (htop : s'.toplevel head = s.toplevel head)
    (hlink : ∀ p level q, s.valid p level = true → s'.next p level = some q →
      s.stage q = .inList ∧ (∀ l ≤ level, s.valid q l = true) ∧ Below head s p q)
    (hlinking : l.linking = (s.loc t).linking ∨
      l.linking = none ∧ ∀ x v, (s.loc t).linking = some (x, v) → Complete s x)
    (hfirst : ∀ u x v, (s.loc u).linking = some (x, v) → ∀ p, s.valid p 0 = true →
      s'.next p 0 = some x → v.update 0 = some p)
    (hlock : LocksBy E Loc.held s'.lock s'.loc) (hl : LocInv E head s t l) : Inv E head s' := by
  have hold : ∀ u x v, (s'.loc u).linking = some (x, v) → (s.loc u).linking = some (x, v) := fun u x v hu => by
    rw [hloc] at hu
    by_cases hut : u = t
    · subst hut
      rw [Function.update_self] at hu
      rcases hlinking with he | ⟨he, -⟩
      · exact he ▸ hu
      · rw [he] at hu
        cases hu
    · rwa [Function.update_of_ne hut] at hu
  have hg : Grows s s' := by
    refine ⟨fun p _ => by rw [hkey], fun p hp => by rw [hstage, hp], fun p level hp => by rw [hvalid, hp],
      fun p hp => ⟨by rw [hstage, hp.1], fun u v hu => hp.2 u v (hold u p v hu)⟩⟩
  refine h.of_grows hg hloc htop (by rw [hstage]) (fun p level hp => ?_) (fun p level q hp hq => ?_)
    (fun p hp => ?_) (fun u x v hu p hp hx => ?_) hlock (fun u _ p hp => by rw [hstage, hp])
    (hl.grows hg fun p hp => by rw [hstage, hp])
  · rw [hvalid] at hp
    exact (h.validNode p level hp).grows hg
  · rw [hvalid] at hp
    obtain ⟨h1, h2, h3⟩ := hlink p level q hp hq
    exact .inr ⟨hg.inList q h1, fun l hl => hg.valid q l (h2 l hl), h3.grows hg (h.validNode p level hp) h1⟩
  · -- a node that is settled now was settled, or was just linked
    by_cases hs : Settled s p
    · exact .inl hs
    · have hin : s.stage p = .inList := hstage ▸ hp.1
      obtain ⟨u, v, hu⟩ : ∃ u v, (s.loc u).linking = some (p, v) := by
        by_contra hno
        exact hs ⟨hin, fun u v hu => hno ⟨u, v, hu⟩⟩
      have hnot := hp.2 u v
      rw [hloc] at hnot
      by_cases hut : u = t
      · subst hut
        rw [Function.update_self] at hnot
        rcases hlinking with he | ⟨-, hc⟩
        · exact absurd (he.trans hu) hnot
        · exact .inr fun level hlv => hg.valid p level (hc p v hu level hlv)
      · rw [Function.update_of_ne hut] at hnot
        exact absurd hu hnot
  · rw [hvalid] at hp
    exact hfirst u x v (hold u x v hu) p hp hx

/-- A step that stores no link. -/
theorem of_next (hloc : s'.loc = Function.update s.loc t l) (hkey : s'.key = s.key)
    (hstage : s'.stage = s.stage) (hvalid : s'.valid = s.valid) (htop : s'.toplevel head = s.toplevel head)
    (hnext : s'.next = s.next)
    (hlinking : l.linking = (s.loc t).linking ∨
      l.linking = none ∧ ∀ x v, (s.loc t).linking = some (x, v) → Complete s x)
    (hlock : LocksBy E Loc.held s'.lock s'.loc) (hl : LocInv E head s t l) : Inv E head s' :=
  h.of_step hloc hkey hstage hvalid htop (fun p level q hp hq => h.link p level q hp (hnext ▸ hq)) hlinking
    (fun u x v hu p hp hx => h.linking u x v hu p hp (hnext ▸ hx)) hlock hl

end Inv

/-- A place where the thread can stand, with the locks `P`. -/
structure Stands (E : Prop) (head : ν) (s : St n ν K) (t : Fin n) (P : ν → Prop) (l : Loc ν K) : Prop where
  loc : LocInv E head s t l
  held : ∀ p, l.held p ↔ P p
  linking : l.linking = none

theorem Stands.congr {P Q : ν → Prop} (h : Stands E head s t P l) (hP : ∀ p, P p ↔ Q p) :
    Stands E head s t Q l :=
  ⟨h.loc, fun p => (h.held p).trans (hP p), h.linking⟩

variable [DecidableEq ν]

namespace Inv

variable (h : Inv E head s)
include h

section

variable {place : Loc ν K} (hloc : s.loc t = place) (hnone : place.linking = none)
include hloc hnone

omit [DecidableEq ν] in
/-- A thread goes on, and forgets locks at most when it need not release all. -/
theorem leaves (hl : LocInv E head s t l) (hlinking : l.linking = none) (hsub : ∀ p, l.held p → place.held p)
    (hsup : E → ∀ p, place.held p → l.held p) : Inv E head (s.goto t l) := by
  subst hloc
  exact h.of_next rfl rfl rfl rfl rfl rfl (.inl (hlinking.trans hnone.symm)) (h.lock.stay rfl hsub hsup) hl

omit [DecidableEq ν] in
/-- A thread goes on. -/
theorem goes (hl : Stands E head s t place.held l) : Inv E head (s.goto t l) :=
  h.leaves hloc hnone hl.loc hl.linking (fun p => (hl.held p).mp) fun _ p => (hl.held p).mpr

/-- A thread takes a lock. -/
theorem takes (hx : s.lock x = none) (hl : Stands E head s t (fun p => place.held p ∨ p = x) l) :
    Inv E head ((s.setLock x (some t)).goto t l) := by
  subst hloc
  exact h.of_next rfl rfl rfl rfl rfl rfl (.inl (hl.linking.trans hnone.symm))
    (h.lock.take rfl (fun _ => h.lock.not_held hx) hl.held) hl.loc

/-- A thread releases a lock. -/
theorem drops (hx : place.held x) (hl : Stands E head s t (fun p => place.held p ∧ p ≠ x) l) :
    Inv E head ((s.setLock x none).goto t l) := by
  subst hloc
  exact h.of_next rfl rfl rfl rfl rfl rfl (.inl (hl.linking.trans hnone.symm)) (h.lock.drop rfl hx hl.held) hl.loc

end

end Inv

/-! ### What a search notes -/

section

variable (h : Search head s t c (level + 1) slp v)
include h

omit [DecidableEq ν] in
/-- The search notes where it stands. -/
theorem Search.noteSome (hvalid : ∀ l ≤ level, s.valid slp l = true) (hlevel : level < maxLevels)
    (hn : c.Noting level) (hupdate : v'.update = Function.update v.update level (some slp))
    (hlast : c.lastOf level v' = some slp) (hcur : ∀ q, v'.cur = some q → s.stage q = .inList) :
    Search head s t c level slp v' := by
  -- a level that is noted is this one, or it was noted before
  have hcases : ∀ {j p}, v'.update j = some p → j = level ∧ p = slp ∨ level < j ∧ v.update j = some p :=
    fun {j p} hj => by
      rw [hupdate] at hj
      by_cases he : j = level
      · rw [he, Function.update_self] at hj
        exact .inl ⟨he, (Option.some.inj hj).symm⟩
      · rw [Function.update_of_ne he] at hj
        exact .inr ⟨(h.above j p hj).1, hj⟩
  have hto : ∀ {j p}, v'.update j = some p → AtMost head s p slp := fun {j p} hj => by
    rcases hcases hj with ⟨-, rfl⟩ | ⟨-, hj⟩
    · exact .inl rfl
    · exact (h.above j p hj).2
  refine ⟨⟨fun j p hj => ?_, fun j p hj => ?_, fun j p hj => ?_, fun j p hj => ?_, fun i j p q hij hi hj => ?_⟩,
    h.mine, h.node, h.low, fun j p hj => ?_, fun j p hj => ⟨?_, hto hj⟩, fun j p hj => ⟨slp, hlast, hto hj⟩,
    fun q hq => ?_, hcur⟩
  · rcases hcases hj with ⟨rfl, rfl⟩ | ⟨-, hj⟩
    · exact hlevel
    · exact h.entries.lt j p hj
  · rcases hcases hj with ⟨rfl, rfl⟩ | ⟨-, hj⟩
    · exact h.node
    · exact h.entries.node j p hj
  · rcases hcases hj with ⟨rfl, rfl⟩ | ⟨-, hj⟩
    · exact hvalid
    · exact h.entries.upto j p hj
  · rcases hcases hj with ⟨rfl, rfl⟩ | ⟨-, hj⟩
    · exact h.low
    · exact h.entries.low j p hj
  · rcases hcases hi with ⟨rfl, rfl⟩ | ⟨hli, hi⟩
    · exact hto hj
    · rcases hcases hj with ⟨rfl, -⟩ | ⟨-, hj⟩
      · exact absurd hij (not_le.mpr hli)
      · exact h.entries.desc i j p q hij hi hj
  · rcases hcases hj with ⟨rfl, rfl⟩ | ⟨-, hj⟩
    · exact hn
    · exact h.noting j p hj
  · rcases hcases hj with ⟨rfl, -⟩ | ⟨hlj, -⟩
    · exact le_rfl
    · exact hlj.le
  · rw [hlast] at hq
    exact ⟨level, by rw [hupdate, Function.update_self, hq]⟩

omit [DecidableEq ν] in
theorem Search.update_none : Function.update v.update level none = v.update := by
  funext j
  by_cases he : j = level
  · rw [he, Function.update_self]
    refine (Option.eq_none_iff_forall_ne_some.mpr fun p hp => ?_).symm
    exact absurd (h.above level p hp).1 (Nat.not_succ_le_self level)
  · exact Function.update_of_ne he ..

omit [DecidableEq ν] in
theorem Search.notes_some (hupdate : v'.update = Function.update v.update level (some slp)) :
    v'.Notes p ↔ v.Notes p ∨ p = slp := by
  refine ⟨fun ⟨j, hj⟩ => ?_, ?_⟩
  · rw [hupdate] at hj
    by_cases he : j = level
    · rw [he, Function.update_self] at hj
      exact .inr (Option.some.inj hj).symm
    · rw [Function.update_of_ne he] at hj
      exact .inl ⟨j, hj⟩
  · rintro (⟨j, hj⟩ | rfl)
    · have hne : j ≠ level := Nat.ne_of_gt (h.above j p hj).1
      exact ⟨j, by rw [hupdate, Function.update_of_ne hne, hj]⟩
    · exact ⟨level, by rw [hupdate, Function.update_self]⟩

omit [DecidableEq ν] in
/-- The search notes nothing for a level. -/
theorem Search.noteNone (hupdate : v'.update = Function.update v.update level none)
    (hlast : c.lastOf level v' = c.lastOf (level + 1) v ∨
      c.lastOf level v' = none ∧ ∀ j, v.update j = none)
    (hcur : ∀ q, v'.cur = some q → s.stage q = .inList) : Search head s t c level slp v' := by
  have hold := hupdate.trans h.update_none
  refine ⟨hold ▸ h.entries, h.mine, h.node, h.low, hold ▸ h.noting, fun j p hj => ?_, fun j p hj => ?_,
    fun q hq => ?_, hcur⟩
  · obtain ⟨hlj, hle⟩ := h.above j p (hold ▸ hj)
    exact ⟨Nat.le_of_succ_le hlj, hle⟩
  · rcases hlast with he | ⟨-, hno⟩
    · exact he ▸ h.last j p (hold ▸ hj)
    · rw [hold, hno] at hj
      cases hj
  · rcases hlast with he | ⟨he, -⟩
    · obtain ⟨j, hj⟩ := h.lastIn q (he ▸ hq)
      exact ⟨j, hold ▸ hj⟩
    · rw [he] at hq
      cases hq

end

/-! ### Where a search goes -/

section

variable (h : Inv E head s)
include h

omit h [DecidableEq ν] in
theorem search_stands (htop : s.toplevel head = maxLevels - 1) (hc : Complete s head) (hm : Mine head s t c) :
    Stands E head s t (fun _ => False) (search head s c) := by
  refine ⟨⟨⟨⟨nofun, nofun, nofun, nofun, nofun⟩, hm, .inl rfl, .inl rfl, nofun, nofun, nofun, fun q hq => ?_,
    nofun⟩, fun l hl => hc l ?_, ?_⟩, fun _ => ⟨?_, False.elim⟩, rfl⟩
  · cases c <;> cases hq
  · rw [htop] at hl
    unfold maxLevels at *
    omega
  · rw [htop]
    exact (by decide : maxLevels - 1 < maxLevels)
  · rintro ⟨j, hj⟩
    cases hj

omit [DecidableEq ν] in
theorem after_stands {P : ν → Prop} (ha : AfterInv head s t P after) :
    Stands E head s t after.held (after.loc head s) := by
  cases after with
  | retry c => exact search_stands h.top h.headValid ha
  | unlock x => exact ⟨⟨ha.1, trivial⟩, fun _ => or_iff_left id, rfl⟩
  | hold x => exact ⟨ha.1, fun _ => Iff.rfl, rfl⟩
  | done => exact ⟨trivial, fun _ => Iff.rfl, rfl⟩

omit h [DecidableEq ν] in
/-- All that was noted is to be unlocked. -/
theorem unlock_stands (he : Entries head s key v.update) (htop : E → ∀ j p, v.update j = some p → j ≤ toplevel)
    (ha : AfterInv head s t v.Notes after) :
    Stands E head s t (fun p => v.Notes p ∨ after.held p) (.unlock after 0 toplevel none v.update) :=
  ⟨⟨⟨key, he⟩, htop, nofun, ha⟩,
    fun _ => or_congr_left ⟨fun ⟨j, _, hj, _⟩ => ⟨j, hj⟩, fun ⟨j, hj⟩ => ⟨j, Nat.zero_le j, hj, nofun⟩⟩, rfl⟩

omit [DecidableEq ν] in
theorem Entries.le_top (he : Entries head s key update) (hj : update level = some p) :
    level ≤ s.toplevel head := by
  rw [h.top]
  exact Nat.le_pred_of_lt (he.lt level p hj)

omit [DecidableEq ν] in
theorem unlock_done (he : Entries head s key v.update) :
    Stands E head s t v.Notes (.unlock .done 0 (s.toplevel head) none v.update) := by
  have hdone : AfterInv head s t v.Notes .done := trivial
  exact (unlock_stands he (fun _ _ _ hj => he.le_top h hj) hdone).congr fun _ => or_iff_left id

omit [DecidableEq ν] in
/-- After the last level. -/
theorem finish_stands (hs : Search head s t c 0 slp v) (hv : s.valid slp 0 = true) :
    Stands E head s t v.Notes (finish head s c slp v) := by
  cases c with
  | insert new key toplevel => exact ⟨⟨hs.entries, hs.mine, hs.noting⟩, fun p => Iff.rfl, rfl⟩
  | delete key =>
    rw [finish]
    split
    · exact unlock_done h hs.entries
    · next cur hcur =>
      split
      · exact unlock_done h hs.entries
      · next hkey => exact ⟨⟨hs.entries, hs.cur cur hcur, not_not.mp hkey⟩, fun p => Iff.rfl, rfl⟩
  | lookupLock key =>
    exact ⟨⟨hs.node, hv⟩, fun p => ⟨False.elim, fun ⟨j, hj⟩ => hs.noting j p hj⟩, rfl⟩
  | balance key newlevel => exact ⟨⟨hs.entries, hs.mine⟩, fun p => Iff.rfl, rfl⟩

omit [DecidableEq ν] in
theorem advance_stands (hs : Search head s t c level slp v) (hv : ∀ l ≤ level, s.valid slp l = true)
    (hlevel : level < maxLevels) : Stands E head s t v.Notes (advance head s c level slp v) := by
  cases level with
  | zero => exact finish_stands h hs (hv 0 le_rfl)
  | succ level =>
    exact ⟨⟨hs, fun l hl => hv l (hl.trans (Nat.le_succ level)), Nat.lt_of_succ_lt hlevel⟩, fun p => Iff.rfl, rfl⟩

section

variable (hs : Search head s t c (level + 1) slp v) (hv : ∀ l ≤ level, s.valid slp l = true)
  (hlevel : level < maxLevels)
include hs hv hlevel

omit [DecidableEq ν] in
/-- The node that was noted last is noted for this level too. -/
theorem note_same (hn : c.Noting level) (hlast : c.lastOf (level + 1) v = some slp) :
    Stands E head s t v.Notes (note head s c level slp (some slp) v) := by
  have hsame : c.lastOf level { v with update := Function.update v.update level (some slp) } = some slp := by
    cases c with
    | delete key => exact hlast
    | _ => exact Function.update_self ..
  refine (advance_stands h (hs.noteSome hv hlevel hn rfl hsame hs.cur) hv hlevel).congr fun p => ?_
  exact (hs.notes_some rfl).trans (or_iff_left_of_imp fun he => he ▸ hs.lastIn slp hlast)

omit [DecidableEq ν] in
/-- Nothing is noted for this level. -/
theorem note_none (hlast : c.lastOf level { v with update := Function.update v.update level none } =
      c.lastOf (level + 1) v ∨ ∀ j, v.update j = none) :
    Stands E head s t v.Notes (note head s c level slp none v) := by
  have hs' : Search head s t c level slp { v with update := Function.update v.update level none } := by
    refine hs.noteNone rfl ?_ hs.cur
    refine hlast.imp_right fun hno => ⟨?_, hno⟩
    cases c with
    | delete key =>
      refine Option.eq_none_iff_forall_ne_some.mpr fun q hq => ?_
      obtain ⟨j, hj⟩ := hs.lastIn q hq
      rw [hno] at hj
      cases hj
    | _ => exact Function.update_self ..
  refine (advance_stands h hs' hv hlevel).congr fun p => ?_
  simp only [Vars.Notes, hs.update_none]

/-- **What follows the loop on a level.** -/
theorem body_stands (hnext : ∀ q ∈ next, s.stage q = .inList) :
    Stands E head s t v.Notes (body head s c level slp next v) := by
  -- a level above those that are noted
  have habove : ¬ c.Noting (level + 1) → v.update (level + 1) = none := fun hn =>
    Option.eq_none_iff_forall_ne_some.mpr fun p hp => hn (hs.noting (level + 1) p hp)
  cases c with
  | insert new key toplevel =>
    rw [body]
    split
    · next hgt =>
      refine note_none h hs hv hlevel (.inr fun j => Option.eq_none_iff_forall_ne_some.mpr fun p hp => ?_)
      exact absurd ((hs.above j p hp).1.trans (hs.noting j p hp)) (not_le.mpr (Nat.lt_succ_of_lt hgt))
    · next hle =>
      split
      · next hlock =>
        refine ⟨⟨hs, hv, hlevel, not_lt.mp hle, fun he => ?_⟩, fun p => Iff.rfl, rfl⟩
        rcases hlock with rfl | hne
        · exact nomatch he.trans (habove (Nat.not_succ_le_self level))
        · exact hne he
      · next hsame =>
        exact note_same h hs hv hlevel (not_lt.mp hle) (not_not.mp fun hne => hsame (.inr (Ne.symm hne)))
  | delete key =>
    have hs' : Search head s t (.delete key) (level + 1) slp { v with cur := next } := { hs with cur := hnext }
    rw [body]
    split
    · split
      · next hne => exact ⟨⟨hs', hv, hlevel, trivial, hne⟩, fun p => Iff.rfl, rfl⟩
      · next hsame => exact note_same h hs' hv hlevel trivial (not_not.mp hsame).symm
    · exact note_none h hs' hv hlevel (.inl rfl)
  | lookupLock key =>
    have hno : ∀ j, v.update j = none := fun j =>
      Option.eq_none_iff_forall_ne_some.mpr fun p hp => hs.noting j p hp
    exact advance_stands h (hs.noteNone hs.update_none.symm (.inr ⟨hno level, hno⟩) hs.cur) hv hlevel
  | balance key newlevel =>
    rw [body]
    split
    · next hlock =>
      refine ⟨⟨hs, hv, hlevel, trivial, fun he => ?_⟩, fun p => Iff.rfl, rfl⟩
      rcases hlock with rfl | hne
      · exact absurd (hs.entries.le_top h he.symm) (Nat.not_succ_le_self _)
      · exact hne he
    · next hsame => exact note_same h hs hv hlevel trivial (not_not.mp fun hne => hsame (.inr (Ne.symm hne)))

omit [DecidableEq ν] in
/-- The lock of the node is taken. -/
theorem locked_stands (hn : c.Noting level) : Stands E head s t (fun p => v.Notes p ∨ p = slp)
    (locked head s c level slp next
      { v with update := Function.update v.update level (some slp), last := some slp }) := by
  have hlast : c.lastOf level { v with update := Function.update v.update level (some slp), last := some slp } =
      some slp := by
    cases c with
    | delete key => rfl
    | _ => exact Function.update_self ..
  have hs' := hs.noteSome hv hlevel hn rfl hlast hs.cur
  cases c with
  | insert new key toplevel => exact ⟨⟨hs', hv, hlevel⟩, fun p => hs.notes_some rfl, rfl⟩
  | delete key => exact ⟨⟨hs', hv, hlevel⟩, fun p => hs.notes_some rfl, rfl⟩
  | lookupLock key => exact hn.elim
  | balance key newlevel => exact (advance_stands h hs' hv hlevel).congr fun p => hs.notes_some rfl

end

omit h [DecidableEq ν] in
/-- The search has to start again. -/
theorem again_stands (hs : Search head s t c level slp v) (ha : again c next v = some l) :
    Stands E head s t v.Notes l := by
  cases c with
  | insert new key toplevel =>
    cases ha
    have hretry : AfterInv head s t v.Notes (.retry (.insert new key toplevel)) := hs.mine
    exact (unlock_stands hs.entries (fun _ => hs.noting) hretry).congr fun _ => or_iff_left id
  | delete key =>
    obtain ⟨cur, -, rfl⟩ := Option.map_eq_some_iff.mp ha
    exact ⟨⟨⟨key, hs.entries⟩, hs.mine⟩, fun _ => or_iff_left id, rfl⟩
  | _ => cases ha

end

end Par
end Skip
end Perfbook
