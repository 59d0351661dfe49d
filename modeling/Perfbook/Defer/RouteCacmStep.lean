/-
# The steps of `route_cacm.c`

A step that changes the links is one of the thread that holds `routelock`, and a link changes
in one place. What lookups see stays when entries are removed, since the call waits for all of
them, and when an entry is freed, since none sees it.

Key theorems: `InvOf.lookupStep`, `InvOf.update`, `InvOf.addLink`, `InvOf.unlink`, `InvOf.clearStore`, `InvOf.reFree`.
-/
import Perfbook.Defer.RouteCacmInv

namespace Perfbook
namespace RouteCacm

open Conc

variable {n : ℕ} {fresh : Bool} {s s' : St n} {q q' l : List Cell} {t u v : Fin n} {L : Loc n} {c d p rep : Cell}
  {o : Option Cell}

theorem section_of_uses (h : uses L = some c) : inSection L = true := by
  cases L <;> first | rfl | cases h

/-- A lookup holds neither `routelock` nor `rcu_gp_lock`, and has removed nothing. -/
theorem of_section (h : inSection L = true) :
    holdsRoute L = false ∧ holdsGp L = false ∧ pending L = none ∧ clears L = false ∧ looksUp L = true := by
  cases L <;> first | exact ⟨rfl, rfl, rfl, rfl, rfl⟩ | cases h

theorem St.store_self : (s.store p o).next p = o := Function.update_self ..

theorem St.setStatus_self {x : Status n} : (s.setStatus rep x).status rep = x := Function.update_self ..

/-- An entry that is `y` becomes `z`: the others stay. -/
theorem status_iff {f : Cell → Status n} {x y z : Status n} (hc : f c = y) (hy : y ≠ x) (hz : z ≠ x) (d : Cell) :
    Function.update f c z d = x ↔ f d = x := by
  by_cases hd : d = c
  · subst hd
    rw [Function.update_self, hc]
    exact iff_of_false hz hy
  · rw [Function.update_of_ne hd]

/-- Who sees what depends on the entries and on who waits. -/
theorem visible_iff (htable : s'.status c = .table ↔ s.status c = .table)
    (hremoved : ∀ v, s'.status c = .removed v ∧ s'.sec.pre v u = true ↔
      s.status c = .removed v ∧ s.sec.pre v u = true) :
    Visible s' u c ↔ Visible s u c :=
  or_congr Iff.rfl (or_congr htable (exists_congr hremoved))

namespace InvOf

variable (hi : InvOf fresh s q)
include hi

theorem pos_of_section (h : inSection (s.loc u) = true) : 0 < s.sec.depth u := by
  rw [hi.depth u, if_pos h]
  exact Nat.one_pos

theorem pos_of_uses (h : uses (s.loc u) = some c) : 0 < s.sec.depth u := hi.pos_of_section (section_of_uses h)

theorem not_mem_of_status (hc : s.status c ≠ .table) : c ∉ q := fun hm => hc ((hi.table c).mp hm)

/-- An entry that is not in the table is behind no link of it. -/
theorem ne_of_mem (hc : s.status c ≠ .table) (hh : c ≠ .head) (hp : p ∈ .head :: q) : p ≠ c := by
  rintro rfl
  rcases List.mem_cons.mp hp with h | h
  · exact hh h
  · exact hi.not_mem_of_status hc h

theorem ne_head (hc : s.status c ≠ .unused) : c ≠ .head := by
  rintro rfl
  exact hc hi.head

/-- The other threads do not hold `routelock`. -/
theorem others (ht : holdsRoute (s.loc t) = true) (hu : u ≠ t) : holdsRoute (s.loc u) = false := by
  rw [← Bool.not_eq_true]
  exact fun h => hu (hi.lock.eq ht h)

/-! ### Lookups -/

/-- **A lookup begins**: it sees the entries of the table. -/
theorem readLock {addr : ℕ} (hl : s.loc t = .readLock addr) :
    InvOf fresh ({ s with sec := s.sec.enter t }.goto t (.load addr .head)) q := by
  have hd0 : s.sec.depth t = 0 := by
    rw [hi.depth t, hl]
    rfl
  have hnone : ∀ v, s.sec.pre v t = false := hi.sec.not_pre hd0
  have hvis : ∀ {u c}, Visible ({ s with sec := s.sec.enter t }.goto t (.load addr .head)) u c ↔ Visible s u c :=
    Iff.rfl
  refine ⟨hi.path, hi.nodup, hi.table, hi.head, hi.unfreed, hi.lock.stay rfl (by rw [hl]; rfl),
    hi.gp.stay rfl (by rw [hl]; rfl), fun hf c hc => (hi.entry hf c hc).stay rfl (by rw [hl]; rfl), hi.sec.enter t, ?_,
    ?_, fun u c d hd hv hn => ?_, ?_, fun hf c u hc => ?_, ?_, ?_⟩
  · refine forall_update (P := fun u x => (s.sec.enter t).depth u = if inSection x then 1 else 0) rfl ?_ fun u hu => ?_
    · rw [Sections.enter_depth, hd0]
      rfl
    · rw [Sections.enter_depth_ne hu]
      exact hi.depth u
  · refine forall_update (P := fun u x => looksUp x = true → s.rcuHere u = true) rfl (fun _ => ?_) fun u _ => hi.here u
    exact hi.here t (by rw [hl]; rfl)
  · rw [hvis] at hv ⊢
    by_cases hu : u = t
    · subst hu
      have hd : d ∈ q := hi.path.next_mem ?_ hn
      · exact ⟨fun he => hi.head_not_mem (he ▸ hd), hi.visible_of_mem (List.mem_cons_of_mem _ hd)⟩
      rcases hv with rfl | hv | ⟨v, -, hv⟩
      · exact List.mem_cons_self
      · exact List.mem_cons_of_mem _ ((hi.table c).mpr hv)
      · rw [hnone v] at hv
        cases hv
    · change 0 < (s.sec.enter t).depth u at hd
      rw [Sections.enter_depth_ne hu] at hd
      exact hi.closed u c d hd hv hn
  · refine forall_update (P := fun u x => ∀ c, uses x = some c → Visible s u c) rfl
      (fun c hc => ?_) fun u _ => hi.reads u
    cases hc
    exact .inl rfl
  · exact (hi.gone hf c u hc).imp_right (clears_goto rfl (by rw [hl]; nofun))
  · refine forall_update (P := fun u x => Removes s u (pending x)) rfl ?_ fun u _ => hi.removes u
    have h := hi.removes t
    rwa [hl] at h
  · exact forall_update (P := fun u x => LocInv fresh { s with sec := s.sec.enter t } q u x) rfl trivial fun u _ =>
      (hi.loc u).keep rfl rfl rfl fun _ => id

/-- A lookup ends. -/
theorem readUnlock {ret : ℤ} (hl : s.loc t = .readUnlock ret) :
    InvOf fresh ({ s with sec := s.sec.leave t }.answer t ret) q := by
  have hd1 : s.sec.depth t = 1 := by
    rw [hi.depth t, hl]
    rfl
  have hpre : ∀ v {u}, u ≠ t → (s.sec.leave t).pre v u = s.sec.pre v u := fun v u hu =>
    if_neg fun h => hu h.1
  have hvis : ∀ {u c}, u ≠ t → (Visible ({ s with sec := s.sec.leave t }.answer t ret) u c ↔ Visible s u c) := fun hu =>
    visible_congr rfl fun v => hpre v hu
  refine ⟨hi.path, hi.nodup, hi.table, hi.head, hi.unfreed, hi.lock.stay rfl (by rw [hl]; rfl),
    hi.gp.stay rfl (by rw [hl]; rfl), fun hf c hc => (hi.entry hf c hc).stay rfl (by rw [hl]; rfl), hi.sec.leave t, ?_,
    ?_, fun u c d hd hv hn => ?_, ?_, fun hf c u hc => ?_, ?_, ?_⟩
  · refine forall_update (P := fun u x => (s.sec.leave t).depth u = if inSection x then 1 else 0) rfl ?_ fun u hu => ?_
    · rw [Sections.leave_depth, hd1]
      rfl
    · rw [Sections.leave_depth_ne hu]
      exact hi.depth u
  · exact forall_update (P := fun u x => looksUp x = true → s.rcuHere u = true) rfl nofun fun u _ => hi.here u
  · obtain ⟨hu, hd⟩ := Sections.pos_of_leave hd1 hd
    rw [hvis hu] at hv ⊢
    exact hi.closed u c d hd hv hn
  · exact forall_update (P := fun u x => ∀ c, uses x = some c → Visible _ u c) rfl nofun fun u hu c hc =>
      (hvis hu).mpr (hi.reads u c hc)
  · exact (hi.gone hf c u hc).imp_right (clears_goto rfl (by rw [hl]; nofun))
  · refine forall_update (P := fun u x => Removes s u (pending x)) rfl ?_ fun u _ => hi.removes u
    have h := hi.removes t
    rwa [hl] at h
  · exact forall_update (P := fun u x => LocInv fresh { s with sec := s.sec.leave t } q u x) rfl trivial fun u _ =>
      (hi.loc u).keep rfl rfl rfl fun _ hv => (Sections.pre_of_leave hv).1

/-- The lock of an entry is taken. -/
theorem takeEntry {rep : Cell} (hn : s.routeEntryLock rep = none) (hu : fresh = true)
    (hL : ∀ c, holdsEntry c L = decide (rep = c)) (ht : ∀ c, holdsEntry c (s.loc t) = false) (c : Cell)
    (hc : s.status c ≠ .unused) :
    LockedBy (holdsEntry c) (Function.update s.routeEntryLock rep (some t) c) (Function.update s.loc t L) := by
  by_cases hcr : c = rep
  · subst hcr
    rw [Function.update_self]
    have h := hi.entry hu c hc
    rw [hn] at h
    exact h.take rfl ((hL c).trans (decide_eq_true rfl))
  · rw [Function.update_of_ne hcr]
    refine (hi.entry hu c hc).stay rfl ?_
    rw [hL, ht]
    exact decide_eq_false fun h => hcr h.symm

/-- It is released. -/
theorem dropEntry {rep : Cell} (hu : fresh = true) (hL : ∀ c, holdsEntry c L = false)
    (ht : ∀ c, holdsEntry c (s.loc t) = decide (rep = c)) (c : Cell) (hc : s.status c ≠ .unused) :
    LockedBy (holdsEntry c) (Function.update s.routeEntryLock rep none c) (Function.update s.loc t L) := by
  by_cases hcr : c = rep
  · subst hcr
    rw [Function.update_self]
    exact (hi.entry hu c hc).drop rfl ((ht c).trans (decide_eq_true rfl)) (hL c)
  · rw [Function.update_of_ne hcr]
    refine (hi.entry hu c hc).stay rfl ?_
    rw [hL, ht]
    exact (decide_eq_false fun h => hcr h.symm).symm

/-- A lookup goes on with an entry that it sees. -/
theorem lookupGoto {L₀ : Loc n} (hl : s.loc t = L₀) (hin : inSection L₀ = true) (hin' : inSection L = true)
    (hentry : ∀ c, holdsEntry c L = holdsEntry c L₀) (huses : ∀ c, uses L = some c → Visible s t c)
    (hloc : LocInv fresh s q t L) : InvOf fresh (s.goto t L) q := by
  obtain ⟨hr, hg, hp, hc, hk⟩ := of_section hin
  obtain ⟨hr', hg', hp', hc', -⟩ := of_section hin'
  refine hi.goto hl (hr'.trans hr.symm) (hg'.trans hg.symm) hentry (hin'.trans hin.symm)
    (fun _ => hi.here t (by rw [hl]; exact hk)) huses (hp'.trans hp.symm) (fun h => ?_) hloc
  rw [hc] at h
  cases h

/-- It takes or releases the lock of an entry. -/
theorem lookupLock {L₀ : Loc n} {o : Option (Fin n)} (hl : s.loc t = L₀) (hin : inSection L₀ = true)
    (hin' : inSection L = true) (huses : ∀ c, uses L = some c → Visible s t c) (hloc : LocInv fresh s q t L)
    (hentry : fresh = true → ∀ c, s.status c ≠ .unused →
      LockedBy (holdsEntry c) (Function.update s.routeEntryLock rep o c) (Function.update s.loc t L)) :
    InvOf fresh ((s.setEntryLock rep o).goto t L) q := by
  obtain ⟨hr, hg, hp, hc, hk⟩ := of_section hin
  obtain ⟨hr', hg', hp', hc', -⟩ := of_section hin'
  subst hl
  refine hi.move rfl rfl rfl rfl rfl rfl (fun _ hu _ => hu) (hi.lock.stay rfl (hr'.trans hr.symm))
    (hi.gp.stay rfl (hg'.trans hg.symm)) hentry (hin'.trans hin.symm) (fun _ => hi.here t hk) huses (hp'.trans hp.symm)
    (fun h => ?_) hloc
  rw [hc] at h
  cases h

/-- **A step of a lookup** in its section. -/
theorem lookupStep (hu : inSection (s.loc t) = true) (hn : stepThread fresh t s = some s') : InvOf fresh s' q := by
  have hd := hi.pos_of_section hu
  have hreads := hi.reads t
  have hloc := hi.loc t
  have huses : ∀ {rep}, uses (s.loc t) = some rep → ∀ c, some rep = some c → Visible s t c := fun hu c hc =>
    Option.some.inj hc ▸ hreads _ hu
  unfold stepThread at hn
  cases hl : s.loc t with
  | load addr p =>
    rw [hl] at hreads hn
    dsimp only at hn
    cases hrep : s.next p with
    | none =>
      rw [hrep] at hn
      cases hn
      exact hi.lookupGoto hl rfl rfl (fun _ => rfl) nofun trivial
    | some rep =>
      rw [hrep] at hn
      cases hn
      obtain ⟨hh, hv⟩ := hi.closed t p rep hd (hreads p rfl) hrep
      refine hi.lookupGoto hl rfl rfl (fun _ => rfl) (fun c hc => ?_) hh
      cases hc
      exact hv
  | readAddr addr rep =>
    rw [hl] at huses hloc hn
    cases hn
    split
    · exact hi.lookupGoto hl rfl rfl (fun _ => rfl) (huses rfl) hloc
    · exact hi.lookupGoto hl rfl rfl (fun _ => rfl) (huses rfl) trivial
  | readIface rep =>
    rw [hl] at huses hloc hn
    cases hn
    exact hi.lookupGoto hl rfl rfl (fun _ => rfl) (huses rfl) hloc
  | readFreed rep ret =>
    rw [hl] at hloc
    have hfreed : s.freed rep = false := (hi.lookups (t := t) (by rw [hl]; rfl) hloc).2
    rw [hl] at huses hn
    dsimp only at hn
    rw [hfreed, if_neg Bool.false_ne_true] at hn
    cases hn
    split
    · next hf => exact hi.lookupGoto hl rfl rfl (fun _ => rfl) (huses rfl) ⟨hloc, hf⟩
    · exact hi.lookupGoto hl rfl rfl (fun _ => rfl) nofun trivial
  | entryLock rep ret =>
    rw [hl] at huses hloc hn
    dsimp only at hn
    split at hn
    · next hnone =>
      cases hn
      exact hi.lookupLock hl rfl rfl (huses rfl) hloc
        fun hf => hi.takeEntry hnone hf (fun _ => rfl) fun _ => by rw [hl]; rfl
    · cases hn
  | readRemoved rep ret =>
    rw [hl] at huses hloc hn
    cases hn
    split
    · exact hi.lookupGoto hl rfl rfl (fun _ => rfl) (huses rfl) hloc.1
    · next hrem =>
      exact hi.lookupGoto hl rfl rfl (fun _ => rfl) (huses rfl) ⟨hloc.1, hloc.2, Bool.eq_false_iff.mpr hrem⟩
  | doSomething rep ret =>
    rw [hl] at huses hloc hn
    cases hn
    exact hi.lookupGoto hl rfl rfl (fun _ => rfl) (huses rfl) hloc.1
  | entryUnlock rep ret =>
    rw [hl] at hn
    cases hn
    exact hi.lookupLock hl rfl rfl nofun trivial fun hf => hi.dropEntry hf (fun _ => rfl) fun _ => by rw [hl]; rfl
  | readUnlock ret =>
    rw [hl] at hn
    cases hn
    exact hi.readUnlock hl
  | aborted =>
    rw [hl] at hn
    cases hn
  | _ =>
    rw [hl] at hu
    cases hu

/-! ### Updates -/

/-- **A step of an update**: the lookups keep what they see. -/
theorem update (hloc : s'.loc = Function.update s.loc t L) (hno : looksUp (s.loc t) = false) (hno' : looksUp L = false)
    (hhere : s'.rcuHere = s.rcuHere) (hdepth : s'.sec.depth = s.sec.depth) (hsec : s'.sec.Ok)
    (hpath : Linked s'.next .head q') (hnodup : q'.Nodup) (htable : ∀ c, c ∈ q' ↔ s'.status c = .table)
    (hhead : s'.status .head = .unused) (hunfreed : ∀ c, s'.status c ≠ .unused → s'.freed c = false)
    (hlock : LockedBy holdsRoute s'.routelock s'.loc) (hgp : LockedBy holdsGp s'.rcuGpLock s'.loc)
    (hentry : fresh = true → ∀ c, s'.status c ≠ .unused → LockedBy (holdsEntry c) (s'.routeEntryLock c) s'.loc)
    (hvis : ∀ u c, 0 < s.sec.depth u → Visible s u c → Visible s' u c)
    (hclosed : ∀ u c d, 0 < s.sec.depth u → Visible s' u c → s'.next c = some d → d ≠ .head ∧ Visible s' u d)
    (hgone : fresh = true → ∀ c u, s'.status c = .removed u → s'.removed c = true ∨ clears (s'.loc u) = true)
    (hremoves : Removes s' t (pending L)) (hremoves' : ∀ u, u ≠ t → Removes s' u (pending (s.loc u)))
    (hinv : LocInv fresh s' q' t L) (hinv' : ∀ u, u ≠ t → LocInv fresh s' q' u (s.loc u)) : InvOf fresh s' q' where
  path := hpath
  nodup := hnodup
  table := htable
  head := hhead
  unfreed := hunfreed
  lock := hlock
  gp := hgp
  entry := hentry
  sec := hsec
  depth := by
    rw [hdepth]
    refine forall_update (P := fun u x => s.sec.depth u = if inSection x then 1 else 0) hloc ?_ fun u _ => hi.depth u
    have hin : ∀ {L : Loc n}, looksUp L = false → inSection L = false := fun {L} h => by
      revert h
      cases L <;> first | exact fun _ => rfl | nofun
    rw [hin hno', hi.depth t, hin hno]
  here := by
    rw [hhere]
    exact forall_update (P := fun u x => looksUp x = true → s.rcuHere u = true) hloc
      (fun h => by rw [hno'] at h; cases h) fun u _ => hi.here u
  closed u c d hd := hclosed u c d (by rwa [hdepth] at hd)
  reads := by
    refine forall_update (P := fun u x => ∀ c, uses x = some c → Visible s' u c) hloc (fun c hc => ?_) fun u _ c hc =>
      hvis u c (hi.pos_of_uses hc) (hi.reads u c hc)
    rw [(of_section (section_of_uses hc)).2.2.2.2] at hno'
    cases hno'
  gone := hgone
  removes := forall_update (P := fun u x => Removes s' u (pending x)) hloc hremoves hremoves'
  loc := forall_update (P := fun u x => LocInv fresh s' q' u x) hloc hinv hinv'

/-- Nobody holds the lock of an entry that is not in use. -/
theorem not_holdsEntry (hc : s.status c = .unused) (hh : c ≠ .head) (u : Fin n) : holdsEntry c (s.loc u) = false := by
  have hloc := hi.loc u
  have hreads := hi.reads u
  have hused : ∀ rep, Visible s u rep → decide (rep = c) = false := fun rep hv =>
    decide_eq_false fun he => visible_used hv (he ▸ hh) (he ▸ hc)
  have hmem : ∀ {p rep}, At q p rep → decide (rep = c) = false := fun h =>
    hused _ (.inr (.inl ((hi.table _).mp h.mem.1)))
  revert hloc hreads
  cases s.loc u with
  | readRemoved rep ret | doSomething rep ret | entryUnlock rep ret => exact fun _ hr => hused rep (hr rep rfl)
  | delRemoved p rep | delEntryUnlock p rep => exact fun hl _ => hmem hl.1
  | _ => exact fun _ _ => rfl

/-- **An entry is allocated.** -/
theorem alloc {a addr : ℕ} {iface : ℤ} (hl : s.loc t = .idle) (ha : s.status (.entry a) = .unused) :
    InvOf fresh ((s.alloc fresh t (.entry a) addr iface).goto t (.addLock (.entry a))) q := by
  have hne : ∀ c, s.status c ≠ .unused → c ≠ .entry a := fun c hc he => hc (he ▸ ha)
  have hself : Function.update s.status (.entry a) (.own t) (.entry a) = .own t := Function.update_self ..
  have hst : ∀ c, c ≠ .entry a → Function.update s.status (.entry a) (.own t) c = s.status c := fun c hc =>
    Function.update_of_ne hc ..
  have htab : ∀ c, Function.update s.status (.entry a) (.own t) c = .table ↔ s.status c = .table :=
    status_iff ha nofun nofun
  have hrmv : ∀ v c, Function.update s.status (.entry a) (.own t) c = .removed v ↔ s.status c = .removed v := fun v =>
    status_iff ha nofun nofun
  have hvis : ∀ {u c}, Visible ((s.alloc fresh t (.entry a) addr iface).goto t (.addLock (.entry a))) u c ↔
      Visible s u c := visible_iff (htab _) fun v => and_congr_left' (hrmv v _)
  have hrem : ∀ c, c ≠ .entry a →
      (if fresh then Function.update s.removed (.entry a) false else s.removed) c = s.removed c := fun c hc => by
    split
    · exact Function.update_of_ne hc ..
    · rfl
  refine hi.update rfl (by rw [hl]; rfl) rfl rfl rfl hi.sec hi.path hi.nodup
    (fun c => (hi.table c).trans (htab c).symm) (hi.head ▸ hst .head nofun) (fun c hc => ?_)
    (hi.lock.stay rfl (by rw [hl]; rfl)) (hi.gp.stay rfl (by rw [hl]; rfl)) (fun hf c hc => ?_) (fun u c _ => hvis.mpr)
    (fun u c d hd hv hn => ?_) (fun hf c u hc => ?_) (fun c hc => ?_) (fun u hu => ?_) hself fun u hu => ?_
  · by_cases hca : c = .entry a
    · subst hca
      exact Function.update_self ..
    · exact (Function.update_of_ne hca ..).trans (hi.unfreed c fun h => hc ((hst c hca).trans h))
  · rw [show ((s.alloc fresh t (.entry a) addr iface).goto t (.addLock (.entry a))).routeEntryLock =
      Function.update s.routeEntryLock (.entry a) none from if_pos hf]
    by_cases hca : c = .entry a
    · subst hca
      rw [Function.update_self]
      refine forall_update (P := fun u x => none = some u ↔ holdsEntry (.entry a) x = true) rfl
        (iff_of_false nofun nofun) fun u _ => iff_of_false nofun ?_
      exact Bool.eq_false_iff.mp (hi.not_holdsEntry ha nofun u)
    · rw [Function.update_of_ne hca]
      exact (hi.entry hf c fun h => hc ((hst c hca).trans h)).stay rfl (by rw [hl]; rfl)
  · exact (hi.closed u c d hd (hvis.mp hv) hn).imp_right hvis.mpr
  · have hc' := (hrmv u c).mp hc
    refine (hi.gone hf c u hc').imp (fun h => ?_) ?_
    · exact (hrem c (hne c (by rw [hc']; nofun))).trans h
    · exact clears_goto (s := s) rfl (by rw [hl]; nofun)
  · have h := hi.removes t
    rw [hl] at h
    exact h c ((hrmv t c).mp hc)
  · exact (hi.removes u).keep (fun _ _ => rfl) (hrmv u)
  · refine (hi.loc u).frame rfl (fun c hc => (hst c (hne c (by rw [hc]; nofun))).trans hc) (fun c hc => hrem c ?_)
      fun _ => id
    · rintro rfl
      rcases hc with hc | hc
      · have := (hi.table _).mp hc
        rw [ha] at this
        cases this
      · exact visible_used (hi.reads u _ hc) nofun ha

theorem addStore (hl : s.loc t = .addStore rep o) : InvOf fresh ((s.store rep o).goto t (.addLink rep)) q := by
  have hlock : holdsRoute (s.loc t) = true := by rw [hl]; rfl
  have hloc := hi.loc t
  rw [hl] at hloc
  obtain ⟨hown, ho⟩ := hloc
  have hh : rep ≠ .head := hi.ne_head (by rw [hown]; nofun)
  have hnext : ∀ c, c ≠ rep → Function.update s.next rep o c = s.next c := fun c hc => Function.update_of_ne hc ..
  have hvis : ∀ {u c}, Visible s u c → c ≠ rep := fun {u c} hv hc => by
    subst hc
    rcases hv with h | h | ⟨v, h, -⟩
    · exact hh h
    · rw [hown] at h
      cases h
    · rw [hown] at h
      cases h
  refine hi.update rfl (by rw [hl]; rfl) rfl rfl rfl hi.sec ?_ hi.nodup hi.table hi.head hi.unfreed
    (hi.lock.stay rfl (by rw [hl]; rfl)) (hi.gp.stay rfl (by rw [hl]; rfl))
    (fun hf c hc => (hi.entry hf c hc).stay rfl (by rw [hl]; rfl)) (fun _ _ _ => id) (fun u c d hd hv hn => ?_)
    (fun hf c u hc => ?_) ?_ (fun u hu => ?_) ⟨hown, ?_⟩ fun u hu => ?_
  · exact hi.path.congr fun c hc => hnext c (hi.ne_of_mem (by rw [hown]; nofun) hh hc)
  · have hn' : Function.update s.next rep o c = some d := hn
    rw [hnext c (hvis hv)] at hn'
    exact hi.closed u c d hd hv hn'
  · exact (hi.gone hf c u hc).imp_right (clears_goto (s := s) rfl (by rw [hl]; nofun))
  · have h := hi.removes t
    rwa [hl] at h
  · exact (hi.removes u).keep (fun c hc => hnext c fun he => by rw [he, hown] at hc; cases hc) fun _ => Iff.rfl
  · change Function.update s.next rep o rep = Function.update s.next rep o .head
    rw [Function.update_self, hnext .head hh.symm, ho]
  · exact (hi.loc u).other (hi.others hlock hu) (fun _ => id) (fun _ _ _ => id) fun _ => id

/-- **An entry is added.** -/
theorem addLink (hl : s.loc t = .addLink rep) :
    InvOf fresh (((s.store .head (some rep)).setStatus rep .table).goto t .addUnlock) (rep :: q) := by
  have hlock : holdsRoute (s.loc t) = true := by rw [hl]; rfl
  have hloc := hi.loc t
  rw [hl] at hloc
  obtain ⟨hown, ho⟩ := hloc
  have hused : s.status rep ≠ .unused := by rw [hown]; nofun
  have hh : rep ≠ .head := hi.ne_head hused
  have hnm : rep ∉ q := hi.not_mem_of_status (by rw [hown]; nofun)
  set s' := ((s.store .head (some rep)).setStatus rep .table).goto t .addUnlock with hs'
  have hhead : s'.next .head = some rep := St.store_self (s := s) (p := .head)
  have hnext : ∀ c, c ≠ .head → s'.next c = s.next c := fun c hc => Function.update_of_ne hc ..
  have hself : s'.status rep = .table := Function.update_self ..
  have hst : ∀ c, c ≠ rep → s'.status c = s.status c := fun c hc => Function.update_of_ne hc ..
  have hrmv : ∀ v c, s'.status c = .removed v ↔ s.status c = .removed v := fun v => status_iff hown nofun nofun
  have hvis : ∀ {u c}, c ≠ rep → (Visible s' u c ↔ Visible s u c) := fun hc =>
    visible_iff (by rw [hst _ hc]) fun v => and_congr_left' (hrmv v _)
  have hmono : ∀ {u c}, Visible s u c → Visible s' u c := fun {u c} hv => by
    by_cases hc : c = rep
    · exact .inr (.inl (hc ▸ hself))
    · exact (hvis hc).mpr hv
  refine hi.update rfl (by rw [hl]; rfl) rfl rfl rfl hi.sec ⟨hhead, ?_⟩ (List.nodup_cons.mpr ⟨hnm, hi.nodup⟩)
    (fun c => ?_) ((hst .head hh.symm).trans hi.head) (fun c hc => hi.unfreed c ?_) (hi.lock.stay rfl (by rw [hl]; rfl))
    (hi.gp.stay rfl (by rw [hl]; rfl)) (fun hf c hc => (hi.entry hf c ?_).stay rfl (by rw [hl]; rfl))
    (fun _ _ _ => hmono) (fun u c d hd hv hn => ?_)
    (fun hf c u hc => ?_) (fun c hc => ?_) (fun u hu => ?_) trivial fun u hu => ?_
  · exact hi.path.moved ((hnext rep hh).trans ho) fun c hc => hnext c fun he => hi.head_not_mem (he ▸ hc)
  · rw [List.mem_cons]
    by_cases hc : c = rep
    · subst hc
      exact iff_of_true (.inl rfl) hself
    · rw [hst c hc, or_iff_right hc]
      exact hi.table c
  · by_cases hcr : c = rep
    · exact hcr ▸ hused
    · rwa [← hst c hcr]
  · by_cases hcr : c = rep
    · exact hcr ▸ hused
    · rwa [← hst c hcr]
  · by_cases hch : c = .head
    · subst hch
      cases hhead.symm.trans hn
      exact ⟨hh, .inr (.inl hself)⟩
    · rw [hnext c hch] at hn
      by_cases hcr : c = rep
      · rw [hcr, ho] at hn
        exact (hi.closed u .head d hd (.inl rfl) hn).imp_right hmono
      · exact (hi.closed u c d hd ((hvis hcr).mp hv) hn).imp_right hmono
  · exact (hi.gone hf c u ((hrmv u c).mp hc)).imp_right (clears_goto (s := s) rfl (by rw [hl]; nofun))
  · have h := hi.removes t
    rw [hl] at h
    exact h c ((hrmv t c).mp hc)
  · exact (hi.removes u).keep (fun c hc => hnext c (hi.ne_head (by rw [hc]; nofun))) (hrmv u)
  · exact (hi.loc u).other (hi.others hlock hu)
      (fun c hc => (hst c fun he => hu (Status.own.inj (hc.symm.trans ((congrArg _ he).trans hown)))).trans hc)
      (fun _ _ _ => id) fun _ => id

/-- The entry is marked as removed, under its lock. -/
theorem delRemoved (hl : s.loc t = .delRemoved p rep) :
    InvOf fresh ({ s with removed := Function.update s.removed rep true }.goto t (.delEntryUnlock p rep)) q := by
  have hlock : holdsRoute (s.loc t) = true := by rw [hl]; rfl
  have hloc := hi.loc t
  rw [hl] at hloc
  obtain ⟨hat, hf⟩ := hloc
  have hused : s.status rep ≠ .unused := by
    rw [(hi.table rep).mp hat.mem.1]
    nofun
  have hself : Function.update s.removed rep true rep = true := Function.update_self ..
  refine hi.update rfl (by rw [hl]; rfl) rfl rfl rfl hi.sec hi.path hi.nodup hi.table hi.head hi.unfreed
    (hi.lock.stay rfl (by rw [hl]; rfl)) (hi.gp.stay rfl (by rw [hl]; rfl))
    (fun hf c hc => (hi.entry hf c hc).stay rfl (by rw [hl]; rfl)) (fun _ _ _ => id) hi.closed
    (fun hf c u hc => ?_) ?_ (fun u hu => hi.removes u) ⟨hat, hself⟩ fun u hu => ?_
  · refine (hi.gone hf c u hc).imp (fun h => ?_) ?_
    · by_cases hcr : c = rep
      · exact hcr ▸ hself
      · exact (Function.update_of_ne hcr ..).trans h
    · exact clears_goto (s := s) rfl (by rw [hl]; nofun)
  · have h := hi.removes t
    rwa [hl] at h
  · refine (hi.loc u).other (hi.others hlock hu) (fun _ => id) (fun rep' ret hlu hrem => ?_) fun _ => id
    refine (Function.update_of_ne (fun he => hu ?_) ..).trans hrem
    -- a lookup that is going to use the entry has its lock
    refine (hi.entry hf rep hused).eq (t := t) (u := u) ?_ ?_
    · rw [hl]
      exact decide_eq_true rfl
    · rw [hlu]
      exact decide_eq_true he

/-- What is removed by `t` now was not removed before: its call had not come to that. -/
theorem none_removed (hp : pending (s.loc t) = none) (c : Cell) : s.status c ≠ .removed t := by
  have h := hi.removes t
  rw [hp] at h
  exact h c

/-- Entries of the table are removed by `t`, which waits for all that look up. -/
theorem visible_observe (hp : pending (s.loc t) = none)
    (hst : ∀ c, s'.status c = s.status c ∨ s.status c = .table ∧ s'.status c = .removed t)
    (hsec : s'.sec = s.sec.observe t) (hd : 0 < s.sec.depth u) : Visible s' u c ↔ Visible s u c := by
  have hpre : ∀ v, v ≠ t → s'.sec.pre v u = s.sec.pre v u := fun v hv => by rw [hsec, Sections.observe_pre_ne hv]
  have hself : s'.sec.pre t u = true := by
    rw [hsec]
    exact Sections.observe_pre.mpr hd
  rcases hst c with hsame | ⟨htable, hrem⟩
  · refine visible_iff (by rw [hsame]) fun v => ?_
    by_cases hv : v = t
    · rw [hsame, hv]
      exact iff_of_false (fun h => hi.none_removed hp c h.1) fun h => hi.none_removed hp c h.1
    · rw [hsame, hpre v hv]
  · exact iff_of_true (.inr (.inr ⟨t, hrem, hself⟩)) (.inr (.inl htable))

/-- **An entry is unlinked.** -/
theorem unlink (hl : s.loc t = .unlink p rep o) : ∃ q', InvOf fresh
    ({ (s.store p o).setStatus rep (.removed t) with sec := s.sec.observe t }.goto t (.delUnlock (some rep))) q' := by
  have hlock : holdsRoute (s.loc t) = true := by rw [hl]; rfl
  have hpend : pending (s.loc t) = none := by rw [hl]; rfl
  have hloc := hi.loc t
  rw [hl] at hloc
  obtain ⟨hat, hrem, ho⟩ := hloc
  have htable : s.status rep = .table := (hi.table rep).mp hat.mem.1
  have hp := hat.mem.2
  have hh : rep ≠ .head := hi.ne_head (by rw [htable]; nofun)
  set s' := { (s.store p o).setStatus rep (.removed t) with sec := s.sec.observe t }.goto t (.delUnlock (some rep))
    with hs'
  have hnextp : s'.next p = o := St.store_self
  have hnext : ∀ c, c ≠ p → s'.next c = s.next c := fun c hc => Function.update_of_ne hc ..
  have hself : s'.status rep = .removed t := St.setStatus_self
  have hst : ∀ c, c ≠ rep → s'.status c = s.status c := fun c hc => Function.update_of_ne hc ..
  have hvis : ∀ {u c}, 0 < s.sec.depth u → (Visible s' u c ↔ Visible s u c) := fun {u c} hd => by
    refine hi.visible_observe hpend (fun c => ?_) rfl hd
    by_cases hc : c = rep
    · exact .inr ⟨hc ▸ htable, hc ▸ hself⟩
    · exact .inl (hst c hc)
  have hrmv : ∀ v, v ≠ t → ∀ c, s'.status c = .removed v ↔ s.status c = .removed v := fun v hv =>
    status_iff htable nofun fun h => hv (Status.removed.inj h).symm
  have hunused : ∀ c, s'.status c ≠ .unused → s.status c ≠ .unused := fun c hc => by
    by_cases hcr : c = rep
    · rw [hcr, htable]
      nofun
    · rwa [← hst c hcr]
  obtain ⟨l, l', rfl, rfl⟩ := hat
  have hnd := hi.nodup
  refine ⟨l ++ l', hi.update rfl (by rw [hl]; rfl) rfl rfl rfl (hi.sec.observe t) ?_ ?_ (fun c => ?_)
    ((hst .head hh.symm).trans hi.head) (fun c hc => hi.unfreed c (hunused c hc)) (hi.lock.stay rfl (by rw [hl]; rfl))
    (hi.gp.stay rfl (by rw [hl]; rfl)) (fun hf c hc => (hi.entry hf c (hunused c hc)).stay rfl (by rw [hl]; rfl))
    (fun u c hd => (hvis hd).mpr) (fun u c d hd hv hn => ?_) (fun hf c u hc => ?_) (fun c => ?_) (fun u hu => ?_)
    trivial fun u hu => ?_⟩
  · exact hi.path.erase (hnextp.trans ho.symm) (fun c _ hc => hnext c hc) hi.nodup_head
  · exact ((List.sublist_cons_self rep l').append_left l).nodup hnd
  · by_cases hcr : c = rep
    · subst hcr
      rw [hself]
      refine iff_of_false (fun hm => ?_) nofun
      rw [List.nodup_append_comm, List.cons_append] at hnd
      exact (List.nodup_cons.mp hnd).1 (List.mem_append.mpr (List.mem_append.mp hm).symm)
    · rw [hst c hcr, ← hi.table c, List.mem_append, List.mem_append, List.mem_cons, or_iff_right hcr]
  · rw [hvis hd] at hv
    by_cases hcp : c = before .head l
    · -- what the entry leads to is seen
      rw [hcp, hnextp, ← ho] at hn
      exact (hi.closed u rep d hd (.inr (.inl htable)) hn).imp_right (hvis hd).mpr
    · rw [hnext c hcp] at hn
      exact (hi.closed u c d hd hv hn).imp_right (hvis hd).mpr
  · by_cases hcr : c = rep
    · exact .inl (hcr ▸ hrem hf)
    · rw [hst c hcr] at hc
      exact (hi.gone hf c u hc).imp_right (clears_goto (s := s) rfl (by rw [hl]; nofun))
  · by_cases hcr : c = rep
    · subst hcr
      exact iff_of_true hself rfl
    · rw [hst c hcr]
      exact iff_of_false (hi.none_removed hpend c) hcr
  · refine (hi.removes u).keep (fun c hc => hnext c ?_) (hrmv u hu)
    exact (hi.ne_of_mem (by rw [hc]; nofun) (hi.ne_head (by rw [hc]; nofun)) hp).symm
  · refine (hi.loc u).other (hi.others hlock hu) (fun c hc => (hst c fun he => ?_).trans hc)
      (fun _ _ _ => id) fun v hv => ?_
    · rw [he, htable] at hc
      cases hc
    · exact (congrFun (Sections.observe_pre_ne hu) v).symm.trans hv

/-- **All entries are taken off the list.** -/
theorem clearStore (hl : s.loc t = .clearStore o) : InvOf fresh
    ({ (s.store .head none).removeAll t with sec := s.sec.observe t }.goto t (.syncLock (.clear o))) [] := by
  have hlock : holdsRoute (s.loc t) = true := by rw [hl]; rfl
  have hpend : pending (s.loc t) = none := by rw [hl]; rfl
  have ho := hi.loc t
  rw [hl] at ho
  change s.next .head = o at ho
  set s' := { (s.store .head none).removeAll t with sec := s.sec.observe t }.goto t (.syncLock (.clear o)) with hs'
  have hhead : s'.next .head = none := St.store_self (s := s) (p := .head)
  have hnext : ∀ c, c ≠ .head → s'.next c = s.next c := fun c hc => Function.update_of_ne hc ..
  have htab : ∀ c, s.status c = .table → s'.status c = .removed t := fun c hc => if_pos hc
  have hst : ∀ c, s.status c ≠ .table → s'.status c = s.status c := fun c hc => if_neg hc
  have hvis : ∀ {u c}, 0 < s.sec.depth u → (Visible s' u c ↔ Visible s u c) := fun {u c} hd => by
    refine hi.visible_observe hpend (fun c => ?_) rfl hd
    by_cases hc : s.status c = .table
    · exact .inr ⟨hc, htab c hc⟩
    · exact .inl (hst c hc)
  have hrmv : ∀ v, v ≠ t → ∀ c, s'.status c = .removed v ↔ s.status c = .removed v := fun v hv c => by
    by_cases hc : s.status c = .table
    · rw [htab c hc, hc]
      exact iff_of_false (fun h => hv (Status.removed.inj h).symm) nofun
    · rw [hst c hc]
  have hunused : ∀ c, s'.status c ≠ .unused → s.status c ≠ .unused := fun c hc he => by
    rw [hst c (by rw [he]; nofun)] at hc
    exact hc he
  refine hi.update rfl (by rw [hl]; rfl) rfl rfl rfl (hi.sec.observe t) hhead List.nodup_nil (fun c => ?_)
    ((hst .head (by rw [hi.head]; nofun)).trans hi.head) (fun c hc => hi.unfreed c (hunused c hc))
    (hi.lock.stay rfl (by rw [hl]; rfl)) (hi.gp.stay rfl (by rw [hl]; rfl))
    (fun hf c hc => (hi.entry hf c (hunused c hc)).stay rfl (by rw [hl]; rfl))
    (fun u c hd => (hvis hd).mpr) (fun u c d hd hv hn => ?_) (fun hf c u hc => ?_) ⟨q, ?_, hi.nodup, fun c => ?_⟩
    (fun u hu => ?_) trivial fun u hu => ?_
  · refine iff_of_false nofun fun hc => ?_
    by_cases h : s.status c = .table
    · rw [htab c h] at hc
      cases hc
    · exact h ((hst c h).symm.trans hc)
  · rw [hvis hd] at hv
    by_cases hch : c = .head
    · subst hch
      exact nomatch hhead.symm.trans hn
    · rw [hnext c hch] at hn
      exact (hi.closed u c d hd hv hn).imp_right (hvis hd).mpr
  · by_cases hut : u = t
    · have hloc : s'.loc u = .syncLock (.clear o) := hut ▸ update_self rfl
      exact .inr (by rw [hloc]; rfl)
    · have hloc : s'.loc u = s.loc u := update_ne rfl hut
      exact (hi.gone hf c u ((hrmv u hut c).mp hc)).imp_right fun h => by rw [hloc]; exact h
  · have hpath := hi.path
    cases q with
    | nil =>
      rw [show o = none from ho.symm.trans hpath]
      rfl
    | cons r q =>
      rw [show o = some r from ho.symm.trans hpath.1]
      exact ⟨q, rfl, hpath.2.congr fun c hc => hnext c fun he => hi.head_not_mem (he ▸ hc)⟩
  · rw [hi.table c]
    by_cases hc : s.status c = .table
    · exact iff_of_true (htab c hc) hc
    · rw [hst c hc]
      exact iff_of_false (hi.none_removed hpend c) hc
  · exact (hi.removes u).keep (fun c hc => hnext c (hi.ne_head (by rw [hc]; nofun))) (hrmv u hu)
  · refine (hi.loc u).other (hi.others hlock hu) (fun c hc => (hst c (by rw [hc]; nofun)).trans hc) (fun _ _ _ => id)
      fun v hv => ?_
    exact (congrFun (Sections.observe_pre_ne hu) v).symm.trans hv

/-- **An entry is freed.** The call has waited for all that see it. -/
theorem reFree (hrep : s.status rep = .removed t) (hw : s.sec.Waited t) (hno : looksUp (s.loc t) = false)
    (hno' : looksUp L = false) {r : Fin n → ℤ} (hs : s' = { s.reFree rep with ret := r }.goto t L)
    (hlock : holdsRoute L = holdsRoute (s.loc t)) (hgp : holdsGp L = holdsGp (s.loc t))
    (hentry : ∀ c, holdsEntry c L = holdsEntry c (s.loc t)) (hclears : clears (s.loc t) = true → clears L = true)
    (hremoves : ∀ s' : St n, s'.next = s.next → (∀ c, s'.status c = .removed t ↔ s.status c = .removed t ∧ c ≠ rep) →
      Removes s' t (pending L))
    (hinv : LocInv fresh s q t L) : InvOf fresh s' q := by
  subst hs
  have hh : rep ≠ .head := hi.ne_head (by rw [hrep]; nofun)
  have hself : Function.update s.status rep .unused rep = .unused := Function.update_self ..
  have hst : ∀ c, c ≠ rep → Function.update s.status rep .unused c = s.status c :=
    fun c hc => Function.update_of_ne hc ..
  have hne : ∀ c, Function.update s.status rep .unused c ≠ .unused → c ≠ rep := fun c hc he => hc (he ▸ hself)
  have hrmv : ∀ v, v ≠ t → ∀ c, Function.update s.status rep .unused c = .removed v ↔ s.status c = .removed v :=
    fun v hv => status_iff hrep (fun h => hv (Status.removed.inj h).symm) nofun
  have htab : ∀ c, Function.update s.status rep .unused c = .table ↔ s.status c = .table := status_iff hrep nofun nofun
  have hrmvt : ∀ c, Function.update s.status rep .unused c = .removed t ↔ s.status c = .removed t ∧ c ≠ rep :=
    fun c => by
    by_cases hc : c = rep
    · subst hc
      rw [hself]
      exact iff_of_false nofun fun h => h.2 rfl
    · rw [hst c hc]
      exact (and_iff_left hc).symm
  have hvis : ∀ {u c}, Visible ({ s.reFree rep with ret := r }.goto t L) u c ↔ Visible s u c := by
    refine fun {u c} => visible_iff (htab c) fun v => ?_
    by_cases hv : v = t
    · subst hv
      change _ ∧ s.sec.pre v u = true ↔ _
      rw [hw u]
      exact iff_of_false (fun h => Bool.false_ne_true h.2) fun h => Bool.false_ne_true h.2
    · exact and_congr_left' (hrmv v hv c)
  refine hi.update rfl hno hno' rfl rfl hi.sec hi.path hi.nodup
    (fun c => (hi.table c).trans (htab c).symm) ((hst .head hh.symm).trans hi.head)
    (fun c hc => ?_) (hi.lock.stay rfl hlock) (hi.gp.stay rfl hgp)
    (fun hf c hc => (hi.entry hf c fun h => hc ((hst c (hne c hc)).trans h)).stay rfl (hentry c))
    (fun _ _ _ => hvis.mpr) (fun u c d hd hv hn => ?_) (fun hf c u hc => ?_) (hremoves _ rfl hrmvt) (fun u hu => ?_)
    (hinv.frame rfl (fun c hc => ?_) (fun _ _ => rfl) fun _ => id) fun u hu => ?_
  · exact (Function.update_of_ne (hne c hc) ..).trans (hi.unfreed c fun h => hc ((hst c (hne c hc)).trans h))
  · exact (hi.closed u c d hd (hvis.mp hv) hn).imp_right hvis.mpr
  · have hc' : s.status c = .removed u := (hst c (hne c fun h => nomatch hc.symm.trans h)).symm.trans hc
    exact (hi.gone hf c u hc').imp_right (clears_goto (s := s) rfl hclears)
  · exact (hi.removes u).keep (fun _ _ => rfl) (hrmv u hu)
  · exact (hst c fun he => by rw [he, hrep] at hc; cases hc).trans hc
  · exact (hi.loc u).frame rfl (fun c hc => (hst c fun he => by rw [he, hrep] at hc; cases hc).trans hc)
      (fun _ _ => rfl) fun _ => id

/-! ### Steps of updates that only read, and locks -/

/-- An update goes on, and takes or releases no lock. -/
theorem updateGoto {L₀ : Loc n} (hl : s.loc t = L₀) (hno : looksUp L = false) (hlock : holdsRoute L = holdsRoute L₀)
    (hgp : holdsGp L = holdsGp L₀) (hentry : ∀ c, holdsEntry c L = holdsEntry c L₀) (hin : inSection L = inSection L₀)
    (hpending : pending L = pending L₀) (hclears : clears L₀ = true → clears L = true)
    (hloc : LocInv fresh s q t L) : InvOf fresh (s.goto t L) q :=
  hi.goto hl hlock hgp hentry hin (fun h => by rw [hno] at h; cases h)
    (fun c hc => by rw [(of_section (section_of_uses hc)).2.2.2.2] at hno; cases hno) hpending hclears hloc

/-- It takes or releases `routelock` or `rcu_gp_lock`. -/
theorem updateLock {L₀ : Loc n} (hl : s.loc t = L₀) (hloc : s'.loc = Function.update s.loc t L)
    (hnext : s'.next = s.next)
    (hstatus : s'.status = s.status) (hremoved : s'.removed = s.removed) (hfreed : s'.freed = s.freed)
    (hsec : s'.sec = s.sec) (hhere : s'.rcuHere = s.rcuHere) (hel : s'.routeEntryLock = s.routeEntryLock)
    (hlock : LockedBy holdsRoute s'.routelock s'.loc) (hgp : LockedBy holdsGp s'.rcuGpLock s'.loc)
    (hno : looksUp L = false) (hentry : ∀ c, holdsEntry c L = holdsEntry c L₀) (hin : inSection L = inSection L₀)
    (hpending : pending L = pending L₀) (hclears : clears L₀ = true → clears L = true)
    (hinv : LocInv fresh s q t L) : InvOf fresh s' q := by
  subst hl
  exact hi.move hloc hnext hstatus hremoved hfreed hsec (fun _ hu _ => by rwa [hhere]) hlock hgp
    (fun hf c hc => by rw [hel]; exact (hi.entry hf c hc).stay hloc (hentry c)) hin (fun h => by rw [hno] at h; cases h)
    (fun c hc => by rw [(of_section (section_of_uses hc)).2.2.2.2] at hno; cases hno) hpending hclears hinv

/-- The next link of the list. -/
theorem at_of_next {l' : List Cell} (hq : q = l ++ l') (hp : before .head l = p) (hn : s.next p = some rep) :
    At q p rep := by
  have hmid := hi.path
  rw [hq] at hmid
  have hhead := hmid.mid.head
  rw [hp, hn] at hhead
  cases l' with
  | nil => cases hhead
  | cons r l' =>
    cases hhead
    exact ⟨l, l', hq, hp⟩

theorem next_of_at (h : At q p rep) : s.next p = some rep := by
  obtain ⟨l, l', rfl, rfl⟩ := h
  exact hi.path.mid.head

/-- **A step of `route_add`**, but for the stores. -/
theorem addStep (hn : stepThread fresh t s = some s')
    (hl : (∃ rep, s.loc t = .addLock rep ∨ s.loc t = .addLoad rep) ∨ s.loc t = .addUnlock) : InvOf fresh s' q := by
  have hloc := hi.loc t
  unfold stepThread at hn
  rcases hl with ⟨rep, hl | hl⟩ | hl <;> rw [hl] at hloc hn <;> dsimp only at hn
  · split at hn
    · next hnone =>
      cases hn
      have hlock := hi.lock
      rw [hnone] at hlock
      exact hi.updateLock hl rfl rfl rfl rfl rfl rfl rfl rfl (hlock.take rfl rfl) (hi.gp.stay rfl (by rw [hl]; rfl)) rfl
        (fun _ => rfl) rfl rfl id hloc
    · cases hn
  · cases hn
    exact hi.updateGoto hl rfl rfl rfl (fun _ => rfl) rfl rfl id ⟨hloc, rfl⟩
  · cases hn
    exact hi.updateLock hl rfl rfl rfl rfl rfl rfl rfl rfl (hi.lock.drop rfl (by rw [hl]; rfl) rfl)
      (hi.gp.stay rfl (by rw [hl]; rfl)) rfl (fun _ => rfl) rfl rfl nofun trivial

end InvOf
end RouteCacm
end Perfbook
