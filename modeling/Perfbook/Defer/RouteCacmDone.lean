/-
# Updates of `route_cacm.c` complete

While no other update is in progress the lookups that run come to their end: a lookup comes
nearer to the end of the list with each entry (`rank`), and the one that holds the lock of an
entry is not blocked (`InvOf.drain`). When none runs, an update is not blocked either
(`InvOf.done`). A `route_clear` that has returned has kept `routelock`, and there is no
further update (`clear_keeps_lock`).

Key definitions: `rank`, `Done`.
Key theorems: `InvOf.drain`, `InvOf.done`, `table_kept`, `clear_keeps_lock`.
-/
import Mathlib.Algebra.Order.BigOperators.Group.Finset
import Perfbook.Defer.RouteCacmRun

namespace Perfbook
namespace RouteCacm

open Conc

variable {n : ℕ} {fresh : Bool} {s s' : St n} {q l : List Cell} {t u : Fin n} {L : Loc n} {c p rep : Cell} {k : After}

/-! ### Lookups end -/

/-- How far the lookup is from its end. -/
def rank (q : List Cell) : Loc n → ℕ
  | .readLock _ => 10 * (q.length + 1) + 10
  | .load _ p => 10 * (q.length + 1 - (Cell.head :: q).idxOf p) + 9
  | .readAddr _ rep => 10 * (q.length + 1 - (Cell.head :: q).idxOf rep) + 10
  | .readIface _ => 8
  | .readFreed _ _ => 7
  | .entryLock _ _ => 6
  | .readRemoved _ _ => 5
  | .doSomething _ _ => 4
  | .entryUnlock _ _ => 3
  | .readUnlock _ => 1
  | _ => 0

theorem not_updates (h : updates L = false) : pending L = none ∧ holdsRoute L = false ∧ holdsGp L = false := by
  cases L <;> first | exact ⟨rfl, rfl, rfl⟩ | cases h

theorem of_holdsEntry (h : holdsEntry c L = true) : updates L = true ∨ looksUp L = true := by
  cases L <;> first | exact .inl rfl | exact .inr rfl | cases h

/-- The call has not begun to wait for `routelock`, or waits for it. -/
def starts : Loc n → Bool
  | .addLock _ | .delLock _ | .clearLock => true
  | _ => false

theorem of_starts (h : starts L = true) : pending L = none ∧ holdsRoute L = false ∧ holdsGp L = false ∧
    looksUp L = false ∧ ∀ c, holdsEntry c L = false := by
  cases L <;> first | exact ⟨rfl, rfl, rfl, rfl, fun _ => rfl⟩ | cases h

/-- No update but the one of `t` is in progress, and that is waiting for `routelock`. -/
structure Quiet (s : St n) (t : Fin n) : Prop where
  starts : starts (s.loc t) = true
  others : ∀ u, u ≠ t → updates (s.loc u) = false

namespace InvOf

variable (hi : InvOf fresh s q)
include hi

/-- Nothing is removed, and lookups see the table only. -/
theorem mem_of_visible (hq : Quiet s t) (hv : Visible s u c) : c ∈ .head :: q := by
  rcases hv with rfl | hv | ⟨v, hv, -⟩
  · exact List.mem_cons_self
  · exact List.mem_cons_of_mem _ ((hi.table c).mpr hv)
  · refine absurd hv (hi.none_removed ?_ c)
    by_cases hvt : v = t
    · rw [hvt]
      exact (of_starts hq.starts).1
    · exact (not_updates (hq.others v hvt)).1

/-- **A lookup takes a step**, unless it waits for the lock of an entry. -/
theorem lookup_runs (hq : Quiet s t) (hu : looksUp (s.loc u) = true)
    (hlock : ∀ rep ret, s.loc u = .entryLock rep ret → s.routeEntryLock rep = none) :
    ∃ s' L, stepThread fresh u s = some s' ∧ s'.loc = Function.update s.loc u L ∧ updates L = false ∧
      rank q L < rank q (s.loc u) := by
  have hloc := hi.loc u
  have hreads := hi.reads u
  unfold stepThread
  cases hl : s.loc u with
  | readLock addr =>
    refine ⟨_, _, rfl, rfl, rfl, ?_⟩
    simp only [rank, List.idxOf_cons_self]
    omega
  | load addr p =>
    rw [hl] at hreads
    dsimp only
    cases hn : s.next p with
    | none =>
      refine ⟨_, _, rfl, rfl, rfl, ?_⟩
      simp only [rank]
      omega
    | some rep =>
      have hp := hi.mem_of_visible hq (hreads p rfl)
      have hidx := hi.path.idxOf_next hi.nodup_head hp hn
      have hlt := List.idxOf_lt_length_of_mem hp
      rw [List.length_cons] at hlt
      refine ⟨_, _, rfl, rfl, rfl, ?_⟩
      simp only [rank, hidx]
      omega
  | readAddr addr rep =>
    refine ⟨_, _, rfl, rfl, ?_⟩
    split
    · exact ⟨rfl, by simp only [rank]; omega⟩
    · exact ⟨rfl, by simp only [rank]; omega⟩
  | readIface rep => exact ⟨_, _, rfl, rfl, rfl, by simp only [rank]; omega⟩
  | readFreed rep ret =>
    rw [hl] at hloc
    have hfreed : s.freed rep = false := (hi.lookups (t := u) (by rw [hl]; rfl) hloc).2
    dsimp only
    rw [hfreed, if_neg Bool.false_ne_true]
    refine ⟨_, _, rfl, rfl, ?_⟩
    split
    · exact ⟨rfl, by simp only [rank]; omega⟩
    · exact ⟨rfl, by simp only [rank]; omega⟩
  | entryLock rep ret =>
    dsimp only
    rw [if_pos (hlock rep ret hl)]
    exact ⟨_, _, rfl, rfl, rfl, by simp only [rank]; omega⟩
  | readRemoved rep ret =>
    refine ⟨_, _, rfl, rfl, ?_⟩
    split
    · exact ⟨rfl, by simp only [rank]; omega⟩
    · exact ⟨rfl, by simp only [rank]; omega⟩
  | doSomething rep ret | entryUnlock rep ret | readUnlock ret =>
    exact ⟨_, _, rfl, rfl, rfl, by simp only [rank]; omega⟩
  | aborted =>
    rw [hl] at hloc
    exact hloc.elim
  | _ =>
    rw [hl] at hu
    cases hu

/-- Some lookup takes a step. -/
theorem lookups_run (hq : Quiet s t) (hu : looksUp (s.loc u) = true) : ∃ v s' L, looksUp (s.loc v) = true ∧
    stepThread fresh v s = some s' ∧ s'.loc = Function.update s.loc v L ∧ updates L = false ∧
      rank q L < rank q (s.loc v) := by
  by_cases hblocked : ∃ rep ret v, s.loc u = .entryLock rep ret ∧ s.routeEntryLock rep = some v
  · obtain ⟨rep, ret, v, hl, hv⟩ := hblocked
    have hloc := hi.loc u
    have hreads := hi.reads u
    rw [hl] at hloc hreads
    have hused := visible_used (hreads rep rfl) hloc.1
    -- the one that holds the lock is not blocked
    have hholds : holdsEntry rep (s.loc v) = true := (hi.entry hloc.2 rep hused v).mp hv
    have hvt : v ≠ t := fun he => by
      rw [he, (of_starts hq.starts).2.2.2.2 rep] at hholds
      cases hholds
    have hup := hq.others v hvt
    have hlook : looksUp (s.loc v) = true ∧ ∀ rep ret, s.loc v ≠ .entryLock rep ret := by
      revert hholds hup
      cases s.loc v with
      | readRemoved _ _ | doSomething _ _ | entryUnlock _ _ => exact fun _ _ => ⟨rfl, nofun⟩
      | delRemoved _ _ | delEntryUnlock _ _ => exact fun _ h => nomatch h
      | _ => exact fun h => nomatch h
    obtain ⟨s', L, h⟩ := hi.lookup_runs hq hlook.1 fun rep ret h => absurd h (hlook.2 rep ret)
    exact ⟨v, s', L, hlook.1, h⟩
  · obtain ⟨s', L, h⟩ := hi.lookup_runs hq hu fun rep ret h => by
      cases hr : s.routeEntryLock rep with
      | none => rfl
      | some v => exact absurd ⟨rep, ret, v, h, hr⟩ hblocked
    exact ⟨u, s', L, hu, h⟩

omit hi in
/-- **The lookups that run end.** -/
theorem drain (m : ℕ) : ∀ s : St n, InvOf fresh s q → Quiet s t → ∑ u, rank q (s.loc u) ≤ m →
    ∃ s', Steps fresh s s' ∧ InvOf fresh s' q ∧ Quiet s' t ∧ s'.loc t = s.loc t ∧ ∀ u, looksUp (s'.loc u) = false := by
  induction m with
  | zero =>
    intro s hi hq hm
    refine ⟨s, .refl, hi, hq, rfl, fun u => Bool.eq_false_iff.mpr fun hu => ?_⟩
    obtain ⟨v, s', L, -, -, -, -, hrank⟩ := hi.lookups_run hq hu
    have hle := Finset.single_le_sum (f := fun u => rank q (s.loc u)) (fun _ _ => Nat.zero_le _) (Finset.mem_univ v)
    omega
  | succ m ih =>
    intro s hi hq hm
    by_cases hex : ∃ u, looksUp (s.loc u) = true
    · obtain ⟨u, hu⟩ := hex
      obtain ⟨v, s', L, hv, hs', hloc, hL, hrank⟩ := hi.lookups_run hq hu
      have hvt : v ≠ t := fun he => by
        rw [he, (of_starts hq.starts).2.2.2.1] at hv
        cases hv
      have hi' : InvOf fresh s' q := by
        by_cases hin : inSection (s.loc v) = true
        · exact hi.lookupStep hin hs'
        · obtain ⟨addr, hl⟩ : ∃ addr, s.loc v = .readLock addr := by
            revert hv hin
            cases s.loc v with
            | readLock addr => exact fun _ _ => ⟨addr, rfl⟩
            | _ => exact fun h h' => absurd h h'
          rw [RouteCacm.stepThread, hl] at hs'
          cases hs'
          exact hi.readLock hl
      have ht : s'.loc t = s.loc t := update_ne hloc hvt.symm
      have hq' : Quiet s' t := by
        refine ⟨by rw [ht]; exact hq.starts, ?_⟩
        exact forall_update (P := fun u x => u ≠ t → updates x = false) hloc (fun _ => hL) fun u _ => hq.others u
      have hsum := sum_move (t := v) (fun u => rank q (s'.loc u)) (fun u => rank q (s.loc u)) fun u hu => by
        rw [update_ne hloc hu]
      rw [update_self hloc] at hsum
      obtain ⟨s'', hs'', h1, h2, h3, h4⟩ := ih s' hi' hq' (by omega)
      exact ⟨s'', .head ⟨v, hs'⟩ hs'', h1, h2, h3.trans ht, h4⟩
    · exact ⟨s, .refl, hi, hq, rfl, fun u => Bool.eq_false_iff.mpr fun hu => hex ⟨u, hu⟩⟩

end InvOf

/-! ### An update completes -/

/-- The call of `t` can return. -/
def Done (fresh : Bool) (s : St n) (t : Fin n) : Prop := ∃ s', Steps fresh s s' ∧ s'.loc t = .idle

theorem Done.step {r : St n} (h : stepThread fresh t s = some r) (hd : Done fresh r t) : Done fresh s t := by
  obtain ⟨s'', hs, hl⟩ := hd
  exact ⟨s'', .head ⟨t, h⟩ hs, hl⟩

theorem goto_loc : (s.goto t L).loc t = L := Function.update_self ..

theorem goto_goto {L' : Loc n} : (s.goto t L').goto t L = s.goto t L := by
  unfold St.goto
  rw [Function.update_idem]

theorem done_idle (h : s.loc t = .idle) : Done fresh s t := ⟨s, .refl, h⟩

/-- The entries are freed one by one. -/
theorem done_clearLoop : ∀ (l : List Cell) {o : Option Cell} {s : St n}, Leads s.next o l → s.loc t = .clearLoop o →
    Done fresh s t := by
  intro l
  induction l with
  | nil =>
    intro o s hlead hl
    cases o with
    | none =>
      have hs : stepThread fresh t s = some (s.goto t .idle) := by rw [stepThread, hl]
      exact .step hs (done_idle goto_loc)
    | some r =>
      obtain ⟨_, h, -⟩ := hlead
      cases h
  | cons r l ih =>
    intro o s hlead hl
    cases o with
    | none => cases hlead
    | some r' =>
      obtain ⟨_, h, hlinked⟩ := hlead
      cases h
      have hs : stepThread fresh t s = some (s.goto t (.clearFree r (s.next r))) := by rw [stepThread, hl]
      refine .step hs ?_
      have hl' : (s.goto t (.clearFree r (s.next r))).loc t = .clearFree r (s.next r) := goto_loc
      have hs' : stepThread fresh t (s.goto t (.clearFree r (s.next r))) =
          some (((s.goto t (.clearFree r (s.next r))).reFree r).goto t (.clearLoop (s.next r))) := by
            rw [stepThread, hl']
      refine .step hs' (ih ?_ goto_loc)
      change Leads s.next (s.next r) l
      cases l with
      | nil =>
        rw [show s.next r = none from hlinked]
        rfl
      | cons r' l =>
        rw [hlinked.1]
        exact ⟨l, rfl, hlinked.2⟩

/-- What is needed after `synchronize_rcu`. -/
def Frees (s : St n) : After → Prop
  | .del _ => True
  | .clear o => ∃ l, Leads s.next o l

theorem done_syncUnlock (hk : Frees s k) (hl : s.loc t = .syncUnlock k) : Done fresh s t := by
  have hs : stepThread fresh t s = some ({ s with rcuGpLock := none }.goto t k.loc) := by rw [stepThread, hl]
  refine .step hs ?_
  cases k with
  | del rep =>
    have hl' : ({ s with rcuGpLock := none }.goto t (.free rep)).loc t = .free rep := goto_loc
    exact .step (by rw [After.loc, stepThread, hl']; rfl) (done_idle goto_loc)
  | clear o =>
    obtain ⟨l, hlead⟩ := hk
    exact done_clearLoop l hlead goto_loc

/-- No thread is waited for. -/
theorem done_scanFrom {s : St n} (hd : ∀ u, s.sec.depth u = 0) (hk : Frees s k) (i : ℕ) (hl : s.loc t = scanFrom k i) :
    Done fresh s t := by
  by_cases hin : i < n
  · have hl' : s.loc t = .scan k ⟨i, hin⟩ := hl.trans (dif_pos hin)
    by_cases hhere : s.rcuHere ⟨i, hin⟩ = true
    · have hs : stepThread fresh t s = some (s.goto t (.wait k ⟨i, hin⟩)) := by
        rw [stepThread, hl']
        dsimp only
        rw [if_pos hhere]
      refine .step hs ?_
      have hw : (s.goto t (.wait k ⟨i, hin⟩)).loc t = .wait k ⟨i, hin⟩ := goto_loc
      have hs' : stepThread fresh t (s.goto t (.wait k ⟨i, hin⟩)) =
          some ((s.goto t (.wait k ⟨i, hin⟩)).goto t (scanFrom k (i + 1))) := by
        rw [stepThread, hw]
        exact if_pos (hd _)
      exact .step hs' (done_scanFrom hd (by cases k <;> exact hk) (i + 1) goto_loc)
    · have hs : stepThread fresh t s = some (s.goto t (scanFrom k (i + 1))) := by
        rw [stepThread, hl']
        dsimp only
        rw [if_neg hhere]
      exact .step hs (done_scanFrom hd (by cases k <;> exact hk) (i + 1) goto_loc)
  · exact done_syncUnlock hk (hl.trans (dif_neg hin))
termination_by n - i

theorem done_syncLock (hgp : s.rcuGpLock = none) (hd : ∀ u, s.sec.depth u = 0) (hk : Frees s k)
    (hl : s.loc t = .syncLock k) : Done fresh s t := by
  have hs : stepThread fresh t s = some ({ s with rcuGpLock := some t }.goto t (scanFrom k 0)) := by
    rw [stepThread, hl]
    exact if_pos hgp
  exact .step hs (done_scanFrom (s := { s with rcuGpLock := some t }.goto t (scanFrom k 0)) hd
    (by cases k <;> exact hk) 0
    goto_loc)

theorem done_addLink (hl : s.loc t = .addLink rep) : Done fresh s t := by
  refine .step (r := ((s.store .head (some rep)).setStatus rep .table).goto t .addUnlock) (by rw [stepThread, hl]) ?_
  exact .step (by rw [stepThread, goto_loc]; rfl) (done_idle goto_loc)

theorem done_addLoad (hl : s.loc t = .addLoad rep) : Done fresh s t := by
  refine .step (r := s.goto t (.addStore rep (s.next .head))) (by rw [stepThread, hl]) ?_
  exact .step (by rw [stepThread, goto_loc]) (done_addLink goto_loc)

theorem done_delUnlock (hgp : s.rcuGpLock = none) (hd : ∀ u, s.sec.depth u = 0) (hl : s.loc t = .delUnlock (some rep)) :
    Done fresh s t :=
  .step (r := { s with routelock := none }.goto t (.syncLock (.del rep))) (by rw [stepThread, hl])
    (done_syncLock (k := .del rep) hgp hd trivial goto_loc)

/-- `route_del` has found the entry. -/
theorem done_delRead (hgp : s.rcuGpLock = none) (hd : ∀ u, s.sec.depth u = 0) (hl : s.loc t = .delRead p rep) :
    Done fresh s t := by
  refine .step (r := s.goto t (.unlink p rep (s.next rep))) (by rw [stepThread, hl]) ?_
  refine .step (by rw [stepThread, goto_loc]) ?_
  exact done_delUnlock hgp hd goto_loc

theorem done_delEntryUnlock (hgp : s.rcuGpLock = none) (hd : ∀ u, s.sec.depth u = 0)
    (hl : s.loc t = .delEntryUnlock p rep) : Done fresh s t :=
  .step (r := (s.setEntryLock rep none).goto t (.delRead p rep)) (by rw [stepThread, hl]) (done_delRead hgp hd goto_loc)

theorem done_delEntryLock (hlock : s.routeEntryLock rep = none) (hgp : s.rcuGpLock = none)
    (hd : ∀ u, s.sec.depth u = 0) (hl : s.loc t = .delEntryLock p rep) : Done fresh s t := by
  refine .step (r := (s.setEntryLock rep (some t)).goto t (.delRemoved p rep)) ?_ ?_
  · rw [stepThread, hl]
    exact if_pos hlock
  refine .step (by rw [stepThread, goto_loc]) ?_
  exact done_delEntryUnlock hgp hd goto_loc

/-- **`route_del` completes.** -/
theorem done_delTest {addr : ℕ} : ∀ (l : List Cell) {s : St n} {p : Cell}, Linked s.next p l →
    (fresh = true → ∀ r ∈ l, s.routeEntryLock r = none) → s.rcuGpLock = none → (∀ u, s.sec.depth u = 0) →
    s.loc t = .delTest addr p → Done fresh s t := by
  intro l
  induction l with
  | nil =>
    intro s p hlinked _ _ _ hl
    have hs : stepThread fresh t s = some (s.goto t (.delUnlock none)) := by
      rw [stepThread, hl]
      exact congrArg (fun L => some (s.goto t L)) (if_pos hlinked)
    exact .step hs (.step (by rw [stepThread, goto_loc]; rfl) (done_idle goto_loc))
  | cons rep l ih =>
    intro s p hlinked hlocks hgp hd hl
    have hs : stepThread fresh t s = some (s.goto t (.delLoad addr p)) := by
      rw [stepThread, hl]
      refine congrArg (fun L => some (s.goto t L)) (if_neg ?_)
      rw [hlinked.1]
      exact fun h => by cases h
    refine .step hs (.step (r := s.goto t (.delAddr addr p rep)) ?_ ?_)
    · rw [stepThread, goto_loc]
      change (s.next p).map _ = _
      rw [hlinked.1]
      exact congrArg some goto_goto
    by_cases haddr : s.addr rep = addr
    · cases hf : fresh with
      | false =>
        refine .step (r := s.goto t (.delRead p rep)) ?_ (done_delRead hgp hd goto_loc)
        rw [stepThread, goto_loc]
        exact congrArg some (goto_goto.trans (congrArg (s.goto t) (if_pos haddr)))
      | true =>
        refine .step (r := s.goto t (.delEntryLock p rep)) ?_
          (done_delEntryLock (hlocks hf rep List.mem_cons_self) hgp hd goto_loc)
        rw [stepThread, goto_loc]
        exact congrArg some (goto_goto.trans (congrArg (s.goto t) (if_pos haddr)))
    · refine .step (r := s.goto t (.delNext addr p)) ?_ (.step (r := s.goto t (.delTest addr rep)) ?_ ?_)
      · rw [stepThread, goto_loc]
        exact congrArg some (goto_goto.trans (congrArg (s.goto t) (if_neg haddr)))
      · rw [stepThread, goto_loc]
        change (s.next p).map _ = _
        rw [hlinked.1]
        exact congrArg some goto_goto
      · exact ih (s := s.goto t (.delTest addr rep)) hlinked.2
          (fun hf r hr => hlocks hf r (List.mem_cons_of_mem _ hr)) hgp hd goto_loc

namespace InvOf

variable (hi : InvOf fresh s q)
include hi

/-- **An update completes** when no lookup runs. -/
theorem done (hq : Quiet s t) (hlook : ∀ u, looksUp (s.loc u) = false) : Done fresh s t := by
  have hroute : s.routelock = none := by
    cases hr : s.routelock with
    | none => rfl
    | some v =>
      have hv := (hi.lock v).mp hr
      by_cases hvt : v = t
      · rw [hvt, (of_starts hq.starts).2.1] at hv
        cases hv
      · rw [(not_updates (hq.others v hvt)).2.1] at hv
        cases hv
  have hgp : s.rcuGpLock = none := by
    cases hr : s.rcuGpLock with
    | none => rfl
    | some v =>
      have hv := (hi.gp v).mp hr
      by_cases hvt : v = t
      · rw [hvt, (of_starts hq.starts).2.2.1] at hv
        cases hv
      · rw [(not_updates (hq.others v hvt)).2.2] at hv
        cases hv
  have hdepth : ∀ u, s.sec.depth u = 0 := fun u => by
    rw [hi.depth u, if_neg fun hin => ?_]
    have h := hlook u
    rw [(of_section hin).2.2.2.2] at h
    cases h
  have hlocks : fresh = true → ∀ r ∈ q, s.routeEntryLock r = none := fun hf r hr => by
    cases hl : s.routeEntryLock r with
    | none => rfl
    | some v =>
      have hused : s.status r ≠ .unused := by
        rw [(hi.table r).mp hr]
        nofun
      have hv := (hi.entry hf r hused v).mp hl
      by_cases hvt : v = t
      · rw [hvt, (of_starts hq.starts).2.2.2.2 r] at hv
        cases hv
      · have hup := hq.others v hvt
        have hlv := hlook v
        rcases of_holdsEntry hv with h | h
        · rw [hup] at h
          cases h
        · rw [hlv] at h
          cases h
  have hstart := hq.starts
  cases hl : s.loc t with
  | addLock rep =>
    refine .step (r := { s with routelock := some t }.goto t (.addLoad rep)) ?_ (done_addLoad goto_loc)
    rw [stepThread, hl]
    exact if_pos hroute
  | delLock addr =>
    refine .step (r := { s with routelock := some t }.goto t (.delTest addr .head)) ?_
      (done_delTest q hi.path hlocks hgp hdepth goto_loc)
    rw [stepThread, hl]
    exact if_pos hroute
  | clearLock =>
    refine .step (r := { s with routelock := some t }.goto t .clearLoad) ?_ ?_
    · rw [stepThread, hl]
      exact if_pos hroute
    refine .step (by rw [stepThread, goto_loc]) ?_
    refine .step (by rw [stepThread, goto_loc]) ?_
    refine done_syncLock (k := .clear (s.next .head)) hgp hdepth ⟨q, ?_⟩ goto_loc
    have hpath := hi.path
    have hnext : ∀ c ∈ q, Function.update s.next .head none c = s.next c := fun c hc =>
      Function.update_of_ne (fun he : c = .head => hi.head_not_mem (he ▸ hc)) ..
    cases q with
    | nil =>
      change Leads _ (s.next .head) []
      rw [show s.next .head = none from hpath]
      rfl
    | cons r q =>
      change Leads _ (s.next .head) (r :: q)
      rw [hpath.1]
      exact ⟨q, rfl, hpath.2.congr hnext⟩
  | _ =>
    rw [hl] at hstart
    cases hstart

end InvOf

/-- **What is promised holds** as long as no `route_clear` has returned. -/
theorem table_kept (h : (sys fresh n).Reach NotReturned s) : Holds fresh s := by
  obtain ⟨q, hi⟩ := inv_reach h
  refine ⟨fun t a hu => hi.lookups hu nofun, fun t ht => ?_, fun hno => ?_, fun hno => ?_, fun hno t a s₁ ha hn => ?_,
    fun t rep ret hl => hi.doSomething hl⟩
  · have hloc := hi.loc t
    rw [ht] at hloc
    exact hloc
  · cases hr : s.routelock with
    | none => rfl
    | some v =>
      have hv := (hi.lock v).mp hr
      rw [(not_updates (hno v)).2.1] at hv
      cases hv
  · exact ⟨q, hi.path, hi.nodup, hi.table⟩
  · have hok : NotReturned a s := by
      cases a with
      | add _ _ _ _ | del _ _ | clear _ => trivial
      | _ => exact ha.elim
    obtain ⟨q₁, hi₁⟩ := Inv.next ⟨q, hi⟩ hok hn
    -- the call has failed, or it has begun to wait for the lock
    have hcall : s₁.loc t = .idle ∨ starts (s₁.loc t) = true ∧ ∀ u, u ≠ t → s₁.loc u = s.loc u := by
      cases a with
      | add u addr iface x =>
        obtain rfl : u = t := ha
        cases x with
        | none =>
          rw [next] at hn
          split at hn
          · cases hn
            exact .inl goto_loc
          · cases hn
        | some x =>
          rw [next] at hn
          split at hn
          · cases hn
            exact .inr ⟨congrArg starts goto_loc, fun v hv => Function.update_of_ne hv ..⟩
          · cases hn
      | del u addr =>
        obtain rfl : u = t := ha
        rw [next] at hn
        split at hn
        · cases hn
          exact .inr ⟨congrArg starts goto_loc, fun v hv => Function.update_of_ne hv ..⟩
        · cases hn
      | clear u =>
        obtain rfl : u = t := ha
        rw [next] at hn
        split at hn
        · cases hn
          exact .inr ⟨congrArg starts goto_loc, fun v hv => Function.update_of_ne hv ..⟩
        · cases hn
      | _ => exact ha.elim
    rcases hcall with hidle | ⟨hstart, hsame⟩
    · exact done_idle hidle
    · have hq : Quiet s₁ t := ⟨hstart, fun u hu => by rw [hsame u hu]; exact hno u⟩
      obtain ⟨s₂, hs₂, hi₂, hq₂, -, hlook⟩ := InvOf.drain _ s₁ hi₁ hq le_rfl
      obtain ⟨s₃, hs₃, hidle⟩ := hi₂.done hq₂ hlook
      exact ⟨s₃, hs₂.trans hs₃, hidle⟩

/-- Before anything happens. -/
def empty (n : ℕ) : St n where
  nthreads := 0
  rcuHere _ := false
  sec := ⟨fun _ => 0, fun _ _ => false⟩
  rcuGpLock := none
  routelock := none
  next _ := none
  addr _ := 0
  iface _ := 0
  removed _ := false
  routeEntryLock _ := none
  freed _ := false
  loc _ := .idle
  ret _ := 0
  status _ := .unused

theorem init_empty (n : ℕ) : Init (empty n) :=
  ⟨rfl, fun _ => rfl, fun _ => rfl, fun _ _ => rfl, rfl, rfl, rfl, fun _ => rfl, fun _ => rfl⟩

instance (a : Act n) (s : St n) : Decidable (NotReturned a s) := by
  cases a <;> first | exact inferInstanceAs (Decidable (_ ≠ _)) | exact .isTrue trivial

/-- Thread 1 looks up the address 7 while thread 0 removes it. -/
def removes : List (Act 2) :=
  [.register 1, .step 1, .add 0 7 70 (some 5), .step 0, .step 0, .step 0, .step 0, .step 0, .lookup 1 7, .step 1,
    .step 1,
    .del 0 7, .step 0, .step 0, .step 0, .step 0, .step 0, .step 0, .step 0, .step 0, .step 0, .step 1]

theorem table_kept_run : ∃ s, (sys true 2).Reach NotReturned s ∧ s.status (.entry 5) = .removed 0 ∧
    s.loc 1 = .readIface (.entry 5) ∧ Holds true s := by
  have hrun : ((sys true 2).run NotReturned removes (empty 2)).map (fun s => (s.status (.entry 5), s.loc 1)) =
      some (.removed 0, .readIface (.entry 5)) := by decide
  obtain ⟨s, hs, hd⟩ := Option.map_eq_some_iff.mp hrun
  obtain ⟨h1, h2⟩ := Prod.mk.inj hd
  have hreach := Sys.run_reach (.init (init_empty 2)) hs
  exact ⟨s, hreach, h1, h2, table_kept hreach⟩

/-- **`route_clear` keeps `routelock`**: it has returned, and there is no further update. -/
theorem clear_keeps_lock : ¬ ∀ s, (sys false 2).Reach Sys.always s → Holds false s := by
  intro hall
  have hrun : ((sys false 2).run Sys.always (.clear 0 :: List.replicate 8 (.step 0)) (empty 2)).map
      (fun s => (s.loc 0, s.loc 1, s.routelock)) = some (.idle, .idle, some 0) := by decide
  obtain ⟨s, hs, hd⟩ := Option.map_eq_some_iff.mp hrun
  obtain ⟨h0, hd⟩ := Prod.mk.inj hd
  obtain ⟨h1, h2⟩ := Prod.mk.inj hd
  have hreach := Sys.run_reach (S := sys false 2) (.init (init_empty 2)) hs
  have hfree := (hall s hreach).routelock fun t => by
    match t with
    | 0 => rw [h0]; rfl
    | 1 => rw [h1]; rfl
  rw [h2] at hfree
  cases hfree

end RouteCacm
end Perfbook
