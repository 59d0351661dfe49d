/-
# `maze_fg` detects termination

Most steps of a thread only go on (`Inv.moves`). The others claim an entry, are
done with it (`Inv.release`), visit a cell (`Inv.visits`), append it
(`Inv.appends`, `Inv.stores`), or decide (`Inv.decides`).
All keep what the threads know (`inv_next`), so `done` is -1 only when the maze
has no solution and all that can be reached was visited, it is 1 only when the
end was visited, and it does not change once it is set (`done_right`).

Key theorems: `inv_next`, `inv_init`, `Inv.done_keeps`, `done_right`.
-/
import Perfbook.Maze.FgInv

namespace Perfbook
namespace Maze
namespace Fg

variable {n : ℕ} {mp : Maze} {start end_ p q cur : Rowcol} {s s' : St n} {t u : Fin n} {l l' : Loc}
  {i k vi d row : ℕ} {inner : Bool} {ps : List Rowcol}

theorem access_eq (h : i < mp.size) : s.access mp i = s := by
  unfold St.access
  rw [decide_eq_false (not_le.mpr h), Bool.or_false]

/-- The place of a thread after a step of `t`. -/
theorem loc_cases (f : Fin n → Loc) (t u : Fin n) (l : Loc) :
    u = t ∧ Function.update f t l u = l ∨ u ≠ t ∧ Function.update f t l u = f u := by
  by_cases hut : u = t
  · exact .inl ⟨hut, hut ▸ Function.update_self ..⟩
  · exact .inr ⟨hut, Function.update_of_ne hut ..⟩

/-! ### The neighbours of a cell -/

theorem exists_side (h : (p.1 - q.1).natAbs + (p.2 - q.2).natAbs = 1) : ∃ d, q = step p d := by
  obtain ⟨a, b⟩ := p
  obtain ⟨x, y⟩ := q
  simp only at h
  rcases (show x = a ∧ y = b - 1 ∨ x = a ∧ y = b + 1 ∨ x = a - 1 ∧ y = b ∨ x = a + 1 ∧ y = b by omega)
    with ⟨rfl, rfl⟩ | ⟨rfl, rfl⟩ | ⟨rfl, rfl⟩ | ⟨rfl, rfl⟩
  · exact ⟨.left, rfl⟩
  · exact ⟨.right, rfl⟩
  · exact ⟨.up, rfl⟩
  · exact ⟨.down, rfl⟩

theorem opens_of_connected (hp : mp.CellExists p) (h : mp.cellsConnected p q = some true) :
    mp.Opens p q := by
  have hadj : (p.1 - q.1).natAbs + (p.2 - q.2).natAbs = 1 := by
    by_contra hne
    rw [cellsConnected, if_pos hne] at h
    cases h
  obtain ⟨d, rfl⟩ := exists_side hadj
  rw [cellsConnected_step hp, Option.some.injEq, Bool.and_eq_true, decide_eq_true_iff,
    Bool.not_eq_true'] at h
  exact ⟨d, rfl, hp, h.1, h.2⟩

theorem connected_of_opens (h : mp.Opens cur q) : mp.cellsConnected cur q = some true := by
  obtain ⟨d, rfl, hp, hq, hw⟩ := h
  rw [cellsConnected_step hp d, hw, decide_eq_true hq]
  rfl

theorem mem_anyNextCell (h : mp.Opens cur q) : q ∈ Visited.anyNextCell cur := by
  obtain ⟨d, rfl, -⟩ := h
  cases d <;> simp [Visited.anyNextCell, step]

namespace Inv

variable (h : Inv mp start end_ s)
include h

/-- A step that only goes on. -/
theorem moves (hs : s.loc t = l) (hown : l'.own = l.own) (hpend : l'.pending = l.pending)
    (hfound : l.Found end_ → l'.Found end_) (hl : LocInv mp start end_ s l') :
    Inv mp start end_ (s.goto t l') :=
  h.goes rfl rfl rfl rfl rfl rfl rfl h.inside (hs ▸ hown) (hs ▸ hpend) (hs ▸ hfound) hl

/-- The thread claims the next entry. -/
theorem claims_next (hs : s.loc t = .claim) :
    Inv mp start end_ ({ s with claims := s.claims + 1 }.goto t (.check s.claims)) := by
  have hg : Grows s ({ s with claims := s.claims + 1 }.goto t (.check s.claims)) :=
    ⟨le_rfl, fun _ => id, fun _ _ => rfl, fun _ _ => id, fun _ _ => id, id⟩
  refine h.of_step hg rfl trivial h.inside (h.toListed.same hg rfl rfl rfl)
    (h.toPends.same rfl rfl rfl rfl (by rw [hs]; rfl))
    ⟨fun u k hk => ?_, fun u v k hu hv => ?_, fun k hk => ?_⟩
    (h.toOutcome.same hg rfl rfl rfl (by rw [hs]; exact False.elim))
  · rcases loc_cases s.loc t u (.check s.claims) with ⟨-, he⟩ | ⟨-, he⟩ <;>
      simp only [St.goto, he] at hk ⊢
    · cases hk
      exact Nat.lt_succ_self _
    · exact (h.own_lt u k hk).trans (Nat.lt_succ_self _)
  · rcases loc_cases s.loc t u (.check s.claims) with ⟨hut, he⟩ | ⟨-, he⟩ <;>
    rcases loc_cases s.loc t v (.check s.claims) with ⟨hvt, he'⟩ | ⟨-, he'⟩ <;>
      simp only [St.goto, he, he'] at hu hv
    · exact hut.trans hvt.symm
    · cases hu
      exact absurd (h.own_lt v _ hv) (lt_irrefl _)
    · cases hv
      exact absurd (h.own_lt u _ hu) (lt_irrefl _)
    · exact h.own_inj u v k hu hv
  · rcases (Nat.lt_succ_iff_lt_or_eq.mp hk : k < s.claims ∨ k = s.claims) with hk | rfl
    · refine (h.claimed k hk).imp_left fun ⟨u, hu⟩ => ⟨u, ?_⟩
      have hut : u ≠ t := fun he => by
        rw [he, hs] at hu
        cases hu
      simpa [St.goto, hut] using hu
    · exact .inl ⟨t, by simp [St.goto, Loc.own]⟩

/-- The thread has come back to the cell of its entry, and its neighbours were all visited. -/
theorem release (hs : s.loc t = .try_ vi false cur d []) : Inv mp start end_ (s.goto t .claim) := by
  have hl := h.loc t
  rw [hs] at hl
  have hg : Grows s (s.goto t .claim) :=
    ⟨le_rfl, fun _ => id, fun _ _ => rfl, fun _ _ => id, fun _ _ => id, id⟩
  have hne : ∀ {u k}, ((s.goto t .claim).loc u).own = some k → (s.loc u).own = some k := fun {u k} hk => by
    rcases loc_cases s.loc t u .claim with ⟨-, he⟩ | ⟨-, he⟩ <;> simp only [St.goto, he] at hk
    · cases hk
    · exact hk
  refine h.of_step hg rfl trivial h.inside (h.toListed.same hg rfl rfl rfl)
    (h.toPends.same rfl rfl rfl rfl (by rw [hs]; rfl))
    ⟨fun u k hk => h.own_lt u k (hne hk), fun u v k hu hv => h.own_inj u v k (hne hu) (hne hv),
      fun k hk => ?_⟩
    (h.toOutcome.same hg rfl rfl rfl (by rw [hs]; exact False.elim))
  rcases h.claimed k hk with ⟨u, hu⟩ | hdone
  · by_cases hut : u = t
    · rw [hut, hs] at hu
      cases hu
      refine .inr ⟨hl.1.there.1, fun q ho => ?_⟩
      have hcur : s.cellOf vi = cur := (hl.1.outer rfl).symm
      exact ((hl.2 rfl q (hcur ▸ ho)).resolve_left (List.not_mem_nil))
    · exact .inl ⟨u, by simpa [St.goto, hut] using hu⟩
  · exact .inr hdone

/-- The compare-and-exchange has visited `p`. -/
theorem visits (hs : s.loc t = .cas vi inner cur d p ps) (hp : s.bit p = false) :
    Inv mp start end_ ({ s with bit := Function.update s.bit p true }.goto t (.setDist vi p d)) := by
  have hl := h.loc t
  rw [hs] at hl
  obtain ⟨hcur, ho, -⟩ := hl
  have hbit : ∀ q, s.bit q = true → Function.update s.bit p true q = true := fun q hq => by
    by_cases hqp : q = p
    · rw [hqp, Function.update_self]
    · rwa [Function.update_of_ne hqp]
  have hg : Grows s ({ s with bit := Function.update s.bit p true }.goto t (.setDist vi p d)) :=
    ⟨le_rfl, hbit, fun _ _ => rfl, fun _ _ => id, fun _ _ => id, id⟩
  have hin : mp.CellExists p := by
    obtain ⟨-, -, -, hin, -⟩ := ho
    exact hin
  -- no other thread is about to append `p`, and it is not in the list
  have hother : ∀ u, (s.loc u).pending ≠ some p := fun u hu => by
    rw [(h.pend u p hu).1] at hp
    cases hp
  have hnew : ∀ k ≤ s.vi, s.cellOf k ≠ p := fun k hk he => by
    rw [← he, (h.slot k hk).2] at hp
    cases hp
  refine h.of_step hg rfl (hcur.there.grows hg) h.inside (h.toListed.same hg rfl rfl rfl)
    ⟨fun u q hq => ?_, fun u v q hu hv => ?_, fun q hq => ?_⟩
    (h.toOwns.same hg rfl rfl (by rw [hs]; rfl))
    ⟨fun q hq => ?_, fun he => ?_, fun hd => (h.minus hd).grows hg, fun hd => hbit _ (h.one hd), h.range⟩
  · rcases loc_cases s.loc t u (.setDist vi p d) with ⟨-, he⟩ | ⟨-, he⟩ <;> simp only [St.goto, he] at hq ⊢
    · cases hq
      exact ⟨Function.update_self .., hin, hnew⟩
    · exact (h.pend u q hq).imp_left (hbit q)
  · rcases loc_cases s.loc t u (.setDist vi p d) with ⟨hut, he⟩ | ⟨-, he⟩ <;>
    rcases loc_cases s.loc t v (.setDist vi p d) with ⟨hvt, he'⟩ | ⟨-, he'⟩ <;>
      simp only [St.goto, he, he'] at hu hv
    · exact hut.trans hvt.symm
    · cases hu
      exact absurd hv (hother v)
    · cases hv
      exact absurd hu (hother u)
    · exact h.pend_inj u v q hu hv
  · by_cases hqp : q = p
    · exact .inr ⟨t, by simp [St.goto, Loc.pending, hqp]⟩
    · refine (h.cover q (by simpa [St.goto, hqp] using hq)).imp_right fun ⟨u, hu⟩ => ⟨u, ?_⟩
      have hut : u ≠ t := fun he => by
        rw [he, hs] at hu
        cases hu
      simpa [St.goto, hut] using hu
  · by_cases hqp : q = p
    · exact hqp ▸ (h.reach cur hcur.bit).tail ho
    · exact h.reach q (by simpa [St.goto, hqp] using hq)
  · by_cases hep : end_ = p
    · exact ⟨t, by simp [St.goto, Loc.Found, hep]⟩
    · obtain ⟨u, hu⟩ := h.found (by simpa [St.goto, hep] using he)
      have hut : u ≠ t := fun he => by
        rw [he, hs] at hu
        exact hu
      exact ⟨u, by simpa [St.goto, hut] using hu⟩

/-- The cell that the thread has visited gets the next entry. -/
theorem appends (hs : s.loc t = .incVi vi p) :
    Inv mp start end_ ({ s with vi := s.vi + 1, cellOf := Function.update s.cellOf (s.vi + 1) p }.goto t
      (.storeRow vi p (s.vi + 1))) := by
  have hl := h.loc t
  rw [hs] at hl
  have hpt : (s.loc t).pending = some p := by rw [hs]; rfl
  have hroom := h.room hpt
  obtain ⟨hbit, hin, hnew⟩ := h.pend t p hpt
  have hold : ∀ k ≤ s.vi, Function.update s.cellOf (s.vi + 1) p k = s.cellOf k :=
    fun k hk => Function.update_of_ne (by omega) ..
  have hcases : ∀ k ≤ s.vi + 1, k ≤ s.vi ∨ k = s.vi + 1 := fun k hk => by omega
  set s' := ({ s with vi := s.vi + 1, cellOf := Function.update s.cellOf (s.vi + 1) p }.goto t
    (.storeRow vi p (s.vi + 1))) with hs'
  have hg : Grows s s' := ⟨Nat.le_succ _, fun _ => id, hold, fun _ _ => id, fun _ _ => id, id⟩
  refine h.of_step hg rfl ⟨St.There.grows hl hg, le_rfl, Function.update_self ..⟩ h.inside
    ⟨hroom, fun k hk => ?_, fun k hk j hj he => ?_, (hold 0 (Nat.zero_le _)).trans h.first,
      fun k hk hc => ?_, fun k hk hlt => h.empty k hk (by exact Nat.lt_of_succ_lt hlt)⟩
    ⟨fun u q hq => ?_, fun u v q hu hv => ?_, fun q hq => ?_⟩
    (h.toOwns.same hg rfl rfl (by rw [hs]; rfl))
    (h.toOutcome.same hg rfl rfl rfl (by rw [hs]; exact id))
  · rcases hcases k hk with hk | rfl
    · rw [show s'.cellOf k = s.cellOf k from hold k hk]
      exact h.slot k hk
    · simpa [hs', St.goto] using ⟨hin, hbit⟩
  · rcases hcases k hk with hk | rfl <;> rcases hcases j hj with hj | rfl
    · exact h.slot_inj k hk j hj (by rwa [← hold k hk, ← hold j hj])
    · exact absurd ((hold k hk).symm.trans (he.trans (Function.update_self ..))) (hnew k hk)
    · exact absurd ((hold j hj).symm.trans (he.symm.trans (Function.update_self ..))) (hnew j hj)
    · rfl
  · rcases hcases k hk with hk | rfl
    · exact (h.filled k hk hc).trans (hold k hk).symm
    · exact absurd hc (not_le.mpr (h.empty _ hroom (Nat.lt_succ_self _)))
  · rcases loc_cases s.loc t u (.storeRow vi p (s.vi + 1)) with ⟨-, he⟩ | ⟨hut, he⟩ <;>
      simp only [hs', St.goto, he] at hq
    · cases hq
    · obtain ⟨hb, hi, hn⟩ := h.pend u q hq
      refine ⟨hb, hi, fun k hk he => ?_⟩
      rcases hcases k hk with hk | rfl
      · exact hn k hk ((hold k hk).symm.trans he)
      · have hpq : p = q := by
          rw [← he]
          exact (Function.update_self (s.vi + 1) p s.cellOf).symm
        exact hut (h.pend_inj u t q hq (hpq ▸ hpt))
  · rcases loc_cases s.loc t u (.storeRow vi p (s.vi + 1)) with ⟨-, he⟩ | ⟨-, he⟩ <;>
    rcases loc_cases s.loc t v (.storeRow vi p (s.vi + 1)) with ⟨-, he'⟩ | ⟨-, he'⟩ <;>
      simp only [hs', St.goto, he, he'] at hu hv
    · cases hu
    · cases hu
    · cases hv
    · exact h.pend_inj u v q hu hv
  · rcases h.cover q hq with ⟨k, hk, rfl⟩ | ⟨u, hu⟩
    · exact .inl ⟨k, Nat.le_succ_of_le hk, hold k hk⟩
    · by_cases hut : u = t
      · rw [hut, hpt] at hu
        cases hu
        exact .inl ⟨s.vi + 1, le_rfl, Function.update_self ..⟩
      · exact .inr ⟨u, by simpa [hs', St.goto, hut] using hu⟩

/-- A store to the entry `k`, whose `col` gets no less than it was if it was there. -/
theorem stores {c : Rowcol} (hk : k ≤ s.vi) (hs : s'.loc = Function.update s.loc t l)
    (hbit : s'.bit = s.bit) (hvis : s'.visited = Function.update s.visited k c) (hvi : s'.vi = s.vi)
    (hclaims : s'.claims = s.claims) (hdone : s'.done = s.done) (hcell : s'.cellOf = s.cellOf)
    (hout : s'.outside = false) (hc : 0 ≤ (s.visited k).2 → 0 ≤ c.2) (hr : c.1 = (s.cellOf k).1)
    (hfill : 0 ≤ c.2 → c = s.cellOf k) (hown : l.own = (s.loc t).own)
    (hpend : l.pending = (s.loc t).pending) (hfound : (s.loc t).Found end_ → l.Found end_)
    (hl : Grows s s' → LocInv mp start end_ s' l) : Inv mp start end_ s' := by
  have hne : ∀ {j}, j ≠ k → s'.visited j = s.visited j := fun hj => by
    rw [hvis, Function.update_of_ne hj]
  have hself : s'.visited k = c := by rw [hvis, Function.update_self]
  have hg : Grows s s' := by
    refine ⟨hvi.ge, fun p hp => hbit ▸ hp, fun j _ => by rw [hcell], fun j _ hj => ?_, fun j _ hj => ?_,
      fun hd => hdone ▸ hd⟩
    · by_cases hjk : j = k
      · subst hjk
        exact hself ▸ hc hj
      · exact hne hjk ▸ hj
    · by_cases hjk : j = k
      · subst hjk
        exact hself ▸ hr
      · exact hne hjk ▸ hj
  refine h.of_step hg hs (hl hg) hout
    ⟨hvi ▸ h.size, fun j hj => ?_, fun i hi j hj he => ?_, by rw [hcell, h.first], fun j hj hjc => ?_,
      fun j hj hlt => ?_⟩
    (h.toPends.same hbit hvi hcell hs hpend) (h.toOwns.same hg hclaims hs hown)
    (h.toOutcome.same hg hbit hdone hs hfound)
  · rw [hcell, hbit]
    exact h.slot j (hvi ▸ hj)
  · exact h.slot_inj i (hvi ▸ hi) j (hvi ▸ hj) (by rwa [hcell] at he)
  · rw [hcell]
    by_cases hjk : j = k
    · subst hjk
      rw [hself] at hjc ⊢
      exact hfill hjc
    · rw [hne hjk] at hjc ⊢
      exact h.filled j (hvi ▸ hj) hjc
  · rw [hvi] at hlt
    rw [hne (by omega)]
    exact h.empty j hj hlt

/-- The thread sets `done`. -/
theorem decides {r : ℤ} {found : Bool} (hr : r = 1 ∧ s.bit end_ = true ∨ r = -1 ∧ Over mp start end_ s)
    (hown : (s.loc t).own = some vi) (hpend : (s.loc t).pending = none)
    (hfound : (s.loc t).Found end_ → found = true) (hl : found = true → s.There vi) :
    Inv mp start end_ ({ s with done := r }.goto t (.stopped vi found)) := by
  have hg : Grows s ({ s with done := r }.goto t (.stopped vi found)) := by
    refine ⟨le_rfl, fun _ => id, fun _ _ => rfl, fun _ _ => id, fun _ _ => id, fun _ => ?_⟩
    rcases hr with ⟨rfl, -⟩ | ⟨rfl, -⟩
    · exact one_ne_zero
    · exact (by decide : (-1 : ℤ) ≠ 0)
  refine h.of_step hg rfl (fun hf => (hl hf).grows hg) h.inside (h.toListed.same hg rfl rfl rfl)
    (h.toPends.same rfl rfl rfl rfl hpend.symm) (h.toOwns.same hg rfl rfl hown.symm)
    ⟨h.reach, fun he => ?_, fun hd => ?_, fun hd => ?_, ?_⟩
  · obtain ⟨u, hu⟩ := h.found he
    exact ⟨u, forall_loc (P := fun l m => m.Found end_ → l.Found end_) (s := s) rfl hfound
      (fun _ => id) u hu⟩
  · rcases hr with ⟨rfl, -⟩ | ⟨-, ho⟩
    · cases hd
    · exact ho
  · rcases hr with ⟨-, hb⟩ | ⟨rfl, -⟩
    · exact hb
    · cases hd
  · exact hr.elim (fun h => .inr (.inl h.1)) fun h => .inr (.inr h.1)

end Inv

/-- **A step of a thread keeps what the threads know.** -/
theorem inv_next (h : Inv mp start end_ s) (hn : stepThread mp end_ t s = some s') :
    Inv mp start end_ s' := by
  have hl := h.loc t
  cases hs : s.loc t with
  | claim =>
    simp only [stepThread, hs, Option.some.injEq] at hn
    exact hn ▸ h.claims_next hs
  | check vi =>
    simp only [stepThread, hs, Option.some.injEq] at hn
    subst hn
    have hlt : vi < s.claims := h.own_lt t vi (by rw [hs]; rfl)
    by_cases hvi : vi ≥ s.vi + n
    · rw [if_pos hvi]
      exact h.moves hs rfl rfl id (h.all_wait (by omega))
    · rw [if_neg hvi]
      exact h.moves hs rfl rfl id trivial
  | giveUp vi =>
    simp only [stepThread, hs, Option.some.injEq] at hn
    rw [hs] at hl
    exact hn ▸ h.decides (.inr ⟨rfl, hl⟩) (by rw [hs]; rfl) (by rw [hs]; rfl)
      (by rw [hs]; exact False.elim) nofun
  | waitVi vi =>
    simp only [stepThread, hs, Option.some.injEq] at hn
    subst hn
    by_cases hvi : vi > s.vi
    · rw [if_pos hvi]
      exact h.moves hs rfl rfl id trivial
    · rw [if_neg hvi]
      exact h.moves hs rfl rfl id (not_lt.mp hvi)
  | waitCol vi =>
    rw [hs] at hl
    simp only [stepThread, hs, Option.some.injEq, access_eq (hl.trans_lt h.size)] at hn
    subst hn
    by_cases hc : (s.visited vi).2 < 0
    · rw [if_pos hc]
      exact h.moves hs rfl rfl id trivial
    · rw [if_neg hc]
      exact h.moves hs rfl rfl id (.inl ⟨hl, not_lt.mp hc⟩)
  | waitDone vi =>
    simp only [stepThread, hs, Option.some.injEq] at hn
    subst hn
    by_cases hd : s.done = 0
    · rw [if_pos hd]
      exact h.moves hs rfl rfl id trivial
    · rw [if_neg hd]
      exact h.moves hs rfl rfl id (.inr hd)
  | ready vi =>
    rw [hs] at hl
    simp only [stepThread, hs, Option.some.injEq] at hn
    subst hn
    by_cases hd : s.done ≠ 0
    · rw [if_pos hd]
      exact h.moves hs rfl rfl False.elim nofun
    · rw [if_neg hd]
      exact h.moves hs rfl rfl id (hl.resolve_right hd)
  | readRow vi =>
    rw [hs] at hl
    simp only [stepThread, hs, Option.some.injEq, access_eq (hl.1.trans_lt h.size)] at hn
    exact hn ▸ h.moves hs rfl rfl id ⟨hl, congrArg Prod.fst (h.filled vi hl.1 hl.2)⟩
  | readCol vi row =>
    rw [hs] at hl
    obtain ⟨hthere, rfl⟩ := hl
    obtain ⟨hin, hbit⟩ := h.slot vi hthere.1
    have hrow : (s.cellOf vi).1 ≠ -1 := fun he => by
      have := hin.1
      omega
    have hcell : ((s.cellOf vi).1, (s.visited vi).2) = s.cellOf vi := by
      rw [h.filled vi hthere.1 hthere.2]
    simp only [stepThread, hs, Option.some.injEq, access_eq (hthere.1.trans_lt h.size), if_neg hrow,
      hcell] at hn
    exact hn ▸ h.moves hs rfl rfl id ⟨hthere, hin, hbit, fun _ => rfl⟩
  | dist vi inner cur =>
    rw [hs] at hl
    simp only [stepThread, hs, if_pos hl.inside, Option.some.injEq] at hn
    exact hn ▸ h.moves hs rfl rfl id ⟨hl, fun _ q ho => .inl (mem_anyNextCell ho)⟩
  | try_ vi inner cur d ps =>
    rw [hs] at hl
    cases ps with
    | nil =>
      simp only [stepThread, hs, Option.some.injEq] at hn
      subst hn
      cases inner with
      | false => exact h.release hs
      | true => exact h.moves hs rfl rfl id hl.1.there
    | cons p ps =>
      -- what is left to try when there is no way to `p`, or it was visited
      have hrest : (mp.Opens cur p → s.bit p = true) → LocInv mp start end_ s (.try_ vi inner cur d ps) :=
        fun hp => ⟨hl.1, fun hi q ho => (hl.2 hi q ho).elim (fun hm => by
          rcases List.mem_cons.mp hm with rfl | hm
          · exact .inr (hp ho)
          · exact .inl hm) .inr⟩
      simp only [stepThread, hs] at hn
      split at hn
      · cases hn
      · rename_i hc
        cases hn
        refine h.moves hs rfl rfl id (hrest fun ho => ?_)
        rw [connected_of_opens ho] at hc
        cases hc
      · rename_i hc
        cases hn
        by_cases hb : s.bit p = true
        · rw [if_pos hb]
          exact h.moves hs rfl rfl id (hrest fun _ => hb)
        · rw [if_neg hb]
          exact h.moves hs rfl rfl id ⟨hl.1, opens_of_connected hl.1.inside hc, hl.2⟩
  | cas vi inner cur d p ps =>
    rw [hs] at hl
    simp only [stepThread, hs] at hn
    cases hb : s.bit p with
    | true =>
      rw [if_pos hb] at hn
      cases hn
      exact h.moves hs rfl rfl id ⟨hl.1, hl.2.2⟩
    | false =>
      rw [if_neg (by rw [hb]; exact Bool.false_ne_true)] at hn
      cases hn
      exact h.visits hs hb
  | setDist vi p d =>
    rw [hs] at hl
    simp only [stepThread, hs, Option.some.injEq] at hn
    subst hn
    exact h.goes rfl rfl rfl rfl rfl rfl rfl h.inside (by rw [hs]; rfl) (by rw [hs]; rfl)
      (by rw [hs]; exact id) hl
  | incVi vi p =>
    simp only [stepThread, hs, Option.some.injEq] at hn
    exact hn ▸ h.appends hs
  | storeRow vi p k =>
    rw [hs] at hl
    obtain ⟨hthere, hk, rfl⟩ := hl
    simp only [stepThread, hs, Option.some.injEq] at hn
    rw [access_eq (hk.trans_lt h.size)] at hn
    subst hn
    refine h.stores hk rfl rfl rfl rfl rfl rfl rfl h.inside id rfl (fun hc => ?_) (by rw [hs]; rfl)
      (by rw [hs]; rfl) (by rw [hs]; exact id)
      fun hg => ⟨hthere.grows hg, hk, rfl, by simp [St.goto]⟩
    rw [h.filled k hk hc]
  | storeCol vi p k =>
    rw [hs] at hl
    obtain ⟨hthere, hk, rfl, hrow⟩ := hl
    obtain ⟨hin, hbit⟩ := h.slot k hk
    simp only [stepThread, hs, Option.some.injEq] at hn
    rw [access_eq (hk.trans_lt h.size)] at hn
    subst hn
    by_cases he : s.cellOf k = end_
    · rw [if_pos he]
      refine h.stores hk rfl rfl rfl rfl rfl rfl rfl h.inside (fun _ => hin.2.2.1) hrow
        (fun _ => Prod.ext hrow rfl) (by rw [hs]; rfl) (by rw [hs]; rfl) (fun _ => trivial)
        fun hg => ⟨hthere.grows hg, ?_⟩
      exact he ▸ hbit
    · rw [if_neg he]
      exact h.stores hk rfl rfl rfl rfl rfl rfl rfl h.inside (fun _ => hin.2.2.1) hrow
        (fun _ => Prod.ext hrow rfl) (by rw [hs]; rfl) (by rw [hs]; rfl) (by rw [hs]; exact he)
        fun hg => ⟨hthere.grows hg, hin, hbit, nofun⟩
  | setDone vi =>
    rw [hs] at hl
    simp only [stepThread, hs, Option.some.injEq] at hn
    exact hn ▸ h.decides (.inl ⟨rfl, hl.2⟩) (by rw [hs]; rfl) (by rw [hs]; rfl) (fun _ => rfl)
      fun _ => hl.1
  | stopped vi found =>
    simp only [stepThread, hs] at hn
    cases hn

theorem inv_init (h : Init mp start s) (hs : mp.CellExists start) (hne : start ≠ end_) :
    Inv mp start end_ s := by
  have hbit : ∀ p, s.bit p = true ↔ p = start := fun p => by
    rw [h.bit, decide_eq_true_iff]
  have hpos : 0 < mp.size := by
    have hin := hs
    unfold CellExists at hin
    have := mul_pos (by omega : 0 < mp.nrows) (by omega : 0 < mp.ncols)
    unfold size
    omega
  have hown : ∀ t k, (s.loc t).own ≠ some k := fun t k hk => by
    rw [h.loc] at hk
    cases hk
  have hpend : ∀ t p, (s.loc t).pending ≠ some p := fun t p hp => by
    rw [h.loc] at hp
    cases hp
  have hzero : ∀ {k}, k ≤ s.vi → k = 0 := fun hk => by
    rw [h.vi] at hk
    exact Nat.le_zero.mp hk
  have hcell : ∀ {k}, k ≤ s.vi → s.cellOf k = start := fun hk => by rw [hzero hk, h.cellOf]
  exact {
    size := h.vi ▸ hpos
    slot := fun k hk => ⟨hcell hk ▸ hs, (hbit _).mpr (hcell hk)⟩
    slot_inj := fun k hk j hj _ => (hzero hk).trans (hzero hj).symm
    first := h.cellOf
    filled := fun k hk _ => by rw [hcell hk, hzero hk, h.visited 0 hpos, if_pos rfl]
    empty := fun k hk hlt => by
      rw [h.visited k hk, if_neg (by omega)]
      decide
    pend := fun t p hp => absurd hp (hpend t p)
    pend_inj := fun t u p hp => absurd hp (hpend t p)
    cover := fun p hp => .inl ⟨0, Nat.zero_le _, h.cellOf.trans ((hbit p).mp hp).symm⟩
    own_lt := fun t k hk => absurd hk (hown t k)
    own_inj := fun t u k hk => absurd hk (hown t k)
    claimed := fun k hk => absurd hk (h.claims ▸ Nat.not_lt_zero k)
    reach := fun p hp => (hbit p).mp hp ▸ .refl
    found := fun he => absurd ((hbit end_).mp he).symm hne
    minus := fun hd => by
      rw [h.done] at hd
      cases hd
    one := fun hd => by
      rw [h.done] at hd
      cases hd
    range := .inl h.done
    inside := h.outside
    loc := fun t => h.loc t ▸ trivial }

theorem step_done (hn : stepThread mp end_ t s = some s') : s'.done = s.done ∨ s'.done ≠ 0 := by
  cases hs : s.loc t <;> simp only [stepThread, hs] at hn
  all_goals grind [St.goto, St.access]

/-- A step never changes `done` once it is set: a thread that sets it to -1 knows that the end
cannot be reached, and one that sets it to 1 that it was visited. -/
theorem Inv.done_keeps (h : Inv mp start end_ s) (hn : stepThread mp end_ t s = some s')
    (hd : s.done ≠ 0) : s'.done = s.done := by
  have h' := inv_next h hn
  rcases step_done hn with he | hd'
  · exact he
  rcases h.range.resolve_left hd with h1 | hm <;> rcases h'.range.resolve_left hd' with h1' | hm'
  · rw [h1, h1']
  · exact absurd (h.reach end_ (h.one h1)) (h'.minus hm').2
  · exact absurd (h'.reach end_ (h'.one h1')) (h.minus hm).2
  · rw [hm, hm']

/-- **`done` is right in every reachable state.** It is -1 only when all that can be reached was
visited and explored and the end is not among it, 1 only when the end was visited, and the next
step of any thread does not change it once it is set. No access to the list is outside of it. -/
theorem done_right (n : ℕ) (mp : Maze) (start end_ : Rowcol) (hs : mp.CellExists start)
    (hne : start ≠ end_) (s : St n) (h : (sys n mp start end_).Reach Conc.Sys.always s) :
    (s.done = -1 → (∀ p, Reaches mp start p → s.bit p = true ∧ Explored mp s p) ∧
      ¬ Reaches mp start end_) ∧
    (s.done = 1 → s.bit end_ = true) ∧
    (∀ t s', (sys n mp start end_).next t s = some s' → s.done ≠ 0 → s'.done = s.done) ∧
    s.outside = false := by
  have hi : Inv mp start end_ s :=
    h.inv (I := Inv mp start end_) (fun _ h0 => inv_init h0 hs hne) fun _ _ _ hi _ hn => inv_next hi hn
  refine ⟨fun hd => ⟨fun p hp => ⟨(hi.minus hd).1 p hp, fun q ho => (hi.minus hd).1 q (hp.tail ho)⟩,
    (hi.minus hd).2⟩, hi.one, fun t s' hn => hi.done_keeps hn, hi.inside⟩

/-- Two cells next to each other, with a wall in between if `closed`. -/
def pair (closed : Bool) : Maze where
  nrows := 1
  ncols := 2
  visited _ := (-1, -1)
  vi := 0
  lastvi := none
  cell p := ⟨fun d => closed && decide (d = if p = (0, 0) then .right else .left), false, false, 0⟩

/-- What `maze_solve` prepares there for `n` threads. -/
def prepared (n : ℕ) : St n where
  bit p := decide (p = (0, 0))
  distance p := if p = (0, 0) then 1 else 0
  visited k := if k = 0 then (0, 0) else (-1, -1)
  vi := 0
  claims := 0
  done := 0
  loc _ := .claim
  cellOf _ := (0, 0)
  outside := false

theorem init_prepared (n : ℕ) (closed : Bool) : Init (pair closed) (0, 0) (prepared n) where
  bit _ := rfl
  distance _ := rfl
  visited _ _ := rfl
  vi := rfl
  claims := rfl
  done := rfl
  loc _ := rfl
  cellOf := rfl
  outside := rfl

/-- Between the walls, the first of two threads explores the start and waits, and the second one
claims too far behind the list. -/
theorem done_right_pair : ∃ s, (sys 2 (pair true) (0, 0) (0, 1)).Reach Conc.Sys.always s ∧
    s.done = -1 ∧
    (s.done = -1 → (∀ p, Reaches (pair true) (0, 0) p → s.bit p = true ∧ Explored (pair true) s p) ∧
      ¬ Reaches (pair true) (0, 0) (0, 1)) ∧
    (s.done = 1 → s.bit (0, 1) = true) ∧
    (∀ t s', (sys 2 (pair true) (0, 0) (0, 1)).next t s = some s' → s.done ≠ 0 → s'.done = s.done) ∧
    s.outside = false := by
  have hrun : ((sys 2 (pair true) (0, 0) (0, 1)).run Conc.Sys.always
      (List.replicate 16 0 ++ List.replicate 3 1) (prepared 2)).map St.done = some (-1) := by
    decide
  obtain ⟨s, hs, hd⟩ := Option.map_eq_some_iff.mp hrun
  have hreach := Conc.Sys.run_reach (.init (init_prepared 2 true)) hs
  exact ⟨s, hreach, hd, done_right 2 (pair true) (0, 0) (0, 1) (by decide) (by decide) s hreach⟩

end Fg
end Maze
end Perfbook
