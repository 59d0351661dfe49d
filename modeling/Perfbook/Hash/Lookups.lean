/-
# What lookups find while the table is resized

Lookups run between the steps of a resize and of update sections, as long as
no section is cut by the switch. The first grace period is not theirs: a
lookup may read the old table for the whole resize. The second one is: it
waits for those that do, so neither the table nor the links that they follow
are used again before they are through.

Key definitions: `Served`.
Key theorems: `readers_next`, `lookups_served`.
-/
import Perfbook.Hash.ReaderSteps

namespace Perfbook
namespace Hash
namespace Updates

open Conc

variable {n : ℕ} {E K : Type}
variable {s s' : St n E K} {D D' : List E} {t u : Fin n} {l : Loc E K} {e : E}

/-! ### Runs -/

theorem readAt_of_not (h : l.reading = false) : ReadAt s t l := by
  cases l <;> trivial

/-- The invariants after a step, once what was in the table is noted. -/
theorem observed (I : Inv s'.toCore D) (hc : Change s s')
    (ht : ∀ u, ∀ g ∈ tabs (s'.loc u), g = s'.cur)
    (htable : ∀ g, Used s'.toCore g ∨ s'.tables ≤ g → s'.freedTable g = false)
    (hfreed : ∀ e, s'.freed e = true → s'.dead e = true ∧ ∀ v, s'.wait e v = false)
    (hl : ∀ u, ReadAt s'.observe u (s'.loc u)) : Lists s'.observe D ∧ Readers s'.observe :=
  ⟨⟨I, ht, hc.abs, hc.gone, hc.trails⟩, htable, hfreed, hl⟩

theorem Change.dead_abs (hc : Change s s') (I : Inv s'.toCore D) (hd : s'.dead e = true) :
    s'.abs e = false := by
  rw [← Bool.not_eq_true, hc.abs]
  exact (I.dead e hd).2.1

/-- A step of a thread. -/
theorem thread_next (L : Lists s D) (R : Readers s) (I : Inv s'.toCore D') (hc : Change s s')
    (ht : ∀ g ∈ tabs (s'.loc t), g = s.cur) (hr : ReadAt s'.observe t (s'.loc t))
    (hk : ∀ u, u ≠ t → Kept s s' u) (hw : ∀ u, u ≠ t → Waits s s' u) (hcur : s'.cur = s.cur)
    (hres : s'.res = s.res) (htables : s'.tables = s.tables) (hft : s'.freedTable = s.freedTable)
    (hfreed : ∀ e, s'.freed e = true → s'.dead e = true ∧ ∀ v, s'.wait e v = false) :
    Lists s'.observe D' ∧ Readers s'.observe := by
  refine observed I hc (fun u => ?_) (fun g hg => ?_) hfreed fun u => ?_
  · rw [hcur]
    by_cases hu : u = t
    · rw [hu]
      exact ht
    · rw [(hk u hu).loc]
      exact L.tabs u
  · rw [hft]
    refine R.table g (hg.imp (fun hg => ?_) fun hg => by rwa [← htables])
    unfold Used at hg ⊢
    rwa [hcur, hres] at hg
  · by_cases hu : u = t
    · rw [hu]
      exact hr
    · rw [(hk u hu).loc]
      refine ReadAt.step rfl (R.loc u) (hk u hu) (hw u hu) hc (fun e => hc.dead_abs I) fun g _ hs => ?_
      unfold Snap at hs ⊢
      rwa [hcur, hres]

/-- A step of the resizer, or a call of `hashtab_resize`. -/
theorem resizer_next (R : Readers s) (I : Inv s'.toCore D') (h : Resized s s')
    (hloc : s'.loc = s.loc) (hk : ∀ u, Kept s s' u) (hdead : s'.dead = s.dead)
    (hwait : s'.wait = s.wait) (hfreed : s'.freed = s.freed) :
    Lists s'.observe D' ∧ Readers s'.observe := by
  refine observed I h.change (fun u => ?_) (h.table R.table) (fun e he => ?_) fun u => ?_
  · rw [hloc]
    exact h.tabs u
  · rw [hdead, hwait]
    exact R.freed e (hfreed ▸ he)
  · rw [hloc]
    exact ReadAt.step rfl (R.loc u) (hk u) (fun e hd => .inl ⟨hdead ▸ hd, by rw [hwait]⟩) h.change
      (fun e => h.change.dead_abs I) (h.snap u)

variable [DecidableEq E] [DecidableEq K]

omit [DecidableEq E] in
/-- A section that no switch cuts finds its element in the bucket that it has locked first. -/
theorem Lists.wasLinked (L : Lists s D) (a : Act n E K) : WasLinked a s := by
  cases a with
  | step t =>
    rintro ⟨e, x⟩ hp
    have hat := L.inv.loc t
    have htabs := L.tabs t
    cases hl : s.loc t with
    | lookWalk op ls g b c =>
      rw [hl] at hp hat htabs
      cases c with
      | head g' b' => cases hp
      | link e' i =>
        simp only [finding, Option.mem_def, Option.ite_none_right_eq_some] at hp
        obtain ⟨-, hp⟩ := hp
        obtain ⟨rfl, rfl⟩ := Prod.mk.inj (Option.some.inj hp)
        obtain ⟨H, hlook, pre, post, hs, hx⟩ := hat
        have h0 : ls.hbp0.1 = s.cur := htabs _ List.mem_cons_self
        have h1 : g = s.cur := htabs _ (List.mem_cons_of_mem _ List.mem_cons_self)
        obtain ⟨hy, -⟩ := hlook.resolve_right fun hx => H.ne L.inv hx (h1.trans h0.symm)
        cases post with
        | nil => cases hx
        | cons a post =>
          obtain ⟨rfl, -⟩ := Cell.link.inj hx
          have hmem : e' ∈ live s.toHeap (g, b) := by rw [hs]; simp
          rw [← hy]
          exact (List.mem_filter.mp hmem).1
    | _ =>
      rw [hl] at hp
      cases hp
  | _ => trivial

/-- **A step keeps the invariants.** -/
theorem readers_next {a : Act n E K} (L : Lists s D) (R : Readers s) (hok : Uncut a s)
    (hn : next a s = some s') : ∃ D', Lists s' D' ∧ Readers s' := by
  obtain ⟨D', I⟩ := inv_next L.inv (L.wasLinked a) hn
  obtain ⟨s₁, ha, rfl⟩ := Option.map_eq_some_iff.mp hn
  have I : Inv s₁.toCore D' := I
  refine ⟨D', ?_⟩
  have hgo : ∀ {t l}, (s.loc t).reading = false → s₁ = s.goto t l → tabs l = [] → l.reading = false →
      Lists s₁.observe D' ∧ Readers s₁.observe := by
    rintro t l - rfl htabs hr
    have hself : (s.goto t l).loc t = l := Function.update_self ..
    exact thread_next (t := t) L R I L.walk (by rw [hself, htabs]; nofun)
      (by rw [hself]; exact readAt_of_not hr)
      (fun u hu => ⟨Function.update_of_ne hu _ _, rfl, rfl, rfl, rfl⟩)
      (fun u hu e hd => .inl ⟨hd, rfl⟩) rfl rfl rfl rfl R.freed
  cases a with
  | lookup t k =>
    simp only [act] at ha
    split at ha
    · rename_i hl
      exact hgo (by rw [hl]; rfl) (Option.some.inj ha).symm rfl rfl
    · cases ha
  | update t op =>
    simp only [act] at ha
    split at ha
    · rename_i hl
      exact hgo (by rw [hl]; rfl) (Option.some.inj ha).symm rfl rfl
    · cases ha
  | step t =>
    have ha : stepThread t s = some s₁ := ha
    obtain ⟨hcur, hres, htables, hft, -⟩ := stepThread_rest ha
    have hspec : Change s s₁ ∧ (∀ g ∈ tabs (s₁.loc t), g = s.cur) ∧ ReadAt s₁.observe t (s₁.loc t) := by
      by_cases hr : (s.loc t).reading = true ∨ ∃ k, s.loc t = .readLock k
      · obtain ⟨hc, ht, hat⟩ := L.readStep (R.loc t) hr ha
        exact ⟨hc, by rw [ht]; nofun, hat⟩
      · rw [not_or, not_exists, Bool.not_eq_true] at hr
        obtain ⟨hc, ht, hat⟩ := L.modStep hr.1 hr.2 ha
        exact ⟨hc, ht, readAt_of_not hat⟩
    exact thread_next L R I hspec.1 hspec.2.1 hspec.2.2 (fun u hu => stepThread_kept hu ha)
      (fun u hu => stepThread_waits hu ha) hcur hres htables hft fun e he =>
        L.freed ha (R.freed e) he
  | add t e =>
    have ha : addElem t e s = some s₁ := ha
    obtain ⟨hk, hcur, hres, htables, hft, hfreed, hdead, hwait⟩ := addElem_kept ha
    obtain ⟨hc, ht, hat⟩ := L.addStep ha
    exact thread_next L R I hc ht (readAt_of_not hat) hk (fun u _ e hd => .inl ⟨hdead ▸ hd, by rw [hwait]⟩)
      hcur hres htables hft fun e he => by
        rw [hdead, hwait]
        exact R.freed e (hfreed ▸ he)
  | resize nbuckets gethash mem =>
    simp only [act] at ha
    split at ha
    · rename_i hr
      split at ha
      · split at ha
        · obtain rfl := Option.some.inj ha
          exact resizer_next R I (L.alloc hr) rfl (fun _ => ⟨rfl, rfl, rfl, rfl, rfl⟩) rfl rfl rfl
        · obtain rfl := Option.some.inj ha
          refine resizer_next R I (L.resized ?_ rfl rfl rfl rfl rfl) rfl
            (fun _ => ⟨rfl, rfl, rfl, rfl, rfl⟩) rfl rfl rfl
          exact L.same (fun _ _ => ⟨rfl, rfl⟩) (fun _ _ _ => rfl) (fun _ _ => rfl) rfl rfl rfl rfl
            (fun _ _ => rfl) (fun _ _ _ => rfl) (fun _ => .inl) fun _ => id
      · cases ha
    · cases ha
  | resizer =>
    have ha : stepResizer s = some s₁ := ha
    obtain ⟨hloc, hk, hdead, hwait, hfreed⟩ := stepResizer_kept ha
    exact resizer_next R I (L.resStep hok ha) hloc hk hdead hwait hfreed
  | reclaim e =>
    simp only [act] at ha
    split at ha
    · rename_i hcond
      obtain rfl := Option.some.inj ha
      have hc : Change s { s with freed := Function.update s.freed e true } :=
        L.same (fun _ _ => ⟨rfl, rfl⟩) (fun _ _ _ => rfl) (fun _ _ => rfl) rfl rfl rfl rfl
          (fun _ _ => rfl) (fun _ _ _ => rfl) (fun _ => .inl) fun _ => id
      refine observed I hc L.tabs R.table (fun a ha => ?_) fun u =>
        ReadAt.step (s := s) rfl (R.loc u) ⟨rfl, rfl, rfl, rfl, rfl⟩ (fun a hd => .inl ⟨hd, rfl⟩) hc
          (fun a => hc.dead_abs I) fun _ _ => id
      have ha : Function.update s.freed e true a = true := ha
      by_cases hae : a = e
      · rw [hae]
        exact ⟨hcond.1, hcond.2.2⟩
      · rw [Function.update_of_ne hae] at ha
        exact R.freed a ha
    · cases ha

omit [DecidableEq E] [DecidableEq K] in
theorem readers_init (h : Init s) : Lists s [] ∧ Readers s := by
  have hused : ∀ {g}, Used s.toCore g → g = s.cur := by
    rintro g (hg | ⟨g₁, g₂, hp, -⟩)
    · exact hg
    · rw [h.res] at hp
      cases hp
  refine ⟨⟨inv_init h, fun t g hg => ?_, fun e => ?_, fun g hg e ho => ?_, fun g hg => ?_⟩,
    fun g hg => ?_, fun e he => ?_, fun t => ?_⟩
  · rw [h.loc] at hg
    cases hg
  · rw [h.abs]
    exact ⟨fun he => mem_of_hist he (h.out e), Mem.hist⟩
  · rw [hused (Used.snap hg), h.out] at ho
    cases ho
  · rw [hused hg]
    have hall : ∀ b, (s.hist (s.cur, b)).filter (fun e => !s.out s.cur e) = s.hist (s.cur, b) := fun b =>
      List.filter_eq_self.mpr fun e _ => by rw [h.out]; rfl
    refine ⟨fun b => ⟨?_, (h.ring b).nodup, fun l₁ e l₂ _ ho => ?_⟩, fun b e he => (h.place b e he).1,
      fun b e he => (h.place b e he).2.2⟩
    · rw [hall]
      exact h.ring b
    · rw [h.out] at ho
      cases ho
  · obtain hg | hg := hg
    · rw [hused hg]
      exact h.freedTable.1
    · exact h.freedTable.2 g hg
  · rw [h.freed] at he
    cases he
  · rw [h.loc]
    trivial

theorem reach_readers (h : (sys n E K).Reach Uncut s) : ∃ D, Lists s D ∧ Readers s :=
  h.inv (I := fun s => ∃ D, Lists s D ∧ Readers s) (fun _ h0 => ⟨[], readers_init h0⟩)
    fun _ _ _ ⟨_, L, R⟩ hok hn => readers_next L R hok hn

/-! ### Lookups -/

/-- What lookups can rely on. -/
structure Served (s : St n E K) : Prop where
  /-- what is in the table is linked into `ht_cur` -/
  contents : ∀ e, s.abs e = true ↔ e ∈ s.elems (s.cur, s.bucket s.cur (s.key e))
  /-- an element that is the only one of its key, and in the table all the time, is found -/
  hit : ∀ t k x e, s.loc t = .readUnlock k x → s.stay t e = true → s.key e = k →
    (∀ a, s.was t a = true → s.key a = k → a = e) → x = some e
  /-- what is found was in the table at some time -/
  found : ∀ t k e, s.loc t = .readUnlock k (some e) → s.key e = k ∧ s.was t e = true
  /-- `NULL` if no element of the key was in the table at any time -/
  miss : ∀ t k x, s.loc t = .readUnlock k x → (∀ e, s.was t e = true → s.key e ≠ k) → x = none
  /-- the table that is read has not been freed -/
  table : s.freedTable s.cur = false ∧ ∀ t k g b, (s.loc t = .readHead k g b ∨
    ∃ c, s.loc t = .readWalk k g b c) → s.freedTable g = false
  /-- nor has the element, whose link is of this table -/
  elem : ∀ t k g b e i, s.loc t = .readWalk k g b (.link e i) →
    s.freed e = false ∧ i = (s.tab g).idx ∧ s.home e i = g
  /-- an element that was found is not freed before `rcu_read_unlock` -/
  kept : ∀ t k e, s.loc t = .readUnlock k (some e) → s.freed e = false
  /-- the next step can be taken, and passes an element, of which there are not more than `bound` -/
  ends : ∀ t k g b c, s.loc t = .readWalk k g b c → (stepThread t s).isSome = true ∧
    s.took t ≤ s.bound t ∧ ∀ e i, c = .link e i → s.took t < s.bound t

omit [DecidableEq E] [DecidableEq K] in
/-- Nothing that a lookup has seen is freed. -/
theorem Readers.not_freed (R : Readers s) (hn : Now s t) (he : s.was t e = true) : s.freed e = false := by
  rw [← Bool.not_eq_true]
  intro hf
  obtain ⟨hd, hw⟩ := R.freed e hf
  have := hn.wait e he hd
  rw [hw t] at this
  cases this

theorem Lists.served (L : Lists s D) (R : Readers s) : Served s where
  contents e := by
    rw [L.abs, L.inv.elems (.inl rfl)]
    exact Iff.rfl
  hit t k x e hl hst hk hone := by
    have hat := R.loc t
    rw [hl] at hat
    obtain ⟨-, ha⟩ := hat
    cases x with
    | some a => rw [hone a ha.2 ha.1]
    | none =>
      rw [ha e hk] at hst
      cases hst
  found t k e hl := by
    have hat := R.loc t
    rw [hl] at hat
    exact hat.2
  miss t k x hl hno := by
    have hat := R.loc t
    rw [hl] at hat
    cases x with
    | some a => exact absurd hat.2.1 (hno a hat.2.2)
    | none => rfl
  table := by
    refine ⟨R.table _ (.inl (.inl rfl)), fun t k g b hl => ?_⟩
    have hat := R.loc t
    obtain hl | ⟨c, hl⟩ := hl
    · rw [hl] at hat
      obtain ⟨-, seen, hr⟩ := hat
      exact R.table g (.inl (Used.snap hr.snap))
    · rw [hl] at hat
      obtain ⟨-, seen, hr, -⟩ := hat
      exact R.table g (.inl (Used.snap hr.snap))
  elem t k g b e i hl := by
    have hat := R.loc t
    rw [hl] at hat
    obtain ⟨hn, seen, hr, pre, post, W⟩ := hat
    cases post with
    | nil => cases W.cell
    | cons a post =>
      obtain ⟨rfl, rfl⟩ := Cell.link.inj W.cell
      refine ⟨R.not_freed hn (hr.was e (W.seen e rfl)), rfl, ?_⟩
      exact (L.trails g (Used.snap hr.snap)).home b e (by rw [W.hist]; simp)
  kept t k e hl := by
    have hat := R.loc t
    rw [hl] at hat
    exact R.not_freed hat.1 hat.2.2
  ends t k g b c hl := by
    have hat := R.loc t
    rw [hl] at hat
    obtain ⟨-, seen, hr, pre, post, W⟩ := hat
    have htook := W.took
    cases post with
    | nil =>
      obtain rfl := W.cell
      refine ⟨by simp [stepThread, hl, first], by simpa using htook, nofun⟩
    | cons a post =>
      obtain rfl := W.cell
      rw [List.length_cons] at htook
      exact ⟨by simp [stepThread, hl, first], by omega, fun _ _ _ => by omega⟩

/-- **A lookup passes one element in each of its steps** in a list, and nobody else moves it. -/
def Walks (s : St n E K) : Prop :=
  ∀ a s', next a s = some s' → ∀ t k g b c, s.loc t = .readWalk k g b c → s'.bound t = s.bound t ∧
    (s'.loc t = s.loc t ∧ s'.took t = s.took t ∧ a ≠ .step t ∨ (∃ x, s'.loc t = .readUnlock k x) ∨
      s'.took t = s.took t + 1 ∧ ∃ c', s'.loc t = .readWalk k g b c')

theorem walks (s : St n E K) : Walks s := by
  intro a s' hn t k g b c hl
  obtain ⟨s₁, ha, rfl⟩ := Option.map_eq_some_iff.mp hn
  show s₁.bound t = s.bound t ∧ (s₁.loc t = s.loc t ∧ s₁.took t = s.took t ∧ a ≠ .step t ∨
    (∃ x, s₁.loc t = .readUnlock k x) ∨ s₁.took t = s.took t + 1 ∧ ∃ c', s₁.loc t = .readWalk k g b c')
  have hkept : Kept s s₁ t → a ≠ .step t → s₁.bound t = s.bound t ∧ (s₁.loc t = s.loc t ∧
      s₁.took t = s.took t ∧ a ≠ .step t ∨ (∃ x, s₁.loc t = .readUnlock k x) ∨
        s₁.took t = s.took t + 1 ∧ ∃ c', s₁.loc t = .readWalk k g b c') := fun hk ha =>
    ⟨hk.bound, .inl ⟨hk.loc, hk.took, ha⟩⟩
  cases a with
  | step u =>
    have ha : stepThread u s = some s₁ := ha
    by_cases hu : t = u
    · subst hu
      unfold stepThread at ha
      rw [hl] at ha
      cases c with
      | head g' b' =>
        dsimp only at ha
        split at ha
        · cases ha
          exact ⟨rfl, .inr (.inl ⟨none, Function.update_self ..⟩)⟩
        · cases ha
      | link e i =>
        dsimp only at ha
        split at ha
        · cases ha
          refine ⟨rfl, .inr ?_⟩
          by_cases hk : s.key e = k
          · rw [if_pos hk]
            exact .inl ⟨some e, Function.update_self ..⟩
          · rw [if_neg hk]
            exact .inr ⟨Function.update_self .., _, Function.update_self ..⟩
        · cases ha
    · exact hkept (stepThread_kept hu ha) fun h => hu (Act.step.inj h).symm
  | add u e =>
    have ha : addElem u e s = some s₁ := ha
    by_cases hu : t = u
    · subst hu
      unfold addElem at ha
      rw [hl] at ha
      cases ha
    · exact hkept ((addElem_kept ha).1 t hu) fun h => by cases h
  | lookup u k' | update u op =>
    simp only [act] at ha
    split at ha
    · rename_i hlu
      cases ha
      have hu : t ≠ u := by
        rintro rfl
        rw [hl] at hlu
        cases hlu
      exact hkept ⟨Function.update_of_ne hu _ _, rfl, rfl, rfl, rfl⟩ fun h => by cases h
    · cases ha
  | resize | reclaim =>
    simp only [act] at ha
    repeat' split at ha
    all_goals
      cases ha
      try exact hkept ⟨rfl, rfl, rfl, rfl, rfl⟩ fun h => by cases h
  | resizer => exact hkept ((stepResizer_kept ha).2.1 t) fun h => by cases h

/-- **Readers during a resize** find what is in the table, in lists that end, and touch nothing
that has been freed. -/
theorem lookups_served (h : (sys n E K).Reach Uncut s) : Served s ∧ Walks s := by
  obtain ⟨D, L, R⟩ := reach_readers h
  exact ⟨L.served R, walks s⟩

instance : ∀ (a : Act n E K) (s : St n E K), Decidable (Uncut a s)
  | .resizer, s => inferInstanceAs (Decidable (s.res.switching = true → ∀ t, (s.loc t).updating = false))
  | .lookup _ _, _ | .update _ _, _ | .step _, _ | .add _ _, _ | .resize _ _ _, _ | .reclaim _, _ =>
    .isTrue trivial

/-- Two elements are added. While the resizer moves them and switches, a lookup of the first one
stands on the second one, which is then deleted. -/
def lookupRun : List (Act 2 ℕ ℕ) :=
  .flatten [
    addSection 0 5, addSection 0 6, [.resize 2 none true], .replicate 3 .resizer,
    [.lookup 1 5], .replicate 3 (.step 1), .replicate 17 .resizer,
    [.update 0 ⟨6, true, false⟩], .replicate 10 (.step 0), [.resizer], .replicate 2 (.step 1)]

theorem lookups_served_switch : ∃ s, (sys 2 ℕ ℕ).Reach Uncut s ∧ s.cur = 1 ∧ s.dead 6 = true ∧
    s.took 1 = 2 ∧ Served s ∧ Walks s := by
  have hrun : ((sys 2 ℕ ℕ).run Uncut lookupRun start).map (fun s => (s.cur, s.dead 6, s.took 1)) =
      some (1, true, 2) := by
    decide
  obtain ⟨s, hs, hd⟩ := Option.map_eq_some_iff.mp hrun
  obtain ⟨hc, hd⟩ := Prod.mk.inj hd
  obtain ⟨hd, ht⟩ := Prod.mk.inj hd
  have hreach := Sys.run_reach (.init start_init) hs
  exact ⟨s, hreach, hc, hd, ht, lookups_served hreach⟩

end Updates
end Hash
end Perfbook
