/-
# The steps that lookups run between

A step of an update section changes a list of `ht_cur`, or of the new table
while it is built (`Lists.modStep`); the resizer changes the new table only
(`Lists.resStep`). A lookup goes on past unlinked elements, which are not in
the table any more (`Lists.readStep`).

Key theorems: `Lists.modStep`, `Lists.readStep`, `Lists.resStep`, `Lists.alloc`.
-/
import Perfbook.Hash.Readers

namespace Perfbook
namespace Hash
namespace Updates

open Conc

variable {n : ℕ} {E K : Type}
variable {s s' : St n E K} {D : List E} {t u : Fin n} {l : Loc E K} {k : K} {g g' b : ℕ} {e : E}
variable {i : Bool} {x : ℕ × ℕ} {seen : E → Prop} {c : Cell E} {op : Op K} {ls : LockState}

/-! ### Update sections -/

theorem tabs_locked : ∀ g ∈ tabs (.locked op ls : Loc E K), g = ls.hbp0.1 := by
  unfold Loc.locked
  split
  · exact fun g hg => List.mem_singleton.mp hg
  split
  · exact fun g hg => List.mem_singleton.mp hg
  · nofun

theorem tabs_missed : ∀ g ∈ tabs (.missed op ls : Loc E K), g = ls.hbp0.1 := by
  unfold Loc.missed
  split
  · exact fun g hg => List.mem_singleton.mp hg
  · nofun

theorem reading_locked : (.locked op ls : Loc E K).reading = false := by
  unfold Loc.locked
  split
  · rfl
  · split <;> rfl

theorem reading_missed : (.missed op ls : Loc E K).reading = false := by
  unfold Loc.missed
  split <;> rfl

/-- A thread goes on, and touches no list. -/
theorem Lists.walk {lk : ℕ × ℕ → Option (Who n)} {lo : Fin n → Loc E K} {gp : Fin n → Bool}
    {wt : E → Fin n → Bool} {ws st : Fin n → E → Bool} {tk bd : Fin n → ℕ} (L : Lists s D) :
    Change s { s with
      lock := lk, loc := lo, gp := gp, wait := wt, was := ws, stay := st, took := tk, bound := bd } :=
  L.same (fun _ _ => ⟨rfl, rfl⟩) (fun _ _ _ => rfl) (fun _ _ => rfl) rfl rfl rfl rfl (fun _ _ => rfl)
    (fun _ _ _ => rfl) (fun _ => .inl) fun _ => id

/-- The table that a section works on is not the old one. -/
theorem Lists.early (L : Lists s D) (H : Held s.toCore t op ls) (hcur : ls.hbp0.1 = s.cur)
    (hx : ls.hbp1 = some x) : x.1 ≠ s.cur ∧ late s.res = false := by
  have hp := L.inv.pair_new H.snap (H.both x hx).2.1
  have hne := (L.inv.tables _ _ hp).ne
  rw [hcur] at hne
  refine ⟨hne, ?_⟩
  rw [← Bool.not_eq_true]
  exact fun hlate => hne (L.inv.late_cur hp hlate).symm

/-- An element that is being deleted is not dead yet. -/
theorem Lists.not_dead (L : Lists s D) (hl : s.loc t = .del op ls e ∨ s.loc t = .delNew op ls e) :
    s.dead e = false := by
  have hat := L.inv.loc t
  have hcur : ls.hbp0.1 = s.cur := L.tabs t _ (by obtain hl | hl := hl <;> rw [hl] <;> exact List.mem_cons_self)
  rw [← Bool.not_eq_true]
  intro hd
  obtain ⟨-, hd, hdn⟩ := L.inv.dead e hd
  obtain hl | hl := hl
  · rw [hl] at hat
    exact hd (hcur ▸ hat.2.2.1)
  · rw [hl] at hat
    obtain ⟨H, -, -, -, x, hx, hm⟩ := hat
    exact hdn _ _ (L.inv.pair_new H.snap (H.both x hx).2.1) (L.early H hcur hx).2 hm

section Steps

variable [DecidableEq E] [DecidableEq K]

/-- **A step of an update section.** -/
theorem Lists.modStep (L : Lists s D) (hr : (s.loc t).reading = false)
    (hrl : ∀ k, s.loc t ≠ .readLock k) (hn : stepThread t s = some s') :
    Change s s' ∧ (∀ g ∈ Updates.tabs (s'.loc t), g = s.cur) ∧ (s'.loc t).reading = false := by
  have hat := L.inv.loc t
  have htabs := L.tabs t
  have hgo : ∀ {l : Loc E K} {s₁ : St n E K}, Change s (s₁.goto t l) →
      (∀ g ∈ Updates.tabs l, g = s.cur) → l.reading = false →
      Change s (s₁.goto t l) ∧ (∀ g ∈ Updates.tabs ((s₁.goto t l).loc t), g = s.cur) ∧
        ((s₁.goto t l).loc t).reading = false := by
    intro l s₁ hc ht hl
    rw [show (s₁.goto t l).loc t = l from Function.update_self ..]
    exact ⟨hc, ht, hl⟩
  unfold stepThread at hn
  cases hl : s.loc t with
  | idle =>
    rw [hl] at hn
    cases hn
  | readCur | readHead | readWalk | readUnlock =>
    rw [hl] at hr
    cases hr
  | readLock k => exact absurd hl (hrl k)
  | modLock op | modUnlock =>
    rw [hl] at hn
    obtain rfl := Option.some.inj hn
    exact hgo L.walk nofun rfl
  | modCur op =>
    rw [hl] at hn
    obtain rfl := Option.some.inj hn
    exact hgo L.walk (fun g hg => List.mem_singleton.mp hg) rfl
  | modBucket op g b =>
    rw [hl] at hn htabs
    dsimp only at hn
    split at hn
    · obtain rfl := Option.some.inj hn
      exact hgo L.walk htabs rfl
    · cases hn
  | modProgress op g b =>
    rw [hl] at hn htabs
    obtain rfl := Option.some.inj hn
    refine hgo L.walk ?_ ?_
    · split
      · exact fun g' hg => htabs g' (List.mem_singleton.mpr (tabs_locked g' hg))
      · exact htabs
    · split
      · exact reading_locked
      · rfl
  | modNew op g b =>
    rw [hl] at hn htabs
    dsimp only at hn
    split at hn
    · cases hn
    · obtain rfl := Option.some.inj hn
      exact hgo L.walk htabs rfl
  | modNewBucket op g b g' b' =>
    rw [hl] at hn htabs
    dsimp only at hn
    split at hn
    · obtain rfl := Option.some.inj hn
      exact hgo L.walk (fun g' hg => htabs g' (List.mem_singleton.mpr (tabs_locked g' hg)))
        reading_locked
    · cases hn
  | lookCur op ls =>
    rw [hl] at hn htabs
    obtain rfl := Option.some.inj hn
    refine hgo L.walk (fun g hg => ?_) rfl
    obtain rfl | hg := List.mem_cons.mp hg
    · exact htabs _ List.mem_cons_self
    · exact List.mem_singleton.mp hg
  | lookHead op ls g b =>
    rw [hl] at hn htabs
    obtain rfl := Option.some.inj hn
    exact hgo L.walk htabs rfl
  | lookWalk op ls g b c =>
    rw [hl] at hn htabs
    have h0 := htabs ls.hbp0.1 List.mem_cons_self
    cases c with
    | head g' b' =>
      dsimp only at hn
      split at hn
      · obtain rfl := Option.some.inj hn
        exact hgo L.walk (fun g' hg => (tabs_missed g' hg).trans h0) reading_missed
      · cases hn
    | link e i =>
      dsimp only at hn
      split at hn
      · obtain rfl := Option.some.inj hn
        refine hgo L.walk ?_ ?_
        · split
          · exact fun g' hg => (List.mem_singleton.mp hg).trans h0
          · exact htabs
        · split <;> rfl
      · cases hn
  | del op ls e =>
    rw [hl] at hn hat htabs
    dsimp only at hn
    obtain ⟨H, -, hm, -⟩ := hat
    have h0 := htabs ls.hbp0.1 List.mem_cons_self
    have habs : ∀ a, Function.update s.abs e false a = true ↔
        s.abs a = true ∧ ¬ (s.cur = ls.hbp0.1 ∧ a = e) := by
      intro a
      by_cases ha : a = e
      · simp [ha, h0]
      · simp [ha]
    split at hn
    · obtain rfl := Option.some.inj hn
      exact hgo (L.unlink rfl rfl rfl rfl rfl rfl habs rfl (fun _ => id) (fun _ => id)
        (Used.snap H.snap) H.idx0 hm fun hne => absurd h0 hne) nofun rfl
    · obtain rfl := Option.some.inj hn
      exact hgo (L.unlink rfl rfl rfl rfl rfl rfl habs rfl (fun _ => id) (fun _ => id)
        (Used.snap H.snap) H.idx0 hm fun hne => absurd h0 hne) htabs rfl
  | delNew op ls e =>
    rw [hl] at hn hat htabs
    dsimp only at hn
    obtain ⟨H, -, -, -, x, hx, hm⟩ := hat
    obtain ⟨hne, hlate⟩ := L.early H (htabs ls.hbp0.1 List.mem_cons_self) hx
    rw [hx] at hn
    obtain rfl := Option.some.inj hn
    refine hgo (L.unlink rfl rfl rfl rfl rfl rfl (fun a => ?_) rfl (fun _ => id) (fun _ => id)
      (Held.used L.inv H hx) ?_ hm fun _ => hlate) nofun rfl
    · exact (and_iff_left fun h => hne h.1.symm).symm
    · rw [H.idx0, (L.inv.tables _ _ (L.inv.pair_new H.snap (H.both x hx).2.1)).idx]
  | add op ls =>
    rw [hl] at hn
    cases hn
  | addNew op ls e =>
    rw [hl] at hn hat htabs
    dsimp only at hn
    obtain ⟨H, hk, -, -, -, x, hx, hm, ho⟩ := hat
    obtain ⟨hne, hlate⟩ := L.early H (htabs ls.hbp0.1 List.mem_cons_self) hx
    rw [hx] at hn
    obtain rfl := Option.some.inj hn
    refine hgo (L.link rfl rfl rfl rfl rfl rfl (fun a => ?_) rfl (fun _ => id) (fun _ => id)
      (Held.used L.inv H hx) ?_ ?_ hm ho (fun h => absurd h hne) fun _ => hlate) nofun rfl
    · exact (or_iff_left fun h => hne h.1).symm
    · rw [H.idx0, (L.inv.tables _ _ (L.inv.pair_new H.snap (H.both x hx).2.1)).idx]
    · rw [hk]
      exact (H.both x hx).2.2.1
  | unlockOld ls =>
    rw [hl] at hn
    obtain rfl := Option.some.inj hn
    refine hgo L.walk ?_ ?_
    · split <;> nofun
    · split <;> rfl
  | unlockNew x =>
    rw [hl] at hn
    obtain rfl := Option.some.inj hn
    exact hgo L.walk nofun rfl

/-- **The first `cds_list_add_rcu`.** -/
theorem Lists.addStep (L : Lists s D) (hn : addElem t e s = some s') :
    Change s s' ∧ (∀ g ∈ Updates.tabs (s'.loc t), g = s.cur) ∧ (s'.loc t).reading = false := by
  have hat := L.inv.loc t
  have htabs := L.tabs t
  unfold addElem at hn
  split at hn
  · rename_i op ls hl
    split at hn
    · rename_i he
      rw [hl] at hat htabs
      have H : Held s.toCore t op ls := hat
      have h0 := htabs ls.hbp0.1 List.mem_cons_self
      have hu := Used.snap H.snap
      obtain rfl := Option.some.inj hn
      refine ⟨L.link rfl rfl rfl rfl rfl rfl (fun a => ?_) rfl (fun _ => id) (fun _ => id) hu H.idx0
        (by rw [he.2]; exact H.hbp0) (fun hm => he.1 (L.inv.pool _ hu e (.inl hm))) ?_ (fun _ => he.1)
        fun hne => absurd h0 hne, ?_⟩
      · show Function.update s.abs e true a = true ↔ _
        by_cases ha : a = e
        · simp [ha, h0]
        · simp [ha]
      · rw [← Bool.not_eq_true]
        exact fun ho => he.1 (L.inv.pool _ hu e (.inr ho))
      · rw [show ∀ (s₁ : St n E K) l, (s₁.goto t l).loc t = l from fun _ _ => Function.update_self ..]
        split
        · exact ⟨nofun, rfl⟩
        · exact ⟨htabs, rfl⟩
    · cases hn
  · cases hn

theorem addElem_kept (hn : addElem t e s = some s') : (∀ u, u ≠ t → Kept s s' u) ∧ s'.cur = s.cur ∧
    s'.res = s.res ∧ s'.tables = s.tables ∧ s'.freedTable = s.freedTable ∧ s'.freed = s.freed ∧
      s'.dead = s.dead ∧ s'.wait = s.wait := by
  unfold addElem at hn
  repeat' split at hn
  all_goals
    cases hn
    try exact ⟨fun u hu => ⟨Function.update_of_ne hu _ _, rfl, rfl, rfl, rfl⟩, rfl, rfl, rfl, rfl, rfl, rfl, rfl⟩

/-! ### What the steps leave of the others -/

theorem stepThread_kept (hu : u ≠ t) (hn : stepThread t s = some s') : Kept s s' u := by
  unfold stepThread at hn
  repeat' split at hn
  all_goals
    cases hn
    try constructor <;> first | rfl | exact Function.update_of_ne hu _ _

/-- Where a thread that buries an element is. -/
theorem stepThread_dead (hn : stepThread t s = some s') :
    (s'.dead = s.dead ∧ (s'.wait = s.wait ∨ ∀ e, s'.wait e = Function.update (s.wait e) t false)) ∨
      ∃ op ls e, (s.loc t = .del op ls e ∨ s.loc t = .delNew op ls e) ∧
        s'.dead = Function.update s.dead e true ∧
        s'.wait = Function.update s.wait e fun v => (s.loc v).inSection := by
  unfold stepThread at hn
  cases hl : s.loc t with
  | del op ls e =>
    rw [hl] at hn
    dsimp only at hn
    split at hn
    · cases hn
      exact .inr ⟨op, ls, e, .inl rfl, rfl, rfl⟩
    · cases hn
      exact .inl ⟨rfl, .inl rfl⟩
  | delNew op ls e =>
    rw [hl] at hn
    dsimp only at hn
    split at hn
    · cases hn
    · cases hn
      exact .inr ⟨op, ls, e, .inr rfl, rfl, rfl⟩
  | readUnlock | modUnlock =>
    rw [hl] at hn
    cases hn
    exact .inl ⟨rfl, .inr fun _ => rfl⟩
  | _ =>
    rw [hl] at hn
    dsimp only at hn
    repeat' split at hn
    all_goals
      cases hn
      try exact .inl ⟨rfl, .inl rfl⟩

theorem stepThread_rest (hn : stepThread t s = some s') : s'.cur = s.cur ∧ s'.res = s.res ∧
    s'.tables = s.tables ∧ s'.freedTable = s.freedTable ∧ s'.freed = s.freed := by
  unfold stepThread at hn
  repeat' split at hn
  all_goals
    cases hn
    try exact ⟨rfl, rfl, rfl, rfl, rfl⟩

/-- A grace period of an element waits for the lookups of the others. -/
theorem stepThread_waits (hu : u ≠ t) (hn : stepThread t s = some s') : Waits s s' u := by
  intro e hd
  obtain ⟨hdead, hw | hw⟩ | ⟨op, ls, a, -, hdead, hw⟩ := stepThread_dead hn
  · exact .inl ⟨hdead ▸ hd, by rw [hw]⟩
  · exact .inl ⟨hdead ▸ hd, by rw [hw, Function.update_of_ne hu]⟩
  · rw [hdead] at hd
    rw [hw]
    by_cases he : e = a
    · rw [he, Function.update_self]
      exact .inr id
    · rw [Function.update_of_ne he] at hd ⊢
      exact .inl ⟨hd, rfl⟩

/-- An element that was freed is dead, and its grace period is over. -/
theorem Lists.freed (L : Lists s D) (hn : stepThread t s = some s')
    (hf : s.freed e = true → s.dead e = true ∧ ∀ v, s.wait e v = false) (he : s'.freed e = true) :
    s'.dead e = true ∧ ∀ v, s'.wait e v = false := by
  rw [(stepThread_rest hn).2.2.2.2] at he
  obtain ⟨hd, hwait⟩ := hf he
  obtain ⟨hdead, hw | hw⟩ | ⟨op, ls, a, hl, hdead, hw⟩ := stepThread_dead hn
  · rw [hdead, hw]
    exact ⟨hd, hwait⟩
  · rw [hdead, hw]
    refine ⟨hd, fun v => ?_⟩
    by_cases hv : v = t
    · rw [hv, Function.update_self]
    · rw [Function.update_of_ne hv]
      exact hwait v
  · have hea : e ≠ a := by
      rintro rfl
      rw [L.not_dead hl] at hd
      cases hd
    rw [hdead, hw, Function.update_of_ne hea, Function.update_of_ne hea]
    exact ⟨hd, hwait⟩

/-! ### Lookups -/

omit [DecidableEq E] [DecidableEq K] in
/-- What is linked into the buckets of `ht_cur` is in the table. -/
theorem Lists.linked (L : Lists s D) (he : e ∈ s.hist (s.cur, b)) (ho : s.out s.cur e = false) :
    s.abs e = true := by
  rw [L.abs]
  exact mem_of_hist ((L.trails s.cur (.inl rfl)).bucket b e he ▸ he) ho

omit [DecidableEq E] [DecidableEq K] in
theorem Lists.dead_abs (L : Lists s D) (hd : s.dead e = true) : s.abs e = false := by
  rw [← Bool.not_eq_true, L.abs]
  exact (L.inv.dead e hd).2.1

omit [DecidableEq E] [DecidableEq K] in
/-- What a lookup passes over is not in the table. -/
theorem Lists.passed (L : Lists s D) (hn : Now s t) (hs : Snap s.toCore g) (ho : (!s.out g e) = false) :
    s.stay t e = false := by
  rw [← Bool.not_eq_true]
  intro hst
  have ha := hn.stay e hst
  rw [L.gone g hs e (by simpa using ho)] at ha
  cases ha

/-- **A step of a lookup.** -/
theorem Lists.readStep (L : Lists s D) (h : ReadAt s t (s.loc t))
    (hr : (s.loc t).reading = true ∨ ∃ k, s.loc t = .readLock k) (hn : stepThread t s = some s') :
    Change s s' ∧ Updates.tabs (s'.loc t) = [] ∧ ReadAt s'.observe t (s'.loc t) := by
  have hdead : ∀ e, s.dead e = true → s.abs e = false := fun e hd => L.dead_abs hd
  unfold stepThread at hn
  cases hl : s.loc t with
  | readLock k =>
    rw [hl] at hn
    obtain rfl := Option.some.inj hn
    have hc : Change s ((s.begin t).goto t (.readCur k)) := L.walk
    rw [show ((s.begin t).goto t (.readCur k)).loc t = .readCur k from Function.update_self ..]
    refine ⟨hc, rfl, fun e he => observe_was.mpr (.inr he), fun e he => (observe_stay.mp he).2, ?_⟩
    intro e he hd
    have ha : s.abs e = true := by
      obtain he | he := observe_was.mp he
      · have hw : (s.begin t).was t = s.abs := Function.update_self ..
        exact (congrFun hw e).symm.trans he
      · exact he
    rw [hdead e hd] at ha
    cases ha
  | readCur k =>
    rw [hl] at hn h
    obtain rfl := Option.some.inj hn
    have hn : Now s t := h
    have hc : Change s (s.goto t (.readHead k s.cur (s.bucket s.cur k))) := L.walk
    have T := L.trails s.cur (.inl rfl)
    have hreads : Reads s t k s.cur (s.bucket s.cur k) fun e =>
        e ∈ s.hist (s.cur, s.bucket s.cur k) ∧ (!s.out s.cur e) = true :=
      { snap := .inl rfl, bucket := rfl, view := View.start (T.trail _)
        was := fun e he => hn.was e (L.linked he.1 (by simpa using he.2))
        stay := fun e he hk => by
          rw [← hk]
          exact ((L.abs e).mp (hn.stay e he)).hist }
    rw [show (s.goto t (.readHead k s.cur (s.bucket s.cur k))).loc t = _ from Function.update_self ..]
    exact ⟨hc, rfl, hn.step rfl (fun e hd => .inl ⟨hd, rfl⟩) (by rw [hl]; rfl) hdead, _,
      hreads.step rfl rfl hc (.inl rfl)⟩
  | readHead k g b =>
    rw [hl] at hn h
    obtain rfl := Option.some.inj hn
    obtain ⟨hnow, seen, hreads⟩ := h
    have T := L.trails g (Used.snap hreads.snap)
    obtain ⟨mid, rest, hs, hmid, hx, hseen⟩ :=
      hreads.view.head (link_inj _) (link_ne_head _ _ _) (T.trail b)
    set s₁ := { s with
      took := Function.update s.took t 0
      bound := Function.update s.bound t (s.hist (g, b)).length }.goto t
        (.readWalk k g b (s.links.next (.head g b))) with hs₁
    have hc : Change s s₁ := L.walk
    rw [show s₁.loc t = .readWalk k g b (s.links.next (.head g b)) from Function.update_self ..]
    refine ⟨hc, rfl, hnow.step rfl (fun e hd => .inl ⟨hd, rfl⟩) (by rw [hl]; rfl) hdead, _,
      hreads.step rfl rfl hc hreads.snap, mid, rest, hs, hx, fun a ha _ => ?_,
      fun a ha => .inl (hseen a ha), ?_⟩
    · rw [← Bool.not_eq_true, observe_stay]
      rintro ⟨hst, -⟩
      rw [show s₁.stay t a = s.stay t a from rfl, L.passed hnow hreads.snap (hmid a ha)] at hst
      cases hst
    · show Function.update s.took t 0 t + rest.length ≤ Function.update s.bound t _ t
      rw [Function.update_self, Function.update_self, hs, List.length_append]
      omega
  | readWalk k g b c =>
    rw [hl] at hn h
    obtain ⟨hnow, seen, hreads, pre, post, W⟩ := h
    have T := L.trails g (Used.snap hreads.snap)
    have hnow' : ∀ {s₁ : St n E K}, s₁.was = s.was → s₁.dead = s.dead → s₁.wait = s.wait →
        s₁.abs = s.abs → Now s₁.observe t := fun h1 h2 h3 h4 =>
      hnow.step (by rw [h1]) (fun e hd => .inl ⟨h2 ▸ hd, by rw [h3]⟩) (by rw [hl]; rfl)
        fun e hd => by rw [h4]; exact hdead e (h2 ▸ hd)
    cases c with
    | head g' b' =>
      dsimp only at hn
      split at hn
      · obtain rfl := Option.some.inj hn
        have hc : Change s (s.goto t (.readUnlock k none)) := L.walk
        rw [show (s.goto t (.readUnlock k none)).loc t = _ from Function.update_self ..]
        refine ⟨hc, rfl, hnow' rfl rfl rfl rfl, fun e hk => ?_⟩
        rw [← Bool.not_eq_true, observe_stay]
        rintro ⟨hst, -⟩
        have hmem := hreads.stay e hst hk
        cases post with
        | cons a post => cases W.cell
        | nil =>
          rw [W.hist, List.append_nil] at hmem
          rw [show (s.goto t (.readUnlock k none)).stay t e = s.stay t e from rfl, W.passed e hmem hk] at hst
          cases hst
      · cases hn
    | link e i =>
      cases post with
      | nil => cases W.cell
      | cons e' post =>
        obtain ⟨rfl, rfl⟩ := Cell.link.inj W.cell
        have hsee : seen e := W.seen e rfl
        dsimp only at hn
        rw [if_pos rfl] at hn
        by_cases hk : s.key e = k
        · rw [if_pos hk] at hn
          obtain rfl := Option.some.inj hn
          refine ⟨L.walk, ?_⟩
          rw [show ∀ s₁ : St n E K, (s₁.goto t (.readUnlock k (some e))).loc t = _ from
            fun _ => Function.update_self ..]
          exact ⟨rfl, hnow' rfl rfl rfl rfl, hk, observe_was.mpr (.inl (hreads.was e hsee))⟩
        · rw [if_neg hk] at hn
          obtain rfl := Option.some.inj hn
          obtain ⟨mid, rest, hs, hmid, hx, hseen⟩ :=
            hreads.view.ahead (link_inj _) (link_ne_head _ _ _) (T.trail b) W.hist hsee
          set s₁ := { s with took := Function.update s.took t (s.took t + 1) }.goto t
            (.readWalk k g b (s.links.next (.link e (s.tab g).idx))) with hs₁
          have hc : Change s s₁ := L.walk
          rw [show s₁.loc t = .readWalk k g b (s.links.next (.link e (s.tab g).idx)) from
            Function.update_self ..]
          refine ⟨hc, rfl, hnow' rfl rfl rfl rfl, _, hreads.step rfl rfl hc hreads.snap,
            pre ++ e :: mid, rest, ?_, hx, fun a ha hka => ?_, fun a ha => .inl (hseen a ha), ?_⟩
          · show s.hist (g, b) = _
            rw [W.hist, hs, List.append_assoc]
            rfl
          · rw [← Bool.not_eq_true, observe_stay]
            rintro ⟨hst, -⟩
            have hst : s.stay t a = true := hst
            obtain ha | ha := List.mem_append.mp ha
            · rw [W.passed a ha hka] at hst
              cases hst
            · obtain rfl | ha := List.mem_cons.mp ha
              · exact hk hka
              · rw [L.passed hnow hreads.snap (hmid a ha)] at hst
                cases hst
          · have htook := W.took
            show Function.update s.took t (s.took t + 1) t + rest.length ≤ s.bound t
            rw [Function.update_self]
            rw [hs, List.length_cons, List.length_append] at htook
            omega
  | readUnlock k x =>
    rw [hl] at hn
    obtain rfl := Option.some.inj hn
    refine ⟨L.walk, ?_⟩
    rw [show ((s.leave t).goto t .idle).loc t = .idle from Function.update_self ..]
    exact ⟨rfl, trivial⟩
  | _ =>
    rw [hl] at hr
    obtain hr | ⟨k, hr⟩ := hr <;> cases hr

end Steps

/-! ### The resizer -/

/-- What a step of the resizer does. -/
structure Resized (s s' : St n E K) : Prop where
  change : Change s s'
  tabs : ∀ t, ∀ g ∈ Updates.tabs (s.loc t), g = s'.cur
  snap : ∀ u g, snapOf (s.loc u) = some g → Snap s.toCore g → Snap s'.toCore g
  table : (∀ g, Used s.toCore g ∨ s.tables ≤ g → s.freedTable g = false) →
    ∀ g, Used s'.toCore g ∨ s'.tables ≤ g → s'.freedTable g = false

/-- The resizer goes on with the same tables. -/
theorem Lists.resized (L : Lists s D) (hc : Change s s') (hp : pair s'.res = pair s.res)
    (hlate : late s'.res = late s.res) (hcur : s'.cur = s.cur) (htables : s'.tables = s.tables)
    (hfreed : s'.freedTable = s.freedTable) : Resized s s' where
  change := hc
  tabs t g hg := by
    rw [hcur]
    exact L.tabs t g hg
  snap u g _ hs := by
    unfold Snap at hs ⊢
    rwa [hcur, hp, hlate]
  table h g hg := by
    rw [hfreed]
    refine h g (hg.imp (fun hg => ?_) fun hg => by rwa [← htables])
    unfold Used at hg ⊢
    rwa [hcur, hp] at hg

/-- The resizer goes on, and touches no list. -/
theorem Lists.resWalk {r : Res E} {lk : ℕ × ℕ → Option (Who n)} {gp : Fin n → Bool} (L : Lists s D)
    (hp : pair r = pair s.res) (hlate : late r = late s.res) :
    Resized s { s with res := r, lock := lk, gp := gp } := by
  refine L.resized ?_ hp hlate rfl rfl rfl
  refine L.same (fun _ _ => ⟨rfl, rfl⟩) (fun _ _ _ => rfl) (fun _ _ => rfl) rfl rfl rfl rfl
    (fun _ _ => rfl) (fun _ _ _ => rfl) (fun g hg => .inl ?_) fun g hg => ?_
  · unfold Used at hg ⊢
    rwa [show pair _ = pair s.res from hp] at hg
  · unfold Snap at hg ⊢
    rwa [show pair _ = pair s.res from hp, show late _ = late s.res from hlate] at hg

/-- The resizer stores to a field of the table that it replaces. -/
theorem Lists.setTab {r : Res E} {T : Table K} (L : Lists s D) (hp : pair r = pair s.res)
    (hlate : late r = late s.res) (hidx : T.idx = (s.tab g).idx)
    (hbucket : ∀ k, T.bucket k = (s.tab g).bucket k) : Resized s ((s.setTab g T).resGoto r) := by
  have htab : ∀ g₁, (((s.setTab g T).resGoto r).tab g₁).idx = (s.tab g₁).idx ∧
      ∀ k, (((s.setTab g T).resGoto r).tab g₁).bucket k = (s.tab g₁).bucket k := by
    intro g₁
    show (Function.update s.tab g T g₁).idx = _ ∧ ∀ k, (Function.update s.tab g T g₁).bucket k = _
    by_cases hg : g₁ = g
    · rw [hg, Function.update_self]
      exact ⟨hidx, hbucket⟩
    · rw [Function.update_of_ne hg]
      exact ⟨rfl, fun _ => rfl⟩
  have hp : pair ((s.setTab g T).resGoto r).res = pair s.res := hp
  have hlate : late ((s.setTab g T).resGoto r).res = late s.res := hlate
  refine L.resized ?_ hp hlate rfl rfl rfl
  refine L.same (fun _ _ => ⟨rfl, rfl⟩) (fun _ _ _ => rfl) (fun _ _ => rfl) rfl rfl rfl rfl
    (fun g _ => (htab g).1) (fun g _ => (htab g).2) (fun g hg => .inl ?_) fun g hg => ?_
  · unfold Used at hg ⊢
    rwa [hp] at hg
  · unfold Snap at hg ⊢
    rwa [hp, hlate] at hg

/-- `rcu_assign_pointer(htp_master->ht_cur, htp_new)`: both tables hold the same. -/
theorem Lists.switch (L : Lists s D) (hr : s.res = .switch g g')
    (hup : ∀ t, (s.loc t).updating = false) : Resized s ({ s with cur := g' }.resGoto (.sync2 g g')) := by
  have hp : pair s.res = some (g, g') := by rw [hr]; rfl
  have hlate : late s.res = false := by rw [hr]; rfl
  have P := L.inv.tables g g' hp
  have hcur : s.cur = g := by
    have := P.cur
    rwa [hlate] at this
  have hd := L.inv.done
  rw [hr] at hd
  have hno : ∀ t, adding (s.loc t) = none ∧ deleting (s.loc t) = none := by
    intro t
    have := hup t
    cases hl : s.loc t <;> rw [hl] at this <;> first | exact ⟨rfl, rfl⟩ | cases this
  have hmem : ∀ e, Mem s.toHeap g' e ↔ s.abs e = true := by
    intro e
    rw [L.inv.new g g' hp hlate, L.abs]
    constructor
    · rintro (⟨hm, -⟩ | ⟨u, hd⟩)
      · exact hm
      · rw [(hno u).2] at hd
        cases hd
    · intro hm
      have hb : s.bucket s.cur (s.key e) < (s.tab s.cur).nbuckets := Nat.mod_lt _ L.inv.pos
      have hrc := hd.2
      rw [← hcur] at hrc
      refine .inl ⟨hm, .inl (by omega), fun u => ?_⟩
      rw [(hno u).1]
      nofun
  have hsnap : ∀ g₁, Snap s.toCore g₁ → g₁ = g := fun g₁ hs => (hs.cur hlate).trans hcur
  have hlater : ∀ g₁, Used s.toCore g₁ → Later s.toHeap { s.toHeap with cur := g' } g₁ := fun g₁ hg =>
    (L.trails g₁ hg).congr rfl (fun _ => rfl) rfl (fun _ => rfl) rfl (fun _ => ⟨rfl, rfl⟩)
      (fun _ _ _ => ⟨rfl, rfl⟩) fun _ => rfl
  have hused : ∀ g₁, Used ({ s with cur := g' }.resGoto (.sync2 g g')).toCore g₁ → Used s.toCore g₁ := by
    rintro g₁ (rfl | ⟨g₂, g₃, hp', hg⟩)
    · exact .inr ⟨g, _, hp, .inr rfl⟩
    · obtain ⟨rfl, rfl⟩ := Prod.mk.inj (Option.some.inj hp')
      exact .inr ⟨g, g', hp, hg⟩
  exact
    { change :=
        { key := rfl, abs := fun e => (hmem e).symm
          gone := fun g₁ hg e ho => by
            obtain rfl | ⟨-, hp'⟩ := hg
            · show s.abs e = false
              rw [← Bool.not_eq_true, ← hmem]
              exact fun hm => Bool.false_ne_true (hm.out.symm.trans ho)
            · obtain ⟨rfl, -⟩ := Prod.mk.inj (Option.some.inj hp')
              exact L.gone g (.inl hcur.symm) e ho
          trails := fun g₁ hg => (hlater g₁ (hused g₁ hg)).trails
          later := fun g₁ hg => hlater g₁ (Used.snap hg)
          live := fun _ _ _ _ he ho => .inl ⟨he, ho⟩ }
      tabs := fun t g₁ hg => by
        rw [tabs_updating (hup t)] at hg
        cases hg
      snap := fun _ g₁ _ hs => .inr ⟨rfl, by rw [hsnap g₁ hs]; rfl⟩
      table := fun h g₁ hg => h g₁ (hg.imp_left (hused g₁)) }

/-- `free(htp)`: no lookup has the old table any more. -/
theorem Lists.free (L : Lists s D) (hr : s.res = .free g g') :
    Resized s ({ s with
      freedTable := Function.update s.freedTable g true
      resRet := some 0 }.resGoto .idle) := by
  have hp : pair s.res = some (g, g') := by rw [hr]; rfl
  have P := L.inv.tables g g' hp
  have hcur : s.cur = g' := L.inv.late_cur hp (by rw [hr]; rfl)
  have hg := L.inv.grace
  unfold Grace at hg
  rw [hr] at hg
  refine ⟨L.same (fun _ _ => ⟨rfl, rfl⟩) (fun _ _ _ => rfl) (fun _ _ => rfl) rfl rfl rfl rfl
    (fun _ _ => rfl) (fun _ _ _ => rfl) (fun g₁ hg₁ => .inl ?_) fun g₁ hg₁ => ?_, L.tabs,
    fun u g₁ hu hs => .inl (hs.resolve_right fun ⟨_, hp'⟩ => ?_), fun h g₁ hg₁ => ?_⟩
  · obtain rfl | ⟨_, _, hp', -⟩ := hg₁
    · exact .inl rfl
    · cases hp'
  · obtain rfl | ⟨hlate, -⟩ := hg₁
    · exact .inl rfl
    · cases hlate
  · rw [hp] at hp'
    obtain ⟨rfl, -⟩ := Prod.mk.inj (Option.some.inj hp')
    exact hg u hu
  · have hne : g₁ ≠ g := by
      obtain (rfl | ⟨_, _, hp', -⟩) | hle := hg₁
      · show s.cur ≠ g
        rw [hcur]
        exact P.ne
      · cases hp'
      · have hle : s.tables ≤ g₁ := hle
        have := P.lt.1
        omega
    show Function.update s.freedTable g true g₁ = false
    rw [Function.update_of_ne hne]
    refine h g₁ (hg₁.imp_left ?_)
    rintro (rfl | ⟨_, _, hp', -⟩)
    · exact .inl rfl
    · cases hp'

/-- `ht_alloc`: the new table is empty. -/
theorem Lists.alloc {nbuckets : ℕ} {gethash : Option (K → ℕ)} (L : Lists s D) (hr : s.res = .idle) :
    Resized s ((Hash.alloc nbuckets gethash s).resGoto (.publish s.cur s.tables)) := by
  have hused : ∀ {g}, Used s.toCore g → g = s.cur := by
    rintro g (hg | ⟨g₁, g₂, hp, -⟩)
    · exact hg
    · rw [hr] at hp
      cases hp
  have hne : s.cur ≠ s.tables := Nat.ne_of_lt L.inv.lt
  have hused' : ∀ g, Used ((Hash.alloc nbuckets gethash s).resGoto (.publish s.cur s.tables)).toCore g →
      g = s.cur ∨ g = s.tables := by
    rintro g (rfl | ⟨g₁, g₂, hp, hg⟩)
    · exact .inl rfl
    · obtain ⟨rfl, rfl⟩ := Prod.mk.inj (Option.some.inj hp)
      exact hg
  have hlate : ∀ {g}, Snap ((Hash.alloc nbuckets gethash s).resGoto (.publish s.cur s.tables)).toCore g →
      g = s.cur := fun hs => hs.cur rfl
  refine ⟨L.same (fun c hc => ?_) (fun g hg b => ?_) (fun g hg => ?_) rfl rfl rfl rfl (fun g hg => ?_)
    (fun g hg k => ?_) (fun g hg => ?_) fun g hg => .inl (hlate hg), L.tabs,
    fun u g _ hs => .inl (hused (Used.snap hs)), fun h g hg => ?_⟩
  · cases c with
    | head g b =>
      have hg : g ≠ s.tables := fun hg => hc b (by rw [hg])
      exact ⟨if_neg hg, if_neg hg⟩
    | link e i => exact ⟨rfl, rfl⟩
  · rw [hused hg]
    exact if_neg hne
  · rw [hused hg]
    exact Function.update_of_ne hne _ _
  · rw [hused hg]
    exact congrArg Table.idx (Function.update_of_ne hne _ _)
  · rw [hused hg]
    exact congrArg (Table.bucket · k) (Function.update_of_ne hne _ _)
  · obtain rfl | rfl := hused' g hg
    · exact .inl (.inl rfl)
    · have hnil : ∀ b, ((Hash.alloc nbuckets gethash s).resGoto (.publish s.cur s.tables)).hist
          (s.tables, b) = [] := fun b => if_pos rfl
      refine .inr ⟨fun b => ?_, fun b e he => ?_, fun b e he => ?_⟩
      · rw [hnil]
        exact Trail.nil (if_pos rfl) (if_pos rfl)
      · rw [hnil] at he
        cases he
      · rw [hnil] at he
        cases he
  · refine h g ?_
    obtain hg | hg := hg
    · obtain rfl | rfl := hused' g hg
      · exact .inl (.inl rfl)
      · exact .inr le_rfl
    · exact .inr (Nat.le_of_succ_le hg)

section Resizer

variable [DecidableEq E]

/-- The resizer links an element into the new table. -/
theorem Lists.moveElem {i b' : ℕ} (L : Lists s D) (hr : s.res = .link g g' i e b') :
    Resized s ((s.link e (!(s.tab g).idx) (g', b')).resGoto (.newUnlock g g' i e b')) := by
  have hp : pair s.res = some (g, g') := by rw [hr]; rfl
  have hlate : late s.res = false := by rw [hr]; rfl
  have P := L.inv.tables g g' hp
  obtain ⟨-, hm, ho, hb, -⟩ := L.inv.unmoved hr
  have hne : g' ≠ s.cur := by
    have := P.cur
    rw [hlate] at this
    rw [show s.cur = g from this]
    exact P.ne
  refine L.resized ?_ (by rw [hr]; rfl) (by rw [hr]; rfl) rfl rfl rfl
  refine L.link (x := (g', b')) rfl rfl rfl rfl rfl rfl (fun a => ?_) rfl (fun g hg => ?_)
    (fun g hg => ?_) (.inr ⟨g, g', hp, .inr rfl⟩) P.idx.symm hb hm ho (fun h => absurd h hne) fun _ => hlate
  · exact (or_iff_left fun h => hne h.1).symm
  · unfold Used at hg ⊢
    rw [hp]
    exact hg
  · exact .inl (hg.cur rfl)

/-- **A step of the resizer.** -/
theorem Lists.resStep (L : Lists s D)
    (hok : s.res.switching = true → ∀ t, (s.loc t).updating = false) (hn : stepResizer s = some s') : Resized s s' := by
  unfold stepResizer at hn
  cases hr : s.res with
  | idle =>
    rw [hr] at hn
    cases hn
  | publish g g' =>
    rw [hr] at hn
    obtain rfl := Option.some.inj hn
    exact L.setTab (by rw [hr]; rfl) (by rw [hr]; rfl) rfl fun _ => rfl
  | setCur g g' i =>
    rw [hr] at hn
    obtain rfl := Option.some.inj hn
    exact L.setTab (by rw [hr]; rfl) (by rw [hr]; rfl) rfl fun _ => rfl
  | link g g' i e b' =>
    rw [hr] at hn
    obtain rfl := Option.some.inj hn
    exact L.moveElem hr
  | switch g g' =>
    rw [hr] at hn
    obtain rfl := Option.some.inj hn
    exact L.switch hr (hok (by rw [hr]; rfl))
  | free g g' =>
    rw [hr] at hn
    obtain rfl := Option.some.inj hn
    exact L.free hr
  | _ =>
    rw [hr] at hn
    dsimp only at hn
    repeat' split at hn
    all_goals
      cases hn
      try exact L.resWalk (by rw [hr]; rfl) (by rw [hr]; rfl)

theorem stepResizer_kept (hn : stepResizer s = some s') : s'.loc = s.loc ∧ (∀ u, Kept s s' u) ∧
    s'.dead = s.dead ∧ s'.wait = s.wait ∧ s'.freed = s.freed := by
  unfold stepResizer at hn
  repeat' split at hn
  all_goals
    cases hn
    try exact ⟨rfl, fun _ => ⟨rfl, rfl, rfl, rfl, rfl⟩, rfl, rfl, rfl⟩

end Resizer

end Updates
end Hash
end Perfbook
