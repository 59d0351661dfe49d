/-
# What holds of lookups during a resize

A lookup reads a bucket of `ht_cur`, or of the table that was `ht_cur` when it
started. It comes past elements that were in the table at some time since it
began (`Reads.was`), so none of them has been freed (`Now.wait`), and past every
element that has been in the table all the time (`Reads.stay`).

Update sections are not cut by a switch (`Uncut`): the table that one works on
is `ht_cur` (`Lists.tabs`), so `abs` tells what `ht_cur` holds.

Key definitions: `Uncut`, `Lists`, `Now`, `Reads`, `ReadAt`, `Change`, `Kept`.
Key theorems: `Lists.same`, `Lists.link`, `Lists.unlink`, `Reads.step`, `ReadAt.step`.
-/
import Perfbook.Hash.Deletes
import Perfbook.Hash.Trails

namespace Perfbook
namespace Hash

open Conc

variable {n : ℕ} {E K : Type}

/-- In an update section. -/
def Loc.updating : Loc E K → Bool
  | .modCur _ | .modBucket _ _ _ | .modProgress _ _ _ | .modNew _ _ _ | .modNewBucket _ _ _ _ _
  | .lookCur _ _ | .lookHead _ _ _ _ | .lookWalk _ _ _ _ _ | .del _ _ _ | .delNew _ _ _ | .add _ _
  | .addNew _ _ _ | .unlockOld _ | .unlockNew _ | .modUnlock => true
  | _ => false

/-- In a lookup, after `rcu_read_lock`. -/
def Loc.reading : Loc E K → Bool
  | .readCur _ | .readHead _ _ _ | .readWalk _ _ _ _ | .readUnlock _ _ => true
  | _ => false

/-- Before the store to `ht_cur`. -/
def Res.switching : Res E → Bool
  | .switch _ _ => true
  | _ => false

/-- No update section runs when `ht_cur` is switched. -/
def Uncut (a : Act n E K) (s : St n E K) : Prop :=
  match a with
  | .resizer => s.res.switching = true → ∀ t, (s.loc t).updating = false
  | _ => True

namespace Updates

/-- The tables that an update section works on. -/
def tabs : Loc E K → List ℕ
  | .modBucket _ g _ | .modProgress _ g _ | .modNew _ g _ | .modNewBucket _ g _ _ _ => [g]
  | .lookCur _ ls | .del _ ls _ | .delNew _ ls _ | .add _ ls | .addNew _ ls _ => [ls.hbp0.1]
  | .lookHead _ ls g _ | .lookWalk _ ls g _ _ => [ls.hbp0.1, g]
  | _ => []

theorem tabs_updating {l : Loc E K} (h : l.updating = false) : tabs l = [] := by
  cases l <;> first | rfl | cases h

/-- What holds of the tables. -/
structure Lists (s : St n E K) (D : List E) : Prop where
  inv : Inv s.toCore D
  tabs : ∀ t, ∀ g ∈ tabs (s.loc t), g = s.cur
  abs : ∀ e, s.abs e = true ↔ Mem s.toHeap s.cur e
  gone : ∀ g, Snap s.toCore g → ∀ e, s.out g e = true → s.abs e = false
  trails : ∀ g, Used s.toCore g → Trails s.toHeap g

/-- What a lookup knows from its `rcu_read_lock` on. -/
structure Now (s : St n E K) (t : Fin n) : Prop where
  was : ∀ e, s.abs e = true → s.was t e = true
  stay : ∀ e, s.stay t e = true → s.abs e = true
  wait : ∀ e, s.was t e = true → s.dead e = true → s.wait e t = true

/-- Thread `t` looks for `k` in bucket `b` of table `g`, where it may see `seen`. -/
structure Reads (s : St n E K) (t : Fin n) (k : K) (g b : ℕ) (seen : E → Prop) : Prop where
  snap : Snap s.toCore g
  bucket : b = s.bucket g k
  view : View (Cell.link · (s.tab g).idx) (.head g b) s.links (s.hist (g, b)) (fun e => !s.out g e) seen
  was : ∀ e, seen e → s.was t e = true
  stay : ∀ e, s.stay t e = true → s.key e = k → e ∈ s.hist (g, b)

/-- What `hashtab_lookup` has returned. -/
def Answer (s : St n E K) (t : Fin n) (k : K) : Option E → Prop
  | some e => s.key e = k ∧ s.was t e = true
  | none => ∀ e, s.key e = k → s.stay t e = false

/-- The elements that a lookup has passed, and those that it may still find. -/
structure Walk (s : St n E K) (t : Fin n) (k : K) (g b : ℕ) (seen : E → Prop) (c : Cell E)
    (pre post : List E) : Prop where
  hist : s.hist (g, b) = pre ++ post
  cell : c = first (Cell.link · (s.tab g).idx) (.head g b) post
  passed : ∀ a ∈ pre, s.key a = k → s.stay t a = false
  seen : ∀ a ∈ post.head?, seen a
  took : s.took t + post.length ≤ s.bound t

/-- What holds of a lookup at each place. -/
def ReadAt (s : St n E K) (t : Fin n) : Loc E K → Prop
  | .readCur _ => Now s t
  | .readHead k g b => Now s t ∧ ∃ seen, Reads s t k g b seen
  | .readWalk k g b c => Now s t ∧ ∃ seen, Reads s t k g b seen ∧
      ∃ pre post, Walk s t k g b seen c pre post
  | .readUnlock k x => Now s t ∧ Answer s t k x
  | _ => True

/-- The invariant of the lookups. -/
structure Readers (s : St n E K) : Prop where
  table : ∀ g, Used s.toCore g ∨ s.tables ≤ g → s.freedTable g = false
  freed : ∀ e, s.freed e = true → s.dead e = true ∧ ∀ t, s.wait e t = false
  loc : ∀ t, ReadAt s t (s.loc t)

variable {s s' : St n E K} {D : List E} {t u : Fin n} {l : Loc E K} {k : K} {g g' b : ℕ} {e : E}
variable {i : Bool} {x : ℕ × ℕ} {seen : E → Prop} {c : Cell E}

/-- What a step does to the tables. -/
structure Change (s s' : St n E K) : Prop where
  key : s'.key = s.key
  abs : ∀ e, s'.abs e = true ↔ Mem s'.toHeap s'.cur e
  gone : ∀ g, Snap s'.toCore g → ∀ e, s'.out g e = true → s'.abs e = false
  trails : ∀ g, Used s'.toCore g → Trails s'.toHeap g
  later : ∀ g, Snap s.toCore g → Later s.toHeap s'.toHeap g
  live : ∀ g, Snap s.toCore g → ∀ b, ∀ e ∈ s'.hist (g, b), s'.out g e = false →
    e ∈ s.hist (g, b) ∧ s.out g e = false ∨ s'.abs e = true

/-- What a step leaves of thread `u`. -/
structure Kept (s s' : St n E K) (u : Fin n) : Prop where
  loc : s'.loc u = s.loc u
  was : s'.was u = s.was u
  stay : s'.stay u = s.stay u
  took : s'.took u = s.took u
  bound : s'.bound u = s.bound u

/-- An element that is dead after the step was dead before, or its grace period starts. -/
def Waits (s s' : St n E K) (u : Fin n) : Prop :=
  ∀ e, s'.dead e = true → s.dead e = true ∧ s'.wait e u = s.wait e u ∨
    ((s.loc u).inSection = true → s'.wait e u = true)

/-- Until the switch the table of a lookup is `ht_cur`. -/
theorem Snap.cur {c : Core n E K} (hs : Snap c g) (hlate : late c.res = false) : g = c.cur :=
  hs.resolve_right fun h => by
    rw [hlate] at h
    exact Bool.false_ne_true h.1

theorem Used.lt {c : Core n E K} (I : Inv c D) (hg : Used c g) : g < c.tables := by
  obtain rfl | ⟨g₁, g₂, hp, rfl | rfl⟩ := hg
  · exact I.lt
  · exact (I.tables _ _ hp).lt.1
  · exact (I.tables _ _ hp).lt.2

/-- A step that touches no list of the tables in use. -/
theorem Lists.same (L : Lists s D)
    (hlinks : ∀ c, (∀ b, c ≠ .head s.tables b) →
      s'.links.next c = s.links.next c ∧ s'.links.prev c = s.links.prev c)
    (hhist : ∀ g, Used s.toCore g → ∀ b, s'.hist (g, b) = s.hist (g, b))
    (hout : ∀ g, Used s.toCore g → s'.out g = s.out g) (hhome : s'.home = s.home)
    (hkey : s'.key = s.key) (habs : s'.abs = s.abs) (hcur : s'.cur = s.cur)
    (hidx : ∀ g, Used s.toCore g → (s'.tab g).idx = (s.tab g).idx)
    (hbucket : ∀ g, Used s.toCore g → ∀ k, s'.bucket g k = s.bucket g k)
    (hused : ∀ g, Used s'.toCore g → Used s.toCore g ∨ Trails s'.toHeap g)
    (hsnap : ∀ g, Snap s'.toCore g → Snap s.toCore g) : Change s s' := by
  have hlater : ∀ g, Used s.toCore g → Later s.toHeap s'.toHeap g := fun g hg =>
    (L.trails g hg).congr (hidx g hg) (hbucket g hg) hkey (hhist g hg) (hout g hg)
      (fun b => hlinks _ fun b' he => (Used.lt L.inv hg).ne (Cell.head.inj he).1)
      (fun b e _ => hlinks _ (by simp)) fun e => by rw [hhome]
  refine ⟨hkey, fun e => ?_, fun g hg e ho => ?_,
    fun g hg => (hused g hg).elim (fun hg => (hlater g hg).trails) id,
    fun g hg => hlater g (Used.snap hg), fun g hg b e he ho => .inl ?_⟩
  · rw [habs, L.abs, hcur]
    unfold Mem live
    rw [hkey, hbucket _ (.inl rfl), hhist _ (.inl rfl), hout _ (.inl rfl)]
  · rw [hout g (Used.snap (hsnap g hg))] at ho
    rw [habs]
    exact L.gone g (hsnap g hg) e ho
  · rw [hhist g (Used.snap hg)] at he
    rw [hout g (Used.snap hg)] at ho
    exact ⟨he, ho⟩

section Elements

variable [DecidableEq E]

/-- A step that links an element. -/
theorem Lists.link (L : Lists s D) (hlinks : s'.links = s.links.add (.link e i) (.head x.1 x.2))
    (hhist : s'.hist = Function.update s.hist x (e :: s.hist x)) (hout : s'.out = s.out)
    (htab : s'.tab = s.tab) (hkey : s'.key = s.key)
    (hhome : s'.home = Function.update s.home e (Function.update (s.home e) i x.1))
    (habs : ∀ a, s'.abs a = true ↔ s.abs a = true ∨ x.1 = s.cur ∧ a = e) (hcur : s'.cur = s.cur)
    (hused : ∀ g, Used s'.toCore g → Used s.toCore g)
    (hsnap : ∀ g, Snap s'.toCore g → Snap s.toCore g) (hu : Used s.toCore x.1)
    (hi : i = (s.tab x.1).idx) (hx : x.2 = s.bucket x.1 (s.key e)) (he : ¬ Mem s.toHeap x.1 e)
    (ho : s.out x.1 e = false) (hfresh : x.1 = s.cur → e ∉ s.pool)
    (hlate : x.1 ≠ s.cur → late s.res = false) : Change s s' := by
  obtain ⟨htabs, -⟩ := L.inv.linked s'.toHeap hlinks hhist hout htab hkey hu hi hx he ho
  have hnot : ∀ b, e ∉ s.hist (x.1, b) := fun b hm =>
    he ((L.inv.listed x.1 hu).bucket (List.mem_filter.mpr ⟨hm, by rw [ho]; rfl⟩)).2
  have hlater : ∀ g, Used s.toCore g → Later s.toHeap s'.toHeap g := by
    intro g hg
    by_cases hgx : x.1 = g
    · subst hgx
      exact (L.trails x.1 hu).link hlinks hhist hout htab hkey hhome hi hx hnot ho
    · refine (L.trails g hg).link_other hlinks hhist hout htab hkey hhome ?_ hgx (L.trails x.1 hu) hi
      rw [hi]
      exact L.inv.idx_ne hu hg hgx
  refine ⟨hkey, fun a => ?_, fun g hg a hoa => ?_, fun g hg => (hlater g (hused g hg)).trails,
    fun g hg => hlater g (Used.snap hg), fun g hg b a ha hoa => ?_⟩
  · rw [habs, L.abs, hcur, (htabs s.cur (.inl rfl)).2, eq_comm (a := s.cur)]
  · rw [hout] at hoa
    have hg := hsnap g hg
    rw [← Bool.not_eq_true, habs]
    rintro (ha | ⟨hxc, rfl⟩)
    · rw [L.gone g hg a hoa] at ha
      cases ha
    · exact hfresh hxc (L.inv.pool g (Used.snap hg) a (.inr hoa))
  · rw [hout] at hoa
    by_cases hgx : (g, b) = x
    · subst hgx
      rw [hhist, Function.update_self] at ha
      obtain rfl | ha := List.mem_cons.mp ha
      · refine .inr ((habs a).mpr (.inr ⟨?_, rfl⟩))
        by_contra hne
        exact hne (hg.cur (hlate hne))
      · exact .inl ⟨ha, hoa⟩
    · rw [hhist, Function.update_of_ne hgx] at ha
      exact .inl ⟨ha, hoa⟩

/-- A step that unlinks an element. -/
theorem Lists.unlink (L : Lists s D) (hlinks : s'.links = s.links.del (.link e i))
    (hhist : s'.hist = s.hist)
    (hout : s'.out = Function.update s.out g (Function.update (s.out g) e true))
    (htab : s'.tab = s.tab) (hkey : s'.key = s.key) (hhome : s'.home = s.home)
    (habs : ∀ a, s'.abs a = true ↔ s.abs a = true ∧ ¬ (s.cur = g ∧ a = e)) (hcur : s'.cur = s.cur)
    (hused : ∀ g, Used s'.toCore g → Used s.toCore g)
    (hsnap : ∀ g, Snap s'.toCore g → Snap s.toCore g) (hu : Used s.toCore g)
    (hi : i = (s.tab g).idx) (he : Mem s.toHeap g e) (hlate : g ≠ s.cur → late s.res = false) :
    Change s s' := by
  obtain ⟨htabs, -⟩ := L.inv.unlinked s'.toHeap hlinks hhist hout htab hkey hu hi he
  have hlater : ∀ g', Used s.toCore g' → Later s.toHeap s'.toHeap g' := by
    intro g' hg
    by_cases hgg : g = g'
    · subst hgg
      exact (L.trails g hu).unlink hlinks hhist hout htab hkey hhome hi he
    · refine (L.trails g' hg).unlink_other hlinks hhist hout htab hkey hhome ?_ hgg (L.trails g hu) hi he
      rw [hi]
      exact L.inv.idx_ne hu hg hgg
  have hold : ∀ g' a, s'.out g' a = true → s.out g' a = true ∨ g' = g ∧ a = e := by
    intro g' a ha
    rw [hout] at ha
    by_cases hg : g' = g
    · rw [hg, Function.update_self] at ha
      by_cases hae : a = e
      · exact .inr ⟨hg, hae⟩
      · rw [Function.update_of_ne hae] at ha
        exact .inl (hg ▸ ha)
    · rw [Function.update_of_ne hg] at ha
      exact .inl ha
  refine ⟨hkey, fun a => ?_, fun g' hg a hoa => ?_, fun g' hg => (hlater g' (hused g' hg)).trails,
    fun g' hg => hlater g' (Used.snap hg), fun g' hg b a ha hoa => .inl ⟨hhist ▸ ha, ?_⟩⟩
  · rw [habs, L.abs, hcur, (htabs s.cur (.inl rfl)).2]
  · have hg := hsnap g' hg
    rw [← Bool.not_eq_true, habs]
    rintro ⟨ha, hne⟩
    obtain hoa | ⟨rfl, rfl⟩ := hold g' a hoa
    · rw [L.gone g' hg a hoa] at ha
      cases ha
    · refine hne ⟨?_, rfl⟩
      by_contra hc
      exact hc (hg.cur (hlate (Ne.symm hc))).symm
  · rw [← Bool.not_eq_true]
    intro ht
    have : s'.out g' a = true := by
      rw [hout]
      by_cases hg : g' = g
      · rw [hg, Function.update_self]
        by_cases hae : a = e
        · rw [hae, Function.update_self]
        · rw [Function.update_of_ne hae, ← hg]
          exact ht
      · rw [Function.update_of_ne hg]
        exact ht
    rw [hoa] at this
    cases this

end Elements

/-! ### What a step of another leaves of a lookup -/

section Observe

/-- What a lookup has seen once the step is through. -/
theorem observe_was : s'.observe.was u e = true ↔ s'.was u e = true ∨ s'.abs e = true := by
  simp [St.observe]

theorem observe_stay : s'.observe.stay u e = true ↔ s'.stay u e = true ∧ s'.abs e = true := by
  simp [St.observe]

theorem Now.step (h : Now s u) (hwas : s'.was u = s.was u) (hw : Waits s s' u)
    (hin : (s.loc u).inSection = true) (hdead : ∀ e, s'.dead e = true → s'.abs e = false) :
    Now s'.observe u where
  was e he := observe_was.mpr (.inr he)
  stay e he := (observe_stay.mp he).2
  wait e he hd := by
    obtain he | ha := observe_was.mp he
    · obtain ⟨hds, hwe⟩ | hwe := hw e hd
      · show s'.wait e u = true
        rw [hwe]
        exact h.wait e (hwas ▸ he) hds
      · exact hwe hin
    · rw [show s'.abs e = false from hdead e hd] at ha
      cases ha

/-- The elements that a lookup may see after a step. -/
def sees (s' : St n E K) (g b : ℕ) (seen : E → Prop) (e : E) : Prop :=
  seen e ∨ e ∈ s'.hist (g, b) ∧ (!s'.out g e) = true

/-- **A step leaves the way of a lookup.** -/
theorem Reads.step (h : Reads s u k g b seen) (hwas : s'.was u = s.was u)
    (hstay : s'.stay u = s.stay u) (hc : Change s s') (hsnap : Snap s'.toCore g) :
    Reads s'.observe u k g b (sees s' g b seen) := by
  have L := hc.later g h.snap
  exact
    { snap := hsnap
      bucket := by rw [h.bucket]; exact (L.bucket k).symm
      view := by
        have hv := h.view
        rw [← L.idx] at hv
        refine hv.step (L.trails.trail b) fun e he (ho : (!s'.out g e) = false) => ?_
        have hg := L.gone b e he (by simpa using ho)
        rw [← L.idx] at hg
        exact hg
      was := by
        rintro e (hs | ⟨he, ho⟩)
        · exact observe_was.mpr (.inl (by rw [hwas]; exact h.was e hs))
        · obtain ⟨he, ho⟩ | ha := hc.live g h.snap b e he (by simpa using ho)
          · exact observe_was.mpr (.inl (by rw [hwas]; exact h.was e (h.view.live e he (by rw [ho]; rfl))))
          · exact observe_was.mpr (.inr ha)
      stay := fun e he hke => by
        obtain ⟨he, -⟩ := observe_stay.mp he
        obtain ⟨l, hl⟩ := L.hist b
        show e ∈ s'.hist (g, b)
        rw [hl]
        refine List.mem_append_right _ (h.stay e (hstay ▸ he) ?_)
        rw [← L.key]
        exact hke }

theorem Walk.step {pre post : List E} (h : Walk s u k g b seen c pre post)
    (hr : Reads s u k g b seen) (hk : Kept s s' u) (hc : Change s s') :
    ∃ pre', Walk s'.observe u k g b (sees s' g b seen) c pre' post := by
  have L := hc.later g hr.snap
  obtain ⟨l, hl⟩ := L.hist b
  have hnd := (L.trails.trail b).nodup
  rw [hl] at hnd
  refine ⟨l ++ pre, by show s'.hist (g, b) = _; rw [hl, h.hist, List.append_assoc], ?_,
    fun a ha hka => ?_, fun a ha => .inl (h.seen a ha), ?_⟩
  · show c = first (Cell.link · (s'.tab g).idx) _ _
    rw [L.idx]
    exact h.cell
  · rw [← Bool.not_eq_true, observe_stay, hk.stay]
    rintro ⟨hs, -⟩
    have hka : s.key a = k := by
      rw [← L.key]
      exact hka
    obtain ha | ha := List.mem_append.mp ha
    · exact (List.nodup_append.mp hnd).2.2 a ha a (hr.stay a hs hka) rfl
    · rw [h.passed a ha hka] at hs
      cases hs
  · show s'.took u + post.length ≤ s'.bound u
    rw [hk.took, hk.bound]
    exact h.took

theorem Answer.step {x : Option E} (h : Answer s u k x) (hk : Kept s s' u) (hkey : s'.key = s.key) :
    Answer s'.observe u k x := by
  cases x with
  | some e => exact ⟨by rw [← h.1, ← hkey]; rfl, observe_was.mpr (.inl (by rw [hk.was]; exact h.2))⟩
  | none =>
    intro e he
    rw [← Bool.not_eq_true, observe_stay, hk.stay]
    rintro ⟨hs, -⟩
    rw [h e (by rw [← he, ← hkey]; rfl)] at hs
    cases hs

/-- **A step of another thread, or of the resizer.** -/
theorem ReadAt.step (hl : s.loc u = l) (h : ReadAt s u l) (hk : Kept s s' u) (hw : Waits s s' u)
    (hc : Change s s') (hdead : ∀ e, s'.dead e = true → s'.abs e = false)
    (hsnap : ∀ g, snapOf l = some g → Snap s.toCore g → Snap s'.toCore g) :
    ReadAt s'.observe u l := by
  have hnow : l.reading = true → Now s u → Now s'.observe u := fun hr hn => by
    refine hn.step hk.was hw ?_ hdead
    rw [hl]
    cases l <;> first | rfl | cases hr
  cases l with
  | readCur k => exact hnow rfl h
  | readHead k g b =>
    obtain ⟨hn, seen, hr⟩ := h
    exact ⟨hnow rfl hn, _, hr.step hk.was hk.stay hc (hsnap g rfl hr.snap)⟩
  | readWalk k g b c =>
    obtain ⟨hn, seen, hr, pre, post, hwalk⟩ := h
    obtain ⟨pre', hwalk'⟩ := hwalk.step hr hk hc
    exact ⟨hnow rfl hn, _, hr.step hk.was hk.stay hc (hsnap g rfl hr.snap), pre', post, hwalk'⟩
  | readUnlock k x =>
    obtain ⟨hn, ha⟩ := h
    exact ⟨hnow rfl hn, ha.step hk hc.key⟩
  | _ => trivial

end Observe

end Updates
end Hash
end Perfbook
