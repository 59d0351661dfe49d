/-
# The steps of the resizer between those of update sections

The resizer moves a bucket while it has its lock, so no section works on the
elements of that bucket (`Inv.moveElem`). When it switches, every section that
has locked a bucket of the old table knows that the bucket was moved
(`Inv.switch`), and when it frees the old table none has it any more
(`Inv.freed`).

Key theorems: `Inv.resWalk`, `Inv.setTab`, `Inv.switch`, `Inv.freed`,
`Inv.unmoved`, `Inv.moveElem`, `inv_stepResizer`.
-/
import Perfbook.Hash.UpdateSteps

namespace Perfbook
namespace Hash
namespace Updates

open Conc

variable {n : ℕ} {E K : Type}
variable {h h' : Heap E K} {g g' : ℕ} {M : E → Prop} {e a : E} {i : Bool} {x y : ℕ × ℕ}
variable {c c' : Core n E K} {D D' : List E} {t u : Fin n} {l : Loc E K} {op : Op K} {ls : LockState}

/-! ### The steps of the resizer -/

/-- The resizer goes on, and touches neither tables nor elements. -/
theorem Inv.resWalk {r : Res E} {lk : ℕ × ℕ → Option (Who n)} {gp : Fin n → Bool} (I : Inv c D)
    (hp : pair r = pair c.res) (hlate : late r = late c.res) (hpub : r.published = c.res.published)
    (hdone : Done c.toHeap D r) (hlock : ∀ x, r.bucketLock = some x → lk x = some .resizer)
    (hnewLock : ∀ x, newLock r = some x → lk x = some .resizer)
    (hthreads : ∀ x u, c.lock x = some (.thread u) → lk x = some (.thread u))
    (hgrace : Grace { c with res := r, lock := lk, gp := gp }) :
    Inv { c with res := r, lock := lk, gp := gp } D := by
  have hused : ∀ {g}, Used { c with res := r, lock := lk, gp := gp } g ↔ Used c g := by
    intro g
    unfold Used
    rw [hp]
  exact
    { pos := I.pos, lt := I.lt, listed := fun g hg => I.listed g (hused.mp hg)
      pool := fun g hg => I.pool g (hused.mp hg), rest := by rw [hp]; exact I.rest
      tables := fun g g' hp' =>
        let P := I.tables g g' (hp ▸ hp')
        ⟨by rw [hlate]; exact P.cur, P.ne, P.lt, P.pos, P.idx, P.none, P.resizeCur,
          by rw [hpub]; exact P.new, by rw [hlate]; exact P.full⟩
      new := by rw [hp, hlate]; exact I.new
      outNew := by rw [hp, hlate]; exact I.outNew
      outOld := by rw [hp, hlate]; exact I.outOld
      done := hdone, lock := hlock, lockNew := hnewLock
      dead := by rw [hp, hlate]; exact I.dead
      grace := hgrace
      loc := fun u => At.frame I
        { key := rfl, bucket := fun _ _ _ => rfl, idx := fun _ _ => rfl
          snap := fun g _ hs => by unfold Snap; rw [hp, hlate]; exact hs
          alone := fun _ _ h => ⟨rfl, h⟩, resizeCur := fun _ _ => le_rfl, new := fun _ _ _ => id
          lock := fun x hx => hthreads x u hx
          live := fun _ _ _ => rfl, out := fun _ _ _ _ => rfl, dead := fun _ _ => rfl
          pool := fun _ => id } rfl (I.loc u) }

/-- The resizer stores to a field of the table that it replaces. -/
theorem Inv.setTab {T : Table K} {r : Res E} (I : Inv c D) (hp : pair c.res = some (g, g'))
    (hlate : late c.res = false) (hpr : pair r = some (g, g')) (hlr : late r = false)
    (hidx : T.idx = (c.tab g).idx) (hn : T.nbuckets = (c.tab g).nbuckets)
    (hbucket : ∀ k, T.bucket k = (c.tab g).bucket k)
    (hnew : T.new = if r.published then some g' else none)
    (hkeep : ∀ x, (c.tab g).new = some x → T.new = some x)
    (hrc : (c.tab g).resizeCur ≤ T.resizeCur)
    (halone : ∀ k u, c.lock (g, c.bucket g k) = some (.thread u) →
      (c.tab g).resizeCur < (c.bucket g k : ℤ) → T.resizeCur < (c.bucket g k : ℤ))
    (hdone : Done { c.toHeap with tab := Function.update c.tab g T } D' r)
    (hlock : ∀ x, r.bucketLock = some x → c.lock x = some .resizer)
    (hnewLock : newLock r = none)
    (hmoved : ∀ e, Mem c.toHeap g e → (((c.bucket g (c.key e) : ℤ) ≤ T.resizeCur ∨ e ∈ D') ↔
      ((c.bucket g (c.key e) : ℤ) ≤ (c.tab g).resizeCur ∨ e ∈ D))) :
    Inv { c with tab := Function.update c.tab g T, res := r } D' := by
  have P := I.tables g g' hp
  have hcur : c.cur = g := by
    have := P.cur
    rwa [hlate] at this
  subst hcur
  set c' : Core n E K := { c with tab := Function.update c.tab c.cur T, res := r } with hc'
  have hself : c'.tab c.cur = T := Function.update_self ..
  have hother : ∀ g₁, g₁ ≠ c.cur → c'.tab g₁ = c.tab g₁ := fun g₁ hg => Function.update_of_ne hg _ _
  have hb : ∀ g₁ k, c'.bucket g₁ k = c.bucket g₁ k := by
    intro g₁ k
    unfold Heap.bucket
    by_cases hg : g₁ = c.cur
    · rw [hg, hself, hbucket]
    · rw [hother g₁ hg]
  have hi : ∀ g₁, (c'.tab g₁).idx = (c.tab g₁).idx := by
    intro g₁
    by_cases hg : g₁ = c.cur
    · rw [hg, hself, hidx]
    · rw [hother g₁ hg]
  have hm : ∀ {g₁ a}, Mem c'.toHeap g₁ a ↔ Mem c.toHeap g₁ a := by
    intro g₁ a
    unfold Mem
    rw [show c'.toHeap.bucket g₁ (c'.toHeap.key a) = c.bucket g₁ (c.key a) from hb g₁ _]
    exact Iff.rfl
  have hused : ∀ {g₁}, Used c' g₁ ↔ Used c g₁ := by
    intro g₁
    unfold Used
    rw [show c'.res = r from rfl, hpr, hp]
  have hsnap : ∀ {g₁}, Snap c g₁ → Snap c' g₁ := fun hs => .inl (hs.resolve_right fun h => by
    rw [hlate] at h
    exact Bool.false_ne_true h.1)
  have hpos : 0 < (c'.tab c.cur).nbuckets := by rw [hself, hn]; exact I.pos
  exact
    { pos := hpos, lt := I.lt
      listed := fun g₁ hg => by
        refine Has.congr (I.listed g₁ (hused.mp hg)) (hi g₁) (fun a => hb g₁ _) (fun _ => rfl)
          (fun _ => ⟨rfl, rfl⟩) (fun _ _ => ⟨rfl, rfl⟩) fun a => hm
      pool := fun g₁ hg a ha => I.pool g₁ (hused.mp hg) a (ha.imp_left hm.mp)
      rest := fun hx => by
        rw [show Updates.pair c'.res = some (c.cur, g') from hpr] at hx
        cases hx
      tables := fun g₁ g₂ hp' => by
        obtain ⟨rfl, rfl⟩ := Prod.mk.inj (Option.some.inj (hpr.symm.trans hp'))
        have h2 := hother g' P.ne
        refine ⟨by rw [show late c'.res = false from hlr]; rfl, P.ne, P.lt, ⟨hpos, ?_⟩, ?_, ?_, ?_, ?_,
          fun hx => ?_⟩
        · rw [h2]
          exact P.pos.2
        · rw [hi, hi]
          exact P.idx
        · rw [h2]
          exact P.none
        · rw [h2]
          exact P.resizeCur
        · rw [hself]
          exact hnew
        · rw [show late c'.res = false from hlr] at hx
          cases hx
      new := fun g₁ g₂ hp' _ a => by
        obtain ⟨rfl, rfl⟩ := Prod.mk.inj (Option.some.inj (hpr.symm.trans hp'))
        rw [hm, I.new _ _ hp hlate]
        unfold InNew
        rw [show c'.cur = c.cur from rfl, hm, hb, hself]
        refine or_congr_left (and_congr_right fun hma => and_congr_left fun _ => ?_)
        exact (hmoved a hma).symm
      outNew := fun g₁ g₂ hp' _ a ha => by
        obtain ⟨rfl, rfl⟩ := Prod.mk.inj (Option.some.inj (hpr.symm.trans hp'))
        rw [hm]
        exact I.outNew _ _ hp hlate a ha
      outOld := fun _ _ _ hx => by
        rw [show late c'.res = false from hlr] at hx
        cases hx
      done := hdone, lock := hlock
      lockNew := fun x hx => by
        rw [show newLock c'.res = none from hnewLock] at hx
        cases hx
      dead := fun a ha => by
        obtain ⟨h1, h2, h3⟩ := I.dead a ha
        refine ⟨h1, by rwa [hm], fun g₁ g₂ hp' _ => ?_⟩
        obtain ⟨rfl, rfl⟩ := Prod.mk.inj (Option.some.inj (hpr.symm.trans hp'))
        rw [hm]
        exact h3 _ _ hp hlate
      grace := by
        unfold Grace
        rw [show c'.res = r from rfl]
        cases r <;> trivial
      loc := fun u => At.frame I
        { key := rfl, bucket := fun g₁ _ k => hb g₁ k, idx := fun g₁ _ => hi g₁
          snap := fun _ _ => hsnap
          alone := fun k hl hlt => ⟨rfl, by rw [hself]; exact halone k u hl hlt⟩
          resizeCur := fun g₁ _ => by
            by_cases hg : g₁ = c.cur
            · rw [hg, hself]
              exact hrc
            · rw [hother g₁ hg]
          new := fun g₁ x _ hx => by
            by_cases hg : g₁ = c.cur
            · rw [hg] at hx ⊢
              rw [hself]
              exact hkeep x hx
            · rwa [hother g₁ hg]
          lock := fun _ => id, live := fun _ _ _ => rfl, out := fun _ _ _ _ => rfl
          dead := fun _ _ => rfl, pool := fun _ => id } rfl (I.loc u) }

/-- `rcu_assign_pointer(htp->ht_new, htp_new)`. -/
theorem Inv.publish (I : Inv c D) (hr : c.res = .publish g g') :
    Inv { c with
      tab := Function.update c.tab g { c.tab g with new := some g' }
      res := .sync g g' } D := by
  have hp : pair c.res = some (g, g') := by rw [hr]; rfl
  have hd := I.done
  rw [hr] at hd
  refine I.setTab hp (by rw [hr]; rfl) rfl rfl rfl rfl (fun _ => rfl) rfl (fun x hx => ?_) le_rfl
    (fun _ _ _ => id) ⟨hd.1, ?_⟩ nofun rfl fun _ _ => Iff.rfl
  · have := (I.tables g g' hp).new
    rw [hr, hx] at this
    cases this
  · show (Function.update c.tab g _ g).resizeCur = -1
    rw [Function.update_self]
    exact hd.2

/-- `WRITE_ONCE(htp->ht_resize_cur, i)`: all of the bucket was moved. -/
theorem Inv.setCur {i : ℕ} (I : Inv c D) (hr : c.res = .setCur g g' i) :
    Inv { c with
      tab := Function.update c.tab g { c.tab g with resizeCur := i }
      res := .unlock g g' i } [] := by
  have hp : pair c.res = some (g, g') := by rw [hr]; rfl
  have hlate : late c.res = false := by rw [hr]; rfl
  have P := I.tables g g' hp
  have hcur : c.cur = g := by
    have := P.cur
    rwa [hlate] at this
  have hd := I.done
  rw [hr] at hd
  obtain ⟨hrc, rfl⟩ := hd
  have hres : c.lock (g, i) = some .resizer := I.lock _ (by rw [hr]; rfl)
  refine I.setTab hp hlate rfl rfl rfl rfl (fun _ => rfl) ?_ (fun _ => id) (by rw [hrc]; show (i : ℤ) - 1 ≤ i; omega)
    (fun k u hl hlt => ?_) ⟨rfl, ?_⟩ (fun x hx => ?_) rfl fun e he => ?_
  · have := P.new
    rwa [hr] at this
  · have hne : c.bucket g k ≠ i := by
      rintro rfl
      rw [hres] at hl
      cases hl
    show (i : ℤ) < _
    omega
  · show (Function.update c.tab g _ g).resizeCur = _
    rw [Function.update_self]
  · obtain rfl := Option.some.inj hx
    exact hres
  · have hl := (I.listed g (.inl hcur.symm)).mem i e
    rw [hl, hrc]
    show ((c.bucket g (c.key e) : ℤ) ≤ i ∨ e ∈ []) ↔ ((c.bucket g (c.key e) : ℤ) ≤ i - 1 ∨ _)
    simp only [List.not_mem_nil, or_false, he, and_true]
    omega

/-- `rcu_assign_pointer(htp_master->ht_cur, htp_new)`. -/
theorem Inv.switch (I : Inv c D) (hr : c.res = .switch g g') :
    Inv { c with cur := g', res := .sync2 g g' } [] := by
  have hp : pair c.res = some (g, g') := by rw [hr]; rfl
  have hlate : late c.res = false := by rw [hr]; rfl
  have P := I.tables g g' hp
  have hcur : c.cur = g := by
    have := P.cur
    rwa [hlate] at this
  have hd := I.done
  rw [hr] at hd
  have hused : ∀ {g₁}, Used { c with cur := g', res := .sync2 g g' } g₁ → Used c g₁ := by
    rintro g₁ (rfl | ⟨g₂, g₃, hp', hg⟩)
    · exact .inr ⟨g, g₁, hp, .inr rfl⟩
    · obtain ⟨rfl, rfl⟩ := Prod.mk.inj (Option.some.inj hp')
      exact .inr ⟨g, g', hp, hg⟩
  exact
    { pos := P.pos.2, lt := P.lt.2
      listed := fun g₁ hg => Has.congr (I.listed g₁ (hused hg)) rfl (fun _ => rfl) (fun _ => rfl)
        (fun _ => ⟨rfl, rfl⟩) (fun _ _ => ⟨rfl, rfl⟩) fun _ => Iff.rfl
      pool := fun g₁ hg => I.pool g₁ (hused hg), rest := nofun
      tables := fun g₁ g₂ hp' => by
        obtain ⟨rfl, rfl⟩ := Prod.mk.inj (Option.some.inj hp')
        have hnew := P.new
        rw [hr] at hnew
        exact ⟨rfl, P.ne, P.lt, P.pos, P.idx, P.none, P.resizeCur, hnew, fun _ => hd.2⟩
      new := nofun, outNew := nofun
      outOld := fun g₁ g₂ hp' _ a ho hm => by
        obtain ⟨rfl, rfl⟩ := Prod.mk.inj (Option.some.inj hp')
        refine ((I.new _ _ hp hlate a).mp hm).resolve_left fun ⟨hm, _⟩ => ?_
        rw [hcur] at hm
        cases hm.out.symm.trans ho
      done := rfl, lock := nofun, lockNew := nofun
      dead := fun a ha => ⟨(I.dead a ha).1, (I.dead a ha).2.2 g g' hp hlate, nofun⟩
      grace := trivial
      loc := fun u => At.frame I
        { key := rfl, bucket := fun _ _ _ => rfl, idx := fun _ _ => rfl
          snap := fun g₁ _ hs => by
            obtain rfl : g₁ = c.cur := hs.resolve_right fun h => by
              rw [hlate] at h
              exact Bool.false_ne_true h.1
            exact .inr ⟨rfl, by rw [hcur]; rfl⟩
          alone := fun k _ hlt => by
            have hb : c.bucket c.cur k < (c.tab c.cur).nbuckets := Nat.mod_lt _ I.pos
            have := hd.2
            rw [hcur] at hlt hb
            omega
          resizeCur := fun _ _ => le_rfl, new := fun _ _ _ => id, lock := fun _ => id
          live := fun _ _ _ => rfl, out := fun _ _ _ _ => rfl, dead := fun _ _ => rfl
          pool := fun _ => id } rfl (I.loc u) }

/-- `free(htp)`: no section has the old table any more. -/
theorem Inv.freed (I : Inv c D) (hr : c.res = .free g g') : Inv { c with res := .idle } D := by
  have hp : pair c.res = some (g, g') := by rw [hr]; rfl
  have P := I.tables g g' hp
  have hcur : c.cur = g' := by
    have := P.cur
    rwa [hr] at this
  have hd := I.done
  rw [hr] at hd
  have hg := I.grace
  unfold Grace at hg
  rw [hr] at hg
  have hused : ∀ {g₁}, Used { c with res := .idle } g₁ → Used c g₁ := by
    rintro g₁ (rfl | ⟨g₂, g₃, hp', -⟩)
    · exact .inl rfl
    · cases hp'
  exact
    { pos := I.pos, lt := I.lt, listed := fun g₁ hg => I.listed g₁ (hused hg)
      pool := fun g₁ hg => I.pool g₁ (hused hg)
      rest := fun _ => by
        show (c.tab c.cur).new = none ∧ (c.tab c.cur).resizeCur = -1
        rw [hcur]
        exact ⟨P.none, P.resizeCur⟩
      tables := nofun, new := nofun, outNew := nofun, outOld := nofun, done := hd, lock := nofun, lockNew := nofun
      dead := fun a ha => ⟨(I.dead a ha).1, (I.dead a ha).2.1, nofun⟩
      grace := trivial
      loc := fun u => At.frame I
        { key := rfl, bucket := fun _ _ _ => rfl, idx := fun _ _ => rfl
          snap := fun g₁ hs hsn => .inl (hsn.resolve_right fun ⟨_, hp'⟩ => by
            rw [hp] at hp'
            obtain ⟨rfl, -⟩ := Prod.mk.inj (Option.some.inj hp')
            exact hg u hs)
          alone := fun _ _ h => ⟨rfl, h⟩, resizeCur := fun _ _ => le_rfl, new := fun _ _ _ => id
          lock := fun _ => id, live := fun _ _ _ => rfl, out := fun _ _ _ _ => rfl
          dead := fun _ _ => rfl, pool := fun _ => id } rfl (I.loc u) }

section Steps

variable [DecidableEq E]

omit [DecidableEq E] in
/-- The element that the resizer links next is not in the new table, and no section works on it. -/
theorem Inv.unmoved {i b' : ℕ} (I : Inv c D) (hr : c.res = .link g g' i e b') :
    Mem c.toHeap g e ∧ ¬ Mem c.toHeap g' e ∧ c.out g' e = false ∧ b' = c.bucket g' (c.key e) ∧
      ∀ u, adding (c.loc u) ≠ some e ∧ deleting (c.loc u) ≠ some e := by
  have hp : pair c.res = some (g, g') := by rw [hr]; rfl
  have hlate : late c.res = false := by rw [hr]; rfl
  have hcur : c.cur = g := by
    have := (I.tables g g' hp).cur
    rwa [hlate] at this
  subst hcur
  have hd := I.done
  rw [hr] at hd
  obtain ⟨hrc, hb', post, hl⟩ := hd
  have hlisted := I.listed _ (.inl rfl)
  obtain ⟨hi, hme⟩ := hlisted.bucket (b := i) (e := e) (by rw [hl]; simp)
  have hres : c.lock (c.cur, i) = some .resizer := I.lock _ (by rw [hr]; rfl)
  have hnd := (hlisted.ring i).nodup
  rw [hl] at hnd
  have heD : e ∉ D := fun hm => (List.nodup_append.mp hnd).2.2 e hm e List.mem_cons_self rfl
  -- no section works on an element of the bucket that the resizer has locked
  have hwork : ∀ u, adding (c.loc u) ≠ some e ∧ deleting (c.loc u) ≠ some e := by
    intro u
    have hat := I.loc u
    have hno : ∀ {op ls}, Held c u op ls → c.key e ≠ op.key := fun H hk => by
      have := H.own I hk
      rw [← hi, hres] at this
      cases this
    cases hlu : c.loc u with
    | addNew op ls a =>
      rw [hlu] at hat
      refine ⟨fun ha => ?_, nofun⟩
      obtain rfl := Option.some.inj ha
      exact hno hat.1 hat.2.1
    | delNew op ls a =>
      rw [hlu] at hat
      refine ⟨nofun, fun ha => ?_⟩
      obtain rfl := Option.some.inj ha
      exact hno hat.1 hat.2.1
    | _ => exact ⟨nofun, nofun⟩
  refine ⟨hme, ?_, ?_, hb', hwork⟩
  · rw [I.new _ _ hp hlate]
    rintro (⟨-, hle | hm, -⟩ | ⟨u, hd⟩)
    · rw [← hi] at hle
      omega
    · exact heD hm
    · exact (hwork u).2 hd
  · rw [← Bool.not_eq_true]
    exact fun ho => I.outNew _ _ hp hlate e ho hme

/-- The resizer links an element into the new table. -/
theorem Inv.moveElem {hm : E → Bool → ℕ} {i b' : ℕ} (I : Inv c D) (hr : c.res = .link g g' i e b') :
    Inv { c with
      links := c.links.add (.link e (!(c.tab g).idx)) (.head g' b')
      hist := Function.update c.hist (g', b') (e :: c.hist (g', b'))
      home := hm
      res := .newUnlock g g' i e b' } (D ++ [e]) := by
  have hp : pair c.res = some (g, g') := by rw [hr]; rfl
  have hlate : late c.res = false := by rw [hr]; rfl
  have P := I.tables g g' hp
  have hcur : c.cur = g := by
    have := P.cur
    rwa [hlate] at this
  subst hcur
  obtain ⟨hme, hnot, hout, hb', hwork⟩ := I.unmoved hr
  have hd := I.done
  rw [hr] at hd
  obtain ⟨hrc, -, post, hl⟩ := hd
  have hu : Used c c.cur := .inl rfl
  have hu' : Used c g' := .inr ⟨_, _, hp, .inr rfl⟩
  have hres' : c.lock (g', b') = some .resizer := I.lockNew _ (by rw [hr]; rfl)
  set c' : Core n E K := { c with
    links := c.links.add (.link e (!(c.tab c.cur).idx)) (.head g' b')
    hist := Function.update c.hist (g', b') (e :: c.hist (g', b'))
    home := hm
    res := .newUnlock c.cur g' i e b' } with hc'
  obtain ⟨htabs, hlive⟩ := I.linked c'.toHeap (x := (g', b')) rfl rfl rfl rfl rfl hu' P.idx.symm
    hb' hnot hout
  have hused : ∀ {g₁}, Used c' g₁ ↔ Used c g₁ := by
    intro g₁
    unfold Used
    rw [hr]
    exact Iff.rfl
  have hnew := P.new
  rw [hr] at hnew
  have hother : ∀ {g₁ a}, Used c g₁ → g₁ ≠ g' → (Mem c'.toHeap g₁ a ↔ Mem c.toHeap g₁ a) := by
    intro g₁ a hg hne
    rw [(htabs g₁ hg).2]
    simp [hne]
  exact
    { pos := I.pos, lt := I.lt, listed := fun g₁ hg => (htabs g₁ (hused.mp hg)).1
      pool := fun g₁ hg a ha => by
        refine ha.elim (fun hm => ?_) fun ho => I.pool g₁ (hused.mp hg) a (.inr ho)
        obtain hm | ⟨-, rfl⟩ := ((htabs g₁ (hused.mp hg)).2 a).mp hm
        · exact I.pool g₁ (hused.mp hg) a (.inl hm)
        · exact I.pool _ hu a (.inl hme)
      rest := nofun
      tables := fun g₁ g₂ hp' => by
        obtain ⟨rfl, rfl⟩ := Prod.mk.inj (Option.some.inj hp')
        exact ⟨rfl, P.ne, P.lt, P.pos, P.idx, P.none, P.resizeCur, hnew, nofun⟩
      new := fun g₁ g₂ hp' _ a => by
        obtain ⟨rfl, rfl⟩ := Prod.mk.inj (Option.some.inj hp')
        rw [(htabs g' hu').2, I.new _ _ hp hlate]
        unfold InNew
        rw [show c'.cur = c.cur from rfl, hother hu P.ne.symm, List.mem_append, List.mem_singleton]
        show _ ∨ _ ↔ (_ ∧ ((c.bucket c.cur (c.key a) : ℤ) ≤ (c.tab c.cur).resizeCur ∨ _) ∧ _) ∨ _
        constructor
        · rintro ((⟨h1, h2 | h2, h3⟩ | hd) | ⟨-, rfl⟩)
          · exact .inl ⟨h1, .inl h2, h3⟩
          · exact .inl ⟨h1, .inr (.inl h2), h3⟩
          · exact .inr hd
          · exact .inl ⟨hme, .inr (.inr rfl), fun u => (hwork u).1⟩
        · rintro (⟨h1, h2 | h2 | rfl, h3⟩ | hd)
          · exact .inl (.inl ⟨h1, .inl h2, h3⟩)
          · exact .inl (.inl ⟨h1, .inr h2, h3⟩)
          · exact .inr ⟨rfl, rfl⟩
          · exact .inl (.inr hd)
      outNew := fun g₁ g₂ hp' _ a ha => by
        obtain ⟨rfl, rfl⟩ := Prod.mk.inj (Option.some.inj hp')
        rw [hother hu P.ne.symm]
        exact I.outNew _ _ hp hlate a ha
      outOld := nofun
      done := ⟨hrc, D, post, rfl, (hlive _ fun he => P.ne (congrArg Prod.fst he).symm).trans hl⟩
      lock := fun x hx => I.lock x (by rw [hr]; exact hx)
      lockNew := fun x hx => I.lockNew x (by rw [hr]; exact hx)
      dead := fun a ha => by
        obtain ⟨h1, h2, h3⟩ := I.dead a ha
        refine ⟨h1, by rwa [show c'.cur = c.cur from rfl, hother hu P.ne.symm], fun g₁ g₂ hp' _ => ?_⟩
        obtain ⟨rfl, rfl⟩ := Prod.mk.inj (Option.some.inj hp')
        rw [(htabs g' hu').2]
        rintro (hm | ⟨-, rfl⟩)
        · exact h3 _ _ hp hlate hm
        · exact h2 hme
      grace := trivial
      loc := fun u => At.frame I
        { key := rfl, bucket := fun _ _ _ => rfl, idx := fun _ _ => rfl
          snap := fun g₁ _ hs => .inl (hs.resolve_right fun h => by
            rw [hlate] at h
            exact Bool.false_ne_true h.1)
          alone := fun _ _ h => ⟨rfl, h⟩, resizeCur := fun _ _ => le_rfl, new := fun _ _ _ => id
          lock := fun _ => id
          live := fun x _ hx => hlive x fun he => by
            rw [he, hres'] at hx
            cases hx
          out := fun _ _ _ _ => rfl, dead := fun _ _ => rfl, pool := fun _ => id } rfl (I.loc u) }

variable {s s' : St n E K}

/-- **A step of the resizer** keeps the invariant. -/
theorem inv_stepResizer (I : Inv s.toCore D) (hn : stepResizer s = some s') :
    ∃ D', Inv s'.toCore D' := by
  have hd := I.done
  have hth : ∀ x u, s.lock x = some (.thread u) → s.lock x = some (.thread u) := fun _ _ => id
  have htake : ∀ {x}, s.lock x = none → ∀ y w, s.lock y = some w →
      Function.update s.lock x (some .resizer) y = some w := by
    intro x hx y w hy
    rwa [Function.update_of_ne fun he => by rw [he, hx] at hy; cases hy]
  have hdrop : ∀ {x}, s.lock x = some .resizer → ∀ y u, s.lock y = some (.thread u) →
      Function.update s.lock x none y = some (.thread u) := by
    intro x hx y u hy
    rwa [Function.update_of_ne fun he => by rw [he, hx] at hy; cases hy]
  unfold stepResizer at hn
  cases hr : s.res with
  | idle =>
    rw [hr] at hn
    cases hn
  | publish g g' =>
    rw [hr] at hn
    obtain rfl := Option.some.inj hn
    exact ⟨D, I.publish hr⟩
  | sync g g' =>
    rw [hr] at hn hd
    obtain rfl := Option.some.inj hn
    exact ⟨D, I.resWalk (by rw [hr]; rfl) (by rw [hr]; rfl) (by rw [hr]; rfl) hd nofun nofun hth trivial⟩
  | wait g g' =>
    rw [hr] at hn hd
    dsimp only at hn
    split at hn
    · obtain rfl := Option.some.inj hn
      exact ⟨D, I.resWalk (by rw [hr]; rfl) (by rw [hr]; rfl) (by rw [hr]; rfl) hd nofun nofun hth trivial⟩
    · cases hn
  | bucket g g' i =>
    rw [hr] at hn hd
    dsimp only at hn
    split at hn
    · split at hn
      · rename_i hfree
        obtain rfl := Option.some.inj hn
        refine ⟨D, I.resWalk (by rw [hr]; rfl) (by rw [hr]; rfl) (by rw [hr]; rfl) hd (fun x hx => ?_)
          nofun (fun y u hy => htake hfree y _ hy) trivial⟩
        obtain rfl := Option.some.inj hx
        exact Function.update_self ..
      · cases hn
    · rename_i hge
      obtain rfl := Option.some.inj hn
      refine ⟨D, I.resWalk (by rw [hr]; rfl) (by rw [hr]; rfl) (by rw [hr]; rfl) ⟨hd.1, ?_⟩ nofun nofun
        hth trivial⟩
      have hrc : (s.tab g).resizeCur = (i : ℤ) - 1 := hd.2
      rw [hrc]
      omega
  | first g g' i =>
    rw [hr] at hn hd
    obtain rfl := Option.some.inj hn
    obtain ⟨rfl, hrc⟩ := hd
    have hring := (I.listed g (.inr ⟨g, g', by rw [hr]; rfl, .inl rfl⟩)).ring i
    exact ⟨[], I.resWalk (by rw [hr]; rfl) (by rw [hr]; rfl) (by rw [hr]; rfl)
      ⟨hrc, live s.toHeap (g, i), rfl, hring.next_head⟩ (fun x hx => I.lock x (by rw [hr]; exact hx))
      nofun hth trivial⟩
  | walk g g' i x =>
    rw [hr] at hn hd
    obtain ⟨hrc, post, hl, hx⟩ := hd
    cases x with
    | head g₁ b₁ =>
      dsimp only at hn
      split at hn
      · obtain rfl := Option.some.inj hn
        cases post with
        | nil =>
          rw [List.append_nil] at hl
          exact ⟨D, I.resWalk (by rw [hr]; rfl) (by rw [hr]; rfl) (by rw [hr]; rfl) ⟨hrc, hl.symm⟩
            (fun x hx => I.lock x (by rw [hr]; exact hx)) nofun hth trivial⟩
        | cons e post => cases hx
      · cases hn
    | link e j =>
      dsimp only at hn
      split at hn
      · obtain rfl := Option.some.inj hn
        cases post with
        | nil => cases hx
        | cons e' post =>
          obtain ⟨rfl, -⟩ := Cell.link.inj hx
          exact ⟨D, I.resWalk (by rw [hr]; rfl) (by rw [hr]; rfl) (by rw [hr]; rfl) ⟨hrc, rfl, post, hl⟩
            (fun x hx => I.lock x (by rw [hr]; exact hx)) nofun hth trivial⟩
      · cases hn
  | newBucket g g' i e b' =>
    rw [hr] at hn hd
    dsimp only at hn
    split at hn
    · rename_i hfree
      obtain rfl := Option.some.inj hn
      refine ⟨D, I.resWalk (by rw [hr]; rfl) (by rw [hr]; rfl) (by rw [hr]; rfl) hd
        (fun x hx => htake hfree x _ (I.lock x (by rw [hr]; exact hx))) (fun x hx => ?_)
        (fun y u hy => htake hfree y _ hy) trivial⟩
      obtain rfl := Option.some.inj hx
      exact Function.update_self ..
    · cases hn
  | link g g' i e b' =>
    rw [hr] at hn
    obtain rfl := Option.some.inj hn
    exact ⟨D ++ [e], I.moveElem hr⟩
  | newUnlock g g' i e b' =>
    rw [hr] at hn hd
    obtain rfl := Option.some.inj hn
    have hlock : s.lock (g', b') = some .resizer := I.lockNew _ (by rw [hr]; rfl)
    refine ⟨D, I.resWalk (by rw [hr]; rfl) (by rw [hr]; rfl) (by rw [hr]; rfl) hd (fun x hx => ?_) nofun
      (hdrop hlock) trivial⟩
    have hne : x ≠ (g', b') := by
      rintro rfl
      exact (I.tables g g' (by rw [hr]; rfl)).ne (congrArg Prod.fst (Option.some.inj hx)).symm
    exact (Function.update_of_ne hne _ _).trans (I.lock x (by rw [hr]; exact hx))
  | nextElem g g' i e =>
    rw [hr] at hn hd
    obtain rfl := Option.some.inj hn
    obtain ⟨hrc, pre, post, rfl, hl⟩ := hd
    have hring := (I.listed g (.inr ⟨g, g', by rw [hr]; rfl, .inl rfl⟩)).ring i
    rw [hl] at hring
    exact ⟨_, I.resWalk (by rw [hr]; rfl) (by rw [hr]; rfl) (by rw [hr]; rfl)
      ⟨hrc, post, by rw [List.append_assoc]; exact hl, hring.next_mem⟩
      (fun x hx => I.lock x (by rw [hr]; exact hx)) nofun hth trivial⟩
  | setCur g g' i =>
    rw [hr] at hn
    obtain rfl := Option.some.inj hn
    exact ⟨[], I.setCur hr⟩
  | unlock g g' i =>
    rw [hr] at hn hd
    obtain ⟨-, hn⟩ := Option.ite_none_right_eq_some.mp hn
    obtain rfl := Option.some.inj hn
    refine ⟨D, I.resWalk (by rw [hr]; rfl) (by rw [hr]; rfl) (by rw [hr]; rfl) ⟨hd.1, ?_⟩ nofun nofun
      (hdrop (I.lock _ (by rw [hr]; rfl))) trivial⟩
    have hrc : (s.tab g).resizeCur = i := hd.2
    rw [hrc]
    omega
  | switch g g' =>
    rw [hr] at hn
    obtain rfl := Option.some.inj hn
    exact ⟨[], I.switch hr⟩
  | sync2 g g' =>
    rw [hr] at hn hd
    obtain rfl := Option.some.inj hn
    refine ⟨D, I.resWalk (by rw [hr]; rfl) (by rw [hr]; rfl) (by rw [hr]; rfl) hd nofun nofun hth
      fun v hv => ?_⟩
    -- a section that has a table has not ended
    show (s.loc v).inSection = true
    have hv : snapOf (s.loc v) = some g := hv
    cases hl : s.loc v <;> rw [hl] at hv <;> first | rfl | cases hv
  | wait2 g g' =>
    rw [hr] at hn hd
    dsimp only at hn
    split at hn
    · rename_i hall
      obtain rfl := Option.some.inj hn
      have hg := I.grace
      unfold Grace at hg
      rw [hr] at hg
      refine ⟨D, I.resWalk (by rw [hr]; rfl) (by rw [hr]; rfl) (by rw [hr]; rfl) hd nofun nofun hth
        fun v hv => ?_⟩
      have := hg v hv
      rw [hall v] at this
      cases this
    · cases hn
  | free g g' =>
    rw [hr] at hn
    obtain rfl := Option.some.inj hn
    exact ⟨D, I.freed hr⟩

end Steps

end Updates
end Hash
end Perfbook
