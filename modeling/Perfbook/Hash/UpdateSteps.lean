/-
# The steps of an update section

A section walks, or it works on the one element that it adds or deletes
(`Inv.touch`). What the tables hold changes for that element only, and no other
section works on it, since the lock of its bucket in `ht_cur` is taken
(`Inv.only`).

Key theorems: `Inv.walk`, `Inv.touch`, `Inv.del`, `Inv.delNew`, `Inv.addFirst`,
`Inv.addNew`, `inv_stepThread`.
-/
import Perfbook.Hash.Contents
import Perfbook.Hash.Updates

namespace Perfbook
namespace Hash
namespace Updates

open Conc

variable {n : ℕ} {E K : Type}
variable {h h' : Heap E K} {g g' : ℕ} {M : E → Prop} {e a : E} {i : Bool} {x y : ℕ × ℕ}
variable {c c' : Core n E K} {D D' : List E} {t u : Fin n} {l : Loc E K} {op : Op K} {ls : LockState}

/-! ### The steps of a thread -/

/-- What the resizer has moved is in the bucket that it has locked. -/
theorem Inv.moved (I : Inv c D) (he : e ∈ D) :
    c.res.bucketLock = some (c.cur, c.bucket c.cur (c.key e)) ∧ Mem c.toHeap c.cur e := by
  have hd := I.done
  have hat : ∀ {g g' i}, pair c.res = some (g, g') → late c.res = false →
      c.res.bucketLock = some (g, i) → e ∈ live c.toHeap (g, i) →
      c.res.bucketLock = some (c.cur, c.bucket c.cur (c.key e)) ∧ Mem c.toHeap c.cur e := by
    intro g g' i hp hlate hb hm
    have P := I.tables g g' hp
    have hcur := P.cur
    rw [hlate] at hcur
    obtain rfl : c.cur = g := hcur
    obtain ⟨hi, hm⟩ := (I.listed _ (.inl rfl)).bucket hm
    rw [hb, hi]
    exact ⟨rfl, hm⟩
  cases hr : c.res with
  | idle | sync2 | wait2 | free =>
    rw [hr] at hd
    rw [show D = [] from hd] at he
    cases he
  | publish | sync | wait | bucket | first | unlock | switch =>
    rw [hr] at hd
    rw [hd.1] at he
    cases he
  | walk g g₁ i x =>
    rw [hr] at hd hat
    obtain ⟨-, post, hl, -⟩ := hd
    exact hat rfl rfl rfl (by rw [hl]; exact List.mem_append_left _ he)
  | newBucket g g₁ i a b₁ | link g g₁ i a b₁ =>
    rw [hr] at hd hat
    obtain ⟨-, -, post, hl⟩ := hd
    exact hat rfl rfl rfl (by rw [hl]; exact List.mem_append_left _ he)
  | newUnlock g g₁ i a b₁ | nextElem g g₁ i a =>
    rw [hr] at hd hat
    obtain ⟨-, pre, post, rfl, hl⟩ := hd
    refine hat rfl rfl rfl ?_
    rw [hl]
    simp only [List.mem_append, List.mem_cons] at he ⊢
    tauto
  | setCur g g₁ i =>
    rw [hr] at hd hat
    obtain ⟨-, rfl⟩ := hd
    exact hat rfl rfl rfl he

/-- Only the thread that has the lock of its bucket works on an element. -/
theorem Inv.only (I : Inv c D) (own : c.lock (c.cur, c.bucket c.cur (c.key e)) = some (.thread t))
    (hu : u ≠ t) : adding (c.loc u) ≠ some e ∧ deleting (c.loc u) ≠ some e := by
  have hat := I.loc u
  have hne : c.lock (c.cur, c.bucket c.cur (c.key e)) ≠ some (.thread u) := by
    rw [own]
    intro he
    exact hu (Who.thread.inj (Option.some.inj he)).symm
  cases hl : c.loc u with
  | addNew op ls a =>
    rw [hl] at hat
    refine ⟨fun ha => hne ?_, nofun⟩
    obtain rfl := Option.some.inj ha
    exact Held.own I hat.1 hat.2.1
  | delNew op ls a =>
    rw [hl] at hat
    refine ⟨nofun, fun ha => hne ?_⟩
    obtain rfl := Option.some.inj ha
    exact Held.own I hat.1 hat.2.1
  | _ => exact ⟨nofun, nofun⟩

/-- The resizer's locks are not those of a thread. -/
theorem Inv.done_congr (I : Inv c D) {h' : Heap E K} (htab : h'.tab = c.tab) (hkey : h'.key = c.key)
    (hlive : ∀ x, Used c x.1 → c.lock x ≠ some (.thread t) → live h' x = live c.toHeap x) :
    Done h' D c.res := by
  refine I.done.congr htab hkey fun x hx => hlive x ?_ ?_
  · cases hr : c.res <;> rw [hr] at hx <;> cases hx <;> exact .inr ⟨_, _, by rw [hr]; rfl, .inl rfl⟩
  · rw [I.lock x hx]
    simp

/-- A thread goes on, and touches neither tables nor elements. -/
theorem Inv.walk {lk : ℕ × ℕ → Option (Who n)} {gp : Fin n → Bool} (I : Inv c D)
    (hadd : adding l = adding (c.loc t)) (hdel : deleting l = deleting (c.loc t))
    (hlock : ∀ x w, c.lock x = some w → w ≠ .thread t → lk x = some w)
    (hsnap : ∀ g, snapOf l = some g → g = c.cur ∨ snapOf (c.loc t) = some g)
    (hgp : ∀ v, c.gp v = true → gp v = true ∨ v = t ∧ snapOf l = none)
    (hat : At { c with lock := lk, loc := Function.update c.loc t l, gp := gp } t l) :
    Inv { c with lock := lk, loc := Function.update c.loc t l, gp := gp } D where
  pos := I.pos
  lt := I.lt
  listed := I.listed
  pool := I.pool
  rest := I.rest
  tables g g' hp :=
    let P := I.tables g g' hp
    ⟨P.cur, P.ne, P.lt, P.pos, P.idx, P.none, P.resizeCur, P.new, P.full⟩
  new g g' hp hlate e := by
    have ha : ∀ u, adding (Function.update c.loc t l u) = adding (c.loc u) :=
      forall_update (P := fun u y => adding y = adding (c.loc u)) rfl hadd fun _ _ => rfl
    have hd : ∀ u, deleting (Function.update c.loc t l u) = deleting (c.loc u) :=
      forall_update (P := fun u y => deleting y = deleting (c.loc u)) rfl hdel fun _ _ => rfl
    rw [I.new g g' hp hlate]
    simp only [InNew, ha, hd]
  outNew := I.outNew
  outOld g g' hp hlate e ho hm := by
    obtain ⟨u, hu⟩ := I.outOld g g' hp hlate e ho hm
    refine ⟨u, Eq.trans ?_ hu⟩
    exact forall_update (P := fun u y => deleting y = deleting (c.loc u)) rfl hdel (fun _ _ => rfl) u
  done := I.done
  lock x hx := hlock x _ (I.lock x hx) (by simp)
  lockNew x hx := hlock x _ (I.lockNew x hx) (by simp)
  dead := I.dead
  grace := by
    have hg := I.grace
    have hold : ∀ g, g ≠ c.cur → ∀ v, snapOf (Function.update c.loc t l v) = some g →
        snapOf (c.loc v) = some g ∧ (c.gp v = true → gp v = true) := by
      intro g hne v
      by_cases hv : v = t
      · subst hv
        rw [Function.update_self]
        intro hs
        refine ⟨(hsnap g hs).resolve_left hne, fun hgv => (hgp v hgv).resolve_right fun hn => ?_⟩
        rw [hs] at hn
        cases hn.2
      · rw [Function.update_of_ne hv]
        exact fun hs => ⟨hs, fun hgv => (hgp v hgv).resolve_right fun hn => hv hn.1⟩
    unfold Grace at hg ⊢
    cases hr : c.res with
    | wait2 g g' =>
      rw [hr] at hg
      have hne : g ≠ c.cur := by
        have P := I.tables g g' (by rw [hr]; rfl)
        have := P.cur
        rw [hr] at this
        exact fun he => P.ne (he.trans this).symm
      intro v hv
      obtain ⟨hs, hgv⟩ := hold g hne v hv
      exact hgv (hg v hs)
    | free g g' =>
      rw [hr] at hg
      have hne : g ≠ c.cur := by
        have P := I.tables g g' (by rw [hr]; rfl)
        have := P.cur
        rw [hr] at this
        exact fun he => P.ne (he.trans this).symm
      exact fun v hv => hg v (hold g hne v hv).1
    | _ => trivial
  loc := forall_update (P := At _) rfl hat fun u hu => At.frame I
    { key := rfl, bucket := fun _ _ _ => rfl, idx := fun _ _ => rfl, snap := fun _ _ => id
      alone := fun _ _ h => ⟨rfl, h⟩, resizeCur := fun _ _ => le_rfl, new := fun _ _ _ => id
      lock := fun x hx => hlock x _ hx fun he => hu (Who.thread.inj he)
      live := fun _ _ _ => rfl, out := fun _ _ _ _ => rfl, dead := fun _ _ => rfl
      pool := fun _ => id } rfl (I.loc u)

/-- A thread works on the element `e`, whose bucket in `ht_cur` it has locked. -/
theorem Inv.touch {lk : Links (Cell E)} {hs : ℕ × ℕ → List E} {ot : ℕ → E → Bool} {hm : E → Bool → ℕ}
    {pl : List E} {dd : E → Bool} {c' : Core n E K} (I : Inv c D)
    (hc' : c' = { c with
      links := lk, hist := hs, out := ot, home := hm, pool := pl
      loc := Function.update c.loc t l, dead := dd })
    (own : c.lock (c.cur, c.bucket c.cur (c.key e)) = some (.thread t))
    (hsnap : snapOf l = snapOf (c.loc t))
    (hwork : ∀ a, a ≠ e → adding l ≠ some a ∧ deleting l ≠ some a ∧
      adding (c.loc t) ≠ some a ∧ deleting (c.loc t) ≠ some a)
    (hlisted : ∀ g, Used c g → Listed c'.toHeap g)
    (hlive : ∀ x, Used c x.1 → c.lock x ≠ some (.thread t) → live c'.toHeap x = live c.toHeap x)
    (hmem : ∀ g a, Used c g → a ≠ e → (Mem c'.toHeap g a ↔ Mem c.toHeap g a))
    (hout : ∀ g a, c.lock (g, c.bucket g (c.key a)) ≠ some (.thread t) ∨ a ≠ e → ot g a = c.out g a)
    (hdd : ∀ a, a ≠ e → dd a = c.dead a) (hpl : ∀ a, a ∈ pl ↔ a ∈ c.pool ∨ a = e)
    (hnew : ∀ g g', pair c.res = some (g, g') → late c.res = false →
      (Mem c'.toHeap g' e ↔ InNew c' D e) ∧ (ot g' e = true → ¬ Mem c'.toHeap g e))
    (hold : ∀ g g', pair c.res = some (g, g') → late c.res = true → ot g e = true →
      Mem c'.toHeap g' e → deleting l = some e)
    (hdead : dd e = true → ¬ Mem c'.toHeap c.cur e ∧ ∀ g g', pair c.res = some (g, g') →
      late c.res = false → ¬ Mem c'.toHeap g' e)
    (hat : At c' t l) : Inv c' D := by
  have hloc : c'.loc = Function.update c.loc t l := by rw [hc']
  have hused : ∀ {g}, Used c' g ↔ Used c g := by rw [hc']; exact Iff.rfl
  have hadd : ∀ {a}, a ≠ e → ((∀ u, adding (c'.loc u) ≠ some a) ↔ ∀ u, adding (c.loc u) ≠ some a) := by
    intro a ha
    refine forall_congr' fun u => ?_
    by_cases hu : u = t
    · rw [hu, update_self hloc]
      exact iff_of_true (hwork a ha).1 (hwork a ha).2.2.1
    · rw [update_ne hloc hu]
  have hdel : ∀ {a}, a ≠ e → ((∃ u, deleting (c'.loc u) = some a) ↔ ∃ u, deleting (c.loc u) = some a) := by
    intro a ha
    refine exists_congr fun u => ?_
    by_cases hu : u = t
    · rw [hu, update_self hloc]
      exact iff_of_false (hwork a ha).2.1 (hwork a ha).2.2.2
    · rw [update_ne hloc hu]
  have hframe : ∀ u, u ≠ t → Frame c c' u := by
    intro u hu
    have hnot : ∀ {x}, c.lock x = some (.thread u) → c.lock x ≠ some (.thread t) := fun hx he => by
      rw [hx] at he
      exact hu (Who.thread.inj (Option.some.inj he))
    refine
      { key := by rw [hc'], bucket := by rw [hc']; exact fun _ _ _ => rfl
        idx := by rw [hc']; exact fun _ _ => rfl, snap := by rw [hc']; exact fun _ _ => id
        alone := by rw [hc']; exact fun _ _ h => ⟨rfl, h⟩
        resizeCur := by rw [hc']; exact fun _ _ => le_rfl, new := by rw [hc']; exact fun _ _ _ => id
        lock := by rw [hc']; exact fun _ => id
        live := fun x hx hl => hlive x hx (hnot hl), out := fun g a _ hl => ?_, dead := fun a hl => ?_
        pool := fun a ha => ?_ }
    · rw [hc']
      exact hout g a (.inl (hnot hl))
    · rw [hc']
      refine hdd a fun he => hnot hl ?_
      rw [he]
      exact own
    · rw [hc']
      exact (hpl a).mpr (.inl ha)
  refine
    { pos := by rw [hc']; exact I.pos, lt := by rw [hc']; exact I.lt
      listed := fun g hg => hlisted g (hused.mp hg), pool := fun g hg a ha => ?_
      rest := by rw [hc']; exact I.rest
      tables := by
        rw [hc']
        intro g g' hp
        have P := I.tables g g' hp
        exact ⟨P.cur, P.ne, P.lt, P.pos, P.idx, P.none, P.resizeCur, P.new, P.full⟩
      new := fun g g' hp hlate a => ?_, outNew := fun g g' hp hlate a ha => ?_
      outOld := fun g g' hp hlate a ha hm => ?_
      done := ?_, lock := by rw [hc']; exact I.lock, lockNew := by rw [hc']; exact I.lockNew
      dead := fun a ha => ?_, grace := ?_
      loc := forall_update (P := At c') hloc hat fun u hu => At.frame I (hframe u hu) rfl (I.loc u) }
  · rw [hc'] at ha ⊢
    by_cases hae : a = e
    · exact (hpl a).mpr (.inr hae)
    · refine (hpl a).mpr (.inl (I.pool g (hused.mp hg) a (ha.imp (fun hm => ?_) fun ho => ?_)))
      · rw [← hc'] at hm
        exact (hmem g a (hused.mp hg) hae).mp hm
      · rwa [← hout g a (.inr hae)]
  · rw [show c'.res = c.res by rw [hc']] at hp hlate
    by_cases hae : a = e
    · rw [hae]
      exact (hnew g g' hp hlate).1
    · rw [hmem g' a (.inr ⟨g, g', hp, .inr rfl⟩) hae, I.new g g' hp hlate]
      unfold InNew
      rw [hadd hae, hdel hae, show c'.cur = c.cur by rw [hc'], hmem c.cur a (.inl rfl) hae,
        show c'.bucket c.cur (c'.key a) = c.bucket c.cur (c.key a) by rw [hc']; rfl,
        show c'.tab = c.tab by rw [hc']]
  · rw [show c'.res = c.res by rw [hc']] at hp hlate
    rw [show c'.out = ot by rw [hc']] at ha
    by_cases hae : a = e
    · rw [hae] at ha ⊢
      exact (hnew g g' hp hlate).2 ha
    · rw [hmem g a (.inr ⟨g, g', hp, .inl rfl⟩) hae]
      exact I.outNew g g' hp hlate a (by rwa [← hout g' a (.inr hae)])
  · rw [show c'.res = c.res by rw [hc']] at hp hlate
    rw [show c'.out = ot by rw [hc']] at ha
    by_cases hae : a = e
    · rw [hae] at ha hm ⊢
      exact ⟨t, by rw [update_self hloc]; exact hold g g' hp hlate ha hm⟩
    · refine (hdel hae).mpr (I.outOld g g' hp hlate a (by rwa [← hout g a (.inr hae)]) ?_)
      exact (hmem g' a (.inr ⟨g, g', hp, .inr rfl⟩) hae).mp hm
  · rw [show c'.res = c.res by rw [hc']]
    exact I.done_congr (by rw [hc']) (by rw [hc']) hlive
  · rw [show c'.dead = dd by rw [hc']] at ha
    rw [show c'.res = c.res by rw [hc'], show c'.cur = c.cur by rw [hc'], show c'.pool = pl by rw [hc']]
    by_cases hae : a = e
    · rw [hae] at ha ⊢
      obtain ⟨h1, h2⟩ := hdead ha
      exact ⟨(hpl e).mpr (.inr rfl), h1, h2⟩
    · rw [hdd a hae] at ha
      obtain ⟨h1, h2, h3⟩ := I.dead a ha
      refine ⟨(hpl a).mpr (.inl h1), by rwa [hmem _ a (.inl rfl) hae], fun g g' hp hlate => ?_⟩
      rw [hmem g' a (.inr ⟨g, g', hp, .inr rfl⟩) hae]
      exact h3 g g' hp hlate
  · have hg := I.grace
    have hs : ∀ v, snapOf (c'.loc v) = snapOf (c.loc v) :=
      forall_update (P := fun v y => snapOf y = snapOf (c.loc v)) hloc hsnap fun _ _ => rfl
    unfold Grace at hg ⊢
    simp only [hs]
    rw [hc']
    exact hg

section Elements

variable [DecidableEq E]

/-- Unlinking an element of one of the tables leaves all else in them. -/
theorem Inv.unlinked (I : Inv c D) (h' : Heap E K) (hlinks : h'.links = c.links.del (.link e i))
    (hhist : h'.hist = c.hist)
    (hout : h'.out = Function.update c.out g (Function.update (c.out g) e true))
    (htab : h'.tab = c.tab) (hkey : h'.key = c.key) (hg : Used c g) (hi : i = (c.tab g).idx)
    (he : Mem c.toHeap g e) :
    (∀ g₁, Used c g₁ → Listed h' g₁ ∧
      ∀ a, Mem h' g₁ a ↔ Mem c.toHeap g₁ a ∧ ¬ (g₁ = g ∧ a = e)) ∧
    ∀ y, y ≠ (g, c.bucket g (c.key e)) → live h' y = live c.toHeap y := by
  obtain ⟨hself, hmem, hlive, hother⟩ :=
    unlink_spec hlinks hhist hout htab hkey (I.listed g hg) hi he
  refine ⟨fun g₁ hg₁ => ?_, hlive⟩
  by_cases hgg : g₁ = g
  · rw [hgg]
    exact ⟨hself, fun a => by rw [hmem]; simp⟩
  · obtain ⟨hl, hm⟩ := hother g₁ hgg (I.idx_ne hg₁ hg hgg) (I.listed g₁ hg₁)
    exact ⟨hl, fun a => by rw [hm]; simp [hgg]⟩

/-- Linking an element into one of the tables leaves all else in them. -/
theorem Inv.linked (I : Inv c D) (h' : Heap E K)
    (hlinks : h'.links = c.links.add (.link e i) (.head x.1 x.2))
    (hhist : h'.hist = Function.update c.hist x (e :: c.hist x)) (hout : h'.out = c.out)
    (htab : h'.tab = c.tab) (hkey : h'.key = c.key) (hg : Used c x.1) (hi : i = (c.tab x.1).idx)
    (hx : x.2 = c.bucket x.1 (c.key e)) (he : ¬ Mem c.toHeap x.1 e) (ho : c.out x.1 e = false) :
    (∀ g₁, Used c g₁ → Listed h' g₁ ∧
      ∀ a, Mem h' g₁ a ↔ Mem c.toHeap g₁ a ∨ g₁ = x.1 ∧ a = e) ∧
    ∀ y, y ≠ x → live h' y = live c.toHeap y := by
  obtain ⟨hself, hmem, hlive, hother⟩ :=
    link_spec hlinks hhist hout htab hkey (I.listed x.1 hg) hi hx he ho
  refine ⟨fun g₁ hg₁ => ?_, hlive⟩
  by_cases hgg : g₁ = x.1
  · rw [hgg]
    exact ⟨hself, fun a => by rw [hmem]; simp⟩
  · obtain ⟨hl, hm⟩ := hother g₁ hgg (I.idx_ne hg₁ hg hgg) (I.listed g₁ hg₁)
    exact ⟨hl, fun a => by rw [hm]; simp [hgg]⟩

omit [DecidableEq E] in
/-- Until the switch a section has the table that is replaced. -/
theorem Held.early (I : Inv c D) (H : Held c t op ls) (hp : pair c.res = some (g, g'))
    (hlate : late c.res = false) : ls.hbp0.1 = c.cur ∧ c.cur = g ∧ ∀ x, ls.hbp1 = some x → x.1 = g' := by
  have P := I.tables g g' hp
  have hcur : c.cur = g := by
    have := P.cur
    rwa [hlate] at this
  have hsn : ls.hbp0.1 = c.cur := H.snap.resolve_right fun h => by
    rw [hlate] at h
    exact Bool.false_ne_true h.1
  refine ⟨hsn, hcur, fun x hx => ?_⟩
  have := I.pair_new H.snap (H.both x hx).2.1
  rw [hp] at this
  exact (Prod.mk.inj (Option.some.inj this)).2.symm

omit [DecidableEq E] in
/-- A section that has locked one bucket only has an element that is not in the new table. -/
theorem Held.not_moved (I : Inv c D) (H : Held c t op ls) (hk : c.key e = op.key)
    (hx : ls.hbp1 = none) :
    ¬ ((c.bucket c.cur (c.key e) : ℤ) ≤ (c.tab c.cur).resizeCur ∨ e ∈ D) := by
  rintro (hle | hm)
  · have := (H.alone hx).2
    rw [hk] at hle
    omega
  · have hlock := I.lock _ (I.moved hm).1
    rw [H.own I hk] at hlock
    cases hlock

omit [DecidableEq E] in
theorem Held.moved (H : Held c t op ls) (hk : c.key e = op.key)
    (hg : ls.hbp0.1 = c.cur) (hx : ls.hbp1 = some x) :
    (c.bucket c.cur (c.key e) : ℤ) ≤ (c.tab c.cur).resizeCur := by
  have := (H.both x hx).1
  rwa [hg, ← hk] at this

omit [DecidableEq E] in
theorem Held.ne (I : Inv c D) (H : Held c t op ls) (hx : ls.hbp1 = some x) : x.1 ≠ ls.hbp0.1 := by
  have hp := I.pair_new H.snap (H.both x hx).2.1
  exact (I.tables _ _ hp).ne

omit [DecidableEq E] in
theorem Held.lock_of_ne (H : Held c t op ls) (hk : c.key e = op.key) {y : ℕ × ℕ}
    (hy : c.lock y ≠ some (.thread t)) : y ≠ (ls.hbp0.1, c.bucket ls.hbp0.1 (c.key e)) := by
  rintro rfl
  exact hy (H.lock0 hk)

/-- The first `cds_list_del_rcu`. -/
theorem Inv.del {dd : E → Bool} (I : Inv c D) (hl : c.loc t = .del op ls e)
    (hx : ls.hbp1 = none ∧ l = .unlockOld ls ∧ dd = Function.update c.dead e true ∨
      ls.hbp1 ≠ none ∧ l = .delNew op ls e ∧ dd = c.dead) :
    Inv { c with
      links := c.links.del (.link e ls.idx0)
      out := Function.update c.out ls.hbp0.1 (Function.update (c.out ls.hbp0.1) e true)
      loc := Function.update c.loc t l
      dead := dd } D := by
  have hat := I.loc t
  rw [hl] at hat
  obtain ⟨H, hk, h0, h1⟩ := hat
  have hu := Used.snap H.snap
  have own := H.own I hk
  set c' : Core n E K := { c with
    links := c.links.del (.link e ls.idx0)
    out := Function.update c.out ls.hbp0.1 (Function.update (c.out ls.hbp0.1) e true)
    loc := Function.update c.loc t l
    dead := dd } with hc'
  obtain ⟨htabs, hlive⟩ := I.unlinked c'.toHeap rfl rfl rfl rfl rfl hu H.idx0 h0
  have hself : c'.loc t = l := Function.update_self ..
  have hother : ∀ u, u ≠ t → c'.loc u = c.loc u := fun u hu => Function.update_of_ne hu _ _
  have hpool : e ∈ c.pool := I.pool _ hu e (.inl h0)
  have hndead : c.dead e = false := by
    by_contra hd
    obtain ⟨-, hd, -⟩ := I.dead e (by simpa using hd)
    obtain hg | ⟨-, hp⟩ := H.snap
    · exact hd (hg ▸ h0)
    · cases hxx : ls.hbp1 with
      | none => exact hd ((H.alone hxx).1 ▸ h0)
      | some x =>
        have := I.pair_new H.snap (H.both x hxx).2.1
        rw [hp] at this
        exact hd ((Prod.mk.inj (Option.some.inj this)).2 ▸ h1 x hxx)
  have hgone : ¬ Mem c'.toHeap ls.hbp0.1 e := fun hm => (((htabs _ hu).2 e).mp hm).2 ⟨rfl, rfl⟩
  -- until the switch
  have hearly : ∀ g g', Updates.pair c.res = some (g, g') → late c.res = false →
      (Mem c'.toHeap g' e ↔ InNew c' D e) ∧ (ls.hbp1 = none → ¬ Mem c'.toHeap g' e) := by
    intro g g' hp hlate
    obtain ⟨hg0, rfl, hx1⟩ := H.early I hp hlate
    have P := I.tables _ _ hp
    have hu' : Used c g' := .inr ⟨_, _, hp, .inr rfl⟩
    have hsame : Mem c'.toHeap g' e ↔ Mem c.toHeap g' e := by
      rw [(htabs g' hu').2, hg0]
      simp [P.ne]
    have hleft : ¬ Mem c'.toHeap c'.cur e := by
      rw [show c'.cur = ls.hbp0.1 from hg0.symm]
      exact hgone
    rcases hx with ⟨hx, rfl, -⟩ | ⟨hx, rfl, -⟩
    · have hno : ¬ Mem c.toHeap g' e := by
        rw [I.new _ _ hp hlate]
        rintro (⟨-, hm, -⟩ | ⟨u, hd⟩)
        · exact H.not_moved I hk hx hm
        · by_cases hut : u = t
          · rw [hut, hl] at hd
            cases hd
          · exact (I.only own hut).2 hd
      refine ⟨iff_of_false (fun hm => hno (hsame.mp hm)) ?_, fun _ hm => hno (hsame.mp hm)⟩
      rintro (⟨hm, -⟩ | ⟨u, hd⟩)
      · exact hleft hm
      · by_cases hut : u = t
        · rw [hut, hself] at hd
          cases hd
        · rw [hother u hut] at hd
          exact (I.only own hut).2 hd
    · obtain ⟨x, hxs⟩ := Option.ne_none_iff_exists'.mp hx
      have hm := h1 x hxs
      rw [hx1 x hxs] at hm
      exact ⟨iff_of_true (hsame.mpr hm) (.inr ⟨t, by rw [hself]; rfl⟩), fun hn => absurd hn hx⟩
  refine I.touch hc' own ?_ (fun a ha => ?_) (fun g hg => (htabs g hg).1)
    (fun y _ hy => hlive y (H.lock_of_ne hk hy)) (fun g a hg ha => ?_) (fun g a hga => ?_)
    (fun a ha => ?_) (fun a => ⟨.inl, ?_⟩) (fun g g' hp hlate => ⟨(hearly g g' hp hlate).1, fun ho => ?_⟩)
    (fun g g' hp hlate _ hm => ?_) (fun hd => ?_) ?_
  · rw [hl]
    rcases hx with ⟨-, rfl, -⟩ | ⟨-, rfl, -⟩ <;> rfl
  · rw [hl]
    rcases hx with ⟨-, rfl, -⟩ | ⟨-, rfl, -⟩ <;> simp [adding, deleting, Ne.symm ha]
  · rw [(htabs g hg).2]
    simp [ha]
  · by_cases hgg : g = ls.hbp0.1
    · subst hgg
      rw [Function.update_self]
      refine Function.update_of_ne (fun hae => ?_) ..
      obtain hga | hga := hga
      · rw [hae] at hga
        exact hga (H.lock0 hk)
      · exact hga hae
    · rw [Function.update_of_ne hgg]
  · rcases hx with ⟨-, -, rfl⟩ | ⟨-, -, rfl⟩
    · exact Function.update_of_ne ha ..
    · rfl
  · rintro (ha | rfl)
    · exact ha
    · exact hpool
  · obtain ⟨hg0, rfl, -⟩ := H.early I hp hlate
    rw [← hg0]
    exact hgone
  · rcases hx with ⟨hx, -, -⟩ | ⟨-, rfl, -⟩
    · rw [← I.late_cur hp hlate, ← (H.alone hx).1] at hm
      exact absurd hm hgone
    · rfl
  · rcases hx with ⟨hx, -, rfl⟩ | ⟨-, -, rfl⟩
    · refine ⟨?_, fun g g' hp hlate => (hearly g g' hp hlate).2 hx⟩
      rw [← (H.alone hx).1]
      exact hgone
    · rw [hndead] at hd
      cases hd
  · have H' : Held c' t op ls := ⟨H.hbp0, H.snap, H.idx0, H.lock, H.alone, H.both⟩
    rcases hx with ⟨hx, rfl, -⟩ | ⟨hx, rfl, -⟩
    · exact ⟨H.lock, fun x hxs => by rw [hx] at hxs; cases hxs⟩
    · obtain ⟨x, hxs⟩ := Option.ne_none_iff_exists'.mp hx
      refine ⟨H', hk, hpool, hgone, x, hxs, ?_⟩
      rw [(htabs _ (Held.used I H hxs)).2]
      exact ⟨h1 x hxs, fun hc => H.ne I hxs hc.1⟩

/-- The second `cds_list_del_rcu`. -/
theorem Inv.delNew (I : Inv c D) (hl : c.loc t = .delNew op ls e) (hx : ls.hbp1 = some x) :
    Inv { c with
      links := c.links.del (.link e (!ls.idx0))
      out := Function.update c.out x.1 (Function.update (c.out x.1) e true)
      loc := Function.update c.loc t (.unlockOld ls)
      dead := Function.update c.dead e true } D := by
  have hat := I.loc t
  rw [hl] at hat
  obtain ⟨H, hk, hpool, h0, x', hx', h1⟩ := hat
  obtain rfl : x = x' := Option.some.inj (hx.symm.trans hx')
  have hu := Held.used I H hx
  have own := H.own I hk
  have hne := H.ne I hx
  have hidx : (!ls.idx0) = (c.tab x.1).idx := by
    rw [H.idx0, (I.tables _ _ (I.pair_new H.snap (H.both x hx).2.1)).idx]
  set c' : Core n E K := { c with
    links := c.links.del (.link e (!ls.idx0))
    out := Function.update c.out x.1 (Function.update (c.out x.1) e true)
    loc := Function.update c.loc t (.unlockOld ls)
    dead := Function.update c.dead e true } with hc'
  obtain ⟨htabs, hlive⟩ := I.unlinked c'.toHeap rfl rfl rfl rfl rfl hu hidx h1
  have hself : c'.loc t = .unlockOld ls := Function.update_self ..
  have hother : ∀ u, u ≠ t → c'.loc u = c.loc u := fun u hu => Function.update_of_ne hu _ _
  have hgone : ¬ Mem c'.toHeap x.1 e := fun hm => (((htabs _ hu).2 e).mp hm).2 ⟨rfl, rfl⟩
  have hgone0 : ¬ Mem c'.toHeap ls.hbp0.1 e := fun hm =>
    h0 (((htabs _ (Used.snap H.snap)).2 e).mp hm).1
  have hcur : ¬ Mem c'.toHeap c.cur e := by
    obtain hg | ⟨-, hp⟩ := H.snap
    · rw [← hg]
      exact hgone0
    · have := I.pair_new H.snap (H.both x hx).2.1
      rw [hp] at this
      rw [(Prod.mk.inj (Option.some.inj this)).2]
      exact hgone
  refine I.touch hc' own (by rw [hl]; rfl) (fun a ha => by rw [hl]; simp [adding, deleting, Ne.symm ha])
    (fun g hg => (htabs g hg).1) (fun y _ hy => hlive y fun he => hy (he ▸ H.lock1 hx hk))
    (fun g a hg ha => by rw [(htabs g hg).2]; simp [ha]) (fun g a hga => ?_)
    (fun a ha => Function.update_of_ne ha ..) (fun a => ⟨.inl, ?_⟩) (fun g g' hp hlate => ?_)
    (fun g g' hp hlate _ hm => absurd (I.late_cur hp hlate ▸ hm) hcur)
    (fun _ => ⟨hcur, fun g g' hp hlate => ?_⟩) ⟨H.lock, fun y hy => ?_⟩
  · by_cases hgg : g = x.1
    · subst hgg
      rw [Function.update_self]
      refine Function.update_of_ne (fun hae => ?_) ..
      obtain hga | hga := hga
      · rw [hae] at hga
        exact hga (H.lock1 hx hk)
      · exact hga hae
    · rw [Function.update_of_ne hgg]
  · rintro (ha | rfl)
    · exact ha
    · exact hpool
  · obtain ⟨hg0, rfl, hx1⟩ := H.early I hp hlate
    obtain rfl := hx1 x hx
    refine ⟨iff_of_false hgone ?_, fun _ => hcur⟩
    rintro (⟨hm, -⟩ | ⟨u, hd⟩)
    · exact hcur hm
    · by_cases hut : u = t
      · rw [hut, hself] at hd
        cases hd
      · rw [hother u hut] at hd
        exact (I.only own hut).2 hd
  · rw [← (H.early I hp hlate).2.2 x hx]
    exact hgone
  · obtain rfl := Option.some.inj (hx.symm.trans hy)
    exact ⟨fun he => hne (congrArg Prod.fst he), (H.both x hx).2.2.2⟩

/-- The first `cds_list_add_rcu`. -/
theorem Inv.addFirst {hm : E → Bool → ℕ} (I : Inv c D) (hl : c.loc t = .add op ls) (he : e ∉ c.pool)
    (hk : c.key e = op.key)
    (hx : ls.hbp1 = none ∧ l = .unlockOld ls ∨ ls.hbp1 ≠ none ∧ l = .addNew op ls e) :
    Inv { c with
      links := c.links.add (.link e ls.idx0) (.head ls.hbp0.1 ls.hbp0.2)
      hist := Function.update c.hist ls.hbp0 (e :: c.hist ls.hbp0)
      home := hm
      pool := e :: c.pool
      loc := Function.update c.loc t l } D := by
  have hat := I.loc t
  rw [hl] at hat
  have H : Held c t op ls := hat
  have hu := Used.snap H.snap
  have own := H.own I hk
  have hno : ∀ g, Used c g → ¬ Mem c.toHeap g e ∧ c.out g e = false := by
    intro g hg
    refine ⟨fun hm => he (I.pool g hg e (.inl hm)), ?_⟩
    rw [← Bool.not_eq_true]
    exact fun ho => he (I.pool g hg e (.inr ho))
  set c' : Core n E K := { c with
    links := c.links.add (.link e ls.idx0) (.head ls.hbp0.1 ls.hbp0.2)
    hist := Function.update c.hist ls.hbp0 (e :: c.hist ls.hbp0)
    home := hm
    pool := e :: c.pool
    loc := Function.update c.loc t l } with hc'
  obtain ⟨htabs, hlive⟩ := I.linked c'.toHeap (x := ls.hbp0) rfl rfl rfl rfl rfl hu H.idx0
    (by rw [hk]; exact H.hbp0) (hno _ hu).1 (hno _ hu).2
  have hself : c'.loc t = l := Function.update_self ..
  have hother : ∀ u, u ≠ t → c'.loc u = c.loc u := fun u hu => Function.update_of_ne hu _ _
  have hin : Mem c'.toHeap ls.hbp0.1 e := ((htabs _ hu).2 e).mpr (.inr ⟨rfl, rfl⟩)
  have hnot : ∀ g, Used c g → g ≠ ls.hbp0.1 → ¬ Mem c'.toHeap g e := fun g hg hne hm => by
    obtain hm | ⟨hg', -⟩ := ((htabs g hg).2 e).mp hm
    · exact (hno g hg).1 hm
    · exact hne hg'
  have hndead : c.dead e ≠ true := fun hd => he (I.dead e hd).1
  refine I.touch hc' own ?_ (fun a ha => ?_) (fun g hg => (htabs g hg).1)
    (fun y _ hy => hlive y fun hyx => hy (hyx ▸ H.lock))
    (fun g a hg ha => by rw [(htabs g hg).2]; simp [ha]) (fun g a _ => rfl) (fun a _ => rfl)
    (fun a => by rw [List.mem_cons, or_comm]) (fun g g' hp hlate => ?_) (fun g g' hp _ ho _ => ?_)
    (fun hd => absurd hd hndead) ?_
  · rw [hl]
    rcases hx with ⟨-, rfl⟩ | ⟨-, rfl⟩ <;> rfl
  · rw [hl]
    rcases hx with ⟨-, rfl⟩ | ⟨-, rfl⟩ <;> simp [adding, deleting, Ne.symm ha]
  · obtain ⟨hg0, rfl, hx1⟩ := H.early I hp hlate
    have P := I.tables _ _ hp
    have hu' : Used c g' := .inr ⟨_, _, hp, .inr rfl⟩
    refine ⟨iff_of_false (hnot g' hu' (by rw [hg0]; exact P.ne)) ?_, fun ho => ?_⟩
    · rintro (⟨-, hm, ha⟩ | ⟨u, hd⟩)
      · rcases hx with ⟨hx, -⟩ | ⟨-, rfl⟩
        · exact H.not_moved I hk hx hm
        · exact ha t (by rw [hself]; rfl)
      · by_cases hut : u = t
        · rw [hut, hself] at hd
          rcases hx with ⟨-, rfl⟩ | ⟨-, rfl⟩ <;> cases hd
        · rw [hother u hut] at hd
          exact (I.only own hut).2 hd
    · rw [(hno g' hu').2] at ho
      cases ho
  · rw [(hno g (.inr ⟨g, g', hp, .inl rfl⟩)).2] at ho
    cases ho
  · have H' : Held c' t op ls := ⟨H.hbp0, H.snap, H.idx0, H.lock, H.alone, H.both⟩
    rcases hx with ⟨hx, rfl⟩ | ⟨hx, rfl⟩
    · exact ⟨H.lock, fun x hxs => by rw [hx] at hxs; cases hxs⟩
    · obtain ⟨x, hxs⟩ := Option.ne_none_iff_exists'.mp hx
      have hu1 := Held.used I H hxs
      exact ⟨H', hk, List.mem_cons_self .., by simpa using hndead, hin, x, hxs,
        hnot x.1 hu1 (H.ne I hxs), (hno x.1 hu1).2⟩

/-- The second `cds_list_add_rcu`. -/
theorem Inv.addNew {hm : E → Bool → ℕ} (I : Inv c D) (hl : c.loc t = .addNew op ls e)
    (hx : ls.hbp1 = some x) :
    Inv { c with
      links := c.links.add (.link e (!ls.idx0)) (.head x.1 x.2)
      hist := Function.update c.hist x (e :: c.hist x)
      home := hm
      loc := Function.update c.loc t (.unlockOld ls) } D := by
  have hat := I.loc t
  rw [hl] at hat
  obtain ⟨H, hk, hpool, hnd, h0, x', hx', h1, ho⟩ := hat
  obtain rfl : x = x' := Option.some.inj (hx.symm.trans hx')
  have hu := Held.used I H hx
  have own := H.own I hk
  have hidx : (!ls.idx0) = (c.tab x.1).idx := by
    rw [H.idx0, (I.tables _ _ (I.pair_new H.snap (H.both x hx).2.1)).idx]
  set c' : Core n E K := { c with
    links := c.links.add (.link e (!ls.idx0)) (.head x.1 x.2)
    hist := Function.update c.hist x (e :: c.hist x)
    home := hm
    loc := Function.update c.loc t (.unlockOld ls) } with hc'
  obtain ⟨htabs, hlive⟩ := I.linked c'.toHeap rfl rfl rfl rfl rfl hu hidx
    (by rw [hk]; exact (H.both x hx).2.2.1) h1 ho
  have hself : c'.loc t = .unlockOld ls := Function.update_self ..
  have hother : ∀ u, u ≠ t → c'.loc u = c.loc u := fun u hu => Function.update_of_ne hu _ _
  have hin : Mem c'.toHeap x.1 e := ((htabs _ hu).2 e).mpr (.inr ⟨rfl, rfl⟩)
  have hin0 : Mem c'.toHeap ls.hbp0.1 e := ((htabs _ (Used.snap H.snap)).2 e).mpr (.inl h0)
  refine I.touch hc' own (by rw [hl]; rfl) (fun a ha => by rw [hl]; simp [adding, deleting, Ne.symm ha])
    (fun g hg => (htabs g hg).1) (fun y _ hy => hlive y fun hyx => hy (hyx ▸ (H.both x hx).2.2.2))
    (fun g a hg ha => by rw [(htabs g hg).2]; simp [ha]) (fun g a _ => rfl) (fun a _ => rfl)
    (fun a => ⟨.inl, ?_⟩) (fun g g' hp hlate => ?_) (fun g g' hp _ ho _ => ?_) (fun hd => ?_)
    ⟨H.lock, fun y hy => ?_⟩
  · rintro (ha | rfl)
    · exact ha
    · exact hpool
  · obtain ⟨hg0, rfl, hx1⟩ := H.early I hp hlate
    obtain rfl := hx1 x hx
    refine ⟨iff_of_true hin (.inl ⟨hg0 ▸ hin0, .inl (H.moved hk hg0 hx), fun u => ?_⟩), fun hot => ?_⟩
    · by_cases hut : u = t
      · rw [hut, hself]
        exact fun h => by cases h
      · rw [hother u hut]
        exact (I.only own hut).1
    · rw [ho] at hot
      cases hot
  · have := I.pair_new H.snap (H.both x hx).2.1
    rw [hp] at this
    rw [(Prod.mk.inj (Option.some.inj this)).1, h0.out] at ho
    cases ho
  · rw [hnd] at hd
    cases hd
  · obtain rfl := Option.some.inj (hx.symm.trans hy)
    exact ⟨fun he => H.ne I hx (congrArg Prod.fst he), (H.both x hx).2.2.2⟩

end Elements

theorem at_locked (H : Held c t op ls) (hne : ∀ x, ls.hbp1 = some x → x ≠ ls.hbp0) :
    At c t (.locked op ls) := by
  unfold Loc.locked
  split
  · exact H
  split
  · exact H
  · exact ⟨H.lock, fun x hx => ⟨hne x hx, (H.both x hx).2.2.2⟩⟩

theorem at_missed (H : Held c t op ls) (hne : ∀ x, ls.hbp1 = some x → x ≠ ls.hbp0) :
    At c t (.missed op ls) := by
  unfold Loc.missed
  split
  · exact H
  · exact ⟨H.lock, fun x hx => ⟨hne x hx, (H.both x hx).2.2.2⟩⟩

theorem snapOf_locked : snapOf (.locked op ls : Loc E K) = some ls.hbp0.1 := by
  unfold Loc.locked
  split
  · rfl
  · split <;> rfl

theorem snapOf_missed : snapOf (.missed op ls : Loc E K) = some ls.hbp0.1 := by
  unfold Loc.missed
  split <;> rfl

theorem Held.ne0 (I : Inv c D) (H : Held c t op ls) (hx : ls.hbp1 = some x) : x ≠ ls.hbp0 :=
  fun he => H.ne I hx (congrArg Prod.fst he)

/-- The locks of the others, when `t` takes one that is free. -/
theorem taken {x : ℕ × ℕ} (hx : c.lock x = none) : ∀ y w, c.lock y = some w → w ≠ .thread t →
    Function.update c.lock x (some (.thread t)) y = some w := by
  intro y w hy _
  rwa [Function.update_of_ne fun he => by rw [he, hx] at hy; cases hy]

/-- The locks of the others, when `t` drops its own. -/
theorem dropped {x : ℕ × ℕ} (hx : c.lock x = some (.thread t)) : ∀ y w, c.lock y = some w →
    w ≠ .thread t → Function.update c.lock x none y = some w := by
  intro y w hy hw
  rwa [Function.update_of_ne fun he => hw (by rw [he, hx] at hy; exact (Option.some.inj hy).symm)]

/-- When the lookup reads the table that the section has locked, both of its buckets agree. -/
theorem Held.same (I : Inv c D) (H : Held c t op ls) (hl : c.loc t = .lookCur op ls)
    (hcur : c.cur = ls.hbp0.1) : Same c op.key ls := by
  intro x hx e hk
  have hp := I.pair_new H.snap (H.both x hx).2.1
  have P := I.tables _ _ hp
  have hlate : late c.res = false := by
    rw [← Bool.not_eq_true]
    intro hlate
    have := P.cur
    rw [hlate] at this
    exact P.ne (this.symm.trans hcur)
  have own := H.own I hk
  have hwork : ∀ u, adding (c.loc u) ≠ some e ∧ deleting (c.loc u) ≠ some e := fun u => by
    by_cases hu : u = t
    · rw [hu, hl]
      exact ⟨nofun, nofun⟩
    · exact I.only own hu
  rw [I.new _ _ hp hlate, ← hcur]
  refine ⟨fun hm => .inl ⟨hm, .inl (H.moved hk hcur.symm hx), fun u => (hwork u).1⟩, ?_⟩
  rintro (⟨hm, -⟩ | ⟨u, hd⟩)
  · exact hm
  · exact absurd hd (hwork u).2

theorem Held.looking (I : Inv c D) (H : Held c t op ls) (hl : c.loc t = .lookCur op ls) :
    Looking c op.key ls (c.cur, c.bucket c.cur op.key) := by
  obtain hg | ⟨-, hp⟩ := H.snap
  · exact .inl ⟨Prod.ext hg.symm (by rw [H.hbp0, hg]), H.same I hl hg.symm⟩
  · cases hx : ls.hbp1 with
    | none =>
      have hg := (H.alone hx).1
      exact .inl ⟨Prod.ext hg.symm (by rw [H.hbp0, hg]), H.same I hl hg.symm⟩
    | some x =>
      obtain ⟨-, hnew, h2, -⟩ := H.both x hx
      have := I.pair_new H.snap hnew
      rw [hp] at this
      have h1 : c.cur = x.1 := (Prod.mk.inj (Option.some.inj this)).2
      exact .inr (hx.trans (congrArg some (Prod.ext h1.symm (by rw [h2, h1]))))

/-- What a lookup finds is linked into both of the buckets that the section has locked, if it was
linked into the first one at some time. -/
theorem Held.found (I : Inv c D) (H : Held c t op ls) (hlook : Looking c op.key ls y)
    (hk : c.key e = op.key) (hdel : deleting (c.loc t) ≠ some e) (hm : Mem c.toHeap y.1 e)
    (hwas : e ∈ c.hist ls.hbp0) :
    Mem c.toHeap ls.hbp0.1 e ∧ ∀ x, ls.hbp1 = some x → Mem c.toHeap x.1 e := by
  obtain ⟨rfl, hsame⟩ | hy := hlook
  · exact ⟨hm, fun x hx => (hsame x hx e hk).mp hm⟩
  · refine ⟨?_, fun x hx => by rwa [Option.some.inj (hx.symm.trans hy)]⟩
    have hnd : ∀ u, deleting (c.loc u) ≠ some e := fun u => by
      by_cases hu : u = t
      · rw [hu]
        exact hdel
      · exact (I.only (H.own I hk) hu).2
    have hp := I.pair_new H.snap (H.both y hy).2.1
    cases hlate : late c.res with
    | true =>
      refine mem_of_hist (by rwa [hk, ← H.hbp0]) ?_
      rw [← Bool.not_eq_true]
      intro ho
      obtain ⟨u, hu⟩ := I.outOld _ _ hp hlate e ho hm
      exact hnd u hu
    | false =>
      obtain ⟨hm, -⟩ := ((I.new _ _ hp hlate e).mp hm).resolve_right fun ⟨u, hu⟩ => hnd u hu
      rwa [(H.early I hp hlate).1]

section Steps

variable [DecidableEq E] [DecidableEq K] {s s' : St n E K}

/-- **A step of a thread** keeps the invariant, if the element that an update section finds was
linked into the bucket that it has locked first. -/
theorem inv_stepThread (I : Inv s.toCore D)
    (hok : ∀ op ls g b e i, s.loc t = .lookWalk op ls g b (.link e i) → s.key e = op.key →
      e ∈ s.hist ls.hbp0) (hn : stepThread t s = some s') :
    Inv s'.toCore D := by
  have hat := I.loc t
  have hgp : ∀ v, s.gp v = true → s.gp v = true ∨ v = t ∧ snapOf (Loc.idle : Loc E K) = none :=
    fun _ => .inl
  have hlk : ∀ x w, s.lock x = some w → w ≠ .thread t → s.lock x = some w := fun _ _ h _ => h
  have hleave : ∀ v, s.gp v = true → Function.update s.gp t false v = true ∨
      v = t ∧ snapOf (Loc.idle : Loc E K) = none := by
    intro v hv
    by_cases hvt : v = t
    · exact .inr ⟨hvt, rfl⟩
    · exact .inl (by rwa [Function.update_of_ne hvt])
  unfold stepThread at hn
  cases hl : s.loc t with
  | idle =>
    rw [hl] at hn
    cases hn
  | readLock k =>
    rw [hl] at hn
    obtain rfl := Option.some.inj hn
    exact I.walk (by rw [hl]; rfl) (by rw [hl]; rfl) hlk nofun (fun _ => .inl) trivial
  | readCur k =>
    rw [hl] at hn
    obtain rfl := Option.some.inj hn
    exact I.walk (by rw [hl]; rfl) (by rw [hl]; rfl) hlk (fun g hg => .inl (Option.some.inj hg).symm)
      (fun _ => .inl) trivial
  | readHead k g b =>
    rw [hl] at hn
    obtain rfl := Option.some.inj hn
    exact I.walk (by rw [hl]; rfl) (by rw [hl]; rfl) hlk (fun g hg => .inr (by rw [hl]; exact hg))
      (fun _ => .inl) trivial
  | readWalk k g b x =>
    rw [hl] at hn
    cases x with
    | head g' b' =>
      dsimp only at hn
      split at hn
      · obtain rfl := Option.some.inj hn
        exact I.walk (by rw [hl]; rfl) (by rw [hl]; rfl) hlk nofun (fun _ => .inl) trivial
      · cases hn
    | link e i =>
      dsimp only at hn
      split at hn
      · obtain rfl := Option.some.inj hn
        by_cases hk : s.key e = k
        · rw [if_pos hk]
          exact I.walk (by rw [hl]; rfl) (by rw [hl]; rfl) hlk nofun (fun _ => .inl) trivial
        · rw [if_neg hk]
          exact I.walk (by rw [hl]; rfl) (by rw [hl]; rfl) hlk (fun g hg => .inr (by rw [hl]; exact hg))
            (fun _ => .inl) trivial
      · cases hn
  | readUnlock k x =>
    rw [hl] at hn
    obtain rfl := Option.some.inj hn
    exact I.walk (by rw [hl]; rfl) (by rw [hl]; rfl) hlk nofun hleave trivial
  | modLock op =>
    rw [hl] at hn
    obtain rfl := Option.some.inj hn
    exact I.walk (by rw [hl]; rfl) (by rw [hl]; rfl) hlk nofun (fun _ => .inl) trivial
  | modCur op =>
    rw [hl] at hn
    obtain rfl := Option.some.inj hn
    exact I.walk (by rw [hl]; rfl) (by rw [hl]; rfl) hlk (fun g hg => .inl (Option.some.inj hg).symm)
      (fun _ => .inl) ⟨.inl rfl, rfl⟩
  | modBucket op g b =>
    rw [hl] at hn hat
    dsimp only at hn
    split at hn
    · rename_i hfree
      obtain rfl := Option.some.inj hn
      exact I.walk (by rw [hl]; rfl) (by rw [hl]; rfl) (taken hfree)
        (fun g hg => .inr (by rw [hl]; exact hg)) (fun _ => .inl)
        ⟨hat.1, hat.2, Function.update_self ..⟩
    · cases hn
  | modProgress op g b =>
    rw [hl] at hn hat
    obtain rfl := Option.some.inj hn
    obtain ⟨hs, rfl, hlock⟩ := hat
    split
    · rename_i hgt
      have hcur : g = s.cur := by
        refine hs.resolve_right fun ⟨hlate, hp⟩ => ?_
        have P := I.tables _ _ hp
        have hfull := P.full hlate
        have hlt : s.bucket g op.key < (s.tab g).nbuckets := Nat.mod_lt _ P.pos.1
        omega
      subst hcur
      have H : Held s.toCore t op ⟨(s.cur, s.bucket s.cur op.key), (s.tab s.cur).idx, none⟩ :=
        ⟨rfl, hs, rfl, hlock, fun _ => ⟨rfl, hgt⟩, nofun⟩
      exact I.walk (by rw [hl]; exact adding_locked) (by rw [hl]; exact deleting_locked) hlk
        (fun g hg => .inr (by rw [snapOf_locked] at hg; rw [hl]; exact hg)) (fun _ => .inl)
        (at_locked ⟨H.hbp0, H.snap, H.idx0, H.lock, H.alone, H.both⟩ nofun)
    · rename_i hle
      exact I.walk (by rw [hl]; rfl) (by rw [hl]; rfl) hlk (fun g hg => .inr (by rw [hl]; exact hg))
        (fun _ => .inl) ⟨hs, rfl, hlock, Int.not_lt.mp hle⟩
  | modNew op g b =>
    rw [hl] at hn hat
    dsimp only at hn
    obtain ⟨hs, rfl, hlock, hle⟩ := hat
    split at hn
    · cases hn
    · rename_i g' hnew
      obtain rfl := Option.some.inj hn
      exact I.walk (by rw [hl]; rfl) (by rw [hl]; rfl) hlk (fun g hg => .inr (by rw [hl]; exact hg))
        (fun _ => .inl) ⟨hs, rfl, hlock, hle, hnew, rfl⟩
  | modNewBucket op g b g' b' =>
    rw [hl] at hn hat
    dsimp only at hn
    obtain ⟨hs, rfl, hlock, hle, hnew, rfl⟩ := hat
    split at hn
    · rename_i hfree
      obtain rfl := Option.some.inj hn
      have hne : (g', s.bucket g' op.key) ≠ (g, s.bucket g op.key) := fun heq =>
        (I.tables _ _ (I.pair_new hs hnew)).ne (congrArg Prod.fst heq)
      refine I.walk (by rw [hl]; exact adding_locked) (by rw [hl]; exact deleting_locked) (taken hfree)
        (fun g hg => .inr (by rw [snapOf_locked] at hg; rw [hl]; exact hg)) (fun _ => .inl)
        (at_locked ⟨rfl, hs, rfl, ?_, nofun, fun x hx => ?_⟩ fun x hx => ?_)
      · exact (Function.update_of_ne hne.symm _ _).trans hlock
      · obtain rfl := Option.some.inj hx
        exact ⟨hle, hnew, rfl, Function.update_self ..⟩
      · obtain rfl := Option.some.inj hx
        exact hne
    · cases hn
  | lookCur op ls =>
    rw [hl] at hn hat
    obtain rfl := Option.some.inj hn
    have H : Held s.toCore t op ls := hat
    have hlook := H.looking I hl
    exact I.walk (by rw [hl]; rfl) (by rw [hl]; rfl) hlk (fun g hg => .inr (by rw [hl]; exact hg))
      (fun _ => .inl) ⟨⟨H.hbp0, H.snap, H.idx0, H.lock, H.alone, H.both⟩, hlook⟩
  | lookHead op ls g b =>
    rw [hl] at hn hat
    obtain rfl := Option.some.inj hn
    obtain ⟨H, hlook⟩ := hat
    have hring := (I.listed g (hlook.held I H).1).ring b
    exact I.walk (by rw [hl]; rfl) (by rw [hl]; rfl) hlk (fun g hg => .inr (by rw [hl]; exact hg))
      (fun _ => .inl) ⟨⟨H.hbp0, H.snap, H.idx0, H.lock, H.alone, H.both⟩, hlook, [],
        live s.toHeap (g, b), rfl, hring.next_head⟩
  | lookWalk op ls g b x =>
    rw [hl] at hn hat
    obtain ⟨H, hlook, pre, post, hlive, hx⟩ := hat
    have hlisted := I.listed g (hlook.held I H).1
    have H' : Held { s.toCore with loc := Function.update s.loc t (.missed op ls) } t op ls :=
      ⟨H.hbp0, H.snap, H.idx0, H.lock, H.alone, H.both⟩
    cases x with
    | head g' b' =>
      dsimp only at hn
      split at hn
      · obtain rfl := Option.some.inj hn
        exact I.walk (by rw [hl]; exact adding_missed) (by rw [hl]; exact deleting_missed) hlk
          (fun g hg => .inr (by rw [snapOf_missed] at hg; rw [hl]; exact hg)) (fun _ => .inl)
          (at_missed H' fun x hx => H.ne0 I hx)
      · cases hn
    | link e i =>
      dsimp only at hn
      split at hn
      · obtain rfl := Option.some.inj hn
        cases post with
        | nil => cases hx
        | cons e' post =>
          obtain ⟨rfl, rfl⟩ := Cell.link.inj hx
          by_cases hk : s.key e = op.key
          · rw [if_pos hk]
            obtain ⟨hm, hm1⟩ := H.found I hlook hk (by rw [hl]; nofun)
              (hlisted.bucket (by rw [hlive]; simp)).2 (hok op ls g b e _ hl hk)
            exact I.walk (by rw [hl]; rfl) (by rw [hl]; rfl) hlk
              (fun g hg => .inr (by rw [hl]; exact hg)) (fun _ => .inl)
              ⟨⟨H.hbp0, H.snap, H.idx0, H.lock, H.alone, H.both⟩, hk, hm, hm1⟩
          · rw [if_neg hk]
            have hring := hlisted.ring b
            rw [hlive] at hring
            exact I.walk (by rw [hl]; rfl) (by rw [hl]; rfl) hlk
              (fun g hg => .inr (by rw [hl]; exact hg)) (fun _ => .inl)
              ⟨⟨H.hbp0, H.snap, H.idx0, H.lock, H.alone, H.both⟩, hlook, pre ++ [e], post,
                by rw [List.append_assoc]; exact hlive, hring.next_mem⟩
      · cases hn
  | del op ls e =>
    rw [hl] at hn
    dsimp only at hn
    split at hn
    · rename_i hx
      obtain rfl := Option.some.inj hn
      exact I.del hl (.inl ⟨hx, rfl, rfl⟩)
    · rename_i x hx
      obtain rfl := Option.some.inj hn
      exact I.del hl (.inr ⟨by rw [hx]; simp, rfl, rfl⟩)
  | delNew op ls e =>
    rw [hl] at hn
    dsimp only at hn
    split at hn
    · cases hn
    · rename_i x hx
      obtain rfl := Option.some.inj hn
      exact I.delNew hl hx
  | add op ls =>
    rw [hl] at hn
    cases hn
  | addNew op ls e =>
    rw [hl] at hn
    dsimp only at hn
    split at hn
    · cases hn
    · rename_i x hx
      obtain rfl := Option.some.inj hn
      exact I.addNew hl hx
  | unlockOld ls =>
    rw [hl] at hn hat
    obtain rfl := Option.some.inj hn
    obtain ⟨hlock, hx1⟩ := hat
    split
    · exact I.walk (by rw [hl]; rfl) (by rw [hl]; rfl) (dropped hlock) nofun (fun _ => .inl) trivial
    · rename_i x hx
      exact I.walk (by rw [hl]; rfl) (by rw [hl]; rfl) (dropped hlock) nofun (fun _ => .inl)
        ((Function.update_of_ne (hx1 x hx).1 _ _).trans (hx1 x hx).2)
  | unlockNew x =>
    rw [hl] at hn hat
    obtain rfl := Option.some.inj hn
    exact I.walk (by rw [hl]; rfl) (by rw [hl]; rfl) (dropped hat) nofun (fun _ => .inl) trivial
  | modUnlock =>
    rw [hl] at hn
    obtain rfl := Option.some.inj hn
    exact I.walk (by rw [hl]; rfl) (by rw [hl]; rfl) hlk nofun hleave trivial

end Steps

end Updates
end Hash
end Perfbook
