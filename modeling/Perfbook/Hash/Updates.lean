/-
# What holds while update sections interleave with a resize

Here nothing runs whole. A section owns the buckets that it has locked: no
other thread, nor the resizer, links or unlinks an element there, so what the
section has seen stays true (`At.frame`). The table that it locked first may
stop to be `ht_cur` while it runs (`Snap`), but the second grace period of the
resize waits for it (`Grace`).

Until the switch the new table holds the elements whose bucket was moved, but
for those that a section is adding to, or deleting from, both tables (`InNew`).
After it an element of both tables leaves both or none (`Inv.outOld`).

Key definitions: `Mem`, `Listed`, `Held`, `Same`, `At`, `Pair`, `Grace`, `Inv`.
Key theorems: `link_spec`, `unlink_spec`, `Held.own`, `At.frame`.
-/
import Perfbook.Hash.Inv

namespace Perfbook
namespace Hash
namespace Updates

open Conc

variable {n : ℕ} {E K : Type}

/-! ### What is linked where -/

/-- `e` is linked into its bucket of table `g`. -/
def Mem (h : Heap E K) (g : ℕ) (e : E) : Prop := e ∈ live h (g, h.bucket g (h.key e))

/-- The buckets of table `g` are lists, and each element is in the bucket of its key. -/
def Listed (h : Heap E K) (g : ℕ) : Prop := Has h g (Mem h g)

variable {h h' : Heap E K} {g g' : ℕ} {M : E → Prop} {e a : E} {i : Bool} {x y : ℕ × ℕ}

theorem mem_iff (hs : Has h g M) : Mem h g e ↔ M e :=
  (hs.mem _ e).trans (and_iff_right rfl)

theorem listed (hs : Has h g M) : Listed h g := hs.of fun _ => mem_iff hs

theorem mem_of_hist (he : e ∈ h.hist (g, h.bucket g (h.key e))) (ho : h.out g e = false) : Mem h g e :=
  List.mem_filter.mpr ⟨he, by rw [ho]; rfl⟩

theorem Mem.hist (hm : Mem h g e) : e ∈ h.hist (g, h.bucket g (h.key e)) := (List.mem_filter.mp hm).1

theorem Mem.out (hm : Mem h g e) : h.out g e = false := by
  simpa using (List.mem_filter.mp hm).2

theorem Listed.bucket {b : ℕ} (hl : Listed h g) (he : e ∈ live h (g, b)) :
    b = h.bucket g (h.key e) ∧ Mem h g e := (hl.mem b e).mp he

section

variable [DecidableEq E]

/-- What linking an element into bucket `x` does to the tables. -/
theorem link_spec (hlinks : h'.links = h.links.add (.link e i) (.head x.1 x.2))
    (hhist : h'.hist = Function.update h.hist x (e :: h.hist x)) (hout : h'.out = h.out)
    (htab : h'.tab = h.tab) (hkey : h'.key = h.key) (hs : Listed h x.1) (hi : i = (h.tab x.1).idx)
    (hx : x.2 = h.bucket x.1 (h.key e)) (he : ¬ Mem h x.1 e) (ho : h.out x.1 e = false) :
    Listed h' x.1 ∧ (∀ a, Mem h' x.1 a ↔ Mem h x.1 a ∨ a = e) ∧ (∀ y, y ≠ x → live h' y = live h y) ∧
      ∀ g, g ≠ x.1 → (h.tab g).idx ≠ (h.tab x.1).idx → Listed h g →
        Listed h' g ∧ ∀ a, Mem h' g a ↔ Mem h g a := by
  have hself := Has.link hlinks hhist hout htab hkey hs hi hx he ho
  refine ⟨listed hself, fun a => mem_iff hself, fun y hy => ?_, fun g hg hgi hl => ?_⟩
  · rw [live, live, hhist, hout, Function.update_of_ne hy]
  · have := Has.frame_link hlinks hhist hout htab hkey hl (by rw [hi]; exact hgi.symm) hg.symm hs hi
    exact ⟨listed this, fun a => mem_iff this⟩

/-- What unlinking an element of table `g` does to the tables. -/
theorem unlink_spec (hlinks : h'.links = h.links.del (.link e i)) (hhist : h'.hist = h.hist)
    (hout : h'.out = Function.update h.out g (Function.update (h.out g) e true))
    (htab : h'.tab = h.tab) (hkey : h'.key = h.key) (hs : Listed h g) (hi : i = (h.tab g).idx)
    (he : Mem h g e) :
    Listed h' g ∧ (∀ a, Mem h' g a ↔ Mem h g a ∧ a ≠ e) ∧
      (∀ y, y ≠ (g, h.bucket g (h.key e)) → live h' y = live h y) ∧
      ∀ g', g' ≠ g → (h.tab g').idx ≠ (h.tab g).idx → Listed h g' →
        Listed h' g' ∧ ∀ a, Mem h' g' a ↔ Mem h g' a := by
  have hself := Has.unlink hlinks hhist hout htab hkey hs hi he
  refine ⟨listed hself, fun a => mem_iff hself, fun y hy => ?_, fun g' hg hgi hl => ?_⟩
  · rw [live, live, hhist, hout]
    refine List.filter_congr fun a ha => ?_
    by_cases hyg : y.1 = g
    · rw [hyg, Function.update_self]
      by_cases hae : a = e
      · subst hae
        rw [Function.update_self]
        by_contra hno
        have ho : h.out y.1 a = false := by
          rw [hyg]
          cases ho : h.out g a
          · rfl
          · rw [ho] at hno
            exact absurd rfl hno
        have hm : a ∈ live h (g, y.2) := by
          rw [← hyg]
          exact List.mem_filter.mpr ⟨ha, by rw [ho]; rfl⟩
        exact hy (Prod.ext hyg (hs.bucket hm).1)
      · rw [Function.update_of_ne hae]
    · rw [Function.update_of_ne hyg]
  · have := Has.frame_unlink hlinks hhist hout htab hkey hl (by rw [hi]; exact hgi.symm) hg.symm hs hi he
    exact ⟨listed this, fun a => mem_iff this⟩

end

/-! ### The invariant -/

/-- The table that is replaced, and the new one. -/
def pair : Res E → Option (ℕ × ℕ)
  | .idle => none
  | .publish g g' | .sync g g' | .wait g g' | .bucket g g' _ | .first g g' _ | .walk g g' _ _
  | .newBucket g g' _ _ _ | .link g g' _ _ _ | .newUnlock g g' _ _ _ | .nextElem g g' _ _
  | .setCur g g' _ | .unlock g g' _ | .switch g g' | .sync2 g g' | .wait2 g g'
  | .free g g' => some (g, g')

/-- The new table is `ht_cur`. -/
def late : Res E → Bool
  | .sync2 _ _ | .wait2 _ _ | .free _ _ => true
  | _ => false

/-- The bucket of the new table that the resizer has locked. -/
def newLock : Res E → Option (ℕ × ℕ)
  | .link _ g' _ _ b' | .newUnlock _ g' _ _ b' => some (g', b')
  | _ => none

/-- The table that a section has read from `ht_cur`. -/
def snapOf : Loc E K → Option ℕ
  | .readHead _ g _ | .readWalk _ g _ _ | .modBucket _ g _ | .modProgress _ g _ | .modNew _ g _
  | .modNewBucket _ g _ _ _ => some g
  | .lookCur _ ls | .lookHead _ ls _ _ | .lookWalk _ ls _ _ _ | .del _ ls _ | .delNew _ ls _
  | .add _ ls | .addNew _ ls _ | .unlockOld ls => some ls.hbp0.1
  | _ => none

/-- It is `ht_cur`, or was until the switch. -/
def Snap (c : Core n E K) (g : ℕ) : Prop :=
  g = c.cur ∨ late c.res = true ∧ pair c.res = some (g, c.cur)

/-- The table is `ht_cur`, or one of the two of a resize. -/
def Used (c : Core n E K) (g : ℕ) : Prop :=
  g = c.cur ∨ ∃ g₁ g₂, pair c.res = some (g₁, g₂) ∧ (g = g₁ ∨ g = g₂)

/-- What a section has locked. -/
structure Held (c : Core n E K) (t : Fin n) (op : Op K) (ls : LockState) : Prop where
  hbp0 : ls.hbp0.2 = c.bucket ls.hbp0.1 op.key
  snap : Snap c ls.hbp0.1
  idx0 : ls.idx0 = (c.tab ls.hbp0.1).idx
  lock : c.lock ls.hbp0 = some (.thread t)
  alone : ls.hbp1 = none → ls.hbp0.1 = c.cur ∧ (c.tab c.cur).resizeCur < (c.bucket c.cur op.key : ℤ)
  both : ∀ x, ls.hbp1 = some x → (c.bucket ls.hbp0.1 op.key : ℤ) ≤ (c.tab ls.hbp0.1).resizeCur ∧
    (c.tab ls.hbp0.1).new = some x.1 ∧ x.2 = c.bucket x.1 op.key ∧ c.lock x = some (.thread t)

/-- Elements of the key are in both of the buckets that a section has locked, or in none. -/
def Same (c : Core n E K) (k : K) (ls : LockState) : Prop :=
  ∀ x, ls.hbp1 = some x → ∀ e, c.key e = k → (Mem c.toHeap ls.hbp0.1 e ↔ Mem c.toHeap x.1 e)

/-- A lookup is in the bucket that was locked first, or in the other one after a switch. -/
def Looking (c : Core n E K) (k : K) (ls : LockState) (y : ℕ × ℕ) : Prop :=
  y = ls.hbp0 ∧ Same c k ls ∨ ls.hbp1 = some y

/-- What holds of a thread at a place of an update section. -/
def At (c : Core n E K) (t : Fin n) : Loc E K → Prop
  | .modBucket op g b => Snap c g ∧ b = c.bucket g op.key
  | .modProgress op g b => Snap c g ∧ b = c.bucket g op.key ∧ c.lock (g, b) = some (.thread t)
  | .modNew op g b => Snap c g ∧ b = c.bucket g op.key ∧ c.lock (g, b) = some (.thread t) ∧
      (b : ℤ) ≤ (c.tab g).resizeCur
  | .modNewBucket op g b g' b' => Snap c g ∧ b = c.bucket g op.key ∧
      c.lock (g, b) = some (.thread t) ∧ (b : ℤ) ≤ (c.tab g).resizeCur ∧ (c.tab g).new = some g' ∧
      b' = c.bucket g' op.key
  | .lookCur op ls => Held c t op ls
  | .lookHead op ls g b => Held c t op ls ∧ Looking c op.key ls (g, b)
  | .lookWalk op ls g b x => Held c t op ls ∧ Looking c op.key ls (g, b) ∧
      ∃ pre post, live c.toHeap (g, b) = pre ++ post ∧
        x = first (Cell.link · (c.tab g).idx) (.head g b) post
  | .del op ls e => Held c t op ls ∧ c.key e = op.key ∧ Mem c.toHeap ls.hbp0.1 e ∧
      ∀ x, ls.hbp1 = some x → Mem c.toHeap x.1 e
  | .delNew op ls e => Held c t op ls ∧ c.key e = op.key ∧ e ∈ c.pool ∧
      ¬ Mem c.toHeap ls.hbp0.1 e ∧ ∃ x, ls.hbp1 = some x ∧ Mem c.toHeap x.1 e
  | .add op ls => Held c t op ls
  | .addNew op ls e => Held c t op ls ∧ c.key e = op.key ∧ e ∈ c.pool ∧ c.dead e = false ∧
      Mem c.toHeap ls.hbp0.1 e ∧
      ∃ x, ls.hbp1 = some x ∧ ¬ Mem c.toHeap x.1 e ∧ c.out x.1 e = false
  | .unlockOld ls => c.lock ls.hbp0 = some (.thread t) ∧
      ∀ x, ls.hbp1 = some x → x ≠ ls.hbp0 ∧ c.lock x = some (.thread t)
  | .unlockNew x => c.lock x = some (.thread t)
  | _ => True

/-- The elements of the new table until the switch: those that were moved, but for the element
that a section is adding to, or deleting from, both tables. -/
def InNew (c : Core n E K) (D : List E) (e : E) : Prop :=
  (Mem c.toHeap c.cur e ∧ ((c.bucket c.cur (c.key e) : ℤ) ≤ (c.tab c.cur).resizeCur ∨ e ∈ D) ∧
    ∀ t, adding (c.loc t) ≠ some e) ∨ ∃ t, deleting (c.loc t) = some e

/-- The two tables of a resize. -/
structure Pair (c : Core n E K) (g g' : ℕ) : Prop where
  cur : c.cur = if late c.res then g' else g
  ne : g' ≠ g
  lt : g < c.tables ∧ g' < c.tables
  pos : 0 < (c.tab g).nbuckets ∧ 0 < (c.tab g').nbuckets
  idx : (c.tab g').idx = !(c.tab g).idx
  none : (c.tab g').new = none
  resizeCur : (c.tab g').resizeCur = -1
  new : (c.tab g).new = if c.res.published then some g' else Option.none
  full : late c.res = true → ((c.tab g).nbuckets : ℤ) ≤ (c.tab g).resizeCur + 1

/-- The second grace period waits for the sections that have the old table. -/
def Grace (c : Core n E K) : Prop :=
  match c.res with
  | .wait2 g _ => ∀ t, snapOf (c.loc t) = some g → c.gp t = true
  | .free g _ => ∀ t, snapOf (c.loc t) ≠ some g
  | _ => True

structure Inv (c : Core n E K) (D : List E) : Prop where
  pos : 0 < (c.tab c.cur).nbuckets
  lt : c.cur < c.tables
  listed : ∀ g, Used c g → Listed c.toHeap g
  pool : ∀ g, Used c g → ∀ e, Mem c.toHeap g e ∨ c.out g e = true → e ∈ c.pool
  rest : pair c.res = none → (c.tab c.cur).new = none ∧ (c.tab c.cur).resizeCur = -1
  tables : ∀ g g', pair c.res = some (g, g') → Pair c g g'
  new : ∀ g g', pair c.res = some (g, g') → late c.res = false →
    ∀ e, Mem c.toHeap g' e ↔ InNew c D e
  outNew : ∀ g g', pair c.res = some (g, g') → late c.res = false →
    ∀ e, c.out g' e = true → ¬ Mem c.toHeap g e
  outOld : ∀ g g', pair c.res = some (g, g') → late c.res = true →
    ∀ e, c.out g e = true → Mem c.toHeap g' e → ∃ t, deleting (c.loc t) = some e
  done : Done c.toHeap D c.res
  lock : ∀ x, c.res.bucketLock = some x → c.lock x = some .resizer
  lockNew : ∀ x, newLock c.res = some x → c.lock x = some .resizer
  dead : ∀ e, c.dead e = true → e ∈ c.pool ∧ ¬ Mem c.toHeap c.cur e ∧
    ∀ g g', pair c.res = some (g, g') → late c.res = false → ¬ Mem c.toHeap g' e
  grace : Grace c
  loc : ∀ t, At c t (c.loc t)

variable {c c' : Core n E K} {D D' : List E} {t u : Fin n} {l : Loc E K} {op : Op K} {ls : LockState}

theorem Used.snap (h : Snap c g) : Used c g :=
  h.imp_right fun ⟨_, hp⟩ => ⟨g, c.cur, hp, .inl rfl⟩

/-- The table of `ht_new` is the new one of the resize. -/
theorem Inv.pair_new (I : Inv c D) (hs : Snap c g) (hn : (c.tab g).new = some g') :
    pair c.res = some (g, g') := by
  cases hp : pair c.res with
  | none =>
    obtain rfl : g = c.cur := hs.resolve_right fun ⟨_, h⟩ => by rw [hp] at h; cases h
    rw [(I.rest hp).1] at hn
    cases hn
  | some p =>
    obtain ⟨g₁, g₂⟩ := p
    have P := I.tables g₁ g₂ hp
    have hg : g = g₁ ∨ g = g₂ := by
      obtain rfl | ⟨-, h⟩ := hs
      · have := P.cur
        split at this
        · exact .inr this
        · exact .inl this
      · rw [hp] at h
        exact .inl (Prod.mk.inj (Option.some.inj h)).1.symm
    obtain rfl | rfl := hg
    · have := P.new
      rw [hn] at this
      split at this
      · rw [Option.some.inj this]
      · cases this
    · rw [P.none] at hn
      cases hn

theorem Inv.used_new (I : Inv c D) (hs : Snap c g) (hn : (c.tab g).new = some g') : Used c g' :=
  .inr ⟨g, g', I.pair_new hs hn, .inr rfl⟩

/-- The two tables use different links. -/
theorem Inv.idx_ne (I : Inv c D) (hg : Used c g) (hg' : Used c g') (hne : g ≠ g') :
    (c.tab g).idx ≠ (c.tab g').idx := by
  have hpair : ∃ g₁ g₂, pair c.res = some (g₁, g₂) := by
    obtain rfl | ⟨g₁, g₂, hp, -⟩ := hg
    · obtain rfl | ⟨g₁, g₂, hp, -⟩ := hg'
      · exact absurd rfl hne
      · exact ⟨g₁, g₂, hp⟩
    · exact ⟨g₁, g₂, hp⟩
  obtain ⟨g₁, g₂, hp⟩ := hpair
  have P := I.tables g₁ g₂ hp
  have hof : ∀ {g}, Used c g → g = g₁ ∨ g = g₂ := by
    rintro g (rfl | ⟨g₃, g₄, hp', hg⟩)
    · have := P.cur
      split at this
      · exact .inr this
      · exact .inl this
    · rw [hp] at hp'
      obtain ⟨rfl, rfl⟩ := Prod.mk.inj (Option.some.inj hp')
      exact hg
  obtain rfl | rfl := hof hg <;> obtain rfl | rfl := hof hg'
  · exact absurd rfl hne
  · rw [P.idx]
    simp
  · rw [P.idx]
    simp
  · exact absurd rfl hne

/-- After the switch the new table is `ht_cur`. -/
theorem Inv.late_cur (I : Inv c D) (hp : pair c.res = some (g, g')) (hlate : late c.res = true) :
    c.cur = g' := by
  have := (I.tables g g' hp).cur
  rwa [hlate] at this

/-! ### What a step leaves of the sections of others -/

/-- What thread `u` relies on is as before. -/
structure Frame (c c' : Core n E K) (u : Fin n) : Prop where
  key : c'.key = c.key
  bucket : ∀ g, Used c g → ∀ k, c'.bucket g k = c.bucket g k
  idx : ∀ g, Used c g → (c'.tab g).idx = (c.tab g).idx
  snap : ∀ g, snapOf (c.loc u) = some g → Snap c g → Snap c' g
  alone : ∀ k, c.lock (c.cur, c.bucket c.cur k) = some (.thread u) →
    (c.tab c.cur).resizeCur < (c.bucket c.cur k : ℤ) →
    c.cur = c'.cur ∧ (c'.tab c.cur).resizeCur < (c.bucket c.cur k : ℤ)
  resizeCur : ∀ g, Used c g → (c.tab g).resizeCur ≤ (c'.tab g).resizeCur
  new : ∀ g x, Used c g → (c.tab g).new = some x → (c'.tab g).new = some x
  lock : ∀ x, c.lock x = some (.thread u) → c'.lock x = some (.thread u)
  live : ∀ x, Used c x.1 → c.lock x = some (.thread u) → live c'.toHeap x = live c.toHeap x
  out : ∀ g e, Used c g → c.lock (g, c.bucket g (c.key e)) = some (.thread u) →
    c'.out g e = c.out g e
  dead : ∀ e, c.lock (c.cur, c.bucket c.cur (c.key e)) = some (.thread u) → c'.dead e = c.dead e
  pool : ∀ e ∈ c.pool, e ∈ c'.pool

theorem Frame.mem (F : Frame c c' u) (hg : Used c g)
    (hl : c.lock (g, c.bucket g (c.key e)) = some (.thread u)) :
    Mem c'.toHeap g e ↔ Mem c.toHeap g e := by
  have hb : c'.bucket g (c'.key e) = c.bucket g (c.key e) := by rw [F.key, F.bucket g hg]
  unfold Mem
  rw [hb, F.live (g, c.bucket g (c.key e)) hg hl]

/-- The bucket of an element of its key is one that a section has locked. -/
theorem Held.lock0 (H : Held c u op ls) (hk : c.key e = op.key) :
    c.lock (ls.hbp0.1, c.bucket ls.hbp0.1 (c.key e)) = some (.thread u) := by
  rw [hk, ← H.hbp0]
  exact H.lock

theorem Held.lock1 (H : Held c u op ls) (hx : ls.hbp1 = some x) (hk : c.key e = op.key) :
    c.lock (x.1, c.bucket x.1 (c.key e)) = some (.thread u) := by
  obtain ⟨-, -, h2, hl⟩ := H.both x hx
  rw [hk, ← h2]
  exact hl

theorem Held.used (I : Inv c D) (H : Held c u op ls) (hx : ls.hbp1 = some x) : Used c x.1 :=
  I.used_new H.snap (H.both x hx).2.1

/-- A section has the lock of the bucket of its key in `ht_cur`. -/
theorem Held.own (I : Inv c D) (H : Held c u op ls) (hk : c.key e = op.key) :
    c.lock (c.cur, c.bucket c.cur (c.key e)) = some (.thread u) := by
  obtain hg | ⟨-, hp⟩ := H.snap
  · rw [← hg]
    exact H.lock0 hk
  · cases hx : ls.hbp1 with
    | none =>
      rw [← (H.alone hx).1]
      exact H.lock0 hk
    | some x =>
      have := I.pair_new H.snap (H.both x hx).2.1
      rw [hp] at this
      rw [(Prod.mk.inj (Option.some.inj this)).2]
      exact H.lock1 hx hk

theorem Held.frame (I : Inv c D) (F : Frame c c' u) (hs : snapOf (c.loc u) = some ls.hbp0.1)
    (H : Held c u op ls) : Held c' u op ls := by
  have hu := Used.snap H.snap
  refine ⟨by rw [F.bucket _ hu]; exact H.hbp0, F.snap _ hs H.snap, by rw [F.idx _ hu]; exact H.idx0,
    F.lock _ H.lock, fun hn => ?_, fun x hx => ?_⟩
  · obtain ⟨h1, h2⟩ := H.alone hn
    have hl := H.lock
    rw [show ls.hbp0 = (c.cur, c.bucket c.cur op.key) from Prod.ext h1 (h1 ▸ H.hbp0)] at hl
    obtain ⟨h3, h4⟩ := F.alone op.key hl h2
    rw [← h3, F.bucket _ (.inl rfl)]
    exact ⟨h1, h4⟩
  · obtain ⟨h1, h2, h3, h4⟩ := H.both x hx
    rw [F.bucket _ hu, F.bucket _ (Held.used I H hx)]
    exact ⟨h1.trans (F.resizeCur _ hu), F.new _ _ hu h2, h3, F.lock _ h4⟩

theorem Same.frame (I : Inv c D) (F : Frame c c' u) (H : Held c u op ls) (h : Same c op.key ls) :
    Same c' op.key ls := by
  intro x hx e hk
  rw [F.key] at hk
  rw [F.mem (Used.snap H.snap) (H.lock0 hk), F.mem (Held.used I H hx) (H.lock1 hx hk)]
  exact h x hx e hk

theorem Looking.frame (I : Inv c D) (F : Frame c c' u) (H : Held c u op ls)
    (h : Looking c op.key ls y) : Looking c' op.key ls y :=
  h.imp_left fun hs => ⟨hs.1, Same.frame I F H hs.2⟩

/-- The bucket of a lookup is locked. -/
theorem Looking.held (I : Inv c D) (H : Held c u op ls) (h : Looking c op.key ls y) :
    Used c y.1 ∧ c.lock y = some (.thread u) := by
  obtain ⟨rfl, -⟩ | hx := h
  · exact ⟨Used.snap H.snap, H.lock⟩
  · exact ⟨Held.used I H hx, (H.both y hx).2.2.2⟩

/-- **The frame lemma.** -/
theorem At.frame (I : Inv c D) (F : Frame c c' u) (hl : c.loc u = l) (h : At c u l) : At c' u l := by
  have hb : ∀ {g}, Snap c g → ∀ k, c'.bucket g k = c.bucket g k := fun hs => F.bucket _ (Used.snap hs)
  have hmem : ∀ {g e}, Used c g → c.lock (g, c.bucket g (c.key e)) = some (.thread u) →
      (Mem c'.toHeap g e ↔ Mem c.toHeap g e) := fun hg hl => F.mem hg hl
  have hsn : ∀ g, snapOf l = some g → Snap c g → Snap c' g := fun g hg => F.snap g (by rw [hl]; exact hg)
  cases l with
  | modBucket op g b => exact ⟨hsn g rfl h.1, by rw [hb h.1]; exact h.2⟩
  | modProgress op g b => exact ⟨hsn g rfl h.1, by rw [hb h.1]; exact h.2.1, F.lock _ h.2.2⟩
  | modNew op g b =>
    obtain ⟨h1, h2, h3, h4⟩ := h
    exact ⟨hsn g rfl h1, by rw [hb h1]; exact h2, F.lock _ h3, h4.trans (F.resizeCur g (Used.snap h1))⟩
  | modNewBucket op g b g' b' =>
    obtain ⟨h1, h2, h3, h4, h5, h6⟩ := h
    exact ⟨hsn g rfl h1, by rw [hb h1]; exact h2, F.lock _ h3, h4.trans (F.resizeCur g (Used.snap h1)),
      F.new g g' (Used.snap h1) h5, by rw [F.bucket _ (I.used_new h1 h5)]; exact h6⟩
  | lookCur op ls => exact Held.frame I F (by rw [hl]; rfl) h
  | lookHead op ls g b =>
    obtain ⟨H, hlook⟩ := h
    exact ⟨Held.frame I F (by rw [hl]; rfl) H, Looking.frame I F H hlook⟩
  | lookWalk op ls g b x =>
    obtain ⟨H, hlook, pre, post, hl', hx⟩ := h
    obtain ⟨hu, hlock⟩ := Looking.held I H hlook
    refine ⟨Held.frame I F (by rw [hl]; rfl) H, Looking.frame I F H hlook, pre, post, ?_, ?_⟩
    · rw [F.live (g, b) hu hlock]
      exact hl'
    · rw [F.idx g hu]
      exact hx
  | del op ls e =>
    obtain ⟨H, hk, h0, h1⟩ := h
    refine ⟨Held.frame I F (by rw [hl]; rfl) H, by rw [F.key]; exact hk, ?_, fun x hx => ?_⟩
    · exact (hmem (Used.snap H.snap) (H.lock0 hk)).mpr h0
    · exact (hmem (Held.used I H hx) (H.lock1 hx hk)).mpr (h1 x hx)
  | delNew op ls e =>
    obtain ⟨H, hk, hp, h0, x, hx, h1⟩ := h
    refine ⟨Held.frame I F (by rw [hl]; rfl) H, by rw [F.key]; exact hk, F.pool e hp, ?_, x, hx, ?_⟩
    · rwa [hmem (Used.snap H.snap) (H.lock0 hk)]
    · exact (hmem (Held.used I H hx) (H.lock1 hx hk)).mpr h1
  | add op ls => exact Held.frame I F (by rw [hl]; rfl) h
  | addNew op ls e =>
    obtain ⟨H, hk, hp, hd, h0, x, hx, h1, ho⟩ := h
    refine ⟨Held.frame I F (by rw [hl]; rfl) H, by rw [F.key]; exact hk, F.pool e hp,
      (F.dead e (H.own I hk)).trans hd, ?_, x, hx, ?_,
      (F.out x.1 e (Held.used I H hx) (H.lock1 hx hk)).trans ho⟩
    · exact (hmem (Used.snap H.snap) (H.lock0 hk)).mpr h0
    · rwa [hmem (Held.used I H hx) (H.lock1 hx hk)]
  | unlockOld ls => exact ⟨F.lock _ h.1, fun x hx => ⟨(h.2 x hx).1, F.lock _ (h.2 x hx).2⟩⟩
  | unlockNew x => exact F.lock _ h
  | _ => trivial

end Updates
end Hash
end Perfbook
