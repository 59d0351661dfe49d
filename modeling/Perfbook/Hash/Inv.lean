/-
# What holds while update sections run whole between the steps of a resize

In each state `ht_cur` holds the elements added and not deleted. While a resize
runs, the new table holds those of them whose old bucket was moved and the
elements `D` of the bucket that is being moved, but for the element that a
section is just adding to, or deleting from, both tables (`inNew`).

Key definitions: `Found`, `Done`, `LocInv`, `inNew`, `Inv`.
Key theorems: `Inv.walk`, `Inv.resWalk`, `Inv.publish`, `Inv.setCur`,
`Inv.switch`, `Inv.moveElem`, `Inv.del`, `Inv.delNew`, `Inv.addFirst`,
`Inv.addNew`, `Inv.alloc`.
-/
import Perfbook.Conc.Lock
import Perfbook.Hash.Has

namespace Perfbook
namespace Hash

open Conc

variable {n : ℕ} {E K : Type}

/-! ### The invariant -/

def Loc.isIdle : Loc E K → Bool
  | .idle => true
  | _ => false

/-- What a lookup of `k` finds is in the table, and if it finds nothing, nothing is. -/
def Found (c : Core n E K) (abs : E → Bool) (k : K) : Option E → Prop
  | some e => c.key e = k ∧ abs e = true
  | none => ∀ e, abs e = true → c.key e ≠ k

/-- The table that is replaced, and the new one, until the switch. -/
def Res.building : Res E → Option (ℕ × ℕ)
  | .publish g g' | .sync g g' | .wait g g' | .bucket g g' _ | .first g g' _ | .walk g g' _ _
  | .newBucket g g' _ _ _ | .link g g' _ _ _ | .newUnlock g g' _ _ _ | .nextElem g g' _ _
  | .setCur g g' _ | .unlock g g' _ | .switch g g' => some (g, g')
  | _ => none

/-- The new table is in `ht_new`. -/
def Res.published : Res E → Bool
  | .publish _ _ => false
  | _ => true

/-- The bucket that the resizer has locked. -/
def Res.bucketLock : Res E → Option (ℕ × ℕ)
  | .first g _ i | .walk g _ i _ | .newBucket g _ i _ _ | .link g _ i _ _ | .newUnlock g _ i _ _
  | .nextElem g _ i _ | .setCur g _ i | .unlock g _ i => some (g, i)
  | _ => none

/-- The table that has become `ht_cur`. -/
def Res.switched : Res E → Option ℕ
  | .sync2 _ g' | .wait2 _ g' | .free _ g' => some g'
  | _ => none

/-- How far the resizer is: `D` are the elements of its bucket that it has moved. -/
def Done (h : Heap E K) (D : List E) : Res E → Prop
  | .publish g _ | .sync g _ | .wait g _ => D = [] ∧ (h.tab g).resizeCur = -1
  | .bucket g _ i | .first g _ i => D = [] ∧ (h.tab g).resizeCur = (i : ℤ) - 1
  | .walk g _ i c => (h.tab g).resizeCur = (i : ℤ) - 1 ∧ ∃ post, live h (g, i) = D ++ post ∧
      c = first (Cell.link · (h.tab g).idx) (.head g i) post
  | .newBucket g g' i e b' | .link g g' i e b' => (h.tab g).resizeCur = (i : ℤ) - 1 ∧
      b' = h.bucket g' (h.key e) ∧ ∃ post, live h (g, i) = D ++ e :: post
  | .newUnlock g _ i e _ | .nextElem g _ i e => (h.tab g).resizeCur = (i : ℤ) - 1 ∧
      ∃ pre post, D = pre ++ [e] ∧ live h (g, i) = pre ++ e :: post
  | .setCur g _ i => (h.tab g).resizeCur = (i : ℤ) - 1 ∧ D = live h (g, i)
  | .unlock g _ i => D = [] ∧ (h.tab g).resizeCur = i
  | .switch g _ => D = [] ∧ ((h.tab g).nbuckets : ℤ) ≤ (h.tab g).resizeCur + 1
  | .idle | .sync2 _ _ | .wait2 _ _ | .free _ _ => D = []

/-- The element that is added to the new table next. -/
def adding : Loc E K → Option E
  | .addNew _ _ e => some e
  | _ => none

/-- The element that is deleted from the new table next. -/
def deleting : Loc E K → Option E
  | .delNew _ _ e => some e
  | _ => none

/-- What a section has locked. -/
structure Locked (c : Core n E K) (t : Fin n) (op : Op K) (ls : LockState) : Prop where
  hbp0 : ls.hbp0 = (c.cur, c.bucket c.cur op.key)
  idx0 : ls.idx0 = (c.tab c.cur).idx
  lock : c.lock ls.hbp0 = some (.thread t)
  alone : ls.hbp1 = none → (c.tab c.cur).resizeCur < (c.bucket c.cur op.key : ℤ)
  both : ∀ x, ls.hbp1 = some x → (c.bucket c.cur op.key : ℤ) ≤ (c.tab c.cur).resizeCur ∧
    (c.tab c.cur).new = some x.1 ∧ x.2 = c.bucket x.1 op.key

/-- A lookup of `k` has passed elements of its bucket that have other keys. -/
structure AtCell (c : Core n E K) (k : K) (g b : ℕ) (x : Cell E) : Prop where
  cur : g = c.cur
  bucket : b = c.bucket c.cur k
  cell : ∃ pre post, live c.toHeap (g, b) = pre ++ post ∧ (∀ e ∈ pre, c.key e ≠ k) ∧
    x = first (Cell.link · (c.tab g).idx) (.head g b) post

/-- What holds at each place of a lookup and of an update section. -/
def LocInv (c : Core n E K) (abs : E → Bool) (t : Fin n) : Loc E K → Prop
  | .readHead k g b => g = c.cur ∧ b = c.bucket c.cur k
  | .readWalk k g b x => AtCell c k g b x
  | .readUnlock k x => Found c abs k x
  | .modBucket op g b => g = c.cur ∧ b = c.bucket c.cur op.key
  | .modProgress op g b => (g = c.cur ∧ b = c.bucket c.cur op.key) ∧ c.lock (g, b) = some (.thread t)
  | .modNew op g b => (g = c.cur ∧ b = c.bucket c.cur op.key) ∧ c.lock (g, b) = some (.thread t) ∧
      (b : ℤ) ≤ (c.tab c.cur).resizeCur
  | .modNewBucket op g b g' b' => (g = c.cur ∧ b = c.bucket c.cur op.key) ∧
      c.lock (g, b) = some (.thread t) ∧ (b : ℤ) ≤ (c.tab c.cur).resizeCur ∧
      (c.tab c.cur).new = some g' ∧ b' = c.bucket g' op.key
  | .lookCur op ls => Locked c t op ls
  | .lookHead op ls g b => Locked c t op ls ∧ g = c.cur ∧ b = c.bucket c.cur op.key
  | .lookWalk op ls g b x => Locked c t op ls ∧ AtCell c op.key g b x
  | .del op ls e => Locked c t op ls ∧ Found c abs op.key (some e)
  | .delNew op ls e => Locked c t op ls ∧ c.key e = op.key ∧ abs e = false ∧ e ∈ c.pool
  | .add op ls => Locked c t op ls ∧ (op.look = true → Found c abs op.key none)
  | .addNew op ls e => Locked c t op ls ∧ c.key e = op.key ∧ abs e = true
  | .unlockOld ls => c.lock ls.hbp0 = some (.thread t) ∧ ∀ x, ls.hbp1 = some x → x.1 ≠ c.cur
  | .unlockNew x => x.1 ≠ c.cur
  | _ => True

/-- The elements of the new table. -/
def inNew (c : Core n E K) (abs : E → Bool) (D : List E) (e : E) : Prop :=
  (abs e = true ∧ ((c.bucket c.cur (c.key e) : ℤ) ≤ (c.tab c.cur).resizeCur ∨ e ∈ D) ∧
    ∀ t, adding (c.loc t) ≠ some e) ∨ ∃ t, deleting (c.loc t) = some e

/-- A new table and the one it replaces. -/
structure Built (c : Core n E K) (g g' : ℕ) : Prop where
  cur : g = c.cur
  ne : g' ≠ c.cur
  lt : g' < c.tables
  pos : 0 < (c.tab g').nbuckets
  idx : (c.tab g').idx = !(c.tab c.cur).idx
  none : (c.tab g').new = none
  resizeCur : (c.tab g').resizeCur = -1
  published : (c.tab c.cur).new = if c.res.published then some g' else Option.none

/-- The invariant. -/
structure Inv (c : Core n E K) (abs : E → Bool) (D : List E) : Prop where
  cur : Has c.toHeap c.cur (fun e => abs e = true)
  pos : 0 < (c.tab c.cur).nbuckets
  lt : c.cur < c.tables
  pool : ∀ e, abs e = true → e ∈ c.pool
  out : ∀ e, c.out c.cur e = true → e ∈ c.pool ∧ abs e = false
  rest : c.res.building = none → (c.tab c.cur).new = none ∧ (c.tab c.cur).resizeCur = -1
  built : ∀ g g', c.res.building = some (g, g') → Built c g g'
  outNew : ∀ g g', c.res.building = some (g, g') → ∀ e, c.out g' e = true → e ∈ c.pool ∧ abs e = false
  new : ∀ g g', c.res.building = some (g, g') → Has c.toHeap g' (inNew c abs D)
  done : Done c.toHeap D c.res
  lock : ∀ x, c.res.bucketLock = some x → c.lock x = some .resizer
  switched : ∀ g', c.res.switched = some g' → c.cur = g'
  loc : ∀ t, LocInv c abs t (c.loc t)

variable {c : Core n E K} {abs : E → Bool} {D D' : List E} {t u : Fin n} {l : Loc E K} {op : Op K}
  {ls : LockState} {e : E} {g g' i b' : ℕ}

theorem eq_idle {x : Loc E K} (hx : x.isIdle = true) : x = .idle := by
  cases x <;> first | rfl | cases hx

theorem locInv_idle (hi : ∀ u, (c.loc u).isIdle = true) (t : Fin n) : LocInv c abs t (c.loc t) := by
  rw [eq_idle (hi t)]
  trivial

/-- Nothing is between the two tables when no section runs. -/
theorem inNew_idle (hi : ∀ u, (c.loc u).isIdle = true) : inNew c abs D e ↔
    abs e = true ∧ ((c.bucket c.cur (c.key e) : ℤ) ≤ (c.tab c.cur).resizeCur ∨ e ∈ D) := by
  have hadd : ∀ t, adding (c.loc t) ≠ some e := fun t => by rw [eq_idle (hi t)]; simp [adding]
  have hdel : ¬ ∃ t, deleting (c.loc t) = some e := by
    rintro ⟨t, ht⟩
    rw [eq_idle (hi t)] at ht
    cases ht
  rw [inNew, or_iff_left hdel]
  exact ⟨fun h => ⟨h.1, h.2.1⟩, fun h => ⟨h.1, h.2, hadd⟩⟩

/-- What the resizer has moved is in the bucket that it has locked. -/
theorem Inv.moved (h : Inv c abs D) (he : e ∈ D) :
    c.res.bucketLock = some (c.cur, c.bucket c.cur (c.key e)) := by
  have hd := h.done
  cases hr : c.res with
  | idle | sync2 | wait2 | free =>
    rw [hr] at hd
    rw [show D = [] from hd] at he
    cases he
  | publish | sync | wait | bucket | first | unlock | switch =>
    rw [hr] at hd
    rw [hd.1] at he
    cases he
  | walk g g₁ i x =>
    rw [hr] at hd
    obtain ⟨-, post, hl, -⟩ := hd
    obtain rfl := (h.built g g₁ (by rw [hr]; rfl)).cur
    have hm := (h.cur.mem i e).mp (by rw [hl]; exact List.mem_append_left _ he)
    rw [← hm.1]
    rfl
  | newBucket g g₁ i a b₁ | link g g₁ i a b₁ =>
    rw [hr] at hd
    obtain ⟨-, -, post, hl⟩ := hd
    obtain rfl := (h.built g g₁ (by rw [hr]; rfl)).cur
    have hm := (h.cur.mem i e).mp (by rw [hl]; exact List.mem_append_left _ he)
    rw [← hm.1]
    rfl
  | newUnlock g g₁ i a b₁ | nextElem g g₁ i a =>
    rw [hr] at hd
    obtain ⟨-, pre, post, rfl, hl⟩ := hd
    obtain rfl := (h.built g g₁ (by rw [hr]; rfl)).cur
    have hm := (h.cur.mem i e).mp (by
      rw [hl]
      simp only [List.mem_append, List.mem_cons] at he ⊢
      tauto)
    rw [← hm.1]
    rfl
  | setCur g g₁ i =>
    rw [hr] at hd
    obtain ⟨-, rfl⟩ := hd
    obtain rfl := (h.built g g₁ (by rw [hr]; rfl)).cur
    rw [← ((h.cur.mem i e).mp he).1]
    rfl

/-- What is locked does not depend on where the threads are. -/
theorem Locked.goto {loc : Fin n → Loc E K} {gp : Fin n → Bool} (hl : Locked c t op ls) :
    Locked { c with loc := loc, gp := gp } t op ls :=
  ⟨hl.hbp0, hl.idx0, hl.lock, hl.alone, hl.both⟩

/-- A section that has locked one bucket only has an element that is not moved. -/
theorem Inv.not_moved (h : Inv c abs D) (hl : Locked c t op ls) (hk : c.key e = op.key)
    (hn : ls.hbp1 = none) :
    ¬ ((c.bucket c.cur (c.key e) : ℤ) ≤ (c.tab c.cur).resizeCur ∨ e ∈ D) := by
  rintro (hle | hm)
  · have := hl.alone hn
    rw [hk] at hle
    omega
  · have hlock := h.lock _ (h.moved hm)
    rw [hk, ← hl.hbp0, hl.lock] at hlock
    cases hlock

/-- `ht_new` is the table that is being built. -/
theorem Inv.building (h : Inv c abs D) (hn : (c.tab c.cur).new = some g') :
    ∃ g, c.res.building = some (g, g') := by
  cases hb : c.res.building with
  | none =>
    have := (h.rest hb).1
    rw [hn] at this
    cases this
  | some x =>
    obtain ⟨g, g₁⟩ := x
    have := (h.built g g₁ hb).published
    rw [hn] at this
    split at this
    · obtain rfl := Option.some.inj this
      exact ⟨g, rfl⟩
    · cases this

/-- The resizer locks buckets of `ht_cur`. -/
theorem Inv.bucketLock_cur {x : ℕ × ℕ} (h : Inv c abs D) (hx : c.res.bucketLock = some x) :
    x.1 = c.cur := by
  have hb : ∃ g', c.res.building = some (x.1, g') := by
    cases hr : c.res <;> rw [hr] at hx <;> simp [Res.bucketLock] at hx <;> subst hx <;> exact ⟨_, rfl⟩
  obtain ⟨g', hb⟩ := hb
  exact (h.built _ _ hb).cur

/-! ### Steps -/

/-- A thread goes on, and touches neither tables nor elements. -/
theorem Inv.walk {lk : ℕ × ℕ → Option (Who n)} {gp : Fin n → Bool} (h : Inv c abs D)
    (hi : ∀ u, u ≠ t → (c.loc u).isIdle = true) (hadd : adding l = adding (c.loc t))
    (hdel : deleting l = deleting (c.loc t))
    (hlock : ∀ x, c.res.bucketLock = some x → lk x = some .resizer)
    (hl : LocInv { c with lock := lk, loc := Function.update c.loc t l, gp := gp } abs t l) :
    Inv { c with lock := lk, loc := Function.update c.loc t l, gp := gp } abs D where
  cur := h.cur
  pos := h.pos
  lt := h.lt
  pool := h.pool
  out := h.out
  rest := h.rest
  built g g' hb :=
    let B := h.built g g' hb
    ⟨B.cur, B.ne, B.lt, B.pos, B.idx, B.none, B.resizeCur, B.published⟩
  outNew := h.outNew
  new g g' hb := by
    refine (h.new g g' hb).of fun e => ?_
    have ha : ∀ u, adding (Function.update c.loc t l u) = adding (c.loc u) :=
      forall_update (P := fun u y => adding y = adding (c.loc u)) rfl hadd fun _ _ => rfl
    have hd : ∀ u, deleting (Function.update c.loc t l u) = deleting (c.loc u) :=
      forall_update (P := fun u y => deleting y = deleting (c.loc u)) rfl hdel fun _ _ => rfl
    simp only [inNew, ha, hd]
  done := h.done
  lock := hlock
  switched := h.switched
  loc u := by
    by_cases hu : u = t
    · subst hu
      show LocInv _ abs u (Function.update c.loc u l u)
      rw [Function.update_self]
      exact hl
    · show LocInv _ abs u (Function.update c.loc t l u)
      rw [Function.update_of_ne hu, eq_idle (hi u hu)]
      trivial

/-- The resizer goes on, and touches neither tables nor elements. -/
theorem Inv.resWalk {r : Res E} {lk : ℕ × ℕ → Option (Who n)} {gp : Fin n → Bool} (h : Inv c abs D)
    (hi : ∀ u, (c.loc u).isIdle = true) (hb : r.building = c.res.building)
    (hp : r.published = c.res.published) (hdone : Done c.toHeap D r)
    (hlock : ∀ x, r.bucketLock = some x → lk x = some .resizer)
    (hsw : ∀ g', r.switched = some g' → c.cur = g') :
    Inv { c with res := r, lock := lk, gp := gp } abs D where
  cur := h.cur
  pos := h.pos
  lt := h.lt
  pool := h.pool
  out := h.out
  rest := fun hr => h.rest (hb ▸ hr)
  built g g' hr :=
    let B := h.built g g' (hb ▸ hr)
    ⟨B.cur, B.ne, B.lt, B.pos, B.idx, B.none, B.resizeCur, by rw [hp]; exact B.published⟩
  outNew g g' hr := h.outNew g g' (hb ▸ hr)
  new g g' hr := (h.new g g' (hb ▸ hr)).of fun _ => Iff.rfl
  done := hdone
  lock := hlock
  switched := hsw
  loc := locInv_idle (c := { c with res := r, lock := lk, gp := gp }) hi

/-- A store to `ht_new` or `ht_resize_cur` of a table leaves what the tables hold. -/
theorem Has.setTab {h : Heap E K} {M : E → Prop} {T : Table K} (hs : Has h g M) (g₁ : ℕ)
    (hidx : T.idx = (h.tab g₁).idx) (hbucket : ∀ k, T.bucket k = (h.tab g₁).bucket k) :
    Has { h with tab := Function.update h.tab g₁ T } g M := by
  have hT : ∀ g, (Function.update h.tab g₁ T g).idx = (h.tab g).idx ∧
      ∀ k, (Function.update h.tab g₁ T g).bucket k = (h.tab g).bucket k := by
    intro g
    by_cases hg : g = g₁
    · rw [hg, Function.update_self]
      exact ⟨hidx, hbucket⟩
    · rw [Function.update_of_ne hg]
      exact ⟨rfl, fun _ => rfl⟩
  exact hs.congr (hT g).1 (fun e => (hT g).2 _) (fun _ => rfl) (fun _ => ⟨rfl, rfl⟩)
    (fun _ _ => ⟨rfl, rfl⟩) fun _ => Iff.rfl

/-- The resizer stores to a field of the table that it replaces. -/
theorem Inv.setTab {T : Table K} {r : Res E} (h : Inv c abs D) (hi : ∀ u, (c.loc u).isIdle = true)
    (hb : c.res.building = some (c.cur, g')) (hr : r.building = some (c.cur, g'))
    (hidx : T.idx = (c.tab c.cur).idx) (hn : T.nbuckets = (c.tab c.cur).nbuckets)
    (hbucket : ∀ k, T.bucket k = (c.tab c.cur).bucket k)
    (hnew : T.new = if r.published then some g' else none)
    (hdone : Done { c.toHeap with tab := Function.update c.tab c.cur T } D' r)
    (hlock : ∀ x, r.bucketLock = some x → c.lock x = some .resizer)
    (hmoved : ∀ e, abs e = true → (((T.bucket (c.key e) : ℤ) ≤ T.resizeCur ∨ e ∈ D') ↔
      ((T.bucket (c.key e) : ℤ) ≤ (c.tab c.cur).resizeCur ∨ e ∈ D))) :
    Inv { c with tab := Function.update c.tab c.cur T, res := r } abs D' := by
  have B := h.built _ _ hb
  set tab' := Function.update c.tab c.cur T with htab'
  have hself : tab' c.cur = T := Function.update_self ..
  have hother : tab' g' = c.tab g' := Function.update_of_ne B.ne _ _
  exact
    { cur := h.cur.setTab c.cur hidx hbucket
      pos := by
        show 0 < (tab' c.cur).nbuckets
        rw [hself, hn]
        exact h.pos
      lt := h.lt
      pool := h.pool
      out := h.out
      rest := fun hx => by
        rw [show r.building = none from hx] at hr
        cases hr
      built := fun g₁ g₂ hb₁ => by
        obtain ⟨rfl, rfl⟩ := Prod.mk.inj (Option.some.inj (hr.symm.trans hb₁))
        constructor
        · rfl
        · exact B.ne
        · exact B.lt
        · show 0 < (tab' g').nbuckets
          rw [hother]
          exact B.pos
        · show (tab' g').idx = !(tab' c.cur).idx
          rw [hother, hself, hidx]
          exact B.idx
        · show (tab' g').new = none
          rw [hother]
          exact B.none
        · show (tab' g').resizeCur = -1
          rw [hother]
          exact B.resizeCur
        · show (tab' c.cur).new = _
          rw [hself, hnew]
      outNew := fun g₁ g₂ hb₁ => by
        obtain ⟨rfl, rfl⟩ := Prod.mk.inj (Option.some.inj (hr.symm.trans hb₁))
        exact h.outNew _ _ hb
      new := fun g₁ g₂ hb₁ => by
        obtain ⟨rfl, rfl⟩ := Prod.mk.inj (Option.some.inj (hr.symm.trans hb₁))
        refine ((h.new _ _ hb).setTab c.cur hidx hbucket).of fun e => ?_
        refine (inNew_idle (c := { c with tab := tab', res := r }) hi).trans
          (Iff.trans ?_ (inNew_idle hi).symm)
        refine and_congr_right fun he => ?_
        show (((tab' c.cur).bucket (c.key e) : ℕ) : ℤ) ≤ (tab' c.cur).resizeCur ∨ _ ↔ _
        rw [hself]
        refine (hmoved e he).trans ?_
        rw [hbucket]
        exact Iff.rfl
      done := hdone
      lock := hlock
      switched := fun _ hx => by
        cases r <;> cases hr <;> cases hx
      loc := locInv_idle (c := { c with tab := tab', res := r }) hi }

/-- `rcu_assign_pointer(htp->ht_new, htp_new)`. -/
theorem Inv.publish (h : Inv c abs D) (hi : ∀ u, (c.loc u).isIdle = true)
    (hr : c.res = .publish g g') :
    Inv { c with
      tab := Function.update c.tab g { c.tab g with new := some g' }
      res := .sync g g' } abs D := by
  have hb : c.res.building = some (g, g') := by rw [hr]; rfl
  obtain rfl := (h.built g g' hb).cur
  have hd := h.done
  rw [hr] at hd
  refine h.setTab hi hb rfl rfl rfl (fun _ => rfl) rfl ⟨hd.1, ?_⟩ (fun _ hx => nomatch hx)
    fun _ _ => Iff.rfl
  show (Function.update c.tab c.cur _ c.cur).resizeCur = -1
  rw [Function.update_self]
  exact hd.2

/-- `WRITE_ONCE(htp->ht_resize_cur, i)`: all of the bucket was moved. -/
theorem Inv.setCur (h : Inv c abs D) (hi : ∀ u, (c.loc u).isIdle = true)
    (hr : c.res = .setCur g g' i) :
    Inv { c with
      tab := Function.update c.tab g { c.tab g with resizeCur := i }
      res := .unlock g g' i } abs [] := by
  have hb : c.res.building = some (g, g') := by rw [hr]; rfl
  obtain rfl := (h.built g g' hb).cur
  have hd := h.done
  rw [hr] at hd
  obtain ⟨hcur, rfl⟩ := hd
  refine h.setTab hi hb rfl rfl rfl (fun _ => rfl) ?_ ⟨rfl, ?_⟩ (fun x hx => h.lock x (by rw [hr]; exact hx))
    fun e he => ?_
  · have hp := (h.built c.cur g' hb).published
    rwa [hr] at hp
  · show (Function.update c.tab c.cur _ c.cur).resizeCur = _
    rw [Function.update_self]
  · rw [h.cur.mem, hcur]
    show ((c.bucket c.cur (c.key e) : ℤ) ≤ i ∨ e ∈ []) ↔ ((c.bucket c.cur (c.key e) : ℤ) ≤ i - 1 ∨ _)
    simp only [List.not_mem_nil, or_false, he, and_true]
    omega

/-- `rcu_assign_pointer(htp_master->ht_cur, htp_new)`: all the elements are in the new table. -/
theorem Inv.switch (h : Inv c abs D) (hi : ∀ u, (c.loc u).isIdle = true)
    (hr : c.res = .switch g g') : Inv { c with cur := g', res := .sync2 g g' } abs [] := by
  have hb : c.res.building = some (g, g') := by rw [hr]; rfl
  have B := h.built g g' hb
  obtain rfl := B.cur
  have hd := h.done
  rw [hr] at hd
  have hall : ∀ e, abs e = true ↔ inNew c abs D e := by
    intro e
    rw [inNew_idle hi]
    refine ⟨fun he => ⟨he, .inl ?_⟩, And.left⟩
    have hlt : c.bucket c.cur (c.key e) < (c.tab c.cur).nbuckets := Nat.mod_lt _ h.pos
    have := hd.2
    omega
  exact
    { cur := (h.new _ _ hb).congr rfl (fun _ => rfl) (fun _ => rfl) (fun _ => ⟨rfl, rfl⟩)
        (fun _ _ => ⟨rfl, rfl⟩) hall
      pos := B.pos
      lt := B.lt
      pool := h.pool
      out := h.outNew _ _ hb
      rest := fun _ => ⟨B.none, B.resizeCur⟩
      built := fun _ _ hx => nomatch hx
      outNew := fun _ _ hx => nomatch hx
      new := fun _ _ hx => nomatch hx
      done := rfl
      lock := fun _ hx => nomatch hx
      switched := fun _ hx => Option.some.inj hx
      loc := locInv_idle (c := { c with cur := g', res := .sync2 c.cur g' }) hi }

/-- The elements of the new table while one section may run. -/
theorem inNew_at {a : E} (hi : ∀ u, u ≠ t → (c.loc u).isIdle = true) : inNew c abs D a ↔
    (abs a = true ∧ ((c.bucket c.cur (c.key a) : ℤ) ≤ (c.tab c.cur).resizeCur ∨ a ∈ D) ∧
      adding (c.loc t) ≠ some a) ∨ deleting (c.loc t) = some a := by
  have hadd : (∀ u, adding (c.loc u) ≠ some a) ↔ adding (c.loc t) ≠ some a := by
    refine ⟨fun h => h t, fun h u => ?_⟩
    by_cases hu : u = t
    · rwa [hu]
    · rw [eq_idle (hi u hu)]
      simp [adding]
  have hdel : (∃ u, deleting (c.loc u) = some a) ↔ deleting (c.loc t) = some a := by
    refine ⟨fun ⟨u, hu⟩ => ?_, fun h => ⟨t, h⟩⟩
    by_cases hut : u = t
    · rwa [← hut]
    · rw [eq_idle (hi u hut)] at hu
      cases hu
  rw [inNew, hadd, hdel]

/-- How far the resizer is depends on its bucket only. -/
theorem Done.congr {h h' : Heap E K} {r : Res E} (hd : Done h D r) (htab : h'.tab = h.tab)
    (hkey : h'.key = h.key) (hlive : ∀ x, r.bucketLock = some x → live h' x = live h x) :
    Done h' D r := by
  cases r with
  | idle | sync2 | wait2 | free => exact hd
  | publish | sync | wait | bucket | first | unlock | switch =>
    simp only [Done, htab] at hd ⊢
    exact hd
  | walk g g' i x =>
    simp only [Done, htab, hlive _ rfl] at hd ⊢
    exact hd
  | newBucket | link =>
    simp only [Done, htab, hkey, hlive _ rfl, Heap.bucket] at hd ⊢
    exact hd
  | newUnlock | nextElem | setCur =>
    simp only [Done, htab, hlive _ rfl] at hd ⊢
    exact hd

/-- A section changes the lists. -/
theorem Inv.elem {lk : Links (Cell E)} {hs : ℕ × ℕ → List E} {ot : ℕ → E → Bool} {hm : E → Bool → ℕ}
    {pl : List E} {dd : E → Bool} {abs' : E → Bool} {c' : Core n E K} (h : Inv c abs D)
    (hc' : c' = { c with
      links := lk, hist := hs, out := ot, home := hm, pool := pl
      loc := Function.update c.loc t l, dead := dd })
    (hi : ∀ u, u ≠ t → (c.loc u).isIdle = true) (hcur : Has c'.toHeap c.cur (fun e => abs' e = true))
    (hpool : ∀ e, abs' e = true → e ∈ pl) (hout : ∀ e, ot c.cur e = true → e ∈ pl ∧ abs' e = false)
    (houtNew : ∀ g g', c.res.building = some (g, g') → ∀ e, ot g' e = true → e ∈ pl ∧ abs' e = false)
    (hnew : ∀ g g', c.res.building = some (g, g') → Has c'.toHeap g' (inNew c' abs' D))
    (hlive : ∀ i, c.res.bucketLock = some (c.cur, i) →
      live c'.toHeap (c.cur, i) = live c.toHeap (c.cur, i))
    (hl : LocInv c' abs' t l) : Inv c' abs' D := by
  subst hc'
  exact
    { cur := hcur
      pos := h.pos
      lt := h.lt
      pool := hpool
      out := hout
      rest := h.rest
      built := fun g g' hb =>
        let B := h.built g g' hb
        ⟨B.cur, B.ne, B.lt, B.pos, B.idx, B.none, B.resizeCur, B.published⟩
      outNew := houtNew
      new := hnew
      done := h.done.congr rfl rfl fun x hx => by
        obtain ⟨g, i⟩ := x
        obtain rfl : g = c.cur := h.bucketLock_cur hx
        exact hlive i hx
      lock := h.lock
      switched := h.switched
      loc := fun u => by
        by_cases hu : u = t
        · subst hu
          show LocInv _ abs' u (Function.update c.loc u l u)
          rw [Function.update_self]
          exact hl
        · show LocInv _ abs' u (Function.update c.loc t l u)
          rw [Function.update_of_ne hu, eq_idle (hi u hu)]
          trivial }

/-- The resizer is not at the bucket that a section has locked. -/
theorem Inv.elsewhere (h : Inv c abs D) (hl : Locked c t op ls)
    (hi : c.res.bucketLock = some (c.cur, i)) : i ≠ c.bucket c.cur op.key := by
  rintro rfl
  have hlock := h.lock _ hi
  rw [← hl.hbp0, hl.lock] at hlock
  cases hlock

/-- The new bucket of a section is in the table that is being built. -/
theorem Inv.both (h : Inv c abs D) (hl : Locked c t op ls) {x : ℕ × ℕ} (hx : ls.hbp1 = some x) :
    c.res.building = some (c.cur, x.1) := by
  obtain ⟨g, hb⟩ := h.building (hl.both x hx).2.1
  rw [hb, (h.built g _ hb).cur]

theorem Inv.unlockOld (h : Inv c abs D) (hl : Locked c t op ls) :
    c.lock ls.hbp0 = some (.thread t) ∧ ∀ x, ls.hbp1 = some x → x.1 ≠ c.cur :=
  ⟨hl.lock, fun _ hx => (h.built _ _ (h.both hl hx)).ne⟩

section Elements

variable [DecidableEq E]

/-- The resizer links an element into the new table. -/
theorem Inv.moveElem (h : Inv c abs D) (hi : ∀ u, (c.loc u).isIdle = true)
    (hr : c.res = .link g g' i e b') :
    Inv { c with
      links := c.links.add (.link e (!(c.tab g).idx)) (.head g' b')
      hist := Function.update c.hist (g', b') (e :: c.hist (g', b'))
      home := Function.update c.home e (Function.update (c.home e) (!(c.tab g).idx) g')
      res := .newUnlock g g' i e b' } abs (D ++ [e]) := by
  have hb : c.res.building = some (g, g') := by rw [hr]; rfl
  have B := h.built g g' hb
  obtain rfl := B.cur
  have hd := h.done
  rw [hr] at hd
  obtain ⟨hcur, hb', post, hl⟩ := hd
  have hme := (h.cur.mem i e).mp (by rw [hl]; simp)
  have hnd := (h.cur.ring i).nodup
  rw [hl] at hnd
  have heD : e ∉ D := fun hm => (List.nodup_append.mp hnd).2.2 e hm e List.mem_cons_self rfl
  have hnot : ¬ inNew c abs D e := by
    rw [inNew_idle hi]
    rintro ⟨-, hle | hm⟩
    · rw [← hme.1] at hle
      omega
    · exact heD hm
  have hout : c.out g' e = false := by
    by_contra hne
    have := (h.outNew _ _ hb e (Bool.not_eq_false _ ▸ hne)).2
    rw [hme.2] at this
    cases this
  let c' : Core n E K := { c with
    links := c.links.add (.link e (!(c.tab c.cur).idx)) (.head g' b')
    hist := Function.update c.hist (g', b') (e :: c.hist (g', b'))
    home := Function.update c.home e (Function.update (c.home e) (!(c.tab c.cur).idx) g')
    res := .newUnlock c.cur g' i e b' }
  have hlinked : Has c'.toHeap g' (fun a => inNew c abs D a ∨ a = e) :=
    Has.link (x := (g', b')) rfl rfl rfl rfl rfl (h.new _ _ hb) B.idx.symm hb' hnot hout
  have hlive : live c'.toHeap (c.cur, i) = live c.toHeap (c.cur, i) := by
    have hne : (c.cur, i) ≠ (g', b') := fun he => B.ne (congrArg Prod.fst he).symm
    show List.filter _ (Function.update c.hist (g', b') _ (c.cur, i)) = _
    rw [Function.update_of_ne hne]
    rfl
  exact
    { cur := Has.frame_link (x := (g', b')) rfl rfl rfl rfl rfl h.cur (by simp) B.ne (h.new _ _ hb)
        B.idx.symm
      pos := h.pos
      lt := h.lt
      pool := h.pool
      out := h.out
      rest := fun hx => nomatch hx
      built := fun g₁ g₂ hb₁ => by
        obtain ⟨rfl, rfl⟩ := Prod.mk.inj (Option.some.inj hb₁)
        have hp := B.published
        rw [hr] at hp
        exact ⟨rfl, B.ne, B.lt, B.pos, B.idx, B.none, B.resizeCur, hp⟩
      outNew := fun g₁ g₂ hb₁ => by
        obtain ⟨rfl, rfl⟩ := Prod.mk.inj (Option.some.inj hb₁)
        exact h.outNew _ _ hb
      new := fun g₁ g₂ hb₁ => by
        obtain ⟨rfl, rfl⟩ := Prod.mk.inj (Option.some.inj hb₁)
        refine hlinked.of fun a => ?_
        refine (inNew_idle (c := c') hi).trans (Iff.trans ?_ (or_congr_left (inNew_idle hi)).symm)
        rw [List.mem_append, List.mem_singleton]
        constructor
        · rintro ⟨ha, hle | hm | rfl⟩
          · exact .inl ⟨ha, .inl hle⟩
          · exact .inl ⟨ha, .inr hm⟩
          · exact .inr rfl
        · rintro (⟨ha, hle | hm⟩ | rfl)
          · exact ⟨ha, .inl hle⟩
          · exact ⟨ha, .inr (.inl hm)⟩
          · exact ⟨hme.2, .inr (.inr rfl)⟩
      done := ⟨hcur, D, post, rfl, hlive.trans hl⟩
      lock := fun x hx => h.lock x (by rw [hr]; exact hx)
      switched := fun _ hx => nomatch hx
      loc := locInv_idle (c := c') hi }

/-- `cds_list_del_rcu` of the element, from its bucket in `ht_cur`. -/
theorem Inv.del {dd : E → Bool} (h : Inv c abs D) (hi : ∀ u, u ≠ t → (c.loc u).isIdle = true)
    (hl : c.loc t = .del op ls e) {l : Loc E K}
    (hx : ls.hbp1 = none ∧ l = .unlockOld ls ∨ ls.hbp1 ≠ none ∧ l = .delNew op ls e) :
    Inv { c with
      links := c.links.del (.link e ls.idx0)
      out := Function.update c.out ls.hbp0.1 (Function.update (c.out ls.hbp0.1) e true)
      loc := Function.update c.loc t l
      dead := dd } (Function.update abs e false) D := by
  have hlt := h.loc t
  rw [hl] at hlt
  obtain ⟨L, hk, he⟩ := hlt
  have hg : ls.hbp0.1 = c.cur := congrArg Prod.fst L.hbp0
  have habs : ∀ a, Function.update abs e false a = true ↔ abs a = true ∧ a ≠ e := by
    intro a
    by_cases ha : a = e
    · simp [ha]
    · simp [ha]
  have hfalse : ∀ a, abs a = false → Function.update abs e false a = false := by
    intro a ha
    by_cases hae : a = e
    · rw [hae, Function.update_self]
    · rwa [Function.update_of_ne hae]
  rw [hg]
  set c' : Core n E K := { c with
    links := c.links.del (.link e ls.idx0)
    out := Function.update c.out c.cur (Function.update (c.out c.cur) e true)
    loc := Function.update c.loc t l
    dead := dd } with hc'
  have hi' : ∀ u, u ≠ t → (c'.loc u).isIdle = true := fun u hu => by
    show (Function.update c.loc t l u).isIdle = true
    rw [Function.update_of_ne hu]
    exact hi u hu
  have hself : c'.loc t = l := Function.update_self ..
  have L' : Locked c' t op ls := ⟨L.hbp0, L.idx0, L.lock, L.alone, L.both⟩
  have hcur : Has c'.toHeap c.cur (fun a => abs a = true ∧ a ≠ e) :=
    Has.unlink rfl rfl rfl rfl rfl h.cur L.idx0 he
  have hnew : ∀ g g', c.res.building = some (g, g') → Has c'.toHeap g' (inNew c abs D) := fun g g' hb =>
    Has.frame_unlink rfl rfl rfl rfl rfl (h.new g g' hb) (by rw [(h.built g g' hb).idx, L.idx0]; simp)
      (h.built g g' hb).ne.symm h.cur L.idx0 he
  refine h.elem hc' hi (hcur.of habs)
    (fun a ha => h.pool a ((habs a).mp ha).1) (fun a ha => ?_) (fun g g' hb a ha => ?_)
    (fun g g' hb => ?_) (fun i hri => ?_) ?_
  · rw [Function.update_self] at ha
    by_cases hae : a = e
    · rw [hae, Function.update_self]
      exact ⟨h.pool e he, rfl⟩
    · rw [Function.update_of_ne hae] at ha
      exact ⟨(h.out a ha).1, hfalse a (h.out a ha).2⟩
  · rw [Function.update_of_ne (h.built g g' hb).ne] at ha
    exact ⟨(h.outNew g g' hb a ha).1, hfalse a (h.outNew g g' hb a ha).2⟩
  · refine (hnew g g' hb).of fun a => ?_
    rw [inNew_at hi', inNew_at hi, hself, hl]
    show (Function.update abs e false a = true ∧ ((c.bucket c.cur (c.key a) : ℤ) ≤ _ ∨ _) ∧ _) ∨ _ ↔ _
    rw [habs]
    rcases hx with ⟨hx, rfl⟩ | ⟨hx, rfl⟩
    · have hnot := h.not_moved L hk hx
      simp only [adding, deleting, ne_eq, reduceCtorEq, not_false_eq_true, and_true, or_false]
      constructor
      · exact fun ha => ⟨ha.1.1, ha.2⟩
      · refine fun ha => ⟨⟨ha.1, ?_⟩, ha.2⟩
        rintro rfl
        exact hnot ha.2
    · obtain ⟨x, hx⟩ := Option.ne_none_iff_exists'.mp hx
      have hle := (L.both x hx).1
      rw [← hk] at hle
      simp only [adding, deleting, ne_eq, reduceCtorEq, not_false_eq_true, and_true, or_false,
        Option.some.injEq]
      constructor
      · rintro (ha | rfl)
        · exact ⟨ha.1.1, ha.2⟩
        · exact ⟨he, .inl hle⟩
      · intro ha
        by_cases hae : a = e
        · exact .inr hae.symm
        · exact .inl ⟨⟨ha.1, hae⟩, ha.2⟩
  · have hne := h.elsewhere L hri
    refine List.filter_congr fun a ha => ?_
    show (!Function.update c.out c.cur (Function.update (c.out c.cur) e true) c.cur a) = _
    rw [Function.update_self]
    by_cases hae : a = e
    · subst hae
      rw [Function.update_self]
      by_contra hno
      have hout : c.out c.cur a = false := by
        cases ho : c.out c.cur a
        · rfl
        · rw [ho] at hno
          exact absurd rfl hno
      have hm : a ∈ live c.toHeap (c.cur, i) := List.mem_filter.mpr ⟨ha, by rw [hout]; rfl⟩
      exact hne (hk ▸ ((h.cur.mem i a).mp hm).1)
    · rw [Function.update_of_ne hae]
  · rcases hx with ⟨-, rfl⟩ | ⟨-, rfl⟩
    · exact h.unlockOld L
    · exact ⟨L', hk, Function.update_self .., h.pool e he⟩

/-- `cds_list_del_rcu` of the element, from its bucket in `ht_new`. -/
theorem Inv.delNew {dd : E → Bool} {x : ℕ × ℕ} (h : Inv c abs D)
    (hi : ∀ u, u ≠ t → (c.loc u).isIdle = true) (hl : c.loc t = .delNew op ls e)
    (hx : ls.hbp1 = some x) :
    Inv { c with
      links := c.links.del (.link e (!ls.idx0))
      out := Function.update c.out x.1 (Function.update (c.out x.1) e true)
      loc := Function.update c.loc t (.unlockOld ls)
      dead := dd } abs D := by
  have hlt := h.loc t
  rw [hl] at hlt
  obtain ⟨L, hk, he, hp⟩ := hlt
  have hb := h.both L hx
  have B := h.built _ _ hb
  have hin : inNew c abs D e := .inr ⟨t, by rw [hl]; rfl⟩
  have hidx : (!ls.idx0) = (c.tab x.1).idx := by rw [B.idx, L.idx0]
  set c' : Core n E K := { c with
    links := c.links.del (.link e (!ls.idx0))
    out := Function.update c.out x.1 (Function.update (c.out x.1) e true)
    loc := Function.update c.loc t (.unlockOld ls)
    dead := dd } with hc'
  have hi' : ∀ u, u ≠ t → (c'.loc u).isIdle = true := fun u hu => by
    show (Function.update c.loc t _ u).isIdle = true
    rw [Function.update_of_ne hu]
    exact hi u hu
  have hself : c'.loc t = .unlockOld ls := Function.update_self ..
  have hcur : Has c'.toHeap c.cur (fun a => abs a = true) :=
    Has.frame_unlink rfl rfl rfl rfl rfl h.cur (by rw [L.idx0]; simp) B.ne (h.new _ _ hb) hidx hin
  have hnew : Has c'.toHeap x.1 (fun a => inNew c abs D a ∧ a ≠ e) :=
    Has.unlink rfl rfl rfl rfl rfl (h.new _ _ hb) hidx hin
  refine h.elem hc' hi hcur h.pool (fun a ha => ?_) (fun g g' hg a ha => ?_) (fun g g' hg => ?_)
    (fun i _ => ?_) (h.unlockOld L)
  · rw [Function.update_of_ne B.ne.symm] at ha
    exact h.out a ha
  · obtain ⟨rfl, rfl⟩ := Prod.mk.inj (Option.some.inj (hb.symm.trans hg))
    rw [Function.update_self] at ha
    by_cases hae : a = e
    · rw [hae]
      exact ⟨hp, he⟩
    · rw [Function.update_of_ne hae] at ha
      exact h.outNew _ _ hb a ha
  · obtain ⟨rfl, rfl⟩ := Prod.mk.inj (Option.some.inj (hb.symm.trans hg))
    refine hnew.of fun a => ?_
    rw [inNew_at hi', inNew_at hi, hself, hl]
    simp only [adding, deleting, ne_eq, reduceCtorEq, not_false_eq_true, and_true, or_false,
      Option.some.injEq]
    constructor
    · intro ha
      refine ⟨.inl ha, ?_⟩
      rintro rfl
      rw [he] at ha
      exact Bool.false_ne_true ha.1
    · exact fun ha => ha.1.resolve_right (Ne.symm ha.2)
  · show List.filter _ (c.hist (c.cur, i)) = List.filter _ _
    simp only [hc', Function.update_of_ne B.ne.symm]

/-- `cds_list_add_rcu` of the new element, to its bucket in `ht_cur`. -/
theorem Inv.addFirst {hm : E → Bool → ℕ} (h : Inv c abs D)
    (hi : ∀ u, u ≠ t → (c.loc u).isIdle = true) (hl : c.loc t = .add op ls) (he : e ∉ c.pool)
    (hk : c.key e = op.key)
    (hx : ls.hbp1 = none ∧ l = .unlockOld ls ∨ ls.hbp1 ≠ none ∧ l = .addNew op ls e) :
    Inv { c with
      links := c.links.add (.link e ls.idx0) (.head ls.hbp0.1 ls.hbp0.2)
      hist := Function.update c.hist ls.hbp0 (e :: c.hist ls.hbp0)
      home := hm
      pool := e :: c.pool
      loc := Function.update c.loc t l } (Function.update abs e true) D := by
  have hlt := h.loc t
  rw [hl] at hlt
  obtain ⟨L, -⟩ := hlt
  have habs : ∀ a, Function.update abs e true a = true ↔ abs a = true ∨ a = e := by
    intro a
    by_cases ha : a = e
    · simp [ha]
    · simp [ha]
  have hne : abs e ≠ true := fun ha => he (h.pool e ha)
  have hout : c.out c.cur e = false := by
    by_contra ho
    exact he (h.out e (Bool.not_eq_false _ ▸ ho)).1
  have hold : ∀ a, a ∈ c.pool ∧ abs a = false →
      a ∈ e :: c.pool ∧ Function.update abs e true a = false := by
    rintro a ⟨hp, ha⟩
    have hae : a ≠ e := fun heq => he (heq ▸ hp)
    rw [Function.update_of_ne hae]
    exact ⟨List.mem_cons_of_mem _ hp, ha⟩
  have h0 : ls.hbp0 = (c.cur, c.bucket c.cur (c.key e)) := by rw [L.hbp0, hk]
  set c' : Core n E K := { c with
    links := c.links.add (.link e ls.idx0) (.head ls.hbp0.1 ls.hbp0.2)
    hist := Function.update c.hist ls.hbp0 (e :: c.hist ls.hbp0)
    home := hm
    pool := e :: c.pool
    loc := Function.update c.loc t l } with hc'
  have hi' : ∀ u, u ≠ t → (c'.loc u).isIdle = true := fun u hu => by
    show (Function.update c.loc t l u).isIdle = true
    rw [Function.update_of_ne hu]
    exact hi u hu
  have hself : c'.loc t = l := Function.update_self ..
  have hlinks : c'.links = c.links.add (.link e ls.idx0) (.head c.cur (c.bucket c.cur (c.key e))) := by
    show c.links.add _ _ = _
    rw [h0]
  have hhist : c'.hist = Function.update c.hist (c.cur, c.bucket c.cur (c.key e))
      (e :: c.hist (c.cur, c.bucket c.cur (c.key e))) := by
    show Function.update c.hist _ _ = _
    rw [h0]
  have hcur : Has c'.toHeap c.cur (fun a => abs a = true ∨ a = e) :=
    Has.link (x := (c.cur, c.bucket c.cur (c.key e))) hlinks hhist rfl rfl rfl h.cur L.idx0 rfl hne
      hout
  have hnew : ∀ g g', c.res.building = some (g, g') → Has c'.toHeap g' (inNew c abs D) := by
    intro g g' hb
    have B := h.built g g' hb
    exact Has.frame_link (x := (c.cur, c.bucket c.cur (c.key e))) hlinks hhist rfl rfl rfl
      (h.new g g' hb) (by rw [B.idx, L.idx0]; simp) B.ne.symm h.cur L.idx0
  refine h.elem hc' hi (hcur.of habs) (fun a ha => ?_) (fun a ha => hold a (h.out a ha))
    (fun g g' hb a ha => hold a (h.outNew g g' hb a ha)) (fun g g' hb => ?_) (fun i hri => ?_) ?_
  · rcases (habs a).mp ha with ha | rfl
    · exact List.mem_cons_of_mem _ (h.pool a ha)
    · exact List.mem_cons_self
  · refine (hnew g g' hb).of fun a => ?_
    rw [inNew_at hi', inNew_at hi, hself, hl]
    show (Function.update abs e true a = true ∧ ((c.bucket c.cur (c.key a) : ℤ) ≤ _ ∨ _) ∧ _) ∨ _ ↔ _
    rw [habs]
    rcases hx with ⟨hx, rfl⟩ | ⟨-, rfl⟩
    · have hnot := h.not_moved L hk hx
      simp only [adding, deleting, ne_eq, reduceCtorEq, not_false_eq_true, and_true, or_false]
      refine ⟨fun ha => ⟨ha.1.resolve_right ?_, ha.2⟩, fun ha => ⟨.inl ha.1, ha.2⟩⟩
      rintro rfl
      exact hnot ha.2
    · simp only [adding, deleting, ne_eq, reduceCtorEq, not_false_eq_true, and_true, or_false,
        Option.some.injEq]
      refine ⟨fun ha => ⟨ha.1.resolve_right (Ne.symm ha.2.2), ha.2.1⟩, fun ha => ⟨.inl ha.1, ha.2, ?_⟩⟩
      rintro rfl
      exact hne ha.1
  · have hoth : (c.cur, i) ≠ ls.hbp0 := fun heq =>
      h.elsewhere L hri (congrArg Prod.snd (heq.trans L.hbp0))
    show List.filter _ (Function.update c.hist ls.hbp0 _ (c.cur, i)) = _
    rw [Function.update_of_ne hoth]
    rfl
  · rcases hx with ⟨-, rfl⟩ | ⟨-, rfl⟩
    · exact h.unlockOld L
    · exact ⟨⟨L.hbp0, L.idx0, L.lock, L.alone, L.both⟩, hk, Function.update_self ..⟩

/-- `cds_list_add_rcu` of the new element, to its bucket in `ht_new`. -/
theorem Inv.addNew {hm : E → Bool → ℕ} {x : ℕ × ℕ} (h : Inv c abs D)
    (hi : ∀ u, u ≠ t → (c.loc u).isIdle = true) (hl : c.loc t = .addNew op ls e)
    (hx : ls.hbp1 = some x) :
    Inv { c with
      links := c.links.add (.link e (!ls.idx0)) (.head x.1 x.2)
      hist := Function.update c.hist x (e :: c.hist x)
      home := hm
      loc := Function.update c.loc t (.unlockOld ls) } abs D := by
  have hlt := h.loc t
  rw [hl] at hlt
  obtain ⟨L, hk, he⟩ := hlt
  have hb := h.both L hx
  have B := h.built _ _ hb
  obtain ⟨hle, -, hx2⟩ := L.both x hx
  rw [← hk] at hle hx2
  have hidx : (!ls.idx0) = (c.tab x.1).idx := by rw [B.idx, L.idx0]
  have hnot : ¬ inNew c abs D e := by
    rw [inNew_at hi, hl]
    simp [adding, deleting]
  have hout : c.out x.1 e = false := by
    by_contra ho
    have := (h.outNew _ _ hb e (Bool.not_eq_false _ ▸ ho)).2
    rw [he] at this
    cases this
  set c' : Core n E K := { c with
    links := c.links.add (.link e (!ls.idx0)) (.head x.1 x.2)
    hist := Function.update c.hist x (e :: c.hist x)
    home := hm
    loc := Function.update c.loc t (.unlockOld ls) } with hc'
  have hi' : ∀ u, u ≠ t → (c'.loc u).isIdle = true := fun u hu => by
    show (Function.update c.loc t _ u).isIdle = true
    rw [Function.update_of_ne hu]
    exact hi u hu
  have hself : c'.loc t = .unlockOld ls := Function.update_self ..
  have hcur : Has c'.toHeap c.cur (fun a => abs a = true) :=
    Has.frame_link (x := x) rfl rfl rfl rfl rfl h.cur (by rw [L.idx0]; simp) B.ne (h.new _ _ hb) hidx
  have hnew : Has c'.toHeap x.1 (fun a => inNew c abs D a ∨ a = e) :=
    Has.link (x := x) rfl rfl rfl rfl rfl (h.new _ _ hb) hidx hx2 hnot hout
  refine h.elem hc' hi hcur h.pool h.out h.outNew (fun g g' hg => ?_) (fun i _ => ?_) (h.unlockOld L)
  · obtain ⟨rfl, rfl⟩ := Prod.mk.inj (Option.some.inj (hb.symm.trans hg))
    refine hnew.of fun a => ?_
    rw [inNew_at hi', inNew_at hi, hself, hl]
    show (abs a = true ∧ ((c.bucket c.cur (c.key a) : ℤ) ≤ _ ∨ _) ∧ _) ∨ _ ↔ _
    simp only [adding, deleting, ne_eq, reduceCtorEq, not_false_eq_true, and_true, or_false,
      Option.some.injEq]
    constructor
    · intro ha
      by_cases hae : a = e
      · exact .inr hae
      · exact .inl ⟨ha.1, ha.2, Ne.symm hae⟩
    · rintro (ha | rfl)
      · exact ⟨ha.1, ha.2.1⟩
      · exact ⟨he, .inl hle⟩
  · have hoth : (c.cur, i) ≠ x := fun heq => B.ne (congrArg Prod.fst heq).symm
    show List.filter _ (Function.update c.hist x _ (c.cur, i)) = _
    rw [Function.update_of_ne hoth]
    rfl

end Elements

/-- A resize begins: `ht_alloc`. -/
theorem Inv.alloc {s : St n E K} {nbuckets : ℕ} {gethash : Option (K → ℕ)}
    (h : Inv s.toCore s.abs D) (hi : ∀ u, (s.loc u).isIdle = true) (hr : s.res = .idle)
    (hn : 0 < nbuckets) :
    Inv ((Hash.alloc nbuckets gethash s).resGoto (.publish s.cur s.tables)).toCore s.abs [] := by
  have hne : s.cur ≠ s.tables := Nat.ne_of_lt h.lt
  obtain ⟨hnew, hrc⟩ := h.rest (by rw [hr]; rfl)
  set s' := (Hash.alloc nbuckets gethash s).resGoto (.publish s.cur s.tables) with hs'
  have htab : s'.tab s.cur = s.tab s.cur := Function.update_of_ne hne _ _
  have htab' : s'.tab s.tables = ⟨nbuckets, gethash.getD (s.tab s.cur).gethash, !(s.tab s.cur).idx, -1,
      none⟩ := Function.update_self ..
  have hhist : ∀ b, s'.hist (s.cur, b) = s.hist (s.cur, b) := fun b => if_neg hne
  have hhist' : ∀ b, s'.hist (s.tables, b) = [] := fun b => if_pos rfl
  have hout : s'.out s.cur = s.out s.cur := Function.update_of_ne hne _ _
  have hout' : s'.out s.tables = fun _ => false := Function.update_self ..
  have hlive : ∀ b, live s'.toHeap (s.tables, b) = [] := fun b => by
    rw [live, hhist']
    rfl
  exact
    { cur := by
        refine h.cur.congr (by rw [htab]) (fun e => ?_) (fun b => ?_) (fun b => ⟨if_neg hne, if_neg hne⟩)
          (fun _ _ => ⟨rfl, rfl⟩) fun _ => Iff.rfl
        · rw [Heap.bucket, Heap.bucket, htab]
          rfl
        · rw [live, live, hhist, hout]
      pos := by
        show 0 < (s'.tab s.cur).nbuckets
        rw [htab]
        exact h.pos
      lt := Nat.lt_succ_of_lt h.lt
      pool := h.pool
      out := fun e he => by
        rw [show s'.out s'.cur e = s.out s.cur e from congrFun hout e] at he
        exact h.out e he
      rest := fun hx => by cases hx
      built := fun g g' hb => by
        obtain ⟨rfl, rfl⟩ := Prod.mk.inj (Option.some.inj hb)
        constructor
        · rfl
        · exact hne.symm
        · exact Nat.lt_succ_self _
        · rw [htab']
          exact hn
        · show (s'.tab s.tables).idx = !(s'.tab s.cur).idx
          rw [htab', htab]
        · rw [htab']
        · rw [htab']
        · show (s'.tab s.cur).new = _
          rw [htab, hnew]
          rfl
      outNew := fun g g' hb e he => by
        obtain ⟨rfl, rfl⟩ := Prod.mk.inj (Option.some.inj hb)
        rw [hout'] at he
        cases he
      new := fun g g' hb => by
        obtain ⟨rfl, rfl⟩ := Prod.mk.inj (Option.some.inj hb)
        constructor
        · intro b
          rw [hlive]
          constructor
          · exact List.nodup_nil
          · intro l₁ l₂ hl
            obtain ⟨rfl, rfl⟩ := List.append_eq_nil_iff.mp hl.symm
            exact ⟨if_pos rfl, if_pos rfl⟩
        · intro b e
          rw [hlive, inNew_idle (c := s'.toCore) hi]
          refine ⟨fun hx => (List.not_mem_nil hx).elim, ?_⟩
          rintro ⟨-, -, hle | hx⟩
          · rw [show (s'.tab s'.cur).resizeCur = (s.tab s.cur).resizeCur from congrArg _ htab, hrc] at hle
            omega
          · cases hx
      done := ⟨rfl, by rw [htab]; exact hrc⟩
      lock := fun _ hx => by cases hx
      switched := fun _ hx => by cases hx
      loc := locInv_idle (c := s'.toCore) hi }

/-! ### Lookups -/

theorem AtCell.start (h : Inv c abs D) (k : K) : AtCell c k c.cur (c.bucket c.cur k)
    (c.links.next (.head c.cur (c.bucket c.cur k))) :=
  ⟨rfl, rfl, [], live c.toHeap (c.cur, c.bucket c.cur k), rfl, fun _ he => (List.not_mem_nil he).elim,
    (h.cur.ring _).next_head⟩

theorem AtCell.found {k : K} {b : ℕ} {a : Bool} (h : Inv c abs D) (hc : AtCell c k g b (.link e a))
    (hk : c.key e = k) : Found c abs k (some e) := by
  obtain ⟨rfl, rfl, pre, post, hl, -, hx⟩ := hc
  cases post with
  | nil => cases hx
  | cons e' post =>
    obtain ⟨rfl, -⟩ := Cell.link.inj hx
    exact ⟨hk, ((h.cur.mem _ e).mp (by rw [hl]; simp)).2⟩

theorem AtCell.missed {k : K} {b b₁ : ℕ} (h : Inv c abs D) (hc : AtCell c k g b (.head g' b₁)) :
    Found c abs k none := by
  obtain ⟨rfl, rfl, pre, post, hl, hpre, hx⟩ := hc
  cases post with
  | nil =>
    rintro e he rfl
    have hm := (h.cur.mem _ e).mpr ⟨rfl, he⟩
    rw [hl, List.append_nil] at hm
    exact hpre e hm rfl
  | cons e post => cases hx

theorem AtCell.next {k : K} {b : ℕ} {a : Bool} (h : Inv c abs D) (hc : AtCell c k g b (.link e a))
    (hk : c.key e ≠ k) : AtCell c k g b (c.links.next (.link e a)) := by
  obtain ⟨rfl, rfl, pre, post, hl, hpre, hx⟩ := hc
  cases post with
  | nil => cases hx
  | cons e' post =>
    obtain ⟨rfl, rfl⟩ := Cell.link.inj hx
    refine ⟨rfl, rfl, pre ++ [e], post, by rw [hl]; simp, ?_, ?_⟩
    · intro e' he'
      rcases List.mem_append.mp he' with he' | he'
      · exact hpre e' he'
      · rw [List.mem_singleton.mp he']
        exact hk
    · have hr := h.cur.ring (c.bucket c.cur k)
      rw [hl] at hr
      exact hr.next_mem

end Hash
end Perfbook
