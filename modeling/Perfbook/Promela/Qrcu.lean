/-
# `formal/promela/qrcu.spin`: QRCU

Two counters, of which `idx` names the current one. A reader increments the
counter it finds current, unless that is 0, and decrements it when it leaves.
The current counter is one more than the number of its readers, so an updater
that reads 1 and 0 knows that nobody is inside; it reads the two counters one
after the other, in any order, and twice before it believes the result.
Otherwise it takes the mutex, switches `idx` and waits for the readers of the
other counter.

Any number of readers and of updaters, and the counters are natural numbers.
Each statement of the model is one step, and so is each `atomic` block.

A reader that was inside at an updater's snapshot holds a counter `r` since.
The two reads sum up to less than 2 only if the one of `r` is late: `r` is no
longer current, and a switch waits for its readers (`Draining`). That goes on
as long as the reader is inside, so the second sum is 2 at least.

Key definitions: `RLoc`, `ULoc`, `St`, `stepReader`, `stepUpdater`, `sys`,
`Safe`, `Draining`, `Inv`.
Key theorems: `inv_step`, `qrcu_safe`.
-/
import Mathlib.Algebra.Order.BigOperators.Group.Finset
import Mathlib.Algebra.Order.Ring.Int
import Perfbook.Conc.Lock
import Perfbook.Conc.Sys

namespace Perfbook
namespace Promela
namespace Qrcu

open Conc

/-- Where a reader is; `i` is its `myidx`. -/
inductive RLoc
  /-- before `myidx = idx` -/
  | start
  /-- before the atomic test and increment -/
  | test (i : Bool)
  /-- before `readerprogress[me] = 1` -/
  | enter (i : Bool)
  /-- before `readerprogress[me] = 2` -/
  | exit (i : Bool)
  /-- before `ctr[myidx]--` -/
  | dec (i : Bool)
  | done
deriving DecidableEq

/-- Where an updater is. -/
inductive ULoc
  /-- before the snapshot of `readerprogress` -/
  | snapshot
  /-- `sum_unordered`, for the second time if `again`: before its first read -/
  | sum (again : Bool)
  /-- and before its second -/
  | add (again : Bool)
  /-- before the test `sum <= 1` -/
  | retest
  /-- before the test `sum > 1` -/
  | slow
  /-- before `spin_lock(mutex)` -/
  | lock
  /-- before `ctr[!idx]++` -/
  | flipInc
  /-- before `idx = !idx` -/
  | flipIdx
  /-- before `ctr[!idx]--` -/
  | flipDec
  /-- the loop that waits for `ctr[!idx]` -/
  | wait
  /-- before `spin_unlock(mutex)` -/
  | unlock
  /-- before the block with the assertion -/
  | check
deriving DecidableEq

structure St (R U : ℕ) where
  idx : Bool
  ctr : Bool → ℕ
  readerprogress : Fin R → ℕ
  mutex : Option (Fin U)
  rloc : Fin R → RLoc
  uloc : Fin U → ULoc
  readerstart : Fin U → Fin R → ℕ
  sum : Fin U → ℕ
  i : Fin U → Bool

inductive Act (R U : ℕ)
  | reader (p : Fin R)
  /-- an updater takes a step; `b` is the counter that `sum_unordered` reads first -/
  | updater (u : Fin U) (b : Bool)

variable {R U : ℕ}

def St.rgoto (s : St R U) (p : Fin R) (l : RLoc) : St R U :=
  { s with rloc := Function.update s.rloc p l }

def St.ugoto (s : St R U) (u : Fin U) (l : ULoc) : St R U :=
  { s with uloc := Function.update s.uloc u l }

def St.setCtr (s : St R U) (i : Bool) (x : ℕ) : St R U :=
  { s with ctr := Function.update s.ctr i x }

def St.setProgress (s : St R U) (p : Fin R) (x : ℕ) : St R U :=
  { s with readerprogress := Function.update s.readerprogress p x }

def St.setSum (s : St R U) (u : Fin U) (x : ℕ) : St R U :=
  { s with sum := Function.update s.sum u x }

/-- `qrcu_reader`. -/
def stepReader (p : Fin R) (s : St R U) : Option (St R U) :=
  match s.rloc p with
  | .start => some (s.rgoto p (.test s.idx))
  | .test i =>
    if s.ctr i > 0 then some ((s.setCtr i (s.ctr i + 1)).rgoto p (.enter i)) else some (s.rgoto p .start)
  | .enter i => some ((s.setProgress p 1).rgoto p (.exit i))
  | .exit i => some ((s.setProgress p 2).rgoto p (.dec i))
  | .dec i => some ((s.setCtr i (s.ctr i - 1)).rgoto p .done)
  | .done => none

/-- The readers that were inside at the snapshot of `u`, and are. -/
def St.verify (s : St R U) (u : Fin U) : ℕ :=
  ∑ p, if s.readerstart u p = 1 ∧ s.readerprogress p = 1 then 1 else 0

/-- `qrcu_updater`. -/
def stepUpdater (u : Fin U) (b : Bool) (s : St R U) : Option (St R U) :=
  match s.uloc u with
  | .snapshot =>
    some ({ s with readerstart := Function.update s.readerstart u s.readerprogress }.ugoto u (.sum false))
  | .sum again =>
    some ({ s.setSum u (s.ctr b) with i := Function.update s.i u (!b) }.ugoto u (.add again))
  | .add again =>
    some ((s.setSum u (s.sum u + s.ctr (s.i u))).ugoto u (if again then .slow else .retest))
  | .retest => some (s.ugoto u (if s.sum u ≤ 1 then .sum true else .slow))
  | .slow => some (s.ugoto u (if s.sum u > 1 then .lock else .check))
  | .lock => if s.mutex = none then some ({ s with mutex := some u }.ugoto u .flipInc) else none
  | .flipInc => some ((s.setCtr (!s.idx) (s.ctr (!s.idx) + 1)).ugoto u .flipIdx)
  | .flipIdx => some ({ s with idx := !s.idx }.ugoto u .flipDec)
  | .flipDec => some ((s.setCtr (!s.idx) (s.ctr (!s.idx) - 1)).ugoto u .wait)
  | .wait => if s.ctr (!s.idx) > 0 then some s else some (s.ugoto u .unlock)
  | .unlock => some ({ s with mutex := none }.ugoto u .check)
  | .check => some ((s.setSum u (s.verify u)).ugoto u .snapshot)

def next : Act R U → St R U → Option (St R U)
  | .reader p, s => stepReader p s
  | .updater u b, s => stepUpdater u b s

/-- `init`. -/
structure Init (s : St R U) : Prop where
  idx : s.idx = false
  ctr : s.ctr s.idx = 1 ∧ s.ctr (!s.idx) = 0
  progress : ∀ p, s.readerprogress p = 0
  mutex : s.mutex = none
  rloc : ∀ p, s.rloc p = .start
  uloc : ∀ u, s.uloc u = .snapshot
  start : ∀ u p, s.readerstart u p = 0

def sys (R U : ℕ) : Sys (St R U) (Act R U) := ⟨Init, next⟩

/-- The assertion holds where an updater reaches it, and a counter that is about
to be decremented is not 0. -/
structure Safe (s : St R U) : Prop where
  assertion : ∀ u, s.uloc u = .check → s.verify u = 0
  reader : ∀ p i, s.rloc p = .dec i → 0 < s.ctr i
  updater : ∀ u, s.uloc u = .flipDec → 0 < s.ctr (!s.idx)

/-! ### The invariant -/

/-- A reader that has incremented counter `i`. -/
def RLoc.holds (i : Bool) : RLoc → ℕ
  | .enter j | .exit j | .dec j => if i = j then 1 else 0
  | .start | .test _ | .done => 0

/-- What `readerprogress` shows there. -/
def RLoc.progress : RLoc → ℕ
  | .start | .test _ | .enter _ => 0
  | .exit _ => 1
  | .dec _ | .done => 2

/-- With the mutex. -/
def ULoc.holding : ULoc → Bool
  | .flipInc | .flipIdx | .flipDec | .wait | .unlock => true
  | _ => false

/-- An updater that keeps the other counter up. -/
def ULoc.bias : ULoc → ℕ
  | .flipIdx | .flipDec => 1
  | _ => 0

/-- How many readers hold counter `i`. -/
def St.held (s : St R U) (i : Bool) : ℕ := ∑ p, (s.rloc p).holds i

/-- An updater waits for the readers of `r`. -/
def Draining (s : St R U) (r : Bool) : Prop := s.idx = !r ∧ ∃ v, s.uloc v = .wait

/-- What holds of an updater while a reader that it saw inside holds counter `r`. -/
def At (s : St R U) (u : Fin U) (r : Bool) : ULoc → Prop
  | .add false => s.i u = (!r) → 2 ≤ s.sum u ∨ 1 ≤ s.sum u ∧ Draining s r
  | .retest => 2 ≤ s.sum u ∨ Draining s r
  | .sum true => Draining s r
  | .add true => 1 ≤ s.sum u ∧ Draining s r
  | .slow => 2 ≤ s.sum u
  | .flipIdx => s.idx = r
  | .flipDec | .wait => s.idx = !r
  | .unlock | .check => False
  | .snapshot | .sum false | .lock | .flipInc => True

structure Inv (s : St R U) : Prop where
  lock : LockedBy ULoc.holding s.mutex s.uloc
  progress : ∀ p, s.readerprogress p = (s.rloc p).progress
  start : ∀ u p, s.readerstart u p ≤ s.readerprogress p
  ctr : s.ctr s.idx = s.held s.idx + 1
  other : s.ctr (!s.idx) = s.held (!s.idx) + ∑ u, (s.uloc u).bias
  drained : (∀ u, s.uloc u ≠ .wait ∧ (s.uloc u).bias = 0) → s.ctr (!s.idx) = 0
  loc : ∀ u p r, s.readerstart u p = 1 → s.rloc p = .exit r → At s u r (s.uloc u)

variable {s s' : St R U} {p : Fin R} {u v : Fin U} {r : Bool} {l : ULoc}

@[simp] theorem setCtr_self {i : Bool} {x : ℕ} : (s.setCtr i x).ctr i = x := Function.update_self ..

theorem setCtr_ne {i j : Bool} {x : ℕ} (h : j ≠ i) : (s.setCtr i x).ctr j = s.ctr j :=
  Function.update_of_ne h ..

theorem ULoc.bias_eq_zero (h : l.holding = false) : l.bias = 0 := by
  cases l <;> first | rfl | cases h

/-- Who is on the way from one counter to the other is alone. -/
theorem Inv.bias_of_ne (h : Inv s) (hu : (s.uloc u).holding = true) (hv : v ≠ u) :
    s.uloc v ≠ .wait ∧ (s.uloc v).bias = 0 := by
  have hn : (s.uloc v).holding = false := by
    rw [← Bool.not_eq_true]
    exact fun hh => hv (h.lock.eq hu hh)
  refine ⟨fun he => ?_, ULoc.bias_eq_zero hn⟩
  rw [he] at hn
  cases hn

theorem Inv.bias_eq (h : Inv s) (hu : s.uloc u = l) (hh : l.holding = true) :
    ∑ v, (s.uloc v).bias = l.bias := by
  rw [← hu] at hh ⊢
  exact Finset.sum_eq_single u (fun _ _ hv => (h.bias_of_ne hh hv).2)
    (fun hm => absurd (Finset.mem_univ u) hm)

/-- A reader that holds a counter is among those that do. -/
theorem held_pos (hp : (s.rloc p).holds r = 1) : 1 ≤ s.held r := by
  calc 1 = (s.rloc p).holds r := hp.symm
    _ ≤ s.held r := Finset.single_le_sum (f := fun p => (s.rloc p).holds r)
        (fun _ _ => Nat.zero_le _) (Finset.mem_univ p)

theorem held_exit (hp : s.rloc p = .exit r) : 1 ≤ s.held r := by
  refine held_pos (p := p) ?_
  rw [hp]
  exact if_pos rfl

theorem Inv.held_le (h : Inv s) (r : Bool) : s.held r ≤ s.ctr r := by
  by_cases hr : r = s.idx
  · rw [hr, h.ctr]
    exact Nat.le_succ _
  · rw [Bool.eq_not.mpr hr, h.other]
    exact Nat.le_add_right _ _

/-- A counter with readers is 2 at least, unless a switch waits for them. -/
theorem Inv.two_le (h : Inv s) (hr : 1 ≤ s.held r) : 2 ≤ s.ctr r ∨ Draining s r := by
  by_cases hidx : r = s.idx
  · rw [hidx] at hr ⊢
    rw [h.ctr]
    exact .inl (by omega)
  have hnot := Bool.eq_not.mpr hidx
  by_cases hw : ∃ v, s.uloc v = .wait
  · exact .inr ⟨by rw [hnot, Bool.not_not], hw⟩
  by_cases hb : ∑ v, (s.uloc v).bias = 0
  · have hzero := h.drained fun v => ⟨fun hv => hw ⟨v, hv⟩,
      (Finset.sum_eq_zero_iff.mp hb) v (Finset.mem_univ v)⟩
    have := h.held_le r
    rw [← hnot] at hzero
    omega
  · have := h.other
    rw [← hnot] at this
    exact .inl (by omega)

/-- The other counter is the current one then. -/
theorem Inv.pos_of_draining (h : Inv s) (hd : Draining s r) : 1 ≤ s.ctr (!r) := by
  rw [← hd.1, h.ctr]
  exact Nat.le_add_left 1 _

theorem Inv.pos (h : Inv s) (hr : 1 ≤ s.held r) (hd : Draining s r) (b : Bool) : 1 ≤ s.ctr b := by
  by_cases hb : b = r
  · rw [hb]
    exact le_trans hr (h.held_le r)
  · rw [Bool.eq_not.mpr hb]
    exact h.pos_of_draining hd

/-- An updater is not disturbed by steps that keep `idx` while it switches. -/
theorem At.frame (h : At s u r l) (hsum : s'.sum u = s.sum u) (hi : s'.i u = s.i u)
    (hidx : l.holding = true → s'.idx = s.idx) (hd : Draining s r → Draining s' r) :
    At s' u r l := by
  cases l with
  | snapshot | lock | flipInc => trivial
  | sum again =>
    cases again with
    | false => trivial
    | true => exact hd h
  | add again =>
    cases again with
    | false =>
      unfold At at h ⊢
      rw [hsum, hi]
      exact fun he => (h he).imp id (And.imp_right hd)
    | true => exact ⟨by rw [hsum]; exact h.1, hd h.2⟩
  | retest => exact Or.imp (by rw [hsum]; exact id) hd h
  | slow => exact le_trans h hsum.ge
  | flipIdx | flipDec | wait => exact (hidx rfl).trans h
  | unlock | check => exact h.elim

/-- A reader goes on to `l`; counters follow who holds them, and none leaves 0. -/
theorem Inv.reader (h : Inv s) {l : RLoc} {c : Bool → ℕ} {g : Fin R → ℕ}
    (hc : ∀ i, c i + (s.rloc p).holds i = s.ctr i + l.holds i) (hz : ∀ i, s.ctr i = 0 → c i = 0)
    (hg : ∀ q, g q = (Function.update s.rloc p l q).progress) (hle : ∀ q, s.readerprogress q ≤ g q)
    (hexit : ∀ r, l = .exit r → s.readerprogress p = 0) :
    Inv { s with ctr := c, readerprogress := g, rloc := Function.update s.rloc p l } := by
  have hheld : ∀ i, ∑ q, (Function.update s.rloc p l q).holds i + (s.rloc p).holds i =
      s.held i + l.holds i := by
    intro i
    have := sum_move (fun q => (Function.update s.rloc p l q).holds i) (fun q => (s.rloc q).holds i)
      (t := p) fun q hq => by rw [Function.update_of_ne hq]
    rwa [Function.update_self] at this
  refine ⟨h.lock, hg, fun u q => le_trans (h.start u q) (hle q), ?_, ?_, fun hd => hz _ (h.drained hd),
    ?_⟩
  · have h1 := hc s.idx
    have h2 := hheld s.idx
    have h3 := h.ctr
    show c s.idx = ∑ q, (Function.update s.rloc p l q).holds s.idx + 1
    omega
  · have h1 := hc (!s.idx)
    have h2 := hheld (!s.idx)
    have h3 := h.other
    show c (!s.idx) = ∑ q, (Function.update s.rloc p l q).holds (!s.idx) + ∑ u, (s.uloc u).bias
    omega
  · intro u q r hq hr
    dsimp only at hq hr
    by_cases hqp : q = p
    · -- who goes inside now was not seen inside
      rw [hqp, Function.update_self] at hr
      have := h.start u p
      rw [hqp] at hq
      have := hexit r hr
      omega
    · rw [Function.update_of_ne hqp] at hr
      exact (h.loc u q r hq hr).frame rfl rfl (fun _ => rfl) id

/-- An updater goes on to `l`. It may change the counters and `idx` if it has the mutex. -/
theorem Inv.move (h : Inv s) (hu : s'.uloc = Function.update s.uloc u l) (hr : s'.rloc = s.rloc)
    (hp : s'.readerprogress = s.readerprogress)
    (hv : ∀ v, v ≠ u → s'.readerstart v = s.readerstart v ∧ s'.sum v = s.sum v ∧ s'.i v = s.i v)
    (hstart : ∀ p, s'.readerstart u p ≤ s.readerprogress p)
    (hlock : LockedBy ULoc.holding s'.mutex s'.uloc) (hctr : s'.ctr s'.idx = s.held s'.idx + 1)
    (hother : s'.ctr (!s'.idx) = s.held (!s'.idx) + ∑ v, (s'.uloc v).bias)
    (hdrained : (∀ v, s'.uloc v ≠ .wait ∧ (s'.uloc v).bias = 0) → s'.ctr (!s'.idx) = 0)
    (hidx : s'.idx = s.idx ∨ (s.uloc u).holding = true)
    (hd : ∀ p r, s.rloc p = .exit r → Draining s r → Draining s' r)
    (hl : ∀ p r, s'.readerstart u p = 1 → s.rloc p = .exit r → At s' u r l) : Inv s' := by
  have hheld : s'.held = s.held := by unfold St.held; rw [hr]
  refine ⟨hlock, by rw [hp, hr]; exact h.progress, fun v p => ?_, by rw [hheld, hctr],
    by rw [hheld, hother], hdrained, fun v p r hs he => ?_⟩
  · rw [hp]
    by_cases hvu : v = u
    · rw [hvu]
      exact hstart p
    · rw [(hv v hvu).1]
      exact h.start v p
  · rw [hr] at he
    by_cases hvu : v = u
    · rw [hvu] at hs ⊢
      rw [update_self hu]
      exact hl p r hs he
    · obtain ⟨h1, h2, h3⟩ := hv v hvu
      rw [h1] at hs
      rw [update_ne hu hvu]
      exact (h.loc v p r hs he).frame h2 h3
        (fun hh => hidx.resolve_right fun ht => hvu (h.lock.eq ht hh)) (hd p r he)

theorem bias_move {a b : ℕ} (ho : (s.uloc u).bias = a) (hn : l.bias = b) :
    ∑ v, (Function.update s.uloc u l v).bias + a = ∑ v, (s.uloc v).bias + b := by
  have := sum_move (fun v => (Function.update s.uloc u l v).bias) (fun v => (s.uloc v).bias) (t := u)
    fun v hv => by rw [Function.update_of_ne hv]
  rwa [Function.update_self, ho, hn] at this

theorem Draining.frame (hd : Draining s r) (hu : s'.uloc = Function.update s.uloc u l)
    (hidx : s'.idx = s.idx) (hw : s.uloc u ≠ .wait) : Draining s' r := by
  obtain ⟨hi, v, hv⟩ := hd
  have hvu : v ≠ u := fun he => hw (he ▸ hv)
  exact ⟨hidx.trans hi, v, by rwa [update_ne hu hvu]⟩

/-- An updater goes on to `l`, neither of the two places on a switch. -/
theorem Inv.walk (h : Inv s) (hu : s'.uloc = Function.update s.uloc u l) (hr : s'.rloc = s.rloc)
    (hp : s'.readerprogress = s.readerprogress) (hidx : s'.idx = s.idx) (hctr : s'.ctr = s.ctr)
    (hv : ∀ v, v ≠ u → s'.readerstart v = s.readerstart v ∧ s'.sum v = s.sum v ∧ s'.i v = s.i v)
    (hstart : ∀ p, s'.readerstart u p ≤ s.readerprogress p)
    (hlock : LockedBy ULoc.holding s'.mutex s'.uloc)
    (ho : (s.uloc u ≠ .wait ∧ (s.uloc u).bias = 0)) (hn : l ≠ .wait ∧ l.bias = 0)
    (hl : ∀ p r, s'.readerstart u p = 1 → s.rloc p = .exit r → At s' u r l) : Inv s' := by
  refine h.move hu hr hp hv hstart hlock (by rw [hidx, hctr, h.ctr]) ?_ (fun hd => ?_) (.inl hidx)
    (fun _ _ _ hd => hd.frame hu hidx ho.1) hl
  · have hb := bias_move ho.2 hn.2
    rw [hidx, hctr, h.other, hu]
    omega
  · rw [hidx, hctr]
    refine h.drained fun v => ?_
    by_cases hvu : v = u
    · rwa [hvu]
    · have := hd v
      rwa [update_ne hu hvu] at this

/-- An updater goes on to `l`, and only its `sum` and `i` change. -/
theorem Inv.ugoto (h : Inv s) {f : Fin U → ℕ} {g : Fin U → Bool} (hf : ∀ v, v ≠ u → f v = s.sum v)
    (hg : ∀ v, v ≠ u → g v = s.i v) (hh : l.holding = (s.uloc u).holding)
    (ho : s.uloc u ≠ .wait ∧ (s.uloc u).bias = 0) (hn : l ≠ .wait ∧ l.bias = 0)
    (hl : ∀ p r, s.readerstart u p = 1 → s.rloc p = .exit r → At { s with sum := f, i := g } u r l) :
    Inv ({ s with sum := f, i := g }.ugoto u l) :=
  h.walk rfl rfl rfl rfl rfl (fun v hv => ⟨rfl, hf v hv, hg v hv⟩) (h.start u)
    (h.lock.stay rfl hh) ho hn fun p r hs he =>
      (hl p r hs he).frame rfl rfl (fun _ => rfl) fun hd => Draining.frame hd rfl rfl ho.1

/-- `inv_step` for the readers. -/
theorem inv_reader (h : Inv s) (hn : stepReader p s = some s') : Inv s' := by
  have hprog := h.progress
  have hself : ∀ {l : RLoc}, l.progress = (s.rloc p).progress →
      ∀ q, s.readerprogress q = (Function.update s.rloc p l q).progress := by
    intro l hl q
    by_cases hq : q = p
    · rw [hq, Function.update_self, hl, hprog]
    · rw [Function.update_of_ne hq, hprog]
  have hset : ∀ {l : RLoc}, ∀ q, Function.update s.readerprogress p l.progress q =
      (Function.update s.rloc p l q).progress := by
    intro l q
    by_cases hq : q = p
    · rw [hq, Function.update_self, Function.update_self]
    · rw [Function.update_of_ne hq, Function.update_of_ne hq, hprog]
  have hup : ∀ {x : ℕ}, s.readerprogress p ≤ x →
      ∀ q, s.readerprogress q ≤ Function.update s.readerprogress p x q := by
    intro x hx q
    by_cases hq : q = p
    · rwa [hq, Function.update_self]
    · rw [Function.update_of_ne hq]
  unfold stepReader at hn
  cases hl : s.rloc p with
  | done => simp [hl] at hn
  | start =>
    rw [hl] at hn
    cases hn
    exact h.reader (fun i => by rw [hl]; rfl) (fun _ => id) (hself (by rw [hl]; rfl))
      (fun _ => le_rfl) nofun
  | test i =>
    rw [hl] at hn
    dsimp only at hn
    split at hn <;> rename_i hpos <;> cases hn
    · refine h.reader (fun j => ?_) (fun j hj => ?_) (hself (by rw [hl]; rfl)) (fun _ => le_rfl) nofun
      · by_cases hj : j = i
        · rw [hj, setCtr_self, hl]
          simp [RLoc.holds]
        · rw [setCtr_ne hj, hl]
          simp [RLoc.holds, hj]
      · rwa [setCtr_ne]
        rintro rfl
        omega
    · exact h.reader (fun j => by rw [hl]; rfl) (fun _ => id) (hself (by rw [hl]; rfl))
        (fun _ => le_rfl) nofun
  | enter i =>
    rw [hl] at hn
    cases hn
    have h0 := hprog p
    rw [hl] at h0
    exact h.reader (fun j => by rw [hl]; rfl) (fun _ => id) (hset (l := .exit i))
      (hup (by rw [h0]; exact Nat.zero_le _)) fun _ _ => h0
  | exit i =>
    rw [hl] at hn
    cases hn
    have h0 := hprog p
    rw [hl] at h0
    exact h.reader (fun j => by rw [hl]; rfl) (fun _ => id) (hset (l := .dec i))
      (hup (by rw [h0]; exact Nat.le_succ 1)) nofun
  | dec i =>
    rw [hl] at hn
    cases hn
    have hpos : 1 ≤ s.ctr i := le_trans (held_pos (p := p) (by rw [hl]; exact if_pos rfl)) (h.held_le i)
    refine h.reader (fun j => ?_) (fun j hj => ?_) (hself (by rw [hl]; rfl)) (fun _ => le_rfl) nofun
    · by_cases hj : j = i
      · rw [hj, setCtr_self, hl]
        simp only [RLoc.holds, if_true]
        omega
      · rw [setCtr_ne hj, hl]
        simp [RLoc.holds, hj]
    · by_cases hji : j = i
      · rw [hji] at hj
        omega
      · rwa [setCtr_ne hji]

/-- `inv_step` for the part of an updater that reads the counters. -/
theorem inv_sum (h : Inv s) {b : Bool} (hn : stepUpdater u b s = some s')
    (hl : s.uloc u = .snapshot ∨ (∃ a, s.uloc u = .sum a) ∨ (∃ a, s.uloc u = .add a) ∨
      s.uloc u = .retest ∨ s.uloc u = .slow ∨ s.uloc u = .check) : Inv s' := by
  have ha := h.loc u
  unfold stepUpdater at hn
  rcases hl with hl | ⟨a, hl⟩ | ⟨a, hl⟩ | hl | hl | hl <;> rw [hl] at hn ha <;> dsimp only at hn
  · cases hn
    refine h.walk (u := u) rfl rfl rfl rfl rfl (fun v hv => ⟨Function.update_of_ne hv .., rfl, rfl⟩) ?_
      (h.lock.stay rfl (by rw [hl]; rfl)) (by rw [hl]; exact ⟨nofun, rfl⟩) ⟨nofun, rfl⟩
      fun _ _ _ _ => trivial
    intro p
    show Function.update s.readerstart u s.readerprogress u p ≤ s.readerprogress p
    rw [Function.update_self]
  · cases hn
    refine h.ugoto (fun v hv => Function.update_of_ne hv ..) (fun v hv => Function.update_of_ne hv ..)
      (by rw [hl]; rfl) (by rw [hl]; exact ⟨nofun, rfl⟩) ⟨nofun, rfl⟩ fun p r hs he => ?_
    have hr := held_exit he
    have hself : Function.update s.sum u (s.ctr b) u = s.ctr b := Function.update_self ..
    cases a with
    | false =>
      -- a single reader of the counter that is read first: it is no longer current
      intro hi
      have hi : Function.update s.i u (!b) u = !r := hi
      rw [Function.update_self, Bool.not_eq_eq_eq_not, Bool.not_not] at hi
      subst hi
      show 2 ≤ Function.update s.sum u (s.ctr b) u ∨ 1 ≤ Function.update s.sum u (s.ctr b) u ∧ _
      rw [hself]
      exact (h.two_le hr).imp_right fun hd => ⟨le_trans hr (h.held_le b), hd⟩
    | true =>
      refine ⟨?_, ha p r hs he⟩
      show 1 ≤ Function.update s.sum u (s.ctr b) u
      rw [hself]
      exact h.pos hr (ha p r hs he) b
  · cases hn
    refine h.ugoto (g := s.i) (fun v hv => Function.update_of_ne hv ..) (fun _ _ => rfl)
      (by rw [hl]; cases a <;> rfl) (by rw [hl]; exact ⟨nofun, rfl⟩)
      (by cases a <;> exact ⟨nofun, rfl⟩) fun p r hs he => ?_
    have hr := held_exit he
    have hself : Function.update s.sum u (s.sum u + s.ctr (s.i u)) u = s.sum u + s.ctr (s.i u) :=
      Function.update_self ..
    cases a with
    | false =>
      show 2 ≤ Function.update s.sum u (s.sum u + s.ctr (s.i u)) u ∨ Draining s r
      rw [hself]
      by_cases hi : s.i u = r
      · rw [hi]
        exact (h.two_le hr).imp_left fun h2 => by omega
      · rw [Bool.eq_not.mpr hi]
        left
        obtain h2 | ⟨h1, hd⟩ := ha p r hs he (Bool.eq_not.mpr hi)
        · omega
        · have := h.pos_of_draining hd
          omega
    | true =>
      show 2 ≤ Function.update s.sum u (s.sum u + s.ctr (s.i u)) u
      rw [hself]
      obtain ⟨h1, hd⟩ := ha p r hs he
      have := h.pos hr hd (s.i u)
      omega
  · cases hn
    refine h.ugoto (f := s.sum) (g := s.i) (fun _ _ => rfl) (fun _ _ => rfl)
      (by rw [hl]; split <;> rfl) (by rw [hl]; exact ⟨nofun, rfl⟩)
      (by split <;> exact ⟨nofun, rfl⟩) fun p r hs he => ?_
    split
    · exact (ha p r hs he).resolve_left (by omega)
    · show 2 ≤ s.sum u
      omega
  · cases hn
    refine h.ugoto (f := s.sum) (g := s.i) (fun _ _ => rfl) (fun _ _ => rfl)
      (by rw [hl]; split <;> rfl) (by rw [hl]; exact ⟨nofun, rfl⟩)
      (by split <;> exact ⟨nofun, rfl⟩) fun p r hs he => ?_
    split
    · trivial
    · have h2 : 2 ≤ s.sum u := ha p r hs he
      omega
  · cases hn
    exact h.ugoto (g := s.i) (fun v hv => Function.update_of_ne hv ..) (fun _ _ => rfl) (by rw [hl]; rfl)
      (by rw [hl]; exact ⟨nofun, rfl⟩) ⟨nofun, rfl⟩ fun _ _ _ _ => trivial

/-- While an updater switches, nobody waits. -/
theorem Inv.not_draining (h : Inv s) (hu : (s.uloc u).holding = true) (hw : s.uloc u ≠ .wait) :
    ¬ Draining s r := by
  rintro ⟨-, v, hv⟩
  by_cases hvu : v = u
  · exact hw (hvu ▸ hv)
  · exact (h.bias_of_ne hu hvu).1 hv

/-- A counter with a reader is not 0. -/
theorem Inv.not_other (h : Inv s) (he : s.rloc p = .exit r) (hz : s.ctr (!s.idx) = 0) : s.idx = r := by
  by_contra hr
  have := le_trans (held_exit he) (h.held_le r)
  rw [Bool.eq_not.mpr (Ne.symm hr)] at this
  omega

/-- `inv_step` for the part of an updater that switches the counters. -/
theorem inv_switch (h : Inv s) {b : Bool} (hn : stepUpdater u b s = some s')
    (hl : s.uloc u = .lock ∨ s.uloc u = .flipInc ∨ s.uloc u = .flipIdx ∨ s.uloc u = .flipDec ∨
      s.uloc u = .wait ∨ s.uloc u = .unlock) : Inv s' := by
  have ha := h.loc u
  unfold stepUpdater at hn
  rcases hl with hl | hl | hl | hl | hl | hl <;> rw [hl] at hn ha <;> dsimp only at hn
  · split at hn <;> rename_i hfree <;> cases hn
    have hlock := h.lock
    rw [hfree] at hlock
    exact h.walk (u := u) rfl rfl rfl rfl rfl (fun _ _ => ⟨rfl, rfl, rfl⟩) (h.start u)
      (hlock.take rfl rfl) (by rw [hl]; exact ⟨nofun, rfl⟩) ⟨nofun, rfl⟩ fun _ _ _ _ => trivial
  · cases hn
    have hb : ∑ v, (Function.update s.uloc u .flipIdx v).bias + 0 = ∑ v, (s.uloc v).bias + 1 :=
      bias_move (by rw [hl]; rfl) rfl
    refine h.move (u := u) rfl rfl rfl (fun _ _ => ⟨rfl, rfl, rfl⟩) (h.start u)
      (h.lock.stay rfl (by rw [hl]; rfl)) ((setCtr_ne (Bool.not_ne_self _).symm).trans h.ctr) ?_
      (fun hd => ?_) (.inl rfl)
      (fun _ _ _ hd => (h.not_draining (by rw [hl]; rfl) (by rw [hl]; exact nofun) hd).elim)
      fun p r hs he => ?_
    · have := h.other
      refine setCtr_self.trans ?_
      show s.ctr (!s.idx) + 1 = s.held (!s.idx) + ∑ v, (Function.update s.uloc u .flipIdx v).bias
      omega
    · have := (hd u).2
      rw [show (St.ugoto _ u .flipIdx).uloc u = .flipIdx from Function.update_self ..] at this
      cases this
    · refine h.not_other he (h.drained fun v => ?_)
      by_cases hvu : v = u
      · rw [hvu, hl]
        exact ⟨nofun, rfl⟩
      · exact h.bias_of_ne (by rw [hl]; rfl) hvu
  · cases hn
    have hb : ∑ v, (Function.update s.uloc u .flipDec v).bias + 1 = ∑ v, (s.uloc v).bias + 1 :=
      bias_move (by rw [hl]; rfl) rfl
    have hone : ∑ v, (s.uloc v).bias = 1 := h.bias_eq hl rfl
    refine h.move (u := u) rfl rfl rfl (fun _ _ => ⟨rfl, rfl, rfl⟩) (h.start u)
      (h.lock.stay rfl (by rw [hl]; rfl)) ?_ ?_ (fun hd => ?_) (.inr (by rw [hl]; rfl))
      (fun _ _ _ hd => (h.not_draining (by rw [hl]; rfl) (by rw [hl]; exact nofun) hd).elim)
      fun p r hs he => congrArg not (ha p r hs he)
    · have := h.other
      show s.ctr (!s.idx) = s.held (!s.idx) + 1
      omega
    · have := h.ctr
      show s.ctr (!!s.idx) = s.held (!!s.idx) + ∑ v, (Function.update s.uloc u .flipDec v).bias
      rw [Bool.not_not]
      omega
    · have := (hd u).2
      rw [show (St.ugoto _ u .flipDec).uloc u = .flipDec from Function.update_self ..] at this
      cases this
  · cases hn
    have hb : ∑ v, (Function.update s.uloc u .wait v).bias + 1 = ∑ v, (s.uloc v).bias + 0 :=
      bias_move (by rw [hl]; rfl) rfl
    refine h.move (u := u) rfl rfl rfl (fun _ _ => ⟨rfl, rfl, rfl⟩) (h.start u)
      (h.lock.stay rfl (by rw [hl]; rfl)) ((setCtr_ne (Bool.not_ne_self _).symm).trans h.ctr) ?_
      (fun hd => absurd (Function.update_self ..) (hd u).1) (.inl rfl)
      (fun _ _ _ hd => (h.not_draining (by rw [hl]; rfl) (by rw [hl]; exact nofun) hd).elim) ha
    have := h.other
    refine setCtr_self.trans ?_
    show s.ctr (!s.idx) - 1 = s.held (!s.idx) + ∑ v, (Function.update s.uloc u .wait v).bias
    omega
  · split at hn <;> rename_i hpos <;> cases hn
    · exact h
    · have hz : s.ctr (!s.idx) = 0 := by omega
      have hb : ∑ v, (Function.update s.uloc u .unlock v).bias + 0 = ∑ v, (s.uloc v).bias + 0 :=
        bias_move (by rw [hl]; rfl) rfl
      have hfree : ∀ p r, s.rloc p = .exit r → s.idx ≠ !r := fun p r he hi => by
        rw [h.not_other he hz] at hi
        exact Bool.not_ne_self r hi.symm
      refine h.move (u := u) rfl rfl rfl (fun _ _ => ⟨rfl, rfl, rfl⟩) (h.start u)
        (h.lock.stay rfl (by rw [hl]; rfl)) h.ctr ?_ (fun _ => hz) (.inl rfl)
        (fun p r he hd => absurd hd.1 (hfree p r he)) fun p r hs he => hfree p r he (ha p r hs he)
      have := h.other
      show s.ctr (!s.idx) = s.held (!s.idx) + ∑ v, (Function.update s.uloc u .unlock v).bias
      omega
  · cases hn
    exact h.walk (u := u) rfl rfl rfl rfl rfl (fun _ _ => ⟨rfl, rfl, rfl⟩) (h.start u)
      (h.lock.drop rfl (by rw [hl]; rfl) rfl) (by rw [hl]; exact ⟨nofun, rfl⟩) ⟨nofun, rfl⟩
      fun p r hs he => (ha p r hs he).elim

/-- **The step lemma.** -/
theorem inv_step {a : Act R U} (h : Inv s) (hn : next a s = some s') : Inv s' := by
  cases a with
  | reader p => exact inv_reader h hn
  | updater u b =>
    simp only [next] at hn
    cases hl : s.uloc u with
    | snapshot | sum again | add again | retest | slow | check => exact inv_sum h hn (by simp [hl])
    | lock | flipInc | flipIdx | flipDec | wait | unlock => exact inv_switch h hn (by simp [hl])

theorem inv_init (h : Init s) : Inv s where
  lock u := by simp [h.mutex, h.uloc, ULoc.holding]
  progress p := by rw [h.progress, h.rloc]; rfl
  start u p := by rw [h.start, h.progress]
  ctr := by simp [h.ctr.1, St.held, h.rloc, RLoc.holds]
  other := by simp [h.ctr.2, St.held, h.rloc, h.uloc, RLoc.holds, ULoc.bias]
  drained _ := h.ctr.2
  loc u p r hs := by simp [h.start] at hs

/-- At the assertion of an updater, all readers that it saw inside have left. -/
theorem Inv.safe (h : Inv s) : Safe s where
  assertion u hu := by
    refine Finset.sum_eq_zero fun p _ => if_neg fun ⟨hs, hp⟩ => ?_
    rw [h.progress p] at hp
    cases hl : s.rloc p with
    | exit r =>
      have := h.loc u p r hs hl
      rwa [hu] at this
    | start | test i | enter i | dec i | done => rw [hl] at hp; cases hp
  reader p i hp := le_trans (held_pos (p := p) (by rw [hp]; exact if_pos rfl)) (h.held_le i)
  updater u hu := by
    have := h.other
    rw [h.bias_eq hu rfl] at this
    exact Nat.lt_of_lt_of_eq (Nat.succ_pos _) this.symm

/-- **QRCU is safe**, for any number of readers and updaters. -/
theorem qrcu_safe (h : (sys R U).Reach Sys.always s) : Safe s :=
  (Sys.Reach.inv (I := Inv) (fun _ => inv_init) (fun _ _ _ hi _ hn => inv_step hi hn) h).safe

/-- Nobody has moved. -/
def start (R U : ℕ) : St R U where
  idx := false
  ctr i := if i then 0 else 1
  readerprogress _ := 0
  mutex := none
  rloc _ := .start
  uloc _ := .snapshot
  readerstart _ _ := 0
  sum _ := 0
  i _ := false

theorem start_init (R U : ℕ) : Init (start R U) :=
  ⟨rfl, ⟨rfl, rfl⟩, fun _ => rfl, rfl, fun _ => rfl, fun _ => rfl, fun _ _ => rfl⟩

/-- An updater sees a reader inside, switches and waits for it. -/
def switched : List (Act 1 1) :=
  [.reader 0, .reader 0, .reader 0,
    .updater 0 false, .updater 0 false, .updater 0 false, .updater 0 false, .updater 0 false,
    .updater 0 false, .updater 0 false, .updater 0 false, .updater 0 false, .updater 0 false,
    .reader 0, .reader 0, .updater 0 false, .updater 0 false]

theorem qrcu_safe_switched : ∃ s, (sys 1 1).run Sys.always switched (start 1 1) = some s ∧
    s.uloc 0 = .check ∧ s.readerstart 0 0 = 1 ∧ Safe s := by
  obtain ⟨s, hs⟩ := Option.isSome_iff_exists.mp
    (show ((sys 1 1).run Sys.always switched (start 1 1)).isSome = true by decide)
  have hloc : ((sys 1 1).run Sys.always switched (start 1 1)).map
    (fun s => (s.uloc 0, s.readerstart 0 0)) = some (.check, 1) := by decide
  rw [hs, Option.map_some, Option.some.injEq, Prod.mk.injEq] at hloc
  exact ⟨s, hs, hloc.1, hloc.2, qrcu_safe (Sys.run_reach (.init (start_init 1 1)) hs)⟩

end Qrcu
end Promela
end Perfbook
