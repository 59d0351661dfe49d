/-
# What holds of the arrays of `count_end_rcu.c`

An array that was published has each thread in its total, or has a pointer to its
counter, or the thread had not counted when the array was replaced (`ArrayInv`). So
what a reader has added up, of the threads that it has passed (`Passed`), lies
between what these had counted when it has loaded the array and what they have
counted now (`Between`).

A thread that has published its array waits for all readers that may have an older
one (`Waits`). So an array that is freed, and a thread that has exited, is out of
reach (`At.gone`).

Key definitions: `Passed`, `Between`, `ArrayInv`, `At`, `ReaderInv`, `Inv`.
Key theorems: `At.of_cap`, `At.gone`, `At.keeps`, `ReaderInv.keeps`, `Inv.bounded`.
-/
import Mathlib.Algebra.Order.BigOperators.Group.Finset
import Perfbook.Conc.Lock
import Perfbook.Count.EndRcu

namespace Perfbook
namespace Count
namespace EndRcu

open Conc

variable {n m : ℕ}

/-! ### Where a thread is -/

/-- The places where `final_mutex` is held. -/
def Loc.locks : Loc → Bool
  | .regSet | .regUnlock | .unregFill _ | .unregAssign _ | .unregUnlock _ => true
  | _ => false

/-- The thread has stored its pointer. -/
def Loc.reg : Loc → Bool
  | .new | .regLock | .regSet => false
  | _ => true

/-- It has published its array. -/
def Loc.past : Loc → Bool
  | .unregUnlock _ | .sync _ | .wait _ | .free _ | .exited => true
  | _ => false

/-- It may have counted. -/
def Loc.counts : Loc → Bool
  | .new | .regLock | .regSet | .regUnlock => false
  | _ => true

/-- The array that a thread has allocated. -/
def Loc.cap : Loc → Option ℕ
  | .unregLock cap | .unregFill cap | .unregAssign cap => some cap
  | _ => none

/-- The array that it has replaced. -/
def Loc.capold : Loc → Option ℕ
  | .unregUnlock cap | .sync cap | .wait cap | .free cap => some cap
  | _ => none

section

variable (s : St n m)

/-- A loop over the pointers of `a` that has come to `i` has the count of `u`. -/
def Passed (a i : ℕ) (u : Fin n) : Prop :=
  s.gone a u = true ∨ s.idx u < i ∧ (s.array a).counterp (s.idx u) = some u

instance (a i : ℕ) (u : Fin n) : Decidable (Passed s a i u) := inferInstanceAs (Decidable (_ ∨ _))

/-- The sum is between what was counted when the reader has loaded the array, and what is counted now. -/
def Between (r : Fin m) (a i sum : ℕ) : Prop :=
  ∑ u with Passed s a i u, s.base r u ≤ sum ∧ sum ≤ ∑ u with Passed s a i u, s.completed u

structure ArrayInv (a : ℕ) : Prop where
  total : (s.array a).total = ∑ u with s.gone a u = true, s.completed u
  past : ∀ u, s.gone a u = true → (s.loc u).past = true
  slot : ∀ i u, (s.array a).counterp i = some u → i = s.idx u ∧ s.gone a u = false ∧ (s.loc u).reg = true

/-- The thread has not waited yet for the reader. -/
def Waits (u : Fin n) (r : Fin m) : Prop :=
  match s.loc u with
  | .unregUnlock _ | .sync _ => True
  | .wait _ => s.pre u r = true
  | _ => False

/-- The reader has loaded the array `a`. -/
structure At (r : Fin m) (a : ℕ) : Prop where
  published : s.published a = true
  le : ∀ u, s.base r u ≤ s.completed u
  seen : ∀ u, 0 < s.base r u → s.gone a u = true ∨ (s.array a).counterp (s.idx u) = some u
  waits : ∀ u, (s.loc u).past = true → s.gone a u = true ∨ Waits s u r

def ReaderInv (nrThreads : ℕ) (r : Fin m) : Reader n → Prop
  | .idle | .deref => True
  | .init a => At s r a
  | .ptr a i sum => At s r a ∧ i ≤ nrThreads ∧ Between s r a i sum
  | .ctr a i sum u => At s r a ∧ i < nrThreads ∧ Between s r a i sum ∧ (s.array a).counterp i = some u
  | .unlock sum | .returned sum => ∑ u, s.base r u ≤ sum ∧ sum ≤ ∑ u, s.completed u

structure Inv (nrThreads : ℕ) : Prop where
  lock : LockedBy Loc.locks s.lock s.loc
  counter : ∀ t, s.loc t ≠ .exited → s.counter t = s.completed t
  begun : ∀ t, s.completed t ≤ s.begun t ∧ ∀ c, s.loc t = .store c → s.completed t < s.begun t ∧ c = s.completed t
  fresh : ∀ t, (s.loc t).counts = false → s.completed t = 0
  idx : ∀ t, s.loc t ≠ .new → s.idx t < nrThreads
  ids : ∀ t u, s.loc t ≠ .new → s.loc t ≠ .exited → s.loc u ≠ .new → s.loc u ≠ .exited → s.idx t = s.idx u → t = u
  used : ∀ a, s.published a = true → s.used a = true
  cur : s.published s.countarrayp = true
  array : ∀ a, s.published a = true → ArrayInv s a
  curGone : ∀ t, (s.loc t).past = true → s.gone s.countarrayp t = true
  curSlot : ∀ t, (s.loc t).reg = true → (s.loc t).past = false →
    (s.array s.countarrayp).counterp (s.idx t) = some t
  cap : ∀ t a, (s.loc t).cap = some a → s.used a = true ∧ s.published a = false
  caps : ∀ t u a, (s.loc t).cap = some a → (s.loc u).cap = some a → t = u
  assign : ∀ t a, s.loc t = .unregAssign a →
    s.array a = (s.array s.countarrayp).without (s.idx t) (s.counter t) ∧
    s.gone a = Function.update (s.gone s.countarrayp) t true
  capold : ∀ t a, (s.loc t).capold = some a → s.published a = true ∧ s.gone a t = false
  freed : ∀ a, s.freed a = true → s.published a = true ∧ ∃ t, s.loc t = .exited ∧ s.gone a t = false
  reader : ∀ r, ReaderInv s nrThreads r (s.reader r)

end

variable {s s' : St n m} {nrThreads a i sum : ℕ} {t u : Fin n} {r : Fin m} {l : Reader n}

/-! ### What a reader can reach -/

theorem At.of_cap (h : ReaderInv s nrThreads r l) (ha : l.cap = some a) : At s r a := by
  cases l with
  | init cap =>
    cases ha
    exact h
  | ptr cap t sum | ctr cap t sum u =>
    cases ha
    exact h.1
  | _ => cases ha

/-- **A thread that has exited is in the total of each array that a reader has.** -/
theorem At.gone (h : At s r a) (hu : s.loc u = .exited) : s.gone a u = true := by
  refine (h.waits u (by rw [hu]; rfl)).resolve_right fun hw => ?_
  rw [Waits, hu] at hw
  exact hw

theorem Inv.bounded (h : Inv s nrThreads) : Bounded s where
  bounds r sum hr := by
    obtain ⟨hlow, hhigh⟩ : ReaderInv s nrThreads r (.returned sum) := hr ▸ h.reader r
    exact ⟨hlow, hhigh.trans (Finset.sum_le_sum fun t _ => (h.begun t).1)⟩
  array r a ha := Bool.eq_false_iff.mpr fun hf => by
    obtain ⟨-, t, ht, hg⟩ := h.freed a hf
    rw [(At.of_cap (h.reader r) ha).gone ht] at hg
    cases hg
  counter r a t sum u hr hu := by
    obtain ⟨ha, -, -, hslot⟩ : ReaderInv s nrThreads r (.ctr a t sum u) := hr ▸ h.reader r
    have hg := ((h.array a ha.published).slot t u hslot).2.1
    rw [ha.gone hu] at hg
    cases hg

/-! ### What a step leaves -/

/-- What the readers see of a step of another thread. -/
structure Keeps (s s' : St n m) (r : Fin m) : Prop where
  base : s'.base r = s.base r
  completed : ∀ u, s.completed u ≤ s'.completed u
  published : ∀ a, s.published a = true → s'.published a = true
  gone : ∀ a, s.published a = true → s'.gone a = s.gone a
  slot : ∀ a i u, s.published a = true → (s.array a).counterp i = some u → (s'.array a).counterp i = some u
  /-- a pointer is new only for a thread that has not counted yet -/
  fresh : ∀ a i u, s.published a = true → (s'.array a).counterp i = some u →
    (s.array a).counterp i = some u ∨ s.completed u = 0
  idx : ∀ u, s.idx u = s'.idx u ∨ (∀ a i, s.published a = true → (s.array a).counterp i ≠ some u) ∧
    s.completed u = 0
  waits : (s.reader r).inside = true → ∀ u, (s'.loc u).past = true →
    (s.loc u).past = true ∧ (Waits s u r → Waits s' u r) ∨ Waits s' u r

section

variable (hk : Keeps s s' r)
include hk

theorem At.keeps (hin : (s.reader r).inside = true) (h : At s r a) : At s' r a where
  published := hk.published a h.published
  le u := by
    rw [hk.base]
    exact (h.le u).trans (hk.completed u)
  seen u hu := by
    rw [hk.base] at hu
    rw [hk.gone a h.published]
    refine (h.seen u hu).imp_right fun hs => ?_
    have hidx := (hk.idx u).resolve_right fun hn => hn.1 a _ h.published hs
    exact hk.slot a _ u h.published (hidx ▸ hs)
  waits u hu := by
    rw [hk.gone a h.published]
    rcases hk.waits hin u hu with ⟨hp, hw⟩ | hw
    · exact (h.waits u hp).imp_right hw
    · exact .inr hw

/-- A thread that comes to be passed has not counted before. -/
theorem passed_keeps (ha : s.published a = true) : (Passed s a i u → Passed s' a i u) ∧
    (Passed s' a i u → Passed s a i u ∨ s.completed u = 0) := by
  unfold Passed
  rw [hk.gone a ha]
  refine ⟨fun h => h.imp_right fun hs => ?_, fun h => ?_⟩
  · have hidx := (hk.idx u).resolve_right fun hn => hn.1 a _ ha hs.2
    exact ⟨hidx ▸ hs.1, hk.slot a _ u ha (hidx ▸ hs.2)⟩
  · rcases h with h | h
    · exact .inl (.inl h)
    · rcases hk.idx u with hidx | hn
      · exact (hk.fresh a _ u ha h.2).imp_left fun hs => .inr (hidx ▸ ⟨h.1, hs⟩)
      · exact .inr hn.2

theorem Between.keeps (ha : At s r a) (h : Between s r a i sum) : Between s' r a i sum := by
  have hsub : Finset.univ.filter (Passed s a i) ⊆ Finset.univ.filter (Passed s' a i) := fun u hu => by
    simp only [Finset.mem_filter, Finset.mem_univ, true_and] at hu ⊢
    exact (passed_keeps hk ha.published).1 hu
  refine ⟨?_, ?_⟩
  · rw [hk.base, ← Finset.sum_subset hsub fun u hu hnu => ?_]
    · exact h.1
    · simp only [Finset.mem_filter, Finset.mem_univ, true_and] at hu hnu
      have h0 := ((passed_keeps hk ha.published).2 hu).resolve_left hnu
      exact Nat.le_zero.mp (h0 ▸ ha.le u)
  · calc
      sum ≤ ∑ u with Passed s a i u, s.completed u := h.2
      _ ≤ ∑ u with Passed s a i u, s'.completed u := Finset.sum_le_sum fun u _ => hk.completed u
      _ ≤ ∑ u with Passed s' a i u, s'.completed u := Finset.sum_le_sum_of_subset hsub

/-- **What a reader knows** after a step of another thread. -/
theorem ReaderInv.keeps (h : ReaderInv s nrThreads r (s.reader r)) : ReaderInv s' nrThreads r (s.reader r) := by
  cases hr : s.reader r with
  | idle | deref => trivial
  | init a =>
    rw [hr] at h
    exact At.keeps hk (by rw [hr]; rfl) h
  | ptr a i sum =>
    rw [hr] at h
    exact ⟨h.1.keeps hk (by rw [hr]; rfl), h.2.1, h.2.2.keeps hk h.1⟩
  | ctr a i sum u =>
    rw [hr] at h
    exact ⟨h.1.keeps hk (by rw [hr]; rfl), h.2.1, h.2.2.1.keeps hk h.1, hk.slot a i u h.1.published h.2.2.2⟩
  | unlock sum | returned sum =>
    rw [hr] at h
    refine ⟨?_, h.2.trans (Finset.sum_le_sum fun u _ => hk.completed u)⟩
    rw [hk.base]
    exact h.1

end

/-- A step that keeps the arrays, the counts and the ids. -/
theorem Keeps.goes (hbase : s'.base r = s.base r) (hcompleted : s'.completed = s.completed)
    (hpublished : s'.published = s.published) (hgone : s'.gone = s.gone) (harray : s'.array = s.array)
    (hidx : s'.idx = s.idx)
    (hwaits : (s.reader r).inside = true → ∀ u, (s'.loc u).past = true →
      (s.loc u).past = true ∧ (Waits s u r → Waits s' u r) ∨ Waits s' u r) : Keeps s s' r where
  base := hbase
  completed u := by rw [hcompleted]
  published a ha := by rwa [hpublished]
  gone a _ := by rw [hgone]
  slot a i u _ hs := by rwa [harray]
  fresh a i u _ hs := .inl (by rwa [harray] at hs)
  idx u := .inl (by rw [hidx])
  waits := hwaits

end EndRcu
end Count
end Perfbook
