/-
# `count/count_stat.c`: a counter for each thread

`inc_count` reads the thread's own `counter` and writes it back, and `read_count` adds up the
counters one after the other, without a lock, while the others go on counting. The counters are
`unsigned long`s and wrap.

Each access to a counter is a step. `n` is `NR_THREADS`; an id that is used again goes on with the
counter that it has. `hist` is what the clients see.

Key definitions: `Loc`, `St`, `stepThread`, `sys`, `Holds`, `Inv`.
Key theorems: `inv_step`, `inv_next`, `count_stat_linearizable`.
-/
import Mathlib.Data.BitVec
import Perfbook.Conc.Sys
import Perfbook.Conc.Tally

namespace Perfbook
namespace Count
namespace Stat

open Conc

/-- Where a thread is. -/
inductive Loc
  | idle
  /-- `inc_count`, before `*p_counter` is read -/
  | incLoad
  /-- before `WRITE_ONCE(*p_counter, c + 1)` -/
  | incStore (c : BitVec 64)
  /-- before it returns -/
  | incRet
  /-- `read_count`, before the test of the loop, and `READ_ONCE(per_thread(counter, t))` -/
  | read (t : ℕ) (sum : BitVec 64)
  /-- before `return sum` -/
  | readRet (sum : BitVec 64)
deriving DecidableEq

structure St (n : ℕ) where
  counter : Fin n → BitVec 64
  loc : Fin n → Loc
  hist : List (Ev (Fin n) CountOp (Option (BitVec 64)))

/-- A thread calls `inc_count` or `read_count`, or takes its next step. -/
inductive Act (n : ℕ)
  | inc (t : Fin n)
  | read (t : Fin n)
  | step (t : Fin n)

variable {n : ℕ}

namespace St

/-- The thread goes to another place. -/
def goto (s : St n) (t : Fin n) (l : Loc) : St n := { s with loc := Function.update s.loc t l }

def call (s : St n) (t : Fin n) (o : CountOp) (l : Loc) : St n := { s with hist := s.hist ++ [Ev.call t o] }.goto t l

def return' (s : St n) (t : Fin n) (r : Option (BitVec 64)) : St n :=
  { s with hist := s.hist ++ [Ev.ret t r] }.goto t .idle

end St

/-- The next step of thread `t`. -/
def stepThread (t : Fin n) (s : St n) : Option (St n) :=
  match s.loc t with
  | .idle => none
  | .incLoad => some (s.goto t (.incStore (s.counter t)))
  | .incStore c => some ({ s with counter := Function.update s.counter t (c + 1) }.goto t .incRet)
  | .incRet => some (s.return' t none)
  | .read i sum =>
    if h : i < n then some (s.goto t (.read (i + 1) (sum + s.counter ⟨i, h⟩))) else some (s.goto t (.readRet sum))
  | .readRet sum => some (s.return' t (some sum))

/-- What an action does. -/
def next : Act n → St n → Option (St n)
  | .inc t, s => if s.loc t = .idle then some (s.call t .inc .incLoad) else none
  | .read t, s => if s.loc t = .idle then some (s.call t .read (.read 0 0)) else none
  | .step t, s => stepThread t s

/-- Nothing was counted, and no call runs. -/
structure Init (s : St n) : Prop where
  counter : ∀ t, s.counter t = 0
  loc : ∀ t, s.loc t = .idle
  hist : s.hist = []

def sys (n : ℕ) : Sys (St n) (Act n) := ⟨Init, next⟩

/-- How far the call is. -/
def pend : Loc → Pend CountOp (Option (BitVec 64))
  | .idle => .idle
  | .incLoad | .incStore _ => .called .inc
  | .incRet => .done none
  | .read _ _ | .readRet _ => .called .read

/-- **What is promised**: each counter has the increments of its thread, and the history is one of
the exact counter. -/
def Holds (s : St n) : Prop :=
  ∃ (f : Fin n → ℕ) (S : _), (∀ t, s.counter t = BitVec.ofNat 64 (f t)) ∧
    Lin (Conc.counter (BitVec.ofNat 64)) s.hist S (fun t => pend (s.loc t)) (∑ t, f t)

/-! ### The invariant -/

/-- The counters before the `i`-th. -/
def below (n i : ℕ) : Finset (Fin n) := Finset.univ.filter fun t => t.1 < i

/-- What is known of a thread from where it is, when `f` are the increments and `lo` was the total at its call. -/
def LocInv (f : Fin n → ℕ) (lo : ℕ) (t : Fin n) : Loc → Prop
  | .incStore c => c = BitVec.ofNat 64 (f t)
  | .read i sum => ∃ acc, sum = BitVec.ofNat 64 acc ∧ Tally f (below n i) lo acc
  | .readRet sum => ∃ acc, sum = BitVec.ofNat 64 acc ∧ lo ≤ acc ∧ acc ≤ ∑ t, f t
  | _ => True

/-- The invariant, with the increments and the totals at the calls. -/
structure InvOf (s : St n) (f lo : Fin n → ℕ) : Prop where
  counter : ∀ t, s.counter t = BitVec.ofNat 64 (f t)
  loc : ∀ t, LocInv f (lo t) t (s.loc t)
  counting : Counting (BitVec.ofNat 64) s.hist (fun t => pend (s.loc t)) lo (∑ t, f t)

def Inv (s : St n) : Prop := ∃ f lo, InvOf s f lo

variable {s s' : St n} {f f' lo : Fin n → ℕ} {t u : Fin n} {l : Loc} {i k : ℕ} {c : BitVec 64}

theorem below_succ (h : i < n) : below n (i + 1) = insert ⟨i, h⟩ (below n i) := by
  ext u
  simp only [below, Finset.mem_filter, Finset.mem_univ, true_and, Finset.mem_insert, Fin.ext_iff]
  omega

theorem not_mem_below (h : i < n) : (⟨i, h⟩ : Fin n) ∉ below n i := by
  simp [below]

theorem below_all (h : ¬ i < n) (t : Fin n) : t ∈ below n i := by
  simp only [below, Finset.mem_filter, Finset.mem_univ, true_and]
  omega

/-- The others count, which a thread that does not count itself does not mind. -/
theorem LocInv.grow (h : LocInv f k u l) (hf : ∀ t, f t ≤ f' t) (hu : f' u = f u) : LocInv f' k u l := by
  cases l with
  | incStore c => exact h.trans (congrArg _ hu.symm)
  | read i sum =>
    obtain ⟨acc, hsum, ht⟩ := h
    exact ⟨acc, hsum, ht.grow hf⟩
  | readRet sum =>
    obtain ⟨acc, hsum, hlo, hacc⟩ := h
    exact ⟨acc, hsum, hlo, hacc.trans (Finset.sum_le_sum fun t _ => hf t)⟩
  | _ => trivial

namespace InvOf

variable (h : InvOf s f lo)
include h

/-- A thread goes on, and nothing is counted. -/
theorem goto (hp : pend l = pend (s.loc t)) (hl : LocInv f (lo t) t l) : Inv (s.goto t l) :=
  ⟨f, lo, h.counter, forall_update (P := fun u x => LocInv f (lo u) u x) rfl hl fun u _ => h.loc u, h.counting.stay rfl hp⟩

/-- **An increment takes effect.** -/
theorem store_step (hx : s.loc t = .incStore c) :
    Inv ({ s with counter := Function.update s.counter t (c + 1) }.goto t .incRet) := by
  have ht := h.loc t
  rw [hx] at ht
  refine ⟨Function.update f t (f t + 1), lo, fun u => ?_, ?_, ?_⟩
  · show Function.update s.counter t (c + 1) u = BitVec.ofNat 64 (Function.update f t (f t + 1) u)
    by_cases hu : u = t
    · rw [hu, Function.update_self, Function.update_self, BitVec.ofNat_add, ht]
      rfl
    · rw [Function.update_of_ne hu, Function.update_of_ne hu]
      exact h.counter u
  · exact forall_update (P := fun u x => LocInv (Function.update f t (f t + 1)) (lo u) u x) rfl trivial fun u hu =>
      (h.loc u).grow (le_inc f t) (Function.update_of_ne hu ..)
  · rw [sum_inc]
    exact h.counting.effect rfl (by rw [hx]; rfl) rfl

/-- **What a thread does.** -/
theorem inv_step (hn : stepThread t s = some s') : Inv s' := by
  have ht := h.loc t
  unfold stepThread at hn
  cases hx : s.loc t with
  | idle =>
    simp only [hx] at hn
    cases hn
  | incLoad =>
    simp only [hx, Option.some.injEq] at hn
    subst hn
    exact h.goto (by rw [hx]; rfl) (h.counter t)
  | incStore c =>
    simp only [hx, Option.some.injEq] at hn
    subst hn
    exact h.store_step hx
  | incRet =>
    simp only [hx, Option.some.injEq] at hn
    subst hn
    exact ⟨f, lo, h.counter, forall_update (P := fun u x => LocInv f (lo u) u x) rfl trivial fun u _ => h.loc u,
      h.counting.returned rfl (by rw [hx]; rfl) rfl⟩
  | read i sum =>
    rw [hx] at ht
    obtain ⟨acc, rfl, ht⟩ := ht
    simp only [hx] at hn
    split at hn
    · rename_i hi
      obtain rfl := Option.some.inj hn
      refine h.goto (by rw [hx]; rfl) ⟨acc + f ⟨i, hi⟩, ?_, ?_⟩
      · rw [BitVec.ofNat_add, h.counter]
      · rw [below_succ hi]
        exact ht.visit (not_mem_below hi)
    · rename_i hi
      obtain rfl := Option.some.inj hn
      exact h.goto (by rw [hx]; rfl) ⟨acc, rfl, ht.total fun u hu => absurd (below_all hi u) hu⟩
  | readRet sum =>
    rw [hx] at ht
    obtain ⟨acc, rfl, hlo, hacc⟩ := ht
    simp only [hx, Option.some.injEq] at hn
    subst hn
    exact ⟨f, lo, h.counter, forall_update (P := fun u x => LocInv f (lo u) u x) rfl trivial fun u _ => h.loc u,
      h.counting.answered rfl (by rw [hx]; rfl) hlo hacc rfl⟩

end InvOf

/-- **A step keeps the invariant.** -/
theorem inv_next {a : Act n} (h : Inv s) (hn : next a s = some s') : Inv s' := by
  obtain ⟨f, lo, h⟩ := h
  cases a with
  | inc t =>
    simp only [next, Option.ite_none_right_eq_some, Option.some.injEq] at hn
    obtain ⟨hidle, rfl⟩ := hn
    exact ⟨f, lo, h.counter, forall_update (P := fun u x => LocInv f (lo u) u x) rfl trivial fun u _ => h.loc u,
      h.counting.called rfl (by rw [hidle]; rfl) rfl⟩
  | read t =>
    simp only [next, Option.ite_none_right_eq_some, Option.some.injEq] at hn
    obtain ⟨hidle, rfl⟩ := hn
    refine ⟨f, Function.update lo t (∑ u, f u), h.counter, ?_, h.counting.calledRead rfl (by rw [hidle]; rfl) rfl⟩
    refine forall_update (P := fun u x => LocInv f (Function.update lo t (∑ u, f u) u) u x) rfl ?_ fun u hu => ?_
    · rw [Function.update_self]
      have hnone : below n 0 = ∅ := by simp [below]
      have hstart := Tally.start f ∅ (le_refl (∑ u, f u))
      exact ⟨0, rfl, hnone ▸ hstart⟩
    · rw [Function.update_of_ne hu]
      exact h.loc u
  | step t => exact h.inv_step hn

theorem inv_init (h : Init s) : Inv s := by
  refine ⟨fun _ => 0, fun _ => 0, h.counter, fun t => ?_, ?_⟩
  · rw [h.loc t]
    trivial
  · have hpend : (fun t => pend (s.loc t)) = fun _ => .idle := funext fun t => by rw [h.loc t]; rfl
    rw [h.hist, hpend, Finset.sum_const_zero]
    exact .start _ _

/-- **`count_stat.c` is an exact counter**: `read_count` returns a total of its call. -/
theorem count_stat_linearizable (h : (sys n).Reach Sys.always s) : Holds s := by
  obtain ⟨f, lo, h⟩ := h.inv (I := Inv) (fun _ => inv_init) fun _ _ _ h _ hn => inv_next h hn
  obtain ⟨S, hlin⟩ := h.counting.lin
  exact ⟨f, S, h.counter, hlin⟩

def start (n : ℕ) : St n := ⟨fun _ => 0, fun _ => .idle, []⟩

theorem init_start (n : ℕ) : Init (start n) := ⟨fun _ => rfl, fun _ => rfl, rfl⟩

/-- Two threads count while a reader goes by: it has missed the first increment, and has the second. -/
theorem count_stat_linearizable_missed : ∃ s : St 3, (sys 3).Reach Sys.always s ∧
    s.loc 2 = .readRet 1 ∧ s.counter 0 = 1 ∧ s.counter 1 = 1 ∧ Holds s := by
  have hrun : ((sys 3).run Sys.always (
      [.read 2, .step 2, .inc 0] ++ List.replicate 3 (.step 0) ++ [.inc 1] ++ List.replicate 3 (.step 1) ++
      List.replicate 3 (.step 2)) (start 3)).map
      (fun s => (s.loc 2, s.counter 0, s.counter 1)) = some (.readRet 1, 1, 1) := by
    decide +kernel
  obtain ⟨s, hs, hend⟩ := Option.map_eq_some_iff.mp hrun
  have hreach := Sys.run_reach (.init (init_start 3)) hs
  rw [Prod.mk.injEq, Prod.mk.injEq] at hend
  exact ⟨s, hreach, hend.1, hend.2.1, hend.2.2, count_stat_linearizable hreach⟩

end Stat
end Count
end Perfbook
