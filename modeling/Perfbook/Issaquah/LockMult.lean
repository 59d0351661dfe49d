/-
# Taking many locks in order (datastruct/Issaquah/spinlockmult.c)

`spin_lock_mult` sorts an array of lock pointers by selection and takes each lock as
soon as it stands in its place. A duplicate that the inner loop finds is replaced by
the last pointer of the array, whose place becomes `NULL`, and the loops go on with one
pointer less. `spin_unlock_mult` goes over the whole array and skips the `NULL`s.

What the inner loop keeps is `Sorting`: the first `i` pointers are smaller than all
behind them, the first `n` are the locks of the caller, and the rest is `NULL`. So the
locks are taken in ascending order, each once (`lock_unlock_mult`), and threads that
use the two functions never wait for each other in a circle (`Inv.acyclic`).

Key definitions: `sortPass`, `lockFrom`, `spinLockMult`, `spinUnlockMult`, `Sorting`, `sys`, `Inv`.
Key theorems: `sortPass_spec`, `lockFrom_spec`, `spinLockMult_spec`, `inv_reach`, `lock_unlock_mult`.
-/
import Mathlib.Order.WithBot
import Perfbook.Conc.Lock
import Perfbook.Conc.Sys

namespace Perfbook
namespace LockMult

variable {A : Type} [LinearOrder A]

/-- A pointer to a lock, by its address; `⊥` is `NULL`. -/
abbrev Ptr (A : Type) := WithBot A

/-! ### The code -/

/-- A read of the array of `len` pointers; there is none outside it. -/
def get (len : ℕ) (lockp : ℕ → Ptr A) (k : ℕ) : Option (Ptr A) := if k < len then some (lockp k) else none

/-- A write to the array. -/
def put (len : ℕ) (lockp : ℕ → Ptr A) (k : ℕ) (x : Ptr A) : Option (ℕ → Ptr A) :=
  if k < len then some (Function.update lockp k x) else none

/-- The loop over `j`: the array and `n` after it. -/
def sortPass (len : ℕ) (lockp : ℕ → Ptr A) (i j n : ℕ) : Option ((ℕ → Ptr A) × ℕ) :=
  if j < n then do
    let x ← get len lockp i
    let y ← get len lockp j
    if x < y then sortPass len lockp i (j + 1) n
    else if x = y then
      -- `j--` and the `j++` of the loop
      let n' := n - 1
      let z ← get len lockp n'
      let lockp ← put len lockp j z
      let lockp ← put len lockp n' ⊥
      sortPass len lockp i j n'
    else
      let lockp ← put len lockp i y
      let lockp ← put len lockp j x
      sortPass len lockp i (j + 1) n
  else some (lockp, n)
termination_by n - j

theorem sortPass_le {len i : ℕ} {f f' : ℕ → Ptr A} {j n n' : ℕ} (h : sortPass len f i j n = some (f', n')) :
    n' ≤ n := by
  induction hd : n - j using Nat.strong_induction_on generalizing f j n with
  | _ d ih =>
    rw [sortPass] at h
    split at h
    · simp only [Option.bind_eq_bind, Option.bind_eq_some_iff] at h
      obtain ⟨x, -, y, -, h⟩ := h
      split at h
      · exact ih (n - (j + 1)) (by omega) h rfl
      · split at h
        · simp only [Option.bind_eq_some_iff] at h
          obtain ⟨z, -, g, -, g', -, h⟩ := h
          have := ih (n - 1 - j) (by omega) h rfl
          omega
        · simp only [Option.bind_eq_some_iff] at h
          obtain ⟨g, -, g', -, h⟩ := h
          exact ih (n - (j + 1)) (by omega) h rfl
    · simp only [Option.some.injEq, Prod.mk.injEq] at h
      omega

/-- A `spin_lock` or `spin_unlock`, unless the pointer is `NULL`. -/
def called : Ptr A → List A
  | none => []
  | some a => [a]

/-- The loop over `i`: the array after it and the locks that it takes, in this order. -/
def lockFrom (len : ℕ) (lockp : ℕ → Ptr A) (i n : ℕ) : Option ((ℕ → Ptr A) × List A) :=
  if i < n then
    match _h : sortPass len lockp i (i + 1) n with
    | none => none
    | some (lockp, n') => do
      let x ← get len lockp i
      let (lockp, locks) ← lockFrom len lockp (i + 1) n'
      return (lockp, called x ++ locks)
  else some (lockp, [])
termination_by n - i
decreasing_by
  have := sortPass_le _h
  omega

/-- `spin_lock_mult` on an array of `len` pointers. -/
def spinLockMult (len : ℕ) (lockp : ℕ → Ptr A) (n : ℕ) : Option ((ℕ → Ptr A) × List A) := lockFrom len lockp 0 n

/-- The loop of `spin_unlock_mult` from `i` on: the locks that it releases. -/
def unlockFrom (len : ℕ) (lockp : ℕ → Ptr A) (i n : ℕ) : Option (List A) :=
  if i < n then do
    let x ← get len lockp i
    let locks ← unlockFrom len lockp (i + 1) n
    return called x ++ locks
  else some []
termination_by n - i

def spinUnlockMult (len : ℕ) (lockp : ℕ → Ptr A) (n : ℕ) : Option (List A) := unlockFrom len lockp 0 n

/-- The array that a caller fills with the locks `ps`. -/
def fill (ps : List A) (k : ℕ) : Ptr A := ps[k]?

/-! ### What the loops keep -/

variable {ps : List A} {f : ℕ → Ptr A} {i j n : ℕ}

/-- The first `n` pointers are the locks `ps`, without some of the duplicates; the first `i` are in their places. -/
structure Sorting (ps : List A) (f : ℕ → Ptr A) (n i : ℕ) : Prop where
  le : n ≤ ps.length
  null : ∀ k, n ≤ k → k < ps.length → f k = ⊥
  mem : ∀ k, k < n → ∃ a ∈ ps, f k = a
  all : ∀ a ∈ ps, ∃ k < n, f k = a
  sorted : ∀ k, k < i → ∀ k', k < k' → k' < n → f k < f k'

/-- The pointer at `i` is smaller than those behind it up to `j`. -/
def Least (f : ℕ → Ptr A) (i j : ℕ) : Prop := ∀ k, i < k → k < j → f i < f k

section

variable {len : ℕ} (hij : i < j) (hj : j < n) (hn : n ≤ len)
include hij hj hn

theorem sortPass_lt (hlt : f i < f j) : sortPass len f i j n = sortPass len f i (j + 1) n := by
  rw [sortPass]
  simp [get, hj, hlt, show i < len by omega, show j < len by omega]

theorem sortPass_dup (heq : f i = f j) : sortPass len f i j n =
    sortPass len (Function.update (Function.update f j (f (n - 1))) (n - 1) ⊥) i j (n - 1) := by
  rw [sortPass]
  simp [get, put, hj, heq, show i < len by omega, show j < len by omega, show n - 1 < len by omega]

theorem sortPass_gt (hgt : f j < f i) : sortPass len f i j n =
    sortPass len (Function.update (Function.update f i (f j)) j (f i)) i (j + 1) n := by
  rw [sortPass]
  simp [get, put, hj, hgt.not_gt, hgt.ne', show i < len by omega, show j < len by omega]

end

theorem sortPass_done {len : ℕ} (hj : n ≤ j) : sortPass len f i j n = some (f, n) := by
  rw [sortPass, if_neg (by omega)]

/-- The last pointer takes the place of a duplicate. -/
theorem Sorting.duplicate (h : Sorting ps f n i) (hij : i < j) (hj : j < n) (heq : f i = f j) :
    Sorting ps (Function.update (Function.update f j (f (n - 1))) (n - 1) ⊥) (n - 1) i := by
  have hval : ∀ k, k < n - 1 → Function.update (Function.update f j (f (n - 1))) (n - 1) ⊥ k =
      f (if k = j then n - 1 else k) := fun k hk => by
    rw [Function.update_of_ne (by omega)]
    split
    next hkj => rw [hkj, Function.update_self]
    next hkj => rw [Function.update_of_ne hkj]
  refine ⟨by have := h.le; omega, fun k hk hkl => ?_, fun k hk => ?_, fun a ha => ?_, fun k hk k' hkk' hk' => ?_⟩
  · by_cases hkn : k = n - 1
    · rw [hkn, Function.update_self]
    · rw [Function.update_of_ne hkn, Function.update_of_ne (by omega)]
      exact h.null k (by omega) hkl
  · rw [hval k hk]
    exact h.mem _ (by split <;> omega)
  · obtain ⟨k, hk, hka⟩ := h.all a ha
    rcases Nat.lt_trichotomy k j with hlt | rfl | hgt
    · exact ⟨k, by omega, by rw [hval k (by omega), if_neg (by omega), hka]⟩
    · exact ⟨i, by omega, by rw [hval i (by omega), if_neg (by omega), heq, hka]⟩
    · by_cases hkn : k = n - 1
      · exact ⟨j, by omega, by rw [hval j (by omega), if_pos rfl, ← hkn, hka]⟩
      · exact ⟨k, by omega, by rw [hval k (by omega), if_neg (by omega), hka]⟩
  · rw [hval k (by omega), hval k' hk', if_neg (by omega)]
    exact h.sorted k hk _ (by split <;> omega) (by split <;> omega)

/-- Two pointers behind the first `i` change places. -/
theorem Sorting.swap (h : Sorting ps f n i) (hij : i < j) (hj : j < n) :
    Sorting ps (Function.update (Function.update f i (f j)) j (f i)) n i := by
  have hval : ∀ k, Function.update (Function.update f i (f j)) j (f i) k =
      f (if k = j then i else if k = i then j else k) := fun k => by
    split
    next hk => rw [hk, Function.update_self]
    next hk =>
      rw [Function.update_of_ne hk]
      split
      next hk' => rw [hk', Function.update_self]
      next hk' => rw [Function.update_of_ne hk']
  refine ⟨h.le, fun k hk hkl => ?_, fun k hk => ?_, fun a ha => ?_, fun k hk k' hkk' hk' => ?_⟩
  · rw [hval, if_neg (by omega), if_neg (by omega)]
    exact h.null k hk hkl
  · rw [hval]
    exact h.mem _ (by split <;> [omega; (split <;> omega)])
  · obtain ⟨k, hk, hka⟩ := h.all a ha
    by_cases hki : k = i
    · exact ⟨j, hj, by rw [hval, if_pos rfl, ← hki, hka]⟩
    · by_cases hkj : k = j
      · exact ⟨i, by omega, by rw [hval, if_neg (by omega), if_pos rfl, ← hkj, hka]⟩
      · exact ⟨k, hk, by rw [hval, if_neg hkj, if_neg hki, hka]⟩
  · rw [hval k, hval k', if_neg (by omega), if_neg (by omega)]
    exact h.sorted k hk _ (by split <;> [omega; (split <;> omega)]) (by split <;> [omega; (split <;> omega)])

/-- The loop over `j` puts the least of the pointers from `i` on at `i`. -/
theorem sortPass_spec (hij : i < j) (hjn : j ≤ n) (h : Sorting ps f n i) (hl : Least f i j) :
    ∃ f' n', sortPass ps.length f i j n = some (f', n') ∧ i < n' ∧ n' ≤ n ∧ Sorting ps f' n' (i + 1) ∧
      ∀ k, k < i → f' k = f k := by
  induction hd : n - j using Nat.strong_induction_on generalizing f j n with
  | _ d ih =>
    have hle := h.le
    rcases Nat.lt_or_ge j n with hj | hj
    · rcases lt_trichotomy (f i) (f j) with hlt | heq | hgt
      · rw [sortPass_lt hij hj hle hlt]
        refine ih (n - (j + 1)) (by omega) (by omega) hj h (fun k hk hkj => ?_) rfl
        by_cases hkj' : k = j
        · exact hkj' ▸ hlt
        · exact hl k hk (by omega)
      · rw [sortPass_dup hij hj hle heq]
        obtain ⟨f', n', hs, h1, h2, h3, h4⟩ := ih (n - 1 - j) (by omega) hij (by omega) (h.duplicate hij hj heq)
          (fun k hk hkj => by
            rw [Function.update_of_ne (by omega), Function.update_of_ne (by omega), Function.update_of_ne (by omega),
              Function.update_of_ne (by omega)]
            exact hl k hk hkj) rfl
        refine ⟨f', n', hs, h1, by omega, h3, fun k hk => ?_⟩
        rw [h4 k hk, Function.update_of_ne (by omega), Function.update_of_ne (by omega)]
      · rw [sortPass_gt hij hj hle hgt]
        obtain ⟨f', n', hs, h1, h2, h3, h4⟩ := ih (n - (j + 1)) (by omega) (by omega) hj (h.swap hij hj)
          (fun k hk hkj => by
            rw [Function.update_of_ne (by omega), Function.update_self]
            by_cases hkj' : k = j
            · rw [hkj', Function.update_self]
              exact hgt
            · rw [Function.update_of_ne hkj', Function.update_of_ne (by omega)]
              exact hgt.trans (hl k hk (by omega))) rfl
        refine ⟨f', n', hs, h1, h2, h3, fun k hk => ?_⟩
        rw [h4 k hk, Function.update_of_ne (by omega), Function.update_of_ne (by omega)]
    · refine ⟨f, n, sortPass_done hj, by omega, Nat.le_refl n,
        ⟨h.le, h.null, h.mem, h.all, fun k hk k' hkk' hk' => ?_⟩, fun _ _ => rfl⟩
      by_cases hki : k = i
      · exact hki ▸ hl k' (hki ▸ hkk') (by omega)
      · exact h.sorted k (by omega) k' hkk' hk'

omit [LinearOrder A] in
theorem called_coe (a : A) : called (a : Ptr A) = [a] := rfl

omit [LinearOrder A] in
theorem called_bot : called (⊥ : Ptr A) = [] := rfl

/-- The loop over `i` leaves the locks in ascending order, and it has taken those from `i` on. -/
theorem lockFrom_spec (hi : i ≤ n) (h : Sorting ps f n i) :
    ∃ f' n', lockFrom ps.length f i n = some (f', (List.range' i (n' - i)).flatMap fun k => called (f' k)) ∧
      i ≤ n' ∧ Sorting ps f' n' n' ∧ ∀ k, k < i → f' k = f k := by
  induction hd : n - i using Nat.strong_induction_on generalizing f i n with
  | _ d ih =>
    rw [lockFrom]
    split
    next hin =>
      obtain ⟨f₁, n₁, hs, hin₁, hn₁, h₁, hf₁⟩ :=
        sortPass_spec (Nat.lt_succ_self i) hin h fun k hk hk' => absurd hk' (by omega)
      obtain ⟨f', n', hr, hin', h', hf'⟩ := ih (n₁ - (i + 1)) (by omega) hin₁ h₁ rfl
      have hle := h.le
      refine ⟨f', n', ?_, by omega, h', fun k hk => by rw [hf' k (by omega), hf₁ k hk]⟩
      have hcons : List.range' i (n' - i) = i :: List.range' (i + 1) (n' - (i + 1)) := by
        rw [show n' - i = n' - (i + 1) + 1 by omega, List.range'_succ]
      split
      next hnone => rw [hs] at hnone; cases hnone
      next g m hsome =>
        obtain ⟨rfl, rfl⟩ := Prod.mk.inj (Option.some.inj (hs.symm.trans hsome))
        rw [hcons, List.flatMap_cons, hf' i (Nat.lt_succ_self i)]
        simp [get, hr, show i < ps.length by omega]
    next hin =>
      have hni : n = i := by omega
      subst hni
      exact ⟨f, n, by simp, Nat.le_refl n, h, fun _ _ => rfl⟩

omit [LinearOrder A] in
/-- The loop of `spin_unlock_mult` releases what stands in the array. -/
theorem unlockFrom_eq {len : ℕ} (f : ℕ → Ptr A) (hn : n ≤ len) :
    unlockFrom len f i n = some ((List.range' i (n - i)).flatMap fun k => called (f k)) := by
  induction hd : n - i generalizing i with
  | zero =>
    rw [unlockFrom, if_neg (by omega)]
    rfl
  | succ d ih =>
    rw [unlockFrom, if_pos (by omega), ih (by omega), List.range'_succ, List.flatMap_cons]
    simp [get, show i < len by omega]

theorem sorting_fill (ps : List A) : Sorting ps (fill ps) ps.length 0 where
  le := Nat.le_refl _
  null k hk hk' := absurd hk' (by omega)
  mem k hk := ⟨ps[k], List.getElem_mem hk, List.getElem?_eq_getElem hk⟩
  all a ha := by
    obtain ⟨k, hk, hka⟩ := List.getElem_of_mem ha
    exact ⟨k, hk, (List.getElem?_eq_getElem hk).trans (congrArg some hka)⟩
  sorted k hk := absurd hk (Nat.not_lt_zero k)

/-- The locks that stand in a sorted array. -/
theorem Sorting.locks (h : Sorting ps f n n) :
    ((List.range n).flatMap fun k => called (f k)).Pairwise (· < ·) ∧
      ∀ a, a ∈ (List.range n).flatMap (fun k => called (f k)) ↔ a ∈ ps := by
  refine ⟨?_, fun a => ?_⟩
  · rw [List.pairwise_flatMap]
    refine ⟨fun k hk => ?_, ?_⟩
    · obtain ⟨a, -, ha⟩ := h.mem k (List.mem_range.mp hk)
      rw [ha, called_coe]
      exact List.pairwise_singleton _ a
    · refine List.Pairwise.imp_of_mem (fun {k k'} hk hk' hlt => ?_) List.pairwise_lt_range
      obtain ⟨a, -, ha⟩ := h.mem k (List.mem_range.mp hk)
      obtain ⟨b, -, hb⟩ := h.mem k' (List.mem_range.mp hk')
      have hab := h.sorted k (List.mem_range.mp hk) k' hlt (List.mem_range.mp hk')
      rw [ha, hb, WithBot.coe_lt_coe] at hab
      rw [ha, hb]
      intro x hx y hy
      rw [List.mem_singleton.mp hx, List.mem_singleton.mp hy]
      exact hab
  · rw [List.mem_flatMap]
    constructor
    · rintro ⟨k, hk, hka⟩
      obtain ⟨b, hb, hkb⟩ := h.mem k (List.mem_range.mp hk)
      rw [hkb] at hka
      rw [List.mem_singleton.mp hka]
      exact hb
    · intro ha
      obtain ⟨k, hk, hka⟩ := h.all a ha
      exact ⟨k, List.mem_range.mpr hk, by rw [hka]; exact List.mem_singleton_self a⟩

/-- **Each lock once, in order.** `spin_lock_mult` ends without an access outside the array, takes every lock
of it once in ascending order, and `spin_unlock_mult` on what it leaves releases the same locks. -/
theorem spinLockMult_spec (ps : List A) :
    ∃ lockp locks, spinLockMult ps.length (fill ps) ps.length = some (lockp, locks) ∧
    spinUnlockMult ps.length lockp ps.length = some locks ∧ locks.Pairwise (· < ·) ∧ ∀ a, a ∈ locks ↔ a ∈ ps := by
  obtain ⟨f', n', hr, -, h', -⟩ := lockFrom_spec (Nat.zero_le _) (sorting_fill ps)
  have hle := h'.le
  refine ⟨f', _, hr, ?_, ?_⟩
  · rw [spinUnlockMult, unlockFrom_eq f' (Nat.le_refl _), Nat.sub_zero, Nat.sub_zero]
    -- behind the locks there are only `NULL`s
    obtain ⟨m, hm⟩ := Nat.exists_eq_add_of_le hle
    have hnull : (List.range' n' m).flatMap (fun k => called (f' k)) = [] := by
      rw [List.flatMap_eq_nil_iff]
      intro k hk
      obtain ⟨hk1, hk2⟩ := List.mem_range'_1.mp hk
      rw [h'.null k hk1 (by omega), called_bot]
    rw [hm, ← List.range'_append_1, List.flatMap_append, Nat.zero_add, hnull, List.append_nil]
  · rw [Nat.sub_zero, ← List.range_eq_range']
    exact h'.locks

/-! ### Many threads -/

/-- Where a thread is: not in a call, in `spin_lock_mult` with the locks it has taken and those to come, between
the two calls with the array that it keeps, or in `spin_unlock_mult` with the locks still to be released. -/
inductive Loc (A : Type)
  | idle
  | lock (lockp : ℕ → Ptr A) (n : ℕ) (held todo : List A)
  | inside (lockp : ℕ → Ptr A) (n : ℕ) (held : List A)
  | unlock (todo : List A)

structure St (τ A : Type) where
  loc : τ → Loc A
  lock : A → Option τ

/-- A call with some locks, or the next `spin_lock`, `spin_unlock` or return of a thread. -/
inductive Act (τ A : Type)
  | call (t : τ) (ps : List A)
  | step (t : τ)

variable {τ : Type} [DecidableEq τ]

/-- What a thread does next; a `spin_lock` waits until the lock is free. -/
def stepThread (t : τ) (s : St τ A) : Option (St τ A) :=
  match s.loc t with
  | .idle => none
  | .lock lockp n held (a :: todo) =>
    if s.lock a = none then
      some { loc := Function.update s.loc t (.lock lockp n (held ++ [a]) todo),
             lock := Function.update s.lock a (some t) }
    else none
  | .lock lockp n held [] => some { s with loc := Function.update s.loc t (.inside lockp n held) }
  | .inside lockp n _ => do
    let locks ← spinUnlockMult n lockp n
    return { s with loc := Function.update s.loc t (.unlock locks) }
  | .unlock (a :: todo) =>
    some { loc := Function.update s.loc t (.unlock todo), lock := Function.update s.lock a none }
  | .unlock [] => some { s with loc := Function.update s.loc t .idle }

def call (t : τ) (ps : List A) (s : St τ A) : Option (St τ A) :=
  match s.loc t with
  | .idle => do
    let (lockp, locks) ← spinLockMult ps.length (fill ps) ps.length
    return { s with loc := Function.update s.loc t (.lock lockp ps.length [] locks) }
  | _ => none

open Conc in
/-- Threads that use the two functions in pairs. -/
def sys (τ A : Type) [DecidableEq τ] [LinearOrder A] : Sys (St τ A) (Act τ A) where
  init s := (∀ t, s.loc t = .idle) ∧ ∀ a, s.lock a = none
  next
    | .call t ps, s => call t ps s
    | .step t, s => stepThread t s

/-- The lock that a thread at this place waits for. -/
def Loc.wants : Loc A → Option A
  | .lock _ _ _ (a :: _) => some a
  | _ => none

/-- The lock that a thread at this place releases next. -/
def Loc.releases : Loc A → Option A
  | .unlock (a :: _) => some a
  | _ => none

/-- The locks that a thread at this place has. -/
def Loc.Held : Loc A → A → Prop
  | .idle, _ => False
  | .lock _ _ held _, a => a ∈ held
  | .inside _ _ held, a => a ∈ held
  | .unlock todo, a => a ∈ todo

/-- The locks of a call are in order, and those that its `spin_unlock_mult` will find. -/
def Loc.Ok : Loc A → Prop
  | .idle => True
  | .lock lockp n held todo => spinUnlockMult n lockp n = some (held ++ todo) ∧ (held ++ todo).Pairwise (· < ·)
  | .inside lockp n held => spinUnlockMult n lockp n = some held ∧ held.Pairwise (· < ·)
  | .unlock todo => todo.Pairwise (· < ·)

/-- One thread waits for a lock of the other. -/
def Waits (s : St τ A) (t u : τ) : Prop := ∃ a, (s.loc t).wants = some a ∧ s.lock a = some u

/-- What holds in every state of every run. -/
structure Inv (s : St τ A) : Prop where
  locks : Conc.LocksBy True Loc.Held s.lock s.loc
  ok : ∀ t, (s.loc t).Ok

variable {s s' : St τ A} {t : τ} {l : Loc A}

/-- A step that takes and releases nothing. -/
theorem Inv.keep (h : Inv s) (hlock : s'.lock = s.lock) (hloc : s'.loc = Function.update s.loc t l)
    (hheld : ∀ a, l.Held a ↔ (s.loc t).Held a) (hok : l.Ok) : Inv s' where
  locks := hlock ▸ h.locks.keep hloc hheld
  ok := Conc.forall_update (P := fun _ => Loc.Ok) hloc hok fun u _ => h.ok u

theorem Inv.call {ps : List A} (h : Inv s) (hn : call t ps s = some s') : Inv s' := by
  unfold LockMult.call at hn
  split at hn
  next hl =>
    obtain ⟨lockp, locks, hcall, hrel, hsort, -⟩ := spinLockMult_spec ps
    simp only [hcall, Option.bind_eq_bind, Option.bind_some, Option.pure_def, Option.some.injEq] at hn
    subst hn
    refine h.keep rfl rfl (fun a => ?_) ⟨hrel, hsort⟩
    rw [hl]
    exact iff_of_false List.not_mem_nil id
  next => cases hn

theorem Inv.step (h : Inv s) (hn : stepThread t s = some s') : Inv s' := by
  have hok := h.ok t
  unfold stepThread at hn
  split at hn
  next => cases hn
  next lockp n held a todo hl =>
    split at hn
    next hfree =>
      cases hn
      rw [hl] at hok
      refine ⟨h.locks.take rfl (fun u => h.locks.not_held hfree) fun b => ?_,
        Conc.forall_update (P := fun _ => Loc.Ok) rfl ?_ fun u _ => h.ok u⟩
      · rw [hl]
        simp [Loc.Held]
      · simpa [Loc.Ok] using hok
    next => cases hn
  next lockp n held hl =>
    cases hn
    rw [hl] at hok
    refine h.keep rfl rfl (fun a => by rw [hl]; rfl) ?_
    simpa [Loc.Ok] using hok
  next lockp n held hl =>
    rw [hl] at hok
    simp only [hok.1, Option.bind_eq_bind, Option.bind_some, Option.pure_def, Option.some.injEq] at hn
    subst hn
    exact h.keep rfl rfl (fun a => by rw [hl]; rfl) hok.2
  next a todo hl =>
    cases hn
    rw [hl] at hok
    obtain ⟨hlt, hok⟩ := List.pairwise_cons.mp hok
    refine ⟨h.locks.drop rfl (a := a) ?_ fun b => ?_, Conc.forall_update (P := fun _ => Loc.Ok) rfl hok
      fun u _ => h.ok u⟩
    · rw [hl]
      exact List.mem_cons_self
    · rw [hl]
      refine ⟨fun hb => ⟨List.mem_cons_of_mem a hb, (hlt b hb).ne'⟩, fun hb => ?_⟩
      exact (List.mem_cons.mp hb.1).resolve_left hb.2
  next hl =>
    cases hn
    refine h.keep rfl rfl (fun a => ?_) trivial
    rw [hl]
    exact iff_of_false id List.not_mem_nil

theorem Inv.init (h : (sys τ A).init s) : Inv s where
  locks := {
    has := fun t a ha => by
      rw [h.1 t] at ha
      exact ha.elim
    only := fun _ t a ha => by
      rw [h.2 a] at ha
      cases ha }
  ok t := by
    rw [h.1 t]
    trivial

theorem inv_reach (h : (sys τ A).Reach Conc.Sys.always s) : Inv s := by
  refine h.inv (fun s => Inv.init) fun a s s' hi _ hn => ?_
  cases a with
  | call t ps => exact hi.call hn
  | step t => exact hi.step hn

omit [DecidableEq τ] in
theorem Inv.acyclic (h : Inv s) (t : τ) : ¬ Relation.TransGen (Waits s) t t := by
  have horder : ∀ t x p, (s.loc t).wants = some x → s.lock p = some t → p < x := fun t x p hw hp => by
    have hheld := h.locks.only trivial t p hp
    have hok := h.ok t
    cases hl : s.loc t with
    | lock lockp n held todo =>
      rw [hl] at hheld hok hw
      cases todo with
      | nil => cases hw
      | cons a todo =>
        cases hw
        exact (List.pairwise_append.mp hok.2).2.2 p hheld x List.mem_cons_self
    | idle | inside _ _ _ | unlock _ =>
      rw [hl] at hw
      cases hw
  exact @Conc.not_transGen_waits τ A (fun t => (s.loc t).wants) s.lock (· < ·)
    (fun hp hq => lt_trans hp hq) (fun p => lt_irrefl p) horder t

omit [DecidableEq τ] in
theorem Inv.releases (h : Inv s) {a : A} (hr : (s.loc t).releases = some a) : s.lock a = some t := by
  refine h.locks.has t a ?_
  cases hl : s.loc t with
  | unlock todo =>
    rw [hl] at hr
    cases todo with
    | nil => cases hr
    | cons b todo =>
      cases hr
      exact List.mem_cons_self
  | idle | inside _ _ _ | lock _ _ _ _ =>
    rw [hl] at hr
    cases hr

variable (τ A) in
/-- **Locking many locks.** On every array `spin_lock_mult` takes each lock once in ascending order and
`spin_unlock_mult` releases the same; so threads that use them release what they have, and never wait in a circle. -/
theorem lock_unlock_mult :
    (∀ ps : List A, ∃ lockp locks, spinLockMult ps.length (fill ps) ps.length = some (lockp, locks) ∧
      spinUnlockMult ps.length lockp ps.length = some locks ∧ locks.Pairwise (· < ·) ∧ ∀ a, a ∈ locks ↔ a ∈ ps) ∧
    ∀ s : St τ A, (sys τ A).Reach Conc.Sys.always s → ∀ t, ¬ Relation.TransGen (Waits s) t t ∧
      ∀ a, (s.loc t).releases = some a → s.lock a = some t :=
  ⟨spinLockMult_spec, fun _ hs t => ⟨(inv_reach hs).acyclic t, fun _ => (inv_reach hs).releases⟩⟩

/-! ### A run with duplicates -/

def start : St (Fin 2) ℕ := ⟨fun _ => .idle, fun _ => none⟩

theorem start_init : (sys (Fin 2) ℕ).init start := ⟨fun _ => rfl, fun _ => rfl⟩

/-- Thread 0 has taken the locks 1 and 2, each of them twice in its array, and is about to release the first one;
thread 1, which also has lock 3 in its array twice, waits for it. -/
def dups : List (Act (Fin 2) ℕ) := .call 0 [2, 1, 2, 1] :: .call 1 [3, 1, 3] :: List.replicate 4 (.step 0)

theorem lock_unlock_mult_dups :
    (spinLockMult 4 (fill [2, 1, 2, 1]) 4).map Prod.snd = some [1, 2] ∧
    ∃ s : St (Fin 2) ℕ, (sys (Fin 2) ℕ).Reach Conc.Sys.always s ∧ (s.loc 1).wants = some 1 ∧
      s.lock 1 = some 0 ∧ (s.loc 0).releases = some 1 ∧ ∀ t, ¬ Relation.TransGen (Waits s) t t ∧
        ∀ a, (s.loc t).releases = some a → s.lock a = some t := by
  have hrun : ((sys (Fin 2) ℕ).run Conc.Sys.always dups start).map
      (fun s => ((s.loc 1).wants, s.lock 1, (s.loc 0).releases)) = some (some 1, some 0, some 1) := by
    decide +kernel
  obtain ⟨s, hs, hd⟩ := Option.map_eq_some_iff.mp hrun
  obtain ⟨hw, hd⟩ := Prod.mk.inj hd
  obtain ⟨hl, hr⟩ := Prod.mk.inj hd
  have hreach := Conc.Sys.run_reach (.init start_init) hs
  exact ⟨by decide +kernel, s, hreach, hw, hl, hr, (lock_unlock_mult ℕ (Fin 2)).2 s hreach⟩

end LockMult
end Perfbook
