/-
# The tandem deque is linearizable, and its locks do not deadlock

The value is `ldeq` followed by `rdeq`. Each operation changes it in one of its
critical sections: a push where it queues its element, a pop where it gets
its element, or finds both deques empty under both locks. In the window of
`pdeq_pop_r` between its locks nothing is remembered but the call itself.

A thread waits with no lock, or for the right lock with the left one; so who
waits has fewer locks than whom it waits for (`rank_lt`), and no cycle closes.

Key definitions: `Inv`, `waits`, `Linearizable`.
Key theorem: `tandem_linearizable`.
-/
import Perfbook.Conc.Lock
import Perfbook.Deque.Tandem
import Mathlib.Logic.Relation

namespace Perfbook
namespace Deque
namespace Tandem

open Conc

variable {τ E : Type}

/-- The thread has the left lock. -/
def holdsL : Loc E → Bool
  | .pushLQue _ | .pushLRel | .popLDeqL | .popLLockR | .popLMove | .popLRelR _ | .popLRelL _ => true
  | .popRRelock | .popRMove | .popRRelL _ => true
  | _ => false

/-- The thread has the right lock. -/
def holdsR : Loc E → Bool
  | .pushRQue _ | .pushRRel | .popLMove | .popLRelR _ => true
  | .popRDeqR | .popRDrop | .popRMove | .popRRelL _ | .popRRelR _ => true
  | _ => false

/-- How far the call is. -/
def pend : Loc E → Pend (DequeOp E) (Res E)
  | .idle => .idle
  | .pushLLock e | .pushLQue e => .called (.pushL e)
  | .pushRLock e | .pushRQue e => .called (.pushR e)
  | .pushLRel | .pushRRel => .done .pushed
  | .popLLockL | .popLDeqL | .popLLockR | .popLMove => .called .popL
  | .popRLockR | .popRDeqR | .popRDrop | .popRLockL | .popRRelock | .popRMove => .called .popR
  | .popLRelR e | .popLRelL e | .popRRelL e | .popRRelR e => .done (.popped e)

/-- A left pop that goes for the right lock has seen the left deque empty. -/
def LocInv (s : St τ E) : Loc E → Prop
  | .popLLockR | .popLMove => s.ldeq = []
  | _ => True

/-- The contents of the deque. -/
def St.elems (s : St τ E) : List E := s.ldeq ++ s.rdeq

/-- The invariant. -/
structure Inv [DecidableEq τ] (s : St τ E) : Prop where
  llock : LockedBy holdsL s.llock s.loc
  rlock : LockedBy holdsR s.rlock s.loc
  loc : ∀ t, LocInv s (s.loc t)
  lin : Lin (deque E) s.hist s.done (fun t => pend (s.loc t)) s.elems

variable {s s' : St τ E} {t u : τ} {l : Loc E}

/-! ### The steps -/

section Steps

variable [DecidableEq τ]

/-- Only who has the left lock changes the left deque. -/
theorem Inv.of_step (h : Inv s) (hloc : s'.loc = Function.update s.loc t l)
    (hL : LockedBy holdsL s'.llock s'.loc) (hR : LockedBy holdsR s'.rlock s'.loc)
    (hl : LocInv s' l) (hd : s'.ldeq = s.ldeq ∨ holdsL (s.loc t) = true)
    (hlin : Lin (deque E) s'.hist s'.done (fun t => pend (s'.loc t)) s'.elems) : Inv s' := by
  refine ⟨hL, hR, forall_update (P := fun _ x => LocInv s' x) hloc hl fun u hu => ?_, hlin⟩
  have hlu := h.loc u
  have hkeep : holdsL (s.loc u) = true → s'.ldeq = s.ldeq := fun hh =>
    hd.resolve_right fun ht => hu (h.llock.eq ht hh)
  cases hx : s.loc u with
  | popLLockR | popLMove =>
    rw [hx] at hlu hkeep
    exact (hkeep rfl).trans hlu
  | _ => trivial

/-- A thread goes on with the locks it has. -/
theorem Inv.goto (h : Inv s) (hL : holdsL l = holdsL (s.loc t)) (hR : holdsR l = holdsR (s.loc t))
    (hl : LocInv s l) (hp : pend l = pend (s.loc t)) : Inv (s.goto t l) :=
  h.of_step rfl (h.llock.stay rfl hL) (h.rlock.stay rfl hR) (by cases l <;> exact hl) (.inl rfl)
    (h.lin.stay rfl hp)

theorem Inv.lockL (h : Inv s) (hn : s.lockL t l = some s') (hL : holdsL l = true)
    (hR : holdsR l = holdsR (s.loc t)) (hl : LocInv s l) (hp : pend l = pend (s.loc t)) :
    Inv s' := by
  unfold St.lockL at hn
  split at hn
  · rename_i hfree
    obtain rfl := Option.some.inj hn
    have hlock := h.llock
    rw [hfree] at hlock
    exact h.of_step rfl (hlock.take rfl hL) (h.rlock.stay rfl hR) (by cases l <;> exact hl)
      (.inl rfl) (h.lin.stay rfl hp)
  · cases hn

theorem Inv.lockR (h : Inv s) (hn : s.lockR t l = some s') (hR : holdsR l = true)
    (hL : holdsL l = holdsL (s.loc t)) (hl : LocInv s l) (hp : pend l = pend (s.loc t)) :
    Inv s' := by
  unfold St.lockR at hn
  split at hn
  · rename_i hfree
    obtain rfl := Option.some.inj hn
    have hlock := h.rlock
    rw [hfree] at hlock
    exact h.of_step rfl (h.llock.stay rfl hL) (hlock.take rfl hR) (by cases l <;> exact hl)
      (.inl rfl) (h.lin.stay rfl hp)
  · cases hn

/-- The deques change, and with them the value as the operation says. -/
theorem Inv.effect {o : DequeOp E} {r : Res E} {ld rd : List E} (h : Inv s)
    (hp : pend (s.loc t) = .called o) (ha : (deque E).apply o s.elems = (ld ++ rd, r))
    (hl : pend l = .done r) (hL : holdsL l = holdsL (s.loc t)) (hR : holdsR l = holdsR (s.loc t))
    (hd : ld = s.ldeq ∨ holdsL (s.loc t) = true) :
    Inv (({ s with ldeq := ld, rdeq := rd }.effect t o r).goto t l) := by
  refine h.of_step rfl (h.llock.stay rfl hL) (h.rlock.stay rfl hR) ?_ hd (h.lin.effect rfl hp ha hl)
  cases l with
  | popLLockR | popLMove => cases hl
  | _ => trivial

/-- The last unlock and the return. -/
theorem Inv.retL {r : Res E} (h : Inv s) (hp : pend (s.loc t) = .done r)
    (hL : holdsL (s.loc t) = true) (hR : holdsR (s.loc t) = false) : Inv (s.unlockL.ret t r) :=
  h.of_step rfl (h.llock.drop rfl hL rfl) (h.rlock.stay rfl hR.symm) trivial (.inl rfl)
    (h.lin.returned rfl hp rfl)

theorem Inv.retR {r : Res E} (h : Inv s) (hp : pend (s.loc t) = .done r)
    (hL : holdsL (s.loc t) = false) (hR : holdsR (s.loc t) = true) : Inv (s.unlockR.ret t r) :=
  h.of_step rfl (h.llock.stay rfl hL.symm) (h.rlock.drop rfl hR rfl) trivial (.inl rfl)
    (h.lin.returned rfl hp rfl)

/-- An unlock on the way. -/
theorem Inv.unlockL (h : Inv s) (ht : holdsL (s.loc t) = true) (hL : holdsL l = false)
    (hR : holdsR l = holdsR (s.loc t)) (hp : pend l = pend (s.loc t)) (hl : LocInv s l) :
    Inv (s.unlockL.goto t l) :=
  h.of_step rfl (h.llock.drop rfl ht hL) (h.rlock.stay rfl hR) (by cases l <;> exact hl) (.inl rfl)
    (h.lin.stay rfl hp)

theorem Inv.unlockR (h : Inv s) (ht : holdsR (s.loc t) = true) (hR : holdsR l = false)
    (hL : holdsL l = holdsL (s.loc t)) (hp : pend l = pend (s.loc t)) (hl : LocInv s l) :
    Inv (s.unlockR.goto t l) :=
  h.of_step rfl (h.llock.stay rfl hL) (h.rlock.drop rfl ht hR) (by cases l <;> exact hl) (.inl rfl)
    (h.lin.stay rfl hp)

/-- One step of a thread keeps the invariant. -/
theorem inv_step (h : Inv s) (hn : stepThread t s = some s') : Inv s' := by
  unfold stepThread at hn
  have hlt := h.loc t
  cases hl : s.loc t with
  | idle =>
    rw [hl] at hn
    cases hn
  | pushLLock e =>
    simp only [hl] at hn
    exact h.lockL hn rfl (by rw [hl]; rfl) trivial (by rw [hl]; rfl)
  | pushLQue e =>
    simp only [hl, Option.some.injEq] at hn
    subst hn
    exact h.effect (by rw [hl]; rfl) rfl rfl (by rw [hl]; rfl) (by rw [hl]; rfl)
      (.inr (by rw [hl]; rfl))
  | pushLRel =>
    simp only [hl, Option.some.injEq] at hn
    subst hn
    exact h.retL (by rw [hl]; rfl) (by rw [hl]; rfl) (by rw [hl]; rfl)
  | pushRLock e =>
    simp only [hl] at hn
    exact h.lockR hn rfl (by rw [hl]; rfl) trivial (by rw [hl]; rfl)
  | pushRQue e =>
    simp only [hl, Option.some.injEq] at hn
    subst hn
    refine h.effect (by rw [hl]; rfl) ?_ rfl (by rw [hl]; rfl) (by rw [hl]; rfl) (.inl rfl)
    simp [deque, St.elems, deqPushR]
  | pushRRel =>
    simp only [hl, Option.some.injEq] at hn
    subst hn
    exact h.retR (by rw [hl]; rfl) (by rw [hl]; rfl) (by rw [hl]; rfl)
  | popLLockL =>
    simp only [hl] at hn
    exact h.lockL hn rfl (by rw [hl]; rfl) trivial (by rw [hl]; rfl)
  | popLDeqL =>
    simp only [hl] at hn
    cases hd : s.ldeq with
    | nil =>
      simp only [hd, deqPopL, List.head?_nil, Option.some.injEq] at hn
      subst hn
      rw [List.tail_nil, ← hd]
      exact h.goto (by rw [hl]; rfl) (by rw [hl]; rfl) hd (by rw [hl]; rfl)
    | cons e d =>
      simp only [hd, deqPopL, List.head?_cons, Option.some.injEq] at hn
      subst hn
      refine h.effect (by rw [hl]; rfl) ?_ rfl (by rw [hl]; rfl) (by rw [hl]; rfl)
        (.inr (by rw [hl]; rfl))
      simp [deque, St.elems, hd]
  | popLLockR =>
    rw [hl] at hlt
    simp only [hl] at hn
    exact h.lockR hn rfl (by rw [hl]; rfl) hlt (by rw [hl]; rfl)
  | popLMove =>
    rw [hl] at hlt
    have hd : s.ldeq = [] := hlt
    simp only [hl, Option.some.injEq] at hn
    subst hn
    refine h.effect (by rw [hl]; rfl) ?_ rfl (by rw [hl]; rfl) (by rw [hl]; rfl)
      (.inr (by rw [hl]; rfl))
    simp [deque, St.elems, hd, listSplice, deqPopL]
  | popLRelR e =>
    simp only [hl, Option.some.injEq] at hn
    subst hn
    exact h.unlockR (by rw [hl]; rfl) rfl (by rw [hl]; rfl) (by rw [hl]; rfl) trivial
  | popLRelL e =>
    simp only [hl, Option.some.injEq] at hn
    subst hn
    exact h.retL (by rw [hl]; rfl) (by rw [hl]; rfl) (by rw [hl]; rfl)
  | popRLockR =>
    simp only [hl] at hn
    exact h.lockR hn rfl (by rw [hl]; rfl) trivial (by rw [hl]; rfl)
  | popRDeqR =>
    simp only [hl] at hn
    rcases List.eq_nil_or_concat s.rdeq with hd | ⟨d, e, hd⟩
    · simp only [hd, deqPopR, List.getLast?_nil, Option.some.injEq] at hn
      subst hn
      rw [List.dropLast_nil, ← hd]
      exact h.goto (by rw [hl]; rfl) (by rw [hl]; rfl) trivial (by rw [hl]; rfl)
    · rw [List.concat_eq_append] at hd
      simp only [hd, deqPopR, List.getLast?_concat, Option.some.injEq] at hn
      subst hn
      refine h.effect (by rw [hl]; rfl) ?_ rfl (by rw [hl]; rfl) (by rw [hl]; rfl) (.inl rfl)
      simp [deque, St.elems, hd, ← List.append_assoc]
  | popRDrop =>
    simp only [hl, Option.some.injEq] at hn
    subst hn
    exact h.unlockR (by rw [hl]; rfl) rfl (by rw [hl]; rfl) (by rw [hl]; rfl) trivial
  | popRLockL =>
    simp only [hl] at hn
    exact h.lockL hn rfl (by rw [hl]; rfl) trivial (by rw [hl]; rfl)
  | popRRelock =>
    simp only [hl] at hn
    exact h.lockR hn rfl (by rw [hl]; rfl) trivial (by rw [hl]; rfl)
  | popRMove =>
    simp only [hl] at hn
    rcases List.eq_nil_or_concat s.rdeq with hd | ⟨d, e, hd⟩
    · simp only [hd, deqPopR, List.getLast?_nil, Option.some.injEq] at hn
      subst hn
      refine h.effect (by rw [hl]; rfl) ?_ rfl (by rw [hl]; rfl) (by rw [hl]; rfl)
        (.inr (by rw [hl]; rfl))
      simp [deque, St.elems, hd, listSplice]
    · rw [List.concat_eq_append] at hd
      simp only [hd, deqPopR, List.getLast?_concat, Option.some.injEq] at hn
      subst hn
      refine h.effect (by rw [hl]; rfl) ?_ rfl (by rw [hl]; rfl) (by rw [hl]; rfl) (.inl rfl)
      simp [deque, St.elems, hd, ← List.append_assoc]
  | popRRelL e =>
    simp only [hl, Option.some.injEq] at hn
    subst hn
    exact h.unlockL (by rw [hl]; rfl) rfl (by rw [hl]; rfl) (by rw [hl]; rfl) trivial
  | popRRelR e =>
    simp only [hl, Option.some.injEq] at hn
    subst hn
    exact h.retR (by rw [hl]; rfl) (by rw [hl]; rfl) (by rw [hl]; rfl)

theorem inv_next {a : Act τ E} (h : Inv s) (hn : next a s = some s') : Inv s' := by
  cases a with
  | step t => exact inv_step h hn
  | call t o =>
    simp only [next] at hn
    split at hn
    · rename_i hl
      obtain rfl := Option.some.inj hn
      have hL : holdsL (entry o) = holdsL (s.loc t) := by
        rw [hl]
        cases o <;> rfl
      have hR : holdsR (entry o) = holdsR (s.loc t) := by
        rw [hl]
        cases o <;> rfl
      exact h.of_step rfl (h.llock.stay rfl hL) (h.rlock.stay rfl hR) (by cases o <;> trivial)
        (.inl rfl) (h.lin.called rfl (by rw [hl]; rfl) (by cases o <;> rfl))
    · cases hn

theorem inv_init (h : Init s) : Inv s where
  llock t := by rw [h.llock, h.loc t]; simp [holdsL]
  rlock t := by rw [h.rlock, h.loc t]; simp [holdsR]
  loc t := by rw [h.loc t]; trivial
  lin := by
    have hpend : (fun t => pend (s.loc t)) = fun _ => Pend.idle :=
      funext fun t => by rw [h.loc t]; rfl
    rw [h.hist, h.done, hpend, St.elems, h.ldeq, h.rdeq]
    exact .init

end Steps

/-! ### Who waits for whom -/

/-- The next step of the thread takes the left lock. -/
def wantsL : Loc E → Bool
  | .pushLLock _ | .popLLockL | .popRLockL => true
  | _ => false

/-- The next step of the thread takes the right lock. -/
def wantsR : Loc E → Bool
  | .pushRLock _ | .popLLockR | .popRLockR | .popRRelock => true
  | _ => false

/-- `t` waits for a lock that `u` has. -/
def waits (s : St τ E) (t u : τ) : Prop :=
  wantsL (s.loc t) = true ∧ s.llock = some u ∨ wantsR (s.loc t) = true ∧ s.rlock = some u

/-- The lock that a thread has, the right one if both: 2 is the right one. -/
def rank (l : Loc E) : ℕ := if holdsR l then 2 else if holdsL l then 1 else 0

theorem rank_of_wantsL (h : wantsL l = true) : rank l = 0 := by
  cases l with
  | pushLLock | popLLockL | popRLockL => rfl
  | _ => cases h

theorem rank_of_wantsR (h : wantsR l = true) : rank l ≤ 1 := by
  cases l with
  | pushRLock | popLLockR | popRLockR | popRRelock => simp [rank, holdsR, holdsL]
  | _ => cases h

variable [DecidableEq τ]

theorem rank_lt (h : Inv s) (hw : waits s t u) : rank (s.loc t) < rank (s.loc u) := by
  rcases hw with ⟨hw, hu⟩ | ⟨hw, hu⟩
  · have hL := (h.llock u).mp hu
    rw [rank_of_wantsL hw]
    unfold rank
    split <;> simp
  · have hR := (h.rlock u).mp hu
    rw [rank.eq_1 (s.loc u), hR]
    exact Nat.lt_succ_of_le (rank_of_wantsR hw)

theorem no_cycle (h : Inv s) (t : τ) : ¬ Relation.TransGen (waits s) t t := by
  have hlt : ∀ {a b}, Relation.TransGen (waits s) a b → rank (s.loc a) < rank (s.loc b) := by
    intro a b hab
    induction hab with
    | single hw => exact rank_lt h hw
    | tail _ hw ih => exact Nat.lt_trans ih (rank_lt h hw)
  exact fun htt => Nat.lt_irrefl _ (hlt htt)

/-! ### Every run -/

/-- What the users of the deque may rely on. -/
structure Linearizable (s : St τ E) : Prop where
  /-- the calls are those of one deque, whose value is `ldeq` followed by `rdeq` -/
  lin : Lin (deque E) s.hist s.done (fun t => pend (s.loc t)) (s.ldeq ++ s.rdeq)
  /-- nothing is lost and nothing comes out twice -/
  kept : (s.done.filterMap fun x => x.op.arg).Perm (poppedBy s.done ++ (s.ldeq ++ s.rdeq))
  /-- a pop returns `NULL` only if its effect found the deque empty -/
  null : ∀ S₁ x S₂, s.done = S₁ ++ x :: S₂ → x.res = .popped none → Legal (deque E) S₁ []
  noDeadlock : ∀ t, ¬ Relation.TransGen (waits s) t t

/-- **The tandem deque is linearizable**, and no threads wait for each other in
a cycle, for any number of threads and any order of their steps. -/
theorem tandem_linearizable (h : (sys τ E).Reach Sys.always s) : Linearizable s := by
  have hinv : Inv s := by
    refine h.inv (fun _ => inv_init) fun a s s' hi _ hn => ?_
    have hn' : next a s = some s' := hn
    exact inv_next hi hn'
  have hlegal := hinv.lin.legal
  exact
    { lin := hinv.lin
      kept := deque_perm hlegal
      null := fun S₁ x S₂ hS hx => deque_null hlegal hS hx
      noDeadlock := no_cycle hinv }

/-! ### A run -/

def start : St (Fin 2) ℕ where
  llock := none
  ldeq := []
  rlock := none
  rdeq := []
  loc _ := .idle
  hist := []
  done := []

theorem start_init : Init start := ⟨rfl, rfl, rfl, rfl, fun _ => rfl, rfl, rfl⟩

/-- `n` steps of thread `t` in a row. -/
def steps (n : ℕ) (t : Fin 2) : List (Act (Fin 2) ℕ) := List.replicate n (.step t)

/-- Thread 0 pushes 5 and 6 on the left while thread 1 is in the window of
`pdeq_pop_r`; thread 1 then gets 5 and moves 6 over. -/
def popInWindow : List (Act (Fin 2) ℕ) :=
  [.call 1 .popR] ++ steps 3 1 ++ [.call 0 (.pushL 5)] ++ steps 3 0 ++ [.call 0 (.pushL 6)] ++
    steps 3 0 ++ steps 5 1

theorem tandem_linearizable_run : ∃ s, (sys (Fin 2) ℕ).Reach Sys.always s ∧ poppedBy s.done = [5] ∧
    s.rdeq = [6] ∧ Linearizable s := by
  have hrun : ((sys (Fin 2) ℕ).run Sys.always popInWindow start).map
      (fun s => (poppedBy s.done, s.rdeq)) = some ([5], [6]) := by
    decide
  obtain ⟨s, hs, hd⟩ := Option.map_eq_some_iff.mp hrun
  have hr := Sys.run_reach (.init start_init) hs
  obtain ⟨hp, hr'⟩ := Prod.mk.injEq .. ▸ hd
  exact ⟨s, hr, hp, hr', tandem_linearizable hr⟩

end Tandem
end Deque
end Perfbook
